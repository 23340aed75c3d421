/-
# The audio of a turn, framed for the model

The buffer that `st_compute` in `src/smart-turn.cpp` lays out before its graphs
run: the last window of the turn, silence behind a shorter one, and both ends
mirrored for the STFT.  The buffer outlives the job, so what an earlier turn
left in it has to go (`stAudio_eq_padded`).
-/

import Mathlib.Tactic.Set
import S2S.Lanes

namespace S2S
namespace SmartTurn

open Lanes

variable {F P : Type}

/-- The model as the worker uses it: its graphs from the buffer to the score, and the score that
says that a graph failed. -/
structure Model (F P : Type) where
  window : ℕ
  nFft : ℕ
  /-- The window is longer than what is mirrored of it. -/
  wide : nFft / 2 < window
  score : List F → P
  failed : P
  negative : P → Bool
  negative_failed : negative failed = true

section Audio

variable [Zero F] (M : Model F P)

/-- One sample of each mirrored end. -/
def mirror (audio : List F) (i : ℕ) : List F :=
  let half := M.nFft / 2
  let audio := audio.set (half - 1 - i) (audio.getD (half + 1 + i) 0)
  audio.set (M.window + half + i) (audio.getD (M.window + half - 2 - i) 0)

/-- The buffer of `st_compute`, over what was in it. -/
def stAudio (audio pcm : List F) : List F :=
  let half := M.nFft / 2
  let kept := min pcm.length M.window
  let skip := pcm.length - kept
  let audio := audio.map fun _ => 0
  let audio := copyTo (pcm.drop skip) audio half
  (List.range half).foldl (mirror M) audio

/-! ### What the model is to see -/

/-- The last window of a turn, silence behind it. -/
def Model.frame (pcm : List F) : List F :=
  pcm.drop (pcm.length - M.window) ++ List.replicate (M.window - pcm.length) 0

/-- The sample of the window that stands at `j` of the buffer. -/
def Model.source (j : ℕ) : ℕ :=
  let half := M.nFft / 2
  if j < half then half - j
  else if j < M.window + half then j - half
  else 2 * M.window + half - 2 - j

/-- The window, mirrored at both ends. -/
def Model.padded (pcm : List F) : List F :=
  (List.range (M.window + M.nFft)).map fun j =>
    if j < M.window + 2 * (M.nFft / 2) then (M.frame pcm).getD (M.source j) 0 else 0

theorem Model.frame_length (pcm : List F) : (M.frame pcm).length = M.window := by
  simp only [Model.frame, List.length_append, List.length_drop, List.length_replicate]
  omega

/-! ### The buffer -/

/-- How far the ends are mirrored after `k` samples of each. -/
def mirrored (k j : ℕ) : ℕ :=
  let half := M.nFft / 2
  if half - k ≤ j ∧ j < half then 2 * half - j
  else if M.window + half ≤ j ∧ j < M.window + half + k then 2 * (M.window + half) - 2 - j
  else j

theorem getD_set (audio : List F) {i j : ℕ} (hi : i < audio.length) (x : F) :
    (audio.set i x).getD j 0 = if j = i then x else audio.getD j 0 := by
  simp only [List.getD_eq_getElem?_getD]
  split_ifs with hji
  · rw [hji, List.getElem?_set_self hi]
    rfl
  · rw [List.getElem?_set_ne (Ne.symm hji)]

@[simp] theorem mirror_length (audio : List F) (i : ℕ) :
    (mirror M audio i).length = audio.length := by
  simp [mirror]

theorem foldl_mirror_length (audio : List F) (k : ℕ) :
    ((List.range k).foldl (mirror M) audio).length = audio.length := by
  induction k with
  | zero => rfl
  | succ k ih => rw [List.range_succ, List.foldl_append, List.foldl_cons, List.foldl_nil,
      mirror_length, ih]

/-- **The ends are mirrored**: what is read was written by no sample before. -/
theorem foldl_mirror {audio : List F} (hlength : audio.length = M.window + M.nFft) {k : ℕ}
    (hk : k ≤ M.nFft / 2) (j : ℕ) :
    ((List.range k).foldl (mirror M) audio).getD j 0 = audio.getD (mirrored M k j) 0 := by
  have hwide := M.wide
  induction k generalizing j with
  | zero =>
    have hnone : mirrored M 0 j = j := by
      simp only [mirrored]
      split_ifs <;> omega
    rw [hnone]
    rfl
  | succ k ih =>
    have hbefore := fun j => ih (by omega) j
    have hsize := foldl_mirror_length M audio k
    rw [List.range_succ, List.foldl_append, List.foldl_cons, List.foldl_nil]
    set before := (List.range k).foldl (mirror M) audio
    have hleft : M.nFft / 2 - 1 - k < before.length := by omega
    have hright : M.window + M.nFft / 2 + k < before.length := by omega
    simp only [mirror]
    rw [getD_set _ (by rwa [List.length_set]), getD_set _ hleft, getD_set _ hleft, hbefore, hbefore,
      hbefore]
    simp only [mirrored]
    split_ifs <;> first | omega | exact congrArg (audio.getD · 0) (by omega)

theorem placed_length {audio : List F} (hlength : audio.length = M.window + M.nFft) (pcm : List F) :
    (copyTo (pcm.drop (pcm.length - min pcm.length M.window)) (audio.map fun _ => 0)
      (M.nFft / 2)).length = M.window + M.nFft := by
  rw [length_copyTo, List.length_map, hlength]
  rw [List.length_map, List.length_drop]
  omega

/-- The window stands behind what is mirrored of it. -/
theorem placed_getD {audio : List F} (hlength : audio.length = M.window + M.nFft) (pcm : List F)
    (j : ℕ) (hj : M.nFft / 2 ≤ j) :
    (copyTo (pcm.drop (pcm.length - min pcm.length M.window)) (audio.map fun _ => 0)
      (M.nFft / 2)).getD j 0 = (M.frame pcm).getD (j - M.nFft / 2) 0 := by
  have hskip : pcm.length - min pcm.length M.window = pcm.length - M.window := by omega
  have hzero : ∀ n, (audio.map fun _ => (0 : F)).getD n 0 = 0 := fun n => by
    rw [List.getD_eq_getElem?_getD, List.getElem?_map]
    cases audio[n]? <;> rfl
  rw [hskip, List.getD_eq_getElem?_getD, getElem?_copyTo]
  · simp only [List.length_drop, Model.frame]
    split_ifs with hin
    · rw [List.getD_append _ _ _ _ (by rw [List.length_drop]; omega), List.getD_eq_getElem?_getD]
    · rw [← List.getD_eq_getElem?_getD, hzero, List.getD_append_right _ _ _ _
        (by rw [List.length_drop]; omega), List.getD_eq_getElem?_getD, List.getElem?_replicate]
      split_ifs <;> rfl
  · rw [List.length_map, List.length_drop]
    omega

/-- **The buffer is what the model is to see**, whatever an earlier turn left in it. -/
theorem stAudio_eq_padded {audio : List F} (hlength : audio.length = M.window + M.nFft)
    (pcm : List F) : stAudio M audio pcm = M.padded pcm := by
  have hwide := M.wide
  have hplaced := placed_length M hlength pcm
  have hsize : (stAudio M audio pcm).length = M.window + M.nFft :=
    (foldl_mirror_length M _ _).trans hplaced
  refine List.ext_getElem (by rw [hsize, Model.padded, List.length_map, List.length_range])
    fun j hj hj' => ?_
  have hend : M.nFft / 2 ≤ mirrored M (M.nFft / 2) j := by
    simp only [mirrored]
    split_ifs <;> omega
  have hbuffer := foldl_mirror M hplaced (Nat.le_refl (M.nFft / 2)) j
  rw [placed_getD M hlength pcm _ hend] at hbuffer
  rw [← List.getD_eq_getElem _ 0 hj]
  refine hbuffer.trans ?_
  simp only [Model.padded, List.getElem_map, List.getElem_range]
  split_ifs with hin
  · congr 1
    simp only [mirrored, Model.source]
    split_ifs <;> omega
  · -- a sample behind both ends, where the STFT is of an odd size
    rw [List.getD_eq_getElem?_getD, List.getElem?_eq_none]
    · rfl
    · rw [M.frame_length]
      simp only [mirrored]
      split_ifs <;> omega

end Audio

end SmartTurn
end S2S
