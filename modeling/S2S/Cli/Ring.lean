/-
# The ring between two threads

`ma_pcm_rb` of `src/vendor/miniaudio/miniaudio.h`, as far as `src/tools/s2s-cli.cpp`
uses it: one thread writes, one reads, and each moves an offset of its own.  An
offset that comes to the end goes back to the start and turns its loop flag, so
equal offsets are an empty ring or a full one.  What is acquired never goes past
the end of the buffer, so a reader or a writer comes back for the rest.

The ring holds a queue (`Ring.contents`): what is committed is taken from its
front (`commitRead_sound`) or put behind it (`commitWrite_sound`).
-/

import S2S.Lanes

namespace S2S
namespace Cli

open Lanes

variable {α : Type}

/-- `ma_pcm_rb`, one slot a sample frame. -/
structure Ring (α : Type) where
  slots : List α
  readAt : ℕ
  readLoop : Bool
  writeAt : ℕ
  writeLoop : Bool

namespace Ring

/-- `ma_pcm_rb_init`, of `n` slots. -/
def init (n : ℕ) (x : α) : Ring α := ⟨List.replicate n x, 0, false, 0, false⟩

variable (r : Ring α)

/-- What lies between the reader and the end of the buffer or the writer. -/
def readable : ℕ :=
  if r.readLoop = r.writeLoop then r.writeAt - r.readAt else r.slots.length - r.readAt

/-- What lies between the writer and the end of the buffer or the reader. -/
def writable : ℕ :=
  if r.writeLoop = r.readLoop then r.slots.length - r.writeAt else r.readAt - r.writeAt

/-- `ma_pcm_rb_acquire_read`: what is in the buffer acquired. -/
def acquireRead (n : ℕ) : List α := (r.slots.drop r.readAt).take (min n r.readable)

/-- `ma_pcm_rb_commit_read`. -/
def commitRead (n : ℕ) : Ring α :=
  if r.readAt + n > r.slots.length then r
  else if r.readAt + n = r.slots.length then { r with readAt := 0, readLoop := !r.readLoop }
  else { r with readAt := r.readAt + n }

/-- `ma_pcm_rb_acquire_write`: how much may be written. -/
def acquireWrite (n : ℕ) : ℕ := min n r.writable

/-- The buffer acquired, written. -/
def fill (xs : List α) : Ring α := { r with slots := copyTo xs r.slots r.writeAt }

/-- `ma_pcm_rb_commit_write`. -/
def commitWrite (n : ℕ) : Ring α :=
  if r.writeAt + n > r.slots.length then r
  else if r.writeAt + n = r.slots.length then { r with writeAt := 0, writeLoop := !r.writeLoop }
  else { r with writeAt := r.writeAt + n }

/-- `ma_pcm_rb_available_read`. -/
def availableRead : ℕ :=
  if r.readLoop = r.writeLoop then r.writeAt - r.readAt
  else r.writeAt + (r.slots.length - r.readAt)

/-- `ma_pcm_rb_seek_read`. -/
def seekRead (n : ℕ) : Ring α :=
  if n > r.slots.length then r
  else if r.readLoop = r.writeLoop then { r with readAt := min (r.readAt + n) r.writeAt }
  else if r.readAt + n ≥ r.slots.length then
    { r with readAt := r.readAt + n - r.slots.length, readLoop := !r.readLoop }
  else { r with readAt := r.readAt + n }

/-! ### The queue -/

/-- What was written and not read yet. -/
def contents : List α :=
  if r.readLoop = r.writeLoop then (r.slots.take r.writeAt).drop r.readAt
  else r.slots.drop r.readAt ++ r.slots.take r.writeAt

/-- The offsets are in the buffer, and neither overtakes the other. -/
structure Sound : Prop where
  readAt_lt : r.readAt < r.slots.length
  writeAt_lt : r.writeAt < r.slots.length
  same : r.readLoop = r.writeLoop → r.readAt ≤ r.writeAt
  looped : r.readLoop ≠ r.writeLoop → r.writeAt ≤ r.readAt

variable {r} {n : ℕ} {xs : List α}

theorem sound_init (hn : 0 < n) (x : α) : (init n x).Sound := by
  constructor <;> simp [init, hn]

@[simp] theorem contents_init (n : ℕ) (x : α) : (init n x).contents = [] := by
  simp [init, contents]

theorem contents_length (h : r.Sound) : r.contents.length = r.availableRead := by
  have := h.writeAt_lt
  unfold contents availableRead
  split_ifs <;> simp only [List.length_append, List.length_drop, List.length_take] <;> omega

theorem readable_le (h : r.Sound) : r.readable ≤ r.contents.length := by
  rw [contents_length h]
  unfold readable availableRead
  split_ifs <;> omega

/-- **What is acquired is the front of the queue.** -/
theorem acquireRead_eq (h : r.Sound) (n : ℕ) :
    r.acquireRead n = r.contents.take (min n r.readable) := by
  have := h.writeAt_lt
  unfold acquireRead contents readable
  split_ifs with hloop
  · have := h.same hloop
    rw [List.drop_take, List.take_take]
    congr 1
    omega
  · rw [List.take_append_of_le_length]
    rw [List.length_drop]
    omega

theorem acquireRead_prefix (h : r.Sound) (n : ℕ) : r.acquireRead n <+: r.contents :=
  acquireRead_eq h n ▸ List.take_prefix _ _

/-- No more than asked for. -/
theorem length_acquireRead_le (r : Ring α) (n : ℕ) : (r.acquireRead n).length ≤ n := by
  unfold acquireRead
  rw [List.length_take]
  omega

/-- No more than lies there in one piece. -/
theorem acquireRead_le (r : Ring α) (n : ℕ) : (r.acquireRead n).length ≤ r.readable := by
  unfold acquireRead
  rw [List.length_take]
  omega

/-- **Nothing is acquired only where nothing is left.** -/
theorem acquireRead_eq_nil (h : r.Sound) (hn : 0 < n) : r.acquireRead n = [] ↔ r.contents = [] := by
  have hreadable : r.readable = 0 ↔ r.contents = [] := by
    rw [← List.length_eq_zero_iff, contents_length h]
    have := h.readAt_lt
    unfold readable availableRead
    split_ifs <;> omega
  rw [acquireRead_eq h, List.take_eq_nil_iff, ← hreadable]
  constructor
  · rintro (hmin | hnil)
    · omega
    · exact hnil
  · intro hzero
    left
    omega

/-- The buffer in front of the writer is as it was. -/
theorem take_fill (hn : r.writeAt + xs.length ≤ r.slots.length) :
    (copyTo xs r.slots r.writeAt).take (r.writeAt + xs.length) = r.slots.take r.writeAt ++ xs := by
  have hlength : (r.slots.take r.writeAt ++ xs).length = r.writeAt + xs.length := by
    rw [List.length_append, List.length_take]
    omega
  unfold copyTo
  rw [← hlength, List.take_left]

/-- So is what lies behind what is written. -/
theorem drop_fill {k : ℕ} (hn : r.writeAt + xs.length ≤ k) (hk : k ≤ r.slots.length) :
    (copyTo xs r.slots r.writeAt).drop k = r.slots.drop k := by
  have hlength : (r.slots.take r.writeAt ++ xs).length = r.writeAt + xs.length := by
    rw [List.length_append, List.length_take]
    omega
  unfold copyTo
  rw [List.drop_append, hlength, List.drop_of_length_le (by omega), List.nil_append,
    List.drop_drop]
  congr 1
  omega

/-- What may be written comes to the end of the buffer at most. -/
theorem fits_of_le_writable (h : r.Sound) (hn : xs.length ≤ r.writable) :
    r.writeAt + xs.length ≤ r.slots.length := by
  have := h.writeAt_lt
  have := h.readAt_lt
  unfold writable at hn
  split_ifs at hn with hloop
  · omega
  · have := h.looped (Ne.symm hloop)
    omega

/-- **What is written and committed goes behind the queue.** -/
theorem commitWrite_sound (h : r.Sound) (hn : xs.length ≤ r.writable) :
    ((r.fill xs).commitWrite xs.length).Sound ∧
      ((r.fill xs).commitWrite xs.length).contents = r.contents ++ xs := by
  have hfits := fits_of_le_writable h hn
  obtain ⟨hread, hwrite, hsame, hlooped⟩ := h
  unfold writable at hn
  have hlength : (copyTo xs r.slots r.writeAt).length = r.slots.length := length_copyTo hfits
  have htake := take_fill hfits
  unfold fill commitWrite
  dsimp only
  rw [hlength, if_neg (by omega)]
  by_cases hloop : r.readLoop = r.writeLoop
  · have hle := hsame hloop
    -- the reader is behind the writer, on the same round
    have hcontents : (r.slots.take r.writeAt ++ xs).drop r.readAt =
        (r.slots.take r.writeAt).drop r.readAt ++ xs :=
      List.drop_append_of_le_length (by rw [List.length_take]; omega)
    split_ifs with hend
    · have hturn : ¬r.readLoop = !r.writeLoop := by simp [hloop]
      refine ⟨⟨?_, ?_, fun heq => absurd heq hturn, fun _ => Nat.zero_le _⟩, ?_⟩
      · show r.readAt < (copyTo xs r.slots r.writeAt).length
        omega
      · show 0 < (copyTo xs r.slots r.writeAt).length
        omega
      · rw [hend, List.take_of_length_le (by omega)] at htake
        simp only [contents, if_neg hturn, if_pos hloop, List.take_zero, List.append_nil]
        rw [htake, hcontents]
    · refine ⟨⟨?_, ?_, fun _ => ?_, fun hne => absurd hloop hne⟩, ?_⟩
      · show r.readAt < (copyTo xs r.slots r.writeAt).length
        omega
      · show r.writeAt + xs.length < (copyTo xs r.slots r.writeAt).length
        omega
      · show r.readAt ≤ r.writeAt + xs.length
        omega
      · simp only [contents, if_pos hloop]
        rw [htake, hcontents]
  · have hle := hlooped hloop
    rw [if_neg (Ne.symm hloop)] at hn
    -- the writer is a round ahead, so it comes to the reader before the end
    rw [if_neg (by omega)]
    refine ⟨⟨?_, ?_, fun heq => absurd heq hloop, fun _ => ?_⟩, ?_⟩
    · show r.readAt < (copyTo xs r.slots r.writeAt).length
      omega
    · show r.writeAt + xs.length < (copyTo xs r.slots r.writeAt).length
      omega
    · show r.writeAt + xs.length ≤ r.readAt
      omega
    · simp only [contents, if_neg hloop]
      rw [htake, drop_fill (by omega) (by omega), List.append_assoc]

/-- **A seek drops the front.** -/
theorem seekRead_sound (h : r.Sound) (hn : n ≤ r.contents.length) :
    (r.seekRead n).Sound ∧ (r.seekRead n).contents = r.contents.drop n := by
  rw [contents_length h] at hn
  obtain ⟨hread, hwrite, hsame, hlooped⟩ := h
  unfold availableRead at hn
  unfold seekRead
  by_cases hloop : r.readLoop = r.writeLoop
  · have hle := hsame hloop
    rw [if_pos hloop] at hn
    rw [if_neg (by omega), if_pos hloop, Nat.min_eq_left (by omega)]
    refine ⟨⟨?_, hwrite, fun _ => ?_, fun hne => absurd hloop hne⟩, ?_⟩
    · show r.readAt + n < r.slots.length
      omega
    · show r.readAt + n ≤ r.writeAt
      omega
    · simp [contents, hloop, List.drop_drop]
  · have hle := hlooped hloop
    rw [if_neg hloop] at hn
    rw [if_neg (by omega), if_neg hloop]
    split_ifs with hend
    · have hturn : (!r.readLoop) = r.writeLoop := Bool.not_eq.2 hloop
      refine ⟨⟨?_, hwrite, fun _ => ?_, fun hne => absurd hturn hne⟩, ?_⟩
      · show r.readAt + n - r.slots.length < r.slots.length
        omega
      · show r.readAt + n - r.slots.length ≤ r.writeAt
        omega
      · simp only [contents, if_neg hloop, if_pos hturn]
        have hbehind : (r.slots.drop r.readAt).drop n = [] :=
          List.drop_of_length_le (by rw [List.length_drop]; omega)
        rw [List.drop_append, hbehind, List.nil_append, List.length_drop]
        congr 1
        omega
    · refine ⟨⟨?_, hwrite, fun heq => absurd heq hloop, fun _ => ?_⟩, ?_⟩
      · show r.readAt + n < r.slots.length
        omega
      · show r.writeAt ≤ r.readAt + n
        omega
      · simp only [contents, if_neg hloop]
        rw [List.drop_append_of_le_length (by rw [List.length_drop]; omega), List.drop_drop]

/-- **A commit is a seek** over what was acquired. -/
theorem commitRead_eq_seekRead (h : r.Sound) (hn : n ≤ r.readable) :
    r.commitRead n = r.seekRead n := by
  obtain ⟨hread, hwrite, hsame, hlooped⟩ := h
  unfold readable at hn
  unfold commitRead seekRead
  by_cases hloop : r.readLoop = r.writeLoop
  · have hle := hsame hloop
    rw [if_pos hloop] at hn
    have hover : ¬r.readAt + n > r.slots.length := by omega
    have hend : ¬r.readAt + n = r.slots.length := by omega
    have hlong : ¬n > r.slots.length := by omega
    rw [if_neg hover, if_neg hend, if_neg hlong, if_pos hloop, Nat.min_eq_left (by omega)]
  · rw [if_neg hloop] at hn
    have hover : ¬r.readAt + n > r.slots.length := by omega
    have hlong : ¬n > r.slots.length := by omega
    rw [if_neg hover, if_neg hlong, if_neg hloop]
    -- what lies in one piece comes to the end at most, so the seek turns there and nowhere else
    by_cases hend : r.readAt + n = r.slots.length
    · rw [if_pos hend, if_pos (Nat.le_of_eq hend.symm), hend, Nat.sub_self]
    · have hshort : ¬r.readAt + n ≥ r.slots.length := by omega
      rw [if_neg hend, if_neg hshort]

/-- **A commit takes what was acquired off the front.** -/
theorem commitRead_sound (h : r.Sound) (hn : n ≤ r.readable) :
    (r.commitRead n).Sound ∧ (r.commitRead n).contents = r.contents.drop n := by
  rw [commitRead_eq_seekRead h hn]
  exact seekRead_sound h (Nat.le_trans hn (readable_le h))

/-! ### What one side leaves the other -/

/-- The reader makes room. -/
theorem writable_seekRead (h : r.Sound) (hn : n ≤ r.contents.length) :
    r.writable ≤ (r.seekRead n).writable := by
  rw [contents_length h] at hn
  obtain ⟨hread, hwrite, hsame, hlooped⟩ := h
  unfold availableRead at hn
  unfold seekRead writable
  by_cases hloop : r.readLoop = r.writeLoop
  · rw [if_pos hloop]
    split_ifs <;> first | exact Nat.le_refl _ | exact absurd hloop.symm ‹_›
  · have hle := hlooped hloop
    rw [if_neg hloop] at hn
    have hover : ¬n > r.slots.length := by omega
    rw [if_neg hover, if_neg hloop, if_neg (Ne.symm hloop)]
    by_cases hend : r.readAt + n ≥ r.slots.length
    · rw [if_pos hend, if_pos (Bool.not_eq.2 hloop).symm]
      show r.readAt - r.writeAt ≤ r.slots.length - r.writeAt
      omega
    · rw [if_neg hend, if_neg (Ne.symm hloop)]
      show r.readAt - r.writeAt ≤ r.readAt + n - r.writeAt
      omega

theorem writable_commitRead (h : r.Sound) (hn : n ≤ r.readable) :
    r.writable ≤ (r.commitRead n).writable := by
  rw [commitRead_eq_seekRead h hn]
  exact writable_seekRead h (Nat.le_trans hn (readable_le h))

/-- The writer brings more to read. -/
theorem readable_commitWrite (h : r.Sound) (hn : xs.length ≤ r.writable) :
    r.readable ≤ ((r.fill xs).commitWrite xs.length).readable := by
  have hfits := fits_of_le_writable h hn
  obtain ⟨hread, hwrite, hsame, hlooped⟩ := h
  unfold writable at hn
  have hlength : (copyTo xs r.slots r.writeAt).length = r.slots.length := length_copyTo hfits
  have hover : ¬r.writeAt + xs.length > (copyTo xs r.slots r.writeAt).length := by omega
  unfold fill commitWrite readable
  rw [if_neg hover]
  by_cases hend : r.writeAt + xs.length = (copyTo xs r.slots r.writeAt).length
  · rw [if_pos hend]
    by_cases hloop : r.readLoop = r.writeLoop
    · have hturn : ¬r.readLoop = !r.writeLoop := by simp [hloop]
      rw [if_pos hloop, if_neg hturn]
      show r.writeAt - r.readAt ≤ (copyTo xs r.slots r.writeAt).length - r.readAt
      omega
    · have hle := hlooped hloop
      rw [if_neg (Ne.symm hloop)] at hn
      omega
  · rw [if_neg hend]
    by_cases hloop : r.readLoop = r.writeLoop
    · rw [if_pos hloop, if_pos hloop]
      show r.writeAt - r.readAt ≤ r.writeAt + xs.length - r.readAt
      omega
    · rw [if_neg hloop, if_neg hloop]
      exact Nat.le_of_eq (by rw [hlength])

end Ring

end Cli
end S2S
