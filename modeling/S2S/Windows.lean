/-
# Windows over a stream that arrives in pieces

A window of `K` elements that advances by `step` over a list: the windows that
lie wholly within it (`windows`) and what is kept for the ones to come
(`leftover`).  The windows of a longer list are those of its start, then those
of what was kept followed by the rest (`windows_append`), so a stream gives the
same windows however it is cut into pieces (`cutPieces_flatten`).
-/

import Mathlib.Algebra.Order.Ring.Nat
import Mathlib.Data.List.Basic
import Mathlib.Tactic.Ring

namespace S2S

/-- The number of windows of `K` elements, one every `step`, within `n`. -/
def windowCount (K step n : ℕ) : ℕ := if n < K then 0 else (n - K) / step + 1

variable {α : Type} {K step : ℕ}

/-- **A window counts when it ends within the list.** -/
theorem lt_windowCount_iff (hstep : 0 < step) {g n : ℕ} :
    g < windowCount K step n ↔ g * step + K ≤ n := by
  unfold windowCount
  split_ifs with hn
  · constructor <;> intro h <;> omega
  · rw [Nat.lt_succ_iff, Nat.le_div_iff_mul_le hstep]
    omega

/-- What the windows leave behind was there. -/
theorem windowCount_mul_le (hstep : 0 < step) (hle : step ≤ K) (n : ℕ) :
    windowCount K step n * step ≤ n := by
  rcases Nat.eq_zero_or_pos (windowCount K step n) with h | h
  · rw [h]
    omega
  · have hlast := (lt_windowCount_iff hstep).1 (Nat.sub_lt h one_pos)
    have hmul : windowCount K step n * step = (windowCount K step n - 1) * step + step := by
      rw [← Nat.succ_mul, Nat.succ_eq_add_one, Nat.sub_add_cancel h]
    omega

/-- Too little is left for one more window. -/
theorem lt_windowCount_mul_add (hstep : 0 < step) (n : ℕ) :
    n < windowCount K step n * step + K :=
  not_le.1 fun h => lt_irrefl _ ((lt_windowCount_iff hstep).2 h)

/-- The windows of a longer list, counted at a cut. -/
theorem windowCount_add (hstep : 0 < step) (hle : step ≤ K) (n m : ℕ) :
    windowCount K step (n + m) =
      windowCount K step n + windowCount K step (n - windowCount K step n * step + m) := by
  have hin := windowCount_mul_le hstep hle n
  refine eq_of_forall_lt_iff fun g => ?_
  rw [lt_windowCount_iff hstep]
  rcases lt_or_ge g (windowCount K step n) with hg | hg
  · have := (lt_windowCount_iff hstep).1 hg
    constructor <;> intro <;> omega
  · obtain ⟨k, rfl⟩ := Nat.exists_eq_add_of_le hg
    rw [Nat.add_lt_add_iff_left, lt_windowCount_iff hstep, Nat.add_mul]
    omega

/-- The window at position `g`. -/
def window (K step : ℕ) (xs : List α) (g : ℕ) : List α := (xs.drop (g * step)).take K

/-- **The windows that lie wholly within a list**, in order. -/
def windows (K step : ℕ) (xs : List α) : List (List α) :=
  (List.range (windowCount K step xs.length)).map (window K step xs)

/-- What is kept once the windows are taken: where the next one would begin. -/
def leftover (K step : ℕ) (xs : List α) : List α :=
  xs.drop (windowCount K step xs.length * step)

theorem length_leftover (xs : List α) :
    (leftover K step xs).length = xs.length - windowCount K step xs.length * step :=
  List.length_drop

theorem length_leftover_lt (hstep : 0 < step) (hle : step ≤ K) (xs : List α) :
    (leftover K step xs).length < K := by
  have := @lt_windowCount_mul_add K step hstep xs.length
  have := windowCount_mul_le hstep hle xs.length
  rw [length_leftover]
  omega

theorem windows_of_lt {xs : List α} (h : xs.length < K) : windows K step xs = [] := by
  simp [windows, windowCount, h]

theorem leftover_of_lt {xs : List α} (h : xs.length < K) : leftover K step xs = xs := by
  simp [leftover, windowCount, h]

theorem windowCount_of_le (hstep : 0 < step) (hle : step ≤ K) {n : ℕ} (h : K ≤ n) :
    windowCount K step n = windowCount K step (n - step) + 1 := by
  refine eq_of_forall_lt_iff fun g => ?_
  rw [lt_windowCount_iff hstep]
  cases g with
  | zero => omega
  | succ g =>
    rw [Nat.add_lt_add_iff_right, lt_windowCount_iff hstep, Nat.succ_mul]
    omega

/-- The first window, then those from one step on. -/
theorem windows_of_le (hstep : 0 < step) (hle : step ≤ K) (xs : List α) (h : K ≤ xs.length) :
    windows K step xs = xs.take K :: windows K step (xs.drop step) := by
  unfold windows
  rw [windowCount_of_le hstep hle h, List.range_succ_eq_map, List.map_cons, List.map_map,
    List.length_drop]
  congr 1
  · simp [window]
  · refine List.map_congr_left fun g _ => ?_
    simp only [Function.comp_apply, window]
    rw [Nat.succ_mul, Nat.add_comm, List.drop_drop]

/-- A window within the start of a list is not changed by the rest. -/
theorem window_append {xs ys : List α} {g : ℕ} (h : g * step + K ≤ xs.length) :
    window K step (xs ++ ys) g = window K step xs g := by
  unfold window
  rw [List.drop_append_of_le_length (by omega), List.take_append_of_le_length]
  rw [List.length_drop]
  omega

/-- **The windows of a longer list** are those of its start, then those of what
was kept followed by the rest. -/
theorem windows_append (hstep : 0 < step) (hle : step ≤ K) (xs ys : List α) :
    windows K step (xs ++ ys) = windows K step xs ++ windows K step (leftover K step xs ++ ys) := by
  have hin := windowCount_mul_le hstep hle xs.length
  unfold windows
  rw [List.length_append, windowCount_add hstep hle, List.range_add, List.map_append, List.map_map,
    List.length_append, length_leftover]
  congr 1
  · refine List.map_congr_left fun g hg => window_append ?_
    exact (lt_windowCount_iff hstep).1 (List.mem_range.1 hg)
  · refine List.map_congr_left fun g _ => ?_
    simp only [Function.comp_apply, window, leftover]
    rw [Nat.add_mul, ← List.drop_drop, List.drop_append_of_le_length hin]

theorem leftover_append (hstep : 0 < step) (hle : step ≤ K) (xs ys : List α) :
    leftover K step (xs ++ ys) = leftover K step (leftover K step xs ++ ys) := by
  have hin := windowCount_mul_le hstep hle xs.length
  have hlen : (leftover K step xs ++ ys).length =
      xs.length - windowCount K step xs.length * step + ys.length := by
    rw [List.length_append, length_leftover]
  rw [leftover, leftover, hlen, List.length_append, windowCount_add hstep hle, Nat.add_mul,
    ← List.drop_drop, List.drop_append_of_le_length hin]
  rfl

/-- The windows each piece of a stream completes, and what is kept in the end. -/
def cutPieces (K step : ℕ) : List α → List (List α) → List (List (List α)) × List α
  | kept, [] => ([], kept)
  | kept, piece :: pieces =>
    let rest := cutPieces K step (leftover K step (kept ++ piece)) pieces
    (windows K step (kept ++ piece) :: rest.1, rest.2)

/-- **A stream gives the same windows however it is cut.** -/
theorem cutPieces_flatten (hstep : 0 < step) (hle : step ≤ K) (pieces : List (List α)) :
    ∀ kept : List α, kept.length < K →
      (cutPieces K step kept pieces).1.flatten = windows K step (kept ++ pieces.flatten) ∧
        (cutPieces K step kept pieces).2 = leftover K step (kept ++ pieces.flatten) := by
  induction pieces with
  | nil =>
    intro kept hkept
    simp [cutPieces, windows_of_lt hkept, leftover_of_lt hkept]
  | cons piece pieces ih =>
    intro kept hkept
    obtain ⟨hwindows, hleft⟩ := ih _ (length_leftover_lt hstep hle (kept ++ piece))
    simp only [cutPieces, List.flatten_cons]
    rw [hwindows, hleft, ← List.append_assoc, ← windows_append hstep hle,
      ← leftover_append hstep hle]
    exact ⟨rfl, rfl⟩

end S2S
