/-
# Arrays in lanes

A flat array that holds one lane of `n` numbers after the other, the way a
tensor holds its outermost dimension: lane `k` starts at `k * n`.  Writing one
lane leaves the others (`lane_copyTo_of_ne`), and an array that grows keeps the
lanes it had (`lane_append`).
-/

import Mathlib.Data.List.GetD
import Mathlib.Tactic.SplitIfs

namespace S2S
namespace Lanes

variable {α : Type}

/-- Lane `k` of an array of lanes of `n`. -/
def lane (n k : ℕ) (xs : List α) : List α := (xs.drop (k * n)).take n

/-- `ys` copied into `xs`, from `start` on. -/
def copyTo (ys xs : List α) (start : ℕ) : List α :=
  xs.take start ++ ys ++ xs.drop (start + ys.length)

/-- `xs` cut, or filled up with `x`, to `n`. -/
def resize (xs : List α) (n : ℕ) (x : α) : List α :=
  xs.take n ++ List.replicate (n - xs.length) x

section Entries

variable {n k j i start : ℕ} {xs ys : List α}

theorem getElem?_lane : (lane n k xs)[i]? = if i < n then xs[k * n + i]? else none := by
  simp only [lane, List.getElem?_take, List.getElem?_drop]

theorem getElem?_copyTo (h : start + ys.length ≤ xs.length) :
    (copyTo ys xs start)[i]? =
      if start ≤ i ∧ i < start + ys.length then ys[i - start]? else xs[i]? := by
  have hstart : (xs.take start).length = start := by simp; omega
  unfold copyTo
  rcases Nat.lt_or_ge i start with hi | hi
  · rw [List.append_assoc, List.getElem?_append_left (by omega), if_neg (by omega),
      List.getElem?_take, if_pos hi]
  · rw [List.append_assoc, List.getElem?_append_right (by omega), hstart]
    by_cases hin : i < start + ys.length
    · rw [if_pos ⟨hi, hin⟩, List.getElem?_append_left (by omega)]
    · rw [if_neg (by omega), List.getElem?_append_right (by omega), List.getElem?_drop]
      congr 1
      omega

/-- Lane `k` ends before lane `j` begins. -/
theorem lane_end_le (n : ℕ) (h : k < j) : k * n + n ≤ j * n := by
  have := Nat.mul_le_mul_right n (Nat.succ_le_of_lt h)
  rwa [Nat.succ_mul] at this

end Entries

section Lengths

variable {n k start : ℕ} {xs ys : List α}

@[simp] theorem length_copyTo (h : start + ys.length ≤ xs.length) :
    (copyTo ys xs start).length = xs.length := by
  simp only [copyTo, List.length_append, List.length_take, List.length_drop]
  omega

@[simp] theorem length_lane (h : k * n + n ≤ xs.length) : (lane n k xs).length = n := by
  simp only [lane, List.length_take, List.length_drop]
  omega

@[simp] theorem length_resize (x : α) : (resize xs n x).length = n := by
  simp only [resize, List.length_append, List.length_take, List.length_replicate]
  omega

theorem resize_of_le (x : α) (h : xs.length ≤ n) :
    resize xs n x = xs ++ List.replicate (n - xs.length) x := by
  rw [resize, List.take_of_length_le h]

end Lengths

/-! ### Writing -/

section Writing

variable {n k j : ℕ} {xs ys : List α}

/-- A lane written is read back. -/
theorem lane_copyTo_self (hys : ys.length = n) (h : k * n + n ≤ xs.length) :
    lane n k (copyTo ys xs (k * n)) = ys := by
  refine List.ext_getElem? fun i => ?_
  rw [getElem?_lane, getElem?_copyTo (by omega)]
  split_ifs with hi hin
  · congr 1
    omega
  · omega
  · exact (List.getElem?_eq_none (by omega)).symm

/-- **Writing a lane leaves the others.** -/
theorem lane_copyTo_of_ne (hkj : k ≠ j) (hys : ys.length = n) (h : k * n + n ≤ xs.length) :
    lane n j (copyTo ys xs (k * n)) = lane n j xs := by
  refine List.ext_getElem? fun i => ?_
  rw [getElem?_lane, getElem?_lane, getElem?_copyTo (by omega)]
  split_ifs with hi hin
  · rcases Nat.lt_or_gt_of_ne hkj with hlt | hlt
    · have := lane_end_le n hlt
      omega
    · have := lane_end_le n hlt
      omega
  · rfl
  · rfl

/-- **An array that grows keeps its lanes.** -/
theorem lane_append (h : k * n + n ≤ xs.length) : lane n k (xs ++ ys) = lane n k xs := by
  refine List.ext_getElem? fun i => ?_
  rw [getElem?_lane, getElem?_lane]
  split_ifs with hi
  · exact List.getElem?_append_left (by omega)
  · rfl

/-- Lane after lane. -/
theorem length_flatMap_lanes {f : ℕ → List α} {m : ℕ} (hf : ∀ k < m, (f k).length = n) :
    ((List.range m).flatMap f).length = m * n := by
  induction m with
  | zero => simp
  | succ m ih =>
    rw [List.range_succ, List.flatMap_append, List.length_append, List.flatMap_singleton,
      hf m (by omega), ih fun k hk => hf k (by omega), Nat.succ_mul]

/-- **Lane after lane, each is read back.** -/
theorem lane_flatMap {f : ℕ → List α} {m : ℕ} (hf : ∀ k < m, (f k).length = n) (hk : k < m) :
    lane n k ((List.range m).flatMap f) = f k := by
  induction m with
  | zero => omega
  | succ m ih =>
    have hlen := length_flatMap_lanes (m := m) fun j hj => hf j (by omega)
    rw [List.range_succ, List.flatMap_append, List.flatMap_singleton]
    rcases Nat.lt_succ_iff_lt_or_eq.1 hk with hlt | rfl
    · rw [lane_append (by rw [hlen]; exact lane_end_le n hlt)]
      exact ih (fun j hj => hf j (by omega)) hlt
    · rw [lane, ← hlen, List.drop_left, List.take_of_length_le (Nat.le_of_eq (hf k hk))]

end Writing

end Lanes
end S2S
