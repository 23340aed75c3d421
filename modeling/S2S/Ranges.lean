/-
# A set as a table of ranges

A set of numbers kept as the sorted table of its ranges, and the search that
halves the table.  A table whose ranges follow each other strictly (`Ordered`)
is searched right: a number is found exactly when a range of the table holds it
(`inRanges_iff`).
-/

import Mathlib.Data.List.Chain
import Mathlib.Order.Basic

namespace S2S

/-- A first and a last number. -/
structure NumberRange where
  first : ℕ
  last : ℕ

/-- A range holds what lies between its ends. -/
def NumberRange.Holds (r : NumberRange) (n : ℕ) : Prop := r.first ≤ n ∧ n ≤ r.last

instance (r : NumberRange) (n : ℕ) : Decidable (r.Holds n) := inferInstanceAs (Decidable (_ ∧ _))

/-- The loop over the part `[lo, hi)` of a table. -/
def inRangesFrom (ranges : Array NumberRange) (n lo hi : ℕ) (hhi : hi ≤ ranges.size) : Bool :=
  if hlo : lo < hi then
    let mid := (lo + hi) / 2
    have hmid : mid < ranges.size := by omega
    if n < ranges[mid].first then inRangesFrom ranges n lo mid hmid.le
    else if ranges[mid].last < n then inRangesFrom ranges n (mid + 1) hi hhi
    else true
  else false
termination_by hi - lo

/-- Whether a table holds a number, by halving. -/
def inRanges (ranges : Array NumberRange) (n : ℕ) : Bool :=
  inRangesFrom ranges n 0 ranges.size le_rfl

/-- Every range ends before the next begins. -/
structure Ordered (ranges : Array NumberRange) : Prop where
  range : ∀ r ∈ ranges, r.first ≤ r.last
  next : ∀ i j (hi : i < ranges.size) (hj : j < ranges.size), i < j →
    ranges[i].last < ranges[j].first

/-- A table is ordered when each range is, and is followed by a later one. -/
theorem ordered_of_isChain {ranges : Array NumberRange}
    (hrange : ∀ r ∈ ranges.toList, r.first ≤ r.last)
    (hnext : ranges.toList.IsChain fun r r' => r.last < r'.first) : Ordered ranges := by
  refine ⟨fun r hr => hrange r (Array.mem_toList_iff.2 hr), fun i j hi hj hij => ?_⟩
  have hget : ∀ k (hk : k < ranges.size), ranges[k].first ≤ ranges[k].last :=
    fun k hk => hrange _ (Array.mem_toList_iff.2 (Array.getElem_mem hk))
  induction j, hij using Nat.le_induction with
  | base =>
    have hstep := List.isChain_iff_getElem.1 hnext i (by simpa using hj)
    simp only [Array.getElem_toList] at hstep
    exact hstep
  | succ j hij ih =>
    have hstep := List.isChain_iff_getElem.1 hnext j (by simpa using hj)
    have hprev := ih (by omega)
    have hj' := hget j (by omega)
    simp only [Array.getElem_toList] at hstep
    omega

section Search

variable {ranges : Array NumberRange} (h : Ordered ranges) (n : ℕ)
include h

theorem inRangesFrom_iff {lo hi : ℕ} (hhi : hi ≤ ranges.size) :
    inRangesFrom ranges n lo hi hhi = true ↔
      ∃ i, ∃ hi' : i < ranges.size, lo ≤ i ∧ i < hi ∧ ranges[i].Holds n := by
  fun_induction inRangesFrom ranges n lo hi hhi with
  | case1 lo hi hhi hlo mid hmid hbelow ih =>
    -- What lies before a range lies before every later one.
    rw [ih]
    constructor
    · rintro ⟨i, hi', hloi, himid, hholds⟩
      exact ⟨i, hi', hloi, by omega, hholds⟩
    · rintro ⟨i, hi', hloi, hihi, hholds⟩
      refine ⟨i, hi', hloi, ?_, hholds⟩
      by_contra hle
      rcases Nat.lt_or_eq_of_le (Nat.le_of_not_lt hle) with hlt | rfl
      · have hnext := h.next mid i hmid hi' hlt
        have hrange := h.range _ (Array.getElem_mem hmid)
        have := hholds.1
        omega
      · exact absurd hholds.1 (by omega)
  | case2 lo hi hhi hlo mid hmid hbelow habove ih =>
    rw [ih]
    constructor
    · rintro ⟨i, hi', hmidi, hihi, hholds⟩
      exact ⟨i, hi', by omega, hihi, hholds⟩
    · rintro ⟨i, hi', hloi, hihi, hholds⟩
      refine ⟨i, hi', ?_, hihi, hholds⟩
      by_contra hlt
      rcases Nat.lt_or_eq_of_le (Nat.le_of_lt_succ (Nat.lt_of_not_le hlt)) with hlt | rfl
      · have hnext := h.next i mid hi' hmid hlt
        have hrange := h.range _ (Array.getElem_mem hmid)
        have := hholds.2
        omega
      · exact absurd hholds.2 (by omega)
  | case3 lo hi hhi hlo mid hmid hbelow habove =>
    simp only [true_iff]
    exact ⟨mid, hmid, by omega, by omega, Nat.le_of_not_lt hbelow, Nat.le_of_not_lt habove⟩
  | case4 lo hi hhi hlo =>
    simp only [Bool.false_eq_true, false_iff]
    rintro ⟨i, -, hloi, hihi, -⟩
    omega

/-- **The search is right**: a number is found exactly when a range holds it. -/
theorem inRanges_iff : inRanges ranges n = true ↔ ∃ r ∈ ranges, r.Holds n := by
  rw [inRanges, inRangesFrom_iff h n]
  constructor
  · rintro ⟨i, hi, -, -, hholds⟩
    exact ⟨ranges[i], Array.getElem_mem hi, hholds⟩
  · rintro ⟨r, hr, hholds⟩
    obtain ⟨i, hi, rfl⟩ := Array.getElem_of_mem hr
    exact ⟨i, hi, Nat.zero_le i, hi, hholds⟩

end Search

end S2S
