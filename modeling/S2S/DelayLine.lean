/-
# A delay line

The last samples of a stream in a ring of a power of two slots.  The position of
the next write counts up in a word and wraps with it; its low bits are the slot.

Because the size of the ring divides the range of the word, the wrap of the word
does not show: the slot of a position before the last is where the sample so far
back was written (`slot_ofInt`), and it is still there while it is not as far
back as the ring is long (`DelayLine.read`).
-/

import Mathlib.Data.BitVec
import Mathlib.Data.Int.ModEq
import Mathlib.Tactic.Linarith
import Mathlib.Tactic.Positivity
import Mathlib.Tactic.Ring

namespace S2S

variable {α : Type*} {w bits : ℕ}

/-! ### Slots -/

/-- The slot of a position. -/
def slot (mask pos : BitVec w) : ℕ := (pos &&& mask).toNat

/-- The mask of a ring of `2 ^ bits` slots. -/
def lowMask (w bits : ℕ) : BitVec w := BitVec.ofNat w (2 ^ bits - 1)

/-- **The wrap does not show.** -/
theorem slot_ofInt (hbits : bits ≤ w) (n : ℤ) :
    (slot (lowMask w bits) (BitVec.ofInt w n) : ℤ) = n % 2 ^ bits := by
  have hsize : 2 ^ bits ≤ 2 ^ w := Nat.pow_le_pow_right two_pos hbits
  have hmask : (2 ^ bits - 1) % 2 ^ w = 2 ^ bits - 1 :=
    Nat.mod_eq_of_lt (by have := Nat.two_pow_pos bits; omega)
  have hdvd : (2 ^ bits : ℤ) ∣ ((2 ^ w : ℕ) : ℤ) := by
    push_cast
    exact pow_dvd_pow 2 hbits
  have hnonneg : 0 ≤ n % ((2 ^ w : ℕ) : ℤ) := Int.emod_nonneg _ (by positivity)
  calc (slot (lowMask w bits) (BitVec.ofInt w n) : ℤ)
      = ((n % ((2 ^ w : ℕ) : ℤ)).toNat % 2 ^ bits : ℕ) := by
        rw [slot, lowMask, BitVec.toNat_and, BitVec.toNat_ofNat, hmask,
          Nat.and_two_pow_sub_one_eq_mod, BitVec.toNat_ofInt]
    _ = n % ((2 ^ w : ℕ) : ℤ) % 2 ^ bits := by
        rw [Int.natCast_mod, Int.toNat_of_nonneg hnonneg, Nat.cast_pow (2 : ℕ) bits]
        rfl
    _ = n % 2 ^ bits := Int.emod_emod_of_dvd n hdvd

theorem slot_lt (hbits : bits ≤ w) (pos : BitVec w) : slot (lowMask w bits) pos < 2 ^ bits := by
  have hslot := slot_ofInt hbits (pos.toInt)
  rw [BitVec.ofInt_toInt] at hslot
  have hlt := Int.emod_lt_of_pos pos.toInt (show (0 : ℤ) < 2 ^ bits by positivity)
  rw [← hslot] at hlt
  exact_mod_cast hlt

/-- Two positions less than the ring apart have two slots. -/
theorem slot_ne (hbits : bits ≤ w) {m n : ℤ} (hlt : m < n) (hnear : n - m < 2 ^ bits) :
    slot (lowMask w bits) (BitVec.ofInt w m) ≠ slot (lowMask w bits) (BitVec.ofInt w n) := by
  intro hslot
  have hmod : m % 2 ^ bits = n % 2 ^ bits := by
    rw [← slot_ofInt hbits, ← slot_ofInt hbits, hslot]
  have hdvd : (2 ^ bits : ℤ) ∣ n - m := (Int.ModEq.dvd hmod)
  have := Int.le_of_dvd (by omega) hdvd
  omega

/-! ### The stream -/

/-- The sample so far before the last one, a blank one before the first. -/
def back (blank : α) (xs : List α) (d : ℕ) : α := xs.reverse[d]?.getD blank

@[simp] theorem back_nil (blank : α) (d : ℕ) : back blank [] d = blank := by
  simp [back]

@[simp] theorem back_concat_zero (blank : α) (xs : List α) (x : α) :
    back blank (xs ++ [x]) 0 = x := by
  simp [back]

@[simp] theorem back_concat_succ (blank : α) (xs : List α) (x : α) (d : ℕ) :
    back blank (xs ++ [x]) (d + 1) = back blank xs d := by
  simp [back]

/-- What is less far back than the end is long is in the end. -/
theorem back_append (blank : α) (xs : List α) {ys : List α} {d : ℕ} (hd : d < ys.length) :
    back blank (xs ++ ys) d = back blank ys d := by
  rw [back, back, List.reverse_append, List.getElem?_append_left (by simpa using hd)]

/-! ### The line -/

/-- **A ring holds the end of a stream**, and the position is where the next sample goes. -/
structure DelayLine (bits : ℕ) (ring : List α) (pos : BitVec w) (blank : α) (xs : List α) :
    Prop where
  bits_le : bits ≤ w
  length_ring : ring.length = 2 ^ bits
  pos_eq : pos = BitVec.ofInt w xs.length
  held : ∀ d : ℕ, d < 2 ^ bits →
    ring[slot (lowMask w bits) (BitVec.ofInt w (xs.length - 1 - d))]? = some (back blank xs d)

namespace DelayLine

variable {ring : List α} {pos : BitVec w} {blank : α} {xs : List α}

/-- A blank ring, from the start. -/
theorem start (hbits : bits ≤ w) (x : α) :
    DelayLine bits (List.replicate (2 ^ bits) x) (0 : BitVec w) x [] where
  bits_le := hbits
  length_ring := List.length_replicate
  pos_eq := by simp
  held d _ := by
    rw [List.getElem?_replicate, if_pos (slot_lt hbits _), back_nil]

/-- A sample goes in. -/
theorem push (h : DelayLine bits ring pos blank xs) (x : α) :
    DelayLine bits (ring.set (slot (lowMask w bits) pos) x) (pos + 1) blank (xs ++ [x]) where
  bits_le := h.bits_le
  length_ring := by rw [List.length_set, h.length_ring]
  pos_eq := by
    rw [h.pos_eq, List.length_append, List.length_singleton]
    push_cast
    rw [BitVec.ofInt_add]
    rfl
  held d hd := by
    have hlast : ((xs ++ [x]).length : ℤ) - 1 - d = xs.length - d := by
      rw [List.length_append, List.length_singleton]
      push_cast
      ring
    rw [hlast, h.pos_eq]
    cases d with
    | zero =>
      have hslot := slot_lt h.bits_le (BitVec.ofInt w xs.length)
      rw [Nat.cast_zero, sub_zero, back_concat_zero, List.getElem?_set_self (by
        rw [h.length_ring]
        exact hslot)]
    | succ d =>
      have hold := h.held d (by omega)
      have hplace : (xs.length : ℤ) - (d + 1 : ℕ) = xs.length - 1 - d := by
        push_cast
        ring
      -- the slot written is not the one of a sample less far back than the ring is long
      have hne := slot_ne h.bits_le (m := xs.length - 1 - d) (n := xs.length) (by omega) (by
        have : ((d + 1 : ℕ) : ℤ) < (2 ^ bits : ℕ) := by exact_mod_cast hd
        push_cast at this
        linarith)
      rw [hplace, List.getElem?_set_ne hne.symm, hold, back_concat_succ]

/-- **A read reaches the sample so far back**, while that is not as far as the ring is long. -/
theorem read (h : DelayLine bits ring pos blank xs) {d : ℕ} (hd : d < 2 ^ bits) :
    ring[slot (lowMask w bits) (pos - 1 - BitVec.ofNat w d)]? = some (back blank xs d) := by
  have hpos : pos - 1 - BitVec.ofNat w d = BitVec.ofInt w (xs.length - 1 - d) := by
    rw [h.pos_eq, sub_eq_add_neg ((xs.length : ℤ) - 1), sub_eq_add_neg (xs.length : ℤ),
      BitVec.ofInt_add, BitVec.ofInt_add, BitVec.ofInt_neg, BitVec.ofInt_neg,
      BitVec.ofInt_natCast, BitVec.ofInt_natCast, BitVec.sub_eq_add_neg, BitVec.sub_eq_add_neg]
    rfl
  rw [hpos]
  exact h.held d hd

end DelayLine

end S2S
