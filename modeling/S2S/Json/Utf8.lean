/-
# Byte strings and UTF-8

A text is the list of its bytes, whatever they are: nothing below assumes that
they are UTF-8.  `Tail` is what a UTF-8 decoder owes after a prefix, the number
of continuation bytes and the range the next one must fall in; the ranges of
the second byte leave out the overlong forms, the surrogates and what lies past
U+10FFFF.  `validUtf8` runs it over a whole text.

`cstr` is a text as a C function that takes a `const char *` sees it: cut at
its first zero byte.
-/

import Mathlib.Algebra.Group.Nat.Defs
import Mathlib.Data.List.TakeWhile

namespace S2S
namespace Json

/-- A string of bytes, a buffer with its length. -/
abbrev Bytes := List UInt8

instance : LawfulBEq Bytes := inferInstance

/-- The bytes of an ASCII text. -/
def ascii (s : String) : Bytes := s.toList.map fun c => UInt8.ofNat c.toNat

/-- The text a `const char *` to `s` names: `s` up to its first zero byte. -/
def cstr (s : Bytes) : Bytes := s.takeWhile (· ≠ 0)

theorem zero_not_mem_cstr (s : Bytes) : (0 : UInt8) ∉ cstr s := fun h => by
  simpa using List.mem_takeWhile_imp h

/-- A text is read whole exactly when it holds no zero byte. -/
theorem cstr_eq_self_iff {s : Bytes} : cstr s = s ↔ (0 : UInt8) ∉ s := by
  refine ⟨fun h => h ▸ zero_not_mem_cstr s, fun h => List.takeWhile_eq_self_iff.2 fun b hb => ?_⟩
  simpa using fun h0 : b = 0 => h (h0 ▸ hb)

/-- Where the second byte of a character may fall. -/
inductive Second
  | any
  | fromA0
  | upTo9F
  | from90
  | upTo8F
  deriving DecidableEq, Repr

/-- The least byte of the range. -/
def Second.lo : Second → UInt8
  | .fromA0 => 0xA0
  | .from90 => 0x90
  | _ => 0x80

/-- The greatest byte of the range. -/
def Second.hi : Second → UInt8
  | .upTo9F => 0x9F
  | .upTo8F => 0x8F
  | _ => 0xBF

/-- What a decoder owes: nothing between two characters, or `n + 1`
continuation bytes, the next one within `r`. -/
inductive Tail
  | done
  | owed (n : ℕ) (r : Second)
  deriving DecidableEq, Repr

/-- What the first byte of a character owes, `none` for a byte that starts
none. -/
def lead (b : UInt8) : Option Tail :=
  if b < 0x80 then some .done
  else if b < 0xC2 then none
  else if b < 0xE0 then some (.owed 0 .any)
  else if b < 0xF0 then
    some (.owed 1 (if b = 0xE0 then .fromA0 else if b = 0xED then .upTo9F else .any))
  else if b < 0xF5 then
    some (.owed 2 (if b = 0xF0 then .from90 else if b = 0xF4 then .upTo8F else .any))
  else none

/-- One byte of the text. -/
def Tail.step : Tail → UInt8 → Option Tail
  | .done, b => lead b
  | .owed n r, b =>
    if r.lo ≤ b ∧ b ≤ r.hi then
      match n with
      | 0 => some .done
      | n + 1 => some (.owed n .any)
    else none

/-- Whether `s` completes what `t` owes and goes on by whole characters. -/
def utf8From (t : Tail) : Bytes → Bool
  | [] => decide (t = .done)
  | b :: s =>
    match t.step b with
    | none => false
    | some t' => utf8From t' s

/-- A text of whole UTF-8 characters. -/
def validUtf8 (s : Bytes) : Bool := utf8From .done s

theorem Second.le_lo (r : Second) : 0x80 ≤ r.lo := by cases r <;> decide

/-- A byte below `0x80` is a character of its own and stands between two
others. -/
theorem Tail.step_ascii {t t' : Tail} {b : UInt8} (hb : b < 0x80) (h : t.step b = some t') :
    t = .done ∧ t' = .done := by
  cases t with
  | done =>
    simp only [Tail.step, lead, hb, if_true, Option.some.injEq] at h
    exact ⟨rfl, h.symm⟩
  | owed n r =>
    simp only [Tail.step] at h
    split_ifs at h with hr
    exact absurd (UInt8.le_trans r.le_lo hr.1) (UInt8.not_le.2 hb)

end Json
end S2S
