/-
# What a number is worth

A number keeps the text it was written with.  One without a fraction or an
exponent is an integer (`integerOf`), which the reader has when it fits in 64
bits (`intOf_eq`); any other is a double, the nearest one to what its decimal
text says (`decimalOf`, `numOf`).
-/

import S2S.Double
import S2S.Json.Read

namespace S2S
namespace Json

/-! ### Integers -/

/-- The integer a number is written as, of any magnitude, none for a number with a fraction or an
exponent. -/
def integerOf : Value → Option ℤ
  | .num (c :: ds) =>
    if c = minus then
      if ds.all isDigit then some (-(natOf ds : ℤ)) else none
    else if (c :: ds).all isDigit then some (natOf (c :: ds) : ℤ)
    else none
  | _ => none

/-- The reader has the 64 bit ones, the upper half of the unsigned ones wrapped around. -/
theorem intOf_eq (v : Value) : intOf v = (integerOf v).bind fun i =>
    if -2 ^ 63 ≤ i ∧ i < 2 ^ 64 then some (Int.bmod i (2 ^ 64)) else none := by
  unfold intOf integerOf
  cases v with
  | num text =>
    cases text with
    | nil => rfl
    | cons c ds =>
      dsimp only
      by_cases hsign : c = minus
      · by_cases hdigits : ds.all isDigit = true
        · rw [if_pos hsign, if_pos hsign, if_pos hdigits, Option.bind_some]
          by_cases hfits : natOf ds ≤ 2 ^ 63
          · rw [if_pos ⟨hdigits, hfits⟩, if_pos (by omega),
              Int.bmod_eq_of_le (by omega) (by omega)]
          · rw [if_neg fun h => hfits h.2, if_neg (by omega)]
        · simp [hsign, hdigits]
      · by_cases hdigits : (c :: ds).all isDigit = true
        · rw [if_neg hsign, if_neg hsign, if_pos hdigits, Option.bind_some]
          by_cases hfits : natOf (c :: ds) < 2 ^ 64
          · rw [if_pos ⟨hdigits, hfits⟩, if_pos (by omega)]
          · rw [if_neg fun h => hfits h.2, if_neg (by omega)]
        · rw [if_neg hsign, if_neg hsign, if_neg hdigits, if_neg fun h => hdigits h.1]
          rfl
  | _ => rfl

/-! ### Doubles -/

/-- What a decimal text says. -/
def decimalOf (text : Bytes) : ℚ :=
  let unsigned := if text.head? = some minus then text.tail else text
  let mantissa := unsigned.takeWhile fun b => b ≠ 0x65 ∧ b ≠ 0x45
  let exponent := (unsigned.drop mantissa.length).tail
  let int := mantissa.takeWhile isDigit
  let frac := (mantissa.drop int.length).tail
  let power : ℤ :=
    if exponent.head? = some minus then -(natOf exponent.tail : ℤ)
    else natOf (exponent.dropWhile (· = 0x2B))
  (if text.head? = some minus then -1 else 1) * natOf (int ++ frac) * 10 ^ (power - frac.length)

/-- `yyjson_get_num` of a number, the nearest double of what it says.  The reader has refused a number
with no finite one. -/
def numOf (text : Bytes) : ℚ := nearestDouble (decimalOf text)

end Json
end S2S
