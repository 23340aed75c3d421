/-
# A number at the start of a text

`strtof` of C, in the locale of a program that sets none: blanks, a sign, and the
longest of a decimal number, a hexadecimal one, `inf`, `infinity`, `nan` and
`nan(...)` that the text goes on with, in either case.  What it reads is rounded
to the nearest `float`, to an infinity past the largest one.

A text it reads nothing of is a zero, with all of the text left.  It may well
read something that is not a number.
-/

import S2S.Json.Numbers
import S2S.Llm.Body
import S2S.Wake.Gate

namespace S2S
namespace Models

open Json Llm

/-! ### Floats -/

/-- `x < y`. -/
def cfloatLt : CFloat → CFloat → Bool
  | .fin x, .fin y => decide (x < y)
  | .fin _, .inf negative => !negative
  | .inf negative, .fin _ => negative
  | .inf negative, .inf negative' => negative && !negative'
  | _, _ => false

/-- `x == y`. -/
def cfloatEq : CFloat → CFloat → Bool
  | .fin x, .fin y => decide (x = y)
  | .inf negative, .inf negative' => negative == negative'
  | _, _ => false

/-- `-x`. -/
def cfloatNeg : CFloat → CFloat
  | .fin x => .fin (-x)
  | .inf negative => .inf !negative
  | .nan => .nan

/-- The nearest `float`, and an infinity past the largest one. -/
def cfloatOf (q : ℚ) : CFloat :=
  if (2 : ℚ) ^ 128 ≤ |nearestFloat q| then .inf (decide (q < 0)) else .fin (nearestFloat q)

/-! ### The text -/

/-- `isspace`. -/
def isSpace (b : UInt8) : Bool := b == 0x20 || decide (0x09 ≤ b) && decide (b ≤ 0x0D)

/-- What is behind a word of small letters, in either case. -/
def takeWord (word text : Bytes) : Option Bytes :=
  if (text.take word.length).map Wake.toLower = word then some (text.drop word.length) else none

/-- What a digit of any base is worth. -/
def digitValue (b : UInt8) : ℕ :=
  if isDigit b then b.toNat - 0x30 else (Wake.toLower b).toNat - 0x61 + 10

/-- A hexadecimal digit. -/
def isHexDigit (b : UInt8) : Bool :=
  isDigit b || decide (0x61 ≤ Wake.toLower b) && decide (Wake.toLower b ≤ 0x66)

/-- Digits in a base. -/
def valueIn (base : ℕ) (digits : Bytes) : ℕ :=
  digits.foldl (fun n b => n * base + digitValue b) 0

/-- The digits in front of a point and behind it, and what is left. -/
def readMantissa (digit : UInt8 → Bool) (text : Bytes) : Bytes × Bytes × Bytes :=
  let int := text.takeWhile digit
  let rest := text.drop int.length
  if rest.head? = some 0x2E then
    let frac := rest.tail.takeWhile digit
    (int, frac, rest.tail.drop frac.length)
  else (int, [], rest)

/-- An exponent behind its letter, none without digits, and what is left. -/
def readExponent (letter : UInt8) (text : Bytes) : ℤ × Bytes :=
  if text.head?.map Wake.toLower = some letter then
    let signed := text.tail
    let unsigned := if signed.head? = some 0x2B ∨ signed.head? = some minus then signed.tail else signed
    let digits := unsigned.takeWhile isDigit
    if digits = [] then (0, text)
    else
      (if signed.head? = some minus then -(valueIn 10 digits : ℤ) else valueIn 10 digits,
        unsigned.drop digits.length)
  else (0, text)

/-- A decimal number, for one digit or more. -/
def readDecimal (text : Bytes) : Option (CFloat × Bytes) :=
  let (int, frac, rest) := readMantissa isDigit text
  if int ++ frac = [] then none
  else
    let (power, rest) := readExponent 0x65 rest
    some (cfloatOf (valueIn 10 (int ++ frac) * 10 ^ (power - frac.length)), rest)

/-- A hexadecimal number, for one digit or more behind `0x`. -/
def readHex (text : Bytes) : Option (CFloat × Bytes) :=
  (takeWord (ascii "0x") text).bind fun text =>
    let (int, frac, rest) := readMantissa isHexDigit text
    if int ++ frac = [] then none
    else
      let (power, rest) := readExponent 0x70 rest
      some (cfloatOf (valueIn 16 (int ++ frac) * 2 ^ (power - 4 * frac.length)), rest)

/-- A character between the brackets of a `nan`. -/
def isNChar (b : UInt8) : Bool :=
  isDigit b || decide (0x61 ≤ Wake.toLower b) && decide (Wake.toLower b ≤ 0x7A) || b == 0x5F

/-- `nan`, and what may stand in brackets behind it. -/
def readNan (text : Bytes) : Option (CFloat × Bytes) :=
  (takeWord (ascii "nan") text).map fun rest =>
    let chars := rest.tail.takeWhile isNChar
    if rest.head? = some 0x28 ∧ (rest.tail.drop chars.length).head? = some 0x29 then
      (.nan, (rest.tail.drop chars.length).tail)
    else (.nan, rest)

/-- What may stand behind the sign. -/
def readSubject (text : Bytes) : Option (CFloat × Bytes) :=
  ((takeWord (ascii "infinity") text).map fun rest => (.inf false, rest)) <|>
    ((takeWord (ascii "inf") text).map fun rest => (.inf false, rest)) <|>
    readNan text <|> readHex text <|> readDecimal text

/-- `strtof`: the number and what is left of the text. -/
def strtof (text : Bytes) : CFloat × Bytes :=
  let signed := text.dropWhile isSpace
  let negative := signed.head? = some minus
  let unsigned := if negative ∨ signed.head? = some 0x2B then signed.tail else signed
  match readSubject unsigned with
  | none => (.fin 0, text)
  | some (x, rest) => (if negative then cfloatNeg x else x, rest)

end Models
end S2S
