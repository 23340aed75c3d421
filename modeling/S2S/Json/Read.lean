/-
# Reading JSON

The grammar of RFC 8259 as a reader: one value, surrounding white space
allowed, no comment, no trailing comma, no control character inside a string,
strings of whole UTF-8 characters.  An escaped surrogate has to come with its
pair, since the value of a string is its bytes.  A number keeps the text it was
written with: what it is worth is the business of whoever asks, but one past the
doubles makes the whole text no value (`pastDouble`).  An object keeps its
members in order, names that come twice included.

The functions that read values take a bound on the number of nested calls;
`parse` gives them the length of the text, which is enough (`ReadsAs`).
-/

import S2S.Json.Utf8

namespace S2S
namespace Json

/-- A JSON value. -/
inductive Value
  | null
  | bool (b : Bool)
  | num (text : Bytes)
  | str (s : Bytes)
  | arr (items : List Value)
  | obj (members : List (Bytes × Value))
  deriving Repr

mutual

/-- Whether two values are the same. -/
def Value.beq : Value → Value → Bool
  | .null, .null => true
  | .bool a, .bool b => a == b
  | .num a, .num b => a == b
  | .str a, .str b => a == b
  | .arr a, .arr b => beqItems a b
  | .obj a, .obj b => beqMembers a b
  | _, _ => false

def beqItems : List Value → List Value → Bool
  | [], [] => true
  | a :: as, b :: bs => a.beq b && beqItems as bs
  | _, _ => false

def beqMembers : List (Bytes × Value) → List (Bytes × Value) → Bool
  | [], [] => true
  | (k, a) :: as, (l, b) :: bs => k == l && a.beq b && beqMembers as bs
  | _, _ => false

end

mutual

theorem Value.beq_iff (a b : Value) : a.beq b = true ↔ a = b := by
  cases a with
  | null => cases b <;> simp [Value.beq]
  | bool _ => cases b <;> simp [Value.beq]
  | num _ => cases b <;> simp [Value.beq]
  | str _ => cases b <;> simp [Value.beq]
  | arr as =>
    cases b with
    | arr bs => simpa [Value.beq] using beqItems_iff as bs
    | _ => simp [Value.beq]
  | obj as =>
    cases b with
    | obj bs => simpa [Value.beq] using beqMembers_iff as bs
    | _ => simp [Value.beq]

theorem beqItems_iff (as bs : List Value) : beqItems as bs = true ↔ as = bs := by
  cases as with
  | nil => cases bs <;> simp [beqItems]
  | cons a as =>
    cases bs with
    | nil => simp [beqItems]
    | cons b bs => simp [beqItems, Value.beq_iff a b, beqItems_iff as bs]

theorem beqMembers_iff (as bs : List (Bytes × Value)) : beqMembers as bs = true ↔ as = bs := by
  cases as with
  | nil => cases bs <;> simp [beqMembers]
  | cons a as =>
    obtain ⟨k, a⟩ := a
    cases bs with
    | nil => simp [beqMembers]
    | cons b bs =>
      obtain ⟨l, b⟩ := b
      simp [beqMembers, Value.beq_iff a b, beqMembers_iff as bs]

end

instance : DecidableEq Value := fun a b => decidable_of_iff _ (Value.beq_iff a b)

/-! ### Characters -/

def quote : UInt8 := 0x22
def backslash : UInt8 := 0x5C
def comma : UInt8 := 0x2C
def colon : UInt8 := 0x3A
def lbracket : UInt8 := 0x5B
def rbracket : UInt8 := 0x5D
def lbrace : UInt8 := 0x7B
def rbrace : UInt8 := 0x7D
def minus : UInt8 := 0x2D

def isSpace (b : UInt8) : Bool := b == 0x20 || b == 0x09 || b == 0x0A || b == 0x0D

def isDigit (b : UInt8) : Bool := decide (0x30 ≤ b) && decide (b ≤ 0x39)

/-- The bytes a number may go on with. -/
def isNumber (b : UInt8) : Bool :=
  isDigit b || b == 0x2E || b == 0x65 || b == 0x45 || b == 0x2B || b == minus

def skipWs : Bytes → Bytes
  | [] => []
  | b :: s => if isSpace b then skipWs s else b :: s

/-! ### Strings -/

def hexDigit (b : UInt8) : Option ℕ :=
  if isDigit b then some (b.toNat - 0x30)
  else if 0x41 ≤ b ∧ b ≤ 0x46 then some (b.toNat - 0x37)
  else if 0x61 ≤ b ∧ b ≤ 0x66 then some (b.toNat - 0x57)
  else none

/-- The four hexadecimal digits of a `\u` escape. -/
def hex4 (a b c d : UInt8) : Option ℕ := do
  let a ← hexDigit a
  let b ← hexDigit b
  let c ← hexDigit c
  let d ← hexDigit d
  pure (((a * 16 + b) * 16 + c) * 16 + d)

/-- The UTF-8 bytes of a code point. -/
def utf8Encode (n : ℕ) : Bytes :=
  if n < 0x80 then [UInt8.ofNat n]
  else if n < 0x800 then [UInt8.ofNat (0xC0 + n / 0x40), UInt8.ofNat (0x80 + n % 0x40)]
  else if n < 0x10000 then
    [UInt8.ofNat (0xE0 + n / 0x1000), UInt8.ofNat (0x80 + n / 0x40 % 0x40),
      UInt8.ofNat (0x80 + n % 0x40)]
  else
    [UInt8.ofNat (0xF0 + n / 0x40000), UInt8.ofNat (0x80 + n / 0x1000 % 0x40),
      UInt8.ofNat (0x80 + n / 0x40 % 0x40), UInt8.ofNat (0x80 + n % 0x40)]

/-- The byte a one letter escape stands for. -/
def unescape (e : UInt8) : Option UInt8 :=
  if e = quote ∨ e = backslash ∨ e = 0x2F then some e
  else if e = 0x62 then some 0x08
  else if e = 0x66 then some 0x0C
  else if e = 0x6E then some 0x0A
  else if e = 0x72 then some 0x0D
  else if e = 0x74 then some 0x09
  else none

/-- Puts bytes before what was read. -/
def before (a : Bytes) (p : Bytes × Bytes) : Bytes × Bytes := (a ++ p.1, p.2)

/-- The characters of a string up to its closing quote, `t` what the
characters read so far owe, and what follows the quote. -/
def readStr (t : Tail) : Bytes → Option (Bytes × Bytes)
  | [] => none
  | b :: s =>
    if t = .done ∧ b = quote then some ([], s)
    else if t = .done ∧ b = backslash then
      match s with
      | 0x75 :: a :: b :: c :: d :: s =>
        match hex4 a b c d with
        | none => none
        | some hi =>
          if hi < 0xD800 ∨ 0xDFFF < hi then (readStr .done s).map (before (utf8Encode hi))
          else if 0xDBFF < hi then none
          else
            match s with
            | 0x5C :: 0x75 :: a :: b :: c :: d :: s =>
              match hex4 a b c d with
              | none => none
              | some lo =>
                if lo < 0xDC00 ∨ 0xDFFF < lo then none
                else
                  (readStr .done s).map
                    (before (utf8Encode ((hi - 0xD800) * 0x400 + (lo - 0xDC00) + 0x10000)))
            | _ => none
      | e :: s =>
        match unescape e with
        | none => none
        | some c => (readStr .done s).map (before [c])
      | [] => none
    else if b < 0x20 then none
    else
      match t.step b with
      | none => none
      | some t' => (readStr t' s).map (before [b])

/-! ### Numbers -/

/-- The digits `s` opens with and what follows them. -/
def digits (s : Bytes) : Bytes × Bytes := (s.takeWhile isDigit, s.dropWhile isDigit)

/-- One digit or more. -/
def digits1 (s : Bytes) : Option (Bytes × Bytes) :=
  if (digits s).1 = [] then none else some (digits s)

/-- The integer part: no leading zero. -/
def readInt (s : Bytes) : Option (Bytes × Bytes) :=
  match digits1 s with
  | none => none
  | some p => if p.1.head? = some 0x30 ∧ 1 < p.1.length then none else some p

def readFrac : Bytes → Option (Bytes × Bytes)
  | 0x2E :: s => (digits1 s).map (before [0x2E])
  | s => some ([], s)

def readExp : Bytes → Option (Bytes × Bytes)
  | [] => some ([], [])
  | e :: s =>
    if e = 0x65 ∨ e = 0x45 then
      match s with
      | [] => none
      | g :: s' =>
        if g = 0x2B ∨ g = minus then (digits1 s').map (before [e, g])
        else (digits1 (g :: s')).map (before [e])
    else some ([], e :: s)

/-- A run of digits as a number. -/
def natOf (ds : Bytes) : ℕ := ds.foldl (fun n b => n * 10 + (b.toNat - 0x30)) 0

/-- The sign of an exponent, which opens with its letter. -/
def expNegative (exp : Bytes) : Bool := exp.tail.head? == some minus

/-- The digits of an exponent, leading zeros left out. -/
def expDigits (exp : Bytes) : Bytes :=
  (exp.dropWhile fun b => !isDigit b).dropWhile fun b => b == 0x30

/-- The power of ten of the last digit of a number. -/
def powerOf (frac exp : Bytes) : ℤ :=
  (if expNegative exp then -(natOf (expDigits exp) : ℤ) else natOf (expDigits exp))
    - frac.tail.length

/-- Where the doubles end: from halfway between the largest one and the next power of two on, the
nearest one is infinite. -/
def doubleEnd : ℕ := 2 ^ 1024 - 2 ^ 970

/-- Whether a number past its sign is infinite as a double.  An exponent of 19 digits or more is told
by its sign.  Of the others the power of ten of the 19th digit decides, but for those close to the
largest double. -/
def pastDouble (int frac exp : Bytes) : Bool :=
  let sig := int ++ frac.tail
  let power := powerOf frac exp
  let expSig := power + ((sig.dropWhile fun b => b == 0x30).length - 19 : ℕ)
  if natOf sig = 0 then false
  else if 19 ≤ (expDigits exp).length then !expNegative exp
  else if 308 < expSig then true
  else if expSig < 308 - 20 then false
  else decide (doubleEnd * 10 ^ (-power).toNat ≤ natOf sig * 10 ^ power.toNat)

/-- A number past its sign, none for one that no double holds. -/
def readUnsigned (s : Bytes) : Option (Bytes × Bytes) := do
  let (int, s) ← readInt s
  let (frac, s) ← readFrac s
  let (exp, s) ← readExp s
  if pastDouble int frac exp then none else pure (int ++ frac ++ exp, s)

/-- The number `s` opens with, as it is written, and what follows it. -/
def readNumber : Bytes → Option (Bytes × Bytes)
  | [] => none
  | c :: s => if c = minus then (readUnsigned s).map (before [minus]) else readUnsigned (c :: s)

/-! ### Values -/

/-- What follows `word` in `s`. -/
def expect : Bytes → Bytes → Option Bytes
  | [], s => some s
  | _ :: _, [] => none
  | c :: word, b :: s => if b = c then expect word s else none

/-- The name of a member, its colon, and what follows them. -/
def readKey (s : Bytes) : Option (Bytes × Bytes) :=
  match skipWs s with
  | [] => none
  | c :: r =>
    if c = quote then
      match readStr .done r with
      | none => none
      | some (k, r) =>
        match skipWs r with
        | [] => none
        | d :: r' => if d = colon then some (k, r') else none
    else none

mutual

/-- The value `s` opens with and what follows it. -/
def readValue : ℕ → Bytes → Option (Value × Bytes)
  | 0, _ => none
  | n + 1, s =>
    match skipWs s with
    | [] => none
    | c :: r =>
      if c = quote then (readStr .done r).map fun p => (.str p.1, p.2)
      else if c = lbrace then
        match skipWs r with
        | [] => none
        | d :: r' =>
          if d = rbrace then some (.obj [], r')
          else (readMembers n (d :: r')).map fun p => (.obj p.1, p.2)
      else if c = lbracket then
        match skipWs r with
        | [] => none
        | d :: r' =>
          if d = rbracket then some (.arr [], r')
          else (readItems n (d :: r')).map fun p => (.arr p.1, p.2)
      else if c = 0x74 then (expect (ascii "rue") r).map fun r' => (.bool true, r')
      else if c = 0x66 then (expect (ascii "alse") r).map fun r' => (.bool false, r')
      else if c = 0x6E then (expect (ascii "ull") r).map fun r' => (.null, r')
      else if c = minus ∨ isDigit c then (readNumber (c :: r)).map fun p => (.num p.1, p.2)
      else none

/-- The values of an array past its bracket, up to the closing one. -/
def readItems : ℕ → Bytes → Option (List Value × Bytes)
  | 0, _ => none
  | n + 1, s =>
    match readValue n s with
    | none => none
    | some (v, r) =>
      match skipWs r with
      | [] => none
      | c :: r' =>
        if c = comma then (readItems n r').map fun p => (v :: p.1, p.2)
        else if c = rbracket then some ([v], r')
        else none

/-- The members of an object past its brace, up to the closing one. -/
def readMembers : ℕ → Bytes → Option (List (Bytes × Value) × Bytes)
  | 0, _ => none
  | n + 1, s =>
    match readKey s with
    | none => none
    | some (k, r) =>
      match readValue n r with
      | none => none
      | some (v, r) =>
        match skipWs r with
        | [] => none
        | c :: r' =>
          if c = comma then (readMembers n r').map fun p => ((k, v) :: p.1, p.2)
          else if c = rbrace then some ([(k, v)], r')
          else none

end

/-- The value of a whole text. -/
def parse (s : Bytes) : Option Value :=
  match readValue s.length s with
  | none => none
  | some (v, r) => if skipWs r = [] then some v else none

/-- The first member of an object by that name. -/
def Value.get (key : Bytes) : Value → Option Value
  | .obj members => (members.find? fun m => m.1 = key).map Prod.snd
  | _ => none

/-- The bytes of a string value, none for a value that is not a string or that
is missing. -/
def textOf : Option Value → Bytes
  | some (.str s) => s
  | _ => []

/-- A number that was read as a 64 bit integer, the upper half of the unsigned
ones wrapped around; none for one read as a double. -/
def intOf : Value → Option ℤ
  | .num (c :: ds) =>
    if c = minus then
      if ds.all isDigit ∧ natOf ds ≤ 2 ^ 63 then some (-(natOf ds : ℤ)) else none
    else if (c :: ds).all isDigit ∧ natOf (c :: ds) < 2 ^ 64 then
      some (Int.bmod (natOf (c :: ds)) (2 ^ 64))
    else none
  | _ => none

end Json
end S2S
