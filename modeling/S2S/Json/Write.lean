/-
# Writing JSON

A `Draft` is a document under construction, as the code builds one before it
writes it: values, members in the order they were added, and `raw` texts, which
are copied into the output as they are and which nobody reads.  Writing fails,
for the document as a whole, on a string that is not UTF-8 and on a number that
is not finite.

`Draft.json` is the value the document stands for, when each of its raw texts
is one.  What is written then reads as that value (`Draft.parse_write`).
-/

import Mathlib.Data.Nat.Digits.Lemmas
import Mathlib.Tactic.IntervalCases
import S2S.Json.Reads

namespace S2S
namespace Json

/-! ### Strings -/

/-- A hexadecimal digit as the writer has it. -/
def hexChar (n : ℕ) : UInt8 := if n < 10 then UInt8.ofNat (0x30 + n) else UInt8.ofNat (0x37 + n)

/-- One byte of a string as it is written. -/
def escapeByte (b : UInt8) : Bytes :=
  if b = quote then [backslash, quote]
  else if b = backslash then [backslash, backslash]
  else if b = 0x08 then [backslash, 0x62]
  else if b = 0x09 then [backslash, 0x74]
  else if b = 0x0A then [backslash, 0x6E]
  else if b = 0x0C then [backslash, 0x66]
  else if b = 0x0D then [backslash, 0x72]
  else if b < 0x20 then
    [backslash, 0x75, 0x30, 0x30, hexChar (b.toNat / 16), hexChar (b.toNat % 16)]
  else [b]

/-- A string between its quotes, `none` for bytes that are not UTF-8. -/
def writeStr (s : Bytes) : Option Bytes :=
  if validUtf8 s then some (quote :: (s.flatMap escapeByte ++ [quote])) else none

@[simp] theorem writeStr_isSome {s : Bytes} : (writeStr s).isSome = validUtf8 s := by
  unfold writeStr
  split_ifs with h <;> simp [h]

/-- An escaped control character is read back as itself. -/
theorem hex4_hexChar : ∀ n < 0x20, hex4 0x30 0x30 (hexChar (n / 16)) (hexChar (n % 16)) = some n := by
  decide

theorem readStr_escapeByte {t t' : Tail} {b : UInt8} (h : t.step b = some t') (s : Bytes) :
    readStr t (escapeByte b ++ s) = (readStr t' s).map (before [b]) := by
  by_cases hb : b < 0x80
  · obtain ⟨rfl, rfl⟩ := Tail.step_ascii hb h
    unfold escapeByte
    split_ifs with h₁ h₂ h₃ h₄ h₅ h₆ h₇ h₈
    · subst h₁
      exact readStr_escape (by decide) s
    · subst h₂
      exact readStr_escape (by decide) s
    · subst h₃
      exact readStr_escape (by decide) s
    · subst h₄
      exact readStr_escape (by decide) s
    · subst h₅
      exact readStr_escape (by decide) s
    · subst h₆
      exact readStr_escape (by decide) s
    · subst h₇
      exact readStr_escape (by decide) s
    · have hlt : b.toNat < 0x20 := UInt8.lt_iff_toNat_lt.1 h₈
      have henc : utf8Encode b.toNat = [b] := by
        rw [utf8Encode, if_pos (by omega)]
        simp
      have := readStr_unicode (hex4_hexChar b.toNat hlt) (by omega) s
      rw [henc] at this
      exact this
    · exact readStr_plain (by simp [h₁]) (by simp [h₂]) h₈ h s
  · have hne : ∀ c : UInt8, c < 0x80 → b ≠ c := fun c hc hbc => hb (hbc ▸ hc)
    have h20 : ¬b < 0x20 := fun hlt => hb (UInt8.lt_trans hlt (by decide))
    have he : escapeByte b = [b] := by
      simp [escapeByte, hne quote (by decide), hne backslash (by decide), hne 0x08 (by decide),
        hne 0x09 (by decide), hne 0x0A (by decide), hne 0x0C (by decide), hne 0x0D (by decide), h20]
    rw [he]
    exact readStr_plain (fun h => hne quote (by decide) h.2) (fun h => hne backslash (by decide) h.2)
      h20 h s

/-- **A written string is read back.** -/
theorem readStr_flatMap_escapeByte {t : Tail} {s : Bytes} (h : utf8From t s = true) (x : Bytes) :
    readStr t (s.flatMap escapeByte ++ quote :: x) = some (s, x) := by
  induction s generalizing t with
  | nil =>
    obtain rfl : t = .done := by simpa [utf8From] using h
    exact readStr_quote x
  | cons b s ih =>
    rw [utf8From] at h
    cases hb : t.step b with
    | none => simp [hb] at h
    | some t' =>
      simp only [hb] at h
      rw [List.flatMap_cons, List.append_assoc, readStr_escapeByte hb, ih h]
      rfl

theorem parse_writeStr {s w : Bytes} (h : writeStr s = some w) : parse w = some (.str s) := by
  unfold writeStr at h
  split_ifs at h with hs
  obtain rfl := Option.some.inj h
  exact parse_iff.2 ⟨[], .str (skipWs_cons_of_not_space (by decide) _)
    (readStr_flatMap_escapeByte hs []), rfl⟩

theorem readsKey_writeStr {s w : Bytes} (h : writeStr s = some w) : ReadsKey (w ++ [colon]) s := by
  intro x
  unfold writeStr at h
  split_ifs at h with hs
  obtain rfl := Option.some.inj h
  have hx : quote :: (s.flatMap escapeByte ++ [quote]) ++ [colon] ++ x
      = quote :: (s.flatMap escapeByte ++ quote :: colon :: x) := by simp
  rw [hx, readKey, skipWs_cons_of_not_space (by decide)]
  dsimp only
  rw [if_pos rfl, readStr_flatMap_escapeByte hs]
  rfl

/-! ### Numbers -/

/-- The text of a number. -/
structure Decimal where
  text : Bytes
  reads : readNumber text = some (text, [])

/-- The text `0`. -/
def Decimal.zero : Decimal := ⟨[0x30], by decide⟩

def digitChar (d : ℕ) : UInt8 := UInt8.ofNat (0x30 + d)

/-- A natural number in base ten. -/
def natText (n : ℕ) : Bytes :=
  if n = 0 then [0x30] else (Nat.digits 10 n).reverse.map digitChar

/-- An integer in base ten. -/
def intText (i : ℤ) : Bytes :=
  if i < 0 then minus :: natText i.natAbs else natText i.natAbs

theorem isDigit_digitChar {d : ℕ} (h : d < 10) : isDigit (digitChar d) = true := by
  interval_cases d <;> decide

theorem digits_of_all {w : Bytes} (h : ∀ b ∈ w, isDigit b = true) : digits w = (w, []) := by
  rw [digits, List.takeWhile_eq_self_iff.2 h, List.dropWhile_eq_nil_iff.2 h]

theorem isDigit_of_mem_natText {n : ℕ} {b : UInt8} (h : b ∈ natText n) : isDigit b = true := by
  unfold natText at h
  split_ifs at h with hn
  · obtain rfl : b = 0x30 := by simpa using h
    decide
  · obtain ⟨d, hd, rfl⟩ := List.mem_map.1 h
    exact isDigit_digitChar (Nat.digits_lt_base (by decide) (List.mem_reverse.1 hd))

theorem natText_ne_nil (n : ℕ) : natText n ≠ [] := by
  unfold natText
  split_ifs with hn
  · simp
  · simpa [Nat.digits_eq_nil_iff_eq_zero] using hn

/-- A number in base ten has no leading zero. -/
theorem natText_head {n : ℕ} (h : (natText n).head? = some 0x30) : (natText n).length = 1 := by
  unfold natText at h ⊢
  split_ifs at h ⊢ with hn
  · rfl
  · rw [List.head?_map, List.head?_reverse] at h
    have hne : Nat.digits 10 n ≠ [] := by simpa [Nat.digits_eq_nil_iff_eq_zero] using hn
    rw [List.getLast?_eq_some_getLast hne] at h
    have hlt := Nat.digits_lt_base (b := 10) (by decide) (List.getLast_mem hne)
    have hpos := Nat.getLast_digit_ne_zero 10 hn
    generalize (Nat.digits 10 n).getLast hne = d at h hlt hpos
    interval_cases d <;> simp [digitChar] at h hpos

theorem length_natText_le {n k : ℕ} (hk : 0 < k) (h : n < 10 ^ k) : (natText n).length ≤ k := by
  unfold natText
  split_ifs
  · exact hk
  · rw [List.length_map, List.length_reverse]
    exact (Nat.digits_length_le_iff (by decide) n).2 h

theorem natText_eq_cons (n : ℕ) : ∃ b w, natText n = b :: w ∧ isDigit b = true := by
  cases h : natText n with
  | nil => exact absurd h (natText_ne_nil n)
  | cons b w => exact ⟨b, w, rfl, isDigit_of_mem_natText (h ▸ List.mem_cons_self)⟩

theorem natOf_eq_ofDigits (w : Bytes) :
    natOf w = Nat.ofDigits 10 (w.reverse.map fun b => b.toNat - 0x30) := by
  induction w using List.reverseRecOn with
  | nil => rfl
  | append_singleton w b ih =>
    have hsnoc : natOf (w ++ [b]) = natOf w * 10 + (b.toNat - 0x30) := by simp [natOf]
    rw [hsnoc, ih, List.reverse_append, List.reverse_singleton, List.singleton_append,
      List.map_cons, Nat.ofDigits_cons]
    omega

/-- **A number in base ten reads back.** -/
@[simp] theorem natOf_natText (n : ℕ) : natOf (natText n) = n := by
  have hdigit : ∀ d < 10, (digitChar d).toNat - 0x30 = d := by
    intro d hd
    interval_cases d <;> rfl
  rw [natOf_eq_ofDigits, natText]
  split_ifs with hn
  · simp [hn]
  · rw [← List.map_reverse, List.reverse_reverse, List.map_map]
    have hback : (Nat.digits 10 n).map ((fun b => b.toNat - 0x30) ∘ digitChar) = Nat.digits 10 n := by
      conv_rhs => rw [← List.map_id (Nat.digits 10 n)]
      refine List.map_congr_left fun d hd => ?_
      exact hdigit d (Nat.digits_lt_base (by decide) hd)
    rw [hback, Nat.ofDigits_digits]

/-- A number in base ten that the doubles reach. -/
theorem not_pastDouble_natText {n : ℕ} (h : n < 10 ^ 308) : pastDouble (natText n) [] [] = false := by
  have hpower : powerOf [] [] = 0 := rfl
  have hdigits : (natText n).length ≤ 308 := length_natText_le (by decide) h
  have hdrop := (List.dropWhile_suffix (l := natText n) fun b => b == 0x30).length_le
  have hend : n < doubleEnd := h.trans (by decide +kernel)
  unfold pastDouble
  dsimp only [List.tail_nil]
  rw [List.append_nil, hpower, natOf_natText]
  split_ifs with hzero hlit hhigh hlow
  · rfl
  · exact absurd hlit (by decide)
  · omega
  · rfl
  · simpa using hend

theorem readUnsigned_natText {n : ℕ} (h : n < 10 ^ 308) :
    readUnsigned (natText n) = some (natText n, []) := by
  have hd : digits (natText n) = (natText n, []) := digits_of_all fun _ => isDigit_of_mem_natText
  have hi : readInt (natText n) = some (natText n, []) := by
    rw [readInt, digits1, hd, if_neg (natText_ne_nil n)]
    exact if_neg fun h => absurd (natText_head h.1) (Nat.ne_of_gt h.2)
  simp [readUnsigned, hi, readFrac, readExp, not_pastDouble_natText h]

/-- A number is told by its text. -/
theorem natText_injective : Function.Injective natText :=
  Function.LeftInverse.injective natOf_natText

/-- **A 64 bit integer reads back.** -/
theorem intOf_intText {i : ℤ} (hlow : -2 ^ 63 ≤ i) (hhigh : i < 2 ^ 63) :
    intOf (.num (intText i)) = some i := by
  have hall : ∀ n, (natText n).all isDigit = true := fun n =>
    List.all_eq_true.2 fun _ => isDigit_of_mem_natText
  unfold intText
  split_ifs with hi
  · rw [intOf, if_pos rfl, hall, natOf_natText, if_pos ⟨rfl, by omega⟩]
    congr 1
    omega
  · obtain ⟨b, w, hw, hb⟩ := natText_eq_cons i.natAbs
    have hne : b ≠ minus := by
      rintro rfl
      exact absurd hb (by decide)
    have habs : (i.natAbs : ℤ) = i := Int.natAbs_of_nonneg (not_lt.1 hi)
    have hbmod : Int.bmod i (2 ^ 64) = i := by
      refine Int.bmod_eq_of_le_mul_two ?_ ?_ <;> push_cast <;> omega
    rw [hw, intOf, if_neg hne, ← hw, hall, natOf_natText, if_pos ⟨rfl, by omega⟩, habs, hbmod]

theorem readNumber_intText {i : ℤ} (h : i.natAbs < 10 ^ 308) :
    readNumber (intText i) = some (intText i, []) := by
  unfold intText
  split_ifs with hi
  · rw [readNumber, if_pos rfl, readUnsigned_natText h]
    rfl
  · obtain ⟨b, w, hw, hb⟩ := natText_eq_cons i.natAbs
    have hne : b ≠ minus := by
      rintro rfl
      exact absurd hb (by decide)
    rw [hw, readNumber, if_neg hne, ← hw, readUnsigned_natText h]

theorem digits1_head {c : UInt8} {w : Bytes} {p : Bytes × Bytes} (h : digits1 (c :: w) = some p) :
    isDigit c = true := by
  by_contra hc
  simp [digits1, digits, hc] at h

theorem readNumber_head {c : UInt8} {w : Bytes} {p : Bytes × Bytes}
    (h : readNumber (c :: w) = some p) : c = minus ∨ isDigit c = true := by
  rw [readNumber] at h
  split_ifs at h with hc
  · exact Or.inl hc
  · right
    cases hd : digits1 (c :: w) with
    | none => simp [readUnsigned, readInt, hd] at h
    | some p => exact digits1_head hd

theorem parse_number {w : Bytes} (h : readNumber w = some (w, [])) : parse w = some (.num w) := by
  cases w with
  | nil => simp [readNumber] at h
  | cons c w =>
    have hc := readNumber_head h
    have hne : ∀ d, ¬(d = minus ∨ isDigit d = true) → c ≠ d := fun d hd hcd => hd (hcd ▸ hc)
    have hsp : isSpace c = false := by
      simp [isSpace, hne 0x20 (by decide), hne 0x09 (by decide), hne 0x0A (by decide),
        hne 0x0D (by decide)]
    exact parse_iff.2 ⟨[], .num (skipWs_cons_of_not_space hsp w) hc h, rfl⟩

/-! ### Documents -/

/-- A document under construction. -/
inductive Draft
  | null
  | bool (b : Bool)
  | int (i : BitVec 64)
  | real (x : Option Decimal)
  | str (s : Bytes)
  | raw (text : Bytes)
  | arr (items : List Draft)
  | obj (members : List (Bytes × Draft))

mutual

/-- The text of a document, `none` when it cannot be written. -/
def Draft.write : Draft → Option Bytes
  | .null => some (ascii "null")
  | .bool b => some (if b then ascii "true" else ascii "false")
  | .int i => some (intText i.toInt)
  | .real x => x.map Decimal.text
  | .str s => writeStr s
  | .raw text => some text
  | .arr items => (writeItems items).map fun ws => lbracket :: joinWith rbracket ws
  | .obj members =>
    (writeMembers members).map fun ws => lbrace :: joinWith rbrace (ws.map fun w => w.1 ++ w.2)

/-- The texts of the values of an array. -/
def writeItems : List Draft → Option (List Bytes)
  | [] => some []
  | d :: items =>
    match d.write, writeItems items with
    | some w, some ws => some (w :: ws)
    | _, _ => none

/-- The texts of the members of an object, each its name with a colon and its
value. -/
def writeMembers : List (Bytes × Draft) → Option (List (Bytes × Bytes))
  | [] => some []
  | (k, d) :: members =>
    match writeStr k, d.write, writeMembers members with
    | some k, some w, some ws => some ((k ++ [colon], w) :: ws)
    | _, _, _ => none

end

mutual

/-- The value a document stands for, `none` when one of its raw texts is none. -/
def Draft.json : Draft → Option Value
  | .null => some .null
  | .bool b => some (.bool b)
  | .int i => some (.num (intText i.toInt))
  | .real x => x.map fun x => .num x.text
  | .str s => some (.str s)
  | .raw text => parse text
  | .arr items => (jsonItems items).map .arr
  | .obj members => (jsonMembers members).map .obj

def jsonItems : List Draft → Option (List Value)
  | [] => some []
  | d :: items =>
    match d.json, jsonItems items with
    | some v, some vs => some (v :: vs)
    | _, _ => none

def jsonMembers : List (Bytes × Draft) → Option (List (Bytes × Value))
  | [] => some []
  | (k, d) :: members =>
    match d.json, jsonMembers members with
    | some v, some ms => some ((k, v) :: ms)
    | _, _ => none

end

mutual

/-- **What is written reads as what it stands for.** -/
theorem Draft.parse_write (d : Draft) {w : Bytes} {v : Value} (hw : d.write = some w)
    (hv : d.json = some v) : parse w = some v := by
  cases d with
  | null =>
    obtain rfl := Option.some.inj hw
    obtain rfl := Option.some.inj hv
    rfl
  | bool b =>
    obtain rfl := Option.some.inj hw
    obtain rfl := Option.some.inj hv
    cases b
    · rfl
    · rfl
  | int i =>
    obtain rfl := Option.some.inj hw
    obtain rfl := Option.some.inj hv
    have hbound : i.toInt.natAbs < 10 ^ 308 := by
      have := BitVec.toInt_lt (x := i)
      have := BitVec.le_toInt (x := i)
      exact lt_of_le_of_lt (by omega : i.toInt.natAbs ≤ 2 ^ 63) (by decide +kernel)
    exact parse_number (readNumber_intText hbound)
  | real x =>
    obtain ⟨x, rfl, rfl⟩ := Option.map_eq_some_iff.1 hw
    obtain rfl := Option.some.inj hv
    exact parse_number x.reads
  | str s =>
    obtain rfl := Option.some.inj hv
    exact parse_writeStr hw
  | raw text =>
    obtain rfl := Option.some.inj hw
    exact hv
  | arr items =>
    obtain ⟨ws, hws, rfl⟩ := Option.map_eq_some_iff.1 hw
    obtain ⟨vs, hvs, rfl⟩ := Option.map_eq_some_iff.1 hv
    exact parse_arr (parse_writeItems items hws hvs)
  | obj members =>
    obtain ⟨ws, hws, rfl⟩ := Option.map_eq_some_iff.1 hw
    obtain ⟨ms, hms, rfl⟩ := Option.map_eq_some_iff.1 hv
    exact parse_obj (parse_writeMembers members hws hms)

theorem parse_writeItems (items : List Draft) {ws : List Bytes} {vs : List Value}
    (hw : writeItems items = some ws) (hv : jsonItems items = some vs) :
    List.Forall₂ (fun w v => parse w = some v) ws vs := by
  cases items with
  | nil =>
    obtain rfl := Option.some.inj hw
    obtain rfl := Option.some.inj hv
    exact .nil
  | cons d items =>
    rw [writeItems] at hw
    rw [jsonItems] at hv
    split at hw
    · rename_i w ws' hw₁ hw₂
      split at hv
      · rename_i v vs' hv₁ hv₂
        obtain rfl := Option.some.inj hw
        obtain rfl := Option.some.inj hv
        exact .cons (d.parse_write hw₁ hv₁) (parse_writeItems items hw₂ hv₂)
      · simp at hv
    · simp at hw

theorem parse_writeMembers (members : List (Bytes × Draft)) {ws : List (Bytes × Bytes)}
    {ms : List (Bytes × Value)} (hw : writeMembers members = some ws)
    (hv : jsonMembers members = some ms) :
    List.Forall₂ (fun w m => ReadsKey w.1 m.1 ∧ parse w.2 = some m.2) ws ms := by
  cases members with
  | nil =>
    obtain rfl := Option.some.inj hw
    obtain rfl := Option.some.inj hv
    exact .nil
  | cons m members =>
    obtain ⟨k, d⟩ := m
    rw [writeMembers] at hw
    rw [jsonMembers] at hv
    split at hw
    · rename_i k' w ws' hk hw₁ hw₂
      split at hv
      · rename_i v vs' hv₁ hv₂
        obtain rfl := Option.some.inj hw
        obtain rfl := Option.some.inj hv
        exact .cons ⟨readsKey_writeStr hk, d.parse_write hw₁ hv₁⟩
          (parse_writeMembers members hw₂ hv₂)
      · simp at hv
    · simp at hw

end

theorem writeItems_isSome {items : List Draft} :
    (writeItems items).isSome ↔ ∀ d ∈ items, d.write.isSome := by
  induction items with
  | nil => simp [writeItems]
  | cons d items ih =>
    rw [writeItems, List.forall_mem_cons, ← ih]
    cases d.write <;> cases writeItems items <;> simp

theorem writeMembers_isSome {members : List (Bytes × Draft)} :
    (writeMembers members).isSome ↔ ∀ m ∈ members, validUtf8 m.1 ∧ m.2.write.isSome := by
  induction members with
  | nil => simp [writeMembers]
  | cons m members ih =>
    obtain ⟨k, d⟩ := m
    rw [writeMembers, List.forall_mem_cons, ← ih, ← writeStr_isSome]
    cases writeStr k <;> cases d.write <;> cases writeMembers members <;> simp

@[simp] theorem write_str {s : Bytes} : (Draft.str s).write.isSome = validUtf8 s := writeStr_isSome

@[simp] theorem write_raw {s : Bytes} : (Draft.raw s).write.isSome = true := rfl

@[simp] theorem write_int {i : BitVec 64} : (Draft.int i).write.isSome = true := rfl

@[simp] theorem write_bool {b : Bool} : (Draft.bool b).write.isSome = true := rfl

@[simp] theorem write_arr_isSome {items : List Draft} :
    (Draft.arr items).write.isSome ↔ ∀ d ∈ items, d.write.isSome := by
  rw [Draft.write, Option.isSome_map, writeItems_isSome]

@[simp] theorem write_obj_isSome {members : List (Bytes × Draft)} :
    (Draft.obj members).write.isSome ↔ ∀ m ∈ members, validUtf8 m.1 ∧ m.2.write.isSome := by
  rw [Draft.write, Option.isSome_map, writeMembers_isSome]

theorem jsonItems_isSome {items : List Draft} :
    (jsonItems items).isSome ↔ ∀ d ∈ items, d.json.isSome := by
  induction items with
  | nil => simp [jsonItems]
  | cons d items ih =>
    rw [jsonItems, List.forall_mem_cons, ← ih]
    cases d.json <;> cases jsonItems items <;> simp

theorem jsonMembers_isSome {members : List (Bytes × Draft)} :
    (jsonMembers members).isSome ↔ ∀ m ∈ members, m.2.json.isSome := by
  induction members with
  | nil => simp [jsonMembers]
  | cons m members ih =>
    obtain ⟨k, d⟩ := m
    rw [jsonMembers, List.forall_mem_cons, ← ih]
    cases d.json <;> cases jsonMembers members <;> simp

@[simp] theorem json_arr_isSome {items : List Draft} :
    (Draft.arr items).json.isSome ↔ ∀ d ∈ items, d.json.isSome := by
  rw [Draft.json, Option.isSome_map, jsonItems_isSome]

@[simp] theorem json_obj_isSome {members : List (Bytes × Draft)} :
    (Draft.obj members).json.isSome ↔ ∀ m ∈ members, m.2.json.isSome := by
  rw [Draft.json, Option.isSome_map, jsonMembers_isSome]

/-- A member of what a document stands for is what the member stands for. -/
theorem get_of_json_obj {members : List (Bytes × Draft)} {v : Value}
    (h : (Draft.obj members).json = some v) (key : Bytes) :
    v.get key = (members.find? fun m => m.1 = key).bind fun m => m.2.json := by
  obtain ⟨ms, hms, rfl⟩ := Option.map_eq_some_iff.1 h
  clear h
  rw [Value.get]
  induction members generalizing ms with
  | nil =>
    obtain rfl := Option.some.inj hms
    rfl
  | cons m members ih =>
    obtain ⟨k, d⟩ := m
    rw [jsonMembers] at hms
    split at hms
    · rename_i v vs hv hvs
      obtain rfl := Option.some.inj hms
      rw [List.find?_cons, List.find?_cons]
      by_cases hk : k = key
      · simp [hk, hv]
      · simpa [hk] using ih vs hvs
    · simp at hms

/-- A member a document has only when `c` holds. -/
def given (c : Prop) [Decidable c] (key : Bytes) (d : Draft) : List (Bytes × Draft) :=
  if c then [(key, d)] else []

@[simp] theorem forall_mem_given {c : Prop} [Decidable c] {key : Bytes} {d : Draft}
    {P : Bytes × Draft → Prop} : (∀ m ∈ given c key d, P m) ↔ (c → P (key, d)) := by
  unfold given
  split_ifs with hc <;> simp [hc]

/-! ### Writing a value that was read -/

section Value

-- How the writer spells a number it read.
variable (spell : Bytes → Decimal)

mutual

/-- A value as the document that is written for it. -/
def Value.draft : Value → Draft
  | .null => .null
  | .bool b => .bool b
  | .num text => .real (some (spell text))
  | .str s => .str s
  | .arr items => .arr (draftItems items)
  | .obj members => .obj (draftMembers members)

def draftItems : List Value → List Draft
  | [] => []
  | v :: items => v.draft :: draftItems items

def draftMembers : List (Bytes × Value) → List (Bytes × Draft)
  | [] => []
  | (k, v) :: members => (k, v.draft) :: draftMembers members

end

/-- The text of a value. -/
def Value.write (v : Value) : Option Bytes := (v.draft spell).write

end Value

end Json
end S2S
