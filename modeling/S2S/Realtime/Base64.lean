/-
# Audio in text frames

`rt_base64_encode`, `rt_base64_value` and `rt_base64_decode` of
`src/realtime-proto.h`, over the bytes of a payload and the characters of its
text.  The decoder keeps what it has read in a word of 32 bits that it never
clears: of that only the last few bits are live, and a group of four characters
leaves none (`feed_four`), so what has wrapped out of the word is never missed.

A character outside the alphabet is passed over, wherever it stands.  So a text
comes back as the bytes it was made from with its padding gone and anything
outside the alphabet between its characters (`rtBase64Decode_loosened`).
-/

import Mathlib.Data.List.Basic
import Mathlib.Tactic.IntervalCases
import S2S.Json.Utf8

namespace S2S
namespace Realtime

open Json

/-! ### The code -/

/-- `RT_BASE64_ALPHABET`. -/
def rtBase64Alphabet : Bytes :=
  ascii "ABCDEFGHIJKLMNOPQRSTUVWXYZabcdefghijklmnopqrstuvwxyz0123456789+/"

/-- The three bytes of a group in one word, a zero for each that is missing. -/
def triple (a b c : UInt8) : UInt32 :=
  (a.toUInt32 <<< 16) ||| (b.toUInt32 <<< 8) ||| c.toUInt32

/-- The character of the six bits from `shift` on. -/
def letter (word : UInt32) (shift : UInt32) : UInt8 :=
  rtBase64Alphabet.getD ((word >>> shift) &&& 0x3F).toNat 0

/-- The padding. -/
def pad : UInt8 := 0x3D

/-- `rt_base64_encode`. -/
def rtBase64Encode : Bytes → Bytes
  | a :: b :: c :: data =>
    [letter (triple a b c) 18, letter (triple a b c) 12, letter (triple a b c) 6,
      letter (triple a b c) 0] ++ rtBase64Encode data
  | [a, b] => [letter (triple a b 0) 18, letter (triple a b 0) 12, letter (triple a b 0) 6, pad]
  | [a] => [letter (triple a 0 0) 18, letter (triple a 0 0) 12, pad, pad]
  | [] => []

/-- `rt_base64_value`.  A byte past ASCII is in none of the ranges, whatever the sign of a `char`. -/
def rtBase64Value (c : UInt8) : ℤ :=
  if 0x41 ≤ c ∧ c ≤ 0x5A then c.toNat - 0x41
  else if 0x61 ≤ c ∧ c ≤ 0x7A then c.toNat - 0x61 + 26
  else if 0x30 ≤ c ∧ c ≤ 0x39 then c.toNat - 0x30 + 52
  else if c = 0x2B then 62
  else if c = 0x2F then 63
  else -1

/-- The variables of the loop of `rt_base64_decode`. -/
structure Decoding where
  out : Bytes := []
  bits : UInt32 := 0
  count : ℕ := 0

/-- What a value does. -/
def Decoding.feed (s : Decoding) (value : ℕ) : Decoding :=
  let bits := (s.bits <<< 6) ||| UInt32.ofNat value
  let count := s.count + 6
  if 8 ≤ count then
    ⟨s.out ++ [((bits >>> UInt32.ofNat (count - 8)) &&& 0xFF).toUInt8], bits, count - 8⟩
  else ⟨s.out, bits, count⟩

/-- The body of the loop. -/
def Decoding.step (s : Decoding) (c : UInt8) : Decoding :=
  if rtBase64Value c < 0 then s else s.feed (rtBase64Value c).toNat

/-- `rt_base64_decode`. -/
def rtBase64Decode (text : Bytes) : Bytes := (text.foldl Decoding.step {}).out

/-! ### Words -/

theorem toNat_triple (a b c : UInt8) :
    (triple a b c).toNat = a.toNat * 65536 + b.toNat * 256 + c.toNat := by
  have ha := a.toNat_lt
  have hb := b.toNat_lt
  have hc := c.toNat_lt
  have hlow : (b.toNat <<< 8 ||| c.toNat) = b.toNat * 256 + c.toNat := by
    rw [← Nat.shiftLeft_add_eq_or_of_lt hc, Nat.shiftLeft_eq]
  have hhigh : (a.toNat <<< 16 ||| (b.toNat * 256 + c.toNat))
      = a.toNat * 65536 + (b.toNat * 256 + c.toNat) := by
    rw [← Nat.shiftLeft_add_eq_or_of_lt (by omega : b.toNat * 256 + c.toNat < 2 ^ 16),
      Nat.shiftLeft_eq]
  have hsa : a.toNat <<< 16 % 2 ^ 32 = a.toNat <<< 16 :=
    Nat.mod_eq_of_lt (by rw [Nat.shiftLeft_eq]; omega)
  have hsb : b.toNat <<< 8 % 2 ^ 32 = b.toNat <<< 8 :=
    Nat.mod_eq_of_lt (by rw [Nat.shiftLeft_eq]; omega)
  have hword : (triple a b c).toNat
      = (a.toNat <<< 16 % 2 ^ 32) ||| (b.toNat <<< 8 % 2 ^ 32) ||| c.toNat := by
    simp [triple]
  rw [hword, hsa, hsb, Nat.or_assoc, hlow, hhigh, Nat.add_assoc]

theorem toNat_six (word shift : UInt32) (h : shift.toNat < 32) :
    ((word >>> shift) &&& 0x3F).toNat = word.toNat / 2 ^ shift.toNat % 64 := by
  rw [UInt32.toNat_and, UInt32.toNat_shiftRight, Nat.mod_eq_of_lt h, Nat.shiftRight_eq_div_pow]
  exact Nat.and_two_pow_sub_one_eq_mod _ 6

theorem value_alphabet {n : ℕ} (h : n < 64) : rtBase64Value (rtBase64Alphabet.getD n 0) = n := by
  have hall : ∀ n < 64, rtBase64Value (rtBase64Alphabet.getD n 0) = n := by decide +kernel
  exact hall n h

/-- The value of a character of the encoder. -/
theorem value_letter (word shift : UInt32) (h : shift.toNat < 32) :
    rtBase64Value (letter word shift) = (word.toNat / 2 ^ shift.toNat % 64 : ℕ) := by
  rw [letter, toNat_six word shift h]
  exact value_alphabet (Nat.mod_lt _ (by decide))

/-! ### The live bits -/

/-- The values of a text, those of its characters that have one. -/
def values (text : Bytes) : List ℕ :=
  (text.filter fun c => 0 ≤ rtBase64Value c).map fun c => (rtBase64Value c).toNat

/-- **What has no value is passed over.** -/
theorem foldl_step (text : Bytes) (s : Decoding) :
    text.foldl Decoding.step s = (values text).foldl Decoding.feed s := by
  induction text generalizing s with
  | nil => rfl
  | cons c text ih =>
    rw [List.foldl_cons, ih, Decoding.step]
    by_cases hc : rtBase64Value c < 0
    · have hvalues : values (c :: text) = values text := by
        rw [values, List.filter_cons_of_neg (by simpa using hc), values]
      rw [if_pos hc, hvalues]
    · have hvalues : values (c :: text) = (rtBase64Value c).toNat :: values text := by
        rw [values, List.filter_cons_of_pos (by simpa using hc), values, List.map_cons]
      rw [if_neg hc, hvalues, List.foldl_cons]

/-- **Only the live bits count**: what is read next, and the word behind it, up to what has left it. -/
theorem feed_bits (s : Decoding) {value : ℕ} (h : value < 64) :
    (s.feed value).bits.toNat = s.bits.toNat * 64 % 2 ^ 32 + value := by
  have hbits : (s.feed value).bits = (s.bits <<< 6) ||| UInt32.ofNat value := by
    unfold Decoding.feed
    dsimp only
    split_ifs <;> rfl
  have hvalue : (UInt32.ofNat value).toNat = value :=
    UInt32.toNat_ofNat_of_lt (lt_trans h (by decide))
  have hshift : (s.bits <<< 6).toNat = (s.bits.toNat % 2 ^ 26) <<< 6 := by
    rw [UInt32.toNat_shiftLeft, Nat.shiftLeft_eq, Nat.shiftLeft_eq]
    change s.bits.toNat * 2 ^ 6 % 2 ^ 32 = _
    omega
  rw [hbits, UInt32.toNat_or, hvalue, hshift, ← Nat.shiftLeft_add_eq_or_of_lt (i := 6) h,
    Nat.shiftLeft_eq]
  omega

/-- A decoder that has given out `out` and holds `count` bits more, which are worth `live`. -/
structure Decoding.Live (s : Decoding) (out : Bytes) (count live : ℕ) : Prop where
  out_eq : s.out = out
  count_eq : s.count = count
  bits_mod : s.bits.toNat % 2 ^ count = live

theorem Decoding.Live.first {s : Decoding} {out : Bytes} {live value : ℕ} (h : s.Live out 0 live)
    (hvalue : value < 64) : (s.feed value).Live out 6 value := by
  have hfew : ¬8 ≤ s.count + 6 := by
    rw [h.count_eq]
    decide
  refine ⟨?_, ?_, ?_⟩
  · rw [feed, if_neg hfew, h.out_eq]
  · rw [feed, if_neg hfew, h.count_eq]
  · rw [feed_bits s hvalue]
    omega

theorem Decoding.Live.next {s : Decoding} {out : Bytes} {count live value : ℕ}
    (h : s.Live out (count + 2) live) (hcount : count ≤ 4) (hvalue : value < 64) :
    (s.feed value).Live (out ++ [UInt8.ofNat ((live * 64 + value) / 2 ^ count)]) count
      ((live * 64 + value) % 2 ^ count) := by
  obtain ⟨rfl, hcounted, rfl⟩ := h
  have hbits := feed_bits s hvalue
  have henough : 8 ≤ s.count + 6 := by omega
  have hleft : s.count + 6 - 8 = count := by omega
  have hfeed : s.feed value = ⟨s.out ++ [((s.feed value).bits >>> UInt32.ofNat count &&& 0xFF).toUInt8],
      (s.feed value).bits, count⟩ := by
    simp only [feed, if_pos henough, hleft]
  -- what has left the word was worth a multiple of what is looked at
  have hsame : (s.bits.toNat * 64 % 2 ^ 32 + value) % 2 ^ (count + 8)
      = (s.bits.toNat % 2 ^ (count + 2) * 64 + value) % 2 ^ (count + 8) := by
    interval_cases count <;> omega
  refine ⟨?_, ?_, ?_⟩
  · rw [hfeed]
    refine congrArg (s.out ++ [·]) (UInt8.toNat_inj.1 ?_)
    have hshift : (UInt32.ofNat count).toNat % 32 = count := by
      rw [UInt32.toNat_ofNat']
      omega
    have hbyte : ∀ n : ℕ, n / 2 ^ count % 256 = n % 2 ^ (count + 8) / 2 ^ count := fun n => by
      rw [pow_add, Nat.mod_mul_right_div_self]
      rfl
    have hand : ∀ n : ℕ, n &&& UInt32.toNat 0xFF = n % 256 := fun n =>
      Nat.and_two_pow_sub_one_eq_mod n 8
    rw [UInt32.toNat_toUInt8, UInt32.toNat_and, UInt32.toNat_shiftRight, hshift,
      Nat.shiftRight_eq_div_pow, hand, hbits, UInt8.toNat_ofNat', hbyte, hsame, ← hbyte]
    exact Nat.mod_mod _ _
  · rw [hfeed]
  · rw [hbits]
    have hdvd : 2 ^ count ∣ 2 ^ (count + 8) := Nat.pow_dvd_pow _ (by omega)
    rw [← Nat.mod_mod_of_dvd _ hdvd, hsame, Nat.mod_mod_of_dvd _ hdvd]

/-! ### Groups -/

/-- The six bits from `shift` on. -/
def six (word shift : ℕ) : ℕ := word / 2 ^ shift % 64

theorem six_lt (word shift : ℕ) : six word shift < 64 := Nat.mod_lt _ (by decide)

/-- How three bytes lie in four times six bits. -/
theorem six_triple (a b c : UInt8) :
    six (triple a b c).toNat 18 = a.toNat / 4 ∧
      six (triple a b c).toNat 12 = a.toNat % 4 * 16 + b.toNat / 16 ∧
      six (triple a b c).toNat 6 = b.toNat % 16 * 4 + c.toNat / 64 ∧
      six (triple a b c).toNat 0 = c.toNat % 64 := by
  have ha := a.toNat_lt
  have hb := b.toNat_lt
  have hc := c.toNat_lt
  unfold six
  rw [toNat_triple]
  omega

theorem ofNat_eq {n : ℕ} {x : UInt8} (h : n = x.toNat) : UInt8.ofNat n = x := by
  rw [h, UInt8.ofNat_toNat]

section Group

variable {s : Decoding} {out : Bytes} {live : ℕ} (a b c : UInt8)

/-- **The first two characters** of a group give its first byte, and hold four bits of the next. -/
theorem feed_two (h : s.Live out 0 live) :
    ((s.feed (six (triple a b c).toNat 18)).feed (six (triple a b c).toNat 12)).Live
      (out ++ [a]) 4 (b.toNat / 16) := by
  have hb := b.toNat_lt
  have htwo := (h.first (six_lt (triple a b c).toNat 18)).next (by decide)
    (six_lt (triple a b c).toNat 12)
  obtain ⟨hfirst, hsecond, -, -⟩ := six_triple a b c
  rw [hfirst, hsecond] at htwo ⊢
  rw [ofNat_eq (x := a) (by omega)] at htwo
  convert htwo using 1
  omega

/-- The third gives the second byte, and holds two bits of the last. -/
theorem feed_three (h : s.Live out 4 (b.toNat / 16)) :
    (s.feed (six (triple a b c).toNat 6)).Live (out ++ [b]) 2 (c.toNat / 64) := by
  have hc := c.toNat_lt
  have hthree := h.next (by decide) (six_lt (triple a b c).toNat 6)
  obtain ⟨-, -, hthird, -⟩ := six_triple a b c
  rw [hthird] at hthree ⊢
  rw [ofNat_eq (x := b) (by omega)] at hthree
  convert hthree using 1
  omega

/-- **The fourth gives the last byte and leaves nothing.** -/
theorem feed_four (h : s.Live out 2 (c.toNat / 64)) :
    (s.feed (six (triple a b c).toNat 0)).Live (out ++ [c]) 0 0 := by
  have hfour := h.next (by decide) (six_lt (triple a b c).toNat 0)
  obtain ⟨-, -, -, hfourth⟩ := six_triple a b c
  rw [hfourth] at hfour ⊢
  rw [ofNat_eq (x := c) (by omega), pow_zero, Nat.mod_one] at hfour
  exact hfour

end Group

theorem values_letter (word : UInt32) {shift : UInt32} (k : ℕ) (hk : shift.toNat = k) (h : k < 32)
    (text : Bytes) : values (letter word shift :: text) = six word.toNat k :: values text := by
  subst hk
  have hvalue := value_letter word shift h
  have hnonneg : 0 ≤ rtBase64Value (letter word shift) := by
    rw [hvalue]
    exact Int.natCast_nonneg _
  rw [values, List.filter_cons_of_pos (by simpa using hnonneg), List.map_cons, hvalue]
  rfl

theorem values_pad (text : Bytes) : values (pad :: text) = values text := by
  rw [values, List.filter_cons_of_neg (by decide), values]

/-- **The values of an encoding give back its bytes**, behind whatever the decoder gave out before. -/
theorem feed_encode (data : Bytes) {s : Decoding} {out : Bytes} {live : ℕ} (h : s.Live out 0 live) :
    ((values (rtBase64Encode data)).foldl Decoding.feed s).out = out ++ data := by
  induction data using rtBase64Encode.induct generalizing s out live with
  | case1 a b c data ih =>
    have hgroup := feed_four a b c (feed_three a b c (feed_two a b c h))
    rw [rtBase64Encode]
    simp only [List.cons_append, List.nil_append]
    rw [values_letter _ 18 rfl (by decide), values_letter _ 12 rfl (by decide),
      values_letter _ 6 rfl (by decide), values_letter _ 0 rfl (by decide), List.foldl_cons,
      List.foldl_cons, List.foldl_cons, List.foldl_cons, ih hgroup]
    simp
  | case2 a b =>
    have hgroup := feed_three a b 0 (feed_two a b 0 h)
    rw [rtBase64Encode, values_letter _ 18 rfl (by decide), values_letter _ 12 rfl (by decide),
      values_letter _ 6 rfl (by decide), values_pad]
    refine hgroup.out_eq.trans ?_
    simp
  | case3 a =>
    have hgroup := feed_two a 0 0 h
    rw [rtBase64Encode, values_letter _ 18 rfl (by decide), values_letter _ 12 rfl (by decide), values_pad,
      values_pad]
    exact hgroup.out_eq
  | case4 => exact h.out_eq.trans (List.append_nil out).symm

/-! ### A text on its way -/

/-- What may become of a text: characters outside the alphabet come in at any place, and padding may
go. -/
inductive Loosened : Bytes → Bytes → Prop
  | nil : Loosened [] []
  | keep (c : UInt8) {text loose : Bytes} : Loosened text loose → Loosened (c :: text) (c :: loose)
  | insert {c : UInt8} {text loose : Bytes} :
    rtBase64Value c < 0 → Loosened text loose → Loosened text (c :: loose)
  | unpad {text loose : Bytes} : Loosened text loose → Loosened (pad :: text) loose

theorem Loosened.values_eq {text loose : Bytes} (h : Loosened text loose) :
    values loose = values text := by
  induction h with
  | nil => rfl
  | keep c _ ih =>
    unfold values at ih ⊢
    by_cases hc : 0 ≤ rtBase64Value c
    · rw [List.filter_cons_of_pos (by simpa using hc), List.filter_cons_of_pos (by simpa using hc),
        List.map_cons, List.map_cons, ih]
    · rw [List.filter_cons_of_neg (by simpa using hc), List.filter_cons_of_neg (by simpa using hc),
        ih]
  | insert hc _ ih =>
    rw [← ih, values, List.filter_cons_of_neg (by simpa using hc), values]
  | unpad _ ih => rw [values_pad, ih]

/-- **A payload comes back as it was**, whatever was put between its characters and with its padding
or without. -/
theorem rtBase64Decode_loosened (data : Bytes) {text : Bytes}
    (h : Loosened (rtBase64Encode data) text) : rtBase64Decode text = data := by
  have hstart : ({} : Decoding).Live [] 0 0 := ⟨rfl, rfl, by decide⟩
  rw [rtBase64Decode, foldl_step, h.values_eq]
  exact feed_encode data hstart

/-- A byte whose padding went, with a line break between its characters. -/
theorem rtBase64Decode_loosened_byte : rtBase64Decode [0x54, 0x0A, 0x51] = [0x4D] :=
  rtBase64Decode_loosened [0x4D]
    (.keep 0x54 (.insert (by decide) (.keep 0x51 (.unpad (.unpad .nil)))))

end Realtime
end S2S
