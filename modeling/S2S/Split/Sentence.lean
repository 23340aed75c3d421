/-
# Synthesis units

`src/sentence-split.h`: a stream of text deltas becomes units to speak.  The
text is cut on bytes, right after a line break or after a terminator that the
next byte confirms; a unit is cleaned on code points, of markdown, emoji and
the white space these leave, and one with nothing to say is dropped.
-/

import S2S.Chunks
import S2S.Conversation.Memory
import S2S.Split.Emoji

namespace S2S
namespace Split

open Json
open Conversation (SentenceUnit)

/-- `sentence_is_terminator`. -/
def sentenceIsTerminator (c : UInt8) : Bool :=
  c = 0x2E || c = 0x21 || c = 0x3F || c = 0x3A || c = 0x3B

/-! ### Code points -/

/-- The bytes that the first one of a character announces, none when it starts no character. -/
def sentenceLength (lead : UInt8) : ℕ :=
  if lead < 0x80 then 1
  else if lead >>> 5 = 0x06 then 2
  else if lead >>> 4 = 0x0E then 3
  else if lead >>> 3 = 0x1E then 4
  else 0

/-- What the first byte of a character of `n` bytes gives to its code point. -/
def sentenceLead (n : ℕ) (lead : UInt8) : ℕ :=
  match n with
  | 1 => lead.toNat
  | 2 => (lead &&& 0x1F).toNat
  | 3 => (lead &&& 0x0F).toNat
  | _ => (lead &&& 0x07).toNat

/-- A byte that continues a character. -/
def continues (b : UInt8) : Bool := b &&& 0xC0 = 0x80

/-- What a continuation byte adds to a code point. -/
def decodeNext (cp : ℕ) (next : UInt8) : ℕ := cp <<< 6 ||| (next &&& 0x3F).toNat

/-- `sentence_decode`: the code point a text starts with and its length in bytes.  What is malformed
reads as U+FFFD, one byte long. -/
def sentenceDecode : Bytes → ℕ × ℕ
  | [] => (0xFFFD, 1)
  | lead :: text =>
    let n := sentenceLength lead
    if n = 0 ∨ text.length + 1 < n then (0xFFFD, 1)
    else if (text.take (n - 1)).all continues then
      ((text.take (n - 1)).foldl decodeNext (sentenceLead n lead), n)
    else (0xFFFD, 1)

theorem sentenceDecode_pos (text : Bytes) : 0 < (sentenceDecode text).2 := by
  unfold sentenceDecode
  split
  · exact Nat.one_pos
  · dsimp only
    split_ifs with hn
    · exact Nat.one_pos
    · exact Nat.pos_of_ne_zero fun h => hn (Or.inl h)
    · exact Nat.one_pos

/-- The characters of a text, each with its code point, as the loops over a text see them. -/
def characters (text : Bytes) : List (ℕ × Bytes) :=
  if text = [] then []
  else
    ((sentenceDecode text).1, text.take (sentenceDecode text).2) ::
      characters (text.drop (sentenceDecode text).2)
termination_by text.length
decreasing_by
  have := sentenceDecode_pos text
  have := List.length_pos_of_ne_nil ‹_›
  rw [List.length_drop]
  omega

/-- The code points of a text. -/
def codePoints (text : Bytes) : List ℕ := (characters text).map Prod.fst

/-- `sentence_utf16_len`. -/
def sentenceUtf16Len (text : Bytes) : ℕ :=
  (characters text).foldl (fun n c => n + if 0x10000 ≤ c.1 then 2 else 1) 0

/-- `sentence_is_spoken`. -/
def sentenceIsSpoken (cp : ℕ) : Bool :=
  if cp < 0x80 then
    (decide (0x30 ≤ cp) && decide (cp ≤ 0x39)) || (decide (0x61 ≤ cp) && decide (cp ≤ 0x7A)) ||
      (decide (0x41 ≤ cp) && decide (cp ≤ 0x5A))
  else
    decide (0xC0 ≤ cp) && !(decide (0x2000 ≤ cp) && decide (cp ≤ 0x2BFF)) &&
      !(decide (0x3000 ≤ cp) && decide (cp ≤ 0x303F))

/-! ### Cleaning -/

/-- The markdown that is dropped: `*`, `_`, backquote and `#`. -/
def isMarker (cp : ℕ) : Bool := cp = 0x2A || cp = 0x5F || cp = 0x60 || cp = 0x23

/-- A line break or a tab. -/
def isBreak (cp : ℕ) : Bool := cp = 0x0A || cp = 0x0D || cp = 0x09

/-- One character: what it adds to the text so far, and whether something spoken has come. -/
def cleanStep (state : Bytes × Bool) (c : ℕ × Bytes) : Bytes × Bool :=
  let out := state.1
  if isMarker c.1 then state
  else if isBreak c.1 || emojiIs c.1 then
    (if out ≠ [] ∧ out.getLast? ≠ some 0x20 then out ++ [0x20] else out, state.2)
  else if c.1 = 0x20 ∧ out ≠ [] ∧ out.getLast? = some 0x20 then state
  else (out ++ c.2, state.2 || sentenceIsSpoken c.1)

/-- A text without the spaces at its two ends. -/
def trimSpaces (out : Bytes) : Bytes := (out.dropWhile (· = 0x20)).rdropWhile (· = 0x20)

/-- `sentence_clean`: nothing is left of a text without a word. -/
def sentenceClean (text : Bytes) : Bytes :=
  let state := (characters text).foldl cleanStep ([], false)
  if state.2 then trimSpaces state.1 else []

/-! ### Cutting -/

/-- What confirms a terminator: a space, a line break or a quote right behind it. -/
def confirms (next : UInt8) : Bool := next = 0x20 || next = 0x0A || next = 0x22 || next = 0x27

/-- `sentence_cut_point`: the length of the leading sentence, 0 while none is complete. -/
def sentenceCutPoint : Bytes → ℕ
  | [] => 0
  | c :: pending =>
    if c = 0x0A then 1
    else if sentenceIsTerminator c && pending.head?.any confirms then 1
    else
      match sentenceCutPoint pending with
      | 0 => 0
      | n + 1 => n + 2

theorem sentenceCutPoint_le (pending : Bytes) : sentenceCutPoint pending ≤ pending.length := by
  induction pending with
  | nil => exact le_rfl
  | cons c pending ih =>
    rw [sentenceCutPoint, List.length_cons]
    split_ifs
    · omega
    · omega
    · split <;> omega

/-- A sentence that is complete is not moved by what follows. -/
theorem sentenceCutPoint_append {pending : Bytes} (h : sentenceCutPoint pending ≠ 0) (more : Bytes) :
    sentenceCutPoint (pending ++ more) = sentenceCutPoint pending := by
  induction pending with
  | nil => simp [sentenceCutPoint] at h
  | cons c pending ih =>
    cases pending with
    | nil =>
      -- Nothing confirms a terminator at the end, so the sentence ends in a line break.
      by_cases hbreak : c = 0x0A
      · simp [sentenceCutPoint, hbreak]
      · simp [sentenceCutPoint, hbreak] at h
    | cons next pending =>
      rw [sentenceCutPoint, List.head?_cons] at h
      rw [List.cons_append, sentenceCutPoint, sentenceCutPoint, List.head?_cons, List.cons_append,
        List.head?_cons, ← List.cons_append]
      split_ifs at h ⊢
      · rfl
      · rfl
      · have hne : sentenceCutPoint (next :: pending) ≠ 0 := fun h0 => h (by rw [h0])
        rw [ih hne]

/-- The sentences of a text. -/
def sentences : Cutter UInt8 where
  cut pending :=
    if sentenceCutPoint pending = 0 then none
    else some (pending.take (sentenceCutPoint pending), pending.drop (sentenceCutPoint pending))
  cut_append := by
    intro pending written rest h more
    split_ifs at h with h0
    obtain ⟨rfl, rfl⟩ := Prod.mk.inj (Option.some.inj h)
    have hle := sentenceCutPoint_le pending
    rw [sentenceCutPoint_append h0, if_neg h0, List.take_append_of_le_length hle,
      List.drop_append_of_le_length hle]
  cut_length := by
    intro pending written rest h
    split_ifs at h with h0
    obtain ⟨rfl, rfl⟩ := Prod.mk.inj (Option.some.inj h)
    have hle := sentenceCutPoint_le pending
    rw [List.length_drop]
    omega

/-! ### The splitter -/

/-- `SentenceSplitter`. -/
structure SentenceSplitter where
  pending : Bytes := []
  consumed : ℕ := 0

/-- One sentence that was cut off: a unit, unless nothing is left to say. -/
def splitPiece (state : List SentenceUnit × ℕ) (written : Bytes) : (List SentenceUnit × ℕ) × Bool :=
  let consumed := state.2 + sentenceUtf16Len written
  let text := sentenceClean written
  ((if text = [] then state.1 else state.1 ++ [⟨text, consumed⟩], consumed), true)

/-- `sentence_split_push`. -/
def sentenceSplitPush (s : SentenceSplitter) (delta : Bytes) :
    List SentenceUnit × SentenceSplitter :=
  let out := sentences.drain splitPiece ([], s.consumed) (s.pending ++ delta)
  (out.1.1, ⟨out.2.1, out.1.2⟩)

/-- `sentence_split_flush`. -/
def sentenceSplitFlush (s : SentenceSplitter) : SentenceUnit × SentenceSplitter :=
  let consumed := s.consumed + sentenceUtf16Len s.pending
  (⟨sentenceClean s.pending, consumed⟩, ⟨[], consumed⟩)

/-- The pushes of a stream of deltas: their units, and the splitter they leave. -/
def sentenceSplitPushes (s : SentenceSplitter) :
    List Bytes → List SentenceUnit × SentenceSplitter
  | [] => ([], s)
  | delta :: deltas =>
    let first := sentenceSplitPush s delta
    let more := sentenceSplitPushes first.2 deltas
    (first.1 ++ more.1, more.2)

end Split
end S2S
