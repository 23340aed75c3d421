/-
# Where a unit ends

`SentenceSplitter` of `src/sentence-split.h` counts in UTF-16 what it has cut
off, sentence by sentence.  A sentence ends in an ASCII byte, and no character
reaches across one, so a text reads as its sentences do, one after the other,
malformed bytes included (`characters_append_ascii`): what was counted apart is
the length of the text up to the cut.

So the units are a function of the text (`unitsOf`), and it does not matter how
the text was cut into deltas (`streamUnits_flatten`); each unit ends where its
sentence does, the ends rise, and none lies behind what has come so far
(`ends_of_stream`).
-/

import S2S.Split.Units

namespace S2S
namespace Split

open Json
open Conversation (SentenceUnit)

/-! ### Characters across a cut -/

/-- A text that ends in an ASCII byte. -/
def EndsAscii (text : Bytes) : Prop := ∃ a b, text = a ++ [b] ∧ b < 0x80

theorem not_continues_of_ascii : ∀ b : UInt8, b < 0x80 → continues b = false :=
  forall_byte (by decide +kernel)

theorem EndsAscii.ne_nil {text : Bytes} (h : EndsAscii text) : text ≠ [] := by
  obtain ⟨a, b, rfl, -⟩ := h
  simp

/-- What is left of such a text ends as it does. -/
theorem EndsAscii.drop {text : Bytes} (h : EndsAscii text) {n : ℕ} (hn : n < text.length) :
    EndsAscii (text.drop n) := by
  obtain ⟨a, b, rfl, hb⟩ := h
  rw [List.length_append, List.length_singleton] at hn
  exact ⟨a.drop n, b, List.drop_append_of_le_length (by omega), hb⟩

/-- A character ends within its text. -/
theorem sentenceDecode_le {text : Bytes} (h : text ≠ []) : (sentenceDecode text).2 ≤ text.length := by
  obtain ⟨lead, t, rfl⟩ := List.exists_cons_of_ne_nil h
  rw [sentenceDecode]
  split_ifs with hn
  · simp
  · rw [List.length_cons]
    omega
  · simp

/-- **A character does not reach across an ASCII byte**: what follows changes nothing of it. -/
theorem EndsAscii.decode {text : Bytes} (h : EndsAscii text) (rest : Bytes) :
    sentenceDecode (text ++ rest) = sentenceDecode text := by
  obtain ⟨a, b, rfl, hb⟩ := h
  cases a with
  | nil =>
    have hascii := whole_ascii hb
    have hone : sentenceDecode [b] = (b.toNat, 1) := by simpa using hascii.decode []
    have hmore : sentenceDecode ([b] ++ rest) = (b.toNat, 1) := hascii.decode rest
    rw [List.nil_append, hmore, hone]
  | cons lead tail =>
    rw [List.cons_append, List.cons_append, sentenceDecode, sentenceDecode]
    have hb' : b ∈ tail ++ [b] := by simp
    generalize tail ++ [b] = t at hb' ⊢
    generalize sentenceLength lead = n
    rcases Nat.lt_or_ge (t.length + 1) n with hshort | hlong
    · -- The character would take the ASCII byte and go on: it is malformed either way.
      have hnot : ¬((t ++ rest).take (n - 1)).all continues = true := by
        intro hall
        have hmem : b ∈ (t ++ rest).take (n - 1) := by
          rw [List.take_append]
          exact List.mem_append_left _ (by rwa [List.take_of_length_le (by omega)])
        have := List.all_eq_true.1 hall b hmem
        rw [not_continues_of_ascii b hb] at this
        simp at this
      rw [if_neg hnot, ite_self, if_pos (Or.inr hshort)]
    · have htake : (t ++ rest).take (n - 1) = t.take (n - 1) :=
        List.take_append_of_le_length (by omega)
      have hiff : (n = 0 ∨ (t ++ rest).length + 1 < n) ↔ (n = 0 ∨ t.length + 1 < n) := by
        rw [List.length_append]
        omega
      simp only [htake, hiff]

/-- **A text reads as its two halves do**, when the first ends in an ASCII byte. -/
theorem characters_append_ascii {text : Bytes} (h : EndsAscii text) (rest : Bytes) :
    characters (text ++ rest) = characters text ++ characters rest := by
  induction hn : text.length using Nat.strong_induction_on generalizing text with
  | _ n ih =>
    have hle := sentenceDecode_le h.ne_nil
    have hpos := sentenceDecode_pos text
    rw [characters, if_neg (by simp [h.ne_nil]), h.decode rest, characters.eq_def text,
      if_neg h.ne_nil, List.take_append_of_le_length hle, List.drop_append_of_le_length hle,
      List.cons_append]
    rcases Nat.lt_or_ge (sentenceDecode text).2 text.length with hlt | hge
    · have hdrop := h.drop hlt
      rw [ih (text.drop (sentenceDecode text).2).length (by rw [List.length_drop]; omega) hdrop rfl]
    · rw [List.drop_eq_nil_of_le hge, characters_nil, List.nil_append, List.nil_append]

/-! ### Lengths -/

/-- The UTF-16 length of a character. -/
def utf16Units (c : ℕ × Bytes) : ℕ := if 0x10000 ≤ c.1 then 2 else 1

theorem sentenceUtf16Len_eq (text : Bytes) :
    sentenceUtf16Len text = ((characters text).map utf16Units).sum := by
  have hfold : ∀ (cs : List (ℕ × Bytes)) (n : ℕ),
      cs.foldl (fun n c => n + if 0x10000 ≤ c.1 then 2 else 1) n = n + (cs.map utf16Units).sum := by
    intro cs
    induction cs with
    | nil => intro n; rfl
    | cons c cs ih =>
      intro n
      rw [List.foldl_cons, ih, List.map_cons, List.sum_cons, Nat.add_assoc]
      rfl
  rw [sentenceUtf16Len, hfold, Nat.zero_add]

/-- **The length is additive behind an ASCII byte.** -/
theorem sentenceUtf16Len_append {text : Bytes} (h : EndsAscii text) (rest : Bytes) :
    sentenceUtf16Len (text ++ rest) = sentenceUtf16Len text + sentenceUtf16Len rest := by
  simp only [sentenceUtf16Len_eq, characters_append_ascii h, List.map_append, List.sum_append]

@[simp] theorem sentenceUtf16Len_nil : sentenceUtf16Len [] = 0 := by
  rw [sentenceUtf16Len_eq, characters_nil]
  rfl

/-- Something written has a length. -/
theorem sentenceUtf16Len_pos {text : Bytes} (h : text ≠ []) : 0 < sentenceUtf16Len text := by
  rw [sentenceUtf16Len_eq, characters, if_neg h, List.map_cons, List.sum_cons]
  have : 0 < utf16Units ((sentenceDecode text).1, text.take (sentenceDecode text).2) := by
    unfold utf16Units
    split_ifs <;> omega
  omega

/-! ### Sentences -/

/-- A cut takes a sentence off the front, which ends in an ASCII byte. -/
theorem cut_sentence {pending written rest : Bytes}
    (h : sentences.cut pending = some (written, rest)) :
    written ++ rest = pending ∧ EndsAscii written := by
  simp only [sentences] at h
  split_ifs at h with h0
  obtain ⟨rfl, rfl⟩ := Prod.mk.inj (Option.some.inj h)
  exact ⟨List.take_append_drop _ _, sentence_end h0⟩

/-- The sentences of a text, and what is left of it, are the text. -/
theorem sentences_flatten (text : Bytes) :
    (sentences.pieces text).1.flatten ++ (sentences.pieces text).2 = text :=
  sentences.pieces_flatten (fun h => (cut_sentence h).1) text

theorem endsAscii_of_mem_pieces {text piece : Bytes} (h : piece ∈ (sentences.pieces text).1) :
    EndsAscii piece := by
  induction text using Cutter.pieces.induct sentences with
  | case1 text hcut => simp [sentences.pieces_none hcut] at h
  | case2 text written rest hcut ih =>
    rw [sentences.pieces_some hcut] at h
    rcases List.mem_cons.1 h with rfl | h
    · exact (cut_sentence hcut).2
    · exact ih h

/-! ### The units of a text -/

/-- The units of sentences behind a text of length `n`: each ends where its sentence does, and one
with nothing to say is none. -/
def unitsFrom (n : ℕ) : List Bytes → List SentenceUnit
  | [] => []
  | piece :: pieces =>
    (if sentenceClean piece = [] then []
      else [⟨sentenceClean piece, n + sentenceUtf16Len piece⟩]) ++
      unitsFrom (n + sentenceUtf16Len piece) pieces

/-- The length of sentences, each measured apart. -/
def lengthsOf (pieces : List Bytes) : ℕ := (pieces.map sentenceUtf16Len).sum

theorem lengthsOf_cons (piece : Bytes) (pieces : List Bytes) :
    lengthsOf (piece :: pieces) = sentenceUtf16Len piece + lengthsOf pieces := by
  rw [lengthsOf, List.map_cons, List.sum_cons, lengthsOf]

theorem lengthsOf_append (pieces more : List Bytes) :
    lengthsOf (pieces ++ more) = lengthsOf pieces + lengthsOf more := by
  rw [lengthsOf, List.map_append, List.sum_append, lengthsOf, lengthsOf]

theorem unitsFrom_append (n : ℕ) (pieces more : List Bytes) :
    unitsFrom n (pieces ++ more) = unitsFrom n pieces ++ unitsFrom (n + lengthsOf pieces) more := by
  induction pieces generalizing n with
  | nil => rfl
  | cons piece pieces ih =>
    rw [List.cons_append, unitsFrom, unitsFrom, ih, List.append_assoc, lengthsOf_cons, Nat.add_assoc]

theorem foldl_splitPiece (units : List SentenceUnit) (n : ℕ) (pieces : List Bytes) :
    pieces.foldl (fun state piece => (splitPiece state piece).1) (units, n) =
      (units ++ unitsFrom n pieces, n + lengthsOf pieces) := by
  induction pieces generalizing units n with
  | nil => simp [unitsFrom, lengthsOf]
  | cons piece pieces ih =>
    rw [List.foldl_cons, splitPiece]
    dsimp only
    rw [ih, unitsFrom, lengthsOf_cons, ← Nat.add_assoc]
    split_ifs <;> simp

/-- **One push**: the units of the sentences that are complete now. -/
theorem sentenceSplitPush_eq (s : SentenceSplitter) (delta : Bytes) :
    sentenceSplitPush s delta =
      (unitsFrom s.consumed (sentences.pieces (s.pending ++ delta)).1,
        ⟨(sentences.pieces (s.pending ++ delta)).2,
          s.consumed + lengthsOf (sentences.pieces (s.pending ++ delta)).1⟩) := by
  rw [sentenceSplitPush, sentences.drain_eq_pieces splitPiece (fun _ _ => rfl), foldl_splitPiece,
    List.nil_append]

/-- **However a text is cut into deltas**, the pushes are the push of the whole text. -/
theorem sentenceSplitPushes_flatten {s : SentenceSplitter} (h : sentences.cut s.pending = none)
    (deltas : List Bytes) : sentenceSplitPushes s deltas = sentenceSplitPush s deltas.flatten := by
  induction deltas generalizing s with
  | nil =>
    rw [sentenceSplitPush_eq, List.flatten_nil, List.append_nil, sentences.pieces_none h]
    rfl
  | cons delta deltas ih =>
    rw [sentenceSplitPushes, sentenceSplitPush_eq s delta]
    dsimp only
    rw [ih (sentences.cut_pieces _), sentenceSplitPush_eq, sentenceSplitPush_eq, List.flatten_cons,
      ← List.append_assoc, sentences.pieces_append (s.pending ++ delta)]
    dsimp only
    rw [unitsFrom_append, lengthsOf_append, Nat.add_assoc]

/-- The units of a stream: those of its pushes, then the one of the flush. -/
def streamUnits (deltas : List Bytes) : List SentenceUnit :=
  (sentenceSplitPushes {} deltas).1 ++ [(sentenceSplitFlush (sentenceSplitPushes {} deltas).2).1]

/-- **The units do not depend on the deltas**, but on the text they make. -/
theorem streamUnits_flatten {deltas deltas' : List Bytes} (h : deltas.flatten = deltas'.flatten) :
    streamUnits deltas = streamUnits deltas' := by
  unfold streamUnits
  rw [sentenceSplitPushes_flatten rfl, sentenceSplitPushes_flatten rfl, h]

/-- A text cut inside a character and before what confirms a terminator, and the whole of it. -/
theorem streamUnits_cut : streamUnits cutDeltas = streamUnits [cutDeltas.flatten] :=
  streamUnits_flatten (by simp)

/-! ### The ends -/

/-- **Sentences measured apart are as long as together.** -/
theorem lengthsOf_eq {pieces : List Bytes} (h : ∀ piece ∈ pieces, EndsAscii piece) (rest : Bytes) :
    sentenceUtf16Len (pieces.flatten ++ rest) = lengthsOf pieces + sentenceUtf16Len rest := by
  induction pieces with
  | nil => rw [List.flatten_nil, List.nil_append, lengthsOf, List.map_nil, List.sum_nil, Nat.zero_add]
  | cons piece pieces ih =>
    obtain ⟨hpiece, hpieces⟩ := List.forall_mem_cons.1 h
    rw [List.flatten_cons, List.append_assoc, sentenceUtf16Len_append hpiece, ih hpieces,
      lengthsOf_cons, Nat.add_assoc]

theorem lengthsOf_flatten {pieces : List Bytes} (h : ∀ piece ∈ pieces, EndsAscii piece) :
    lengthsOf pieces = sentenceUtf16Len pieces.flatten := by
  have := lengthsOf_eq h []
  rw [List.append_nil, sentenceUtf16Len_nil, Nat.add_zero] at this
  exact this.symm

theorem mem_unitsFrom {n : ℕ} {pieces : List Bytes} {unit : SentenceUnit}
    (h : unit ∈ unitsFrom n pieces) :
    ∃ before piece after, pieces = before ++ piece :: after ∧ unit.text = sentenceClean piece ∧
      unit.textEnd = n + lengthsOf (before ++ [piece]) := by
  induction pieces generalizing n with
  | nil => simp [unitsFrom] at h
  | cons piece pieces ih =>
    rw [unitsFrom] at h
    rcases List.mem_append.1 h with h | h
    · split_ifs at h
      · simp at h
      · obtain rfl := List.mem_singleton.1 h
        exact ⟨[], piece, pieces, rfl, rfl, by simp [lengthsOf]⟩
    · obtain ⟨before, piece', after, rfl, htext, hend⟩ := ih h
      exact ⟨piece :: before, piece', after, rfl, htext, by
        rw [hend, List.cons_append, lengthsOf_cons, Nat.add_assoc]⟩

/-- The ends of units rise, from behind the text that came before. -/
theorem unitsFrom_rise {n : ℕ} {pieces : List Bytes} (h : ∀ piece ∈ pieces, piece ≠ []) :
    ((unitsFrom n pieces).map SentenceUnit.textEnd).Pairwise (· < ·) ∧
      ∀ unit ∈ unitsFrom n pieces, n < unit.textEnd ∧ unit.textEnd ≤ n + lengthsOf pieces := by
  induction pieces generalizing n with
  | nil => simp [unitsFrom]
  | cons piece pieces ih =>
    obtain ⟨hpiece, hpieces⟩ := List.forall_mem_cons.1 h
    have hpos := sentenceUtf16Len_pos hpiece
    obtain ⟨hrise, hwithin⟩ := ih (n := n + sentenceUtf16Len piece) hpieces
    have hlater : ∀ unit ∈ unitsFrom (n + sentenceUtf16Len piece) pieces,
        n + sentenceUtf16Len piece < unit.textEnd ∧ n < unit.textEnd ∧
          unit.textEnd ≤ n + lengthsOf (piece :: pieces) := by
      intro unit hunit
      obtain ⟨hlt, hle⟩ := hwithin unit hunit
      rw [lengthsOf_cons]
      omega
    rw [unitsFrom]
    split_ifs
    · exact ⟨hrise, fun unit hunit => (hlater unit hunit).2⟩
    · constructor
      · rw [List.singleton_append, List.map_cons, List.pairwise_cons]
        refine ⟨fun e he => ?_, hrise⟩
        obtain ⟨unit, hunit, rfl⟩ := List.mem_map.1 he
        exact (hlater unit hunit).1
      · intro unit hunit
        rcases List.mem_append.1 hunit with hunit | hunit
        · obtain rfl := List.mem_singleton.1 hunit
          refine ⟨by show n < n + _; omega, ?_⟩
          show n + sentenceUtf16Len piece ≤ _
          rw [lengthsOf_cons]
          omega
        · exact (hlater unit hunit).2

/-- **How far a splitter is** that has been pushed a text: its sentences are told, the rest waits. -/
theorem sentenceSplitPushes_eq (deltas : List Bytes) :
    sentenceSplitPushes {} deltas =
      (unitsFrom 0 (sentences.pieces deltas.flatten).1,
        ⟨(sentences.pieces deltas.flatten).2,
          sentenceUtf16Len (sentences.pieces deltas.flatten).1.flatten⟩) := by
  rw [sentenceSplitPushes_flatten rfl, sentenceSplitPush_eq]
  show (unitsFrom 0 (sentences.pieces ([] ++ deltas.flatten)).1, _) = _
  rw [List.nil_append, ← lengthsOf_flatten fun _ => endsAscii_of_mem_pieces]
  simp

theorem pieces_ne_nil (text : Bytes) : ∀ piece ∈ (sentences.pieces text).1, piece ≠ [] :=
  fun _ h => (endsAscii_of_mem_pieces h).ne_nil

/-- **Where the units of a stream end.**  Each says a sentence of the text and ends where that
sentence does (`cut`); the ends rise, the one of the tail too when it has something to say (`rise`);
none lies behind what has come so far (`within`); the flush ends where the text does (`flush`); and
the lengths on both sides of a cut make the length of the text (`additive`). -/
structure Ends (deltas : List Bytes) : Prop where
  cut : ∀ unit ∈ (sentenceSplitPushes {} deltas).1, ∃ before piece after,
    (sentences.pieces deltas.flatten).1 = before ++ piece :: after ∧
      unit.text = sentenceClean piece ∧ unit.textEnd = sentenceUtf16Len (before ++ [piece]).flatten
  rise : (((sentenceSplitPushes {} deltas).1 ++
    [(sentenceSplitFlush (sentenceSplitPushes {} deltas).2).1].filter (·.text ≠ [])).map
      SentenceUnit.textEnd).Pairwise (· < ·)
  within : ∀ sent later, deltas = sent ++ later → ∀ unit ∈ (sentenceSplitPushes {} sent).1,
    unit.textEnd ≤ sentenceUtf16Len sent.flatten
  flush : (sentenceSplitFlush (sentenceSplitPushes {} deltas).2).1.textEnd =
    sentenceUtf16Len deltas.flatten
  additive : ∀ before after, (sentences.pieces deltas.flatten).1 = before ++ after →
    sentenceUtf16Len deltas.flatten = sentenceUtf16Len before.flatten +
      sentenceUtf16Len (after.flatten ++ (sentences.pieces deltas.flatten).2)

theorem sentenceUtf16Len_pieces {text : Bytes} {before after : List Bytes}
    (h : (sentences.pieces text).1 = before ++ after) :
    sentenceUtf16Len text = sentenceUtf16Len before.flatten +
      sentenceUtf16Len (after.flatten ++ (sentences.pieces text).2) := by
  have hbefore : ∀ piece ∈ before, EndsAscii piece := fun piece hpiece =>
    endsAscii_of_mem_pieces (h ▸ List.mem_append_left _ hpiece)
  conv_lhs => rw [← sentences_flatten text, h, List.flatten_append, List.append_assoc]
  rw [lengthsOf_eq hbefore, lengthsOf_flatten hbefore]

/-- **The length of a text** is the one of its sentences and of what waits behind them. -/
theorem sentenceUtf16Len_split (text : Bytes) :
    sentenceUtf16Len text = sentenceUtf16Len (sentences.pieces text).1.flatten +
      sentenceUtf16Len (sentences.pieces text).2 := by
  simpa using @sentenceUtf16Len_pieces text _ [] (List.append_nil _).symm

theorem textEnd_le {deltas : List Bytes} {unit : SentenceUnit}
    (h : unit ∈ (sentenceSplitPushes {} deltas).1) :
    unit.textEnd ≤ sentenceUtf16Len deltas.flatten := by
  rw [sentenceSplitPushes_eq] at h
  have hle := ((unitsFrom_rise (pieces_ne_nil _)).2 unit h).2
  rw [lengthsOf_flatten fun _ => endsAscii_of_mem_pieces] at hle
  have := sentenceUtf16Len_split deltas.flatten
  omega

theorem flush_textEnd (deltas : List Bytes) :
    (sentenceSplitFlush (sentenceSplitPushes {} deltas).2).1.textEnd =
      sentenceUtf16Len deltas.flatten := by
  rw [sentenceSplitPushes_eq, sentenceUtf16Len_split deltas.flatten]
  rfl

/-- **The ends of a stream**, whatever its text and however it was cut. -/
theorem ends_of_stream (deltas : List Bytes) : Ends deltas where
  cut unit hunit := by
    rw [sentenceSplitPushes_eq] at hunit
    obtain ⟨before, piece, after, hpieces, htext, hend⟩ := mem_unitsFrom hunit
    have hascii : ∀ piece' ∈ before ++ [piece], EndsAscii piece' := by
      intro piece' hpiece'
      refine @endsAscii_of_mem_pieces deltas.flatten _ ?_
      rw [hpieces, List.append_cons]
      exact List.mem_append_left _ hpiece'
    refine ⟨before, piece, after, hpieces, htext, ?_⟩
    rw [hend, Nat.zero_add, lengthsOf_flatten hascii]
  rise := by
    rw [List.map_append, List.pairwise_append]
    have hpushes := congrArg Prod.fst (sentenceSplitPushes_eq deltas)
    refine ⟨by rw [hpushes]; exact (unitsFrom_rise (pieces_ne_nil _)).1, ?_, ?_⟩
    · exact List.Pairwise.map _ (fun _ _ h => h) (List.Pairwise.filter _ (List.pairwise_singleton _ _))
    · intro e he e' he'
      obtain ⟨unit, hunit, rfl⟩ := List.mem_map.1 he
      obtain ⟨tail, htail, rfl⟩ := List.mem_map.1 he'
      obtain ⟨htail, hsaid⟩ := List.mem_filter.1 htail
      obtain rfl := List.mem_singleton.1 htail
      -- The tail says something, so something is left behind the sentences.
      have hne : (sentences.pieces deltas.flatten).2 ≠ [] := by
        intro hnil
        rw [sentenceSplitPushes_eq, sentenceSplitFlush, hnil] at hsaid
        simp [sentenceClean, characters_nil] at hsaid
      rw [flush_textEnd, sentenceUtf16Len_split]
      rw [hpushes] at hunit
      have hle := ((unitsFrom_rise (pieces_ne_nil _)).2 unit hunit).2
      rw [lengthsOf_flatten fun _ => endsAscii_of_mem_pieces] at hle
      have := sentenceUtf16Len_pos hne
      omega
  within sent later _ unit hunit := textEnd_le hunit
  flush := flush_textEnd deltas
  additive _ _ h := sentenceUtf16Len_pieces h

end Split
end S2S
