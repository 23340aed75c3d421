/-
# What a wake phrase does not look at

`wake_words` of `src/s2s-conversation.cpp` lowers the ASCII letters and ends a
word at every other ASCII byte that is no digit, so `wake_heard` does not see
the case of an ASCII letter nor the ASCII punctuation between words (`Change`,
`wakeHeard_alike`).  A byte past ASCII counts as a letter and stays what it is:
an accented capital is another letter, and an ellipsis of one character belongs
to the word it stands behind (`wakeHeard_past_ascii`).
-/

import Mathlib.Logic.Relation
import S2S.Wake.Gate

namespace S2S
namespace Wake

open Json

/-! ### Bytes -/

/-- `ispunct`: what prints in ASCII and is no letter, no digit and no space. -/
def isPunct (c : UInt8) : Bool :=
  (decide (0x21 ≤ c) && decide (c ≤ 0x2F)) || (decide (0x3A ≤ c) && decide (c ≤ 0x40)) ||
    (decide (0x5B ≤ c) && decide (c ≤ 0x60)) || (decide (0x7B ≤ c) && decide (c ≤ 0x7E))

theorem isWordByte_of_isPunct {c : UInt8} (h : isPunct c = true) : isWordByte c = false := by
  simp only [isPunct, isWordByte, Bool.or_eq_true, Bool.and_eq_true, Bool.or_eq_false_iff,
    Bool.and_eq_false_iff, decide_eq_true_eq, decide_eq_false_iff_not, UInt8.le_iff_toNat_le] at *
  simp only [UInt8.reduceToNat] at *
  omega

theorem isWordByte_toLower (c : UInt8) : isWordByte (toLower c) = isWordByte c := by
  unfold toLower
  split_ifs with h
  · have hlow : 0x61 ≤ c + 0x20 ∧ c + 0x20 ≤ 0x7A := by
      rw [UInt8.le_iff_toNat_le, UInt8.le_iff_toNat_le] at *
      rw [UInt8.toNat_add]
      simp only [UInt8.reduceToNat] at *
      omega
    simp [isWordByte, hlow, h]
  · rfl

theorem le_toLower {c : UInt8} : 0x80 ≤ toLower c ↔ 0x80 ≤ c := by
  unfold toLower
  split_ifs with h
  · rw [UInt8.le_iff_toNat_le, UInt8.le_iff_toNat_le] at *
    rw [UInt8.toNat_add]
    simp only [UInt8.reduceToNat] at *
    omega
  · rfl

/-- A byte past ASCII is a letter, and lower already. -/
theorem past_ascii {c : UInt8} (h : 0x80 ≤ c) : isWordByte c = true ∧ toLower c = c := by
  refine ⟨by simp [isWordByte, h], if_neg fun hupper => ?_⟩
  have hle : (0x80 : UInt8) ≤ 0x5A := UInt8.le_trans h hupper.2
  exact absurd hle (by decide)

theorem toLower_toLower (c : UInt8) : toLower (toLower c) = toLower c := by
  unfold toLower
  grind

/-! ### Words -/

/-- **Words are cut at a separator.**  Everything about separators follows from it. -/
theorem wakeWordsFrom_append_cons {c : UInt8} (hc : isWordByte c = false) (word a b : Bytes) :
    wakeWordsFrom word (a ++ c :: b) = wakeWordsFrom word a ++ wakeWords b := by
  induction a generalizing word with
  | nil =>
    rw [List.nil_append]
    by_cases hword : word = [] <;> simp [wakeWordsFrom, wakeWords, hc, hword]
  | cons d a ih =>
    rw [List.cons_append, wakeWordsFrom, wakeWordsFrom]
    split_ifs with hd hword
    · exact ih _
    · exact ih _
    · rw [ih, List.cons_append]

theorem wakeWords_append_cons {c : UInt8} (hc : isWordByte c = false) (a b : Bytes) :
    wakeWords (a ++ c :: b) = wakeWords a ++ wakeWords b := wakeWordsFrom_append_cons hc [] a b

theorem wakeWords_cons {c : UInt8} (hc : isWordByte c = false) (b : Bytes) :
    wakeWords (c :: b) = wakeWords b := wakeWords_append_cons hc [] b

/-- No word goes across the place between two texts. -/
def Edge (a b : Bytes) : Prop :=
  ∀ x ∈ a.getLast?, ∀ y ∈ b.head?, isWordByte x = true → isWordByte y = false

/-- **Where no word goes across, the words of two texts stand side by side.** -/
theorem wakeWords_append {a b : Bytes} (h : Edge a b) :
    wakeWords (a ++ b) = wakeWords a ++ wakeWords b := by
  rcases List.eq_nil_or_concat' a with rfl | ⟨a, x, rfl⟩
  · rfl
  · cases b with
    | nil => rw [List.append_nil, show wakeWords [] = [] from rfl, List.append_nil]
    | cons y b =>
      cases hx : isWordByte x with
      | false =>
        rw [List.append_assoc, List.singleton_append, wakeWords_append_cons hx,
          wakeWords_append_cons hx, show wakeWords [] = [] from rfl, List.append_nil]
      | true =>
        have hy : isWordByte y = false := h x (by simp) y rfl hx
        rw [wakeWords_append_cons hy, wakeWords_cons hy]

/-- Punctuation between words, or around them, is no word and joins none. -/
theorem wakeWords_punct {a b marks : Bytes} (h : Edge a b) (hmarks : ∀ c ∈ marks, isPunct c = true) :
    wakeWords (a ++ marks ++ b) = wakeWords (a ++ b) := by
  cases marks with
  | nil => rw [List.append_nil]
  | cons c marks =>
    have hall : ∀ c' ∈ marks, isWordByte c' = false :=
      fun c' hc' => isWordByte_of_isPunct (hmarks c' (List.mem_cons_of_mem _ hc'))
    have hb : wakeWords (marks ++ b) = wakeWords b := by
      clear hmarks
      induction marks with
      | nil => rfl
      | cons c' marks ih =>
        rw [List.cons_append, wakeWords_cons (hall c' (List.mem_cons_self ..))]
        exact ih fun c'' hc'' => hall c'' (List.mem_cons_of_mem _ hc'')
    rw [List.append_assoc, List.cons_append,
      wakeWords_append_cons (isWordByte_of_isPunct (hmarks c (List.mem_cons_self ..))), hb,
      wakeWords_append h]

/-- The words of a text are those of its lowered bytes. -/
theorem wakeWordsFrom_map_toLower (word text : Bytes) :
    wakeWordsFrom word (text.map toLower) = wakeWordsFrom word text := by
  induction text generalizing word with
  | nil => rfl
  | cons c text ih =>
    rw [List.map_cons, wakeWordsFrom, wakeWordsFrom, isWordByte_toLower, toLower_toLower, ih, ih]

/-! ### Changes -/

/-- A change of a text or a phrase that a wake phrase does not look at: ASCII letters in another
case, ASCII punctuation where no word goes across (between words, at an end, next to a space), and a
space for it anywhere. -/
inductive Change : Bytes → Bytes → Prop
  | letters {text text' : Bytes} (h : text.map toLower = text'.map toLower) : Change text text'
  | punct {a b marks : Bytes} (hedge : Edge a b) (hmarks : ∀ c ∈ marks, isPunct c = true) :
      Change (a ++ b) (a ++ marks ++ b)
  | space {a b : Bytes} {c : UInt8} (hc : isPunct c = true) : Change (a ++ c :: b) (a ++ 0x20 :: b)

/-- Any number of changes, made or taken back. -/
def Alike : Bytes → Bytes → Prop := Relation.EqvGen Change

/-- A change leaves the words as they are. -/
theorem Change.wakeWords_eq {text text' : Bytes} (h : Change text text') :
    wakeWords text = wakeWords text' := by
  cases h with
  | letters h =>
    rw [wakeWords, ← wakeWordsFrom_map_toLower, h, wakeWordsFrom_map_toLower, wakeWords]
  | punct hedge hmarks => exact (wakeWords_punct hedge hmarks).symm
  | space hc =>
    rw [wakeWords_append_cons (isWordByte_of_isPunct hc), wakeWords_append_cons (c := 0x20) rfl]

theorem Alike.wakeWords_eq {text text' : Bytes} (h : Alike text text') :
    wakeWords text = wakeWords text' := by
  induction h with
  | rel _ _ h => exact h.wakeWords_eq
  | refl _ => rfl
  | symm _ _ _ ih => exact ih.symm
  | trans _ _ _ _ _ ih ih' => exact ih.trans ih'

/-- The comparison sees a text and its phrases by their words. -/
theorem wakeHeard_congr {text text' : Bytes} (htext : wakeWords text = wakeWords text')
    {phrases phrases' : List Bytes} (hphrases : phrases.map wakeWords = phrases'.map wakeWords)
    (alone : Bool) : wakeHeard text phrases alone = wakeHeard text' phrases' alone := by
  have hwords : ∀ (text : Bytes) (phrases : List Bytes), wakeHeard text phrases alone
      = (phrases.map wakeWords).any fun wanted => wanted ≠ [] &&
        if alone then wakeWords text = wanted else (wakeWords text).tails.any wanted.isPrefixOf := by
    intro text phrases
    rw [List.any_map]
    rfl
  rw [hwords, hwords, hphrases, htext]

/-- **The comparison ignores the case of ASCII letters and ASCII punctuation.**  Alone and anywhere,
for a text and every phrase, with any number of changes to each. -/
theorem wakeHeard_alike {text text' : Bytes} (htext : Alike text text')
    {phrases phrases' : List Bytes} (hphrases : List.Forall₂ Alike phrases phrases') (alone : Bool) :
    wakeHeard text phrases alone = wakeHeard text' phrases' alone := by
  refine wakeHeard_congr htext.wakeWords_eq ?_ alone
  induction hphrases with
  | nil => rfl
  | cons h _ ih => rw [List.map_cons, List.map_cons, h.wakeWords_eq, ih]

/-- "Hey Jarvis!" and "hey jarvis" under the phrase "jarvis". -/
theorem wakeHeard_alike_jarvis :
    wakeHeard (ascii "Hey Jarvis!") [ascii "jarvis"] false
      = wakeHeard (ascii "hey jarvis") [ascii "jarvis"] false := by
  have hletters : Alike (ascii "Hey Jarvis!") (ascii "hey jarvis!") := .rel _ _ (.letters (by decide))
  have hmarks : ∀ c ∈ ascii "!", isPunct c = true := by simp [ascii, isPunct]
  have hpunct : Alike (ascii "hey jarvis" ++ []) (ascii "hey jarvis" ++ ascii "!" ++ []) :=
    .rel _ _ (.punct (by simp [Edge]) hmarks)
  exact wakeHeard_alike (hletters.trans _ _ _ (hpunct.symm _ _)) (.cons (.refl _) .nil) false

/-! ### Past ASCII -/

/-- The bytes of the words are the letters and digits of the text. -/
theorem flatten_wakeWordsFrom (word text : Bytes) :
    (wakeWordsFrom word text).flatten = word ++ (text.filter isWordByte).map toLower := by
  induction text generalizing word with
  | nil =>
    unfold wakeWordsFrom
    split_ifs with h <;> simp [h]
  | cons c text ih =>
    rw [wakeWordsFrom]
    split_ifs with hc hword
    · rw [ih, List.filter_cons_of_pos hc, List.map_cons, List.append_assoc, List.singleton_append]
    · rw [ih, List.filter_cons_of_neg hc, hword]
    · rw [List.flatten_cons, ih, List.filter_cons_of_neg hc, List.nil_append]

/-- The bytes past ASCII of a text, which its words hold as they are. -/
def pastAscii (text : Bytes) : Bytes := text.filter fun c => 0x80 ≤ c

theorem pastAscii_flatten_wakeWords (text : Bytes) :
    pastAscii (wakeWords text).flatten = pastAscii text := by
  rw [wakeWords, flatten_wakeWordsFrom, List.nil_append, pastAscii, pastAscii]
  rw [List.filter_map, List.filter_filter]
  have hpast : text.filter (fun c => ((fun c => decide (0x80 ≤ c)) ∘ toLower) c && isWordByte c)
      = text.filter fun c => 0x80 ≤ c := by
    refine List.filter_congr fun c _ => ?_
    rw [Function.comp_apply, decide_eq_decide.2 le_toLower]
    by_cases h : 0x80 ≤ c
    · rw [(past_ascii h).1, Bool.and_true]
    · rw [decide_eq_false h, Bool.false_and]
  have hlower : ∀ c ∈ text.filter fun c => 0x80 ≤ c, toLower c = id c :=
    fun c hc => (past_ascii (of_decide_eq_true (List.mem_filter.1 hc).2)).2
  rw [hpast, List.map_congr_left hlower, List.map_id]

/-- **A byte past ASCII counts as a letter.**  Texts that differ in one, an accented capital or a mark
of Unicode, differ in their words, and some phrase is heard in one of them only. -/
theorem wakeHeard_past_ascii {text text' : Bytes} (h : pastAscii text ≠ pastAscii text') :
    ∃ phrase, wakeHeard text [phrase] true ≠ wakeHeard text' [phrase] true := by
  have hwords : wakeWords text ≠ wakeWords text' := by
    intro heq
    rw [← pastAscii_flatten_wakeWords, heq, pastAscii_flatten_wakeWords] at h
    exact h rfl
  have hself : ∀ text : Bytes, wakeWords text ≠ [] → wakeHeard text [text] true = true := by
    intro text hne
    simp [wakeHeard, hne]
  by_cases hne : wakeWords text = []
  · refine ⟨text', ?_⟩
    rw [hself text' fun h' => hwords (hne.trans h'.symm)]
    simp [wakeHeard, hwords]
  · refine ⟨text, ?_⟩
    rw [hself text hne]
    simp [wakeHeard, Ne.symm hwords]

/-- "É" is not "é" to it, and "jarvis…" with an ellipsis of one character is not "jarvis". -/
theorem accents_and_marks_count :
    (wakeHeard [0xC3, 0x89] [[0xC3, 0xA9]] true || wakeHeard [0xC3, 0x89] [[0xC3, 0xA9]] false) = false ∧
      (wakeHeard [0xC3, 0xA9] [[0xC3, 0xA9]] true && wakeHeard [0xC3, 0xA9] [[0xC3, 0xA9]] false) = true ∧
      (wakeHeard (ascii "jarvis" ++ [0xE2, 0x80, 0xA6]) [ascii "jarvis"] true ||
        wakeHeard (ascii "jarvis" ++ [0xE2, 0x80, 0xA6]) [ascii "jarvis"] false) = false ∧
      (wakeHeard (ascii "jarvis") [ascii "jarvis"] true &&
        wakeHeard (ascii "jarvis") [ascii "jarvis"] false) = true := by
  decide

end Wake
end S2S
