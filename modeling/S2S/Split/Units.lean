/-
# Nothing speakable is lost

The law of the splitter, over every text that is UTF-8 and every way of cutting
it into deltas (`sentenceSplitPushes_faithful`): the units say the speakable
code points of the text, all of them, once and in order; and every unit is
presentable, so that cleaning it again changes nothing.

Cleaning works on bytes and is proved on characters: what it has written is
always the bytes of whole characters it kept, without two spaces in a row
(`Tidy`).  Cutting works on bytes too, and a text is only ever cut behind an
ASCII one, so both halves are UTF-8.
-/

import S2S.Split.Characters

namespace S2S
namespace Split

open Json
open Conversation (SentenceUnit)

/-! ### What is said -/

/-- A code point that a voice can say: no emoji, and no markdown. -/
def speakable (cp : ℕ) : Bool := sentenceIsSpoken cp && !emojiIs cp && !isMarker cp

/-- The speakable code points of a text, in order. -/
def said (text : Bytes) : List ℕ := (codePoints text).filter speakable

/-- The speakable code points of characters. -/
def saidOf (cs : List (ℕ × Bytes)) : List ℕ := (cs.map Prod.fst).filter speakable

theorem saidOf_append (cs cs' : List (ℕ × Bytes)) : saidOf (cs ++ cs') = saidOf cs ++ saidOf cs' := by
  simp [saidOf]

theorem said_bytesOf {cs : List (ℕ × Bytes)} (h : ∀ c ∈ cs, Whole c) : said (bytesOf cs) = saidOf cs := by
  rw [said, codePoints, characters_bytesOf h, saidOf]

theorem said_nil : said [] = [] := by
  rw [said, codePoints, characters_nil]
  rfl

theorem said_append {a : Bytes} (h : validUtf8 a = true) {b : Bytes} (hb : validUtf8 b = true) :
    said (a ++ b) = said a ++ said b := by
  obtain ⟨cs, hcs, rfl⟩ := exists_characters h
  obtain ⟨cs', hcs', rfl⟩ := exists_characters hb
  rw [← List.flatMap_append, said_bytesOf (fun c hc => (List.mem_append.1 hc).elim (hcs c) (hcs' c)),
    said_bytesOf hcs, said_bytesOf hcs', saidOf_append]

/-! ### Cleaning -/

/-- A character that is not dropped. -/
def Kept (c : ℕ × Bytes) : Prop := isMarker c.1 = false ∧ isBreak c.1 = false ∧ emojiIs c.1 = false

/-- The space. -/
def space : ℕ × Bytes := (0x20, [0x20])

theorem whole_space : Whole space := whole_ascii (b := 0x20) (by decide)

theorem kept_space : Kept space := ⟨by decide, by decide, emojiIs_ascii (by decide)⟩

/-- No two spaces in a row. -/
def Single : List (ℕ × Bytes) → Prop := List.IsChain fun c c' => ¬(c.1 = 0x20 ∧ c'.1 = 0x20)

/-- What the cleaning has written so far, as characters. -/
structure Tidy (out : List (ℕ × Bytes)) : Prop where
  whole : ∀ c ∈ out, Whole c
  kept : ∀ c ∈ out, Kept c
  single : Single out

theorem Whole.getLast?_iff {c : ℕ × Bytes} (h : Whole c) : c.2.getLast? = some 0x20 ↔ c.1 = 0x20 := by
  rcases Nat.lt_or_ge c.1 0x80 with hlt | hge
  · rw [h.ascii hlt]
    constructor
    · intro heq
      have hval : (UInt8.ofNat c.1).toNat = 0x20 := congrArg UInt8.toNat (Option.some.inj heq)
      rw [UInt8.toNat_ofNat'] at hval
      omega
    · rintro heq
      rw [heq]
      rfl
  · constructor
    · intro heq
      exact absurd (h.high hge _ (List.mem_of_getLast? heq)) (by decide)
    · intro heq
      omega

theorem Whole.head?_iff {c : ℕ × Bytes} (h : Whole c) : c.2.head? = some 0x20 ↔ c.1 = 0x20 := by
  rcases Nat.lt_or_ge c.1 0x80 with hlt | hge
  · rw [← h.getLast?_iff, h.ascii hlt]
    rfl
  · constructor
    · intro heq
      exact absurd (h.high hge _ (List.mem_of_head? heq)) (by decide)
    · intro heq
      omega

theorem bytesOf_append (cs cs' : List (ℕ × Bytes)) : bytesOf (cs ++ cs') = bytesOf cs ++ bytesOf cs' :=
  List.flatMap_append

theorem bytesOf_singleton (c : ℕ × Bytes) : bytesOf [c] = c.2 := by simp

theorem bytesOf_eq_nil_iff {cs : List (ℕ × Bytes)} (h : ∀ c ∈ cs, Whole c) : bytesOf cs = [] ↔ cs = [] := by
  cases cs with
  | nil => simp
  | cons c cs =>
    have := (h c List.mem_cons_self).nonempty
    simp [this]

/-- The last byte of a text is a space when its last character is. -/
theorem getLast?_bytesOf {cs : List (ℕ × Bytes)} (h : ∀ c ∈ cs, Whole c) :
    (bytesOf cs).getLast? = some 0x20 ↔ ∃ c, cs.getLast? = some c ∧ c.1 = 0x20 := by
  rcases List.eq_nil_or_concat' cs with rfl | ⟨init, c, rfl⟩
  · simp
  · have hc := h c (by simp)
    rw [bytesOf_append, bytesOf_singleton, List.getLast?_append_of_ne_nil _ hc.nonempty,
      hc.getLast?_iff]
    simp

/-- A character goes behind what was written, unless it were a space behind a space. -/
theorem Tidy.push {out : List (ℕ × Bytes)} (h : Tidy out) {c : ℕ × Bytes} (hc : Whole c)
    (hkept : Kept c) (hlast : c.1 = 0x20 → ∀ l, out.getLast? = some l → l.1 ≠ 0x20) :
    Tidy (out ++ [c]) where
  whole := List.forall_mem_append.2 ⟨h.whole, by simpa using hc⟩
  kept := List.forall_mem_append.2 ⟨h.kept, by simpa using hkept⟩
  single := by
    refine List.isChain_append.2 ⟨h.single, by simp, ?_⟩
    intro l hl c' hc' ⟨hl20, hc20⟩
    obtain rfl : c = c' := by simpa using hc'
    exact hlast hc20 l hl hl20

theorem speakable_of_marker {cp : ℕ} (h : isMarker cp = true) : speakable cp = false := by
  simp [speakable, h]

theorem speakable_space : speakable 0x20 = false := by decide

theorem speakable_of_break {cp : ℕ} (h : (isBreak cp || emojiIs cp) = true) : speakable cp = false := by
  rcases Bool.or_eq_true_iff.1 h with h | h
  · have hspoken : sentenceIsSpoken cp = false := by
      simp only [isBreak, Bool.or_eq_true, decide_eq_true_eq] at h
      rcases h with (rfl | rfl) | rfl <;> decide
    simp [speakable, hspoken]
  · simp [speakable, h]

/-- **One character of the cleaning**: what is written stays tidy, nothing speakable is dropped, and
whether something was spoken is kept. -/
theorem cleanStep_tidy {out : List (ℕ × Bytes)} (h : Tidy out) {c : ℕ × Bytes} (hc : Whole c) :
    ∃ out', Tidy out' ∧
      cleanStep (bytesOf out, out.any fun c => sentenceIsSpoken c.1) c =
        (bytesOf out', out'.any fun c => sentenceIsSpoken c.1) ∧
      saidOf out' = saidOf out ++ saidOf [c] := by
  have hnil := bytesOf_eq_nil_iff h.whole
  have hlast := getLast?_bytesOf h.whole
  unfold cleanStep
  dsimp only
  split_ifs with hmark hbreak hgap hspace
  · exact ⟨out, h, rfl, by simp [saidOf, speakable_of_marker hmark]⟩
  · refine ⟨out ++ [space], h.push whole_space kept_space fun _ l hl hl20 => ?_, ?_, ?_⟩
    · exact hgap.2 (hlast.2 ⟨l, hl, hl20⟩)
    · rw [bytesOf_append, bytesOf_singleton, List.any_append]
      simp [space, sentenceIsSpoken]
    · rw [saidOf_append]
      simp [saidOf, space, speakable_of_break hbreak, speakable_space]
  · exact ⟨out, h, rfl, by simp [saidOf, speakable_of_break hbreak]⟩
  · exact ⟨out, h, rfl, by simp [saidOf, hspace.1, speakable_space]⟩
  · have hkept : Kept c := by
      simp only [Bool.or_eq_true, not_or, Bool.not_eq_true] at hbreak
      exact ⟨by simpa using hmark, hbreak.1, hbreak.2⟩
    refine ⟨out ++ [c], h.push hc hkept fun hc20 l hl hl20 => ?_, ?_, saidOf_append out [c]⟩
    · refine hspace ⟨hc20, fun h0 => ?_, hlast.2 ⟨l, hl, hl20⟩⟩
      rw [hnil.1 h0] at hl
      simp at hl
    · rw [bytesOf_append, bytesOf_singleton, List.any_append]
      simp

/-- **The cleaning, before it trims.** -/
theorem foldl_cleanStep (out : List (ℕ × Bytes)) {cs : List (ℕ × Bytes)} (hcs : ∀ c ∈ cs, Whole c)
    (h : Tidy out) :
    ∃ out', Tidy out' ∧
      cs.foldl cleanStep (bytesOf out, out.any fun c => sentenceIsSpoken c.1) =
        (bytesOf out', out'.any fun c => sentenceIsSpoken c.1) ∧
      saidOf out' = saidOf out ++ saidOf cs := by
  induction cs generalizing out with
  | nil => exact ⟨out, h, rfl, by simp [saidOf]⟩
  | cons c cs ih =>
    obtain ⟨hc, hcs⟩ := List.forall_mem_cons.1 hcs
    obtain ⟨out', hout', hstep, hsaid⟩ := cleanStep_tidy h hc
    obtain ⟨out'', hout'', hfold, hsaid'⟩ := ih out' hcs hout'
    refine ⟨out'', hout'', ?_, ?_⟩
    · rw [List.foldl_cons, hstep, hfold]
    · rw [hsaid', hsaid, List.append_assoc, ← saidOf_append]
      rfl

theorem saidOf_eq_nil {cs : List (ℕ × Bytes)} (h : ∀ c ∈ cs, speakable c.1 = false) :
    saidOf cs = [] := by
  rw [saidOf, List.filter_eq_nil_iff]
  intro cp hcp
  obtain ⟨c, hc, rfl⟩ := List.mem_map.1 hcp
  simp [h c hc]

/-! ### Trimming -/

/-- `trimSpaces` on characters. -/
def trimmed (cs : List (ℕ × Bytes)) : List (ℕ × Bytes) :=
  (cs.dropWhile fun c => c.1 = 0x20).rdropWhile fun c => c.1 = 0x20

theorem Whole.eq_space {c : ℕ × Bytes} (h : Whole c) (h20 : c.1 = 0x20) : c.2 = [0x20] := by
  rw [h.ascii (by omega), h20]
  rfl

theorem dropWhile_bytesOf {cs : List (ℕ × Bytes)} (h : ∀ c ∈ cs, Whole c) :
    (bytesOf cs).dropWhile (· = 0x20) = bytesOf (cs.dropWhile fun c => c.1 = 0x20) := by
  induction cs with
  | nil => rfl
  | cons c cs ih =>
    obtain ⟨hc, hcs⟩ := List.forall_mem_cons.1 h
    rw [bytesOf, List.flatMap_cons]
    by_cases h20 : c.1 = 0x20
    · rw [hc.eq_space h20, List.dropWhile_cons_of_pos (by simpa using h20)]
      exact ih hcs
    · rw [List.dropWhile_cons_of_neg (by simpa using h20)]
      obtain ⟨b, t, hbt⟩ := List.exists_cons_of_ne_nil hc.nonempty
      have hb : b ≠ 0x20 := fun hb => h20 (hc.head?_iff.1 (by rw [hbt, hb]; rfl))
      rw [bytesOf, List.flatMap_cons, hbt, List.cons_append,
        List.dropWhile_cons_of_neg (by simpa using hb)]

theorem rdropWhile_bytesOf {cs : List (ℕ × Bytes)} (h : ∀ c ∈ cs, Whole c) :
    (bytesOf cs).rdropWhile (· = 0x20) = bytesOf (cs.rdropWhile fun c => c.1 = 0x20) := by
  induction cs using List.reverseRecOn with
  | nil => rfl
  | append_singleton cs c ih =>
    obtain ⟨hcs, hc⟩ := List.forall_mem_append.1 h
    have hc : Whole c := hc c (by simp)
    rw [bytesOf_append, bytesOf_singleton]
    by_cases h20 : c.1 = 0x20
    · rw [hc.eq_space h20, List.rdropWhile_concat_pos _ _ _ (by simp),
        List.rdropWhile_concat_pos _ _ _ (by simpa using h20)]
      exact ih hcs
    · rw [List.rdropWhile_concat_neg _ _ _ (by simpa using h20), bytesOf_append, bytesOf_singleton]
      rcases List.eq_nil_or_concat' c.2 with hnil | ⟨init, b, hb⟩
      · exact absurd hnil hc.nonempty
      · have hb20 : b ≠ 0x20 := fun h => h20 (hc.getLast?_iff.1 (by rw [hb, h]; simp))
        rw [hb, ← List.append_assoc, List.rdropWhile_concat_neg _ _ _ (by simpa using hb20)]

theorem trimSpaces_bytesOf {cs : List (ℕ × Bytes)} (h : ∀ c ∈ cs, Whole c) :
    trimSpaces (bytesOf cs) = bytesOf (trimmed cs) := by
  rw [trimSpaces, dropWhile_bytesOf h,
    rdropWhile_bytesOf fun c hc => h c ((List.dropWhile_suffix _).subset hc), trimmed]

theorem trimmed_within (cs : List (ℕ × Bytes)) : trimmed cs <:+: cs :=
  (List.rdropWhile_prefix _ _).isInfix.trans (List.dropWhile_suffix _).isInfix

theorem Tidy.trimmed {cs : List (ℕ × Bytes)} (h : Tidy cs) : Tidy (trimmed cs) where
  whole c hc := h.whole c ((trimmed_within cs).subset hc)
  kept c hc := h.kept c ((trimmed_within cs).subset hc)
  single := h.single.infix (trimmed_within cs)

/-- Only spaces are trimmed. -/
theorem saidOf_trimmed (cs : List (ℕ × Bytes)) : saidOf (trimmed cs) = saidOf cs := by
  have hspace : ∀ c : ℕ × Bytes, (decide (c.1 = 0x20)) = true → speakable c.1 = false := by
    intro c hc
    rw [of_decide_eq_true hc]
    exact speakable_space
  have hleft : ∀ cs : List (ℕ × Bytes), saidOf (cs.dropWhile fun c => c.1 = 0x20) = saidOf cs := by
    intro cs
    have hsplit := List.takeWhile_append_dropWhile (p := fun c : ℕ × Bytes => c.1 = 0x20) (l := cs)
    conv_rhs => rw [← hsplit]
    rw [saidOf_append, saidOf_eq_nil fun c hc =>
      hspace c (List.mem_takeWhile_imp (p := fun c : ℕ × Bytes => decide (c.1 = 0x20)) hc),
      List.nil_append]
  have hright : ∀ cs : List (ℕ × Bytes), saidOf (cs.rdropWhile fun c => c.1 = 0x20) = saidOf cs := by
    intro cs
    induction cs using List.reverseRecOn with
    | nil => rfl
    | append_singleton cs c ih =>
      by_cases h20 : c.1 = 0x20
      · rw [List.rdropWhile_concat_pos _ _ _ (by simpa using h20), ih, saidOf_append,
          (saidOf_eq_nil (by simp [h20, speakable_space]) : saidOf [c] = []), List.append_nil]
      · rw [List.rdropWhile_concat_neg _ _ _ (by simpa using h20)]
  rw [trimmed, hright, hleft]

/-- Neither end of a trimmed text is a space. -/
theorem trimmed_ends (cs : List (ℕ × Bytes)) :
    (∀ c, (trimmed cs).head? = some c → c.1 ≠ 0x20) ∧
      ∀ c, (trimmed cs).getLast? = some c → c.1 ≠ 0x20 := by
  constructor
  · intro c hc h20
    obtain ⟨tail, htail⟩ := List.rdropWhile_prefix (fun c : ℕ × Bytes => c.1 = 0x20)
      (cs.dropWhile fun c => c.1 = 0x20)
    have hhead : (cs.dropWhile fun c => c.1 = 0x20).head? = some c := by
      rw [← htail]
      show (trimmed cs ++ tail).head? = some c
      rw [List.head?_append, hc]
      rfl
    have := List.head?_dropWhile_not (fun c : ℕ × Bytes => decide (c.1 = 0x20)) cs
    simp only [hhead] at this
    simp [h20] at this
  · intro c hc h20
    have hne : trimmed cs ≠ [] := fun h => by simp [h] at hc
    have := List.rdropWhile_last_not (fun c : ℕ × Bytes => decide (c.1 = 0x20))
      (cs.dropWhile fun c => c.1 = 0x20) hne
    have hlast := List.getLast?_eq_some_getLast hne
    rw [hc] at hlast
    rw [show (List.rdropWhile _ _).getLast hne = c from (Option.some.inj hlast).symm] at this
    simp [h20] at this

/-! ### A unit -/

/-- **What a unit is like**: it has something to say, and nothing that is written for the eye; its
spaces stand alone and within, and cleaning it again changes nothing. -/
structure Presentable (unit : Bytes) : Prop where
  nonempty : unit ≠ []
  speaks : said unit ≠ []
  plain : ∀ cp ∈ codePoints unit, isMarker cp = false ∧ isBreak cp = false ∧ emojiIs cp = false
  single : (codePoints unit).IsChain fun cp cp' => ¬(cp = 0x20 ∧ cp' = 0x20)
  first : (codePoints unit).head? ≠ some 0x20
  last : (codePoints unit).getLast? ≠ some 0x20
  clean : sentenceClean unit = unit

/-- Cleaning keeps every character of a tidy text. -/
theorem foldl_cleanStep_tidy (out : List (ℕ × Bytes)) {cs : List (ℕ × Bytes)}
    (h : Tidy (out ++ cs)) :
    cs.foldl cleanStep (bytesOf out, out.any fun c => sentenceIsSpoken c.1) =
      (bytesOf (out ++ cs), (out ++ cs).any fun c => sentenceIsSpoken c.1) := by
  induction cs generalizing out with
  | nil => simp
  | cons c cs ih =>
    have hassoc : out ++ c :: cs = (out ++ [c]) ++ cs := by simp
    have hkept := h.kept c (by simp)
    have hwhole : ∀ l ∈ out, Whole l := fun l hl => h.whole l (List.mem_append_left _ hl)
    have hstep : cleanStep (bytesOf out, out.any fun c => sentenceIsSpoken c.1) c =
        (bytesOf (out ++ [c]), (out ++ [c]).any fun c => sentenceIsSpoken c.1) := by
      unfold cleanStep
      dsimp only
      rw [if_neg (by simp [hkept.1]), if_neg (by simp [hkept.2.1, hkept.2.2]), if_neg, bytesOf_append,
        bytesOf_singleton, List.any_append]
      · simp
      · rintro ⟨hc20, -, hlast⟩
        obtain ⟨l, hl, hl20⟩ := (getLast?_bytesOf hwhole).1 hlast
        exact (List.isChain_append.1 h.single).2.2 l hl c (by simp) ⟨hl20, hc20⟩
    rw [List.foldl_cons, hstep, hassoc]
    exact ih (out ++ [c]) (hassoc ▸ h)

theorem tidy_nil : Tidy [] := ⟨by simp, by simp, List.IsChain.nil⟩

theorem saidOf_ne_nil {cs : List (ℕ × Bytes)} (h : Tidy cs)
    (hspoken : (cs.any fun c => sentenceIsSpoken c.1) = true) : saidOf cs ≠ [] := by
  obtain ⟨c, hc, hsc⟩ := List.any_eq_true.1 hspoken
  obtain ⟨hmark, -, hemoji⟩ := h.kept c hc
  refine List.ne_nil_of_mem (a := c.1) (List.mem_filter.2 ⟨List.mem_map_of_mem hc, ?_⟩)
  simp [speakable, hsc, hemoji, hmark]

theorem spoken_of_saidOf {cs : List (ℕ × Bytes)} (h : saidOf cs ≠ []) :
    (cs.any fun c => sentenceIsSpoken c.1) = true := by
  obtain ⟨cp, hcp⟩ := List.exists_mem_of_ne_nil _ h
  obtain ⟨hmem, hsay⟩ := List.mem_filter.1 hcp
  obtain ⟨c, hc, rfl⟩ := List.mem_map.1 hmem
  simp only [speakable, Bool.and_eq_true] at hsay
  exact List.any_eq_true.2 ⟨c, hc, hsay.1.1⟩

/-- A tidy text with something to say and no space at its ends is presentable. -/
theorem presentable_bytesOf {cs : List (ℕ × Bytes)} (h : Tidy cs) (hspeaks : saidOf cs ≠ [])
    (hends : trimmed cs = cs) : Presentable (bytesOf cs) := by
  have hread : characters (bytesOf cs) = cs := characters_bytesOf h.whole
  have hcodes : codePoints (bytesOf cs) = cs.map Prod.fst := by rw [codePoints, hread]
  have htrim := trimmed_ends cs
  rw [hends] at htrim
  constructor
  · rintro hnil
    rw [(bytesOf_eq_nil_iff h.whole).1 hnil] at hspeaks
    exact hspeaks rfl
  · rwa [said_bytesOf h.whole]
  · rw [hcodes]
    intro cp hcp
    obtain ⟨c, hc, rfl⟩ := List.mem_map.1 hcp
    exact h.kept c hc
  · rw [hcodes]
    exact List.isChain_map_of_isChain Prod.fst (fun _ _ h => h) h.single
  · rw [hcodes, List.head?_map]
    intro heq
    obtain ⟨c, hc, hc20⟩ := Option.map_eq_some_iff.1 heq
    exact htrim.1 c hc hc20
  · rw [hcodes, List.getLast?_map]
    intro heq
    obtain ⟨c, hc, hc20⟩ := Option.map_eq_some_iff.1 heq
    exact htrim.2 c hc hc20
  · have hfold : cs.foldl cleanStep ([], false) =
        (bytesOf cs, cs.any fun c => sentenceIsSpoken c.1) := foldl_cleanStep_tidy [] h
    rw [sentenceClean, hread, hfold]
    dsimp only
    rw [if_pos (spoken_of_saidOf hspeaks), trimSpaces_bytesOf h.whole, hends]

theorem trimmed_trimmed (cs : List (ℕ × Bytes)) : trimmed (trimmed cs) = trimmed cs := by
  obtain ⟨hhead, hlast⟩ := trimmed_ends cs
  generalize trimmed cs = ts at hhead hlast
  have hdrop : ts.dropWhile (fun c => c.1 = 0x20) = ts := by
    cases ts with
    | nil => rfl
    | cons c ts => exact List.dropWhile_cons_of_neg (by simpa using hhead c rfl)
  rw [trimmed, hdrop]
  rcases List.eq_nil_or_concat' ts with rfl | ⟨init, c, rfl⟩
  · rfl
  · exact List.rdropWhile_concat_neg _ _ _ (by simpa using hlast c (by simp))

/-- **Cleaning**: of a text that is UTF-8 it keeps what is speakable, and it leaves something
presentable or nothing. -/
theorem sentenceClean_spec {text : Bytes} (h : validUtf8 text = true) :
    said (sentenceClean text) = said text ∧
      (sentenceClean text = [] ∨ Presentable (sentenceClean text)) := by
  obtain ⟨cs, hcs, rfl⟩ := exists_characters h
  obtain ⟨out, htidy, hfold, hsaid⟩ := foldl_cleanStep [] hcs tidy_nil
  have hclean : sentenceClean (bytesOf cs) =
      if (out.any fun c : ℕ × Bytes => sentenceIsSpoken c.1) then bytesOf (trimmed out) else [] := by
    have hstart : cs.foldl cleanStep ([], false) = _ := hfold
    rw [sentenceClean, characters_bytesOf hcs, hstart]
    dsimp only
    rw [trimSpaces_bytesOf htidy.whole]
  have hsaid' : saidOf out = saidOf cs := hsaid.trans (List.nil_append _)
  rw [hclean, said_bytesOf hcs, ← hsaid']
  split_ifs with hspoken
  · have htrim := htidy.trimmed
    rw [said_bytesOf htrim.whole, saidOf_trimmed]
    exact ⟨rfl, Or.inr (presentable_bytesOf htrim
      (by rw [saidOf_trimmed]; exact saidOf_ne_nil htidy hspoken) (trimmed_trimmed out))⟩
  · refine ⟨?_, Or.inl rfl⟩
    by_contra hne
    exact hspoken (spoken_of_saidOf fun hnil => hne (by rw [hnil, said_nil]))

/-! ### Cutting -/

/-- A text that is UTF-8 may be cut behind an ASCII byte. -/
theorem utf8From_split {t : Tail} {a : Bytes} {b : UInt8} {rest : Bytes}
    (h : utf8From t (a ++ b :: rest) = true) (hb : b < 0x80) :
    utf8From t (a ++ [b]) = true ∧ validUtf8 rest = true := by
  induction a generalizing t with
  | nil =>
    rw [List.nil_append, utf8From] at h
    rw [List.nil_append, utf8From]
    cases hstep : t.step b with
    | none => simp [hstep] at h
    | some t' =>
      obtain ⟨-, rfl⟩ := Tail.step_ascii hb hstep
      simp only [hstep] at h ⊢
      exact ⟨rfl, h⟩
  | cons c a ih =>
    rw [List.cons_append, utf8From] at h
    rw [List.cons_append, utf8From]
    cases hstep : t.step c with
    | none => simp [hstep] at h
    | some t' =>
      simp only [hstep] at h ⊢
      exact ih h

/-- A sentence ends in an ASCII byte. -/
theorem sentence_end {pending : Bytes} (h : sentenceCutPoint pending ≠ 0) :
    ∃ a b, pending.take (sentenceCutPoint pending) = a ++ [b] ∧ b < 0x80 := by
  induction pending with
  | nil => simp [sentenceCutPoint] at h
  | cons c pending ih =>
    rw [sentenceCutPoint] at h ⊢
    split_ifs at h ⊢ with hbreak hend
    · exact ⟨[], c, by simp, by rw [hbreak]; decide⟩
    · refine ⟨[], c, by simp, ?_⟩
      have hterm := (Bool.and_eq_true_iff.1 hend).1
      simp only [sentenceIsTerminator, Bool.or_eq_true, decide_eq_true_eq] at hterm
      rcases hterm with (((rfl | rfl) | rfl) | rfl) | rfl <;> decide
    · cases hcut : sentenceCutPoint pending with
      | zero => simp [hcut] at h
      | succ n =>
        obtain ⟨a, b, htake, hb⟩ := ih (by rw [hcut]; exact Nat.succ_ne_zero n)
        refine ⟨c :: a, b, ?_, hb⟩
        rw [hcut] at htake
        simp [htake]

/-- **A cut leaves two texts that are UTF-8**, whatever is still to come. -/
theorem validUtf8_cut {pending written rest more : Bytes}
    (hcut : sentences.cut pending = some (written, rest))
    (h : validUtf8 (pending ++ more) = true) :
    validUtf8 written = true ∧ validUtf8 (rest ++ more) = true ∧
      pending ++ more = written ++ (rest ++ more) := by
  simp only [sentences] at hcut
  split_ifs at hcut with h0
  obtain ⟨rfl, rfl⟩ := Prod.mk.inj (Option.some.inj hcut)
  have hsplit : pending ++ more = pending.take (sentenceCutPoint pending) ++
      (pending.drop (sentenceCutPoint pending) ++ more) := by
    rw [← List.append_assoc, List.take_append_drop]
  obtain ⟨a, b, htake, hb⟩ := sentence_end h0
  rw [hsplit, htake, List.append_assoc, List.singleton_append] at h
  obtain ⟨hwritten, hrest⟩ := utf8From_split h hb
  exact ⟨htake ▸ hwritten, hrest, hsplit⟩

/-! ### A stream -/

/-- What the units of a list say. -/
def saidBy (units : List SentenceUnit) : List ℕ := units.flatMap fun unit => said unit.text

/-- **How far the splitter is**: it holds `pending`, with `more` to come; what its units say and what
is left to say make `all`, and its units are presentable. -/
structure Faithful (all : List ℕ) (units : List SentenceUnit) (pending more : Bytes) : Prop where
  valid : validUtf8 (pending ++ more) = true
  said : saidBy units ++ said (pending ++ more) = all
  presentable : ∀ unit ∈ units, Presentable unit.text

/-- **One sentence.** -/
theorem Faithful.piece {all : List ℕ} (state : List SentenceUnit × ℕ)
    {pending written rest more : Bytes} (h : Faithful all state.1 pending more) (hcut : sentences.cut pending = some (written, rest)) :
    Faithful all (splitPiece state written).1.1 rest more := by
  obtain ⟨hwritten, hrest, hsplit⟩ := validUtf8_cut hcut h.valid
  obtain ⟨hsaid, hclean⟩ := sentenceClean_spec hwritten
  have hall : saidBy state.1 ++ (Split.said (sentenceClean written) ++ Split.said (rest ++ more)) = all := by
    rw [hsaid, ← said_append hwritten hrest, ← hsplit, h.said]
  unfold splitPiece
  dsimp only
  split_ifs with hnil
  · refine ⟨hrest, ?_, h.presentable⟩
    rwa [hnil, said_nil, List.nil_append] at hall
  · refine ⟨hrest, ?_, ?_⟩
    · rw [saidBy, List.flatMap_append, List.append_assoc]
      simpa [saidBy] using hall
    · rw [List.forall_mem_append]
      exact ⟨h.presentable, by simpa using hclean.resolve_left hnil⟩

/-- **One delta.** -/
theorem Faithful.push {all : List ℕ} {units : List SentenceUnit} {s : SentenceSplitter}
    {delta more : Bytes} (h : Faithful all units s.pending (delta ++ more)) :
    Faithful all (units ++ (sentenceSplitPush s delta).1) (sentenceSplitPush s delta).2.pending
      more := by
  have hstart : Faithful all (units ++ ([] : List SentenceUnit)) (s.pending ++ delta) more := by
    obtain ⟨hvalid, hsaid, hpresentable⟩ := h
    rw [← List.append_assoc] at hvalid hsaid
    exact ⟨hvalid, by simpa using hsaid, by simpa using hpresentable⟩
  refine sentences.drain_induction splitPiece
    (motive := fun state pending => Faithful all (units ++ state.1) pending more)
    (s := ([], s.consumed)) hstart ?_
  intro state pending written rest hcut hstate
  have hpiece := Faithful.piece (units ++ state.1, state.2) hstate hcut
  unfold splitPiece at hpiece ⊢
  dsimp only at hpiece ⊢
  split_ifs at hpiece ⊢ with hnil
  · exact hpiece
  · rwa [List.append_assoc] at hpiece

/-- **A stream of deltas.** -/
theorem Faithful.pushes {all : List ℕ} {units : List SentenceUnit} {s : SentenceSplitter}
    {deltas : List Bytes} (h : Faithful all units s.pending deltas.flatten) :
    Faithful all (units ++ (sentenceSplitPushes s deltas).1) (sentenceSplitPushes s deltas).2.pending
      [] := by
  induction deltas generalizing units s with
  | nil => simpa [sentenceSplitPushes] using h
  | cons delta deltas ih =>
    rw [List.flatten_cons] at h
    have := ih h.push
    rwa [List.append_assoc] at this

/-- **Nothing speakable is lost.**  Of every text that is UTF-8, however it is cut into deltas, the
units of the pushes and of the flush say the speakable code points, all of them, once and in order;
and every unit is presentable, the one of the flush too unless it is empty. -/
theorem sentenceSplitPushes_faithful {text : Bytes} (htext : validUtf8 text = true)
    {deltas : List Bytes} (hdeltas : deltas.flatten = text) :
    saidBy ((sentenceSplitPushes {} deltas).1 ++
        [(sentenceSplitFlush (sentenceSplitPushes {} deltas).2).1]) = said text ∧
      (∀ unit ∈ (sentenceSplitPushes {} deltas).1, Presentable unit.text) ∧
      ((sentenceSplitFlush (sentenceSplitPushes {} deltas).2).1.text = [] ∨
        Presentable (sentenceSplitFlush (sentenceSplitPushes {} deltas).2).1.text) := by
  have hstart : Faithful (said text) [] ({} : SentenceSplitter).pending deltas.flatten :=
    ⟨hdeltas ▸ htext, by rw [hdeltas]; rfl, by simp⟩
  have hend := hstart.pushes
  rw [List.nil_append] at hend
  obtain ⟨hvalid, hsaid, hpresentable⟩ := hend
  rw [List.append_nil] at hvalid hsaid
  obtain ⟨hflush, hclean⟩ := sentenceClean_spec hvalid
  refine ⟨?_, hpresentable, hclean⟩
  rw [saidBy, List.flatMap_append]
  show saidBy _ ++ _ = _
  rw [← hsaid, ← hflush]
  simp [sentenceSplitFlush]

/-- A text that was cut inside a character and right behind a terminator. -/
def cutDeltas : List Bytes := [ascii "H" ++ [0xC3], [0xA9] ++ ascii "llo.", ascii " *Bye*"]

theorem sentenceSplitPushes_cut :
    saidBy ((sentenceSplitPushes {} cutDeltas).1 ++
        [(sentenceSplitFlush (sentenceSplitPushes {} cutDeltas).2).1]) = said cutDeltas.flatten ∧
      (∀ unit ∈ (sentenceSplitPushes {} cutDeltas).1, Presentable unit.text) ∧
      ((sentenceSplitFlush (sentenceSplitPushes {} cutDeltas).2).1.text = [] ∨
        Presentable (sentenceSplitFlush (sentenceSplitPushes {} cutDeltas).2).1.text) :=
  sentenceSplitPushes_faithful (by decide) rfl

end Split
end S2S
