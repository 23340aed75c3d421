/-
# Texts that read as a value wherever they stand

A reader that is given `w ++ x` reads `w` as it would alone, as long as what
follows does not carry a number on (`Stops`, `Reads.append`).

It composes: a text that parses on its own reads as its value inside any other
(`readValue_of_parse`), and brackets around texts that read as values read as
the array or the object of these (`parse_arr`, `parse_obj`).  White space in
front of a text changes nothing to its value (`parse_cons_space`).
-/

import Mathlib.Data.List.Forall2
import S2S.Json.Derive

namespace S2S
namespace Json

/-- What may follow a value: nothing that would carry a number on. -/
def Stops (x : Bytes) : Prop := ∀ b ∈ x.head?, isNumber b = false

theorem stops_cons {b : UInt8} {x : Bytes} (h : isNumber b = false) : Stops (b :: x) :=
  fun c hc => by
    obtain rfl : b = c := by simpa using hc
    exact h

/-! ### White space -/

theorem skipWs_append_of_eq_nil {w : Bytes} (h : skipWs w = []) (x : Bytes) :
    skipWs (w ++ x) = skipWs x := by
  induction w with
  | nil => rfl
  | cons b w ih =>
    rw [skipWs] at h
    rw [List.cons_append, skipWs]
    split_ifs at h ⊢ with hb
    exact ih h

theorem skipWs_append_of_eq_cons {w r : Bytes} {c : UInt8} (h : skipWs w = c :: r) (x : Bytes) :
    skipWs (w ++ x) = c :: (r ++ x) := by
  induction w with
  | nil => simp [skipWs] at h
  | cons b w ih =>
    rw [skipWs] at h
    rw [List.cons_append, skipWs]
    split_ifs at h ⊢ with hb
    · exact ih h
    · obtain ⟨rfl, rfl⟩ := List.cons.inj h
      rfl

theorem skipWs_cons_of_not_space {b : UInt8} (h : isSpace b = false) (s : Bytes) :
    skipWs (b :: s) = b :: s := by
  rw [skipWs, if_neg (by simp [h])]

theorem skipWs_skipWs (w : Bytes) : skipWs (skipWs w) = skipWs w := by
  induction w with
  | nil => rfl
  | cons b w ih =>
    rw [skipWs]
    split_ifs with hb
    · exact ih
    · exact skipWs_cons_of_not_space (by simpa using hb) w

/-! ### Strings and literals -/

theorem unescape_u : unescape 0x75 = none := by decide

theorem readStr_quote (s : Bytes) : readStr .done (quote :: s) = some ([], s) := by
  rw [readStr.eq_def]
  exact if_pos ⟨rfl, rfl⟩

/-- A byte that is neither the end of the string nor the start of an escape. -/
theorem readStr_plain {t t' : Tail} {b : UInt8} (hq : ¬(t = .done ∧ b = quote))
    (hb : ¬(t = .done ∧ b = backslash)) (hlt : ¬b < 0x20) (ht : t.step b = some t') (s : Bytes) :
    readStr t (b :: s) = (readStr t' s).map (before [b]) := by
  rw [readStr.eq_def]
  simp only [if_neg hq, if_neg hb, if_neg hlt, ht]

/-- An escape of one letter. -/
theorem readStr_escape {e c : UInt8} (h : unescape e = some c) (s : Bytes) :
    readStr .done (backslash :: e :: s) = (readStr .done s).map (before [c]) := by
  have he : e ≠ 0x75 := by
    rintro rfl
    simp [unescape_u] at h
  rw [readStr.eq_def]
  simp [quote, backslash, he, h]

/-- An escape by its code point. -/
theorem readStr_unicode {a b c d : UInt8} {n : ℕ} (h : hex4 a b c d = some n)
    (hn : n < 0xD800 ∨ 0xDFFF < n) (s : Bytes) :
    readStr .done (backslash :: 0x75 :: a :: b :: c :: d :: s)
      = (readStr .done s).map (before (utf8Encode n)) := by
  rw [readStr.eq_def]
  simp [quote, backslash, h, hn]

/-- A string ends at its quote, whatever follows. -/
theorem readStr_append {t : Tail} {w s r : Bytes} (h : readStr t w = some (s, r)) (x : Bytes) :
    readStr t (w ++ x) = some (s, r ++ x) := by
  fun_induction readStr t w generalizing s r with
  | case2 t b w hq =>
    obtain ⟨rfl, rfl⟩ := hq
    obtain ⟨rfl, rfl⟩ : s = [] ∧ r = w := by simpa [eq_comm] using h
    exact readStr_quote _
  | case4 t b hq hb a b' c d w n hx hn ih =>
    obtain ⟨⟨s', r'⟩, hs, hp⟩ := Option.map_eq_some_iff.1 h
    obtain ⟨rfl, rfl⟩ := Prod.mk.inj hp
    obtain ⟨rfl, rfl⟩ := hb
    simp [readStr_unicode hx hn, ih hs, before]
  | case8 t b hq hb a b' c d hi hx h1 h2 a₂ b₂ c₂ d₂ w lo hx' h3 ih =>
    obtain ⟨⟨s', r'⟩, hs, hp⟩ := Option.map_eq_some_iff.1 h
    obtain ⟨rfl, rfl⟩ := Prod.mk.inj hp
    obtain ⟨rfl, rfl⟩ := hb
    rw [readStr.eq_def]
    simp [quote, backslash, hx, h1, h2, hx', h3, ih hs, before]
  | case11 t b hq hb e w hne c hc ih =>
    obtain ⟨⟨s', r'⟩, hs, hp⟩ := Option.map_eq_some_iff.1 h
    obtain ⟨rfl, rfl⟩ := Prod.mk.inj hp
    obtain ⟨rfl, rfl⟩ := hb
    simp [readStr_escape hc, ih hs, before]
  | case15 t b w hq hb hlt t' ht ih =>
    obtain ⟨⟨s', r'⟩, hs, hp⟩ := Option.map_eq_some_iff.1 h
    obtain ⟨rfl, rfl⟩ := Prod.mk.inj hp
    simp [readStr_plain hq hb hlt ht, ih hs, before]
  | _ => simp at h

theorem expect_append {word w r : Bytes} (h : expect word w = some r) (x : Bytes) :
    expect word (w ++ x) = some (r ++ x) := by
  induction word generalizing w with
  | nil =>
    obtain rfl : w = r := by simpa [expect] using h
    rfl
  | cons c word ih =>
    cases w with
    | nil => simp [expect] at h
    | cons b w =>
      rw [expect] at h
      rw [List.cons_append, expect]
      split_ifs at h ⊢ with hb
      exact ih h

/-! ### Numbers -/

theorem digits_append {w x : Bytes} (h : (digits w).2 = [] → Stops x) :
    digits (w ++ x) = ((digits w).1, (digits w).2 ++ x) := by
  induction w with
  | nil =>
    have hx := h rfl
    cases x with
    | nil => rfl
    | cons b x =>
      have hb : isDigit b = false := by
        have := hx b rfl
        simp only [isNumber, Bool.or_eq_false_iff] at this
        exact this.1.1.1.1.1
      simp [digits, hb]
  | cons b w ih =>
    cases hb : isDigit b with
    | false => simp [digits, hb]
    | true =>
      have h' : (digits w).2 = [] → Stops x := by simpa [digits, hb] using h
      have := ih h'
      simp only [digits, Prod.mk.injEq] at this
      simp [digits, hb, this.1, this.2]

theorem digits1_append {w x d r : Bytes} (h : digits1 w = some (d, r)) (hx : r = [] → Stops x) :
    digits1 (w ++ x) = some (d, r ++ x) := by
  unfold digits1 at h ⊢
  split_ifs at h with hd
  have hp : digits w = (d, r) := Option.some.inj h
  rw [hp] at hd
  rw [digits_append (by rw [hp]; exact hx), hp]
  exact if_neg hd

theorem readInt_append {w x d r : Bytes} (h : readInt w = some (d, r)) (hx : r = [] → Stops x) :
    readInt (w ++ x) = some (d, r ++ x) := by
  unfold readInt at h
  cases hd : digits1 w with
  | none => simp [hd] at h
  | some p =>
    rw [hd] at h
    dsimp only at h
    split_ifs at h with hp
    obtain rfl : p = (d, r) := Option.some.inj h
    rw [readInt, digits1_append hd hx]
    exact if_neg hp

theorem Stops.not_number {b : UInt8} {x : Bytes} (h : Stops (b :: x)) : isNumber b = false :=
  h b rfl

theorem readFrac_append {w x d r : Bytes} (h : readFrac w = some (d, r)) (hx : r = [] → Stops x) :
    readFrac (w ++ x) = some (d, r ++ x) := by
  have hne : ∀ s : Bytes, s.head? ≠ some 0x2E → readFrac s = some ([], s) := by
    intro s hs
    unfold readFrac
    split
    · simp at hs
    · rfl
  cases w with
  | nil =>
    obtain ⟨rfl, rfl⟩ : d = [] ∧ r = [] := by simpa [readFrac, eq_comm] using h
    refine hne x fun hd => ?_
    have := hx rfl 0x2E hd
    simp [isNumber] at this
  | cons b w =>
    by_cases hb : b = 0x2E
    · subst hb
      obtain ⟨⟨d', r'⟩, hd, hp⟩ := Option.map_eq_some_iff.1 (show (digits1 w).map _ = _ from h)
      obtain ⟨rfl, rfl⟩ := Prod.mk.inj hp
      simp [readFrac, digits1_append hd hx, before]
    · have hw : (b :: w).head? ≠ some 0x2E := by simpa using hb
      obtain ⟨rfl, rfl⟩ : d = [] ∧ r = b :: w := by simpa [hne _ hw, eq_comm] using h
      exact hne _ (by simpa using hb)

theorem readExp_append {w x d r : Bytes} (h : readExp w = some (d, r)) (hx : r = [] → Stops x) :
    readExp (w ++ x) = some (d, r ++ x) := by
  cases w with
  | nil =>
    obtain ⟨rfl, rfl⟩ : d = [] ∧ r = [] := by simpa [readExp, eq_comm] using h
    cases x with
    | nil => rfl
    | cons b x =>
      have hb := (hx rfl).not_number
      have : ¬(b = 0x65 ∨ b = 0x45) := by
        rintro (rfl | rfl) <;> simp [isNumber] at hb
      simp [readExp, this]
  | cons e w =>
    rw [List.cons_append]
    unfold readExp at h ⊢
    dsimp only at h ⊢
    split_ifs at h ⊢ with he
    · cases w with
      | nil => simp at h
      | cons g w =>
        dsimp only [List.cons_append] at h ⊢
        split_ifs at h ⊢ with hg
        all_goals
          obtain ⟨⟨d', r'⟩, hd, hp⟩ := Option.map_eq_some_iff.1 h
          obtain ⟨rfl, rfl⟩ := Prod.mk.inj hp
        · rw [digits1_append hd hx]
          rfl
        · rw [← List.cons_append, digits1_append hd hx]
          rfl
    · obtain ⟨rfl, rfl⟩ : d = [] ∧ r = e :: w := by simpa [eq_comm] using h
      rfl

theorem readUnsigned_append {w x d r : Bytes} (h : readUnsigned w = some (d, r))
    (hx : r = [] → Stops x) : readUnsigned (w ++ x) = some (d, r ++ x) := by
  simp only [readUnsigned, Option.bind_eq_bind, Option.bind_eq_some_iff, Prod.exists] at h
  obtain ⟨int, s₁, h₁, frac, s₂, h₂, exp, s₃, h₃, hp⟩ := h
  split_ifs at hp with hpast
  obtain ⟨rfl, rfl⟩ := Prod.mk.inj (Option.some.inj hp)
  have hx₂ : s₂ = [] → Stops x := by
    rintro rfl
    exact hx (by simpa [readExp, eq_comm] using congrArg (Option.map Prod.snd) h₃)
  have hx₁ : s₁ = [] → Stops x := by
    rintro rfl
    exact hx₂ (by simpa [readFrac, eq_comm] using congrArg (Option.map Prod.snd) h₂)
  simp [readUnsigned, readInt_append h₁ hx₁, readFrac_append h₂ hx₂, readExp_append h₃ hx, hpast]

theorem readNumber_append {w x d r : Bytes} (h : readNumber w = some (d, r))
    (hx : r = [] → Stops x) : readNumber (w ++ x) = some (d, r ++ x) := by
  cases w with
  | nil => simp [readNumber] at h
  | cons c w =>
    rw [List.cons_append]
    rw [readNumber] at h ⊢
    split_ifs at h ⊢ with hc
    · obtain ⟨⟨d', r'⟩, hd, hp⟩ := Option.map_eq_some_iff.1 h
      obtain ⟨rfl, rfl⟩ := Prod.mk.inj hp
      simp [readUnsigned_append hd hx, before]
    · exact readUnsigned_append h hx

/-! ### Values -/

theorem readKey_append {w k r : Bytes} (h : readKey w = some (k, r)) (x : Bytes) :
    readKey (w ++ x) = some (k, r ++ x) := by
  unfold readKey at h
  split at h
  · simp at h
  · rename_i c s hs
    split_ifs at h with hc
    split at h
    · simp at h
    · rename_i k' s' hk
      split at h
      · simp at h
      · rename_i d r' hd
        split_ifs at h with hcol
        obtain ⟨rfl, rfl⟩ := Prod.mk.inj (Option.some.inj h)
        simp [readKey, skipWs_append_of_eq_cons hs, hc, readStr_append hk,
          skipWs_append_of_eq_cons hd, hcol]

/-- **A derivation goes by what it needs.**  More text behind changes nothing to what is read, as
long as it does not carry on a number that ends with it. -/
theorem Reads.append {w r : Bytes} {x : Part} (h : Reads w x r) (y : Bytes)
    (hy : r = [] → Stops y) : Reads (w ++ y) x (r ++ y) := by
  -- A value inside another is not at the end of the text: something closes the outer one.
  have hinner : ∀ {s s' : Bytes} {c : UInt8}, skipWs s = c :: s' → s = [] → Stops y := by
    rintro s s' c hs rfl
    simp [skipWs] at hs
  induction h with
  | str hw h => exact .str (skipWs_append_of_eq_cons hw y) (readStr_append h y)
  | emptyObj hw hs =>
    exact .emptyObj (skipWs_append_of_eq_cons hw y) (skipWs_append_of_eq_cons hs y)
  | obj hw hs hc _ ih =>
    exact .obj (skipWs_append_of_eq_cons hw y) (skipWs_append_of_eq_cons hs y) hc (ih hy)
  | emptyArr hw hs =>
    exact .emptyArr (skipWs_append_of_eq_cons hw y) (skipWs_append_of_eq_cons hs y)
  | arr hw hs hc _ ih =>
    exact .arr (skipWs_append_of_eq_cons hw y) (skipWs_append_of_eq_cons hs y) hc (ih hy)
  | word hw hword h => exact .word (skipWs_append_of_eq_cons hw y) hword (expect_append h y)
  | num hw hc h => exact .num (skipWs_append_of_eq_cons hw y) hc (readNumber_append h hy)
  | lastItem _ hs ih => exact .lastItem (ih (hinner hs)) (skipWs_append_of_eq_cons hs y)
  | item _ hs _ ihv ih => exact .item (ihv (hinner hs)) (skipWs_append_of_eq_cons hs y) (ih hy)
  | lastMember hk _ hs ih =>
    exact .lastMember (readKey_append hk y) (ih (hinner hs)) (skipWs_append_of_eq_cons hs y)
  | member hk _ hs _ ihv ih =>
    exact .member (readKey_append hk y) (ihv (hinner hs)) (skipWs_append_of_eq_cons hs y) (ih hy)

/-- **A whole text is read wherever it stands.** -/
theorem reads_of_parse {w x : Bytes} {v : Value} (h : parse w = some v) (hx : Stops x) :
    ∃ r, Reads (w ++ x) (.value v) r ∧ skipWs r = skipWs x := by
  obtain ⟨r, hread, hr⟩ := parse_iff.1 h
  exact ⟨r ++ x, hread.append x fun _ => hx, skipWs_append_of_eq_nil hr x⟩

/-- White space in front is skipped. -/
theorem Reads.of_skipWs {w w' r : Bytes} {x : Part} (h : Reads w x r)
    (hsame : skipWs w' = skipWs w) : Reads w' x r := by
  have hkey : ∀ {w}, skipWs w' = skipWs w → readKey w' = readKey w := fun hsame => by
    rw [readKey, readKey, hsame]
  induction h with
  | str hw h => exact .str (hsame.trans hw) h
  | emptyObj hw hs => exact .emptyObj (hsame.trans hw) hs
  | obj hw hs hc h => exact .obj (hsame.trans hw) hs hc h
  | emptyArr hw hs => exact .emptyArr (hsame.trans hw) hs
  | arr hw hs hc h => exact .arr (hsame.trans hw) hs hc h
  | word hw hword h => exact .word (hsame.trans hw) hword h
  | num hw hc h => exact .num (hsame.trans hw) hc h
  | lastItem _ hs ih => exact .lastItem (ih hsame) hs
  | item _ hs h ihv _ => exact .item (ihv hsame) hs h
  | lastMember hk hv hs => exact .lastMember ((hkey hsame).trans hk) hv hs
  | member hk hv hs h => exact .member ((hkey hsame).trans hk) hv hs h

/-- No part opens with a closing character. -/
theorem Reads.opens {w r : Bytes} {x : Part} (h : Reads w x r) :
    ∃ c s, skipWs w = c :: s ∧ c ≠ rbracket ∧ c ≠ rbrace := by
  have hkey : ∀ {w : Bytes} {p : Bytes × Bytes}, readKey w = some p →
      ∃ c s, skipWs w = c :: s ∧ c ≠ rbracket ∧ c ≠ rbrace := by
    intro w p h
    unfold readKey at h
    split at h
    · simp at h
    · rename_i c s hs
      split_ifs at h with hc
      exact ⟨c, s, hs, by rw [hc]; decide, by rw [hc]; decide⟩
  induction h with
  | str hw | emptyObj hw | obj hw | emptyArr hw | arr hw =>
    exact ⟨_, _, hw, by decide, by decide⟩
  | word hw hword =>
    refine ⟨_, _, hw, ?_, ?_⟩
    · rintro rfl
      simp [literal, rbracket] at hword
    · rintro rfl
      simp [literal, rbrace] at hword
  | num hw hc =>
    refine ⟨_, _, hw, ?_, ?_⟩
    · rintro rfl
      exact absurd hc (by decide)
    · rintro rfl
      exact absurd hc (by decide)
  | lastItem _ _ ih => exact ih
  | item _ _ _ ih => exact ih
  | lastMember hk => exact hkey hk
  | member hk => exact hkey hk

/-- **White space before a text changes nothing to its value.** -/
theorem parse_cons_space {b : UInt8} (hb : isSpace b = true) (w : Bytes) :
    parse (b :: w) = parse w := by
  have hskip : skipWs (b :: w) = skipWs w := if_pos hb
  refine Option.ext fun v => parse_iff.trans (Iff.trans ?_ parse_iff.symm)
  exact ⟨fun ⟨r, h, hr⟩ => ⟨r, h.of_skipWs hskip.symm, hr⟩,
    fun ⟨r, h, hr⟩ => ⟨r, h.of_skipWs hskip, hr⟩⟩

/-! ### Composing texts -/

/-- Texts between commas, a closing character behind the last. -/
def joinWith (close : UInt8) : List Bytes → Bytes
  | [] => [close]
  | [w] => w ++ [close]
  | w :: w' :: ws => w ++ comma :: joinWith close (w' :: ws)

theorem stops_comma (x : Bytes) : Stops (comma :: x) := stops_cons (by decide)

theorem stops_rbracket (x : Bytes) : Stops (rbracket :: x) := stops_cons (by decide)

theorem stops_rbrace (x : Bytes) : Stops (rbrace :: x) := stops_cons (by decide)

theorem reads_items {ws : List Bytes} {vs : List Value}
    (h : List.Forall₂ (fun w v => parse w = some v) ws vs) (hne : ws ≠ []) (x : Bytes) :
    Reads (joinWith rbracket ws ++ x) (.items vs) x := by
  induction h with
  | nil => exact absurd rfl hne
  | @cons w v ws vs hw hws ih =>
    cases ws with
    | nil =>
      obtain rfl : vs = [] := by simpa using hws
      obtain ⟨r, hr, hskip⟩ := reads_of_parse hw (stops_rbracket x)
      rw [skipWs_cons_of_not_space (by decide)] at hskip
      rw [joinWith, List.append_assoc, List.singleton_append]
      exact .lastItem hr hskip
    | cons w' ws =>
      obtain ⟨r, hr, hskip⟩ := reads_of_parse hw (stops_comma (joinWith rbracket (w' :: ws) ++ x))
      rw [skipWs_cons_of_not_space (by decide)] at hskip
      rw [joinWith, List.append_assoc, List.cons_append]
      exact .item hr hskip (ih (by simp))

/-- Texts that read as values, between brackets, read as the array of these. -/
theorem parse_arr {ws : List Bytes} {vs : List Value}
    (h : List.Forall₂ (fun w v => parse w = some v) ws vs) :
    parse (lbracket :: joinWith rbracket ws) = some (.arr vs) := by
  have hopen : ∀ s, skipWs (lbracket :: s) = lbracket :: s := skipWs_cons_of_not_space (by decide)
  cases ws with
  | nil =>
    obtain rfl : vs = [] := by simpa using h
    exact parse_iff.2 ⟨[], .emptyArr (hopen _) rfl, rfl⟩
  | cons w ws =>
    have hread := reads_items h (by simp) []
    rw [List.append_nil] at hread
    obtain ⟨c, s, hs, hc, -⟩ := hread.opens
    have hskip : skipWs (c :: s) = skipWs (joinWith rbracket (w :: ws)) := by
      rw [← hs, skipWs_skipWs]
    exact parse_iff.2 ⟨[], .arr (hopen _) hs hc (hread.of_skipWs hskip), rfl⟩

/-- A name and its colon. -/
def ReadsKey (w k : Bytes) : Prop := ∀ x, readKey (w ++ x) = some (k, x)

theorem reads_members {ws : List (Bytes × Bytes)} {ms : List (Bytes × Value)}
    (h : List.Forall₂ (fun w m => ReadsKey w.1 m.1 ∧ parse w.2 = some m.2) ws ms) (hne : ws ≠ [])
    (x : Bytes) : Reads (joinWith rbrace (ws.map fun w => w.1 ++ w.2) ++ x) (.members ms) x := by
  induction h with
  | nil => exact absurd rfl hne
  | @cons w m ws ms hw hws ih =>
    obtain ⟨hk, hv⟩ := hw
    cases ws with
    | nil =>
      obtain rfl : ms = [] := by simpa using hws
      obtain ⟨r, hr, hskip⟩ := reads_of_parse hv (stops_rbrace x)
      rw [skipWs_cons_of_not_space (by decide)] at hskip
      simp only [List.map_cons, List.map_nil, joinWith, List.append_assoc, List.singleton_append]
      exact .lastMember (hk _) hr hskip
    | cons w' ws =>
      obtain ⟨r, hr, hskip⟩ := reads_of_parse hv
        (stops_comma (joinWith rbrace ((w' :: ws).map fun w => w.1 ++ w.2) ++ x))
      rw [skipWs_cons_of_not_space (by decide)] at hskip
      simp only [List.map_cons, joinWith, List.append_assoc, List.cons_append] at hr hskip ih ⊢
      exact .member (hk _) hr hskip (ih (by simp))

/-- Names and texts that read as values, between braces, read as the object of
these. -/
theorem parse_obj {ws : List (Bytes × Bytes)} {ms : List (Bytes × Value)}
    (h : List.Forall₂ (fun w m => ReadsKey w.1 m.1 ∧ parse w.2 = some m.2) ws ms) :
    parse (lbrace :: joinWith rbrace (ws.map fun w => w.1 ++ w.2)) = some (.obj ms) := by
  have hopen : ∀ s, skipWs (lbrace :: s) = lbrace :: s := skipWs_cons_of_not_space (by decide)
  cases ws with
  | nil =>
    obtain rfl : ms = [] := by simpa using h
    exact parse_iff.2 ⟨[], .emptyObj (hopen _) rfl, rfl⟩
  | cons w ws =>
    have hread := reads_members h (by simp) []
    rw [List.append_nil] at hread
    obtain ⟨c, s, hs, -, hc⟩ := hread.opens
    have hskip : skipWs (c :: s) = skipWs (joinWith rbrace ((w :: ws).map fun w => w.1 ++ w.2)) := by
      rw [← hs, skipWs_skipWs]
    exact parse_iff.2 ⟨[], .obj (hopen _) hs hc (hread.of_skipWs hskip), rfl⟩

end Json
end S2S
