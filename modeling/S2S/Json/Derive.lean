/-
# What the reader does

The reader takes a bound on the depth of its calls, the length of the text when
it reads a whole one.  `Reads` says what it does without one, a constructor for
each way it has: what is read has a derivation (`reads_of_readValue`), and the
reader follows a derivation under any bound that the bytes it takes fit in
(`Reads.readBy`).  So the bound never shows (`parse_iff`), and what holds of
everything that is read is proved by induction on its derivation.
-/

import S2S.Json.Spans

namespace S2S
namespace Json

/-- What there is to read. -/
inductive Part
  | value (v : Value)
  | items (vs : List Value)
  | members (ms : List (Bytes × Value))

/-- The words that are values, by their first letter. -/
def literal (c : UInt8) : Option (Bytes × Value) :=
  if c = 0x74 then some (ascii "rue", .bool true)
  else if c = 0x66 then some (ascii "alse", .bool false)
  else if c = 0x6E then some (ascii "ull", .null)
  else none

theorem zero_not_mem_literal {c : UInt8} {text : Bytes} {v : Value} (h : literal c = some (text, v)) :
    (0 : UInt8) ∉ text := by
  unfold literal at h
  split_ifs at h
  all_goals
    obtain ⟨rfl, rfl⟩ := Prod.mk.inj (Option.some.inj h)
    decide

/-- **A derivation of the reader**: `w` opens with a part, and `r` follows it. -/
inductive Reads : Bytes → Part → Bytes → Prop
  | str {w s t r : Bytes} (hw : skipWs w = quote :: s) (h : readStr .done s = some (t, r)) :
      Reads w (.value (.str t)) r
  | emptyObj {w s r : Bytes} (hw : skipWs w = lbrace :: s) (hs : skipWs s = rbrace :: r) :
      Reads w (.value (.obj [])) r
  | obj {w s s' r : Bytes} {c : UInt8} {ms : List (Bytes × Value)}
      (hw : skipWs w = lbrace :: s) (hs : skipWs s = c :: s') (hc : c ≠ rbrace)
      (h : Reads (c :: s') (.members ms) r) : Reads w (.value (.obj ms)) r
  | emptyArr {w s r : Bytes} (hw : skipWs w = lbracket :: s) (hs : skipWs s = rbracket :: r) :
      Reads w (.value (.arr [])) r
  | arr {w s s' r : Bytes} {c : UInt8} {vs : List Value}
      (hw : skipWs w = lbracket :: s) (hs : skipWs s = c :: s') (hc : c ≠ rbracket)
      (h : Reads (c :: s') (.items vs) r) : Reads w (.value (.arr vs)) r
  | word {w s text r : Bytes} {c : UInt8} {v : Value} (hw : skipWs w = c :: s)
      (hword : literal c = some (text, v)) (h : expect text s = some r) : Reads w (.value v) r
  | num {w s d r : Bytes} {c : UInt8} (hw : skipWs w = c :: s) (hc : c = minus ∨ isDigit c = true)
      (h : readNumber (c :: s) = some (d, r)) : Reads w (.value (.num d)) r
  | lastItem {w s r : Bytes} {v : Value} (hv : Reads w (.value v) s)
      (hs : skipWs s = rbracket :: r) : Reads w (.items [v]) r
  | item {w s s' r : Bytes} {v : Value} {vs : List Value} (hv : Reads w (.value v) s)
      (hs : skipWs s = comma :: s') (h : Reads s' (.items vs) r) : Reads w (.items (v :: vs)) r
  | lastMember {w k s s' r : Bytes} {v : Value} (hk : readKey w = some (k, s))
      (hv : Reads s (.value v) s') (hs : skipWs s' = rbrace :: r) : Reads w (.members [(k, v)]) r
  | member {w k s s' s'' r : Bytes} {v : Value} {ms : List (Bytes × Value)}
      (hk : readKey w = some (k, s)) (hv : Reads s (.value v) s') (hs : skipWs s' = comma :: s'')
      (h : Reads s'' (.members ms) r) : Reads w (.members ((k, v) :: ms)) r

/-! ### What is read has a derivation -/

theorem reads_of_readValue (n : ℕ) :
    (∀ {w : Bytes} {v : Value} {r : Bytes}, readValue n w = some (v, r) → Reads w (.value v) r) ∧
    (∀ {w : Bytes} {vs : List Value} {r : Bytes}, readItems n w = some (vs, r) →
      Reads w (.items vs) r) ∧
    (∀ {w : Bytes} {ms : List (Bytes × Value)} {r : Bytes}, readMembers n w = some (ms, r) →
      Reads w (.members ms) r) := by
  induction n with
  | zero => exact ⟨fun h => by simp [readValue] at h, fun h => by simp [readItems] at h,
      fun h => by simp [readMembers] at h⟩
  | succ n ih =>
    obtain ⟨ihv, ihi, ihm⟩ := ih
    refine ⟨fun {w v r} h => ?_, fun {w vs r} h => ?_, fun {w ms r} h => ?_⟩
    · rw [readValue] at h
      split at h
      · simp at h
      · rename_i c s hs
        split_ifs at h with h₁ h₂ h₃ h₄ h₅ h₆ h₇
        · obtain ⟨⟨t, r'⟩, hd, hp⟩ := Option.map_eq_some_iff.1 h
          obtain ⟨rfl, rfl⟩ := Prod.mk.inj hp
          exact .str (h₁ ▸ hs) hd
        · split at h
          · simp at h
          · rename_i d s' hd
            split_ifs at h with h'
            · obtain ⟨rfl, rfl⟩ := Prod.mk.inj (Option.some.inj h)
              exact .emptyObj (h₂ ▸ hs) (h' ▸ hd)
            · obtain ⟨⟨ms, r'⟩, hm, hp⟩ := Option.map_eq_some_iff.1 h
              obtain ⟨rfl, rfl⟩ := Prod.mk.inj hp
              exact .obj (h₂ ▸ hs) hd h' (ihm hm)
        · split at h
          · simp at h
          · rename_i d s' hd
            split_ifs at h with h'
            · obtain ⟨rfl, rfl⟩ := Prod.mk.inj (Option.some.inj h)
              exact .emptyArr (h₃ ▸ hs) (h' ▸ hd)
            · obtain ⟨⟨vs, r'⟩, hi, hp⟩ := Option.map_eq_some_iff.1 h
              obtain ⟨rfl, rfl⟩ := Prod.mk.inj hp
              exact .arr (h₃ ▸ hs) hd h' (ihi hi)
        all_goals
          obtain ⟨x, hd, hp⟩ := Option.map_eq_some_iff.1 h
          obtain ⟨rfl, rfl⟩ := Prod.mk.inj hp
        · exact .word hs (by rw [literal, if_pos h₄]) hd
        · exact .word hs (by rw [literal, if_neg h₄, if_pos h₅]) hd
        · exact .word hs (by rw [literal, if_neg h₄, if_neg h₅, if_pos h₆]) hd
        · exact .num hs h₇ hd
    · rw [readItems] at h
      split at h
      · simp at h
      · rename_i v s hv
        split at h
        · simp at h
        · rename_i c s' hs
          split_ifs at h with h₁ h₂
          · obtain ⟨⟨vs', r'⟩, hd, hp⟩ := Option.map_eq_some_iff.1 h
            obtain ⟨rfl, rfl⟩ := Prod.mk.inj hp
            exact .item (ihv hv) (h₁ ▸ hs) (ihi hd)
          · obtain ⟨rfl, rfl⟩ := Prod.mk.inj (Option.some.inj h)
            exact .lastItem (ihv hv) (h₂ ▸ hs)
    · rw [readMembers] at h
      split at h
      · simp at h
      · rename_i k s hk
        split at h
        · simp at h
        · rename_i v s' hv
          split at h
          · simp at h
          · rename_i c s'' hs
            split_ifs at h with h₁ h₂
            · obtain ⟨⟨ms', r'⟩, hd, hp⟩ := Option.map_eq_some_iff.1 h
              obtain ⟨rfl, rfl⟩ := Prod.mk.inj hp
              exact .member hk (ihv hv) (h₁ ▸ hs) (ihm hd)
            · obtain ⟨rfl, rfl⟩ := Prod.mk.inj (Option.some.inj h)
              exact .lastMember hk (ihv hv) (h₂ ▸ hs)

/-! ### The reader follows a derivation -/

/-- Something is taken. -/
theorem Reads.lt {w r : Bytes} {x : Part} (h : Reads w x r) : r.length < w.length := by
  induction h with
  | str hw h =>
    have := length_of_skipWs hw
    have := (spans_readStr h).length_le
    omega
  | emptyObj hw hs | emptyArr hw hs =>
    have := length_of_skipWs hw
    have := length_of_skipWs hs
    omega
  | obj hw hs _ _ ih | arr hw hs _ _ ih =>
    have := length_of_skipWs hw
    have := length_of_skipWs hs
    rw [List.length_cons] at ih
    omega
  | word hw hword h =>
    have := length_of_skipWs hw
    have := (spans_expect (zero_not_mem_literal hword) h).length_le
    omega
  | num hw _ h =>
    have := length_of_skipWs hw
    have := lt_of_readNumber h
    rw [List.length_cons] at this
    omega
  | lastItem _ hs ih =>
    have := length_of_skipWs hs
    omega
  | item _ hs _ ihv ih =>
    have := length_of_skipWs hs
    omega
  | lastMember hk _ hs ih =>
    have := length_of_skipWs hs
    have := (spans_readKey hk).length_le
    omega
  | member hk _ hs _ ihv ih =>
    have := length_of_skipWs hs
    have := (spans_readKey hk).length_le
    omega

/-- The reader, under a bound, finds a part. -/
def Part.ReadBy (m : ℕ) (w r : Bytes) : Part → Prop
  | .value v => readValue m w = some (v, r)
  | .items vs => readItems m w = some (vs, r)
  | .members ms => readMembers m w = some (ms, r)

/-- **The reader follows a derivation** under any bound that the bytes it takes fit in. -/
theorem Reads.readBy {m : ℕ} {w r : Bytes} {x : Part} (h : Reads w x r)
    (hm : w.length ≤ m + r.length) : x.ReadBy m w r := by
  induction m generalizing w x r with
  | zero =>
    have := h.lt
    omega
  | succ m ih =>
    cases h with
    | str hw h =>
      rw [Part.ReadBy, readValue, hw]
      dsimp only
      rw [if_pos rfl, h]
      rfl
    | emptyObj hw hs =>
      rw [Part.ReadBy, readValue, hw]
      dsimp only
      rw [if_neg (by decide), if_pos rfl, hs]
      exact if_pos rfl
    | obj hw hs hc h =>
      have hlen := length_of_skipWs hw
      have hlen' := length_of_skipWs hs
      have hread : readMembers m _ = _ := ih h (by rw [List.length_cons]; omega)
      rw [Part.ReadBy, readValue, hw]
      dsimp only
      rw [if_neg (by decide), if_pos rfl, hs]
      dsimp only
      rw [if_neg hc, hread]
      rfl
    | emptyArr hw hs =>
      rw [Part.ReadBy, readValue, hw]
      dsimp only
      rw [if_neg (by decide), if_neg (by decide), if_pos rfl, hs]
      exact if_pos rfl
    | arr hw hs hc h =>
      have hlen := length_of_skipWs hw
      have hlen' := length_of_skipWs hs
      have hread : readItems m _ = _ := ih h (by rw [List.length_cons]; omega)
      rw [Part.ReadBy, readValue, hw]
      dsimp only
      rw [if_neg (by decide), if_neg (by decide), if_pos rfl, hs]
      dsimp only
      rw [if_neg hc, hread]
      rfl
    | word hw hword h =>
      rw [Part.ReadBy, readValue, hw]
      unfold literal at hword
      split_ifs at hword with h₁ h₂ h₃
      all_goals
        obtain ⟨rfl, rfl⟩ := Prod.mk.inj (Option.some.inj hword)
        subst_vars
        dsimp only
      · rw [if_neg (by decide), if_neg (by decide), if_neg (by decide), if_pos rfl, h]
        rfl
      · rw [if_neg (by decide), if_neg (by decide), if_neg (by decide), if_neg (by decide),
          if_pos rfl, h]
        rfl
      · rw [if_neg (by decide), if_neg (by decide), if_neg (by decide), if_neg (by decide),
          if_neg (by decide), if_pos rfl, h]
        rfl
    | num hw hc h =>
      have hne : ∀ b, ¬(b = minus ∨ isDigit b = true) → _ ≠ b := fun b hb heq => hb (heq ▸ hc)
      rw [Part.ReadBy, readValue, hw]
      dsimp only
      rw [if_neg (hne _ (by decide)), if_neg (hne _ (by decide)), if_neg (hne _ (by decide)),
        if_neg (hne _ (by decide)), if_neg (hne _ (by decide)), if_neg (hne _ (by decide)),
        if_pos hc, h]
      rfl
    | lastItem hv hs =>
      have hlen := length_of_skipWs hs
      have hread : readValue m w = _ := ih hv (by omega)
      rw [Part.ReadBy, readItems, hread]
      dsimp only
      rw [hs]
      rfl
    | item hv hs h =>
      have hlen := length_of_skipWs hs
      have hlt := hv.lt
      have hlt' := h.lt
      have hread : readValue m w = _ := ih hv (by omega)
      have hrest : readItems m _ = _ := ih h (by omega)
      rw [Part.ReadBy, readItems, hread]
      dsimp only
      rw [hs]
      dsimp only
      rw [if_pos rfl, hrest]
      rfl
    | lastMember hk hv hs =>
      have hlen := length_of_skipWs hs
      have hkey := (spans_readKey hk).length_le
      have hread : readValue m _ = _ := ih hv (by omega)
      rw [Part.ReadBy, readMembers, hk]
      dsimp only
      rw [hread]
      dsimp only
      rw [hs]
      rfl
    | member hk hv hs h =>
      have hlen := length_of_skipWs hs
      have hkey := (spans_readKey hk).length_le
      have hlt := hv.lt
      have hlt' := h.lt
      have hread : readValue m _ = _ := ih hv (by omega)
      have hrest : readMembers m _ = _ := ih h (by omega)
      rw [Part.ReadBy, readMembers, hk]
      dsimp only
      rw [hread]
      dsimp only
      rw [hs]
      dsimp only
      rw [if_pos rfl, hrest]
      rfl

/-- **A whole text is a value and white space.** -/
theorem parse_iff {w : Bytes} {v : Value} :
    parse w = some v ↔ ∃ r, Reads w (.value v) r ∧ skipWs r = [] := by
  constructor
  · intro h
    unfold parse at h
    split at h
    · simp at h
    · rename_i v' r hr
      split_ifs at h with hs
      obtain rfl := Option.some.inj h
      exact ⟨r, (reads_of_readValue _).1 hr, hs⟩
  · rintro ⟨r, hread, hr⟩
    have hvalue : readValue w.length w = some (v, r) := hread.readBy (Nat.le_add_right _ _)
    rw [parse, hvalue]
    exact if_pos hr

end Json
end S2S
