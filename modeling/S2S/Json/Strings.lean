/-
# The strings of a JSON text are UTF-8

A string is read byte by byte, each one owed by the bytes before it or the first
of a character, and an escape stands for a character of its own, a surrogate
with its pair (`readStr`).  So the value of a string is a text of whole UTF-8
characters, and with it every string of what a text parses to
(`whole_of_parse`).
-/

import S2S.Json.Derive

namespace S2S
namespace Json

/-! ### Texts put together, texts cut -/

/-- What a text put together owes on the way. -/
theorem utf8From_append_iff {t : Tail} {a b : Bytes} : utf8From t (a ++ b) = true ↔
    ∃ t', a.foldlM Tail.step t = some t' ∧ utf8From t' b = true := by
  induction a generalizing t with
  | nil => simp
  | cons x a ih =>
    rw [List.cons_append, utf8From, List.foldlM_cons]
    cases t.step x with
    | none => simp
    | some t' => simpa using ih

theorem utf8From_iff {t : Tail} {a : Bytes} :
    utf8From t a = true ↔ a.foldlM Tail.step t = some .done := by
  have h := utf8From_append_iff (t := t) (a := a) (b := [])
  rw [List.append_nil] at h
  rw [h]
  simp [utf8From]

/-- Whole characters may follow where a text has completed what it owed. -/
theorem utf8From_append {t : Tail} {a b : Bytes} (ha : utf8From t a = true)
    (hb : validUtf8 b = true) : utf8From t (a ++ b) = true :=
  utf8From_append_iff.2 ⟨.done, utf8From_iff.1 ha, hb⟩

/-- Whole characters before a text change nothing. -/
theorem validUtf8_append_iff {a b : Bytes} (ha : validUtf8 a = true) :
    validUtf8 (a ++ b) = true ↔ validUtf8 b = true := by
  refine ⟨fun h => ?_, utf8From_append ha⟩
  obtain ⟨t, ht, hb⟩ := utf8From_append_iff.1 h
  rw [utf8From_iff.1 ha] at ht
  obtain rfl := Option.some.inj ht
  exact hb

/-- A byte that goes on with a character. -/
def continues (b : UInt8) : Bool := decide (0x80 ≤ b) && decide (b ≤ 0xBF)

theorem not_continues_of_lead {b : UInt8} {t : Tail} (h : lead b = some t) :
    continues b = false := by
  unfold lead at h
  simp only [continues, Bool.and_eq_false_iff, decide_eq_false_iff_not, UInt8.not_le]
  split_ifs at h with h1 h2 h3 h4 h5
  · exact .inl h1
  all_goals exact .inr (UInt8.lt_of_lt_of_le (by decide) (UInt8.not_lt.1 h2))

theorem continues_of_owed {n : ℕ} {r : Second} {b : UInt8} {t : Tail}
    (h : (Tail.owed n r).step b = some t) : continues b = true := by
  simp only [Tail.step] at h
  split_ifs at h with hr
  have hi : r.hi ≤ 0xBF := by cases r <;> decide
  simp only [continues, Bool.and_eq_true, decide_eq_true_eq]
  exact ⟨UInt8.le_trans r.le_lo hr.1, UInt8.le_trans hr.2 hi⟩

/-- **Where a text may be cut**: in front of any byte that does not go on with a character. -/
theorem validUtf8_cut {a b : Bytes} {c : UInt8} (h : validUtf8 (a ++ c :: b) = true) :
    validUtf8 a = true ↔ continues c = false := by
  obtain ⟨t, ht, hc⟩ := utf8From_append_iff.1 h
  rw [validUtf8, utf8From_iff, ht]
  rw [utf8From] at hc
  cases hstep : t.step c with
  | none => simp [hstep] at hc
  | some t' =>
    cases t with
    | done => simp [not_continues_of_lead hstep]
    | owed n r => simp [continues_of_owed hstep]

/-- A text may be cut in front of an ASCII byte. -/
theorem validUtf8_takeWhile {s : Bytes} {c : UInt8} (hc : continues c = false)
    (h : validUtf8 s = true) : validUtf8 (s.takeWhile (· ≠ c)) = true := by
  have hsplit := List.takeWhile_append_dropWhile (p := (· ≠ c)) (l := s)
  cases hrest : s.dropWhile (· ≠ c) with
  | nil =>
    rw [hrest, List.append_nil] at hsplit
    rwa [hsplit]
  | cons b rest =>
    have hb : b = c := by
      have := List.head?_dropWhile_not (· ≠ c) s
      rw [hrest] at this
      simpa using this
    rw [hrest, hb] at hsplit
    rw [← hsplit] at h
    exact (validUtf8_cut h).2 hc

/-- Texts of whole characters make one. -/
theorem validUtf8_append {a b : Bytes} (ha : validUtf8 a = true) (hb : validUtf8 b = true) :
    validUtf8 (a ++ b) = true := utf8From_append ha hb

theorem validUtf8_flatMap {α : Type} {f : α → Bytes} {l : List α}
    (h : ∀ x ∈ l, validUtf8 (f x) = true) : validUtf8 (l.flatMap f) = true := by
  induction l with
  | nil => rfl
  | cons x l ih =>
    exact validUtf8_append (h x (List.mem_cons_self ..))
      (ih fun y hy => h y (List.mem_cons_of_mem _ hy))

/-! ### An escape -/

/-- The first byte of an encoding of one and of two. -/
theorem lead_utf8Encode : (∀ k < 0x80, lead (UInt8.ofNat k) = some .done) ∧
    ∀ k < 0x20, 2 ≤ k → lead (UInt8.ofNat (0xC0 + k)) = some (.owed 0 .any) := by
  decide +kernel

/-- The first two bytes of three: no shorter form, no surrogate. -/
theorem lead_three : ∀ k < 0x10, ∀ j < 0x40, (k ≠ 0 ∨ 0x20 ≤ j) ∧ (k ≠ 0xD ∨ j < 0x20) →
    ((lead (UInt8.ofNat (0xE0 + k))).bind fun t => t.step (UInt8.ofNat (0x80 + j)))
      = some (.owed 0 .any) := by
  decide +kernel

/-- The first two bytes of four: no shorter form, none past the last code point. -/
theorem lead_four : ∀ k < 0x5, ∀ j < 0x40, (k ≠ 0 ∨ 0x10 ≤ j) ∧ (k ≠ 4 ∨ j < 0x10) →
    ((lead (UInt8.ofNat (0xF0 + k))).bind fun t => t.step (UInt8.ofNat (0x80 + j)))
      = some (.owed 1 .any) := by
  decide +kernel

/-- The bytes that follow. -/
theorem step_follow : ∀ j < 0x40,
    (Tail.owed 0 .any).step (UInt8.ofNat (0x80 + j)) = some .done ∧
      (Tail.owed 1 .any).step (UInt8.ofNat (0x80 + j)) = some (.owed 0 .any) := by
  decide +kernel

/-- **The encoding of a code point is a character**, unless it is a surrogate. -/
theorem validUtf8_utf8Encode {n : ℕ} (h : n < 0x110000) (hs : n < 0xD800 ∨ 0xDFFF < n) :
    validUtf8 (utf8Encode n) = true := by
  have hlast : ∀ k, (Tail.owed 0 .any).step (UInt8.ofNat (0x80 + k % 0x40)) = some .done :=
    fun k => (step_follow _ (Nat.mod_lt _ (by decide))).1
  have hmid : ∀ k, (Tail.owed 1 .any).step (UInt8.ofNat (0x80 + k % 0x40)) = some (.owed 0 .any) :=
    fun k => (step_follow _ (Nat.mod_lt _ (by decide))).2
  unfold utf8Encode
  split_ifs with h1 h2 h3
  · simp only [validUtf8, utf8From, Tail.step, lead_utf8Encode.1 n h1, decide_true]
  · have hfirst := lead_utf8Encode.2 (n / 0x40) (by omega) (by omega)
    simp only [validUtf8, utf8From, Tail.step.eq_1, hfirst, hlast, decide_true]
  · have hfirst := lead_three (n / 0x1000) (by omega) (n / 0x40 % 0x40) (Nat.mod_lt _ (by decide))
      ⟨by omega, by omega⟩
    obtain ⟨t, ht, hsecond⟩ := Option.bind_eq_some_iff.1 hfirst
    simp only [validUtf8, utf8From, Tail.step.eq_1, ht, hsecond, hlast, decide_true]
  · have hfirst := lead_four (n / 0x40000) (by omega) (n / 0x1000 % 0x40) (Nat.mod_lt _ (by decide))
      ⟨by omega, by omega⟩
    obtain ⟨t, ht, hsecond⟩ := Option.bind_eq_some_iff.1 hfirst
    simp only [validUtf8, utf8From, Tail.step.eq_1, ht, hsecond, hmid, hlast, decide_true]

/-! ### What is read -/

theorem hexDigit_lt {b : UInt8} {n : ℕ} (h : hexDigit b = some n) : n < 16 := by
  unfold hexDigit isDigit at h
  split_ifs at h with h1 h2 h3
  · simp only [Bool.and_eq_true, decide_eq_true_eq, UInt8.le_iff_toNat_le] at h1
    have hhi := h1.2
    simp at h hhi
    omega
  · have hhi := UInt8.le_iff_toNat_le.1 h2.2
    simp at h hhi
    omega
  · have hhi := UInt8.le_iff_toNat_le.1 h3.2
    simp at h hhi
    omega

theorem hex4_lt {a b c d : UInt8} {n : ℕ} (h : hex4 a b c d = some n) : n < 0x10000 := by
  simp only [hex4, Option.bind_eq_bind, Option.bind_eq_some_iff, Option.pure_def,
    Option.some.injEq] at h
  obtain ⟨w, hw, x, hx, y, hy, z, hz, rfl⟩ := h
  have := hexDigit_lt hw
  have := hexDigit_lt hx
  have := hexDigit_lt hy
  have := hexDigit_lt hz
  omega

/-- A one letter escape is an ASCII character. -/
theorem lead_unescape {e c : UInt8} (h : unescape e = some c) : lead c = some .done := by
  unfold unescape at h
  split_ifs at h with h1
  · obtain rfl := Option.some.inj h
    obtain rfl | rfl | rfl := h1 <;> decide
  all_goals
    obtain rfl := Option.some.inj h
    decide

/-- **The characters of a string complete what was owed before them.** -/
theorem utf8From_readStr {t : Tail} {w s r : Bytes} (h : readStr t w = some (s, r)) :
    utf8From t s = true := by
  fun_induction readStr t w generalizing s r with
  | case2 t b w hq =>
    obtain ⟨rfl, rfl⟩ := hq
    obtain ⟨rfl, rfl⟩ : s = [] ∧ r = w := by simpa [eq_comm] using h
    rfl
  | case4 t b hq hb a b' c d w n hx hn ih =>
    obtain ⟨⟨s', r'⟩, hs, hp⟩ := Option.map_eq_some_iff.1 h
    obtain ⟨rfl, rfl⟩ := Prod.mk.inj hp
    obtain ⟨rfl, rfl⟩ := hb
    exact utf8From_append (validUtf8_utf8Encode (by have := hex4_lt hx; omega) hn) (ih hs)
  | case8 t b hq hb a b' c d hi hx h1 h2 a₂ b₂ c₂ d₂ w lo hx' h3 ih =>
    obtain ⟨⟨s', r'⟩, hs, hp⟩ := Option.map_eq_some_iff.1 h
    obtain ⟨rfl, rfl⟩ := Prod.mk.inj hp
    obtain ⟨rfl, rfl⟩ := hb
    have hpair : validUtf8 (utf8Encode ((hi - 0xD800) * 0x400 + (lo - 0xDC00) + 0x10000)) = true :=
      validUtf8_utf8Encode (by omega) (by omega)
    exact utf8From_append hpair (ih hs)
  | case11 t b hq hb e w hne c hc ih =>
    obtain ⟨⟨s', r'⟩, hs, hp⟩ := Option.map_eq_some_iff.1 h
    obtain ⟨rfl, rfl⟩ := Prod.mk.inj hp
    obtain ⟨rfl, rfl⟩ := hb
    refine utf8From_append (a := [c]) ?_ (ih hs)
    simp only [utf8From, Tail.step, lead_unescape hc, decide_true]
  | case15 t b w hq hb hlt t' ht ih =>
    obtain ⟨⟨s', r'⟩, hs, hp⟩ := Option.map_eq_some_iff.1 h
    obtain ⟨rfl, rfl⟩ := Prod.mk.inj hp
    rw [List.singleton_append, utf8From, ht]
    exact ih hs
  | _ => simp at h

/-- A value whose strings are texts of whole characters, the names of members apart. -/
inductive Value.Whole : Value → Prop
  | null : Whole .null
  | bool (b : Bool) : Whole (.bool b)
  | num (text : Bytes) : Whole (.num text)
  | str {s : Bytes} (h : validUtf8 s = true) : Whole (.str s)
  | arr {items : List Value} (h : ∀ v ∈ items, Whole v) : Whole (.arr items)
  | obj {members : List (Bytes × Value)} (h : ∀ m ∈ members, Whole m.2) : Whole (.obj members)

/-- The same of what there is to read. -/
def Part.Whole : Part → Prop
  | .value v => v.Whole
  | .items vs => ∀ v ∈ vs, v.Whole
  | .members ms => ∀ m ∈ ms, m.2.Whole

theorem whole_literal {c : UInt8} {text : Bytes} {v : Value} (h : literal c = some (text, v)) :
    v.Whole := by
  unfold literal at h
  split_ifs at h
  all_goals
    obtain ⟨rfl, rfl⟩ := Prod.mk.inj (Option.some.inj h)
    constructor

theorem Reads.whole {w r : Bytes} {x : Part} (h : Reads w x r) : x.Whole := by
  induction h with
  | str hw h => exact .str (utf8From_readStr h)
  | emptyObj hw hs => exact .obj (by simp)
  | obj hw hs hc h ih => exact .obj ih
  | emptyArr hw hs => exact .arr (by simp)
  | arr hw hs hc h ih => exact .arr ih
  | word hw hword h => exact whole_literal hword
  | num hw hc h => exact .num _
  | lastItem hv hs ih => exact List.forall_mem_singleton.2 ih
  | item hv hs h ihv ih => exact List.forall_mem_cons.2 ⟨ihv, ih⟩
  | lastMember hk hv hs ih => exact List.forall_mem_singleton.2 ih
  | member hk hv hs h ihv ih => exact List.forall_mem_cons.2 ⟨ihv, ih⟩

/-- **The strings of a text that parses are whole.** -/
theorem whole_of_parse {w : Bytes} {v : Value} (h : parse w = some v) : v.Whole := by
  obtain ⟨r, hr, -⟩ := parse_iff.1 h
  exact hr.whole

/-! ### What is looked up in it -/

theorem Value.Whole.get {v v' : Value} {key : Bytes} (h : v.Whole) (hv : v.get key = some v') :
    v'.Whole := by
  cases h with
  | obj hmem =>
    obtain ⟨m, hm, rfl⟩ := Option.map_eq_some_iff.1 hv
    exact hmem m (List.mem_of_find?_eq_some hm)
  | _ => simp [Value.get] at hv

theorem Value.Whole.textOf {o : Option Value} (h : ∀ v, o = some v → v.Whole) :
    validUtf8 (textOf o) = true := by
  cases o with
  | none => rfl
  | some v =>
    cases h v rfl with
    | str hs => exact hs
    | _ => rfl

/-- A string member of a value. -/
theorem Value.Whole.text {v : Value} (h : v.Whole) (key : Bytes) :
    validUtf8 (Json.textOf (v.get key)) = true := Value.Whole.textOf fun _ hv => h.get hv

end Json
end S2S
