/-
# Characters of a UTF-8 text

What `sentence_decode` reads of a text that is UTF-8: whole characters
(`Whole`), one after the other, nothing else (`characters_of_validUtf8`).  A
whole character reads alike whatever follows it, so a list of them is what its
bytes decode to (`characters_flatMap`); only ASCII has bytes below `0x80`, one a
character, so a byte the splitter looks for is never part of another one.

On the encoding of a code point the decoder gives the code point back
(`sentenceDecode_utf8Encode`).
-/

import S2S.Split.Sentence

namespace S2S
namespace Split

open Json

/-! ### Bytes -/

theorem forall_byte {p : UInt8 → Prop} (h : ∀ n : Fin 256, p (UInt8.ofNat n)) (b : UInt8) : p b := by
  have := h ⟨b.toNat, b.toNat_lt⟩
  rwa [UInt8.ofNat_toNat] at this

theorem decodeNext_eq (cp : ℕ) (next : UInt8) : decodeNext cp next = cp * 64 + next.toNat % 64 := by
  have hnext : (next &&& 0x3F).toNat = next.toNat % 64 := by
    rw [UInt8.toNat_and]
    exact Nat.and_two_pow_sub_one_eq_mod next.toNat 6
  rw [decodeNext, hnext, ← Nat.shiftLeft_add_eq_or_of_lt (Nat.mod_lt _ (by decide)),
    Nat.shiftLeft_eq]

/-- What a first byte announces, against what UTF-8 says it owes. -/
def leadAgrees (b : UInt8) : Bool :=
  match lead b with
  | none => true
  | some .done => sentenceLength b == 1 && decide (b < 0x80)
  | some (.owed n r) =>
    sentenceLength b == n + 2 && decide (0x80 ≤ b) &&
      match n with
      | 0 => decide (2 ≤ sentenceLead 2 b)
      | n + 1 => decide (1 ≤ sentenceLead (n + 3) b) || decide (r = .fromA0) || decide (r = .from90)

theorem leadAgrees_all (b : UInt8) : leadAgrees b = true := by
  revert b
  exact forall_byte (by decide +kernel)

theorem continues_of_range :
    ∀ b : UInt8, 0x80 ≤ b → b ≤ 0xBF → continues b = true :=
  forall_byte (by decide +kernel)

/-- The second byte of a form that is not the shortest is out of range. -/
theorem second_high : ∀ b : UInt8,
    (0xA0 ≤ b → b ≤ 0xBF → 0x20 ≤ b.toNat % 64) ∧ (0x90 ≤ b → b ≤ 0xBF → 0x10 ≤ b.toNat % 64) :=
  forall_byte (by decide +kernel)

theorem Second.hi_le (r : Second) : r.hi ≤ 0xBF := by cases r <;> decide

/-! ### One character -/

/-- **A whole character**, with its code point: bytes that read alike whatever follows them, and
that are below `0x80` in ASCII only. -/
structure Whole (c : ℕ × Bytes) : Prop where
  decode : ∀ rest, sentenceDecode (c.2 ++ rest) = (c.1, c.2.length)
  nonempty : c.2 ≠ []
  ascii : c.1 < 0x80 → c.2 = [UInt8.ofNat c.1]
  high : 0x80 ≤ c.1 → ∀ b ∈ c.2, 0x80 ≤ b

theorem whole_ascii {b : UInt8} (h : b < 0x80) : Whole (b.toNat, [b]) where
  decode rest := by simp [sentenceDecode, sentenceLength, sentenceLead, h]
  nonempty := by simp
  ascii _ := by simp
  high hhigh := absurd (UInt8.lt_iff_toNat_lt.1 h) (Nat.not_lt.2 hhigh)

/-- What is owed comes first: continuation bytes, the first of them within the range. -/
theorem utf8From_owed {n : ℕ} {r : Second} {s : Bytes} (h : utf8From (.owed n r) s = true) :
    ∃ next tail rest, s = next :: tail ++ rest ∧ tail.length = n ∧ r.lo ≤ next ∧ next ≤ r.hi ∧
      (∀ b ∈ tail, 0x80 ≤ b ∧ b ≤ 0xBF) ∧ validUtf8 rest = true := by
  induction n generalizing r s with
  | zero =>
    cases s with
    | nil => simp [utf8From] at h
    | cons next rest =>
      rw [utf8From, Tail.step] at h
      split_ifs at h with hr
      exact ⟨next, [], rest, rfl, rfl, hr.1, hr.2, by simp, h⟩
  | succ n ih =>
    cases s with
    | nil => simp [utf8From] at h
    | cons next s =>
      rw [utf8From, Tail.step] at h
      split_ifs at h with hr
      obtain ⟨next', tail, rest, rfl, hlength, hlo, hhi, htail, hrest⟩ := ih h
      refine ⟨next, next' :: tail, rest, rfl, by simp [hlength], hr.1, hr.2, ?_, hrest⟩
      intro b hb
      rcases List.mem_cons.1 hb with rfl | hb
      · exact ⟨hlo, hhi⟩
      · exact htail b hb

theorem le_foldl_next (cp : ℕ) (tail : Bytes) :
    cp ≤ tail.foldl decodeNext cp := by
  induction tail generalizing cp with
  | nil => exact le_rfl
  | cons next tail ih =>
    refine le_trans ?_ (ih (decodeNext cp next))
    rw [decodeNext_eq]
    omega

/-- **A text that is UTF-8 starts with a whole character**, and goes on as UTF-8. -/
theorem exists_whole {b : UInt8} {s : Bytes} (h : validUtf8 (b :: s) = true) :
    ∃ c rest, Whole c ∧ b :: s = c.2 ++ rest ∧ validUtf8 rest = true := by
  rw [validUtf8, utf8From, Tail.step] at h
  have hagrees := leadAgrees_all b
  rw [leadAgrees] at hagrees
  cases hlead : lead b with
  | none => simp [hlead] at h
  | some t =>
    rw [hlead] at h hagrees
    dsimp only at h hagrees
    cases t with
    | done =>
      simp only [Bool.and_eq_true, decide_eq_true_eq] at hagrees
      exact ⟨(b.toNat, [b]), s, whole_ascii hagrees.2, rfl, h⟩
    | owed n r =>
      simp only [Bool.and_eq_true, beq_iff_eq, decide_eq_true_eq] at hagrees
      obtain ⟨⟨hlength, hb⟩, hlow⟩ := hagrees
      obtain ⟨next, tail, rest, rfl, htail, hlo, hhi, hrange, hrest⟩ := utf8From_owed h
      have hall : (next :: tail).all continues = true := by
        rw [List.all_eq_true]
        intro b hb
        rcases List.mem_cons.1 hb with rfl | hb
        · exact continues_of_range _ (UInt8.le_trans r.le_lo hlo) (UInt8.le_trans hhi (Second.hi_le r))
        · exact continues_of_range b (hrange b hb).1 (hrange b hb).2
      refine ⟨((next :: tail).foldl decodeNext (sentenceLead (n + 2) b), b :: next :: tail), rest,
        ?_, by simp, hrest⟩
      have hcp : 0x80 ≤ (next :: tail).foldl decodeNext (sentenceLead (n + 2) b) := by
        rw [List.foldl_cons]
        cases n with
        | zero =>
          have hlead' : 2 ≤ sentenceLead (0 + 2) b := by simpa using hlow
          refine le_trans ?_ (le_foldl_next _ tail)
          rw [decodeNext_eq]
          omega
        | succ n =>
          obtain ⟨next', tail, rfl⟩ := List.exists_cons_of_length_eq_add_one htail
          rw [List.foldl_cons]
          refine le_trans ?_ (le_foldl_next _ tail)
          have hnext : 2 ≤ decodeNext (sentenceLead (n + 1 + 2) b) next := by
            rw [decodeNext_eq]
            simp only [Bool.or_eq_true, decide_eq_true_eq] at hlow
            rcases hlow with (hlow | rfl) | rfl
            · have : 1 ≤ sentenceLead (n + 1 + 2) b := hlow
              omega
            · have := (second_high next).1 hlo hhi
              omega
            · have := (second_high next).2 hlo hhi
              omega
          rw [decodeNext_eq]
          omega
      refine ⟨fun rest => ?_, by simp, fun hlt => absurd hlt (Nat.not_lt.2 hcp), fun _ => ?_⟩
      · rw [List.cons_append, sentenceDecode]
        dsimp only
        rw [hlength]
        have htake : (next :: tail ++ rest).take (n + 2 - 1) = next :: tail :=
          List.take_left' (by simp [htail])
        rw [if_neg (by simp [htail]), htake, if_pos hall]
        simp [htail]
      · intro b' hb'
        rcases List.mem_cons.1 hb' with rfl | hb'
        · exact hb
        · rcases List.mem_cons.1 hb' with rfl | hb'
          · exact UInt8.le_trans r.le_lo hlo
          · exact (hrange b' hb').1

/-! ### Texts -/

/-- The bytes of a list of characters. -/
abbrev bytesOf (cs : List (ℕ × Bytes)) : Bytes := cs.flatMap Prod.snd

theorem characters_nil : characters [] = [] := by rw [characters, if_pos rfl]

theorem characters_append {c : ℕ × Bytes} (h : Whole c) (rest : Bytes) :
    characters (c.2 ++ rest) = c :: characters rest := by
  rw [characters, if_neg (by simp [h.nonempty]), h.decode]
  simp

/-- **A list of whole characters is what its bytes read as.** -/
theorem characters_bytesOf {cs : List (ℕ × Bytes)} (h : ∀ c ∈ cs, Whole c) :
    characters (bytesOf cs) = cs := by
  induction cs with
  | nil => exact characters_nil
  | cons c cs ih =>
    obtain ⟨hc, hcs⟩ := List.forall_mem_cons.1 h
    rw [bytesOf, List.flatMap_cons, characters_append hc, ih hcs]

/-- **A text that is UTF-8 is its characters, all whole.** -/
theorem exists_characters {text : Bytes} (h : validUtf8 text = true) :
    ∃ cs, (∀ c ∈ cs, Whole c) ∧ text = bytesOf cs := by
  induction hn : text.length using Nat.strong_induction_on generalizing text with
  | _ n ih =>
    cases text with
    | nil => exact ⟨[], by simp, rfl⟩
    | cons b s =>
      obtain ⟨c, rest, hc, heq, hrest⟩ := exists_whole h
      have hlt : rest.length < n := by
        have := List.length_pos_of_ne_nil hc.nonempty
        rw [← hn, heq, List.length_append]
        omega
      obtain ⟨cs, hcs, rfl⟩ := ih rest.length hlt hrest rfl
      exact ⟨c :: cs, List.forall_mem_cons.2 ⟨hc, hcs⟩, heq⟩

/-! ### What an encoding decodes to -/

theorem lead_utf8Encode : (∀ k < 0x20, sentenceLength (UInt8.ofNat (0xC0 + k)) = 2 ∧
      sentenceLead 2 (UInt8.ofNat (0xC0 + k)) = k) ∧
    (∀ k < 0x10, sentenceLength (UInt8.ofNat (0xE0 + k)) = 3 ∧
      sentenceLead 3 (UInt8.ofNat (0xE0 + k)) = k) ∧
    ∀ k < 0x08, sentenceLength (UInt8.ofNat (0xF0 + k)) = 4 ∧
      sentenceLead 4 (UInt8.ofNat (0xF0 + k)) = k := by
  decide +kernel

theorem next_utf8Encode : ∀ k < 0x40, continues (UInt8.ofNat (0x80 + k)) = true ∧
    (UInt8.ofNat (0x80 + k)).toNat % 64 = k := by
  decide +kernel

/-- **The decoder reads a code point back from its encoding**, whatever follows. -/
theorem sentenceDecode_utf8Encode {n : ℕ} (h : n < 0x110000) (rest : Bytes) :
    sentenceDecode (utf8Encode n ++ rest) = (n, (utf8Encode n).length) := by
  obtain ⟨htwo, hthree, hfour⟩ := lead_utf8Encode
  have hnext : ∀ k, continues (UInt8.ofNat (0x80 + k % 0x40)) = true ∧
      (UInt8.ofNat (0x80 + k % 0x40)).toNat % 64 = k % 0x40 :=
    fun k => next_utf8Encode _ (Nat.mod_lt _ (by decide))
  unfold utf8Encode
  split_ifs with h1 h2 h3
  · have hlt : UInt8.ofNat n < 0x80 := by
      rw [UInt8.lt_iff_toNat_lt, UInt8.toNat_ofNat']
      exact lt_of_le_of_lt (Nat.mod_le _ _) h1
    have hval : (UInt8.ofNat n).toNat = n := by
      rw [UInt8.toNat_ofNat']
      omega
    have := (whole_ascii hlt).decode rest
    rwa [hval] at this
  · obtain ⟨hlength, hlead⟩ := htwo (n / 0x40) (by omega)
    simp only [List.cons_append, List.nil_append, sentenceDecode, hlength, hlead, decodeNext_eq,
      (hnext n).1, (hnext n).2, List.take_succ_cons, List.take_zero, List.all_cons, List.all_nil,
      List.foldl_cons, List.foldl_nil, List.length_cons, List.length_nil]
    rw [if_neg (by omega), if_pos (by simp)]
    exact Prod.ext (by omega) rfl
  · obtain ⟨hlength, hlead⟩ := hthree (n / 0x1000) (by omega)
    simp only [List.cons_append, List.nil_append, sentenceDecode, hlength, hlead, decodeNext_eq,
      (hnext n).1, (hnext n).2, (hnext (n / 0x40)).1, (hnext (n / 0x40)).2, List.take_succ_cons,
      List.take_zero, List.all_cons, List.all_nil, List.foldl_cons, List.foldl_nil,
      List.length_cons, List.length_nil]
    rw [if_neg (by omega), if_pos (by simp)]
    exact Prod.ext (by omega) rfl
  · obtain ⟨hlength, hlead⟩ := hfour (n / 0x40000) (by omega)
    simp only [List.cons_append, List.nil_append, sentenceDecode, hlength, hlead, decodeNext_eq,
      (hnext n).1, (hnext n).2, (hnext (n / 0x40)).1, (hnext (n / 0x40)).2, (hnext (n / 0x1000)).1,
      (hnext (n / 0x1000)).2, List.take_succ_cons, List.take_zero, List.all_cons, List.all_nil,
      List.foldl_cons, List.foldl_nil, List.length_cons, List.length_nil]
    rw [if_neg (by omega), if_pos (by simp)]
    exact Prod.ext (by omega) rfl

end Split
end S2S
