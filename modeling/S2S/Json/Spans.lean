/-
# What a reader goes over

A reader that accepts a text has gone over each of its bytes, and none of the
bytes it goes over is zero (`Spans`).  What it leaves is no longer than what it
was given, and shorter once it has read a number or a character (`lt_of_readNumber`,
`length_of_skipWs`).
-/

import S2S.Json.Read

namespace S2S
namespace Json

/-- What a reader went over on its way from `w` to `r`, no zero byte in it. -/
def Spans (w r : Bytes) : Prop := ∃ p, w = p ++ r ∧ (0 : UInt8) ∉ p

theorem Spans.refl (w : Bytes) : Spans w w := ⟨[], rfl, by simp⟩

theorem Spans.trans {w s r : Bytes} (h : Spans w s) (h' : Spans s r) : Spans w r := by
  obtain ⟨p, rfl, hp⟩ := h
  obtain ⟨q, rfl, hq⟩ := h'
  exact ⟨p ++ q, (List.append_assoc p q r).symm, by simp [hp, hq]⟩

theorem Spans.cons {b : UInt8} {w r : Bytes} (hb : b ≠ 0) (h : Spans w r) : Spans (b :: w) r := by
  obtain ⟨p, rfl, hp⟩ := h
  exact ⟨b :: p, rfl, by simp [hp, hb.symm]⟩

theorem Spans.one {b : UInt8} (hb : b ≠ 0) (w : Bytes) : Spans (b :: w) w := (Spans.refl w).cons hb

theorem Spans.length_le {w r : Bytes} (h : Spans w r) : r.length ≤ w.length := by
  obtain ⟨p, rfl, -⟩ := h
  simp

/-! ### The pieces -/

theorem spans_skipWs (w : Bytes) : Spans w (skipWs w) := by
  induction w with
  | nil => exact Spans.refl []
  | cons b w ih =>
    rw [skipWs]
    split_ifs with hb
    · refine ih.cons ?_
      rintro rfl
      exact absurd hb (by decide)
    · exact Spans.refl _

theorem spans_of_skipWs {w r : Bytes} {c : UInt8} (h : skipWs w = c :: r) (hc : c ≠ 0) :
    Spans w r :=
  (h ▸ spans_skipWs w).trans (Spans.one hc r)

theorem length_of_skipWs {w s : Bytes} {c : UInt8} (h : skipWs w = c :: s) :
    s.length + 1 ≤ w.length := by
  simpa [h] using (spans_skipWs w).length_le

theorem hexDigit_zero : hexDigit 0 = none := by decide

theorem hex4_ne_zero {a b c d : UInt8} {n : ℕ} (h : hex4 a b c d = some n) :
    a ≠ 0 ∧ b ≠ 0 ∧ c ≠ 0 ∧ d ≠ 0 := by
  simp only [hex4, Option.bind_eq_bind, Option.bind_eq_some_iff] at h
  obtain ⟨a', ha, b', hb, c', hc, d', hd, -⟩ := h
  refine ⟨?_, ?_, ?_, ?_⟩ <;> (rintro rfl; simp [hexDigit_zero] at *)

theorem spans_readStr {t : Tail} {w s r : Bytes} (h : readStr t w = some (s, r)) : Spans w r := by
  fun_induction readStr t w generalizing s r with
  | case2 t b w hq =>
    obtain ⟨rfl, rfl⟩ := hq
    obtain ⟨rfl, rfl⟩ : s = [] ∧ r = w := by simpa [eq_comm] using h
    exact Spans.one (by decide) _
  | case4 t b hq hb a b' c d w n hx hn ih =>
    obtain ⟨⟨s', r'⟩, hs, hp⟩ := Option.map_eq_some_iff.1 h
    obtain ⟨rfl, rfl⟩ := Prod.mk.inj hp
    obtain ⟨rfl, rfl⟩ := hb
    obtain ⟨h₁, h₂, h₃, h₄⟩ := hex4_ne_zero hx
    exact ((((((ih hs).cons h₄).cons h₃).cons h₂).cons h₁).cons (by decide)).cons (by decide)
  | case8 t b hq hb a b' c d hi hx h1 h2 a₂ b₂ c₂ d₂ w lo hx' h3 ih =>
    obtain ⟨⟨s', r'⟩, hs, hp⟩ := Option.map_eq_some_iff.1 h
    obtain ⟨rfl, rfl⟩ := Prod.mk.inj hp
    obtain ⟨rfl, rfl⟩ := hb
    obtain ⟨h₁, h₂, h₃, h₄⟩ := hex4_ne_zero hx
    obtain ⟨g₁, g₂, g₃, g₄⟩ := hex4_ne_zero hx'
    have hlow := ((((((ih hs).cons g₄).cons g₃).cons g₂).cons g₁).cons (b := 0x75)
      (by decide)).cons (b := 0x5C) (by decide)
    exact (((((hlow.cons h₄).cons h₃).cons h₂).cons h₁).cons (by decide)).cons (by decide)
  | case11 t b hq hb e w hne c hc ih =>
    obtain ⟨⟨s', r'⟩, hs, hp⟩ := Option.map_eq_some_iff.1 h
    obtain ⟨rfl, rfl⟩ := Prod.mk.inj hp
    obtain ⟨rfl, rfl⟩ := hb
    refine ((ih hs).cons ?_).cons (by decide)
    rintro rfl
    exact absurd hc (by simp [unescape, quote, backslash])
  | case15 t b w hq hb hlt t' ht ih =>
    obtain ⟨⟨s', r'⟩, hs, hp⟩ := Option.map_eq_some_iff.1 h
    obtain ⟨rfl, rfl⟩ := Prod.mk.inj hp
    refine (ih hs).cons ?_
    rintro rfl
    exact hlt (by decide)
  | _ => simp at h

theorem spans_expect {word w r : Bytes} (h0 : (0 : UInt8) ∉ word) (h : expect word w = some r) :
    Spans w r := by
  induction word generalizing w with
  | nil =>
    obtain rfl : w = r := by simpa [expect] using h
    exact Spans.refl w
  | cons c word ih =>
    cases w with
    | nil => simp [expect] at h
    | cons b w =>
      rw [expect] at h
      split_ifs at h with hb
      subst hb
      obtain ⟨hc, hword⟩ := not_or.1 (fun hor => h0 (List.mem_cons.2 hor))
      exact (ih hword h).cons (Ne.symm hc)

theorem spans_digits1 {w d r : Bytes} (h : digits1 w = some (d, r)) : Spans w r := by
  unfold digits1 at h
  split_ifs at h
  obtain ⟨rfl, rfl⟩ := Prod.mk.inj (Option.some.inj h)
  refine ⟨w.takeWhile isDigit, List.takeWhile_append_dropWhile.symm, fun h0 => ?_⟩
  exact absurd (List.mem_takeWhile_imp h0) (by decide)

theorem spans_readInt {w d r : Bytes} (h : readInt w = some (d, r)) : Spans w r := by
  unfold readInt at h
  split at h
  · simp at h
  · split_ifs at h
    obtain rfl := Option.some.inj h
    exact spans_digits1 ‹_›

theorem spans_readFrac {w d r : Bytes} (h : readFrac w = some (d, r)) : Spans w r := by
  unfold readFrac at h
  split at h
  · obtain ⟨⟨d', r'⟩, hd, hp⟩ := Option.map_eq_some_iff.1 h
    obtain ⟨rfl, rfl⟩ := Prod.mk.inj hp
    exact (spans_digits1 hd).cons (by decide)
  · obtain ⟨rfl, rfl⟩ := Prod.mk.inj (Option.some.inj h)
    exact Spans.refl _

theorem spans_readExp {w d r : Bytes} (h : readExp w = some (d, r)) : Spans w r := by
  unfold readExp at h
  split at h
  · obtain ⟨rfl, rfl⟩ := Prod.mk.inj (Option.some.inj h)
    exact Spans.refl _
  · rename_i e s
    split_ifs at h with he
    · have he0 : e ≠ 0 := by
        rintro rfl
        exact absurd he (by decide)
      split at h
      · simp at h
      · rename_i g s'
        split_ifs at h with hg
        all_goals
          obtain ⟨⟨d', r'⟩, hd, hp⟩ := Option.map_eq_some_iff.1 h
          obtain ⟨rfl, rfl⟩ := Prod.mk.inj hp
        · have hg0 : g ≠ 0 := by
            rintro rfl
            exact absurd hg (by decide)
          exact ((spans_digits1 hd).cons hg0).cons he0
        · exact (spans_digits1 hd).cons he0
    · obtain ⟨rfl, rfl⟩ := Prod.mk.inj (Option.some.inj h)
      exact Spans.refl _

theorem spans_readUnsigned {w d r : Bytes} (h : readUnsigned w = some (d, r)) : Spans w r := by
  simp only [readUnsigned, Option.bind_eq_bind, Option.bind_eq_some_iff, Prod.exists] at h
  obtain ⟨int, s₁, h₁, frac, s₂, h₂, exp, s₃, h₃, hp⟩ := h
  split_ifs at hp
  obtain ⟨rfl, rfl⟩ := Prod.mk.inj (Option.some.inj hp)
  exact ((spans_readInt h₁).trans (spans_readFrac h₂)).trans (spans_readExp h₃)

theorem spans_readNumber {w d r : Bytes} (h : readNumber w = some (d, r)) : Spans w r := by
  cases w with
  | nil => simp [readNumber] at h
  | cons c w =>
    rw [readNumber] at h
    split_ifs at h with hc
    · obtain ⟨⟨d', r'⟩, hd, hp⟩ := Option.map_eq_some_iff.1 h
      obtain ⟨rfl, rfl⟩ := Prod.mk.inj hp
      exact (spans_readUnsigned hd).cons (by rw [hc]; decide)
    · exact spans_readUnsigned h

theorem spans_readKey {w k r : Bytes} (h : readKey w = some (k, r)) : Spans w r := by
  unfold readKey at h
  split at h
  · simp at h
  · rename_i c s hs
    split_ifs at h with hc
    split at h
    · simp at h
    · rename_i k' s' hk
      split at h
      · simp at h
      · rename_i d r' hd
        split_ifs at h with hcol
        obtain ⟨rfl, rfl⟩ := Prod.mk.inj (Option.some.inj h)
        have h₁ := spans_of_skipWs hs (by rw [hc]; decide)
        exact (h₁.trans (spans_readStr hk)).trans (spans_of_skipWs hd (by rw [hcol]; decide))

/-! ### Numbers take a byte at least -/

theorem lt_of_digits1 {w d r : Bytes} (h : digits1 w = some (d, r)) : r.length < w.length := by
  unfold digits1 at h
  split_ifs at h with hne
  obtain ⟨-, hr⟩ := Prod.mk.inj (Option.some.inj h)
  have hwhole := congrArg List.length (List.takeWhile_append_dropWhile (p := isDigit) (l := w))
  have hpos := List.length_pos_iff.2 hne
  rw [List.length_append] at hwhole
  change 0 < (w.takeWhile isDigit).length at hpos
  change w.dropWhile isDigit = r at hr
  rw [← hr]
  omega

theorem lt_of_readNumber {w d r : Bytes} (h : readNumber w = some (d, r)) :
    r.length < w.length := by
  have hunsigned : ∀ {w d r : Bytes}, readUnsigned w = some (d, r) → r.length < w.length := by
    intro w d r h
    simp only [readUnsigned, Option.bind_eq_bind, Option.bind_eq_some_iff, Prod.exists] at h
    obtain ⟨int, s₁, h₁, frac, s₂, h₂, exp, s₃, h₃, hp⟩ := h
    split_ifs at hp
    obtain ⟨rfl, rfl⟩ := Prod.mk.inj (Option.some.inj hp)
    have hfrac := (spans_readFrac h₂).length_le
    have hexp := (spans_readExp h₃).length_le
    unfold readInt at h₁
    split at h₁
    · simp at h₁
    · split_ifs at h₁
      obtain rfl := Option.some.inj h₁
      have hint := lt_of_digits1 ‹_›
      omega
  cases w with
  | nil => simp [readNumber] at h
  | cons c w =>
    rw [readNumber] at h
    split_ifs at h
    · obtain ⟨⟨d', r'⟩, hd, hp⟩ := Option.map_eq_some_iff.1 h
      have hr : r' = r := (Prod.mk.inj hp).2
      subst hr
      have := hunsigned hd
      rw [List.length_cons]
      omega
    · exact hunsigned h

end Json
end S2S
