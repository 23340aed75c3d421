/-
# A choice made in one pass

A loop keeps the best it has seen, and takes the next one unless the one it
keeps is better.  Where `better` ranks the elements, one way or the other for
any two of them, the loop ends on the one that no other is better than
(`mem_choose`), in whatever order they came (`choose_perm`).
-/

import Mathlib.Data.List.Perm.Basic

namespace S2S

variable {α : Type*} (better : α → α → Prop)

/-- One of any two elements of `S` is better, and better than what the other is better than. -/
structure Ranks (S : α → Prop) : Prop where
  irrefl : ∀ a, S a → ¬better a a
  trans : ∀ a b c, S a → S b → S c → better a b → better b c → better a c
  total : ∀ a b, S a → S b → a = b ∨ better a b ∨ better b a

variable [DecidableRel better]

/-- The next one comes. -/
def chooseStep (best : Option α) (x : α) : Option α :=
  match best with
  | none => some x
  | some b => if better b x then some b else some x

/-- The loop. -/
def choose (xs : List α) : Option α := xs.foldl (chooseStep better) none

variable {better}

theorem foldl_chooseStep {S : α → Prop} (h : Ranks better S) {xs : List α} (hxs : ∀ x ∈ xs, S x)
    {b : α} (hb : S b) : ∃ m, xs.foldl (chooseStep better) (some b) = some m ∧
      m ∈ b :: xs ∧ ∀ x ∈ b :: xs, x = m ∨ better m x := by
  induction xs generalizing b with
  | nil => exact ⟨b, rfl, List.mem_singleton.2 rfl, fun x hx => .inl (List.mem_singleton.1 hx)⟩
  | cons x xs ih =>
    have hx := hxs x (List.mem_cons_self ..)
    have hrest : ∀ y ∈ xs, S y := fun y hy => hxs y (List.mem_cons_of_mem _ hy)
    -- the one that is dropped is not better than the one that is kept
    have hstep : ∃ keep, S keep ∧ chooseStep better (some b) x = some keep ∧ keep ∈ [b, x] ∧
        ∀ y ∈ [b, x], y = keep ∨ better keep y := by
      by_cases hbetter : better b x
      · refine ⟨b, hb, if_pos hbetter, List.mem_cons_self .., fun y hy => ?_⟩
        rcases List.mem_cons.1 hy with rfl | hy
        · exact .inl rfl
        · rw [List.mem_singleton.1 hy]
          exact .inr hbetter
      · refine ⟨x, hx, if_neg hbetter, List.mem_cons_of_mem _ (List.mem_singleton.2 rfl),
          fun y hy => ?_⟩
        rcases List.mem_cons.1 hy with rfl | hy
        · rcases h.total y x hb hx with heq | hyx | hxy
          · exact .inl heq
          · exact absurd hyx hbetter
          · exact .inr hxy
        · exact .inl (List.mem_singleton.1 hy)
    obtain ⟨keep, hkeep, hchoose, hmem, hover⟩ := hstep
    obtain ⟨m, hm, hmmem, hmover⟩ := ih hrest hkeep
    have hS : ∀ y ∈ keep :: xs, S y := fun y hy =>
      (List.mem_cons.1 hy).elim (fun heq => heq ▸ hkeep) (hrest y)
    refine ⟨m, by rw [List.foldl_cons, hchoose, hm], ?_, fun y hy => ?_⟩
    · rcases List.mem_cons.1 hmmem with rfl | hmmem
      · exact List.mem_append_left xs hmem
      · exact List.mem_append_right [b, x] hmmem
    · have hsplit : y ∈ [b, x] ∨ y ∈ xs := List.mem_append.1 (show y ∈ [b, x] ++ xs from hy)
      rcases hsplit with hy | hy
      · rcases hover y hy with rfl | hky
        · exact hmover y (List.mem_cons_self ..)
        · have hSy : S y := by
            rcases List.mem_cons.1 hy with rfl | hy
            · exact hb
            · rwa [List.mem_singleton.1 hy]
          rcases hmover keep (List.mem_cons_self ..) with rfl | hmk
          · exact .inr hky
          · exact .inr (h.trans m keep y (hS m hmmem) hkeep hSy hmk hky)
      · exact hmover y (List.mem_cons_of_mem _ hy)

/-- **What is chosen**: the one that no other is better than. -/
theorem mem_choose {xs : List α} (h : Ranks better (· ∈ xs)) {m : α} :
    choose better xs = some m ↔ m ∈ xs ∧ ∀ x ∈ xs, x = m ∨ better m x := by
  have hchoose : xs = [] ∨ ∃ m, choose better xs = some m ∧ m ∈ xs ∧
      ∀ x ∈ xs, x = m ∨ better m x := by
    cases xs with
    | nil => exact .inl rfl
    | cons x xs =>
      exact .inr (foldl_chooseStep h (fun y hy => List.mem_cons_of_mem _ hy) (List.mem_cons_self ..))
  rcases hchoose with rfl | ⟨best, hbest, hmem, hover⟩
  · simp [choose]
  constructor
  · intro hm
    obtain rfl := Option.some.inj (hbest.symm.trans hm)
    exact ⟨hmem, hover⟩
  · rintro ⟨hm, hmover⟩
    rw [hbest]
    rcases hmover best hmem with heq | hbetter
    · exact congrArg some heq
    rcases hover m hm with heq | hworse
    · exact congrArg some heq.symm
    · exact absurd (h.trans m best m hm hmem hm hbetter hworse) (h.irrefl m hm)

theorem choose_eq_none {xs : List α} (h : Ranks better (· ∈ xs)) :
    choose better xs = none ↔ xs = [] := by
  cases xs with
  | nil => simp [choose]
  | cons x xs =>
    obtain ⟨m, hm, -⟩ := foldl_chooseStep h (fun y hy => List.mem_cons_of_mem _ hy)
      (List.mem_cons_self (a := x) (l := xs))
    have hsome : choose better (x :: xs) = some m := hm
    simp [hsome]

/-- **The order does not matter.** -/
theorem choose_perm {xs ys : List α} (h : Ranks better (· ∈ xs)) (hperm : xs.Perm ys) :
    choose better ys = choose better xs := by
  have hys : Ranks better (· ∈ ys) := by
    refine ⟨fun a ha => h.irrefl a (hperm.mem_iff.2 ha), fun a b c ha hb hc => ?_,
      fun a b ha hb => h.total a b (hperm.mem_iff.2 ha) (hperm.mem_iff.2 hb)⟩
    exact h.trans a b c (hperm.mem_iff.2 ha) (hperm.mem_iff.2 hb) (hperm.mem_iff.2 hc)
  refine Option.ext fun m => ?_
  rw [mem_choose h, mem_choose hys]
  simp only [hperm.mem_iff]

end S2S
