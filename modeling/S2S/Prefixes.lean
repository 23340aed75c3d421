/-
# A rule for each element, by what came before it

A history follows a rule when each of its elements does, given the ones before
it (`Each`).  A history that grows by one follows it when the old one does and
the new element too (`each_snoc`), so what is said about every place of a run is
proved one step at a time.
-/

import Mathlib.Data.List.Basic

namespace S2S

variable {α : Type}

/-- Where an element stands in a list that was just extended. -/
theorem split_snoc {l before after : List α} {e x : α} (h : l ++ [e] = before ++ x :: after) :
    (after = [] ∧ before = l ∧ x = e) ∨ ∃ after', after = after' ++ [e] ∧ l = before ++ x :: after' := by
  rcases List.eq_nil_or_concat after with rfl | ⟨after', y, rfl⟩
  · left
    obtain ⟨h₁, h₂⟩ := List.append_inj' h rfl
    exact ⟨rfl, h₁.symm, (List.cons.inj h₂).1.symm⟩
  · right
    rw [List.concat_eq_append, ← List.cons_append, ← List.append_assoc] at h
    obtain ⟨h₁, h₂⟩ := List.append_inj' h rfl
    obtain rfl := (List.cons.inj h₂).1
    exact ⟨after', List.concat_eq_append .., h₁⟩

/-- **Every element follows a rule**, given the elements before it. -/
def Each (Q : List α → α → Prop) (l : List α) : Prop :=
  ∀ before x after, l = before ++ x :: after → Q before x

variable {Q : List α → α → Prop} {l : List α}

theorem each_nil : Each Q [] := fun before x after h => by simp at h

/-- One element more. -/
theorem each_snoc {e : α} : Each Q (l ++ [e]) ↔ Each Q l ∧ Q l e := by
  constructor
  · intro h
    refine ⟨fun before x after hl => ?_, h l e [] rfl⟩
    exact h before x (after ++ [e]) (by rw [hl, List.append_assoc, List.cons_append])
  · rintro ⟨hl, he⟩ before x after hsplit
    rcases split_snoc hsplit with ⟨-, rfl, rfl⟩ | ⟨after', -, heq⟩
    · exact he
    · exact hl before x after' heq

end S2S
