/-
# What the threads did

The moves of an interleaving, in order (`Traces`): who did what, and what it
gave back.  A thread heeds a rule `may` when each of its actions is permitted by
the moves before it (`Heeds`), and a rule that only asks for moves to have
happened is not broken by what others do in between: then every move of the
thread was permitted (`Traces.permitted`).
-/

import Mathlib.Data.List.Basic
import S2S.Thread.Program

namespace S2S
namespace Thread

variable {ι A : Type} {I R : A → Type} {σ : Type}

/-- One action of a thread, and what it gave back. -/
structure Move (ι A : Type) (R : A → Type) where
  thread : ι
  action : A
  result : R action

section Traces

variable [DecidableEq ι] (S : System ι A I R σ)

/-- What the threads can reach, with the moves that lead there. -/
inductive Traces : Config ι A R σ → List (Move ι A R) → Prop
  | start : Traces S.start []
  | act {c : Config ι A R σ} {trace : List (Move ι A R)} (h : Traces c trace) {i : ι} {a : A}
      {next : R a → Prog A R Bool} (hprog : c.prog i = .act a next) {x : I a} {r : R a} {m : σ}
      (hexec : S.exec i a x c.mem = some (r, m)) :
      Traces ⟨m, Function.update c.prog i (next r)⟩ (trace ++ [⟨i, a, r⟩])
  | again {c : Config ι A R σ} {trace : List (Move ι A R)} (h : Traces c trace) {i : ι}
      (hprog : c.prog i = .done true) : Traces ⟨c.mem, Function.update c.prog i (S.body i)⟩ trace

variable {S}

theorem Traces.reaches {c : Config ι A R σ} {trace : List (Move ι A R)} (h : Traces S c trace) :
    Reaches S c := by
  induction h with
  | start => exact .start
  | act _ hprog hexec ih => exact ih.act hprog hexec
  | again _ hprog ih => exact ih.again hprog

end Traces

/-! ### Rules about the moves before -/

/-- Thread `i`, having seen `trace`, goes on as the rule `may` permits. -/
inductive Heeds (i : ι) (may : List (Move ι A R) → A → Prop) {α : Type} :
    List (Move ι A R) → Prog A R α → Prop
  | done {trace : List (Move ι A R)} {value : α} : Heeds i may trace (.done value)
  | act {trace : List (Move ι A R)} {a : A} {next : R a → Prog A R α} (permitted : may trace a)
      (rest : ∀ r, Heeds i may (trace ++ [⟨i, a, r⟩]) (next r)) : Heeds i may trace (.act a next)

/-- A rule that more moves do not break. -/
def Lasting (may : List (Move ι A R) → A → Prop) : Prop :=
  ∀ ⦃trace trace' : List (Move ι A R)⦄ ⦃a : A⦄, trace ⊆ trace' → may trace a → may trace' a

section Heeds

variable {i : ι} {may : List (Move ι A R) → A → Prop} (hlasting : Lasting may) {α β : Type}
include hlasting

theorem Heeds.mono {trace trace' : List (Move ι A R)} {p : Prog A R α} (h : Heeds i may trace p)
    (hsub : trace ⊆ trace') : Heeds i may trace' p := by
  induction h generalizing trace' with
  | done => exact .done
  | act permitted _ ih =>
    exact .act (hlasting hsub permitted) fun r => ih r (List.append_subset.2
      ⟨List.Subset.trans hsub (List.subset_append_left _ _), List.subset_append_right _ _⟩)

/-- One program, then the other. -/
theorem Heeds.bind {trace : List (Move ι A R)} {p : Prog A R α} (h : Heeds i may trace p)
    {f : α → Prog A R β} (hf : ∀ value, Heeds i may trace (f value)) :
    Heeds i may trace (p >>= f) := by
  induction h with
  | done => exact hf _
  | act permitted _ ih =>
    exact .act permitted fun r => ih r fun value =>
      (hf value).mono hlasting (List.subset_append_left _ _)

variable [DecidableEq ι] {S : System ι A I R σ}

theorem Traces.heeds (hbody : Heeds i may [] (S.body i)) {c : Config ι A R σ}
    {trace : List (Move ι A R)} (h : Traces S c trace) : Heeds i may trace (c.prog i) := by
  induction h with
  | start => exact hbody
  | @act c trace _ j a next hprog x r m hexec ih =>
    by_cases hij : i = j
    · subst hij
      rw [hprog] at ih
      cases ih with
      | act _ rest => simpa using rest r
    · simpa [hij] using ih.mono hlasting (List.subset_append_left _ _)
  | @again c trace _ j hprog ih =>
    by_cases hij : i = j
    · subst hij
      simpa using hbody.mono hlasting (List.nil_subset _)
    · simpa [hij] using ih

/-- **Every move of a thread that heeds a rule was permitted by the moves before it.** -/
theorem Traces.permitted (hbody : Heeds i may [] (S.body i)) {c : Config ι A R σ}
    {trace : List (Move ι A R)} (h : Traces S c trace) :
    ∀ before move after, trace = before ++ move :: after → move.thread = i →
      may before move.action := by
  induction h with
  | start => intro before move after hsplit
             simp at hsplit
  | @act c trace htrace j a next hprog x r m hexec ih =>
    intro before move after hsplit hthread
    rcases List.eq_nil_or_concat' after with rfl | ⟨after, last, rfl⟩
    · obtain ⟨rfl, hmove⟩ := List.append_inj' hsplit rfl
      obtain rfl := (List.cons.inj hmove).1
      obtain rfl : j = i := hthread
      have hheeds := htrace.heeds hlasting hbody
      rw [hprog] at hheeds
      cases hheeds with
      | act permitted _ => exact permitted
    · rw [← List.cons_append, ← List.append_assoc] at hsplit
      exact ih before move after (List.append_inj' hsplit rfl).1 hthread
  | again _ _ ih => exact ih

end Heeds

end Thread
end S2S
