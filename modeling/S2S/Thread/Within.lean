/-
# Interleavings kept to a condition

What the threads can reach when every configuration they step from is one where
`ok` holds (`Within`).  The condition may be on the memory and on where each
thread stands, so it can say that two stretches of two threads do not overlap.

`playWithin` runs a schedule that keeps to it.
-/

import Mathlib.Tactic.SplitIfs
import S2S.Thread.Program

namespace S2S
namespace Thread

variable {ι A : Type} {I R : A → Type} {σ : Type} [DecidableEq ι]

section Within

variable (S : System ι A I R σ) (ok : Config ι A R σ → Prop)

/-- **What the threads can reach** by steps from where `ok` holds. -/
inductive Within : Config ι A R σ → Prop
  | start : Within S.start
  | act {c : Config ι A R σ} (h : Within c) (hok : ok c) {i : ι} {a : A}
      {next : R a → Prog A R Bool} (hprog : c.prog i = .act a next) {x : I a} {r : R a} {m : σ}
      (hexec : S.exec i a x c.mem = some (r, m)) : Within ⟨m, Function.update c.prog i (next r)⟩
  | again {c : Config ι A R σ} (h : Within c) (hok : ok c) {i : ι} (hprog : c.prog i = .done true) :
      Within ⟨c.mem, Function.update c.prog i (S.body i)⟩

end Within

variable {S : System ι A I R σ}

theorem Within.reaches {ok : Config ι A R σ → Prop} {c : Config ι A R σ} (h : Within S ok c) :
    Reaches S c := by
  induction h with
  | start => exact .start
  | act _ _ hprog hexec ih => exact ih.act hprog hexec
  | again _ _ hprog ih => exact ih.again hprog

/-! ### Schedules -/

variable (S) (ok : Config ι A R σ → Bool)

/-- A schedule that steps from where `ok` holds only. -/
def playWithin (c : Config ι A R σ) : List (ι × ((a : A) → I a)) → Option (Config ι A R σ)
  | [] => some c
  | (i, input) :: rest =>
    if ok c then
      match advance S c i input with
      | none => none
      | some c' => playWithin c' rest
    else none

variable {S} {ok}

theorem Within.advance {c c' : Config ι A R σ} (h : Within S (fun c => ok c = true) c)
    (hok : ok c = true) {i : ι} {input : (a : A) → I a}
    (hstep : Thread.advance S c i input = some c') : Within S (fun c => ok c = true) c' := by
  unfold Thread.advance at hstep
  split at hstep
  · rename_i hprog
    obtain rfl := Option.some.inj hstep
    exact h.again hok hprog
  · simp at hstep
  · rename_i a next hprog
    cases hexec : S.exec i a (input a) c.mem with
    | none => simp [hexec] at hstep
    | some rm =>
      obtain ⟨r, m⟩ := rm
      rw [hexec] at hstep
      obtain rfl := Option.some.inj hstep
      exact h.act hok hprog hexec

/-- **What such a schedule plays is reached.** -/
theorem Within.play {c c' : Config ι A R σ} (h : Within S (fun c => ok c = true) c)
    {schedule : List (ι × ((a : A) → I a))} (hplay : playWithin S ok c schedule = some c') :
    Within S (fun c => ok c = true) c' := by
  induction schedule generalizing c with
  | nil => exact Option.some.inj hplay ▸ h
  | cons step rest ih =>
    obtain ⟨i, input⟩ := step
    rw [playWithin] at hplay
    split_ifs at hplay with hok
    cases hstep : Thread.advance S c i input with
    | none => simp [hstep] at hplay
    | some c₁ =>
      rw [hstep] at hplay
      exact ih (h.advance hok hstep) hplay

end Thread
end S2S
