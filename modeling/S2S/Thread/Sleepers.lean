/-
# Threads that sleep

A condition variable over threads.  An action may put its thread to sleep, as its
result says; the thread goes on with an action that it takes only awake, and an
action of another thread wakes whoever sleeps (`CondVar`).  A thread that was woken
too early sleeps again, and one may wake by itself.

Who sleeps is kept beside the memory (`Rests`), so what holds of everything that
the threads reach holds here too (`Rests.reaches`); what is said of the sleepers is
proved step by step (`Course.rests`).
-/

import S2S.Thread.Monitor

namespace S2S
namespace Thread

variable {ι A : Type} {I R : A → Type} {σ : Type}

/-- How actions use a condition variable.  A thread that was woken before an action is `early` while
it does not find what it waits for. -/
structure CondVar (ι A : Type) (R : A → Type) (σ : Type) where
  sleeps : (a : A) → R a → Bool
  wakes : A → Bool
  notifies : A → Bool
  early : ι → A → σ → Bool

variable [DecidableEq ι]

/-- Who sleeps behind an action. -/
def CondVar.after (V : CondVar ι A R σ) (i : ι) (a : A) (r : R a) (asleep : ι → Bool) : ι → Bool :=
  if V.notifies a then fun _ => false
  else if V.sleeps a r then Function.update asleep i true
  else asleep

section System

variable (S : System ι A I R σ) (V : CondVar ι A R σ)

/-- **What the threads can reach, and who sleeps there.** -/
inductive Rests : Config ι A R σ → (ι → Bool) → Prop
  | start : Rests S.start fun _ => false
  | act {c : Config ι A R σ} {asleep : ι → Bool} (h : Rests c asleep) {i : ι} {a : A}
      {next : R a → Prog A R Bool} (hprog : c.prog i = .act a next)
      (hawake : V.wakes a = true → asleep i = false) {x : I a} {r : R a} {m : σ}
      (hexec : S.exec i a x c.mem = some (r, m)) :
      Rests ⟨m, Function.update c.prog i (next r)⟩ (V.after i a r asleep)
  | early {c : Config ι A R σ} {asleep : ι → Bool} (h : Rests c asleep) {i : ι} {a : A}
      {next : R a → Prog A R Bool} (hprog : c.prog i = .act a next) (hwakes : V.wakes a = true)
      (hawake : asleep i = false) (hearly : V.early i a c.mem = true) :
      Rests c (Function.update asleep i true)
  | stirs {c : Config ι A R σ} {asleep : ι → Bool} (h : Rests c asleep) (i : ι) :
      Rests c (Function.update asleep i false)
  | again {c : Config ι A R σ} {asleep : ι → Bool} (h : Rests c asleep) {i : ι}
      (hprog : c.prog i = .done true) :
      Rests ⟨c.mem, Function.update c.prog i (S.body i)⟩ asleep

end System

variable {S : System ι A I R σ} {V : CondVar ι A R σ} {c : Config ι A R σ} {asleep : ι → Bool}

/-- **Sleeping only holds a thread back.** -/
theorem Rests.reaches (h : Rests S V c asleep) : Reaches S c := by
  induction h with
  | start => exact .start
  | act _ hprog _ hexec ih => exact ih.act hprog hexec
  | early _ _ _ _ _ ih => exact ih
  | stirs _ _ ih => exact ih
  | again _ hprog ih => exact ih.again hprog

/-- **A relation that every fitting step keeps**, of what is reached and who sleeps there. -/
theorem Course.rests {M : Monitor ι A R} (T : Course S M)
    {tie : (ι → M.State) → σ → (ι → Bool) → Prop} (hstart : tie T.start S.init fun _ => false)
    (hact : ∀ {states i a x r m m' asleep}, M.ok i (states i) a →
      (V.wakes a = true → asleep i = false) → tie states m asleep →
      S.exec i a x m = some (r, m') →
      tie (Function.update states i (M.next (states i) a r)) m' (V.after i a r asleep))
    (hearly : ∀ {states i a m asleep}, M.ok i (states i) a → V.early i a m = true →
      tie states m asleep → tie states m (Function.update asleep i true))
    (hstirs : ∀ {states m asleep} i, tie states m asleep →
      tie states m (Function.update asleep i false))
    (hc : Rests S V c asleep) : ∃ states, tie states c.mem asleep ∧ T.At states c := by
  induction hc with
  | start => exact ⟨T.start, hstart, T.at_start⟩
  | @act c asleep _ i a next hprog hawake x r m hexec ih =>
    obtain ⟨states, htie, hat⟩ := ih
    exact ⟨_, hact (hat.ok hprog) hawake htie hexec, hat.act hprog r m⟩
  | early _ hprog _ _ hwait ih =>
    obtain ⟨states, htie, hat⟩ := ih
    exact ⟨states, hearly (hat.ok hprog) hwait htie, hat⟩
  | stirs _ i ih =>
    obtain ⟨states, htie, hat⟩ := ih
    exact ⟨states, hstirs i htie, hat⟩
  | again _ hprog ih =>
    obtain ⟨states, htie, hat⟩ := ih
    exact ⟨states, htie, hat.again hprog⟩

/-! ### Schedules -/

/-- The next step of a thread that need not sleep on, the world answering as `input` says. -/
def advanceAwake (S : System ι A I R σ) (V : CondVar ι A R σ) (c : Config ι A R σ)
    (asleep : ι → Bool) (i : ι) (input : (a : A) → I a) :
    Option (Config ι A R σ × (ι → Bool)) :=
  match c.prog i with
  | .done true => some (⟨c.mem, Function.update c.prog i (S.body i)⟩, asleep)
  | .done false => none
  | .act a next =>
    if V.wakes a && asleep i then none
    else match S.exec i a (input a) c.mem with
      | none => none
      | some (r, m) => some (⟨m, Function.update c.prog i (next r)⟩, V.after i a r asleep)

/-- A schedule on which nobody wakes too early or by itself. -/
def playAwake (S : System ι A I R σ) (V : CondVar ι A R σ) (c : Config ι A R σ)
    (asleep : ι → Bool) : List (ι × ((a : A) → I a)) → Option (Config ι A R σ × (ι → Bool))
  | [] => some (c, asleep)
  | (i, input) :: rest =>
    match advanceAwake S V c asleep i input with
    | none => none
    | some (c', asleep') => playAwake S V c' asleep' rest

theorem Rests.advance (h : Rests S V c asleep) {i : ι} {input : (a : A) → I a}
    {c' : Config ι A R σ} {asleep' : ι → Bool}
    (hstep : advanceAwake S V c asleep i input = some (c', asleep')) : Rests S V c' asleep' := by
  unfold advanceAwake at hstep
  split at hstep
  · rename_i hprog
    cases hstep
    exact h.again hprog
  · cases hstep
  · rename_i a next hprog
    split at hstep
    · cases hstep
    · rename_i hawake
      cases hexec : S.exec i a (input a) c.mem with
      | none => simp [hexec] at hstep
      | some rm =>
        obtain ⟨r, m⟩ := rm
        rw [hexec] at hstep
        cases hstep
        exact h.act hprog (by simpa using hawake) hexec

/-- **What such a schedule plays is reached.** -/
theorem Rests.play (h : Rests S V c asleep) {schedule : List (ι × ((a : A) → I a))}
    {c' : Config ι A R σ} {asleep' : ι → Bool}
    (hplay : playAwake S V c asleep schedule = some (c', asleep')) : Rests S V c' asleep' := by
  induction schedule generalizing c asleep with
  | nil =>
    cases hplay
    exact h
  | cons step rest ih =>
    obtain ⟨i, input⟩ := step
    rw [playAwake] at hplay
    cases hstep : advanceAwake S V c asleep i input with
    | none => simp [hstep] at hplay
    | some next =>
      obtain ⟨c₁, asleep₁⟩ := next
      rw [hstep] at hplay
      exact ih (h.advance hstep) hplay

end Thread
end S2S
