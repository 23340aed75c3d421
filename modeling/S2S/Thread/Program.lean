/-
# Threads over a shared memory

Programs of atomic actions, and the interleavings of several of them
(`Reaches`).  An action takes something from outside, when it waits for the
world, and gives something back to the program; it may have to wait, and then
the thread stays where it is.  A thread runs its body over and over until the
body says that it is done.

`play` runs a schedule, so that one run can be computed.
-/

import Mathlib.Logic.Function.Basic

namespace S2S
namespace Thread

/-! ### Programs -/

/-- A program of actions `A`; `R a` is what action `a` gives back. -/
inductive Prog (A : Type) (R : A → Type) (α : Type)
  | done (value : α)
  | act (a : A) (next : R a → Prog A R α)

variable {A : Type} {R : A → Type} {α β : Type}

namespace Prog

/-- One program, then the other. -/
def bind : Prog A R α → (α → Prog A R β) → Prog A R β
  | .done value, f => f value
  | .act a next, f => .act a fun r => (next r).bind f

instance : Monad (Prog A R) where
  pure := .done
  bind := Prog.bind

/-- One action. -/
def perform (a : A) : Prog A R (R a) := .act a .done

@[simp] theorem pure_bind (value : α) (f : α → Prog A R β) :
    ((pure value : Prog A R α) >>= f) = f value := rfl

@[simp] theorem done_bind (value : α) (f : α → Prog A R β) : (.done value >>= f) = f value := rfl

@[simp] theorem act_bind (a : A) (next : R a → Prog A R α) (f : α → Prog A R β) :
    (.act a next >>= f) = .act a fun r => next r >>= f := rfl

@[simp] theorem perform_bind (a : A) (f : R a → Prog A R β) : (perform a >>= f) = .act a f := rfl

/-- The program has ended for good. -/
def Exited (p : Prog A R Bool) : Prop := p = .done false

/-- The same, as a test. -/
def exited : Prog A R Bool → Bool
  | .done again => !again
  | .act _ _ => false

theorem exited_iff (p : Prog A R Bool) : p.exited = true ↔ p.Exited := by
  cases p with
  | done again => cases again <;> simp [exited, Exited]
  | act a next => simp [exited, Exited]

end Prog

/-! ### Interleavings -/

/-- Threads `ι` over a memory `σ`.  `I a` is what action `a` takes from outside; `exec` is the
action of a thread, nothing where it has to wait. -/
structure System (ι A : Type) (I R : A → Type) (σ : Type) where
  exec : ι → (a : A) → I a → σ → Option (R a × σ)
  body : ι → Prog A R Bool
  init : σ

/-- The memory, and what is left of the body of each thread. -/
structure Config (ι A : Type) (R : A → Type) (σ : Type) where
  mem : σ
  prog : ι → Prog A R Bool

section System

variable {ι : Type} [DecidableEq ι] {I : A → Type} {σ : Type} (S : System ι A I R σ)

/-- Where the threads begin. -/
def System.start : Config ι A R σ := ⟨S.init, S.body⟩

/-- **What the threads can reach**, one action of one of them after the other. -/
inductive Reaches : Config ι A R σ → Prop
  | start : Reaches S.start
  | act {c : Config ι A R σ} (h : Reaches c) {i : ι} {a : A} {next : R a → Prog A R Bool}
      (hprog : c.prog i = .act a next) {x : I a} {r : R a} {m : σ}
      (hexec : S.exec i a x c.mem = some (r, m)) : Reaches ⟨m, Function.update c.prog i (next r)⟩
  | again {c : Config ι A R σ} (h : Reaches c) {i : ι} (hprog : c.prog i = .done true) :
      Reaches ⟨c.mem, Function.update c.prog i (S.body i)⟩

/-- The next step of a thread, the world answering as `input` says. -/
def advance (c : Config ι A R σ) (i : ι) (input : (a : A) → I a) : Option (Config ι A R σ) :=
  match c.prog i with
  | .done true => some ⟨c.mem, Function.update c.prog i (S.body i)⟩
  | .done false => none
  | .act a next =>
    match S.exec i a (input a) c.mem with
    | none => none
    | some (r, m) => some ⟨m, Function.update c.prog i (next r)⟩

/-- A schedule: who steps, and what the world answers. -/
def play (c : Config ι A R σ) : List (ι × ((a : A) → I a)) → Option (Config ι A R σ)
  | [] => some c
  | (i, input) :: rest =>
    match advance S c i input with
    | none => none
    | some c' => play c' rest

variable {S}

theorem Reaches.advance {c c' : Config ι A R σ} (h : Reaches S c) {i : ι} {input : (a : A) → I a}
    (hstep : advance S c i input = some c') : Reaches S c' := by
  unfold Thread.advance at hstep
  split at hstep
  · rename_i hprog
    obtain rfl := Option.some.inj hstep
    exact h.again hprog
  · simp at hstep
  · rename_i a next hprog
    cases hexec : S.exec i a (input a) c.mem with
    | none => simp [hexec] at hstep
    | some rm =>
      obtain ⟨r, m⟩ := rm
      rw [hexec] at hstep
      obtain rfl := Option.some.inj hstep
      exact h.act hprog hexec

/-- **What a schedule plays is reached.** -/
theorem Reaches.play {c c' : Config ι A R σ} (h : Reaches S c)
    {schedule : List (ι × ((a : A) → I a))} (hplay : play S c schedule = some c') :
    Reaches S c' := by
  induction schedule generalizing c with
  | nil => exact Option.some.inj hplay ▸ h
  | cons step rest ih =>
    obtain ⟨i, input⟩ := step
    rw [Thread.play] at hplay
    cases hstep : Thread.advance S c i input with
    | none => simp [hstep] at hplay
    | some c₁ =>
      rw [hstep] at hplay
      exact ih (h.advance hstep) hplay

end System

end Thread
end S2S
