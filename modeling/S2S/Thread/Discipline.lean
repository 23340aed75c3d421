/-
# What threads may rely on

Proofs about interleavings, one thread at a time.  A discipline says which
action a thread may take when (`allowed`) and what every allowed action keeps
(`inv`).  A thread is then proved on its own: its program is outlined by an
assertion before every action (`Outline`), which no allowed action of another
thread breaks (`Stable`) and under which the action is allowed.

Once every thread is outlined, the invariant holds of everything reached, and
whatever action is next is allowed there (`Outlined.allowed`).
-/

import S2S.Thread.Program

namespace S2S
namespace Thread

variable {ι A : Type} {I R : A → Type} {σ : Type}

/-- What a thread may do when, and what this keeps. -/
structure Discipline (S : System ι A I R σ) where
  inv : σ → Prop
  allowed : ι → A → σ → Prop
  init : inv S.init
  keeps : ∀ {i a x m r m'}, inv m → allowed i a m → S.exec i a x m = some (r, m') → inv m'

variable {S : System ι A I R σ} (D : Discipline S)

/-- No allowed action of another thread than `i` breaks `P`. -/
def Stable (i : ι) (P : σ → Prop) : Prop :=
  ∀ ⦃j a x m r m'⦄, j ≠ i → D.inv m → D.inv m' → D.allowed j a m → S.exec j a x m = some (r, m') →
    P m → P m'

/-- No allowed action of another thread than `i` breaks `P`, nor does one of thread `i` itself that
is `own`. -/
def Steady (i : ι) (own : A → Prop) (P : σ → Prop) : Prop :=
  ∀ ⦃j a x m r m'⦄, (j = i → own a) → D.inv m → D.inv m' → D.allowed j a m →
    S.exec j a x m = some (r, m') → P m → P m'

/-- **The outline of a program of thread `i`.**  `P` holds whenever it is about to go on, `Q` of
what it returns at its end. -/
inductive Outline (i : ι) {α : Type} (Q : α → σ → Prop) : (σ → Prop) → Prog A R α → Prop
  | done {P : σ → Prop} {value : α} (stable : Stable D i P)
      (holds : ∀ m, D.inv m → P m → Q value m) : Outline i Q P (.done value)
  | act {P : σ → Prop} {a : A} {next : R a → Prog A R α} (after : R a → σ → Prop)
      (stable : Stable D i P) (allowed : ∀ m, D.inv m → P m → D.allowed i a m)
      (holds : ∀ {x m r m'}, D.inv m → D.inv m' → P m → S.exec i a x m = some (r, m') → after r m')
      (rest : ∀ r, Outline i Q (after r) (next r)) : Outline i Q P (.act a next)

variable {D} {i : ι} {α β : Type}

namespace Steady

variable {own own' : A → Prop} {P Q : σ → Prop}

theorem stable (h : Steady D i own P) : Stable D i P := fun _ _ _ _ _ _ hji hm hm' hallow hexec =>
  h (fun heq => absurd heq hji) hm hm' hallow hexec

theorem mono (h : Steady D i own P) (hown : ∀ a, own' a → own a) : Steady D i own' P :=
  fun _ _ _ _ _ _ hji => h fun heq => hown _ (hji heq)

theorem and (h : Steady D i own P) (h' : Steady D i own Q) :
    Steady D i own fun m => P m ∧ Q m := fun _ _ _ _ _ _ hji hm hm' hallow hexec hP =>
  ⟨h hji hm hm' hallow hexec hP.1, h' hji hm hm' hallow hexec hP.2⟩

theorem true (own : A → Prop) : Steady D i own fun _ => True :=
  fun _ _ _ _ _ _ _ _ _ _ _ _ => trivial

end Steady

theorem Stable.and {P Q : σ → Prop} (h : Stable D i P) (h' : Stable D i Q) :
    Stable D i fun m => P m ∧ Q m := fun _ _ _ _ _ _ hji hm hm' hallow hexec hP =>
  ⟨h hji hm hm' hallow hexec hP.1, h' hji hm hm' hallow hexec hP.2⟩

namespace Outline

variable {P P' : σ → Prop} {Q : α → σ → Prop} {p : Prog A R α}

theorem stable (h : Outline D i Q P p) : Stable D i P := by
  cases h with
  | done stable _ => exact stable
  | act _ stable _ _ _ => exact stable

/-- A stronger assertion at the beginning. -/
theorem strengthen (h : Outline D i Q P p) (hstable : Stable D i P')
    (himp : ∀ m, D.inv m → P' m → P m) : Outline D i Q P' p := by
  cases h with
  | done _ holds => exact .done hstable fun m hm hP => holds m hm (himp m hm hP)
  | act after _ allowed holds rest =>
    exact .act after hstable (fun m hm hP => allowed m hm (himp m hm hP))
      (fun hm hm' hP hexec => holds hm hm' (himp _ hm hP) hexec) rest

/-- A weaker assertion at the end. -/
theorem weaken (h : Outline D i Q P p) {Q' : α → σ → Prop}
    (himp : ∀ value m, D.inv m → Q value m → Q' value m) : Outline D i Q' P p := by
  induction h with
  | done stable holds => exact .done stable fun m hm hP => himp _ m hm (holds m hm hP)
  | act after stable allowed holds _ ih => exact .act after stable allowed holds ih

/-- **One program after another.** -/
theorem bind (h : Outline D i Q P p) {Q' : β → σ → Prop} {f : α → Prog A R β}
    (hf : ∀ value, Outline D i Q' (Q value) (f value)) : Outline D i Q' P (p >>= f) := by
  induction h with
  | done stable holds => exact (hf _).strengthen stable holds
  | act after stable allowed holds _ ih => exact .act after stable allowed holds ih

/-- One action. -/
theorem perform (a : A) {Q : R a → σ → Prop} (hstable : Stable D i P)
    (hstable' : ∀ r, Stable D i (Q r)) (hallow : ∀ m, D.inv m → P m → D.allowed i a m)
    (holds : ∀ {x m r m'}, D.inv m → D.inv m' → P m → S.exec i a x m = some (r, m') → Q r m') :
    Outline D i Q P (Prog.perform a) :=
  .act Q hstable hallow holds fun r => .done (hstable' r) fun _ _ h => h

/-- One action that leaves the assertion as it is. -/
theorem quiet (a : A) {own : A → Prop} (hsteady : Steady D i own P) (hown : own a)
    (hallow : ∀ m, D.inv m → P m → D.allowed i a m) :
    Outline D i (fun _ => P) P (Prog.perform a) :=
  perform a hsteady.stable (fun _ => hsteady.stable) hallow fun hm hm' hP hexec =>
    hsteady (fun _ => hown) hm hm' (hallow _ hm hP) hexec hP

/-- A program that does nothing more. -/
theorem pure {value : α} (hstable : Stable D i P) (himp : ∀ m, D.inv m → P m → Q value m) :
    Outline D i Q P (Pure.pure value : Prog A R α) :=
  .done hstable himp

/-- An assertion that rests on a fact outside the memory. -/
theorem assuming (fact : Prop) (hstable : Stable D i P) (h : fact → Outline D i Q P p)
    (himp : ∀ m, D.inv m → P m → fact) : Outline D i Q P p := by
  by_cases hfact : fact
  · exact h hfact
  · have hnever : ∀ m, D.inv m → ¬P m := fun m hm hP => hfact (himp m hm hP)
    clear h himp
    induction p generalizing P with
    | done value => exact .done hstable fun m hm hP => absurd hP (hnever m hm)
    | act a next ih =>
      refine .act (fun _ _ => False) hstable (fun m hm hP => absurd hP (hnever m hm))
        (fun hm _ hP _ => absurd hP (hnever _ hm)) fun r => ?_
      exact ih r (fun _ _ _ _ _ _ _ _ _ _ _ hF => hF) fun _ _ hF => hF

end Outline

/-! ### Every thread -/

/-- Every thread keeps to the discipline: `before` holds where its body begins, `after` where the
body ends, and where it ends to begin again, `before` holds once more. -/
structure Outlined (D : Discipline S) where
  before : ι → σ → Prop
  after : ι → Bool → σ → Prop
  starts : ∀ i, before i S.init
  again : ∀ {i m}, D.inv m → after i true m → before i m
  bodies : ∀ i, Outline D i (after i) (before i) (S.body i)

variable [DecidableEq ι]

/-- A configuration in which every thread is where its outline says. -/
structure Config.Keeps (T : Outlined D) (c : Config ι A R σ) : Prop where
  inv : D.inv c.mem
  threads : ∀ i, ∃ P, P c.mem ∧ Outline D i (T.after i) P (c.prog i)

/-- **Whatever is reached is outlined.** -/
theorem Outlined.keeps (T : Outlined D) {c : Config ι A R σ} (h : Reaches S c) : c.Keeps T := by
  induction h with
  | start => exact ⟨D.init, fun i => ⟨_, T.starts i, T.bodies i⟩⟩
  | @act c _ i a next hprog x r m hexec ih =>
    obtain ⟨P, hP, hout⟩ := ih.threads i
    rw [hprog] at hout
    cases hout with
    | act after stable allowed holds rest =>
      have hallowed := allowed _ ih.inv hP
      have hinv := D.keeps ih.inv hallowed hexec
      refine ⟨hinv, fun j => ?_⟩
      by_cases hji : j = i
      · subst hji
        exact ⟨_, holds ih.inv hinv hP hexec, by simpa using rest r⟩
      · obtain ⟨P', hP', hout'⟩ := ih.threads j
        refine ⟨P', hout'.stable (Ne.symm hji) ih.inv hinv hallowed hexec hP', ?_⟩
        simpa [hji] using hout'
  | @again c _ i hprog ih =>
    obtain ⟨P, hP, hout⟩ := ih.threads i
    rw [hprog] at hout
    refine ⟨ih.inv, fun j => ?_⟩
    by_cases hji : j = i
    · subst hji
      cases hout with
      | done stable holds =>
        exact ⟨_, T.again ih.inv (holds _ ih.inv hP), by simpa using T.bodies j⟩
    · obtain ⟨P', hP', hout'⟩ := ih.threads j
      exact ⟨P', hP', by simpa [hji] using hout'⟩

/-- **The invariant holds of whatever is reached.** -/
theorem Outlined.inv (T : Outlined D) {c : Config ι A R σ} (h : Reaches S c) : D.inv c.mem :=
  (T.keeps h).inv

/-- **Whatever is next is allowed.** -/
theorem Outlined.allowed (T : Outlined D) {c : Config ι A R σ} (h : Reaches S c) {i : ι} {a : A}
    {next : R a → Prog A R Bool} (hprog : c.prog i = .act a next) : D.allowed i a c.mem := by
  obtain ⟨P, hP, hout⟩ := (T.keeps h).threads i
  rw [hprog] at hout
  cases hout with
  | act after stable allowed holds rest => exact allowed _ (T.keeps h).inv hP

/-- What holds of a thread whose body has ended. -/
theorem Outlined.ended (T : Outlined D) {c : Config ι A R σ} (h : Reaches S c) {i : ι}
    {again : Bool} (hprog : c.prog i = .done again) : T.after i again c.mem := by
  obtain ⟨P, hP, hout⟩ := (T.keeps h).threads i
  rw [hprog] at hout
  cases hout with
  | done stable holds => exact holds _ (T.keeps h).inv hP

end Thread
end S2S
