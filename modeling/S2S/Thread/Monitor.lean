/-
# A thread watched on its own

A monitor follows the actions of one thread, one after the other and nobody
else's, and says which of them may come when (`Monitor`).  That a program is fit
for its monitor (`Watched`) is seen from the program alone, whatever its actions
give back.

What the monitors have seen may be tied to the memory (`Tied`): a relation that
holds where the threads start, and that every fitting action keeps, holds of
everything the threads reach (`Tied.holds`).
-/

import Mathlib.Data.List.Basic
import S2S.Thread.Program

namespace S2S
namespace Thread

variable {ι A : Type} {I R : A → Type} {σ : Type}

/-- What a monitor keeps of the actions of a thread, and which of them may come next. -/
structure Monitor (ι A : Type) (R : A → Type) where
  State : Type
  next : State → (a : A) → R a → State
  ok : ι → State → A → Prop

section Watched

variable (M : Monitor ι A R) (i : ι)

/-- **A program fit for its monitor**, which stands at a state and will stand at one as `Q` says. -/
inductive Watched {α : Type} (Q : α → M.State → Prop) : M.State → Prog A R α → Prop
  | done {s : M.State} {value : α} (h : Q value s) : Watched Q s (.done value)
  | act {s : M.State} {a : A} {next : R a → Prog A R α} (ok : M.ok i s a)
      (rest : ∀ r, Watched Q (M.next s a r) (next r)) : Watched Q s (.act a next)

namespace Watched

variable {M} {i} {α β : Type} {Q : α → M.State → Prop} {s : M.State}

theorem mono {p : Prog A R α} (h : Watched M i Q s p) {Q' : α → M.State → Prop}
    (himp : ∀ value s, Q value s → Q' value s) : Watched M i Q' s p := by
  induction h with
  | done h => exact .done (himp _ _ h)
  | act ok _ ih => exact .act ok ih

/-- **One program after another.** -/
theorem bind {p : Prog A R α} (h : Watched M i Q s p) {Q' : β → M.State → Prop}
    {f : α → Prog A R β} (hf : ∀ value s, Q value s → Watched M i Q' s (f value)) :
    Watched M i Q' s (p >>= f) := by
  induction h with
  | done h => exact hf _ _ h
  | act ok _ ih => exact .act ok ih

/-- One action. -/
theorem perform {a : A} {Q : R a → M.State → Prop} (ok : M.ok i s a)
    (h : ∀ r, Q r (M.next s a r)) : Watched M i Q s (Prog.perform a) :=
  .act ok fun r => .done (h r)

theorem pure {value : α} (h : Q value s) : Watched M i Q s (Pure.pure value : Prog A R α) := .done h

/-- One program or the other. -/
theorem ite {c : Prop} {_ : Decidable c} {p q : Prog A R α} (hp : c → Watched M i Q s p)
    (hq : ¬c → Watched M i Q s q) : Watched M i Q s (if c then p else q) := by
  split_ifs with h
  · exact hp h
  · exact hq h

/-- **Seen by another monitor**, which allows what the one allows and goes along with it. -/
theorem through {N : Monitor ι A R} {j : ι} (along : M.State → N.State → Prop)
    (hact : ∀ s t a, along s t → M.ok i s a →
      N.ok j t a ∧ ∀ r, along (M.next s a r) (N.next t a r))
    {p : Prog A R α} (h : Watched M i Q s p) {t : N.State} (ht : along s t)
    {Q' : α → N.State → Prop} (hdone : ∀ value s t, Q value s → along s t → Q' value t) :
    Watched N j Q' t p := by
  induction h generalizing t with
  | done h => exact .done (hdone _ _ _ h ht)
  | act ok _ ih =>
    obtain ⟨hok, hnext⟩ := hact _ _ _ ht ok
    exact .act hok fun r => ih r (hnext r)

/-- A thread that may do everything. -/
theorem of_free (hfree : ∀ s a, M.ok i s a) (s : M.State) (p : Prog A R α) :
    Watched M i (fun _ _ => True) s p := by
  induction p generalizing s with
  | done value => exact .done trivial
  | act a next ih => exact .act (hfree s a) fun r => ih r _

theorem ok_of_act {a : A} {next : R a → Prog A R α} (h : Watched M i Q s (.act a next)) :
    M.ok i s a := by
  cases h with
  | act ok _ => exact ok

theorem rest_of_act {a : A} {next : R a → Prog A R α} (h : Watched M i Q s (.act a next)) (r : R a) :
    Watched M i Q (M.next s a r) (next r) := by
  cases h with
  | act _ rest => exact rest r

theorem of_done {value : α} (h : Watched M i Q s (.done value : Prog A R α)) : Q value s := by
  cases h with
  | done h => exact h

end Watched

end Watched

/-! ### What a program leaves as it was -/

namespace Monitor

variable (M : Monitor ι A R) (i : ι) (I : M.State → Prop)

/-- An action that may be taken wherever `I` holds, and keeps it. -/
def Keeps (a : A) : Prop := ∀ s, I s → M.ok i s a ∧ ∀ r, I (M.next s a r)

/-- A program that may be run wherever `I` holds, and keeps it. -/
def Holds {α : Type} (p : Prog A R α) : Prop := ∀ s, I s → Watched M i (fun _ => I) s p

variable {M i I} {α β : Type}

theorem Keeps.holds {a : A} (h : M.Keeps i I a) : M.Holds i I (Prog.perform a) := fun s hs =>
  .perform (h s hs).1 (h s hs).2

theorem holds_pure (value : α) : M.Holds i I (pure value : Prog A R α) := fun _ hs => .pure hs

/-- **One after the other.** -/
theorem Holds.bind {p : Prog A R α} {f : α → Prog A R β} (h : M.Holds i I p)
    (hf : ∀ value, M.Holds i I (f value)) : M.Holds i I (p >>= f) := fun s hs =>
  (h s hs).bind fun value s' hs' => hf value s' hs'

end Monitor

/-! ### Every thread -/

/-- Every body is fit for its monitor, wherever that may stand when the body begins. -/
structure Fit (S : System ι A I R σ) (M : Monitor ι A R) where
  start : ι → M.State
  begins : ι → M.State → Prop
  starts : ∀ i, begins i (start i)
  bodies : ∀ i s, begins i s → Watched M i (fun again s' => again = true → begins i s') s (S.body i)

variable {S : System ι A I R σ} {M : Monitor ι A R}

/-- What is left of every thread is fit for where its monitor stands. -/
def Fit.At (T : Fit S M) (states : ι → M.State) (c : Config ι A R σ) : Prop :=
  ∀ i, Watched M i (fun again s => again = true → T.begins i s) (states i) (c.prog i)

namespace Fit

variable {T : Fit S M} {states : ι → M.State} {c : Config ι A R σ}

theorem at_start (T : Fit S M) : T.At T.start S.start := fun i => T.bodies i _ (T.starts i)

theorem At.ok (h : T.At states c) {i : ι} {a : A} {next : R a → Prog A R Bool}
    (hprog : c.prog i = .act a next) : M.ok i (states i) a := by
  have hi := h i
  rw [hprog] at hi
  exact hi.ok_of_act

variable [DecidableEq ι]

theorem At.act (h : T.At states c) {i : ι} {a : A} {next : R a → Prog A R Bool}
    (hprog : c.prog i = .act a next) (r : R a) (m : σ) :
    T.At (Function.update states i (M.next (states i) a r)) ⟨m, Function.update c.prog i (next r)⟩ := by
  intro j
  by_cases hji : j = i
  · subst hji
    have hj := h j
    rw [hprog] at hj
    simpa using hj.rest_of_act r
  · simpa [hji] using h j

theorem At.again (h : T.At states c) {i : ι} (hprog : c.prog i = .done true) :
    T.At states ⟨c.mem, Function.update c.prog i (S.body i)⟩ := by
  intro j
  by_cases hji : j = i
  · subst hji
    have hj := h j
    rw [hprog] at hj
    simpa using T.bodies j _ (hj.of_done rfl)
  · simpa [hji] using h j

end Fit

variable [DecidableEq ι]

/-- A relation between what the monitors have seen and the memory. -/
structure Tied (T : Fit S M) (tie : (ι → M.State) → σ → Prop) : Prop where
  start : tie T.start S.init
  act : ∀ {c : Config ι A R σ}, Reaches S c → ∀ {states i a x r m} {next : R a → Prog A R Bool},
    c.prog i = .act a next → M.ok i (states i) a → tie states c.mem →
    S.exec i a x c.mem = some (r, m) → tie (Function.update states i (M.next (states i) a r)) m

/-- **A tie holds of whatever is reached.** -/
theorem Tied.holds {T : Fit S M} {tie : (ι → M.State) → σ → Prop} (h : Tied T tie)
    {c : Config ι A R σ} (hc : Reaches S c) : ∃ states, tie states c.mem ∧ T.At states c := by
  induction hc with
  | start => exact ⟨T.start, h.start, T.at_start⟩
  | @act c hc i a next hprog x r m hexec ih =>
    obtain ⟨states, htie, hat⟩ := ih
    exact ⟨_, h.act hc hprog (hat.ok hprog) htie hexec, hat.act hprog r m⟩
  | again _ hprog ih =>
    obtain ⟨states, htie, hat⟩ := ih
    exact ⟨states, htie, hat.again hprog⟩

/-! ### Threads that end -/

/-- Every body is fit for its monitor, wherever that may stand when the body begins, and ends as
`ends` says: for good, or to begin again. -/
structure Course (S : System ι A I R σ) (M : Monitor ι A R) where
  start : ι → M.State
  begins : ι → M.State → Prop
  ends : ι → Bool → M.State → Prop
  starts : ∀ i, begins i (start i)
  bodies : ∀ i s, begins i s → Watched M i (ends i) s (S.body i)
  again : ∀ i s, ends i true s → begins i s

/-- What is left of every thread is fit for where its monitor stands. -/
def Course.At (T : Course S M) (states : ι → M.State) (c : Config ι A R σ) : Prop :=
  ∀ i, Watched M i (T.ends i) (states i) (c.prog i)

namespace Course

variable {T : Course S M} {states : ι → M.State} {c : Config ι A R σ}

omit [DecidableEq ι] in
theorem At.ok (h : T.At states c) {i : ι} {a : A} {next : R a → Prog A R Bool}
    (hprog : c.prog i = .act a next) : M.ok i (states i) a := by
  have hi := h i
  rw [hprog] at hi
  exact hi.ok_of_act

omit [DecidableEq ι] in
theorem At.ended (h : T.At states c) {i : ι} {again : Bool} (hprog : c.prog i = .done again) :
    T.ends i again (states i) := by
  have hi := h i
  rw [hprog] at hi
  exact hi.of_done

omit [DecidableEq ι] in
theorem at_start (T : Course S M) : T.At T.start S.start := fun i => T.bodies i _ (T.starts i)

theorem At.act (h : T.At states c) {i : ι} {a : A} {next : R a → Prog A R Bool}
    (hprog : c.prog i = .act a next) (r : R a) (m : σ) :
    T.At (Function.update states i (M.next (states i) a r)) ⟨m, Function.update c.prog i (next r)⟩ := by
  intro j
  by_cases hji : j = i
  · subst hji
    have hj := h j
    rw [hprog] at hj
    simpa using hj.rest_of_act r
  · simpa [hji] using h j

theorem At.again (h : T.At states c) {i : ι} (hprog : c.prog i = .done true) :
    T.At states ⟨c.mem, Function.update c.prog i (S.body i)⟩ := by
  intro j
  by_cases hji : j = i
  · subst hji
    simpa using T.bodies j _ (T.again j _ (h.ended hprog))
  · simpa [hji] using h j

/-- **A relation that every fitting action keeps holds of whatever is reached.** -/
theorem holds (T : Course S M) {tie : (ι → M.State) → σ → Prop} (hstart : tie T.start S.init)
    (hact : ∀ {states i a x r m m'}, M.ok i (states i) a → tie states m →
      S.exec i a x m = some (r, m') → tie (Function.update states i (M.next (states i) a r)) m')
    (hc : Reaches S c) : ∃ states, tie states c.mem ∧ T.At states c := by
  induction hc with
  | start => exact ⟨T.start, hstart, T.at_start⟩
  | @act c hc i a next hprog x r m hexec ih =>
    obtain ⟨states, htie, hat⟩ := ih
    exact ⟨_, hact (hat.ok hprog) htie hexec, hat.act hprog r m⟩
  | again _ hprog ih =>
    obtain ⟨states, htie, hat⟩ := ih
    exact ⟨states, htie, hat.again hprog⟩

end Course

/-! ### Mutexes -/

/-- A mutex is held by the thread that stands inside, as its monitor has it. -/
def Guards {State : Type} (inside : State → Prop) (m : Option ι) (states : ι → State) : Prop :=
  ∀ i, m = some i ↔ inside (states i)

namespace Guards

variable {State : Type} {inside : State → Prop} {m : Option ι} {states : ι → State} {i j : ι}
  {s : State}

omit [DecidableEq ι] in
/-- **One thread at a time is inside.** -/
theorem eq (h : Guards inside m states) (hi : inside (states i)) (hj : inside (states j)) : i = j :=
  Option.some.inj (((h i).2 hi).symm.trans ((h j).2 hj))

/-- A thread goes on, inside or outside as before. -/
theorem keep (h : Guards inside m states) (hs : inside s ↔ inside (states i)) :
    Guards inside m (Function.update states i s) := by
  intro j
  by_cases hji : j = i
  · subst hji
    rw [Function.update_self, hs]
    exact h j
  · rw [Function.update_of_ne hji]
    exact h j

/-- A thread takes a free mutex. -/
theorem take (h : Guards inside none states) (hs : inside s) :
    Guards inside (some i) (Function.update states i s) := by
  intro j
  by_cases hji : j = i
  · subst hji
    simp [hs]
  · rw [Function.update_of_ne hji]
    constructor
    · intro heq
      exact absurd (Option.some.inj heq).symm hji
    · intro hj
      exact absurd ((h j).2 hj) (by simp)

/-- A thread has the mutex, whether it had it before or takes it. -/
theorem hold (h : Guards inside m states) (hm : m = none ∨ m = some i) (hs : inside s) :
    Guards inside (some i) (Function.update states i s) := by
  rcases hm with rfl | rfl
  · exact h.take hs
  · exact h.keep (iff_of_true hs ((h i).1 rfl))

/-- The thread inside gives the mutex back. -/
theorem give (h : Guards inside m states) (hi : inside (states i)) (hs : ¬inside s) :
    Guards inside none (Function.update states i s) := by
  intro j
  by_cases hji : j = i
  · subst hji
    simp [hs]
  · rw [Function.update_of_ne hji]
    constructor
    · simp
    · intro hj
      exact absurd (h.eq hj hi) hji

end Guards

end Thread
end S2S
