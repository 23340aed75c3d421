/-
# Computations that may go wrong

A computation ends with a result or with a fault, the first one it meets.
`Runs` says that it ends with a result that has a property, `Faults` that it does
not; a step after another one, and a loop that counts up, have a rule for each.
-/

import Mathlib.Data.Nat.Basic

namespace S2S

variable {ε α β : Type}

/-! ### Results and faults -/

/-- The computation ends with a result that is `P`. -/
def Runs (m : Except ε α) (P : α → Prop) : Prop := ∃ a, m = .ok a ∧ P a

/-- The computation ends with a fault. -/
def Faults (m : Except ε α) : Prop := ∃ e, m = .error e

theorem ok_bind (a : α) (f : α → Except ε β) : (Except.ok a >>= f) = f a := rfl

theorem Runs.pure {P : α → Prop} {a : α} (h : P a) : Runs (.ok a : Except ε α) P := ⟨a, rfl, h⟩

theorem Runs.bind {m : Except ε α} {f : α → Except ε β} {P : α → Prop} {Q : β → Prop}
    (h : Runs m P) (hf : ∀ a, P a → Runs (f a) Q) : Runs (m >>= f) Q := by
  obtain ⟨a, rfl, hP⟩ := h
  exact hf a hP

theorem Faults.bind {m : Except ε α} (h : Faults m) (f : α → Except ε β) : Faults (m >>= f) := by
  obtain ⟨e, rfl⟩ := h
  exact ⟨e, rfl⟩

/-- What faults after a step faults, whatever the step does. -/
theorem faults_bind {m : Except ε α} {f : α → Except ε β} (h : ∀ a, Faults (f a)) :
    Faults (m >>= f) := by
  cases m with
  | error e => exact ⟨e, rfl⟩
  | ok a => exact h a

theorem Faults.not_runs {m : Except ε α} (h : Faults m) (P : α → Prop) : ¬Runs m P := by
  obtain ⟨e, rfl⟩ := h
  rintro ⟨a, ha, -⟩
  cases ha

/-! ### What is required -/

/-- A fault unless the condition holds. -/
def require (c : Prop) [Decidable c] (e : ε) (a : α) : Except ε α := if c then .ok a else .error e

theorem require_eq {c : Prop} [Decidable c] (e : ε) (a : α) (hc : c) : require c e a = .ok a :=
  if_pos hc

theorem faults_require {c : Prop} [Decidable c] (e : ε) (a : α) (hc : ¬c) :
    Faults (require c e a) :=
  ⟨e, if_neg hc⟩

/-! ### Counting up -/

/-- The loop that counts up from `t`, so many times. -/
def countUp (step : ℕ → α → Except ε α) : ℕ → ℕ → α → Except ε α
  | 0, _, s => .ok s
  | left + 1, t, s => step t s >>= countUp step left (t + 1)

/-- **What every step keeps, the loop keeps.** -/
theorem runs_countUp {step : ℕ → α → Except ε α} (I : α → Prop) {left t : ℕ}
    (hstep : ∀ k s, t ≤ k → k < t + left → I s → Runs (step k s) I) {s : α} (hs : I s) :
    Runs (countUp step left t s) I := by
  induction left generalizing t s with
  | zero => exact Runs.pure hs
  | succ left ih =>
    refine (hstep t s le_rfl (by omega) hs).bind fun s' hs' => ih (fun k s'' hk hlt => ?_) hs'
    exact hstep k s'' (by omega) (by omega)

/-- **What faults at one step, faults**, whatever the steps before do. -/
theorem faults_countUp {step : ℕ → α → Except ε α} {left t k : ℕ} (hk : t ≤ k) (hlt : k < t + left)
    (hstep : ∀ s, Faults (step k s)) (s : α) : Faults (countUp step left t s) := by
  induction left generalizing t s with
  | zero => omega
  | succ left ih =>
    rcases Nat.eq_or_lt_of_le hk with rfl | hk
    · exact (hstep s).bind _
    · exact faults_bind fun s' => ih hk (by omega) s'

end S2S
