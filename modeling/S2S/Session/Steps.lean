/-
# A run, one window at a time

`s2s_session_push` works in windows, and calls fall between two of them.  A
`Step` is one window or one such call, `history` what each of them reported, and
`clock` the windows gone by.  What a run of calls reports is what its steps
report (`reportsOf_run`), and both end in the same state but for the samples
that wait for a window (`through_runSteps`).
-/

import S2S.Session.Grammar
import S2S.Session.Stream

namespace S2S
namespace Session

/-- A window of audio, or a call that brings none. -/
inductive Step (F : Type)
  | window (pcm : List F)
  | setSpeaking (speaking : Bool)
  | release (turnId revision : ℤ)
  | setParams (p : Params F)

/-- A step and what it reported. -/
abbrev Moment (F : Type) := Step F × List (Report F)

section Steps

variable {F V : Type} (M : Models F V)

def Step.isWindow : Step F → Bool
  | .window _ => true
  | _ => false

/-- The windows gone by. -/
def clock (h : List (Moment F)) : ℕ := h.countP fun m => m.1.isWindow

@[simp] theorem clock_nil : clock ([] : List (Moment F)) = 0 := rfl

@[simp] theorem clock_append (h h' : List (Moment F)) : clock (h ++ h') = clock h + clock h' :=
  List.countP_append

theorem clock_cons (m : Moment F) (h : List (Moment F)) :
    clock (m :: h) = (if m.1.isWindow then 1 else 0) + clock h := by
  rw [clock, List.countP_cons, Nat.add_comm]
  rfl

/-- One step. -/
def oneStep (s : State F V) : Step F → State F V × List (Report F)
  | .window pcm => sessionWindow M s pcm
  | .setSpeaking speaking => (setSpeaking s speaking, [])
  | .release turnId revision => release M s turnId revision
  | .setParams p => (setParams M s p, [])

/-- The state after some steps. -/
def through (s : State F V) : List (Step F) → State F V
  | [] => s
  | x :: xs => through (oneStep M s x).1 xs

/-- What some steps reported. -/
def history (s : State F V) : List (Step F) → List (Moment F)
  | [] => []
  | x :: xs => (x, (oneStep M s x).2) :: history (oneStep M s x).1 xs

/-- The first `n` windows of `pcm`. -/
def windowsIn : ℕ → List F → List (Step F)
  | 0, _ => []
  | n + 1, pcm => .window (pcm.take M.window) :: windowsIn n (pcm.drop M.window)

/-- The steps of a call when `left` waits for a window. -/
def stepsOf (left : List F) : Op F → List (Step F)
  | .push pcm => windowsIn M ((left ++ pcm).length / M.window) (left ++ pcm)
  | .setSpeaking speaking => [.setSpeaking speaking]
  | .release turnId revision => [.release turnId revision]
  | .setParams p => [.setParams p]

/-- The steps of a run. -/
def runSteps (s : State F V) : List (Op F) → List (Step F)
  | [] => []
  | op :: ops => stepsOf M s.partialPcm op ++ runSteps (apply M s op).1 ops

theorem through_append (s : State F V) (xs ys : List (Step F)) :
    through M s (xs ++ ys) = through M (through M s xs) ys := by
  induction xs generalizing s with
  | nil => rfl
  | cons x xs ih => exact ih _

theorem history_append (s : State F V) (xs ys : List (Step F)) :
    history M s (xs ++ ys) = history M s xs ++ history M (through M s xs) ys := by
  induction xs generalizing s with
  | nil => rfl
  | cons x xs ih => exact congrArg (_ :: ·) (ih _)

/-- A history read up to one of its moments. -/
theorem history_split {s : State F V} {xs : List (Step F)} {before after : List (Moment F)}
    {m : Moment F} (h : history M s xs = before ++ m :: after) :
    ∃ ys zs, xs = ys ++ m.1 :: zs ∧ before = history M s ys ∧
      m.2 = (oneStep M (through M s ys) m.1).2 ∧
      after = history M (oneStep M (through M s ys) m.1).1 zs := by
  induction xs generalizing s before with
  | nil => simp [history] at h
  | cons x xs ih =>
    cases before with
    | nil =>
      obtain ⟨rfl, rfl⟩ := List.cons.inj h
      exact ⟨[], xs, rfl, rfl, rfl, rfl⟩
    | cons first before =>
      obtain ⟨rfl, hrest⟩ := List.cons.inj h
      obtain ⟨ys, zs, rfl, rfl, hm, hafter⟩ := ih hrest
      exact ⟨x :: ys, zs, rfl, rfl, hm, hafter⟩

/-! ### The steps of a run -/

theorem oneStep_withPartial (s : State F V) (pcm : List F) (x : Step F) :
    oneStep M (s.withPartial pcm) x = ((oneStep M s x).1.withPartial pcm, (oneStep M s x).2) := by
  cases x with
  | window window => exact sessionWindow_withPartial M s pcm window
  | setSpeaking speaking => rfl
  | setParams p => rfl
  | release turnId revision =>
    show (if s.committed ∧ turnId = s.turnId ∧ revision = s.revision then
      tryFinal M (({ s with released := true } : State F V).withPartial pcm)
      else (s.withPartial pcm, [])) = _
    rw [tryFinal_withPartial, oneStep, release]
    split_ifs <;> rfl

theorem through_withPartial (s : State F V) (pcm : List F) (xs : List (Step F)) :
    through M (s.withPartial pcm) xs = (through M s xs).withPartial pcm := by
  induction xs generalizing s with
  | nil => rfl
  | cons x xs ih => rw [through, oneStep_withPartial, ih, through]

theorem history_withPartial (s : State F V) (pcm : List F) (xs : List (Step F)) :
    history M (s.withPartial pcm) xs = history M s xs := by
  induction xs generalizing s with
  | nil => rfl
  | cons x xs ih => rw [history, oneStep_withPartial, ih, history]

theorem pushWindows_eq (n : ℕ) (s : State F V) (pcm : List F) :
    (pushWindows M n s pcm).2 = (history M s (windowsIn M n pcm)).flatMap (·.2) ∧
      (pushWindows M n s pcm).1.withPartial []
        = (through M s (windowsIn M n pcm)).withPartial [] := by
  induction n generalizing s pcm with
  | zero => exact ⟨rfl, rfl⟩
  | succ n ih =>
    obtain ⟨h₁, h₂⟩ := ih (sessionWindow M s (pcm.take M.window)).1 (pcm.drop M.window)
    exact ⟨congrArg ((sessionWindow M s (pcm.take M.window)).2 ++ ·) h₁, h₂⟩

/-- **A call is its steps.** -/
theorem apply_eq {s : State F V} (hs : s.partialPcm.length < M.window) (op : Op F) :
    (apply M s op).2 = (history M s (stepsOf M s.partialPcm op)).flatMap (·.2) ∧
      (apply M s op).1.withPartial []
        = (through M s (stepsOf M s.partialPcm op)).withPartial [] := by
  cases op with
  | push pcm =>
    show (push M s pcm).2 = _ ∧ (push M s pcm).1.withPartial [] = _
    rw [push_eq M hs]
    exact pushWindows_eq M _ s _
  | setSpeaking speaking => exact ⟨rfl, rfl⟩
  | setParams p => exact ⟨rfl, rfl⟩
  | release turnId revision => exact ⟨(List.append_nil _).symm, rfl⟩

theorem length_partialPcm_release (s : State F V) (turnId revision : ℤ) :
    (release M s turnId revision).1.partialPcm = s.partialPcm := by
  have h := oneStep_withPartial M s s.partialPcm (.release turnId revision)
  rw [State.withPartial_self] at h
  exact congrArg (fun r => r.1.partialPcm) h

theorem length_partialPcm_apply {s : State F V} (hs : s.partialPcm.length < M.window)
    (op : Op F) : (apply M s op).1.partialPcm.length < M.window := by
  cases op with
  | push pcm => exact length_partialPcm_push M hs pcm
  | setSpeaking speaking => exact hs
  | setParams p => exact hs
  | release turnId revision =>
    show (release M s turnId revision).1.partialPcm.length < _
    rw [length_partialPcm_release]
    exact hs

/-- **What a run reports is what its steps report**, and both end in the same state but for the
samples left over. -/
theorem run_eq {s : State F V} (hs : s.partialPcm.length < M.window) (ops : List (Op F)) :
    reportsOf (run M s ops).2 = (history M s (runSteps M s ops)).flatMap (·.2) ∧
      (run M s ops).1.withPartial [] = (through M s (runSteps M s ops)).withPartial [] := by
  induction ops generalizing s with
  | nil => exact ⟨rfl, rfl⟩
  | cons op ops ih =>
    obtain ⟨hreports, hstate⟩ := apply_eq M hs op
    obtain ⟨ihreports, ihstate⟩ := ih (length_partialPcm_apply M hs op)
    have hhistory : history M (apply M s op).1 (runSteps M (apply M s op).1 ops)
        = history M (through M s (stepsOf M s.partialPcm op)) (runSteps M (apply M s op).1 ops) := by
      rw [← history_withPartial M _ [], hstate, history_withPartial]
    have hthrough : (through M (apply M s op).1 (runSteps M (apply M s op).1 ops)).withPartial []
        = (through M (through M s (stepsOf M s.partialPcm op))
            (runSteps M (apply M s op).1 ops)).withPartial [] := by
      rw [← through_withPartial, hstate, through_withPartial]
    rw [runSteps, history_append, through_append, ← hthrough, ← hhistory, List.flatMap_append,
      ← hreports, ← ihreports, ← ihstate]
    exact ⟨by simp [run], rfl⟩

/-- No call but a change of the settings changes them. -/
theorem setParams_mem_runSteps {s : State F V} {ops : List (Op F)} {p : Params F}
    (h : .setParams p ∈ runSteps M s ops) : .setParams p ∈ ops := by
  induction ops generalizing s with
  | nil => simp [runSteps] at h
  | cons op ops ih =>
    rw [runSteps, List.mem_append] at h
    rcases h with h | h
    · cases op with
      | push pcm =>
        have hwindows : ∀ n pcm, .setParams p ∉ windowsIn M n pcm := by
          intro n
          induction n with
          | zero => intro pcm; simp [windowsIn]
          | succ n ihn => intro pcm; simp [windowsIn, ihn]
        exact absurd h (hwindows _ _)
      | _ => simp_all [stepsOf]
    · exact List.mem_cons_of_mem _ (ih h)

end Steps

end Session
end S2S
