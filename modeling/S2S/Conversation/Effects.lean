/-
# What an action may change

`exec` seen from the outside, one lemma for each part of the memory: what an
action adds to the log (`log_exec`), which actions leave the turns alone
(`turnState_exec`), and who changes the flags and the answer in flight.
-/

import S2S.Conversation.Log

namespace S2S
namespace Conversation

open Json Session

variable {F V S : Type}

/-- What an action adds to the log, when it gives `r` back. -/
def Act.logs (role : Role) (m : Memory F V) : (a : Act F) → a.Result → List (Entry F)
  | .ask query, _ => query.work.toList.map fun w => .work w m.cancel
  | .send f, _ => [.frame role f]
  | .callback r, _ => [.report r]
  | .pushAnswer job, _ => [.gave job.turnId job.revision]
  | .popAnswer, some job => [.took job.turnId job.revision]
  | .stopped, _ => [.stopped]
  | _, _ => []

/-- An action on the session, its lock, the two queues, or what opened and is final. -/
def Act.OfTurns : Act F → Prop
  | .lockSession => True
  | .unlockSession => True
  | .session _ => True
  | .returned => True
  | .opened _ _ => True
  | .final _ => True
  | .enqueue _ => True
  | .popQueue => True
  | .pushAnswer _ => True
  | .popAnswer => True
  | _ => False

/-- An action that only the responder takes, on the answer in flight. -/
def Act.OfAnswer : Act F → Prop
  | .publish _ _ => True
  | .setReleased => True
  | _ => False

section Exec

variable {P : Setup F V S} {role : Role} {a : Act F} {x : a.Input} {m m' : Memory F V} {r : a.Result}

/-- What an action that went through gave back, and what it left. -/
theorem done_inj {α : Type} {v v' : α} {m m' : Memory F V} (h : some (v, m) = some (v', m')) :
    v = v' ∧ m = m' := by
  simpa using h

/-- A call of the session: a release ends what its thread had to do. -/
theorem apply_eq (M : Models F V) (role : Role) (op : Op F) (m : Memory F V) :
    ∃ recognizing answering, m.apply M role op = { m with
        session := (Session.apply M m.session op).1, due := (Session.apply M m.session op).2,
        recognizing := recognizing, answering := answering } ∧
      (recognizing = m.recognizing ∨
        role = .recognizer ∧ (∃ t v, op = .release t v) ∧ recognizing = none) ∧
      (answering = m.answering ∨ answering = none) := by
  unfold Memory.apply
  dsimp only
  split
  · exact ⟨none, m.answering, rfl, .inr ⟨rfl, ⟨_, _, rfl⟩, rfl⟩, .inl rfl⟩
  · exact ⟨m.recognizing, none, rfl, .inl rfl, .inr rfl⟩
  · exact ⟨m.recognizing, m.answering, rfl, .inl rfl, .inl rfl⟩

/-! ### What an action did

An action that went through, by what it found and what it left. -/

theorem lockSession_cases {x r : Unit}
    (h : exec P role (.lockSession : Act F) x m = some (r, m')) :
    m.sessionMutex = none ∧ m' = { m with sessionMutex := some role } := by
  simp only [exec] at h
  split at h
  · rename_i hfree
    exact ⟨hfree, (done_inj h).2.symm⟩
  · simp at h

/-- A lock that is held is waited for. -/
example (holder : Role) :
    exec P role (.lockSession : Act F) () { m with sessionMutex := some holder } = none := by
  simp only [exec]

theorem ask_cases {query : Query F} {x r : (Act.ask query).Result}
    (h : exec P role (.ask query) x m = some (r, m')) :
    m' = { m with log := m.log ++ query.work.toList.map fun w => .work w m.cancel } := by
  obtain ⟨-, rfl⟩ := done_inj h
  cases query.work with
  | none => simp
  | some w => rfl

theorem send_cases {f : Frame F} {x r : Unit}
    (h : exec P role (.send f) x m = some (r, m')) :
    ∃ out, m' = { m.record (.frame role f) with out := out } := by
  obtain ⟨-, rfl⟩ := done_inj h
  split_ifs
  · exact ⟨_, rfl⟩
  · exact ⟨_, rfl⟩

theorem opened_cases {turnId revision : ℕ} {x : Bool} {r : Unit}
    (h : exec P role (.opened turnId revision : Act F) x m = some (r, m')) :
    ∃ opening cancel, m' = { m with
        openTurn := opening.1, openRevision := opening.2, cancel := cancel } ∧
      (opening = if m.openTurn < turnId ∨ turnId = m.openTurn ∧ m.openRevision < revision then
        (turnId, revision) else (m.openTurn, m.openRevision)) ∧
      (m.cancel = true → cancel = true) := by
  simp only [exec] at h
  split at h
  · obtain ⟨-, rfl⟩ := done_inj h
    refine ⟨_, true, ?_, rfl, fun _ => rfl⟩
    split_ifs <;> rfl
  · simp at h
  · simp at h
  · obtain ⟨-, rfl⟩ := done_inj h
    refine ⟨_, m.cancel, ?_, rfl, id⟩
    split_ifs <;> rfl

theorem popQueue_cases {x : Unit} {r : Option (TurnAudio F)}
    (h : exec P role (.popQueue : Act F) x m = some (r, m')) :
    (m.stop = true ∧ r = none ∧ m' = m) ∨ ∃ turn queue, m.queue = turn :: queue ∧ r = some turn ∧
      m' = { m with queue := queue, recognizing := some (turn.turnId, turn.revision) } := by
  simp only [exec] at h
  split_ifs at h with hstop
  · obtain ⟨rfl, rfl⟩ := done_inj h
    exact .inl ⟨hstop, rfl, rfl⟩
  · split at h
    · simp at h
    · rename_i hqueue
      obtain ⟨rfl, rfl⟩ := done_inj h
      exact .inr ⟨_, _, hqueue, rfl, rfl⟩

theorem popAnswer_cases {x : Unit} {r : Option AnswerJob}
    (h : exec P role (.popAnswer : Act F) x m = some (r, m')) :
    (m.stop = true ∧ r = none ∧ m' = m) ∨ m.stop = false ∧ ∃ job answers,
      m.answers = job :: answers ∧ r = some job ∧
      m' = { m.record (.took job.turnId job.revision) with
        answers := answers, answering := some (job.turnId, job.revision) } := by
  simp only [exec] at h
  split_ifs at h with hstop
  · obtain ⟨rfl, rfl⟩ := done_inj h
    exact .inl ⟨hstop, rfl, rfl⟩
  · split at h
    · simp at h
    · rename_i hanswers
      obtain ⟨rfl, rfl⟩ := done_inj h
      exact .inr ⟨by simpa using hstop, _, _, hanswers, rfl, rfl⟩

theorem popOut_cases {x : Unit} {r : Option (Frame F)}
    (h : exec P role (.popOut : Act F) x m = some (r, m')) : ∃ out, m' = { m with out := out } := by
  simp only [exec] at h
  split_ifs at h
  · exact ⟨_, (done_inj h).2.symm⟩
  · split at h
    · simp at h
    · exact ⟨_, (done_inj h).2.symm⟩

theorem waitFinal_cases {x : Unit} {r : Bool}
    (h : exec P role (.waitFinal : Act F) x m = some (r, m')) :
    m.passes = true ∧ r = (!m.stop && !m.voided.cancel) ∧ m' = m.voided := by
  simp only [exec] at h
  split_ifs at h with hpasses
  obtain ⟨rfl, rfl⟩ := done_inj h
  exact ⟨hpasses, rfl, rfl⟩

/-! ### What it may change -/

/-- **An action adds to the log, and nothing else happens to it.** -/
theorem log_exec (h : exec P role a x m = some (r, m')) : m'.log = m.log ++ a.logs role m r := by
  cases a with
  | ask query => exact congrArg Memory.log (ask_cases h)
  | send f =>
    obtain ⟨out, rfl⟩ := send_cases h
    rfl
  | session op =>
    obtain ⟨rfl, rfl⟩ := done_inj h
    obtain ⟨recognizing, answering, heq, -⟩ := apply_eq P.models role op m
    rw [heq]
    exact (List.append_nil _).symm
  | lockSession =>
    obtain ⟨-, rfl⟩ := lockSession_cases h
    exact (List.append_nil _).symm
  | opened turnId revision =>
    obtain ⟨opening, cancel, rfl, -⟩ := opened_cases h
    exact (List.append_nil _).symm
  | popQueue =>
    rcases popQueue_cases h with ⟨-, rfl, rfl⟩ | ⟨turn, queue, -, rfl, rfl⟩
    · exact (List.append_nil _).symm
    · exact (List.append_nil _).symm
  | popAnswer =>
    rcases popAnswer_cases h with ⟨-, rfl, rfl⟩ | ⟨-, job, answers, -, rfl, rfl⟩
    · exact (List.append_nil _).symm
    · rfl
  | popOut =>
    obtain ⟨out, rfl⟩ := popOut_cases h
    exact (List.append_nil _).symm
  | waitFinal =>
    obtain ⟨-, rfl, rfl⟩ := waitFinal_cases h
    exact (List.append_nil _).symm
  | _ =>
    obtain ⟨rfl, rfl⟩ := done_inj h
    first | rfl | exact (List.append_nil _).symm

/-- **Most actions leave the turns alone.** -/
theorem turnState_exec (ha : ¬a.OfTurns) (h : exec P role a x m = some (r, m')) :
    m'.toTurnState = m.toTurnState := by
  cases a with
  | ask query =>
    obtain rfl := ask_cases h
    rfl
  | send f =>
    obtain ⟨out, rfl⟩ := send_cases h
    rfl
  | popOut =>
    obtain ⟨out, rfl⟩ := popOut_cases h
    rfl
  | waitFinal =>
    obtain ⟨-, -, rfl⟩ := waitFinal_cases h
    rfl
  | _ =>
    first
    | exact absurd trivial ha
    | (obtain ⟨-, rfl⟩ := done_inj h
       rfl)

/-- What an action keeps of the flags and of the answer in flight. -/
structure Onward (a : Act F) (m m' : Memory F V) : Prop where
  answer : ¬a.OfAnswer → m'.answerTurn = m.answerTurn ∧ m'.answerRevision = m.answerRevision ∧
    m'.answerReleased = m.answerReleased
  stop : a ≠ .setStop → m'.stop = m.stop
  cancel : a ≠ .storeCancel false → m.cancel = true → m'.cancel = true

theorem onward_exec (h : exec P role a x m = some (r, m')) : Onward a m m' := by
  cases a with
  | ask query =>
    obtain rfl := ask_cases h
    exact ⟨fun _ => ⟨rfl, rfl, rfl⟩, fun _ => rfl, fun _ => id⟩
  | send f =>
    obtain ⟨out, rfl⟩ := send_cases h
    exact ⟨fun _ => ⟨rfl, rfl, rfl⟩, fun _ => rfl, fun _ => id⟩
  | session op =>
    obtain ⟨-, rfl⟩ := done_inj h
    obtain ⟨recognizing, answering, heq, -⟩ := apply_eq P.models role op m
    rw [heq]
    exact ⟨fun _ => ⟨rfl, rfl, rfl⟩, fun _ => rfl, fun _ => id⟩
  | lockSession =>
    obtain ⟨-, rfl⟩ := lockSession_cases h
    exact ⟨fun _ => ⟨rfl, rfl, rfl⟩, fun _ => rfl, fun _ => id⟩
  | opened turnId revision =>
    obtain ⟨opening, cancel, rfl, -, hcancel⟩ := opened_cases h
    exact ⟨fun _ => ⟨rfl, rfl, rfl⟩, fun _ => rfl, fun _ => hcancel⟩
  | popQueue =>
    rcases popQueue_cases h with ⟨-, -, rfl⟩ | ⟨turn, queue, -, -, rfl⟩
    · exact ⟨fun _ => ⟨rfl, rfl, rfl⟩, fun _ => rfl, fun _ => id⟩
    · exact ⟨fun _ => ⟨rfl, rfl, rfl⟩, fun _ => rfl, fun _ => id⟩
  | popAnswer =>
    rcases popAnswer_cases h with ⟨-, -, rfl⟩ | ⟨-, job, answers, -, -, rfl⟩
    · exact ⟨fun _ => ⟨rfl, rfl, rfl⟩, fun _ => rfl, fun _ => id⟩
    · exact ⟨fun _ => ⟨rfl, rfl, rfl⟩, fun _ => rfl, fun _ => id⟩
  | popOut =>
    obtain ⟨out, rfl⟩ := popOut_cases h
    exact ⟨fun _ => ⟨rfl, rfl, rfl⟩, fun _ => rfl, fun _ => id⟩
  | publish turnId revision =>
    obtain ⟨-, rfl⟩ := done_inj h
    exact ⟨fun hnot => absurd trivial hnot, fun _ => rfl, fun _ hcancel => by simp [hcancel]⟩
  | setReleased =>
    obtain ⟨-, rfl⟩ := done_inj h
    exact ⟨fun hnot => absurd trivial hnot, fun _ => rfl, fun _ => id⟩
  | waitFinal =>
    obtain ⟨-, -, rfl⟩ := waitFinal_cases h
    exact ⟨fun _ => ⟨rfl, rfl, rfl⟩, fun _ => rfl, fun _ hcancel => by simp [Memory.voided, hcancel]⟩
  | storeCancel cancel =>
    obtain ⟨-, rfl⟩ := done_inj h
    refine ⟨fun _ => ⟨rfl, rfl, rfl⟩, fun _ => rfl, fun hraise _ => ?_⟩
    cases cancel with
    | true => rfl
    | false => exact absurd rfl hraise
  | setStop =>
    obtain ⟨-, rfl⟩ := done_inj h
    exact ⟨fun _ => ⟨rfl, rfl, rfl⟩, fun hother => absurd rfl hother, fun _ => id⟩
  | _ =>
    obtain ⟨-, rfl⟩ := done_inj h
    exact ⟨fun _ => ⟨rfl, rfl, rfl⟩, fun _ => rfl, fun _ => id⟩

/-- The answer in flight is the responder's. -/
theorem answer_exec (ha : ¬a.OfAnswer) (h : exec P role a x m = some (r, m')) :
    m'.answerTurn = m.answerTurn ∧ m'.answerRevision = m.answerRevision ∧
      m'.answerReleased = m.answerReleased := (onward_exec h).answer ha

/-- Only `conn_stop` sets the stop. -/
theorem stop_same (ha : a ≠ .setStop) (h : exec P role a x m = some (r, m')) : m'.stop = m.stop :=
  (onward_exec h).stop ha

/-- Nobody takes a stop back. -/
theorem stop_exec (h : exec P role a x m = some (r, m')) (hstop : m.stop = true) :
    m'.stop = true := by
  by_cases ha : a = .setStop
  · subst ha
    obtain ⟨-, rfl⟩ := done_inj h
    rfl
  · rw [stop_same ha h, hstop]

/-- Only a store lowers the cancel. -/
theorem cancel_exec (ha : a ≠ .storeCancel false) (h : exec P role a x m = some (r, m'))
    (hcancel : m.cancel = true) : m'.cancel = true := (onward_exec h).cancel ha hcancel

end Exec

end Conversation
end S2S
