/-
# The turns of a connection

What the session, the two queues and the turns that the connection wrote down
keep to each other, whatever the threads do (`Turns`): while no event is being
handed over, what opened last is the turn of the session; a turn that the
session holds committed and not released is somewhere on its way; a final turn
is the one that opened last, in its last revision.

`TurnsAllow` is when a thread may take an action for this to stay so, one lemma
for each action that matters (`turns_keeps` has them all).
-/

import S2S.Conversation.Effects

namespace S2S
namespace Conversation

open Json Session

variable {F V S : Type}

/-- No later than. -/
def UpTo (p q : ℕ × ℕ) : Prop := p.1 < q.1 ∨ p.1 = q.1 ∧ p.2 ≤ q.2

theorem UpTo.refl (p : ℕ × ℕ) : UpTo p p := .inr ⟨rfl, le_rfl⟩

theorem UpTo.trans {p q r : ℕ × ℕ} (h : UpTo p q) (h' : UpTo q r) : UpTo p r := by
  unfold UpTo at *
  omega

theorem upTo_of_earlier {p q : ℕ × ℕ} (h : Earlier p q) : UpTo p q :=
  h.imp_right fun h => ⟨h.1, h.2.le⟩

/-- `p` was handed over by a session that holds the turn `t`, and had opened before. -/
structure Known (opening : ℕ × ℕ) (t : Turn) (p : ℕ × ℕ) : Prop where
  pos : 0 < p.1
  upTo : UpTo p opening
  behind : Behind p t

/-- All there is to the turn `t` has been written down. -/
structure Viewed (opening : ℕ × ℕ) (finalTurn : ℕ) (t : Turn) : Prop where
  opening : opening = t.pair
  final : t.stage = .waiting → t.turnId = 0 ∨ finalTurn = t.turnId
  pending : t.stage ≠ .waiting → t.stage ≠ .cut → finalTurn < t.turnId

namespace TurnState

/-- What opened last. -/
def opening (c : TurnState F V) : ℕ × ℕ := (c.openTurn, c.openRevision)

/-- `p` waits for the recognizer, is recognized, waits for the responder, or is answered, before
its release. -/
def InPlace (c : TurnState F V) (p : ℕ × ℕ) : Prop :=
  (∃ turn ∈ c.queue, (turn.turnId, turn.revision) = p) ∨ c.recognizing = some p ∨
    (∃ job ∈ c.answers, (job.turnId, job.revision) = p) ∨ c.answering = some p

/-- `p` is known to the connection. -/
def Knows (c : TurnState F V) (p : ℕ × ℕ) : Prop := Known c.opening c.session.turn p

/-- The connection has written down all there is to the turn `t`. -/
def Views (c : TurnState F V) (t : Turn) : Prop := Viewed c.opening c.finalTurn t

end TurnState

open TurnState

/-- The events so far are of turns up to `p`. -/
def Reached (p : ℕ × ℕ) (rs : List (Report F)) : Prop := ∀ r ∈ rs, UpTo r.pair p

/-- **What the turns keep to each other**, `rs` the events so far. -/
structure Turns (c : TurnState F V) (rs : List (Report F)) : Prop where
  coherent : c.session.Coherent
  idle : c.sessionMutex = none → c.due = []
  viewed : c.due = [] → c.Views c.session.turn ∧ Reached c.session.turn.pair rs
  behind : c.finalTurn ≤ c.openTurn
  final : c.finalTurn = c.openTurn → c.openTurn = 0 ∨ Final rs c.opening
  owed : c.session.turn.stage = .committed false → c.InPlace c.session.turn.pair ∨
    ∃ r ∈ c.due, r.event = .turnCommitted ∧ r.pair = c.session.turn.pair
  known : ∀ p, c.InPlace p → c.Knows p
  ordered : rs.Pairwise fun r r' => UpTo r.pair r'.pair

/-- When a thread may take an action, as far as the turns are concerned. -/
def TurnsAllow (role : Role) (a : Act F) (m : Memory F V) : Prop :=
  match a with
  | .unlockSession => m.sessionMutex = some role ∧ m.due = []
  | .session op => m.sessionMutex = some role ∧ m.due = [] ∧ ∀ turnId revision : ℤ,
      op = .release turnId revision →
        (role = .recognizer → ∀ p, m.recognizing = some p → turnId = p.1 ∧ revision = p.2) ∧
        (role = .responder → ∀ p, m.answering = some p → turnId = p.1 ∧ revision = p.2)
  | .callback r => m.sessionMutex = some role ∧ m.due ≠ [] ∧ Reached r.pair (logged m.log)
  | .returned => m.sessionMutex = some role ∧ ∀ r rest, m.due = r :: rest →
      (r.event = .turnCommitted → m.InPlace r.pair) ∧
      (rest = [] → m.Views m.session.turn ∧ Reached m.session.turn.pair (logged m.log))
  | .opened turnId revision => m.sessionMutex = some role ∧ m.due ≠ [] ∧
      (m.openTurn < turnId ∨
        turnId = m.openTurn ∧ m.openRevision < revision ∧ m.finalTurn < turnId)
  | .final turnId => m.sessionMutex = some role ∧ m.due ≠ [] ∧ turnId = m.openTurn ∧
      Final (logged m.log) m.opening
  | .enqueue turn => m.sessionMutex = some role ∧ m.Knows (turn.turnId, turn.revision)
  | .popQueue => role = .recognizer ∧ m.recognizing = none
  | .pushAnswer job => role = .recognizer ∧ m.recognizing = some (job.turnId, job.revision)
  | .popAnswer => role = .responder ∧ m.answering = none
  | .publish _ _ => role = .responder
  | .waitFinal => role = .responder ∧ 0 < m.answerTurn ∧
      Released (m.answerTurn, m.answerRevision) m.session.turn
  | .setReleased => role = .responder
  | .storeSpeaking _ => role = .responder
  | _ => True

/-! ### Places -/

section Places

variable {c : TurnState F V}

theorem inPlace_popQueue {turn : TurnAudio F} {queue : List (TurnAudio F)}
    (hq : c.queue = turn :: queue) (hr : c.recognizing = none) (p : ℕ × ℕ) :
    c.InPlace p ↔ TurnState.InPlace
      { c with queue := queue, recognizing := some (turn.turnId, turn.revision) } p := by
  simp only [InPlace, hq, hr, List.exists_mem_cons_iff, Option.some.injEq, reduceCtorEq, false_or]
  grind

theorem inPlace_pushAnswer {job : AnswerJob}
    (hr : c.recognizing = some (job.turnId, job.revision)) (p : ℕ × ℕ) :
    c.InPlace p ↔ TurnState.InPlace
      { c with answers := c.answers ++ [job], recognizing := none } p := by
  simp only [InPlace, hr, List.mem_append, List.mem_singleton, or_and_right, exists_or,
    exists_eq_left, Option.some.injEq, reduceCtorEq, false_or]
  grind

theorem inPlace_popAnswer {job : AnswerJob} {answers : List AnswerJob}
    (hq : c.answers = job :: answers) (hr : c.answering = none) (p : ℕ × ℕ) :
    c.InPlace p ↔ TurnState.InPlace
      { c with answers := answers, answering := some (job.turnId, job.revision) } p := by
  simp only [InPlace, hq, hr, List.exists_mem_cons_iff, Option.some.injEq, reduceCtorEq, or_false]
  grind

end Places

/-! ### Action by action -/

namespace Turns

variable {c : TurnState F V} {rs : List (Report F)} (h : Turns c rs)
include h

theorem lock (role : Role) : Turns { c with sessionMutex := some role } rs :=
  ⟨h.coherent, fun hnone => by simp at hnone, h.viewed, h.behind, h.final, h.owed, h.known,
    h.ordered⟩

theorem unlock (hdue : c.due = []) : Turns { c with sessionMutex := none } rs :=
  ⟨h.coherent, fun _ => hdue, h.viewed, h.behind, h.final, h.owed, h.known, h.ordered⟩

/-- The same places, and nothing else has changed. -/
theorem moved {queue : List (TurnAudio F)} {recognizing answering : Option (ℕ × ℕ)}
    {answers : List AnswerJob} (hplace : ∀ p, c.InPlace p ↔
      TurnState.InPlace { c with queue := queue, recognizing := recognizing, answers := answers,
                                 answering := answering } p) :
    Turns { c with queue := queue, recognizing := recognizing, answers := answers,
                   answering := answering } rs :=
  ⟨h.coherent, h.idle, h.viewed, h.behind, h.final,
    fun hs => (h.owed hs).imp_left (hplace _).1, fun p hp => h.known p ((hplace p).2 hp), h.ordered⟩

theorem popQueue {turn : TurnAudio F} {queue : List (TurnAudio F)} (hq : c.queue = turn :: queue)
    (hr : c.recognizing = none) :
    Turns { c with queue := queue, recognizing := some (turn.turnId, turn.revision) } rs :=
  h.moved (inPlace_popQueue hq hr)

theorem pushAnswer {job : AnswerJob} (hr : c.recognizing = some (job.turnId, job.revision)) :
    Turns { c with answers := c.answers ++ [job], recognizing := none } rs :=
  h.moved (inPlace_pushAnswer hr)

theorem popAnswer {job : AnswerJob} {answers : List AnswerJob} (hq : c.answers = job :: answers)
    (hr : c.answering = none) :
    Turns { c with answers := answers, answering := some (job.turnId, job.revision) } rs :=
  h.moved (inPlace_popAnswer hq hr)

theorem enqueue {turn : TurnAudio F} (hknown : c.Knows (turn.turnId, turn.revision)) :
    Turns { c with queue := c.queue ++ [turn] } rs := by
  have hplace : ∀ p, TurnState.InPlace { c with queue := c.queue ++ [turn] } p ↔
      c.InPlace p ∨ (turn.turnId, turn.revision) = p := by
    intro p
    simp only [InPlace, List.mem_append, List.mem_singleton, or_and_right, exists_or, exists_eq_left]
    grind
  refine ⟨h.coherent, h.idle, h.viewed, h.behind, h.final,
    fun hs => (h.owed hs).imp_left fun hp => (hplace _).2 (.inl hp), fun p hp => ?_, h.ordered⟩
  rcases (hplace p).1 hp with hp | rfl
  · exact h.known p hp
  · exact hknown

theorem opened {turnId revision : ℕ} (hdue : c.due ≠ [])
    (hnew : c.openTurn < turnId ∨
      turnId = c.openTurn ∧ c.openRevision < revision ∧ c.finalTurn < turnId) :
    Turns { c with openTurn := turnId, openRevision := revision } rs := by
  have hbehind := h.behind
  have hle : UpTo c.opening (turnId, revision) := by
    simp only [UpTo, opening]
    omega
  exact ⟨h.coherent, h.idle, fun hnone => absurd hnone hdue, by simp only; omega,
    fun heq => by simp only at heq; omega, h.owed,
    fun p hp => ⟨(h.known p hp).pos, (h.known p hp).upTo.trans hle, (h.known p hp).behind⟩,
    h.ordered⟩

theorem finals (hdue : c.due ≠ []) (hfinal : Final rs c.opening) :
    Turns { c with finalTurn := max c.openTurn c.finalTurn } rs := by
  have hbehind := h.behind
  exact ⟨h.coherent, h.idle, fun hnone => absurd hnone hdue, by simp only; omega,
    fun _ => .inr hfinal, h.owed, h.known, h.ordered⟩

theorem callback {r : Report F} (hdue : c.due ≠ []) (hr : Reached r.pair rs) :
    Turns c (rs ++ [r]) := by
  refine ⟨h.coherent, h.idle, fun hnone => absurd hnone hdue, h.behind,
    fun heq => (h.final heq).imp_right fun hf => hf.append _, h.owed, h.known, ?_⟩
  rw [List.pairwise_append]
  exact ⟨h.ordered, List.pairwise_singleton _ _, fun r₁ hr₁ r₂ hr₂ => by
    rw [List.mem_singleton.1 hr₂]; exact hr r₁ hr₁⟩

theorem returned {r : Report F} {due : List (Report F)} (hdue : c.due = r :: due)
    (hmutex : c.sessionMutex ≠ none) (hplace : r.event = .turnCommitted → c.InPlace r.pair)
    (hview : due = [] → c.Views c.session.turn ∧ Reached c.session.turn.pair rs) :
    Turns { c with due := due } rs := by
  refine ⟨h.coherent, fun hnone => absurd hnone hmutex, hview, h.behind, h.final, fun hs => ?_,
    h.known, h.ordered⟩
  rcases h.owed hs with hp | ⟨r', hr', hevent, hpair⟩
  · exact .inl hp
  · rw [hdue] at hr'
    rcases List.mem_cons.1 hr' with rfl | hr'
    · exact .inl (hpair ▸ hplace hevent)
    · exact .inr ⟨r', hr', hevent, hpair⟩

end Turns

/-! ### A call of the session -/

/-- A call and its events, one after the other. -/
theorem call_reports (M : Models F V) {s : State F V} (hs : s.Coherent) (op : Op F) :
    ∃ t, s.turn.call op = some t ∧ t.reports (Session.apply M s op).2
      = some (Session.apply M s op).1.turn := by
  have h := (follow_apply M hs op).1
  rw [Turn.follow_cons] at h
  exact Option.bind_eq_some_iff.1 h

theorem Viewed.call {opening : ℕ × ℕ} {finalTurn : ℕ} {t t' : Turn} {op : Op F}
    (h : Viewed opening finalTurn t) (hcall : t.call op = some t') :
    Viewed opening finalTurn t' := by
  obtain ⟨-, -, hid, -, hstage⟩ := call_some hcall
  refine ⟨h.opening.trans (pair_call hcall).symm, fun hw => ?_, fun hw hc => ?_⟩
  · rcases hstage with hs | ⟨-, hs, -⟩
    · rw [hid]
      exact h.final (hs.symm.trans hw)
    · simp [hs] at hw
  · rw [hid]
    rcases hstage with hs | ⟨hs, -, -⟩
    · exact h.pending (hs ▸ hw) (hs ▸ hc)
    · exact h.pending (by simp [hs]) (by simp [hs])

/-- A call that leaves a turn owed found it owed, and did not release it. -/
theorem owed_call {t t' : Turn} {op : Op F} (h : t.call op = some t')
    (hs : t'.stage = .committed false) :
    t.stage = .committed false ∧ op ≠ .release t.turnId t.revision := by
  obtain ⟨hb, hc, -, -, hstage⟩ := call_some h
  rcases hstage with hs' | ⟨-, hs', -⟩
  · have hst : t.stage = .committed false := hs'.symm.trans hs
    refine ⟨hst, fun hop => ?_⟩
    rw [hop, Turn.call, if_neg (by simp [hb, hc])] at h
    simp only [hst, and_self, if_true, Option.some.injEq] at h
    simp [← h] at hs
  · simp [hs] at hs'

/-- **A call of the session keeps the turns**, and so does the release that a thread owed. -/
theorem Turns.apply {m : Memory F V} {rs : List (Report F)} (M : Models F V)
    (h : Turns m.toTurnState rs) {role : Role} {op : Op F} (hmutex : m.sessionMutex ≠ none)
    (hdue : m.due = [])
    (hrecognizer : role = .recognizer → ∀ turnId revision, op = .release turnId revision →
      ∀ p, m.recognizing = some p → turnId = p.1 ∧ revision = p.2)
    (hresponder : role = .responder → ∀ turnId revision, op = .release turnId revision →
      ∀ p, m.answering = some p → turnId = p.1 ∧ revision = p.2) :
    Turns (m.apply M role op).toTurnState rs := by
  obtain ⟨t, hcall, hreports⟩ := call_reports M h.coherent op
  obtain ⟨hviewed, hreached⟩ := h.viewed hdue
  have hcoherent := (follow_apply M h.coherent op).2
  set s' := (Session.apply M m.session op).1 with hs'
  set rs' := (Session.apply M m.session op).2 with hrs'
  -- What the call leaves of the places, whoever made it.
  have hview : rs' = [] → m.toTurnState.Views s'.turn ∧ Reached s'.turn.pair rs := fun hnone => by
    rw [hnone] at hreports
    obtain rfl : t = s'.turn := Option.some.inj hreports
    exact ⟨hviewed.call hcall, by rw [pair_call hcall]; exact hreached⟩
  have hknown : ∀ p, m.toTurnState.InPlace p → Known m.toTurnState.opening s'.turn p := fun p hp =>
    ⟨(h.known p hp).pos, (h.known p hp).upTo, ((h.known p hp).behind.call hcall).reports hreports⟩
  have howed : s'.turn.stage = .committed false →
      (m.toTurnState.InPlace s'.turn.pair ∧ op ≠ .release s'.turn.turnId s'.turn.revision) ∨
        ∃ r ∈ rs', r.event = .turnCommitted ∧ r.pair = s'.turn.pair := fun hs => by
    rcases owed_reports hreports hs with hnone | hcommit
    · rw [hnone] at hreports
      obtain rfl : t = s'.turn := Option.some.inj hreports
      obtain ⟨hbefore, hother⟩ := owed_call hcall hs
      have hpair := pair_call hcall
      left
      rw [hpair]
      obtain ⟨-, -, hid, hrev, -⟩ := call_some hcall
      rw [hid, hrev]
      refine ⟨(h.owed hbefore).resolve_right fun ⟨r, hr, _⟩ => ?_, hother⟩
      rw [hdue] at hr
      exact absurd hr (by simp)
    · exact .inr hcommit
  have hsame : Turns { m.toTurnState with session := s', due := rs' } rs :=
    ⟨hcoherent, fun hnone => absurd hnone hmutex, hview, h.behind, h.final,
      fun hs => (howed hs).imp_left And.left, hknown, h.ordered⟩
  unfold Memory.apply
  dsimp only
  split
  · rename_i turnId revision
    refine ⟨hcoherent, fun hnone => absurd hnone hmutex, hview, h.behind, h.final, fun hs => ?_,
      fun p hp => hknown p ?_, h.ordered⟩
    · rcases howed hs with ⟨hp, hother⟩ | hcommit
      · left
        rcases hp with hp | hp | hp | hp
        · exact .inl hp
        · obtain ⟨h₁, h₂⟩ := hrecognizer rfl _ _ rfl _ hp
          exact absurd (by rw [h₁, h₂]; rfl) hother
        · exact .inr (.inr (.inl hp))
        · exact .inr (.inr (.inr hp))
      · exact .inr hcommit
    · rcases hp with hp | hp | hp | hp
      · exact .inl hp
      · simp at hp
      · exact .inr (.inr (.inl hp))
      · exact .inr (.inr (.inr hp))
  · rename_i turnId revision
    refine ⟨hcoherent, fun hnone => absurd hnone hmutex, hview, h.behind, h.final, fun hs => ?_,
      fun p hp => hknown p ?_, h.ordered⟩
    · rcases howed hs with ⟨hp, hother⟩ | hcommit
      · left
        rcases hp with hp | hp | hp | hp
        · exact .inl hp
        · exact .inr (.inl hp)
        · exact .inr (.inr (.inl hp))
        · obtain ⟨h₁, h₂⟩ := hresponder rfl _ _ rfl _ hp
          exact absurd (by rw [h₁, h₂]; rfl) hother
      · exact .inr hcommit
    · rcases hp with hp | hp | hp | hp
      · exact .inl hp
      · exact .inr (.inl hp)
      · exact .inr (.inr (.inl hp))
      · simp at hp
  · exact hsame

/-! ### Every action -/

theorem turns_new (P : Setup F V S) : Turns (Memory.new P).toTurnState (logged []) := by
  have hturn : (sessionNew P.models P.vad P.params).turn = .start :=
    turn_sessionNew P.models P.vad P.params
  refine ⟨coherent_sessionNew P.models P.vad P.params, fun _ => rfl, fun _ => ⟨⟨?_, ?_, ?_⟩, ?_⟩,
    le_rfl, fun _ => .inl rfl, fun hs => ?_, fun p hp => ?_, .nil⟩
  · exact (congrArg Turn.pair hturn).symm
  · exact fun _ => .inl (congrArg Turn.turnId hturn)
  · exact fun hw => absurd (congrArg Turn.stage hturn) hw
  · exact fun r hr => absurd hr (by simp [logged])
  · have : Turn.start.stage = .committed false := hturn ▸ hs
    simp [Turn.start] at this
  · simp [InPlace, Memory.new] at hp

/-- An action that is no event adds none. -/
theorem logged_exec {P : Setup F V S} {role : Role} {a : Act F} {x : a.Input} {m m' : Memory F V}
    {r : a.Result} (ha : ∀ r, a ≠ .callback r) (h : exec P role a x m = some (r, m')) :
    logged m'.log = logged m.log := by
  rw [log_exec h, logged_append]
  have hnone : logged (a.logs role m r) = [] := by
    cases a with
    | ask query => cases hw : query.work <;> simp [Act.logs, hw, logged]
    | callback e => exact absurd rfl (ha e)
    | popAnswer => cases r <;> rfl
    | _ => rfl
  rw [hnone, List.append_nil]

/-- **Every action keeps the turns**, taken when it is allowed. -/
theorem turns_keeps (P : Setup F V S) {role : Role} {a : Act F} {x : a.Input} {m m' : Memory F V}
    {r : a.Result} (h : Turns m.toTurnState (logged m.log)) (hallow : TurnsAllow role a m)
    (hexec : exec P role a x m = some (r, m')) : Turns m'.toTurnState (logged m'.log) := by
  by_cases hturns : a.OfTurns
  · have hlogged : logged m'.log = logged m.log :=
      logged_exec (fun r hr => by rw [hr] at hturns; exact hturns) hexec
    rw [hlogged]
    cases a with
    | lockSession =>
      obtain ⟨-, rfl⟩ := lockSession_cases hexec
      exact h.lock role
    | unlockSession =>
      obtain ⟨-, rfl⟩ := done_inj hexec
      exact h.unlock hallow.2
    | session op =>
      obtain ⟨-, rfl⟩ := done_inj hexec
      obtain ⟨hmutex, hdue, hrelease⟩ := hallow
      exact h.apply P.models (by simp [hmutex]) hdue
        (fun hrole turnId revision hop => (hrelease turnId revision hop).1 hrole)
        (fun hrole turnId revision hop => (hrelease turnId revision hop).2 hrole)
    | returned =>
      obtain ⟨-, rfl⟩ := done_inj hexec
      obtain ⟨hmutex, hhead⟩ := hallow
      change Turns { m.toTurnState with due := m.due.tail } (logged m.log)
      cases hdue : m.due with
      | nil =>
        have hsame : ({ m.toTurnState with due := [] } : TurnState F V) = m.toTurnState := by
          rw [← hdue]
        exact hsame ▸ h
      | cons r rest =>
        obtain ⟨hplace, hview⟩ := hhead r rest hdue
        exact h.returned hdue (by simp [hmutex]) hplace hview
    | opened turnId revision =>
      obtain ⟨-, hdue, hnew⟩ := hallow
      obtain ⟨opening, cancel, rfl, rfl, -⟩ := opened_cases hexec
      rw [if_pos (hnew.imp_right fun h => ⟨h.1, h.2.1⟩)]
      exact h.opened hdue hnew
    | final turnId =>
      obtain ⟨-, rfl⟩ := done_inj hexec
      obtain ⟨-, hdue, rfl, hfinal⟩ := hallow
      exact h.finals hdue hfinal
    | enqueue turn =>
      obtain ⟨-, rfl⟩ := done_inj hexec
      exact h.enqueue hallow.2
    | popQueue =>
      rcases popQueue_cases hexec with ⟨-, -, rfl⟩ | ⟨turn, queue, hqueue, -, rfl⟩
      · exact h
      · exact h.popQueue hqueue hallow.2
    | pushAnswer job =>
      obtain ⟨-, rfl⟩ := done_inj hexec
      exact h.pushAnswer hallow.2
    | popAnswer =>
      rcases popAnswer_cases hexec with ⟨-, -, rfl⟩ | ⟨-, job, answers, hanswers, -, rfl⟩
      · exact h
      · exact h.popAnswer hanswers hallow.2
    | _ => exact hturns.elim
  · rw [turnState_exec hturns hexec]
    by_cases hevent : ∃ e, a = .callback e
    · obtain ⟨e, rfl⟩ := hevent
      rw [log_exec hexec, logged_append]
      exact h.callback hallow.2.1 hallow.2.2
    · rw [logged_exec (fun e he => hevent ⟨e, he⟩) hexec]
      exact h

end Conversation
end S2S
