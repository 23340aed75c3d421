/-
# What a turn is

The turn grammar that `src/s2s-session.h` draws, as a machine of its own: where
the latest turn stands, its number and its revision, and who holds the floor
(`Turn`).  It reads what a run shows, the calls and the reports behind them, and
refuses a report that has no place (`Turn.next`).

The session is one such machine seen through its phase and its two flags
(`State.turn`): whatever it reports is accepted, and leads to the turn that it
holds afterwards (`follow_run`).
-/

import S2S.Session.Basic

namespace S2S
namespace Session

/-! ### The machine -/

/-- Where the latest turn stands: nothing open, the user speaking, the boundary
just reported, waiting for the speaker to come back, committed, released or not,
or about to be overtaken over the assistant. -/
inductive Stage
  | waiting
  | speaking
  | boundary
  | pending
  | committed (released : Bool)
  | cut
  deriving DecidableEq, Repr

/-- The latest turn; `floor` is whether the assistant holds the floor. -/
structure Turn where
  stage : Stage
  turnId : ℕ
  revision : ℕ
  floor : Bool
  deriving DecidableEq, Repr

namespace Turn

/-- Before the first turn. -/
def start : Turn := ⟨.waiting, 0, 0, false⟩

/-- Nothing is open, or what is open has been handed over. -/
def Over (t : Turn) : Prop := t.stage = .waiting ∨ ∃ released, t.stage = .committed released

instance (t : Turn) : Decidable t.Over :=
  match h : t.stage with
  | .waiting => isTrue (.inl h)
  | .committed b => isTrue (.inr ⟨b, h⟩)
  | .speaking => isFalse (by rintro (h' | ⟨_, h'⟩) <;> simp [h] at h')
  | .boundary => isFalse (by rintro (h' | ⟨_, h'⟩) <;> simp [h] at h')
  | .pending => isFalse (by rintro (h' | ⟨_, h'⟩) <;> simp [h] at h')
  | .cut => isFalse (by rintro (h' | ⟨_, h'⟩) <;> simp [h] at h')

/-- The turn after an event. -/
def event (t : Turn) : Event → Option Turn
  | .speechStarted =>
    if t.stage = .pending then some { t with stage := .speaking, revision := t.revision + 1 }
    else if t.stage = .cut ∨ t.Over ∧ t.floor = false then
      some { t with stage := .speaking, turnId := t.turnId + 1, revision := 0 }
    else none
  | .speechStopped => if t.stage = .speaking then some { t with stage := .boundary } else none
  | .turnReopened => if t.stage = .boundary then some { t with stage := .pending } else none
  | .turnCommitted =>
    if t.stage = .boundary ∨ t.stage = .pending then some { t with stage := .committed false }
    else none
  | .turnFinal =>
    if t.stage = .committed true then some { t with stage := .waiting } else none
  | .turnResumed =>
    if ∃ released, t.stage = .committed released then
      some { t with stage := .speaking, revision := t.revision + 1 }
    else none
  | .bargeIn => if t.Over ∧ t.floor = true then some { t with stage := .cut } else none

section Trace

variable {F : Type}

/-- The turn after a report, which names it. -/
def report (t : Turn) (r : Report F) : Option Turn :=
  match t.event r.event with
  | some t' => if t'.turnId = r.turnId ∧ t'.revision = r.revision then some t' else none
  | none => none

/-- The turn after a call, which never comes in the middle of a boundary. -/
def call (t : Turn) (op : Op F) : Option Turn :=
  if t.stage = .boundary ∨ t.stage = .cut then none
  else match op with
    | .setSpeaking speaking => some { t with floor := speaking }
    | .release turnId revision =>
      if t.stage = .committed false ∧ turnId = t.turnId ∧ revision = t.revision then
        some { t with stage := .committed true }
      else some t
    | .push _ => some t
    | .setParams _ => some t

/-- The turn after a call or a report. -/
def next (t : Turn) : Item F → Option Turn
  | .call op => t.call op
  | .report r => t.report r

/-- The turn after a stretch of a run. -/
def follow (t : Turn) : List (Item F) → Option Turn
  | [] => some t
  | item :: items => (t.next item).bind fun t' => t'.follow items

/-- The turn after some reports. -/
def reports (t : Turn) (rs : List (Report F)) : Option Turn := t.follow (rs.map .report)

@[simp] theorem follow_nil (t : Turn) : t.follow ([] : List (Item F)) = some t := rfl

@[simp] theorem follow_cons (t : Turn) (item : Item F) (items : List (Item F)) :
    t.follow (item :: items) = (t.next item).bind fun t' => t'.follow items := rfl

theorem follow_append (t : Turn) (l l' : List (Item F)) :
    t.follow (l ++ l') = (t.follow l).bind fun t' => t'.follow l' := by
  induction l generalizing t with
  | nil => rfl
  | cons item items ih =>
    rw [List.cons_append, follow_cons, follow_cons]
    cases t.next item with
    | none => rfl
    | some t' => exact ih t'

@[simp] theorem reports_nil (t : Turn) : t.reports ([] : List (Report F)) = some t := rfl

@[simp] theorem reports_cons (t : Turn) (r : Report F) (rs : List (Report F)) :
    t.reports (r :: rs) = (t.report r).bind fun t' => t'.reports rs := rfl

theorem reports_append (t : Turn) (rs rs' : List (Report F)) :
    t.reports (rs ++ rs') = (t.reports rs).bind fun t' => t'.reports rs' := by
  rw [reports, List.map_append, follow_append]
  rfl

end Trace

end Turn

/-! ### The session as a turn -/

section Session

variable {F V : Type} (M : Models F V)

/-- The stage that the phase and the two flags stand for. -/
def State.stage (s : State F V) : Stage :=
  match s.phase with
  | .idle => if s.committed then .committed s.released else .waiting
  | .userSpeaking => .speaking
  | .pendingEnd => .pending

/-- The turn a session holds. -/
def State.turn (s : State F V) : Turn := ⟨s.stage, s.turnId, s.revision, s.speaking⟩

/-- **What the fields of a session keep to each other.**  A committed turn waits in `IDLE`; one
that is released as well waits for its grace alone; nothing else has a grace. -/
structure State.Coherent (s : State F V) : Prop where
  idle_of_committed : s.committed = true → s.phase = .idle
  grace_of_released : s.committed = true → s.released = true → 0 < s.graceLeft
  committed_of_grace : 0 < s.graceLeft → s.committed = true

theorem State.stage_committed {s : State F V} (hs : s.Coherent) (h : s.committed = true) :
    s.stage = .committed s.released := by
  simp [State.stage, hs.idle_of_committed h, h]

theorem State.stage_eq_committed {s : State F V} {released : Bool} :
    s.stage = .committed released ↔
      s.phase = .idle ∧ s.committed = true ∧ s.released = released := by
  unfold State.stage
  cases s.phase <;> cases s.committed <;> simp

/-- **A step keeps to the grammar**: what it reported leads from the turn to the turn after it. -/
def Keeps (s : State F V) (step : State F V × List (Report F)) : Prop :=
  s.turn.reports step.2 = some step.1.turn ∧ step.1.Coherent

theorem Keeps.andThen {s : State F V} {one rest : State F V × List (Report F)}
    (h₁ : Keeps s one) (h₂ : Keeps one.1 rest) : Keeps s (rest.1, one.2 ++ rest.2) :=
  ⟨by rw [Turn.reports_append, h₁.1, Option.bind_some, h₂.1], h₂.2⟩

theorem coherent_of_not_committed {s : State F V} (h : s.committed = false)
    (hg : s.graceLeft = 0) : s.Coherent :=
  ⟨fun h' => by simp [h] at h', fun h' => by simp [h] at h', fun h' => by simp [hg] at h'⟩

/-- `s2s_session_try_final`, on a session whose grace may just have run out. -/
theorem keeps_tryFinal {s : State F V} (hidle : s.committed = true → s.phase = .idle)
    (hgrace : 0 < s.graceLeft → s.committed = true) : Keeps s (tryFinal M s) := by
  unfold tryFinal
  split_ifs with h
  · obtain ⟨hc, hr, hg⟩ := h
    refine ⟨?_, coherent_of_not_committed rfl hg⟩
    simp [Turn.report, Turn.event, emit, State.turn, State.stage, hidle hc, hc, hr]
  · refine ⟨rfl, hidle, fun hc hr => ?_, hgrace⟩
    by_contra hg
    exact h ⟨hc, hr, Nat.eq_zero_of_not_pos hg⟩

theorem keeps_tickGrace {s : State F V} (hs : s.Coherent) : Keeps s (tickGrace M s) := by
  unfold tickGrace
  split_ifs with hpos
  · have hc := hs.committed_of_grace hpos
    dsimp only
    split_ifs with hzero
    · exact keeps_tryFinal M (s := { s with graceLeft := s.graceLeft - 1 })
        hs.idle_of_committed (fun _ => hc)
    · exact ⟨rfl, hs.idle_of_committed, fun _ _ => Nat.pos_of_ne_zero hzero, fun _ => hc⟩
  · exact ⟨rfl, hs⟩

@[simp] theorem turn_hear (s : State F V) (window : List F) : (hear M s window).turn = s.turn :=
  rfl

theorem coherent_hear {s : State F V} (hs : s.Coherent) (window : List F) :
    (hear M s window).Coherent :=
  ⟨hs.1, hs.2, hs.3⟩

theorem keeps_advanceIdle {s : State F V} (hs : s.Coherent) (hphase : s.phase = .idle) :
    Keeps s (advanceIdle M s) := by
  have hover : s.turn.Over := by
    cases hc : s.committed with
    | true => exact .inr ⟨s.released, State.stage_committed hs hc⟩
    | false => exact .inl (by simp [State.turn, State.stage, hphase, hc])
  have hcut : s.turn.stage ≠ .pending := by
    rcases hover with h | ⟨_, h⟩ <;> simp [h]
  unfold advanceIdle
  by_cases hresume : s.committed ∧ s.counts.reopenWindows ≤ s.speechRun
  · rw [if_pos hresume]
    have hstage := State.stage_committed hs hresume.1
    refine ⟨?_, coherent_of_not_committed rfl rfl⟩
    simp [Turn.report, Turn.event, resume, emit, State.turn, hstage]
    simp [State.stage]
  · rw [if_neg hresume]
    cases hspeaking : s.speaking with
    | true =>
      have hfloor : s.turn.floor = true := hspeaking
      simp only [if_true]
      split_ifs
      · refine ⟨?_, coherent_of_not_committed rfl rfl⟩
        simp only [List.cons_append, List.nil_append, openTurn, Turn.reports_cons,
          Turn.reports_nil, Turn.report, Turn.event, emit, hover, hfloor]
        simp [State.turn, State.stage, hspeaking]
      · exact ⟨rfl, hs⟩
    | false =>
      have hfloor : s.turn.floor = false := hspeaking
      simp only [Bool.false_eq_true, if_false]
      split_ifs
      · refine ⟨?_, coherent_of_not_committed rfl rfl⟩
        simp only [List.nil_append, openTurn, Turn.reports_cons, Turn.reports_nil, Turn.report,
          Turn.event, emit, hover, hfloor, hcut]
        simp [State.turn, State.stage, hspeaking]
      · exact ⟨rfl, hs⟩

theorem coherent_commit (s : State F V) (score : F) (grace : ℕ) :
    (commit M s score grace).1.Coherent :=
  ⟨fun _ => rfl, fun _ h => by simp [commit] at h, fun _ => rfl⟩

theorem keeps_advanceSpeaking {s : State F V} (hs : s.Coherent) (hphase : s.phase = .userSpeaking) :
    Keeps s (advanceSpeaking M s) := by
  have hc : s.committed = false := by
    by_contra h
    have := hs.idle_of_committed (by simpa using h)
    simp [hphase] at this
  have hg : s.graceLeft = 0 := by
    by_contra h
    have := hs.committed_of_grace (by omega)
    simp [hc] at this
  unfold advanceSpeaking
  dsimp only
  split_ifs
  · refine ⟨?_, coherent_commit M _ (M.predict s.stream.read) _⟩
    simp [Turn.report, Turn.event, commit, emit, State.turn, State.stage, hphase]
  · refine ⟨?_, coherent_of_not_committed hc hg⟩
    simp [Turn.report, Turn.event, emit, State.turn, State.stage, hphase]
  · exact ⟨rfl, hs⟩

theorem keeps_advancePending {s : State F V} (hs : s.Coherent) (hphase : s.phase = .pendingEnd) :
    Keeps s (advancePending M s) := by
  have hc : s.committed = false := by
    by_contra h
    have := hs.idle_of_committed (by simpa using h)
    simp [hphase] at this
  have hg : s.graceLeft = 0 := by
    by_contra h
    have := hs.committed_of_grace (by omega)
    simp [hc] at this
  unfold advancePending
  dsimp only
  split_ifs
  · refine ⟨?_, coherent_of_not_committed hc hg⟩
    simp [Turn.report, Turn.event, emit, State.turn, State.stage, hphase]
  · refine ⟨?_, coherent_commit M _ M.zero _⟩
    simp [Turn.report, Turn.event, commit, emit, State.turn, State.stage, hphase]
  · exact ⟨rfl, hs.1, hs.2, hs.3⟩

theorem keeps_advance {s : State F V} (hs : s.Coherent) : Keeps s (advance M s) := by
  unfold advance
  split
  case h_1 hphase => exact keeps_advanceIdle M hs hphase
  case h_2 hphase => exact keeps_advanceSpeaking M hs hphase
  case h_3 hphase => exact keeps_advancePending M hs hphase

/-- **A window keeps to the grammar.** -/
theorem keeps_sessionWindow {s : State F V} (hs : s.Coherent) (window : List F) :
    Keeps s (sessionWindow M s window) := by
  have htick := keeps_tickGrace M hs
  have hheard := coherent_hear M htick.2 window
  have hadv := keeps_advance M hheard
  refine ⟨?_, hadv.2.1, hadv.2.2, hadv.2.3⟩
  change s.turn.reports ((tickGrace M s).2 ++ _) = some (advance M _).1.turn
  rw [Turn.reports_append, htick.1, Option.bind_some, ← hadv.1, turn_hear]

theorem keeps_pushWindows (n : ℕ) {s : State F V} (hs : s.Coherent) (pcm : List F) :
    Keeps s (pushWindows M n s pcm) := by
  induction n generalizing s pcm with
  | zero => exact ⟨rfl, hs.1, hs.2, hs.3⟩
  | succ n ih =>
    have hone := keeps_sessionWindow M hs (pcm.take M.window)
    exact hone.andThen (ih hone.2 _)

theorem keeps_push {s : State F V} (hs : s.Coherent) (pcm : List F) : Keeps s (push M s pcm) := by
  unfold push
  dsimp only
  split_ifs
  · exact keeps_pushWindows M _ hs pcm
  · exact ⟨rfl, hs.1, hs.2, hs.3⟩
  · have hfilled : ({ s with
        partialPcm := s.partialPcm ++ pcm.take (min (M.window - s.partialPcm.length) pcm.length) } :
          State F V).Coherent := ⟨hs.1, hs.2, hs.3⟩
    have hone := keeps_sessionWindow M hfilled
      (s.partialPcm ++ pcm.take (min (M.window - s.partialPcm.length) pcm.length))
    have hcleared : Keeps s (({ (sessionWindow M _ _).1 with partialPcm := [] } : State F V),
        (sessionWindow M _ _).2) := ⟨hone.1, hone.2.1, hone.2.2, hone.2.3⟩
    exact hcleared.andThen (keeps_pushWindows M _ hcleared.2 _)

/-- **A call keeps to the grammar**: the call and what it reported lead from the turn before it to
the turn after it. -/
theorem follow_apply {s : State F V} (hs : s.Coherent) (op : Op F) :
    s.turn.follow (.call op :: (apply M s op).2.map .report) = some (apply M s op).1.turn ∧
      (apply M s op).1.Coherent := by
  have hcall : ¬(s.turn.stage = .boundary ∨ s.turn.stage = .cut) := by
    simp only [State.turn, State.stage]
    cases s.phase <;> cases s.committed <;> simp
  cases op with
  | push pcm =>
    rw [Turn.follow_cons, Turn.next, Turn.call, if_neg hcall]
    exact keeps_push M hs pcm
  | setSpeaking speaking =>
    rw [Turn.follow_cons, Turn.next, Turn.call, if_neg hcall]
    exact ⟨rfl, hs.1, hs.2, hs.3⟩
  | setParams p =>
    rw [Turn.follow_cons, Turn.next, Turn.call, if_neg hcall]
    exact ⟨rfl, hs.1, hs.2, hs.3⟩
  | release turnId revision =>
    rw [Turn.follow_cons, Turn.next, Turn.call, if_neg hcall]
    dsimp only [apply]
    by_cases hnamed : s.committed ∧ turnId = s.turnId ∧ revision = s.revision
    · have hc := hnamed.1
      have hstage : s.turn.stage = .committed s.released := State.stage_committed hs hc
      have hkeeps : Keeps ({ s with released := true } : State F V)
          (tryFinal M { s with released := true }) :=
        keeps_tryFinal M hs.idle_of_committed hs.committed_of_grace
      have hturn : ({ s with released := true } : State F V).turn
          = ⟨.committed true, s.turnId, s.revision, s.speaking⟩ := by
        simp [State.turn, State.stage, hs.idle_of_committed hc, hc]
      have hnext : (if s.turn.stage = .committed false ∧ turnId = s.turn.turnId
            ∧ revision = s.turn.revision then
            some { s.turn with stage := .committed true } else some s.turn)
          = some ({ s with released := true } : State F V).turn := by
        rw [hturn, hstage]
        cases hr : s.released with
        | true => simp [State.turn, State.stage, hs.idle_of_committed hc, hc, hr]
        | false => simp [State.turn, hnamed.2.1, hnamed.2.2]
      rw [release, if_pos hnamed, hnext, Option.bind_some]
      exact hkeeps
    · have hstage : ¬(s.turn.stage = .committed false ∧ turnId = s.turn.turnId
          ∧ revision = s.turn.revision) := fun h =>
        hnamed ⟨(State.stage_eq_committed.1 h.1).2.1, h.2⟩
      rw [release, if_neg hnamed, if_neg hstage]
      exact ⟨rfl, hs⟩

theorem coherent_sessionNew (vad : V) (p : Params F) : (sessionNew M vad p).Coherent :=
  coherent_of_not_committed rfl rfl

@[simp] theorem turn_sessionNew (vad : V) (p : Params F) : (sessionNew M vad p).turn = .start := rfl

/-- **A run keeps to the grammar.**  Whatever is called, in whatever order, what the run shows
leads from the turn before it to the turn after it. -/
theorem follow_run {s : State F V} (hs : s.Coherent) (ops : List (Op F)) :
    s.turn.follow (run M s ops).2 = some (run M s ops).1.turn ∧ (run M s ops).1.Coherent := by
  induction ops generalizing s with
  | nil => exact ⟨rfl, hs⟩
  | cons op ops ih =>
    have hone := follow_apply M hs op
    have hrest := ih hone.2
    refine ⟨?_, hrest.2⟩
    rw [run, Turn.follow_append, hone.1, Option.bind_some]
    exact hrest.1

end Session

end Session
end S2S
