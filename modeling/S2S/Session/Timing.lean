/-
# When a turn is committed, and when it is final

The windows of `s2s_session_window` counted from one report to another, for a
session whose thresholds stay as they are.  A commit comes in the window of the
boundary when the classifier judged the turn complete, and `delay_windows` after
it otherwise (`Judged`); the grace it is given then runs out after as many
windows, and the turn is final at the later of that window and its release
(`Due`).  `timing_run` says so of every run; `final_without_audio_iff` says what
is left of it once the audio stops.
-/

import S2S.Session.Grace
import S2S.Session.Steps

namespace S2S
namespace Session

variable {F V : Type} (M : Models F V)

/-! ### One window -/

/-- A turn handed over with `grace` windows, as the report `r` says. -/
structure State.Fresh (s : State F V) (r : Report F) (grace : ℕ) : Prop where
  committed : s.committed = true
  released : s.released = false
  graceLeft : s.graceLeft = grace
  pair : r.pair = s.turn.pair
  event : r.event = .turnCommitted
  graceSec : r.graceSec = (grace * M.window : ℚ) / M.sampleRate

/-- What the window of a boundary, or one that waits behind it, does. -/
inductive Ends (s : State F V) (out : State F V × List (Report F)) : Prop
  | speaks (speaking : s.phase = .userSpeaking) (reports : out.2 = [])
      (phase : out.1.phase = .userSpeaking)
  | completes (speaking : s.phase = .userSpeaking) (stopped r : Report F)
      (reports : out.2 = [stopped, r]) (event : stopped.event = .speechStopped)
      (same : stopped.pair = r.pair) (score : M.ge r.turnScore s.params.turnThreshold = true)
      (fresh : out.1.Fresh M r s.counts.graceWindows)
  | waits (speaking : s.phase = .userSpeaking) (stopped reopened : Report F)
      (reports : out.2 = [stopped, reopened]) (event : stopped.event = .speechStopped)
      (verdict : reopened.event = .turnReopened) (same : stopped.pair = s.turn.pair)
      (score : M.ge reopened.turnScore s.params.turnThreshold = false)
      (phase : out.1.phase = .pendingEnd) (pair : out.1.turn.pair = s.turn.pair)
      (run : out.1.pendingRun = 0)
  | goesOn (pending : s.phase = .pendingEnd) (reports : out.2 = [])
      (phase : out.1.phase = .pendingEnd) (pair : out.1.turn.pair = s.turn.pair)
      (run : out.1.pendingRun = s.pendingRun + 1)
      (short : s.pendingRun + 1 < s.counts.delayWindows)
  | restarts (pending : s.phase = .pendingEnd) (r : Report F) (reports : out.2 = [r])
      (event : r.event = .speechStarted) (phase : out.1.phase = .userSpeaking)
  | commits (pending : s.phase = .pendingEnd) (r : Report F) (reports : out.2 = [r])
      (same : r.pair = s.turn.pair) (late : s.counts.delayWindows ≤ s.pendingRun + 1)
      (fresh : out.1.Fresh M r (s.counts.waitWindows - s.counts.delayWindows))

/-- What a window does to a committed turn: its grace runs out, nothing happens, or somebody
speaks. -/
inductive Holds (s : State F V) (out : State F V × List (Report F)) : Prop
  | finals (last : s.graceLeft = 1) (released : s.released = true)
      (final : ∃ f ∈ out.2, f.event = .turnFinal ∧ f.pair = s.turn.pair)
  | keeps (left : ¬(s.graceLeft = 1 ∧ s.released = true)) (reports : out.2 = [])
      (committed : out.1.committed = true) (released : out.1.released = s.released)
      (pair : out.1.turn.pair = s.turn.pair) (graceLeft : out.1.graceLeft = s.graceLeft - 1)
  | goesOn (left : ¬(s.graceLeft = 1 ∧ s.released = true))
      (silent : ∀ f ∈ out.2, f.event ≠ .turnFinal)
      (disturbed : ∃ r ∈ out.2, r.event = .turnResumed ∨ r.event = .speechStarted)

theorem tickGrace_of_zero {s : State F V} (h : s.graceLeft = 0) : tickGrace M s = (s, []) := by
  rw [tickGrace, if_neg (by omega)]

theorem not_committed_of_phase {s : State F V} (hs : s.Coherent) (h : s.phase ≠ .idle) :
    s.committed = false ∧ s.graceLeft = 0 := by
  have hc : s.committed = false := by
    by_contra hc
    exact h (hs.idle_of_committed (by simpa using hc))
  refine ⟨hc, ?_⟩
  by_contra hg
  have := hs.committed_of_grace (by omega)
  simp [hc] at this

/-- **While the user speaks, or the turn waits for them to come back.** -/
theorem ends_sessionWindow {s : State F V} (hs : s.Coherent) (hphase : s.phase ≠ .idle)
    (window : List F) : Ends M s (sessionWindow M s window) := by
  have hgrace := (not_committed_of_phase hs hphase).2
  unfold sessionWindow
  rw [tickGrace_of_zero M hgrace]
  dsimp only
  rw [List.nil_append]
  set t := hear M s window with ht
  have htphase : t.phase = s.phase := rfl
  have htcounts : t.counts = s.counts := rfl
  have htparams : t.params = s.params := rfl
  have htpair : t.turn.pair = s.turn.pair := rfl
  have htrun : t.pendingRun = s.pendingRun := rfl
  clear_value t
  cases hp : s.phase with
  | idle => exact absurd hp hphase
  | userSpeaking =>
    rw [hp] at htphase
    unfold advance
    rw [htphase]
    dsimp only
    unfold advanceSpeaking
    by_cases hclose : t.counts.closeWindows ≤ t.silenceRun
    · rw [if_pos hclose]
      dsimp only
      by_cases hscore : M.ge (M.predict t.stream.read) t.params.turnThreshold = true
      · rw [if_pos hscore]
        exact .completes hp _ _ rfl rfl rfl (htparams ▸ hscore)
          ⟨rfl, rfl, congrArg Counts.graceWindows htcounts, rfl, rfl, by
            simp [emit, htcounts]⟩
      · rw [if_neg hscore]
        exact .waits hp _ _ rfl rfl rfl htpair (by simpa [emit, htparams] using hscore) rfl htpair rfl
    · rw [if_neg hclose]
      exact .speaks hp rfl htphase
  | pendingEnd =>
    rw [hp] at htphase
    unfold advance
    rw [htphase]
    dsimp only
    unfold advancePending
    dsimp only
    by_cases hspeech : t.counts.reopenWindows ≤ t.speechRun
    · rw [if_pos hspeech]
      exact .restarts hp _ rfl rfl rfl
    · rw [if_neg hspeech]
      by_cases hdelay : t.counts.delayWindows ≤ t.pendingRun + 1
      · rw [if_pos hdelay]
        rw [htcounts, htrun] at hdelay
        exact .commits hp _ rfl htpair hdelay
          ⟨rfl, rfl, congrArg (fun c => c.waitWindows - c.delayWindows) htcounts, rfl, rfl, by
            simp [emit, htcounts]⟩
      · rw [if_neg hdelay]
        rw [htcounts, htrun] at hdelay
        exact .goesOn hp rfl htphase htpair (congrArg (· + 1) htrun) (by omega)

/-- The grace of a committed turn that does not become final. -/
theorem tickGrace_committed {s : State F V} (hs : s.Coherent)
    (hleft : ¬(s.graceLeft = 1 ∧ s.released = true)) :
    tickGrace M s = ({ s with graceLeft := s.graceLeft - 1 }, []) := by
  unfold tickGrace
  by_cases hpos : 0 < s.graceLeft
  · rw [if_pos hpos]
    dsimp only
    by_cases hzero : s.graceLeft - 1 = 0
    · rw [if_pos hzero, tryFinal, if_neg]
      rintro ⟨-, hreleased, -⟩
      exact hleft ⟨by omega, hreleased⟩
    · rw [if_neg hzero]
  · have hzero : s.graceLeft = 0 := by omega
    rw [if_neg hpos]
    cases s
    simp_all

/-- **While a committed turn waits.** -/
theorem holds_sessionWindow {s : State F V} (hs : s.Coherent) (hcommitted : s.committed = true)
    (window : List F) : Holds s (sessionWindow M s window) := by
  by_cases hfinal : s.graceLeft = 1 ∧ s.released = true
  · obtain ⟨hlast, hreleased⟩ := hfinal
    refine .finals hlast hreleased ⟨emit M { s with
      graceLeft := s.graceLeft - 1, committed := false, turnPcm := [] } .turnFinal M.zero, ?_, rfl, rfl⟩
    refine List.mem_append_left _ ?_
    unfold tickGrace tryFinal
    rw [if_pos (by omega)]
    dsimp only
    rw [if_pos (by omega), if_pos ⟨hcommitted, hreleased, by omega⟩]
    exact List.mem_singleton_self _
  · unfold sessionWindow
    rw [tickGrace_committed M hs hfinal]
    dsimp only
    rw [List.nil_append]
    set t := hear M { s with graceLeft := s.graceLeft - 1 } window with ht
    have htphase : t.phase = .idle := hs.idle_of_committed hcommitted
    have htcommitted : t.committed = true := hcommitted
    have htpair : t.turn.pair = s.turn.pair := rfl
    have htleft : t.graceLeft = s.graceLeft - 1 := rfl
    have htreleased : t.released = s.released := rfl
    clear_value t
    unfold advance
    rw [htphase]
    dsimp only
    unfold advanceIdle
    by_cases hresume : t.committed ∧ t.counts.reopenWindows ≤ t.speechRun
    · rw [if_pos hresume]
      exact .goesOn hfinal (by simp [resume, emit]) ⟨_, List.mem_singleton_self _, .inl rfl⟩
    · rw [if_neg hresume]
      by_cases hopen : (if t.speaking then t.counts.bargeWindows else t.counts.openWindows) ≤ t.speechRun
      · rw [if_pos hopen]
        refine .goesOn hfinal ?_
          ⟨_, List.mem_append_right _ (List.mem_singleton_self _), .inr rfl⟩
        intro f hf
        dsimp only at hf
        rcases List.mem_append.1 hf with hf | hf
        · split_ifs at hf
          · rw [List.mem_singleton.1 hf]
            simp [emit]
          · simp at hf
        · rw [List.mem_singleton.1 hf]
          simp [emit]
      · rw [if_neg hopen]
        exact .keeps hfinal rfl htcommitted htreleased htpair htleft

/-- In `IDLE` nothing is committed and no boundary waits. -/
theorem idle_sessionWindow {s : State F V} (hphase : s.phase = .idle) (window : List F) :
    (∀ r ∈ (sessionWindow M s window).2, r.event ≠ .turnCommitted) ∧
      (sessionWindow M s window).1.phase ≠ .pendingEnd := by
  have hfinal : ∀ t : State F V, t.phase = .idle → (tryFinal M t).1.phase = .idle ∧
      ∀ r ∈ (tryFinal M t).2, r.event ≠ .turnCommitted := by
    intro t ht
    unfold tryFinal
    split_ifs
    · exact ⟨ht, by simp [emit]⟩
    · exact ⟨ht, by simp⟩
  have htick : (tickGrace M s).1.phase = .idle ∧
      ∀ r ∈ (tickGrace M s).2, r.event ≠ .turnCommitted := by
    unfold tickGrace
    dsimp only
    split_ifs
    · exact hfinal _ hphase
    · exact ⟨hphase, by simp⟩
    · exact ⟨hphase, by simp⟩
  have hadvance : ∀ t : State F V, t.phase = .idle → (advance M t).1.phase ≠ .pendingEnd ∧
      ∀ r ∈ (advance M t).2, r.event ≠ .turnCommitted := by
    intro t ht
    unfold advance
    rw [ht]
    dsimp only
    unfold advanceIdle
    by_cases hresume : t.committed ∧ t.counts.reopenWindows ≤ t.speechRun
    · rw [if_pos hresume]
      exact ⟨by simp [resume], by simp [resume, emit]⟩
    · rw [if_neg hresume]
      by_cases hopen : (if t.speaking then t.counts.bargeWindows else t.counts.openWindows) ≤ t.speechRun
      · rw [if_pos hopen]
        refine ⟨by simp [openTurn], fun r hr => ?_⟩
        rcases List.mem_append.1 hr with hr | hr
        · split_ifs at hr
          · simp [List.mem_singleton.1 hr, emit]
          · simp at hr
        · simp [List.mem_singleton.1 hr, emit]
      · rw [if_neg hopen]
        exact ⟨by simp [ht], by simp⟩
  obtain ⟨hafter, hreports⟩ := hadvance (hear M (tickGrace M s).1 window) htick.1
  refine ⟨fun r hr => ?_, hafter⟩
  rcases List.mem_append.1 hr with hr | hr
  · exact htick.2 r hr
  · exact hreports r hr

/-- The state machine leaves the settings and what was heard. -/
theorem advance_keeps (t : State F V) : (advance M t).1.params = t.params ∧
    (advance M t).1.counts = t.counts ∧ (advance M t).1.inSpeech = t.inSpeech := by
  unfold advance
  cases t.phase with
  | idle =>
    dsimp only [advanceIdle]
    by_cases hresume : t.committed ∧ t.counts.reopenWindows ≤ t.speechRun
    · rw [if_pos hresume]
      exact ⟨rfl, rfl, rfl⟩
    · rw [if_neg hresume]
      split_ifs <;> exact ⟨rfl, rfl, rfl⟩
  | userSpeaking =>
    dsimp only [advanceSpeaking]
    split_ifs <;> exact ⟨rfl, rfl, rfl⟩
  | pendingEnd =>
    dsimp only [advancePending]
    split_ifs <;> exact ⟨rfl, rfl, rfl⟩

/-- A window leaves the settings. -/
theorem settings_sessionWindow (s : State F V) (window : List F) :
    (sessionWindow M s window).1.params = s.params ∧
      (sessionWindow M s window).1.counts = s.counts := by
  have hfinal : ∀ t : State F V, (tryFinal M t).1.params = t.params ∧
      (tryFinal M t).1.counts = t.counts := by
    intro t
    unfold tryFinal
    split_ifs <;> exact ⟨rfl, rfl⟩
  have htick : (tickGrace M s).1.params = s.params ∧ (tickGrace M s).1.counts = s.counts := by
    unfold tickGrace
    dsimp only
    split_ifs
    · exact hfinal _
    · exact ⟨rfl, rfl⟩
    · exact ⟨rfl, rfl⟩
  obtain ⟨hparams, hcounts, -⟩ := advance_keeps M (hear M (tickGrace M s).1 window)
  exact ⟨hparams.trans htick.1, hcounts.trans htick.2⟩

/-! ### The commit -/

/-- The boundary that `stop` reports, which the classifier judged unfinished. -/
structure Unfinished (p : Params F) (pair : ℕ × ℕ) (stop : Moment F) : Prop where
  window : stop.1.isWindow = true
  verdict : ∃ stopped reopened, stop.2 = [stopped, reopened] ∧ stopped.event = .speechStopped ∧
    stopped.pair = pair ∧ reopened.event = .turnReopened ∧
    M.ge reopened.turnScore p.turnThreshold = false

/-- **How the commit that `m` reports with `r` was judged**, `before` what happened until then: at
once, when the classifier found the turn complete at the boundary just before it, or `delay_windows`
after the last boundary, with what is left of `wait_windows` as its grace. -/
inductive Judged (p : Params F) (before : List (Moment F)) (m : Moment F) (r : Report F)
    (grace : ℕ) : Prop
  | complete (stopped : Report F) (reports : m.2 = [stopped, r])
      (event : stopped.event = .speechStopped) (same : stopped.pair = r.pair)
      (score : M.ge r.turnScore p.turnThreshold = true)
      (given : grace = (Counts.of M p).graceWindows)
  | incomplete (earlier : List (Moment F)) (stop : Moment F) (between : List (Moment F))
      (split : before = earlier ++ stop :: between) (unfinished : Unfinished M p r.pair stop)
      (last : ∀ m ∈ between, ∀ r ∈ m.2, r.event ≠ .speechStopped)
      (delay : clock before = clock earlier + (Counts.of M p).delayWindows)
      (given : grace + (Counts.of M p).delayWindows = (Counts.of M p).waitWindows)
      (wait : clock before + grace = clock earlier + (Counts.of M p).waitWindows)

theorem delayWindows_pos (p : Params F) : 0 < (Counts.of M p).delayWindows :=
  Nat.lt_min.2 ⟨M.windows_pos _, M.windows_pos _⟩

/-- Where a session with fixed thresholds stands after `h`. -/
structure Standing (p : Params F) (h : List (Moment F)) (s : State F V) : Prop where
  coherent : s.Coherent
  params : s.params = p
  counts : s.counts = Counts.of M p
  /-- A boundary that waits was the last one, as many windows ago as were counted. -/
  pending : s.phase = .pendingEnd → ∃ earlier stop between, h = earlier ++ stop :: between ∧
    Unfinished M p s.turn.pair stop ∧ (∀ m ∈ between, ∀ r ∈ m.2, r.event ≠ .speechStopped) ∧
    clock h = clock earlier + 1 + s.pendingRun ∧ s.pendingRun < (Counts.of M p).delayWindows

variable {M}

theorem standing_sessionNew (vad : V) (p : Params F) : Standing M p [] (sessionNew M vad p) where
  coherent := coherent_sessionNew M vad p
  params := rfl
  counts := rfl
  pending := by simp [sessionNew, setParams]

theorem coherent_oneStep {s : State F V} (hs : s.Coherent) (x : Step F) :
    (oneStep M s x).1.Coherent := by
  cases x with
  | window pcm => exact (keeps_sessionWindow M hs pcm).2
  | setSpeaking speaking => exact (follow_apply M hs (.setSpeaking speaking)).2
  | release turnId revision => exact (follow_apply M hs (.release turnId revision)).2
  | setParams p => exact (follow_apply M hs (.setParams p)).2

/-- A release of what is not committed is nothing, and it never touches the rest. -/
theorem release_fields (s : State F V) (turnId revision : ℤ) :
    (release M s turnId revision).1.params = s.params ∧
      (release M s turnId revision).1.counts = s.counts ∧
      (release M s turnId revision).1.phase = s.phase ∧
      (release M s turnId revision).1.turn.pair = s.turn.pair ∧
      (release M s turnId revision).1.pendingRun = s.pendingRun ∧
      ∀ r ∈ (release M s turnId revision).2, r.event = .turnFinal := by
  unfold release tryFinal
  dsimp only
  split_ifs
  · exact ⟨rfl, rfl, rfl, rfl, rfl, by simp [emit]⟩
  · exact ⟨rfl, rfl, rfl, rfl, rfl, by simp⟩
  · exact ⟨rfl, rfl, rfl, rfl, rfl, by simp⟩

/-- A step that is no window leaves a boundary waiting as it is. -/
theorem Standing.aside {p : Params F} {h : List (Moment F)} {s s' : State F V} {m : Moment F}
    (hh : Standing M p h s) (hcoherent : s'.Coherent) (hparams : s'.params = s.params)
    (hcounts : s'.counts = s.counts) (hphase : s'.phase = s.phase)
    (hpair : s'.turn.pair = s.turn.pair) (hrun : s'.pendingRun = s.pendingRun)
    (hm : m.1.isWindow = false) (hevents : ∀ r ∈ m.2, r.event ≠ .speechStopped) :
    Standing M p (h ++ [m]) s' where
  coherent := hcoherent
  params := hparams.trans hh.params
  counts := hcounts.trans hh.counts
  pending := by
    intro hpending
    obtain ⟨earlier, stop, between, rfl, hstop, hlast, hclock, hshort⟩ :=
      hh.pending (hphase ▸ hpending)
    refine ⟨earlier, stop, between ++ [m], by simp, hpair ▸ hstop, ?_, ?_, hrun ▸ hshort⟩
    · intro m' hm'
      rcases List.mem_append.1 hm' with hm' | hm'
      · exact hlast m' hm'
      · exact List.mem_singleton.1 hm' ▸ hevents
    · rw [clock_append, hclock, clock_cons, hm, hrun]
      rfl

/-- **One step**, under thresholds that stay. -/
theorem Standing.step {p : Params F} {h : List (Moment F)} {s : State F V} (hh : Standing M p h s)
    {x : Step F} (hx : ∀ q, x ≠ .setParams q) :
    Standing M p (h ++ [(x, (oneStep M s x).2)]) (oneStep M s x).1 := by
  have hcoherent := coherent_oneStep (M := M) hh.coherent x
  cases x with
  | setParams q => exact absurd rfl (hx q)
  | setSpeaking speaking => exact hh.aside hcoherent rfl rfl rfl rfl rfl rfl (by simp [oneStep])
  | release turnId revision =>
    obtain ⟨hparams, hcounts, hphase, hpair, hrun, hevents⟩ :=
      release_fields (M := M) s turnId revision
    exact hh.aside hcoherent hparams hcounts hphase hpair hrun rfl
      fun r hr => by simp [hevents r hr]
  | window pcm =>
    obtain ⟨hparams, hcounts⟩ := settings_sessionWindow M s pcm
    refine ⟨hcoherent, hparams.trans hh.params, hcounts.trans hh.counts, fun hpending => ?_⟩
    change (sessionWindow M s pcm).1.phase = .pendingEnd at hpending
    by_cases hidle : s.phase = .idle
    · exact absurd hpending (idle_sessionWindow M hidle pcm).2
    · cases ends_sessionWindow M hh.coherent hidle pcm with
      | speaks speaking reports phase => simp [phase] at hpending
      | completes speaking stopped r reports event same score fresh =>
        have := hcoherent.idle_of_committed fresh.committed
        simp [oneStep, hpending] at this
      | waits speaking stopped reopened reports event verdict same score phase pair run =>
        refine ⟨h, _, [], rfl, ⟨rfl, stopped, reopened, reports, event, ?_, verdict, ?_⟩, by simp,
          ?_, ?_⟩
        · exact same.trans pair.symm
        · rw [← hh.params]
          exact score
        · show clock (h ++ [_]) = clock h + 1 + (sessionWindow M s pcm).1.pendingRun
          rw [clock_append, run]
          rfl
        · show (sessionWindow M s pcm).1.pendingRun < _
          rw [run]
          exact delayWindows_pos M p
      | goesOn pending reports phase pair run short =>
        obtain ⟨earlier, stop, between, rfl, hstop, hlast, hclock, -⟩ := hh.pending pending
        refine ⟨earlier, stop, between ++ [_], List.append_assoc .., ?_, ?_, ?_, ?_⟩
        · exact (show (sessionWindow M s pcm).1.turn.pair = _ from pair) ▸ hstop
        · intro m' hm'
          rcases List.mem_append.1 hm' with hm' | hm'
          · exact hlast m' hm'
          · rw [List.mem_singleton.1 hm']
            simp [oneStep, reports]
        · show clock (_ ++ [_]) = clock earlier + 1 + (sessionWindow M s pcm).1.pendingRun
          rw [clock_append, hclock, run]
          rfl
        · show (sessionWindow M s pcm).1.pendingRun < _
          rw [run, ← hh.counts]
          exact short
      | restarts pending r reports event phase => simp [phase] at hpending
      | commits pending r reports same late fresh =>
        have := hcoherent.idle_of_committed fresh.committed
        simp [oneStep, hpending] at this

/-- **Where a commit comes from.** -/
theorem Standing.judged {p : Params F} {h : List (Moment F)} {s : State F V} (hh : Standing M p h s)
    {x : Step F} {r : Report F} (hr : r ∈ (oneStep M s x).2) (hevent : r.event = .turnCommitted) :
    x.isWindow = true ∧ ∃ grace, Judged M p h (x, (oneStep M s x).2) r grace ∧
      (oneStep M s x).1.Fresh M r grace := by
  cases x with
  | setParams q => simp [oneStep] at hr
  | setSpeaking speaking => simp [oneStep] at hr
  | release turnId revision =>
    have := (release_fields (M := M) s turnId revision).2.2.2.2.2 r hr
    simp [hevent] at this
  | window pcm =>
    refine ⟨rfl, ?_⟩
    by_cases hidle : s.phase = .idle
    · exact absurd hevent ((idle_sessionWindow M hidle pcm).1 r hr)
    · change r ∈ (sessionWindow M s pcm).2 at hr
      cases ends_sessionWindow M hh.coherent hidle pcm with
      | speaks speaking reports phase => simp [reports] at hr
      | completes speaking stopped c reports event same score fresh =>
        rw [reports] at hr
        simp only [List.mem_cons, List.not_mem_nil, or_false] at hr
        rcases hr with rfl | rfl
        · simp [event] at hevent
        · exact ⟨_, .complete stopped reports event same (hh.params ▸ score)
            (congrArg Counts.graceWindows hh.counts), fresh⟩
      | waits speaking stopped reopened reports event verdict same score phase pair run =>
        rw [reports] at hr
        simp only [List.mem_cons, List.not_mem_nil, or_false] at hr
        rcases hr with rfl | rfl <;> simp_all
      | goesOn pending reports phase pair run short => simp [reports] at hr
      | restarts pending c reports event phase =>
        rw [reports, List.mem_singleton] at hr
        subst hr
        simp [event] at hevent
      | commits pending c reports same late fresh =>
        rw [reports, List.mem_singleton] at hr
        subst hr
        obtain ⟨earlier, stop, between, hsplit, hstop, hlast, hclock, hshort⟩ := hh.pending pending
        have hle := (Counts.of M p).delay_le_wait
        rw [hh.counts] at late fresh
        exact ⟨_, .incomplete earlier stop between hsplit (same ▸ hstop) hlast (by omega) (by omega)
          (by omega), fresh⟩

/-! ### The grace -/

/-- `p` was released. -/
def LetThrough (p : ℕ × ℕ) (h : List (Moment F)) : Prop := ∃ m ∈ h, m.1 = .release p.1 p.2

/-- Nothing resumed the committed turn, and nothing opened after it. -/
def Undisturbed (h : List (Moment F)) : Prop :=
  ∀ m ∈ h, ∀ r ∈ m.2, r.event ≠ .turnResumed ∧ r.event ≠ .speechStarted

/-- **The later of the end of the grace and the first release.**  `x` comes after `mid`, at the
window `now`; the grace of `p` ends at the window `deadline`. -/
def Due (p : ℕ × ℕ) (deadline now : ℕ) (mid : List (Moment F)) (x : Step F) : Prop :=
  x.isWindow = true ∧ now = deadline ∧ LetThrough p mid ∨
    x = .release p.1 p.2 ∧ ¬LetThrough p mid ∧ deadline < now

/-- `p` is declared final. -/
def Finals (p : ℕ × ℕ) (rs : List (Report F)) : Prop :=
  ∃ f ∈ rs, f.event = .turnFinal ∧ f.pair = p

/-- `p` was handed over and is not committed any more. -/
def Gone (p : ℕ × ℕ) (t : Turn) : Prop :=
  Behind p t ∧ (p = t.pair → t.stage = .waiting ∨ t.stage = .cut)

theorem not_earlier_self (p : ℕ × ℕ) : ¬Earlier p p := by
  unfold Earlier
  omega

/-- What follows a commit is another one, or the commit is gone. -/
theorem Gone.of_report {p : ℕ × ℕ} {t t' : Turn} {r : Report F} (hp : Behind p t)
    (h : t.report r = some t') : Gone p t' := by
  refine ⟨hp.report h, fun heq => ?_⟩
  have hhanded : p = t.pair ∧ Handed t := by
    rcases hp with hearlier | hhanded
    · rcases report_later h with ⟨hpair, -⟩ | hlater
      · rw [heq, hpair] at hearlier
        exact absurd hearlier (not_earlier_self _)
      · rw [← heq] at hlater
        exact absurd (hearlier.trans hlater) (not_earlier_self _)
    · exact hhanded
  obtain ⟨hmoves, -, -⟩ := report_some h
  cases hmoves with
  | finals released event after => exact .inl (by simp [after])
  | barges idle floor event after => exact .inr (by simp [after])
  | opens idle event after =>
    rw [after, hhanded.1] at heq
    simp [Turn.pair] at heq
  | restarts pending event after =>
    rw [after, hhanded.1] at heq
    simp [Turn.pair] at heq
  | resumes committed event after =>
    rw [after, hhanded.1] at heq
    simp [Turn.pair] at heq
  | stops speaking event after => simp [Handed, Turn.Over, speaking] at hhanded
  | reopens boundary event after => simp [Handed, Turn.Over, boundary] at hhanded
  | commits boundary event after =>
    rcases boundary with h | h <;> simp [Handed, Turn.Over, h] at hhanded

theorem Gone.not_final {p : ℕ × ℕ} {t t' : Turn} {r : Report F} (hp : Gone p t)
    (h : t.report r = some t') (hevent : r.event = .turnFinal) : r.pair ≠ p := by
  intro hpair
  obtain ⟨hmoves, -, -⟩ := report_some h
  cases hmoves with
  | finals released event after =>
    have hsame : p = t.pair := by rw [← hpair, ← pair_report h, after]; rfl
    rcases hp.2 hsame with hs | hs <;> simp [released] at hs
  | _ => simp_all

/-- Nothing brings it back. -/
theorem Gone.reports {p : ℕ × ℕ} {rs : List (Report F)} {t t' : Turn} (hp : Gone p t)
    (h : t.reports rs = some t') : Gone p t' ∧ ¬Finals p rs := by
  induction rs generalizing t with
  | nil => exact ⟨Option.some.inj h ▸ hp, by simp [Finals]⟩
  | cons r rs ih =>
    rw [Turn.reports_cons] at h
    obtain ⟨t₁, h₁, hrest⟩ := Option.bind_eq_some_iff.1 h
    obtain ⟨hgone, hnone⟩ := ih (.of_report hp.1 h₁) hrest
    refine ⟨hgone, ?_⟩
    rintro ⟨f, hf, hevent, hpair⟩
    rcases List.mem_cons.1 hf with rfl | hf
    · exact hp.not_final h₁ hevent hpair
    · exact hnone ⟨f, hf, hevent, hpair⟩

/-- Whatever is reported of a turn handed over, it is gone. -/
theorem Gone.of_reports {p : ℕ × ℕ} {rs : List (Report F)} {t t' : Turn} (hp : Behind p t)
    (hrs : rs ≠ []) (h : t.reports rs = some t') : Gone p t' := by
  cases rs with
  | nil => exact absurd rfl hrs
  | cons r rs =>
    rw [Turn.reports_cons] at h
    obtain ⟨t₁, h₁, hrest⟩ := Option.bind_eq_some_iff.1 h
    exact (Gone.reports (.of_report hp h₁) hrest).1

theorem Gone.call {p : ℕ × ℕ} {t t' : Turn} {op : Op F} (hp : Gone p t)
    (h : t.call op = some t') : Gone p t' := by
  refine ⟨hp.1.call h, fun heq => ?_⟩
  have hstage := hp.2 (heq.trans (pair_call h))
  obtain ⟨-, -, -, -, hsame | ⟨hc, -⟩⟩ := call_some h
  · rwa [hsame]
  · rcases hstage with hs | hs <;> simp [hc] at hs

/-- A step is a call at most, and the reports behind it. -/
theorem turn_oneStep {s : State F V} (hs : s.Coherent) (x : Step F) :
    ∃ t, (t = s.turn ∨ ∃ op : Op F, s.turn.call op = some t) ∧
      t.reports (oneStep M s x).2 = some (oneStep M s x).1.turn := by
  have hcall : ∀ op : Op F, ∃ t, (t = s.turn ∨ ∃ op : Op F, s.turn.call op = some t) ∧
      t.reports (apply M s op).2 = some (apply M s op).1.turn := by
    intro op
    obtain ⟨h, -⟩ := follow_apply M hs op
    rw [Turn.follow_cons] at h
    obtain ⟨t, ht, hreports⟩ := Option.bind_eq_some_iff.1 h
    exact ⟨t, .inr ⟨op, ht⟩, hreports⟩
  cases x with
  | window pcm => exact ⟨s.turn, .inl rfl, (keeps_sessionWindow M hs pcm).1⟩
  | setSpeaking speaking => exact hcall (.setSpeaking speaking)
  | release turnId revision => exact hcall (.release turnId revision)
  | setParams p => exact hcall (.setParams p)

theorem Gone.step {p : ℕ × ℕ} {s : State F V} (hs : s.Coherent) (hp : Gone p s.turn)
    (x : Step F) : Gone p (oneStep M s x).1.turn ∧ ¬Finals p (oneStep M s x).2 := by
  obtain ⟨t, ht, hreports⟩ := turn_oneStep (M := M) hs x
  have hgone : Gone p t := by
    rcases ht with rfl | ⟨op, hop⟩
    · exact hp
    · exact hp.call hop
  exact hgone.reports hreports

theorem Gone.of_step {p : ℕ × ℕ} {s : State F V} (hs : s.Coherent) (hp : Behind p s.turn)
    {x : Step F} (hx : (oneStep M s x).2 ≠ []) : Gone p (oneStep M s x).1.turn := by
  obtain ⟨t, ht, hreports⟩ := turn_oneStep (M := M) hs x
  have hbehind : Behind p t := by
    rcases ht with rfl | ⟨op, hop⟩
    · exact hp
    · exact hp.call hop
  exact .of_reports hbehind hx hreports

@[simp] theorem letThrough_append {p : ℕ × ℕ} {h : List (Moment F)} {m : Moment F} :
    LetThrough p (h ++ [m]) ↔ LetThrough p h ∨ m.1 = .release p.1 p.2 := by
  simp [LetThrough, or_and_right, exists_or]

theorem undisturbed_append {h : List (Moment F)} {m : Moment F} :
    Undisturbed (h ++ [m]) ↔ Undisturbed h ∧
      ∀ r ∈ m.2, r.event ≠ .turnResumed ∧ r.event ≠ .speechStarted := by
  simp only [Undisturbed, List.forall_mem_append, List.forall_mem_singleton]

/-- The turn `p` still waits, `mid` after it was committed. -/
structure Waiting (p : ℕ × ℕ) (grace : ℕ) (mid : List (Moment F)) (s : State F V) : Prop where
  committed : s.committed = true
  pair : s.turn.pair = p
  released : s.released = true ↔ LetThrough p mid
  graceLeft : s.graceLeft = grace - clock mid
  undisturbed : Undisturbed mid

/-- It does not any more: it was disturbed, or it had all that it needed. -/
def Spent (p : ℕ × ℕ) (grace : ℕ) (mid : List (Moment F)) (s : State F V) : Prop :=
  Gone p s.turn ∧ (¬Undisturbed mid ∨ LetThrough p mid ∧ grace ≤ clock mid)

theorem Waiting.behind {p : ℕ × ℕ} {grace : ℕ} {mid : List (Moment F)} {s : State F V}
    (hw : Waiting p grace mid s) (hs : s.Coherent) : Behind p s.turn :=
  .inr ⟨hw.pair.symm, .inl (.inr ⟨_, State.stage_committed hs hw.committed⟩)⟩

/-- A step that reports nothing. -/
theorem Waiting.keep {p : ℕ × ℕ} {grace : ℕ} {mid : List (Moment F)} {s s' : State F V}
    {x : Step F} (hw : Waiting p grace mid s) (hcommitted : s'.committed = true)
    (hpair : s'.turn.pair = s.turn.pair)
    (hreleased : s'.released = true ↔ s.released = true ∨ x = .release p.1 p.2)
    (hleft : s'.graceLeft = s.graceLeft - if x.isWindow then 1 else 0) :
    Waiting p grace (mid ++ [(x, [])]) s' where
  committed := hcommitted
  pair := hpair.trans hw.pair
  released := by rw [letThrough_append, ← hw.released, hreleased]
  graceLeft := by
    rw [hleft, hw.graceLeft, clock_append, clock_cons, clock_nil, Nat.sub_sub]
    rfl
  undisturbed := undisturbed_append.2 ⟨hw.undisturbed, by simp⟩

/-- **One step of a turn that waits.**  It is declared final exactly when it is due, and waits on or
is spent. -/
theorem Waiting.step {p : ℕ × ℕ} {grace : ℕ} {mid : List (Moment F)} {s : State F V}
    (hw : Waiting p grace mid s) (hs : s.Coherent) (x : Step F) :
    (Finals p (oneStep M s x).2 ↔ Due p grace (clock mid + 1) mid x) ∧
      (Waiting p grace (mid ++ [(x, (oneStep M s x).2)]) (oneStep M s x).1 ∨
        Spent p grace (mid ++ [(x, (oneStep M s x).2)]) (oneStep M s x).1) := by
  have hgone := Gone.of_step (M := M) hs (hw.behind hs) (x := x)
  have hgrace := hw.graceLeft
  have hnone : ¬Finals p ([] : List (Report F)) := by simp [Finals]
  cases x with
  | setSpeaking speaking =>
    refine ⟨iff_of_false hnone ?_, .inl (hw.keep hw.committed rfl ?_ ?_)⟩
    · simp [Due, Step.isWindow]
    · simp [oneStep, setSpeaking]
    · simp [oneStep, setSpeaking, Step.isWindow]
  | setParams q =>
    refine ⟨iff_of_false hnone ?_, .inl (hw.keep hw.committed rfl ?_ ?_)⟩
    · simp [Due, Step.isWindow]
    · simp [oneStep, setParams]
    · simp [oneStep, setParams, Step.isWindow]
  | window pcm =>
    change (Finals p (sessionWindow M s pcm).2 ↔ _) ∧ (Waiting p grace
      (mid ++ [(_, (sessionWindow M s pcm).2)]) (sessionWindow M s pcm).1 ∨
      Spent p grace (mid ++ [(_, (sessionWindow M s pcm).2)]) (sessionWindow M s pcm).1)
    have hdue : Due p grace (clock mid + 1) mid (.window pcm) ↔
        s.graceLeft = 1 ∧ s.released = true := by
      simp only [Due, Step.isWindow, true_and, reduceCtorEq, false_and, or_false, hw.released]
      refine and_congr_left fun _ => ?_
      omega
    rw [hdue]
    cases holds_sessionWindow M hs hw.committed pcm with
    | finals last released final =>
      obtain ⟨f, hf, hevent, hpair⟩ := final
      refine ⟨iff_of_true ⟨f, hf, hevent, hpair.trans hw.pair⟩ ⟨last, released⟩, .inr ⟨?_, .inr ⟨?_, ?_⟩⟩⟩
      · exact hgone (List.ne_nil_of_mem hf)
      · exact letThrough_append.2 (.inl (hw.released.1 released))
      · rw [clock_append, clock_cons]
        simp only [Step.isWindow, if_true]
        omega
    | keeps left reports committed released pair graceLeft =>
      rw [reports]
      refine ⟨iff_of_false hnone left, .inl (hw.keep committed pair ?_ graceLeft)⟩
      simp [released]
    | goesOn left silent disturbed =>
      obtain ⟨r, hr, hevent⟩ := disturbed
      refine ⟨iff_of_false ?_ left, .inr ⟨hgone (List.ne_nil_of_mem hr), .inl fun h => ?_⟩⟩
      · rintro ⟨f, hf, hfinal, -⟩
        exact silent f hf hfinal
      · have := (undisturbed_append.1 h).2 r hr
        rcases hevent with h | h <;> simp [h] at this
  | release turnId revision =>
    change (Finals p (release M s turnId revision).2 ↔ _) ∧ (Waiting p grace
      (mid ++ [(_, (release M s turnId revision).2)]) (release M s turnId revision).1 ∨
      Spent p grace (mid ++ [(_, (release M s turnId revision).2)]) (release M s turnId revision).1)
    change (release M s turnId revision).2 ≠ [] → Gone p (release M s turnId revision).1.turn at hgone
    have hname : (turnId = s.turnId ∧ revision = s.revision) ↔
        (Step.release turnId revision : Step F) = .release p.1 p.2 := by
      rw [← hw.pair, Step.release.injEq]
      rfl
    have hdue : Due p grace (clock mid + 1) mid (.release turnId revision) ↔
        (turnId = s.turnId ∧ revision = s.revision) ∧ s.graceLeft = 0 := by
      simp only [Due, Step.isWindow, Bool.false_eq_true, false_and, false_or, ← hname]
      refine and_congr_right fun _ => ⟨fun h => by omega, fun h => ⟨fun hlet => ?_, by omega⟩⟩
      have := hs.grace_of_released hw.committed (hw.released.2 hlet)
      omega
    rw [hdue]
    unfold release at hgone ⊢
    by_cases hnamed : turnId = s.turnId ∧ revision = s.revision
    · rw [if_pos ⟨hw.committed, hnamed⟩] at hgone ⊢
      unfold tryFinal at hgone ⊢
      dsimp only at hgone ⊢
      by_cases hzero : s.graceLeft = 0
      · rw [if_pos ⟨hw.committed, rfl, hzero⟩] at hgone ⊢
        refine ⟨iff_of_true ⟨_, List.mem_singleton_self _, rfl, hw.pair⟩ ⟨hnamed, hzero⟩,
          .inr ⟨hgone (by simp), .inr ⟨letThrough_append.2 (.inr (hname.1 hnamed)), ?_⟩⟩⟩
        rw [clock_append, clock_cons]
        omega
      · rw [if_neg (fun h => hzero h.2.2)] at hgone ⊢
        refine ⟨iff_of_false hnone (fun h => hzero h.2), .inl (hw.keep hw.committed rfl ?_ rfl)⟩
        simp [hname.1 hnamed]
    · rw [if_neg (fun h => hnamed h.2)] at hgone ⊢
      refine ⟨iff_of_false hnone (fun h => hnamed h.1), .inl (hw.keep hw.committed rfl ?_ rfl)⟩
      rw [← hname]
      simp [hnamed]

/-- What was spent stays so, and is not due any more. -/
theorem Spent.step {p : ℕ × ℕ} {grace : ℕ} {mid : List (Moment F)} {s : State F V}
    (hp : Spent p grace mid s) (hs : s.Coherent) (x : Step F) :
    ¬Finals p (oneStep M s x).2 ∧ ¬(Undisturbed mid ∧ Due p grace (clock mid + 1) mid x) ∧
      Spent p grace (mid ++ [(x, (oneStep M s x).2)]) (oneStep M s x).1 := by
  obtain ⟨hgone, hwhy⟩ := hp
  obtain ⟨hgone', hnone⟩ := hgone.step (M := M) hs x
  refine ⟨hnone, ?_, hgone', ?_⟩
  · rintro ⟨hundisturbed, hdue⟩
    rcases hwhy with hdisturbed | ⟨hlet, hclock⟩
    · exact hdisturbed hundisturbed
    · rcases hdue with ⟨-, hnow, -⟩ | ⟨-, hno, -⟩
      · omega
      · exact hno hlet
  · rcases hwhy with hdisturbed | ⟨hlet, hclock⟩
    · exact .inl fun h => hdisturbed (undisturbed_append.1 h).1
    · refine .inr ⟨letThrough_append.2 (.inl hlet), ?_⟩
      rw [clock_append]
      omega

theorem coherent_through {s : State F V} (hs : s.Coherent) (xs : List (Step F)) :
    (through M s xs).Coherent := by
  induction xs generalizing s with
  | nil => exact hs
  | cons x xs ih => exact ih (coherent_oneStep hs x)

theorem history_snoc (s : State F V) (xs : List (Step F)) (x : Step F) :
    history M s (xs ++ [x]) = history M s xs ++ [(x, (oneStep M (through M s xs) x).2)] :=
  history_append M s xs [x]

theorem through_snoc (s : State F V) (xs : List (Step F)) (x : Step F) :
    through M s (xs ++ [x]) = (oneStep M (through M s xs) x).1 :=
  through_append M s xs [x]

/-- **From the commit on**, the turn waits or is spent. -/
theorem waiting_or_spent {p : ℕ × ℕ} {grace : ℕ} {s : State F V} (hs : s.Coherent)
    (hw : Waiting p grace [] s) (xs : List (Step F)) :
    Waiting p grace (history M s xs) (through M s xs) ∨
      Spent p grace (history M s xs) (through M s xs) := by
  induction xs using List.reverseRecOn with
  | nil => exact .inl hw
  | append_singleton xs x ih =>
    have hcoherent := coherent_through (M := M) hs xs
    rw [history_snoc, through_snoc]
    rcases ih with ih | ih
    · exact (ih.step hcoherent x).2
    · exact .inr (ih.step hcoherent x).2.2

/-- **A committed turn is final exactly when it is due.** -/
theorem finals_iff_due {p : ℕ × ℕ} {grace : ℕ} {s : State F V} (hs : s.Coherent)
    (hw : Waiting p grace [] s) (xs : List (Step F)) (x : Step F) :
    Finals p (oneStep M (through M s xs) x).2 ↔ Undisturbed (history M s xs) ∧
      Due p grace (clock (history M s xs) + 1) (history M s xs) x := by
  have hcoherent := coherent_through (M := M) hs xs
  rcases waiting_or_spent (M := M) hs hw xs with h | h
  · rw [(h.step hcoherent x).1, and_iff_right h.undisturbed]
  · obtain ⟨hnone, hnot, -⟩ := h.step hcoherent x
    exact iff_of_false hnone hnot

theorem State.Fresh.waiting {s : State F V} {r : Report F} {grace : ℕ} (h : s.Fresh M r grace) :
    Waiting r.pair grace [] s where
  committed := h.committed
  pair := h.pair.symm
  released := by simp [h.released, LetThrough]
  graceLeft := h.graceLeft
  undisturbed := by simp [Undisturbed]

theorem standing_through {p : Params F} (vad : V) (xs : List (Step F))
    (hxs : ∀ q, .setParams q ∉ xs) :
    Standing M p (history M (sessionNew M vad p) xs) (through M (sessionNew M vad p) xs) := by
  induction xs using List.reverseRecOn with
  | nil => exact standing_sessionNew vad p
  | append_singleton xs x ih =>
    rw [history_snoc, through_snoc]
    refine (ih fun q hq => hxs q (List.mem_append_left _ hq)).step ?_
    rintro q rfl
    exact hxs q (List.mem_append_right _ (List.mem_singleton_self _))

theorem clock_window {m : Moment F} (hm : m.1.isWindow = true) (before mid : List (Moment F)) :
    clock (before ++ m :: mid) = clock before + (clock mid + 1) := by
  rw [clock_append, clock_cons, if_pos hm, Nat.add_comm 1]

/-- **When a turn is committed, and when it is final.**  In every run whose thresholds stay as they
are, the moment of a commit is that of a window, its grace is what the classifier's word gives it,
and from then on the turn is declared final at a moment exactly when nothing resumed or overtook it
before and that moment is due: the window that ends the grace, after a release, or the first
release, after that window. -/
theorem timing_run (M : Models F V) (vad : V) (p : Params F) (ops : List (Op F))
    (hfixed : ∀ q, .setParams q ∉ ops) (before : List (Moment F)) (m : Moment F)
    (after : List (Moment F))
    (hsplit : history M (sessionNew M vad p) (runSteps M (sessionNew M vad p) ops)
      = before ++ m :: after)
    (r : Report F) (hr : r ∈ m.2) (hcommit : r.event = .turnCommitted) :
    m.1.isWindow = true ∧ ∃ grace, Judged M p before m r grace ∧
      r.graceSec = (grace * M.window : ℚ) / M.sampleRate ∧
      ∀ mid y rest, after = mid ++ y :: rest →
        (Finals r.pair y.2 ↔ Undisturbed mid ∧
          Due r.pair (clock before + grace) (clock (before ++ m :: mid)) mid y.1) := by
  obtain ⟨xs, zs, hxs, rfl, hm, rfl⟩ := history_split M hsplit
  have hstanding := standing_through (M := M) (p := p) vad xs fun q hq =>
    hfixed q (setParams_mem_runSteps M (hxs ▸ List.mem_append_left _ hq))
  obtain ⟨x, rs⟩ := m
  dsimp only at hm hxs hsplit ⊢
  subst hm
  obtain ⟨hwindow, grace, hjudged, hfresh⟩ := hstanding.judged hr hcommit
  refine ⟨hwindow, grace, hjudged, hfresh.graceSec, fun mid y rest hafter => ?_⟩
  obtain ⟨ys, _, -, rfl, hy, -⟩ := history_split M hafter
  rw [hy, finals_iff_due (coherent_oneStep hstanding.coherent x) hfresh.waiting ys y.1]
  refine and_congr_right fun _ => ?_
  unfold Due
  rw [clock_window hwindow, Nat.add_left_cancel_iff, Nat.add_lt_add_iff_left]

/-- Samples of a window each: zero is silence, anything else speech, and two or more before a
silence says that the turn is complete. -/
def tallyModels : Models ℕ Unit where
  window := 1
  sampleRate := 1000
  stWindow := 2
  prob := fun vad window => (window.headD 0, vad)
  predict := fun stream => stream.headD 0
  ge := fun a b => decide (b ≤ a)
  lt := fun a b => decide (a < b)
  zero := 0
  window_pos := Nat.one_pos

/-- Two windows of delay, five of wait, three of grace. -/
def tallyParams : Params ℕ where
  vadNegThreshold := 1
  vadThreshold := 1
  minSpeechMs := 1
  bargeInMs := 1
  minSilenceMs := 1
  minSpeechContinuationMs := 2
  speechPadMs := 1
  turnThreshold := 2
  incompleteDelayMs := 2
  turnMaxWaitMs := 5
  reopenGraceMs := 3

/-- A turn left unfinished, released as soon as it is committed, and the silence behind it. -/
def tallyOps : List (Op ℕ) := [.push [1, 0, 0, 0], .release 1 0, .push [0, 0, 0]]

def tallyHistory : List (Moment ℕ) :=
  history tallyModels (sessionNew tallyModels () tallyParams)
    (runSteps tallyModels (sessionNew tallyModels () tallyParams) tallyOps)

/-- Five windows after its boundary, whose number is one. -/
theorem timing_tally : ∃ before m mid y, tallyHistory = before ++ m :: (mid ++ [y]) ∧
    Finals (1, 0) y.2 ∧ clock (before ++ m :: mid) = 6 := by
  have hsteps : tallyHistory.map (·.1) = [.window [1], .window [0], .window [0], .window [0],
      .release 1 0, .window [0], .window [0], .window [0]] := rfl
  have hreports : tallyHistory.map (fun m => m.2.map fun r => (r.event, r.pair)) =
      [[(.speechStarted, 1, 0)], [(.speechStopped, 1, 0), (.turnReopened, 1, 0)], [],
        [(.turnCommitted, 1, 0)], [], [], [], [(.turnFinal, 1, 0)]] := by decide +kernel
  have hlength := congrArg List.length hsteps
  obtain ⟨a, b, c, d, e, f, g, h, hl⟩ : ∃ a b c d e f g h, tallyHistory = [a, b, c, d, e, f, g, h] := by
    revert hlength
    rcases tallyHistory with _ | ⟨a, _ | ⟨b, _ | ⟨c, _ | ⟨d, _ | ⟨e, _ | ⟨f, _ | ⟨g, _ | ⟨h, _ | _⟩⟩⟩⟩⟩⟩⟩⟩ <;>
      simp
  rw [hl] at hsteps hreports
  simp only [List.map_cons, List.map_nil, List.cons.injEq, and_true] at hsteps hreports
  obtain ⟨ha, hb, hc, hd, he, hf, hg, hh⟩ := hsteps
  obtain ⟨ra, rb, rc, rd, re, rf, rg, rh⟩ := hreports
  obtain ⟨r, hdr, hr⟩ := List.map_eq_singleton_iff.1 rd
  obtain ⟨hevent, hpair⟩ := Prod.mk.inj hr
  obtain ⟨-, grace, hjudged, -, hfinal⟩ := timing_run tallyModels () tallyParams tallyOps
    (by simp [tallyOps]) [a, b, c] d [e, f, g, h] hl r (by simp [hdr]) hevent
  have hgrace : grace = 3 := by
    cases hjudged with
    | complete stopped reports => simp [hdr] at reports
    | incomplete earlier stop between split unfinished last delay given =>
      have hdelay : (Counts.of tallyModels tallyParams).delayWindows = 2 := by decide
      have hwait : (Counts.of tallyModels tallyParams).waitWindows = 5 := by decide
      omega
  refine ⟨[a, b, c], d, [e, f, g], h, hl, ?_, by simp [clock, ha, hb, hc, hd, he, hf, hg, Step.isWindow]⟩
  rw [← hpair]
  refine (hfinal [e, f, g] h [] rfl).2 ⟨?_, .inl ⟨by simp [hh, Step.isWindow], ?_, e, by simp, ?_⟩⟩
  · simp_all [Undisturbed]
  · simp [clock, ha, hb, hc, hd, he, hf, hg, Step.isWindow, hgrace]
  · rw [he, hpair]
    rfl

/-! ### Without audio -/

/-- A state that some calls lead to. -/
def Reached (M : Models F V) (s : State F V) : Prop :=
  ∃ vad p ops, s = (run M (sessionNew M vad p) ops).1

theorem length_partialPcm_run {s : State F V} (hs : s.partialPcm.length < M.window)
    (ops : List (Op F)) : (run M s ops).1.partialPcm.length < M.window := by
  induction ops generalizing s with
  | nil => exact hs
  | cons op ops ih => exact ih (length_partialPcm_apply M hs op)

theorem Reached.length_partialPcm {s : State F V} (hs : Reached M s) :
    s.partialPcm.length < M.window := by
  obtain ⟨vad, p, ops, rfl⟩ := hs
  exact length_partialPcm_run (s := sessionNew M vad p) M.window_pos ops

/-- A push that brings no sample does nothing. -/
theorem push_nil {s : State F V} (hs : s.partialPcm.length < M.window) : push M s [] = (s, []) := by
  rw [push_eq M hs, List.append_nil, pushWhole, Nat.div_eq_of_lt hs]
  rfl

/-- **A call that brings no audio** leaves a committed turn as it is, unless it releases the turn
and no grace is left. -/
theorem apply_silent {s : State F V} (hs : s.partialPcm.length < M.window)
    (hcommitted : s.committed = true) (op : Op F) (hop : ∀ pcm, op = .push pcm → pcm = []) :
    ((apply M s op).2 = [] ∧ (apply M s op).1.committed = true ∧
        (apply M s op).1.turn.pair = s.turn.pair ∧ (apply M s op).1.graceLeft = s.graceLeft ∧
        (op = .release s.turnId s.revision → s.graceLeft ≠ 0)) ∨
      s.graceLeft = 0 ∧ Finals s.turn.pair (apply M s op).2 := by
  cases op with
  | push pcm =>
    obtain rfl := hop pcm rfl
    show (push M s []).2 = [] ∧ (push M s []).1.committed = true ∧ _ ∨ _
    rw [show apply M s (.push []) = (s, []) from push_nil hs, push_nil hs]
    exact .inl ⟨rfl, hcommitted, rfl, rfl, by simp⟩
  | setSpeaking speaking => exact .inl ⟨rfl, hcommitted, rfl, rfl, by simp⟩
  | setParams p => exact .inl ⟨rfl, hcommitted, rfl, rfl, by simp⟩
  | release turnId revision =>
    unfold apply release
    dsimp only
    by_cases hnamed : turnId = s.turnId ∧ revision = s.revision
    · rw [if_pos ⟨hcommitted, hnamed⟩]
      unfold tryFinal
      dsimp only
      by_cases hzero : s.graceLeft = 0
      · rw [if_pos ⟨hcommitted, rfl, hzero⟩]
        exact .inr ⟨hzero, _, List.mem_singleton_self _, rfl, rfl⟩
      · rw [if_neg fun h => hzero h.2.2]
        exact .inl ⟨rfl, hcommitted, rfl, rfl, fun _ => hzero⟩
    · rw [if_neg fun h => hnamed h.2]
      refine .inl ⟨rfl, hcommitted, rfl, rfl, fun h => ?_⟩
      rw [Op.release.injEq] at h
      exact absurd h hnamed

theorem mem_reportsOf_run {s : State F V} {op : Op F} {ops : List (Op F)} {r : Report F} :
    r ∈ reportsOf (run M s (op :: ops)).2 ↔
      r ∈ (apply M s op).2 ∨ r ∈ reportsOf (run M (apply M s op).1 ops).2 := by
  rw [run, List.cons_append, reportsOf_call, reportsOf_append, reportsOf_map_report,
    List.mem_append]

/-- While some grace is left nothing is reported. -/
theorem reports_silent {s : State F V} (hs : s.partialPcm.length < M.window)
    (hcommitted : s.committed = true) (hgrace : s.graceLeft ≠ 0) {ops : List (Op F)}
    (hsilent : ∀ pcm, .push pcm ∈ ops → pcm = []) (r : Report F) :
    r ∉ reportsOf (run M s ops).2 := by
  induction ops generalizing s with
  | nil => exact List.not_mem_nil
  | cons op ops ih =>
    intro hr
    rcases apply_silent hs hcommitted op fun pcm h => hsilent pcm (by simp [h]) with
      ⟨hnone, hcommitted', -, hgrace', -⟩ | ⟨hzero, -⟩
    · rcases mem_reportsOf_run.1 hr with hr | hr
      · simp [hnone] at hr
      · exact ih (length_partialPcm_apply M hs op) hcommitted' (hgrace' ▸ hgrace)
          (fun pcm h => hsilent pcm (List.mem_cons_of_mem _ h)) hr
    · exact hgrace hzero

/-- Once none is left, the release makes the turn final. -/
theorem finals_silent {s : State F V} (hs : s.partialPcm.length < M.window)
    (hcommitted : s.committed = true) (hgrace : s.graceLeft = 0) {ops : List (Op F)}
    (hsilent : ∀ pcm, .push pcm ∈ ops → pcm = [])
    (hrelease : .release s.turnId s.revision ∈ ops) :
    Finals s.turn.pair (reportsOf (run M s ops).2) := by
  induction ops generalizing s with
  | nil => simp at hrelease
  | cons op ops ih =>
    rcases apply_silent hs hcommitted op fun pcm h => hsilent pcm (by simp [h]) with
      ⟨-, hcommitted', hpair, hgrace', hno⟩ | ⟨-, f, hf, hevent⟩
    · have hlater : .release s.turnId s.revision ∈ ops := by
        rcases List.mem_cons.1 hrelease with h | h
        · exact absurd hgrace (hno h.symm)
        · exact h
      have hid : (apply M s op).1.turnId = s.turnId := congrArg Prod.fst hpair
      have hrev : (apply M s op).1.revision = s.revision := congrArg Prod.snd hpair
      obtain ⟨f, hf, hevent⟩ := ih (length_partialPcm_apply M hs op) hcommitted'
        (hgrace'.trans hgrace) (fun pcm h => hsilent pcm (List.mem_cons_of_mem _ h))
        (by rwa [hid, hrev])
      exact ⟨f, mem_reportsOf_run.2 (.inr hf), hpair ▸ hevent⟩
    · exact ⟨f, mem_reportsOf_run.2 (.inl hf), hevent⟩

/-- **Without audio the grace does not run.**  Whatever is called but a push, a turn that is released
then is declared final exactly when no grace was left to it. -/
theorem final_without_audio_iff {s : State F V} (hs : Reached M s) (hcommitted : s.committed = true)
    {ops : List (Op F)} (hsilent : ∀ pcm, .push pcm ∈ ops → pcm = [])
    (hrelease : .release s.turnId s.revision ∈ ops) :
    Finals s.turn.pair (reportsOf (run M s ops).2) ↔ s.graceLeft = 0 := by
  constructor
  · rintro ⟨f, hf, -⟩
    by_contra hgrace
    exact reports_silent hs.length_partialPcm hcommitted hgrace hsilent f hf
  · intro hgrace
    exact finals_silent hs.length_partialPcm hcommitted hgrace hsilent hrelease

/-- A complete turn, committed, after `n` more windows of silence. -/
def tallyCommitted (n : ℕ) : State ℕ Unit :=
  (run tallyModels (sessionNew tallyModels () tallyParams) [.push ([2, 0] ++ List.replicate n 0)]).1

theorem reached_tallyCommitted (n : ℕ) : Reached tallyModels (tallyCommitted n) := ⟨_, _, _, rfl⟩

/-- Three windows of silence used its grace up. -/
theorem final_without_audio_tally :
    Finals (1, 0) (reportsOf (run tallyModels (tallyCommitted 3) [.release 1 0]).2) :=
  (final_without_audio_iff (reached_tallyCommitted 3) (by decide +kernel) (by simp)
    (List.mem_singleton.2 rfl)).2 (by decide +kernel)

/-- **A client that stops streaming after its commit** is never answered: its turn is committed and
released, and nothing follows. -/
theorem silent_client_waits : ∃ s : State ℕ Unit, Reached tallyModels s ∧ s.committed = true ∧
    ¬Finals s.turn.pair (reportsOf (run tallyModels s [.release s.turnId s.revision]).2) := by
  refine ⟨tallyCommitted 0, reached_tallyCommitted 0, by decide +kernel, ?_⟩
  rintro ⟨f, hf, -⟩
  have hnone : (reportsOf (run tallyModels (tallyCommitted 0)
    [.release (tallyCommitted 0).turnId (tallyCommitted 0).revision]).2).length = 0 := by
    decide +kernel
  rw [List.length_eq_zero_iff.1 hnone] at hf
  simp at hf

end Session
end S2S
