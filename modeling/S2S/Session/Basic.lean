/-
# The turn state machine

`s2s_session` of `src/s2s-session.cpp`: audio in by windows, events out.  Each
function of the source is one definition here, from `s2s_session_set_params` to
`s2s_session_push`; a step of one window is the grace (`tickGrace`), the
probability and the audio (`hear`), then the state machine (`advance`).

The two models are outside: `Models` has their windows, the probability of
speech, which keeps a state, and the score of a boundary.  Nothing is asked of
them but a window that is not empty.  Samples, probabilities and thresholds are
of a type `F` with the two comparisons the code makes, about which nothing is
assumed either.
-/

import Mathlib.Data.Rat.Defs
import S2S.Session.Ring

namespace S2S
namespace Session

/-! ### The data -/

/-- `s2s_session_event`. -/
inductive Event
  | speechStarted
  | speechStopped
  | turnReopened
  | turnCommitted
  | turnFinal
  | turnResumed
  | bargeIn
  deriving DecidableEq, Repr

/-- `s2s_session_state`. -/
inductive Phase
  | idle
  | userSpeaking
  | pendingEnd
  deriving DecidableEq, Repr

/-- `s2s_session_params`: thresholds, and durations in milliseconds. -/
structure Params (F : Type) where
  vadNegThreshold : F
  vadThreshold : F
  minSpeechMs : ℤ := 192
  bargeInMs : ℤ := 384
  minSilenceMs : ℤ := 64
  minSpeechContinuationMs : ℤ := 192
  speechPadMs : ℤ := 500
  turnThreshold : F
  incompleteDelayMs : ℤ := 600
  turnMaxWaitMs : ℤ := 2000
  reopenGraceMs : ℤ := 800

/-- The voice activity detector and the turn classifier: samples in a window of
the first, samples in one of the second, the probability of speech in a window,
the score of the recent stream, and the comparisons of floats. -/
structure Models (F V : Type) where
  window : ℕ
  sampleRate : ℕ
  stWindow : ℕ
  prob : V → List F → F × V
  predict : List F → F
  ge : F → F → Bool
  lt : F → F → Bool
  zero : F
  window_pos : 0 < window

/-- `s2s_session_windows`: milliseconds as windows, to the nearest, one at
least. -/
def Models.windows {F V : Type} (M : Models F V) (ms : ℤ) : ℕ :=
  let n := Int.tdiv (2 * ms * M.sampleRate + 1000 * M.window) (2 * 1000 * M.window)
  if 0 < n then n.toNat else 1

theorem Models.windows_pos {F V : Type} (M : Models F V) (ms : ℤ) : 0 < M.windows ms := by
  unfold Models.windows
  dsimp only
  split_ifs <;> omega

/-- The thresholds as numbers of windows. -/
structure Counts where
  openWindows : ℕ
  bargeWindows : ℕ
  reopenWindows : ℕ
  closeWindows : ℕ
  padWindows : ℕ
  delayWindows : ℕ
  waitWindows : ℕ
  graceWindows : ℕ
  open_pos : 0 < openWindows
  barge_pos : 0 < bargeWindows
  reopen_pos : 0 < reopenWindows
  delay_le_wait : delayWindows ≤ waitWindows

/-- `s2s_session_report`, its audio the samples it hands over. -/
structure Report (F : Type) where
  event : Event
  turnId : ℕ
  revision : ℕ
  timeSec : ℚ
  turnScore : F
  pcm : List F
  nHeld : ℕ
  graceSec : ℚ

/-- `s2s_session`. -/
structure State (F V : Type) where
  vad : V
  params : Params F
  counts : Counts
  phase : Phase
  partialPcm : List F
  turnPcm : List F
  speechEnd : ℕ
  lookback : SampleRing F
  stream : SampleRing F
  speechRun : ℕ
  silenceRun : ℕ
  pendingRun : ℕ
  graceLeft : ℕ
  graceGiven : ℕ
  committed : Bool
  released : Bool
  turnId : ℕ
  revision : ℕ
  speaking : Bool
  inSpeech : Bool
  nWindows : ℕ

section Session

variable {F V : Type} (M : Models F V)

/-! ### Settings -/

/-- The window counts of `s2s_session_set_params`. -/
def Counts.of (p : Params F) : Counts where
  openWindows := M.windows p.minSpeechMs
  bargeWindows := M.windows p.bargeInMs
  reopenWindows := M.windows p.minSpeechContinuationMs
  closeWindows := M.windows p.minSilenceMs
  padWindows := M.windows p.speechPadMs
  delayWindows := min (M.windows p.turnMaxWaitMs) (M.windows p.incompleteDelayMs)
  waitWindows := M.windows p.turnMaxWaitMs
  graceWindows := if 0 < p.reopenGraceMs then M.windows p.reopenGraceMs else 0
  open_pos := M.windows_pos _
  barge_pos := M.windows_pos _
  reopen_pos := M.windows_pos _
  delay_le_wait := min_le_left _ _

/-- The samples the lookback holds: what a turn needs to open, and the pad. -/
def Counts.lookback (c : Counts) (window : ℕ) : ℕ :=
  (max c.openWindows c.bargeWindows + c.padWindows) * window

/-- `s2s_session_set_params`. -/
def setParams (s : State F V) (p : Params F) : State F V :=
  let counts := Counts.of M p
  { s with
    params := p
    counts := counts
    lookback := s.lookback.resize M.zero (counts.lookback M.window) }

/-- `s2s_session_new`. -/
def sessionNew (vad : V) (p : Params F) : State F V :=
  setParams M
    { vad := vad, params := p, counts := Counts.of M p, phase := .idle, partialPcm := []
      turnPcm := [], speechEnd := 0, lookback := .empty
      stream := SampleRing.empty.resize M.zero M.stWindow, speechRun := 0, silenceRun := 0
      pendingRun := 0, graceLeft := 0, graceGiven := 0, committed := false, released := false
      turnId := 0, revision := 0, speaking := false, inSpeech := false, nWindows := 0 } p

/-- `s2s_session_set_speaking`. -/
def setSpeaking (s : State F V) (speaking : Bool) : State F V := { s with speaking := speaking }

/-! ### Turns -/

/-- `s2s_session_emit`: the audio and the grace come with a commit only. -/
def emit (s : State F V) (event : Event) (score : F) : Report F :=
  let committed := event = .turnCommitted
  { event := event
    turnId := s.turnId
    revision := s.revision
    timeSec := (s.nWindows * M.window : ℚ) / M.sampleRate
    turnScore := score
    pcm := if committed then
      s.turnPcm.take (min s.turnPcm.length (s.speechEnd + s.counts.padWindows * M.window)) else []
    nHeld := if committed then s.turnPcm.length else 0
    graceSec := if committed then (s.graceGiven * M.window : ℚ) / M.sampleRate else 0 }

/-- `s2s_session_try_final`. -/
def tryFinal (s : State F V) : State F V × List (Report F) :=
  if s.committed ∧ s.released ∧ s.graceLeft = 0 then
    let s := { s with committed := false, turnPcm := [] }
    (s, [emit M s .turnFinal M.zero])
  else (s, [])

/-- `s2s_session_release`. -/
def release (s : State F V) (turnId revision : ℤ) : State F V × List (Report F) :=
  if s.committed ∧ turnId = s.turnId ∧ revision = s.revision then
    tryFinal M { s with released := true }
  else (s, [])

/-- `s2s_session_open_turn`. -/
def openTurn (s : State F V) : State F V × List (Report F) :=
  let pcm := s.lookback.read
  let s := { s with
    turnId := s.turnId + 1, revision := 0, graceLeft := 0, committed := false, turnPcm := pcm
    speechEnd := pcm.length, phase := .userSpeaking }
  (s, [emit M s .speechStarted M.zero])

/-- `s2s_session_commit`. -/
def commit (s : State F V) (score : F) (grace : ℕ) : State F V × List (Report F) :=
  let s := { s with
    phase := .idle, pendingRun := 0, speechRun := 0, committed := true, released := false
    graceLeft := grace, graceGiven := grace }
  (s, [emit M s .turnCommitted score])

/-! ### One window -/

/-- The grace of a committed turn, one window less. -/
def tickGrace (s : State F V) : State F V × List (Report F) :=
  if 0 < s.graceLeft then
    let s := { s with graceLeft := s.graceLeft - 1 }
    if s.graceLeft = 0 then tryFinal M s else (s, [])
  else (s, [])

/-- The probability of the window against the two thresholds, the runs, both
rings, and the audio of the turn that is open or committed. -/
def hear (s : State F V) (window : List F) : State F V :=
  let heard := M.prob s.vad window
  let stay :=
    if M.lt s.params.vadThreshold s.params.vadNegThreshold then s.params.vadThreshold
    else s.params.vadNegThreshold
  let isSpeech := M.ge heard.1 (if s.inSpeech then stay else s.params.vadThreshold)
  let keeps := s.phase ≠ .idle ∨ s.committed = true
  let turnPcm := if keeps then s.turnPcm ++ window else s.turnPcm
  { s with
    vad := heard.2
    inSpeech := isSpeech
    speechRun := if isSpeech then s.speechRun + 1 else 0
    silenceRun := if isSpeech then 0 else s.silenceRun + 1
    lookback := s.lookback.push window
    stream := s.stream.push window
    turnPcm := turnPcm
    speechEnd := if keeps ∧ isSpeech then turnPcm.length else s.speechEnd }

/-- The committed turn goes on, one revision further. -/
def resume (s : State F V) : State F V × List (Report F) :=
  let s := { s with
    graceLeft := 0, committed := false, revision := s.revision + 1, phase := .userSpeaking }
  (s, [emit M s .turnResumed M.zero])

/-- `IDLE`: a committed turn resumes, or a turn opens, over the assistant when
it speaks. -/
def advanceIdle (s : State F V) : State F V × List (Report F) :=
  if s.committed ∧ s.counts.reopenWindows ≤ s.speechRun then resume M s
  else if (if s.speaking then s.counts.bargeWindows else s.counts.openWindows) ≤ s.speechRun then
    let barge := if s.speaking then [emit M s .bargeIn M.zero] else []
    ((openTurn M s).1, barge ++ (openTurn M s).2)
  else (s, [])

/-- `USER_SPEAKING`: a silence ends the speech, and the classifier says whether
the turn ends with it. -/
def advanceSpeaking (s : State F V) : State F V × List (Report F) :=
  if s.counts.closeWindows ≤ s.silenceRun then
    let s := { s with phase := .pendingEnd, pendingRun := 0 }
    let stopped := emit M s .speechStopped M.zero
    let score := M.predict s.stream.read
    if M.ge score s.params.turnThreshold then
      ((commit M s score s.counts.graceWindows).1,
        stopped :: (commit M s score s.counts.graceWindows).2)
    else (s, [stopped, emit M s .turnReopened score])
  else (s, [])

/-- `PENDING_END`: the speaker comes back, or the delay runs out. -/
def advancePending (s : State F V) : State F V × List (Report F) :=
  let s := { s with pendingRun := s.pendingRun + 1 }
  if s.counts.reopenWindows ≤ s.speechRun then
    let s := { s with revision := s.revision + 1, phase := .userSpeaking }
    (s, [emit M s .speechStarted M.zero])
  else if s.counts.delayWindows ≤ s.pendingRun then
    commit M s M.zero (s.counts.waitWindows - s.counts.delayWindows)
  else (s, [])

/-- The state machine. -/
def advance (s : State F V) : State F V × List (Report F) :=
  match s.phase with
  | .idle => advanceIdle M s
  | .userSpeaking => advanceSpeaking M s
  | .pendingEnd => advancePending M s

/-- `s2s_session_window`. -/
def sessionWindow (s : State F V) (window : List F) : State F V × List (Report F) :=
  let ticked := tickGrace M s
  let advanced := advance M (hear M ticked.1 window)
  ({ advanced.1 with nWindows := advanced.1.nWindows + 1 }, ticked.2 ++ advanced.2)

/-! ### Audio -/

/-- `n` windows from the front of `pcm`; what is left waits. -/
def pushWindows : ℕ → State F V → List F → State F V × List (Report F)
  | 0, s, pcm => ({ s with partialPcm := pcm }, [])
  | n + 1, s, pcm =>
    let one := sessionWindow M s (pcm.take M.window)
    let rest := pushWindows n one.1 (pcm.drop M.window)
    (rest.1, one.2 ++ rest.2)

/-- The windows that `pcm` fills. -/
def pushWhole (s : State F V) (pcm : List F) : State F V × List (Report F) :=
  pushWindows M (pcm.length / M.window) s pcm

/-- `s2s_session_push`: what did not fill a window is filled first. -/
def push (s : State F V) (pcm : List F) : State F V × List (Report F) :=
  if s.partialPcm = [] then pushWhole M s pcm
  else
    let take := min (M.window - s.partialPcm.length) pcm.length
    let s := { s with partialPcm := s.partialPcm ++ pcm.take take }
    if s.partialPcm.length < M.window then (s, [])
    else
      let one := sessionWindow M s s.partialPcm
      let rest := pushWhole M { one.1 with partialPcm := [] } (pcm.drop take)
      (rest.1, one.2 ++ rest.2)

/-! ### Runs -/

/-- A call of the session. -/
inductive Op (F : Type)
  | push (pcm : List F)
  | setSpeaking (speaking : Bool)
  | release (turnId revision : ℤ)
  | setParams (p : Params F)

/-- One call: the state after it and what it reported. -/
def apply (s : State F V) : Op F → State F V × List (Report F)
  | .push pcm => push M s pcm
  | .setSpeaking speaking => (setSpeaking s speaking, [])
  | .release turnId revision => release M s turnId revision
  | .setParams p => (setParams M s p, [])

/-- What a run shows: its calls, and the reports of each behind it. -/
inductive Item (F : Type)
  | call (op : Op F)
  | report (r : Report F)

/-- A run of calls. -/
def run (s : State F V) : List (Op F) → State F V × List (Item F)
  | [] => (s, [])
  | op :: ops =>
    let one := apply M s op
    let rest := run one.1 ops
    (rest.1, .call op :: one.2.map .report ++ rest.2)

end Session

end Session
end S2S
