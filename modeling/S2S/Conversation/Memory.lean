/-
# What the threads of a connection share

The `Connection` of `src/s2s-conversation.cpp`, as far as its four threads work
on it together, and what one of them does to it in one go: a critical section, a
load or a store of an atomic, a wait that is over, or a question to the world
outside (`Act`, `exec`).  The programs made of these are in
`S2S.Conversation.Threads`.

A call of the session is computed at once, under its lock; the events that it
raised are handed over one after the other while the lock is still held, so
nobody sees the session in between.

The log is not in the source.  It keeps what happened in order: the events, the
frames handed to `conn_send`, the jobs on their way, what was asked of the world
and whether the cancel was up then.  `recognizing` and `answering` are the turns
whose release the recognizer and the responder still owe, and `due` the events
whose callbacks have not returned.
-/

import S2S.Agent.Messages
import S2S.Session.Basic
import S2S.Thread.Program

namespace S2S
namespace Conversation

open Json Llm Agent Session

/-! ### The data -/

/-- The threads of a connection. -/
inductive Role
  | reader
  | recognizer
  | responder
  | writer
  deriving DecidableEq, Repr

/-- A frame to the client, by the `rt_event` that writes it. -/
inductive Frame (F : Type)
  | error (message : Bytes)
  | speechStarted
  | sessionUpdated
  | voice (voice effect : Bytes)
  | transcript (item text : Bytes)
  | created
  | done
  | cancelled
  | textDelta (delta : Bytes)
  | audio (pcm : List F)
  | spoken (unit : Bytes) (textEnd : ℕ)
  | toolStarted (name : Bytes)
  | toolDone (name : Bytes) (ok : Bool) (ms : ℚ) (bytes : ℕ)

/-- `TurnAudio`. -/
structure TurnAudio (F : Type) where
  pcm : List F
  turnId : ℕ
  revision : ℕ

/-- `AnswerJob`. -/
structure AnswerJob where
  transcript : Bytes
  turnId : ℕ
  revision : ℕ

/-- `SentenceUnit`. -/
structure SentenceUnit where
  text : Bytes
  textEnd : ℕ

/-- What the responder reads of `ClientSettings`. -/
structure Settings where
  mode : Bytes
  systemPrompt : Bytes
  history : List HistoryMessage
  llm : Params
  tools : List Bytes
  maxRounds : ℤ
  voice : Bytes
  effect : Bytes
  minChars : ℤ

/-- What a connection is made from and what it uses without a thread: the models and settings of
its session, the settings a client starts with, the sentence splitter, the voices and the
effects. -/
structure Setup (F V S : Type) where
  models : Models F V
  vad : V
  params : Session.Params F
  defaults : Settings
  splitter : S
  splitPush : S → Bytes → List SentenceUnit × S
  splitFlush : S → SentenceUnit
  utf16Len : Bytes → ℕ
  voices : List Bytes
  defaultVoice : Bytes
  effects : List Bytes

/-- A frame from the client, after its parsing: what `conn_frame` does with it.  Audio comes as
the session gets it; `errors` are what was wrong with it. -/
inductive Incoming (F : Type)
  | update (errors : List Bytes) (settings : Settings) (params : Option (Session.Params F))
      (invalid : Option Bytes)
  | audio (errors : List Bytes) (pcm : List F)
  | cancel
  | history (messages : List HistoryMessage)
  | unknown
  | other
  | closed

/-- What runs outside and costs time: a recognition, a request to the endpoint with its messages,
the list of the tools, a tool, a synthesis. -/
inductive Work
  | recognition (turnId revision : ℕ)
  | request (messages : List Message)
  | listing
  | tool (name : Bytes)
  | synthesis (text : Bytes)

/-- What happened. -/
inductive Entry (F : Type)
  | report (r : Report F)
  | frame (role : Role) (f : Frame F)
  | gave (turnId revision : ℕ)
  | took (turnId revision : ℕ)
  | stopped
  | work (w : Work) (cancelled : Bool)

/-- The part of `Connection` that decides on the turns: the session and its lock, the two queues,
what opened last and what is final. -/
structure TurnState (F V : Type) where
  session : State F V
  sessionMutex : Option Role
  due : List (Report F)
  queue : List (TurnAudio F)
  recognizing : Option (ℕ × ℕ)
  answers : List AnswerJob
  answering : Option (ℕ × ℕ)
  finalTurn : ℕ
  openTurn : ℕ
  openRevision : ℕ

/-- `Connection`. -/
structure Memory (F V : Type) extends TurnState F V where
  client : Settings
  stop : Bool
  cancel : Bool
  answerTurn : ℕ
  answerRevision : ℕ
  answerReleased : Bool
  speaking : Bool
  out : List (Frame F)
  outStop : Bool
  log : List (Entry F)

/-! ### The actions -/

/-- What a thread reads without changing it; `revised` is `conn_revised`. -/
inductive Field
  | stop
  | cancel
  | speaking
  | answer
  | answerReleased
  | client
  | revised (turnId revision : ℕ)

/-- The type of a field. -/
abbrev Field.Ty : Field → Type
  | .answer => ℕ × ℕ
  | .client => Settings
  | _ => Bool

/-- What a thread asks of the world: the next frame of the client, whether a frame went out, a
recognition, the wake gate, what the endpoint and the servers answer, a synthesis and its end, the
effect on samples, a clock. -/
inductive Query (F : Type)
  | read
  | transport (f : Frame F)
  | transcribe (turn : TurnAudio F)
  | admits (turnId : ℕ) (transcript : Bytes)
  | endpoint (p : Params)
  | stream (messages : List Message)
  | streamed
  | gather
  | setParams (p : Params)
  | call (server : Server) (name arguments : Bytes)
  | sleep
  | synthesize (text : Bytes)
  | synthesized
  | jarvis (pcm : List F)
  | jarvisTail
  | clock
  | lastError

/-- What the world answers. -/
abbrev Query.Answer {F : Type} : Query F → Type
  | .read => Incoming F
  | .transport _ => Bool
  | .transcribe _ => Option Bytes
  | .admits _ _ => Bool
  | .endpoint _ => Bool
  | .stream _ => List Bytes
  | .streamed => Option (List ToolCall)
  | .gather => Option (List AgentTool)
  | .setParams _ => Bool
  | .call _ _ _ => Option Bytes
  | .sleep => Bool
  | .synthesize _ => List (List F)
  | .synthesized => Bool
  | .jarvis _ => List F
  | .jarvisTail => List F
  | .clock => ℚ
  | .lastError => Bytes

/-- What a question sets to work. -/
def Query.work {F : Type} : Query F → Option Work
  | .transcribe turn => some (.recognition turn.turnId turn.revision)
  | .stream messages => some (.request messages)
  | .gather => some .listing
  | .call _ name _ => some (.tool name)
  | .synthesize text => some (.synthesis text)
  | _ => none

/-- One thing a thread does. -/
inductive Act (F : Type)
  | load (field : Field)
  | ask (query : Query F)
  | send (f : Frame F)
  | popOut
  | dropOut
  | closeOut
  | lockSession
  | unlockSession
  | session (op : Op F)
  | callback (r : Report F)
  | returned
  | opened (turnId revision : ℕ)
  | final (turnId : ℕ)
  | enqueue (turn : TurnAudio F)
  | popQueue
  | pushAnswer (job : AnswerJob)
  | popAnswer
  | publish (turnId revision : ℕ)
  | waitFinal
  | setReleased
  | storeSpeaking (speaking : Bool)
  | storeCancel (cancel : Bool)
  | setStop
  | stopped
  | patch (settings : Settings)
  | history (messages : List HistoryMessage)
  | setVoice (voice effect : Bytes)

/-- What an action takes from outside.  For `opened` it is whether the cancel was raised: the two
flags it depends on are read outside every lock. -/
abbrev Act.Input {F : Type} : Act F → Type
  | .ask query => query.Answer
  | .opened _ _ => Bool
  | _ => Unit

/-- What an action gives back. -/
abbrev Act.Result {F : Type} : Act F → Type
  | .load field => field.Ty
  | .ask query => query.Answer
  | .popOut => Option (Frame F)
  | .session _ => List (Report F)
  | .popQueue => Option (TurnAudio F)
  | .popAnswer => Option AnswerJob
  | .waitFinal => Bool
  | _ => Unit

section Exec

variable {F V S : Type}

namespace Memory

/-- `conn_outdated`. -/
def outdated (m : Memory F V) (turnId revision : ℕ) : Bool :=
  decide (turnId < m.openTurn) || (m.openTurn == turnId && decide (revision < m.openRevision))

/-- A field as it stands. -/
def read (m : Memory F V) : (field : Field) → field.Ty
  | .stop => m.stop
  | .cancel => m.cancel
  | .speaking => m.speaking
  | .answer => (m.answerTurn, m.answerRevision)
  | .answerReleased => m.answerReleased
  | .client => m.client
  | .revised turnId revision => m.openTurn == turnId && decide (revision < m.openRevision)

/-- One more line of the log. -/
def record (m : Memory F V) (e : Entry F) : Memory F V := { m with log := m.log ++ [e] }

/-- A call of the session; with a release, the thread owes none any more. -/
def apply (M : Models F V) (role : Role) (op : Op F) (m : Memory F V) : Memory F V :=
  let m := { m with session := (Session.apply M m.session op).1,
                    due := (Session.apply M m.session op).2 }
  match role, op with
  | .recognizer, .release _ _ => { m with recognizing := none }
  | .responder, .release _ _ => { m with answering := none }
  | _, _ => m

/-- The wait of `conn_wait_final` is over. -/
def passes (m : Memory F V) : Bool :=
  m.stop || m.cancel || decide (m.answerTurn ≤ m.finalTurn) ||
    m.outdated m.answerTurn m.answerRevision

/-- An answer to something older than what opened last is void. -/
def voided (m : Memory F V) : Memory F V :=
  { m with cancel := m.cancel || m.outdated m.answerTurn m.answerRevision }

end Memory

/-- What an action does, nothing while its thread has to wait. -/
def exec (P : Setup F V S) (role : Role) :
    (a : Act F) → a.Input → Memory F V → Option (a.Result × Memory F V)
  | .load field, _, m => some (m.read field, m)
  | .ask query, x, m =>
    some (x, match query.work with
      | some w => m.record (.work w m.cancel)
      | none => m)
  | .send f, _, m =>
    let m := m.record (.frame role f)
    some ((), if m.outStop then m else { m with out := m.out ++ [f] })
  | .popOut, _, m =>
    if m.outStop then some (none, m)
    else match m.out with
      | [] => none
      | f :: out => some (some f, { m with out := out })
  | .dropOut, _, m => some ((), { m with outStop := true, out := [] })
  | .closeOut, _, m => some ((), { m with outStop := true })
  | .lockSession, _, m =>
    match m.sessionMutex with
    | none => some ((), { m with sessionMutex := some role })
    | some _ => none
  | .unlockSession, _, m => some ((), { m with sessionMutex := none })
  | .session op, _, m =>
    some ((Session.apply P.models m.session op).2, m.apply P.models role op)
  | .callback r, _, m => some ((), m.record (.report r))
  | .returned, _, m => some ((), { m with due := m.due.tail })
  | .opened turnId revision, raised, m =>
    let m := if m.openTurn < turnId ∨ turnId = m.openTurn ∧ m.openRevision < revision then
        { m with openTurn := turnId, openRevision := revision } else m
    let void := m.outdated m.answerTurn m.answerRevision
    match raised, void, m.speaking && !m.cancel with
    | true, true, _ => some ((), { m with cancel := true })
    | true, false, _ => none
    | false, true, true => none
    | false, _, _ => some ((), m)
  | .final turnId, _, m => some ((), { m with finalTurn := max turnId m.finalTurn })
  | .enqueue turn, _, m => some ((), { m with queue := m.queue ++ [turn] })
  | .popQueue, _, m =>
    if m.stop then some (none, m)
    else match m.queue with
      | [] => none
      | turn :: queue => some (some turn,
          { m with queue := queue, recognizing := some (turn.turnId, turn.revision) })
  | .pushAnswer job, _, m =>
    some ((), { m.record (.gave job.turnId job.revision) with
      answers := m.answers ++ [job], recognizing := none })
  | .popAnswer, _, m =>
    if m.stop then some (none, m)
    else match m.answers with
      | [] => none
      | job :: answers => some (some job, { m.record (.took job.turnId job.revision) with
          answers := answers, answering := some (job.turnId, job.revision) })
  | .publish turnId revision, _, m =>
    some ((), { m with
      answerTurn := turnId, answerRevision := revision, answerReleased := false, speaking := true,
      cancel := m.cancel || m.outdated turnId revision })
  | .waitFinal, _, m =>
    if m.passes then some (!m.stop && !m.voided.cancel, m.voided) else none
  | .setReleased, _, m => some ((), { m with answerReleased := true })
  | .storeSpeaking speaking, _, m => some ((), { m with speaking := speaking })
  | .storeCancel cancel, _, m => some ((), { m with cancel := cancel })
  | .setStop, _, m => some ((), { m with stop := true })
  | .stopped, _, m => some ((), m.record .stopped)
  | .patch settings, _, m => some ((), { m with client := { settings with history := m.client.history } })
  | .history messages, _, m => some ((), { m with client := { m.client with history := messages } })
  | .setVoice voice effect, _, m =>
    some ((), { m with client := { m.client with voice := voice, effect := effect } })

/-- A connection that was just opened. -/
def Memory.new (P : Setup F V S) : Memory F V where
  session := sessionNew P.models P.vad P.params
  sessionMutex := none
  due := []
  client := P.defaults
  queue := []
  recognizing := none
  answers := []
  answering := none
  stop := false
  cancel := false
  finalTurn := 0
  openTurn := 0
  openRevision := 0
  answerTurn := 0
  answerRevision := 0
  answerReleased := false
  speaking := false
  out := []
  outStop := false
  log := []

end Exec

end Conversation
end S2S
