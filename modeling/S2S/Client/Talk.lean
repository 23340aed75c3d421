/-
# The conversation of a client

The class `S2S` of `src/tools/webui/src/lib/s2s.ts`, as far as it keeps a
conversation: the answer in flight, the list, what a server event, a played
report, a call of the host and the end of a connection do to them
(`Talk.step`).  The socket, the microphone and the audio graph are in
`S2S.Client.Resources`; here a socket is open or not, a worklet there or not.

What the client does to the world is kept in order in `out`: the frames it
sends, what it posts to its worklet, what it tells its host.  A handler of the
host runs to its end and calls the client back later, if at all.

A string is its UTF-8 bytes, as it travels.
-/

import S2S.Agent.Messages

namespace S2S
namespace Client

open Json Agent

/-! ### Strings -/

/-- The white space and the line ends that `String.prototype.trim` takes away. -/
def jsSpaces : List Bytes :=
  [[0x09], [0x0A], [0x0B], [0x0C], [0x0D], [0x20], [0xC2, 0xA0], [0xE1, 0x9A, 0x80],
    [0xE2, 0x80, 0x80], [0xE2, 0x80, 0x81], [0xE2, 0x80, 0x82], [0xE2, 0x80, 0x83],
    [0xE2, 0x80, 0x84], [0xE2, 0x80, 0x85], [0xE2, 0x80, 0x86], [0xE2, 0x80, 0x87],
    [0xE2, 0x80, 0x88], [0xE2, 0x80, 0x89], [0xE2, 0x80, 0x8A], [0xE2, 0x80, 0xA8],
    [0xE2, 0x80, 0xA9], [0xE2, 0x80, 0xAF], [0xE2, 0x81, 0x9F], [0xE3, 0x80, 0x80],
    [0xEF, 0xBB, 0xBF]]

/-- At most `n` spaces off the front. -/
def dropSpaces (spaces : List Bytes) : ℕ → Bytes → Bytes
  | 0, text => text
  | n + 1, text =>
    match spaces.find? (·.isPrefixOf text) with
    | some space => dropSpaces spaces n (text.drop space.length)
    | none => text

/-- `String.prototype.trim`. -/
def trim (text : Bytes) : Bytes :=
  let text := dropSpaces jsSpaces text.length text
  (dropSpaces (jsSpaces.map List.reverse) text.length text.reverse).reverse

/-! ### The data -/

/-- `S2SState`. -/
inductive State
  | idle
  | listening
  | thinking
  | speaking
  deriving DecidableEq, Repr

/-- The role of a line. -/
inductive Speaker
  | user
  | assistant
  deriving DecidableEq, Repr

/-- `S2SMessage`. -/
structure S2SMessage where
  role : Speaker
  content : Bytes
  item : Option Bytes
  deriving DecidableEq, Repr

/-- A line without the turn it transcribes. -/
def S2SMessage.bare (m : S2SMessage) : S2SMessage := { m with item := none }

/-- A line as the server reads it; an item that is not there reads as an empty one. -/
def S2SMessage.wire (m : S2SMessage) : HistoryMessage where
  role := match m.role with
    | .user => ascii "user"
    | .assistant => ascii "assistant"
  item := m.item.getD []
  content := m.content

/-- `S2SEcho`. -/
inductive Echo
  | client
  | server
  | both
  | off
  deriving DecidableEq, Repr

/-- The options a step of the client reads: the microphone, the echo method, the voice and its
effect. -/
structure S2SOptions where
  mic : Option Bytes
  echo : Option Echo
  voice : Option Bytes
  effect : Option Bytes
  deriving DecidableEq, Repr

/-- `ECHO_DEFAULT` unless set. -/
def S2SOptions.echoMethod (o : S2SOptions) : Echo := o.echo.getD .client

/-- A synthesis unit and the sample where its audio starts. -/
structure SpokenUnit where
  text : Bytes
  start : ℕ
  deriving DecidableEq, Repr

/-- A frame to the server, the audio of the microphone apart. -/
inductive ClientFrame
  | sessionUpdate (options : S2SOptions)
  | responseCancel
  | history (messages : List S2SMessage)
  deriving DecidableEq, Repr

/-- A message to the worklet. -/
inductive Post (F : Type)
  | flush
  | reset (generation : ℕ)
  | pcm (samples : List F)

/-- What the client does to the world: a frame, a message to the worklet, an event of
`S2SEvents`. -/
inductive Output (F : Type)
  | send (f : ClientFrame)
  | post (p : Post F)
  | state (s : State)
  | userText (text : Bytes) (revised : Bool)
  | assistantStart
  | assistantDelta (text : Bytes)
  | toolStart (name : Bytes)
  | toolEnd (name : Bytes) (ok : Bool) (ms : ℚ) (bytes : ℕ)
  | assistantText (text : Bytes) (textEnd : ℕ)
  | assistantEnd
  | history (messages : List S2SMessage)
  | voice (voice effect : Bytes)
  | error (message : Bytes)

/-- A server event after its parsing, by its type.  A voice is there when both strings are, samples
when they decode. -/
inductive ServerEvent (F : Type)
  | sessionUpdated (voice : Option (Bytes × Bytes))
  | speechStarted
  | transcript (text item : Bytes)
  | created
  | textDelta (delta : Bytes)
  | toolStarted (name : Bytes)
  | toolDone (name : Bytes) (ok : Bool) (ms : ℚ) (bytes : ℕ)
  | spoken (delta : Bytes) (textEnd : ℕ)
  | audio (pcm : Option (List F))
  | cancelled
  | done
  | error (message : Bytes)
  | other

/-- The fields of `S2S` a conversation rests on.  `connected` is a socket that is open, `duplex` a
worklet that is there. -/
structure Talk (F : Type) where
  options : S2SOptions
  state : State := .idle
  generation : ℕ := 0
  queuedSamples : ℕ := 0
  playedSamples : ℕ := 0
  units : List SpokenUnit := []
  answerDone : Bool := false
  answering : Bool := false
  history : List S2SMessage := []
  userItem : Bytes := []
  connected : Bool := false
  duplex : Bool := false
  out : List (Output F) := []

/-- What happens to a client.  `prepared` is the worklet of a start, `ready` the end of that start,
`stop` whatever ends a session on this side, `ended` a server that ended it, `dropped` a connection
that was lost. -/
inductive Event (F : Type)
  | server (e : ServerEvent F)
  | report (generation played : ℕ)
  | cancel
  | setHistory (messages : List S2SMessage)
  | clearHistory
  | update (options : S2SOptions)
  | prepared
  | opened
  | ready
  | stop
  | ended
  | dropped

namespace Talk

variable {F : Type}

/-! ### Small steps -/

/-- One thing done to the world. -/
def emit (t : Talk F) (o : Output F) : Talk F := { t with out := t.out ++ [o] }

/-- `send`. -/
def send (t : Talk F) (f : ClientFrame) : Talk F := if t.connected then t.emit (.send f) else t

/-- `duplex?.port.postMessage`. -/
def post (t : Talk F) (p : Post F) : Talk F := if t.duplex then t.emit (.post p) else t

/-- `setState`. -/
def setState (t : Talk F) (s : State) : Talk F :=
  if t.state ≠ s then { t with state := s }.emit (.state s) else t

/-- `flushPlayback`. -/
def flushPlayback (t : Talk F) : Talk F := t.post .flush

/-- `sendSessionUpdate`. -/
def sendSessionUpdate (t : Talk F) : Talk F := t.send (.sessionUpdate t.options)

/-- `pushHistory`. -/
def pushHistory (t : Talk F) : Talk F := (t.send (.history t.history)).emit (.history t.history)

/-- What was heard of the answer in flight: the units whose audio started playing. -/
def heard (t : Talk F) : Bytes :=
  trim ([0x20].intercalate
    ((t.units.filter fun u => u.start < t.playedSamples).map SpokenUnit.text))

/-- `closeAnswer`. -/
def closeAnswer (t : Talk F) : Talk F :=
  if !t.answering then t
  else
    let content := t.heard
    let t := { t with units := [], answerDone := false, answering := false }
    let t := if content ≠ [] then { t with history := t.history ++ [⟨.assistant, content, none⟩] } else t
    (t.emit .assistantEnd).pushHistory

/-- `forgetTurns`. -/
def forgetTurns (t : Talk F) : Talk F :=
  { t with userItem := [], history := t.history.map S2SMessage.bare }

section Small

variable (t : Talk F)

/-- What `send` adds to the outputs. -/
def sent (f : ClientFrame) : List (Output F) := if t.connected then [.send f] else []

/-- What `post` adds to the outputs. -/
def posted (p : Post F) : List (Output F) := if t.duplex then [.post p] else []

/-- What `setState` adds to the outputs. -/
def told (s : State) : List (Output F) := if t.state = s then [] else [.state s]

/-- What a close files. -/
def files : List S2SMessage := if t.heard = [] then [] else [⟨.assistant, t.heard, none⟩]

theorem send_eq (f : ClientFrame) : t.send f = { t with out := t.out ++ t.sent f } := by
  unfold send sent
  split_ifs
  · rfl
  · simp

theorem post_eq (p : Post F) : t.post p = { t with out := t.out ++ t.posted p } := by
  unfold post posted
  split_ifs
  · rfl
  · simp

theorem setState_eq (s : State) :
    t.setState s = { t with state := s, out := t.out ++ t.told s } := by
  unfold setState told
  by_cases h : t.state = s
  · rw [if_neg (by simpa using h), if_pos h, List.append_nil]
    cases t
    subst h
    rfl
  · rw [if_pos h, if_neg h]
    rfl

theorem closeAnswer_idle (h : t.answering = false) : t.closeAnswer = t := by
  simp [closeAnswer, h]

/-- **A close**: what was heard is filed, the answer is gone, the list goes out. -/
theorem closeAnswer_eq (h : t.answering = true) :
    t.closeAnswer = { t with
      units := [], answerDone := false, answering := false, history := t.history ++ t.files,
      out := t.out ++ [.assistantEnd] ++ t.sent (.history (t.history ++ t.files)) ++
        [.history (t.history ++ t.files)] } := by
  unfold closeAnswer files
  by_cases hheard : t.heard = [] <;> simp [h, hheard, pushHistory, send_eq, emit, sent]

end Small

/-! ### What the server sends -/

/-- A transcript: a later one of the same turn replaces its user message. -/
def onTranscript (t : Talk F) (text item : Bytes) : Talk F :=
  let revised := item ≠ [] ∧ item = t.userItem ∧ t.history.getLast?.any (·.role = .user)
  let history := if revised then
      t.history.dropLast ++ t.history.getLast?.toList.map fun last => { last with content := text }
    else t.history ++ [⟨.user, text, some item⟩]
  { t with history := history, userItem := item }.emit (.userText text revised)

/-- `onServerEvent`. -/
def onServerEvent (t : Talk F) : ServerEvent F → Talk F
  | .sessionUpdated voice =>
    match voice with
    | some (voice, effect) =>
      { t with options := { t.options with voice := voice, effect := effect } }.emit
        (.voice voice effect)
    | none => t
  | .speechStarted =>
    let t := if t.state = .speaking ∨ t.state = .thinking then t.flushPlayback.closeAnswer else t
    t.setState .listening
  | .transcript text item => t.onTranscript text item
  | .created =>
    let t := t.closeAnswer
    let t := { t with
      answering := true, answerDone := false, generation := t.generation + 1,
      queuedSamples := 0, playedSamples := 0 }
    ((t.post (.reset t.generation)).emit .assistantStart).setState .thinking
  | .textDelta delta => if t.answering then t.emit (.assistantDelta delta) else t
  | .toolStarted name => if t.answering then t.emit (.toolStart name) else t
  | .toolDone name ok ms bytes => if t.answering then t.emit (.toolEnd name ok ms bytes) else t
  | .spoken delta textEnd =>
    if t.answering then
      { t with units := t.units ++ [SpokenUnit.mk delta t.queuedSamples] }.emit
        (.assistantText delta textEnd)
    else t
  | .audio pcm =>
    if t.answering then
      match pcm with
      | some pcm =>
        ({ t with queuedSamples := t.queuedSamples + pcm.length }.post (.pcm pcm)).setState .speaking
      | none => t
    else t
  | .cancelled => t.flushPlayback.closeAnswer.setState .listening
  | .done =>
    let t := { t with answerDone := true }
    if t.queuedSamples ≤ t.playedSamples then t.closeAnswer.setState .listening else t
  | .error message => t.emit (.error message)
  | .other => t

/-- A played report of the worklet, `duplex.port.onmessage`. -/
def onReport (t : Talk F) (generation played : ℕ) : Talk F :=
  if generation ≠ t.generation then t
  else
    let t := { t with playedSamples := played }
    if t.answerDone ∧ t.queuedSamples ≤ t.playedSamples then t.closeAnswer.setState .listening else t

/-! ### What the host calls -/

/-- `cancel`. -/
def cancel (t : Talk F) : Talk F :=
  (t.send .responseCancel).flushPlayback.closeAnswer.setState .listening

/-- `setHistory`. -/
def setHistory (t : Talk F) (messages : List S2SMessage) : Talk F :=
  { t with history := messages.map S2SMessage.bare, userItem := [] }.pushHistory

/-- `clearHistory`. -/
def clearHistory (t : Talk F) : Talk F :=
  let t := if t.answering then
      let t := (t.send .responseCancel).flushPlayback
      ({ t with units := [], answerDone := false, answering := false }.emit .assistantEnd).setState
        .listening
    else t
  t.setHistory []

/-- `update`, the microphone apart. -/
def update (t : Talk F) (options : S2SOptions) : Talk F :=
  { t with options := options }.sendSessionUpdate

/-! ### Connections -/

/-- `ws.onopen`. -/
def onOpen (t : Talk F) : Talk F := { t with connected := true }.sendSessionUpdate.pushHistory

/-- `teardown`, the resources apart. -/
def teardown (t : Talk F) : Talk F :=
  let t := t.closeAnswer.forgetTurns
  { t with connected := false, duplex := false }.setState .idle

/-- `reconnect`, the timer apart. -/
def reconnect (t : Talk F) : Talk F :=
  let t := { t with connected := false }.flushPlayback.closeAnswer.forgetTurns
  t.setState .listening

/-! ### Runs -/

/-- What a client does at an event. -/
def step (t : Talk F) : Event F → Talk F
  | .server e => t.onServerEvent e
  | .report generation played => t.onReport generation played
  | .cancel => t.cancel
  | .setHistory messages => t.setHistory messages
  | .clearHistory => t.clearHistory
  | .update options => t.update options
  | .prepared => { t with duplex := true }
  | .opened => t.onOpen
  | .ready => t.setState .listening
  | .stop => t.teardown
  | .ended => { t with connected := false }.teardown
  | .dropped => t.reconnect

/-- A client after a run. -/
def run (options : S2SOptions) (events : List (Event F)) : Talk F :=
  events.foldl step { options := options }

@[simp] theorem run_nil (options : S2SOptions) : run options ([] : List (Event F)) = { options := options } :=
  rfl

theorem run_append (options : S2SOptions) (events more : List (Event F)) :
    run options (events ++ more) = more.foldl step (run options events) := List.foldl_append

theorem run_snoc (options : S2SOptions) (events : List (Event F)) (e : Event F) :
    run options (events ++ [e]) = (run options events).step e := run_append options events [e]

end Talk

end Client
end S2S
