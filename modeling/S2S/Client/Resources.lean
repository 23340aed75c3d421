/-
# What a client acquires

The class `S2S` of `src/tools/webui/src/lib/s2s.ts`, as far as it acquires
things: a socket, an audio context, the streams of a microphone, the timer of a
reconnection.  What it waits for is pending (`Pending`) until it settles, well
or not, in any order with the rest, and what the source does after the `await`
happens then (`Component.resume`).  Sockets, contexts, streams and timers are
numbered as they are made, and what became of each is kept.

A socket that the client closed opens no more and delivers nothing; its close
event still comes.  The handlers of the host do not call back here; those that do
are in `S2S.Client.Hosted`.
-/

import S2S.Client.Talk

namespace S2S
namespace Client

open Json

/-! ### The microphone -/

/-- What the browser does to the microphone. -/
structure Processing where
  echoCancellation : Bool
  noiseSuppression : Bool
  autoGainControl : Bool
  deriving DecidableEq, Repr

/-- `MediaTrackConstraints`: a device when one is asked for, and the processing. -/
structure MediaTrackConstraints where
  deviceId : Option Bytes
  processing : Processing
  deriving DecidableEq, Repr

/-- `serverCancels`. -/
def serverCancels : Echo → Bool
  | .server => true
  | .both => true
  | _ => false

/-- `micConstraints`. -/
def micConstraints (echo : Echo) (mic : Option Bytes) : MediaTrackConstraints where
  deviceId := mic.filter (· ≠ [])
  processing := {
    echoCancellation := echo = .client ∨ echo = .both
    noiseSuppression := !serverCancels echo
    autoGainControl := !serverCancels echo }

/-- The constraints of a microphone under these options. -/
def S2SOptions.constraints (o : S2SOptions) : MediaTrackConstraints := micConstraints o.echoMethod o.mic

/-! ### The world of a client -/

/-- A stream of the microphone: whether its track is live, what it was opened on and what the
browser does to it. -/
structure MediaStream where
  live : Bool
  device : Option Bytes
  processing : Processing
  deriving DecidableEq, Repr

/-- A socket: the run it was made in, whether it ever opened, whether the client closed it, whether
its close event came, and what became of its promise. -/
structure Socket where
  run : ℕ
  opened : Bool := false
  closing : Bool := false
  closed : Bool := false
  promise : Option Bool := none
  deriving DecidableEq, Repr

/-- A socket that may still deliver something. -/
def Socket.inUse (s : Socket) : Bool := !s.closing && !s.closed

/-- What a client waits for: in a start the worklet, the microphone, the socket and, when it failed,
the end of it; a microphone to switch to; other constraints on a stream. -/
inductive Pending
  | worklet (run : ℕ)
  | microphone (run : ℕ) (asked : MediaTrackConstraints)
  | connected (run socket : ℕ)
  | failed (run : ℕ)
  | switched (run : ℕ) (asked : MediaTrackConstraints)
  | constrained (stream : ℕ) (asked : MediaTrackConstraints)
  deriving DecidableEq, Repr

/-- How something settles: whether it is granted, whether the audio graph and the socket built on it
can be made, and what the browser says of a failure. -/
structure Outcome where
  granted : Bool := true
  graph : Bool := true
  socket : Bool := true
  message : Bytes := []

/-- The component: the fields of `S2S`, and what became of all it acquired. -/
structure Component (F : Type) where
  talk : Talk F
  run : ℕ := 0
  established : Bool := false
  ws : Option ℕ := none
  context : Option ℕ := none
  stream : Option ℕ := none
  source : Option ℕ := none
  reconnectTimer : Option ℕ := none
  sockets : List Socket := []
  contexts : List Bool := []
  streams : List MediaStream := []
  timers : List (Option ℕ) := []
  pending : List Pending := []

/-- One of a list is changed, if there is one. -/
def touch {α : Type} (i : Option ℕ) (f : α → α) (l : List α) : List α :=
  match i with
  | some i => l.modify i f
  | none => l

namespace Component

variable {F : Type}

/-! ### Steps -/

/-- `handlers.error`. -/
def tell (c : Component F) (message : Bytes) : Component F := { c with talk := c.talk.emit (.error message) }

/-- One thing more to wait for. -/
def await (c : Component F) (p : Pending) : Component F := { c with pending := c.pending ++ [p] }

/-- A stream that was granted. -/
def acquire (c : Component F) (asked : MediaTrackConstraints) : Component F :=
  { c with streams := c.streams ++ [⟨true, asked.deviceId, asked.processing⟩] }

/-- The tracks of a stream stop. -/
def stopTracks (c : Component F) (stream : Option ℕ) : Component F :=
  { c with streams := touch stream (fun s => { s with live := false }) c.streams }

/-- `teardown`. -/
def teardown (c : Component F) : Component F :=
  { c.stopTracks c.stream with
    talk := c.talk.teardown
    timers := touch c.reconnectTimer (fun _ => none) c.timers
    established := false
    run := c.run + 1
    ws := none
    sockets := touch c.ws (fun s => { s with closing := true }) c.sockets
    stream := none
    source := none
    contexts := touch c.context (fun _ => false) c.contexts
    context := none }

/-- `connect`, a socket that can be made. -/
def connect (c : Component F) (run : ℕ) : Component F :=
  { c with ws := some c.sockets.length, sockets := c.sockets ++ [{ run := run }] }

/-- `reconnect`. -/
def reconnect (c : Component F) (run : ℕ) : Component F :=
  { c with
    ws := none
    talk := c.talk.reconnect
    reconnectTimer := some c.timers.length
    timers := c.timers ++ [some run] }

/-- The `catch` of `start`. -/
def caught (c : Component F) (run : ℕ) (message : Bytes) : Component F :=
  if run ≠ c.run then c else (c.tell message).teardown

/-- `start`, up to its first `await`; `ok` is a secure page that grants an audio context. -/
def start (c : Component F) (ok : Bool) : Component F :=
  if c.context.isSome then c
  else
    let c := { c with run := c.run + 1 }
    if ok then
      { c with context := some c.contexts.length, contexts := c.contexts ++ [true] }.await
        (.worklet c.run)
    else c.await (.failed c.run)

/-- `open` after the worklet was loaded. -/
def loaded (c : Component F) (run : ℕ) (o : Outcome) : Component F :=
  if !o.granted then c.await (.failed run)
  else if run ≠ c.run then c
  else c.await (.microphone run c.talk.options.constraints)

/-- `open` after the microphone was asked for. -/
def heard (c : Component F) (run : ℕ) (asked : MediaTrackConstraints) (o : Outcome) : Component F :=
  let i := c.streams.length
  if !o.granted then c.await (.failed run)
  else if run ≠ c.run then (c.acquire asked).stopTracks i
  else
    let c := { c.acquire asked with stream := i }
    if !o.graph then c.await (.failed run)
    else
      let c := { c with talk := c.talk.step .prepared, source := i }
      if o.socket then (c.connect run).await (.connected run c.sockets.length)
      else c.await (.failed run)

/-- `open` after its socket opened, or failed to. -/
def connected (c : Component F) (run : ℕ) (opened : Bool) (o : Outcome) : Component F :=
  if !opened then c.caught run o.message
  else if run ≠ c.run then c
  else { c with talk := c.talk.step .ready }

/-- `applyMic` after the microphone was asked for. -/
def switched (c : Component F) (run : ℕ) (asked : MediaTrackConstraints) (o : Outcome) : Component F :=
  let i := c.streams.length
  if !o.granted then c.tell (ascii "Microphone switch refused, " ++ o.message)
  else if run ≠ c.run ∨ c.context.isNone ∨ !c.talk.duplex then (c.acquire asked).stopTracks i
  else
    let c := { (c.acquire asked).stopTracks c.stream with stream := i, source := none }
    if o.graph then { c with source := i }
    else c.tell (ascii "Microphone switch refused, " ++ o.message)

/-- `applyEcho` after `applyConstraints`. -/
def constrained (c : Component F) (stream : ℕ) (asked : MediaTrackConstraints) (o : Outcome) : Component F :=
  if o.granted then
    { c with streams := touch stream (fun s => { s with processing := asked.processing }) c.streams }
  else c.tell (ascii "Microphone switch refused, " ++ o.message)

/-- What goes on once something settled. -/
def resume (c : Component F) (o : Outcome) : Pending → Component F
  | .worklet run => c.loaded run o
  | .microphone run asked => c.heard run asked o
  | .connected run socket =>
    c.connected run (c.sockets[socket]?.any fun s => s.promise = some true) o
  | .failed run => c.caught run o.message
  | .switched run asked => c.switched run asked o
  | .constrained stream asked => c.constrained stream asked o

/-- A promise is there to settle, that of a socket once it opened or failed. -/
def ready (c : Component F) : Pending → Bool
  | .connected _ socket => c.sockets[socket]?.any fun s => s.promise.isSome
  | _ => true

/-- One of the things waited for settles. -/
def settle (c : Component F) (i : ℕ) (o : Outcome) : Component F :=
  match c.pending[i]? with
  | some p => if c.ready p then { c with pending := c.pending.eraseIdx i }.resume o p else c
  | none => c

/-- `applyMic`, up to its `await`. -/
def applyMic (c : Component F) : Component F := c.await (.switched c.run c.talk.options.constraints)

/-- `applyEcho`. -/
def applyEcho (c : Component F) : Component F :=
  match c.stream with
  | some stream => c.await (.constrained stream (micConstraints c.talk.options.echoMethod none))
  | none => c

/-- `update`. -/
def update (c : Component F) (options : S2SOptions) : Component F :=
  let c' := { c with talk := c.talk.update options }
  if c.stream.isSome ∧ options.mic ≠ c.talk.options.mic then c'.applyMic
  else if c.stream.isSome ∧ options.echoMethod ≠ c.talk.options.echoMethod then c'.applyEcho
  else c'

/-- `ws.onopen`. -/
def onOpen (c : Component F) (i : ℕ) : Component F :=
  { c with
    sockets := touch i (fun s => { s with opened := true, promise := s.promise.or (some true) }) c.sockets
    established := true
    talk := c.talk.onOpen }

/-- `ws.onerror`. -/
def onError (c : Component F) (i : ℕ) : Component F :=
  { c with sockets := touch i (fun s => { s with promise := s.promise.or (some false) }) c.sockets }

/-- `ws.onclose`. -/
def onClose (c : Component F) (i : ℕ) (s : Socket) (clean : Bool) (code : ℕ) : Component F :=
  let c := { c with sockets := touch i (fun s => { s with closed := true }) c.sockets }
  if c.ws ≠ some i ∨ s.run ≠ c.run then c
  else
    let c := { c with talk := { c.talk with connected := false } }
    if clean ∨ !c.established then
      (if clean then c else c.tell (ascii "Connection lost, code " ++ natText code)).teardown
    else
      (if s.opened then c.tell (ascii "Connection lost, code " ++ natText code ++ ascii ", reconnecting")
        else c).reconnect s.run

/-- The timer of a reconnection; `socket` tells whether one can be made. -/
def onTimer (c : Component F) (i run : ℕ) (socket : Bool) : Component F :=
  let c := { c with timers := touch i (fun _ => none) c.timers }
  if run = c.run ∧ socket then c.connect run else c

/-- What happens to a client: calls of its host, and what it waits for, sockets and timers by their
numbers. -/
inductive Happening (F : Type)
  | start (ok : Bool)
  | stop
  | update (options : S2SOptions)
  | settles (i : ℕ) (o : Outcome)
  | opens (i : ℕ)
  | errs (i : ℕ)
  | closes (i : ℕ) (clean : Bool) (code : ℕ)
  | message (i : ℕ) (e : ServerEvent F)
  | fires (i : ℕ) (socket : Bool)

/-- What a client does then; what cannot happen changes nothing. -/
def step (c : Component F) : Happening F → Component F
  | .start ok => c.start ok
  | .stop => c.teardown
  | .update options => c.update options
  | .settles i o => c.settle i o
  | .opens i => if c.sockets[i]?.any fun s => s.inUse && !s.opened then c.onOpen i else c
  | .errs i => if c.sockets[i]?.any fun s => !s.closed then c.onError i else c
  | .closes i clean code =>
    match c.sockets[i]? with
    | some s => if s.closed then c else c.onClose i s clean code
    | none => c
  | .message i e =>
    if c.sockets[i]?.any fun s => s.inUse && s.opened then
      { c with talk := c.talk.onServerEvent e }
    else c
  | .fires i socket =>
    match c.timers[i]? with
    | some (some run) => c.onTimer i run socket
    | _ => c

/-- A client after a run. -/
def after (options : S2SOptions) (happenings : List (Happening F)) : Component F :=
  happenings.foldl step { talk := { options := options } }

end Component

end Client
end S2S
