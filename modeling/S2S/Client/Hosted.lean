/-
# A client in its host

The class `S2S` of `src/tools/webui/src/lib/s2s.ts` calls the handlers of its host
in mid-step, and a handler may call `start`, `stop` or `update` before it returns.
Here every method is written down with the places where it calls a handler
(`Site`), in the order of the source; what it does after the handler it does to
whatever state the handler left.  A log line is a place and no more; what the other
handlers are told is in the outputs of the conversation.  A handler returns.

With a host that never calls back, a client does what `Component.step` says
(`quiet_method`, `quiet_event`).
-/

import S2S.Client.Phases
import S2S.Reentry

namespace S2S
namespace Client

open Json Reentry Reentry.Code

variable {F : Type}

/-- `closeAnswer` of an answer in flight, up to its first handler. -/
def Talk.closing (t : Talk F) : Talk F :=
  let content := t.heard
  let t := { t with units := [], answerDone := false, answering := false }
  let t := if content ≠ [] then { t with history := t.history ++ [⟨.assistant, content, none⟩] } else t
  t.emit .assistantEnd

theorem Talk.closeAnswer_closing (t : Talk F) :
    t.closeAnswer = if t.answering then t.closing.pushHistory else t := by
  cases h : t.answering <;> simp [closeAnswer, closing, h]

theorem Talk.pushHistory_state (t : Talk F) : t.pushHistory.state = t.state := by
  rw [pushHistory, send_eq]; rfl

theorem Talk.sendSessionUpdate_state (t : Talk F) : t.sendSessionUpdate.state = t.state := by
  rw [sendSessionUpdate, send_eq]

theorem Talk.closing_state (t : Talk F) : t.closing.state = t.state := by
  dsimp only [closing]
  split_ifs <;> rfl

/-! ### Places -/

/-- What closes an answer, and goes on once the handlers of that were called. -/
inductive Closer
  | teardown
  | reconnect
  | speechStarted
  | created
  | cancelled
  | done
  | report
  deriving DecidableEq, Repr

/-- Where a handler is called.  In `open`: `startRequested`, before the audio context, `made` when the
page grants one; `contextMade`; `microphoneGranted`, before the worklet and the socket, `joined` when
both can be made.  In the `catch` of `start`: `startFailed`; in `stop`: `stopRequested`.  In `connect`:
`connecting`; in `onopen`: `opened`; in `onerror`: `connectionFailed`; in `onclose`:
`connectionClosed`, `connectionLost` before its teardown, `dropped` before it reconnects.  In
`reconnect`, before the timer: `reconnecting`.  `micSettled` is the end of a switch, `answer` a handler
of `closeAnswer`, `answerStarts` is `assistant_start`, `state` a change of the state, and `told` any
other handler of an event. -/
inductive Site
  | startRequested (made : Bool)
  | contextMade
  | microphoneGranted (joined : Bool)
  | startFailed
  | stopRequested
  | connecting
  | opened
  | connectionFailed
  | connectionClosed
  | connectionLost
  | dropped
  | reconnecting
  | micSettled
  | answer (closer : Closer)
  | answerStarts
  | state
  | told
  deriving DecidableEq, Repr

/-- A method, as it calls its handlers. -/
abbrev Steps (F : Type) := Code (Component F) Site

/-- What the host calls. -/
inductive Call
  | start (ok : Bool)
  | stop
  | update (options : S2SOptions)
  deriving DecidableEq, Repr

/-- What happens to a client while no handler runs: what it waits for settles, a socket opens, fails,
closes or delivers, a timer fires, a played report of the worklet comes, of this session or of an
earlier one. -/
inductive Occurrence (F : Type)
  | settles (i : ℕ) (o : Outcome)
  | opens (i : ℕ)
  | errs (i : ℕ)
  | closes (i : ℕ) (clean : Bool) (code : ℕ)
  | message (i : ℕ) (e : ServerEvent F)
  | fires (i : ℕ) (socket : Bool)
  | report (generation played : ℕ)

namespace Hosted

/-! ### What other methods share -/

/-- `setState`. -/
def setState (s : State) (c : Component F) : Steps F :=
  if c.talk.state = s then .ends c else .tells .state { c with talk := c.talk.setState s } .ends

/-- `closeAnswer`. -/
def closeAnswer (closer : Closer) (c : Component F) : Steps F :=
  if !c.talk.answering then .ends c
  else
    .tells (.answer closer) { c with talk := c.talk.closing } fun c =>
      .tells (.answer closer) { c with talk := c.talk.pushHistory } .ends

/-- `teardown`, between its `closeAnswer` and its `setState`. -/
def release (c : Component F) : Component F :=
  { c.stopTracks c.stream with
    talk := { c.talk.forgetTurns with connected := false, duplex := false }
    timers := touch c.reconnectTimer (fun _ => none) c.timers
    established := false
    run := c.run + 1
    ws := none
    sockets := touch c.ws (fun s => { s with closing := true }) c.sockets
    stream := none
    source := none
    contexts := touch c.context (fun _ => false) c.contexts
    context := none }

/-- `teardown`. -/
def teardown (c : Component F) : Steps F :=
  (closeAnswer .teardown c).andThen fun c => setState .idle (release c)

/-- `connect`, a socket that can be made. -/
def connect (run : ℕ) (c : Component F) : Steps F := .tells .connecting (c.connect run) .ends

/-- A timer to connect again. -/
def schedule (run : ℕ) (c : Component F) : Component F :=
  { c with reconnectTimer := some c.timers.length, timers := c.timers ++ [some run] }

/-- `reconnect`. -/
def reconnect (run : ℕ) (c : Component F) : Steps F :=
  let c := { c with ws := none, talk := { c.talk with connected := false }.flushPlayback }
  (closeAnswer .reconnect c).andThen fun c =>
    (setState .listening { c with talk := c.talk.forgetTurns }).andThen fun c =>
      .tells .reconnecting c fun c => .ends (schedule run c)

/-! ### What the host calls -/

/-- `stop`. -/
def stop (c : Component F) : Steps F := .tells .stopRequested c teardown

/-- An audio context. -/
def withContext (c : Component F) : Component F :=
  { c with context := some c.contexts.length, contexts := c.contexts ++ [true] }

/-- `start`, up to its first `await`; `ok` is a secure page that grants an audio context. -/
def start (ok : Bool) (c : Component F) : Steps F :=
  if c.context.isSome then .ends c
  else
    let run := c.run + 1
    .tells (.startRequested ok) { c with run := run } fun c =>
      if ok then .ends ((withContext c).await (.worklet run)) else .ends (c.await (.failed run))

/-- A method the host calls. -/
def method : Call → Component F → Steps F
  | .start ok, c => start ok c
  | .stop, c => stop c
  | .update options, c => .ends (c.update options)

/-! ### What settles -/

/-- The `catch` of `start`. -/
def caught (run : ℕ) (message : Bytes) (c : Component F) : Steps F :=
  if run ≠ c.run then .ends c
  else .tells .startFailed c fun c => .tells .startFailed (c.tell message) teardown

/-- `open` after the worklet was loaded. -/
def loaded (run : ℕ) (o : Outcome) (c : Component F) : Steps F :=
  if !o.granted then .ends (c.await (.failed run))
  else if run ≠ c.run then .ends c
  else .tells .contextMade c fun c => .ends (c.await (.microphone run c.talk.options.constraints))

/-- The worklet of a start, in front of its stream. -/
def join (i : ℕ) (c : Component F) : Component F :=
  { c with talk := c.talk.step .prepared, source := i }

/-- `open` after the microphone was asked for. -/
def heard (run : ℕ) (asked : MediaTrackConstraints) (o : Outcome) (c : Component F) : Steps F :=
  let i := c.streams.length
  if !o.granted then .ends (c.await (.failed run))
  else if run ≠ c.run then .ends ((c.acquire asked).stopTracks i)
  else
    .tells (.microphoneGranted (o.graph && o.socket)) { c.acquire asked with stream := i } fun c =>
      if !o.graph then .ends (c.await (.failed run))
      else
        let c := join i c
        if o.socket then
          (connect run c).andThen fun c' => .ends (c'.await (.connected run c.sockets.length))
        else .ends (c.await (.failed run))

/-- `open` after its socket opened, or failed to. -/
def connected (run : ℕ) (opened : Bool) (o : Outcome) (c : Component F) : Steps F :=
  if !opened then caught run o.message c
  else if run ≠ c.run then .ends c
  else setState .listening c

/-- The end of a switch that was refused: a line of the log, and the error. -/
def refuse (o : Outcome) (c : Component F) : Steps F :=
  .tells .micSettled c fun c =>
    .tells .micSettled (c.tell (ascii "Microphone switch refused, " ++ o.message)) .ends

/-- `applyMic` after the microphone was asked for. -/
def switched (run : ℕ) (asked : MediaTrackConstraints) (o : Outcome) (c : Component F) : Steps F :=
  let i := c.streams.length
  if !o.granted then refuse o c
  else if run ≠ c.run ∨ c.context.isNone ∨ !c.talk.duplex then .ends ((c.acquire asked).stopTracks i)
  else
    let c := { (c.acquire asked).stopTracks c.stream with stream := i, source := none }
    if o.graph then .tells .micSettled { c with source := i } .ends else refuse o c

/-- `applyEcho` after `applyConstraints`. -/
def constrained (stream : ℕ) (asked : MediaTrackConstraints) (o : Outcome) (c : Component F) : Steps F :=
  if o.granted then
    .tells .micSettled
      { c with streams := touch stream (fun s => { s with processing := asked.processing }) c.streams } .ends
  else refuse o c

/-- What goes on once something settled. -/
def resume (o : Outcome) (c : Component F) : Pending → Steps F
  | .worklet run => loaded run o c
  | .microphone run asked => heard run asked o c
  | .connected run socket => connected run (c.sockets[socket]?.any fun s => s.promise = some true) o c
  | .failed run => caught run o.message c
  | .switched run asked => switched run asked o c
  | .constrained stream asked => constrained stream asked o c

/-- One of the things waited for settles. -/
def settle (i : ℕ) (o : Outcome) (c : Component F) : Steps F :=
  match c.pending[i]? with
  | some p => if c.ready p then resume o { c with pending := c.pending.eraseIdx i } p else .ends c
  | none => .ends c

/-! ### Sockets -/

/-- `ws.onopen`: a line of the log, the session and the list, and then the promise. -/
def onOpen (i : ℕ) (c : Component F) : Steps F :=
  .tells .opened { c with talk := { c.talk with connected := true } } fun c =>
    let c := { c with
      sockets := touch i (fun s => { s with opened := true }) c.sockets
      established := true
      talk := c.talk.sendSessionUpdate.pushHistory }
    .tells .opened c fun c =>
      .ends { c with sockets := touch i (fun s => { s with promise := s.promise.or (some true) }) c.sockets }

/-- `ws.onerror`. -/
def onError (i : ℕ) (c : Component F) : Steps F := .tells .connectionFailed c fun c => .ends (c.onError i)

/-- `ws.onclose` of the socket in use, once its line of the log was told. -/
def lose (s : Socket) (clean : Bool) (code : ℕ) (c : Component F) : Steps F :=
  let lost := ascii "Connection lost, code " ++ natText code
  if clean ∨ !c.established then
    if clean then teardown c else .tells .connectionLost (c.tell lost) teardown
  else if s.opened then .tells .dropped (c.tell (lost ++ ascii ", reconnecting")) (reconnect s.run)
  else reconnect s.run c

/-- `ws.onclose`. -/
def onClose (i : ℕ) (s : Socket) (clean : Bool) (code : ℕ) (c : Component F) : Steps F :=
  let c := { c with sockets := touch i (fun s => { s with closed := true }) c.sockets }
  if c.ws ≠ some i ∨ s.run ≠ c.run then .ends c
  else
    .tells .connectionClosed { c with talk := { c.talk with connected := false } } (lose s clean code)

/-- The timer of a reconnection; `socket` tells whether one can be made. -/
def onTimer (i run : ℕ) (socket : Bool) (c : Component F) : Steps F :=
  let c := { c with timers := touch i (fun _ => none) c.timers }
  if run = c.run ∧ socket then connect run c else .ends c

/-! ### What the server sends, and what was played -/

/-- An event whose handler comes last. -/
def told (c : Component F) (e : ServerEvent F) : Steps F :=
  .tells .told { c with talk := c.talk.onServerEvent e } .ends

/-- An event that the answer in flight takes, with a handler that comes last. -/
def taken (c : Component F) (e : ServerEvent F) : Steps F := if c.talk.answering then told c e else .ends c

/-- `onServerEvent`. -/
def onServerEvent (c : Component F) : ServerEvent F → Steps F
  | .sessionUpdated voice =>
    match voice with
    | some (voice, effect) =>
      .tells .told
          { c with talk := { c.talk with options := { c.talk.options with voice := voice, effect := effect } } }
        fun c => .tells .told { c with talk := c.talk.emit (.voice voice effect) } .ends
    | none => .ends c
  | .speechStarted =>
    (if c.talk.state = .speaking ∨ c.talk.state = .thinking then
      closeAnswer .speechStarted { c with talk := c.talk.flushPlayback }
    else .ends c).andThen (setState .listening)
  | .created =>
    (closeAnswer .created c).andThen fun c =>
      let t := { c.talk with
        answering := true, answerDone := false, generation := c.talk.generation + 1,
        queuedSamples := 0, playedSamples := 0 }
      .tells .answerStarts { c with talk := (t.post (.reset t.generation)).emit .assistantStart }
        (setState .thinking)
  | .audio pcm =>
    if c.talk.answering then
      match pcm with
      | some pcm =>
        let t := { c.talk with queuedSamples := c.talk.queuedSamples + pcm.length }
        setState .speaking { c with talk := t.post (.pcm pcm) }
      | none => .ends c
    else .ends c
  | .cancelled =>
    (closeAnswer .cancelled { c with talk := c.talk.flushPlayback }).andThen (setState .listening)
  | .done =>
    let c := { c with talk := { c.talk with answerDone := true } }
    if c.talk.queuedSamples ≤ c.talk.playedSamples then
      (closeAnswer .done c).andThen (setState .listening)
    else .ends c
  | .transcript text item => told c (.transcript text item)
  | .error message => told c (.error message)
  | .other => .ends c
  | .textDelta delta => taken c (.textDelta delta)
  | .toolStarted name => taken c (.toolStarted name)
  | .toolDone name ok ms bytes => taken c (.toolDone name ok ms bytes)
  | .spoken delta textEnd => taken c (.spoken delta textEnd)

/-- A played report of the worklet, `duplex.port.onmessage`. -/
def onReport (generation played : ℕ) (c : Component F) : Steps F :=
  if generation ≠ c.talk.generation then .ends c
  else
    let c := { c with talk := { c.talk with playedSamples := played } }
    if c.talk.answerDone ∧ c.talk.queuedSamples ≤ c.talk.playedSamples then
      (closeAnswer .report c).andThen (setState .listening)
    else .ends c

/-- What happens to a client; what cannot happen changes nothing. -/
def event : Occurrence F → Component F → Steps F
  | .settles i o, c => settle i o c
  | .opens i, c => if c.sockets[i]?.any fun s => s.inUse && !s.opened then onOpen i c else .ends c
  | .errs i, c => if c.sockets[i]?.any fun s => !s.closed then onError i c else .ends c
  | .closes i clean code, c =>
    match c.sockets[i]? with
    | some s => if s.closed then .ends c else onClose i s clean code c
    | none => .ends c
  | .message i e, c =>
    if c.sockets[i]?.any fun s => s.inUse && s.opened then onServerEvent c e else .ends c
  | .fires i socket, c =>
    match c.timers[i]? with
    | some (some run) => onTimer i run socket c
    | _ => .ends c
  | .report generation played, c => onReport generation played c

end Hosted

/-- **A client and what its host and the browser do to it.** -/
def hosted (F : Type) : Object (Component F) Site Call (Occurrence F) where
  method := Hosted.method
  event := Hosted.event

/-! ### A host that never calls back -/

section Quiet

variable (c : Component F)

@[simp] theorem quiet_setState (s : State) :
    (Hosted.setState s c).quiet = { c with talk := c.talk.setState s } := by
  unfold Hosted.setState
  split_ifs with h
  · simp [Talk.setState, h]
  · rfl

@[simp] theorem quiet_closeAnswer (closer : Closer) :
    (Hosted.closeAnswer closer c).quiet = { c with talk := c.talk.closeAnswer } := by
  unfold Hosted.closeAnswer
  rw [Talk.closeAnswer_closing]
  cases c.talk.answering <;> simp

@[simp] theorem quiet_teardown : (Hosted.teardown c).quiet = c.teardown := by
  simp [Hosted.teardown, Hosted.release, Component.teardown, Component.stopTracks, Talk.teardown]

@[simp] theorem quiet_connect (run : ℕ) : (Hosted.connect run c).quiet = c.connect run := rfl

@[simp] theorem quiet_reconnect (run : ℕ) : (Hosted.reconnect run c).quiet = c.reconnect run := by
  simp [Hosted.reconnect, Hosted.schedule, Component.reconnect, Talk.reconnect]

@[simp] theorem quiet_caught (run : ℕ) (message : Bytes) :
    (Hosted.caught run message c).quiet = c.caught run message := by
  unfold Hosted.caught Component.caught
  split_ifs <;> simp

/-- What the host calls does what the component does then. -/
theorem quiet_method (k : Call) :
    ((hosted F).method k c).quiet = c.step (match k with
      | .start ok => .start ok
      | .stop => .stop
      | .update options => .update options) := by
  cases k with
  | start ok =>
    show (Hosted.start ok c).quiet = c.start ok
    unfold Hosted.start Component.start
    dsimp only
    split_ifs with hcontext hok
    · rfl
    · subst hok
      rfl
    · obtain rfl := Bool.eq_false_iff.2 hok
      rfl
  | stop => exact quiet_teardown c
  | update options => rfl

theorem quiet_resume (o : Outcome) (p : Pending) : (Hosted.resume o c p).quiet = c.resume o p := by
  cases p with
  | worklet run =>
    show (Hosted.loaded run o c).quiet = c.loaded run o
    unfold Hosted.loaded Component.loaded
    split_ifs <;> rfl
  | microphone run asked =>
    show (Hosted.heard run asked o c).quiet = c.heard run asked o
    unfold Hosted.heard Component.heard
    dsimp only
    split_ifs <;> simp [*, Hosted.join]
  | connected run socket =>
    show (Hosted.connected run _ o c).quiet = c.connected run _ o
    unfold Hosted.connected Component.connected
    split_ifs <;> simp [Talk.step]
  | failed run => exact quiet_caught c run o.message
  | switched run asked =>
    show (Hosted.switched run asked o c).quiet = c.switched run asked o
    unfold Hosted.switched Component.switched Hosted.refuse
    dsimp only
    split_ifs <;> rfl
  | constrained stream asked =>
    show (Hosted.constrained stream asked o c).quiet = c.constrained stream asked o
    unfold Hosted.constrained Component.constrained Hosted.refuse
    split_ifs <;> rfl

theorem touch_touch {α : Type} (i : ℕ) (f g : α → α) (l : List α) :
    touch i g (touch i f l) = touch i (g ∘ f) l := by
  refine List.ext_getElem? fun j => ?_
  simp only [getElem?_touch]
  split_ifs
  · rw [Option.map_map]
  · rfl

theorem quiet_onServerEvent (e : ServerEvent F) :
    (Hosted.onServerEvent c e).quiet = { c with talk := c.talk.onServerEvent e } := by
  cases e with
  | sessionUpdated voice => rcases voice with - | ⟨voice, effect⟩ <;> rfl
  | speechStarted =>
    rw [Hosted.onServerEvent, Talk.onServerEvent]
    split_ifs <;> simp
  | created => simp [Hosted.onServerEvent, Talk.onServerEvent]
  | audio pcm =>
    rcases pcm with - | pcm <;> rw [Hosted.onServerEvent, Talk.onServerEvent] <;> split_ifs <;> simp
  | cancelled => simp [Hosted.onServerEvent, Talk.onServerEvent]
  | done =>
    rw [Hosted.onServerEvent, Talk.onServerEvent]
    dsimp only
    split_ifs <;> simp
  | transcript text item => rfl
  | error message => rfl
  | other => rfl
  | textDelta delta | toolStarted name | toolDone name ok ms bytes | spoken delta textEnd =>
    dsimp only [Hosted.onServerEvent, Hosted.taken]
    split_ifs with h <;> simp [Hosted.told, Talk.onServerEvent, h]

theorem quiet_onReport (generation played : ℕ) :
    (Hosted.onReport generation played c).quiet = { c with talk := c.talk.onReport generation played } := by
  unfold Hosted.onReport Talk.onReport
  dsimp only
  split_ifs <;> simp

theorem quiet_onClose (i : ℕ) (s : Socket) (clean : Bool) (code : ℕ) :
    (Hosted.onClose i s clean code c).quiet = c.onClose i s clean code := by
  unfold Hosted.onClose Component.onClose
  dsimp only
  by_cases hgone : c.ws ≠ some i ∨ s.run ≠ c.run
  · rw [if_pos hgone, if_pos hgone, quiet_ends]
  · rw [if_neg hgone, if_neg hgone, quiet_tells]
    unfold Hosted.lose
    dsimp only
    split_ifs <;> simp

/-- What happens to a client as a happening of the component; it has no played reports. -/
def Occurrence.happening : Occurrence F → Option (Component.Happening F)
  | .settles i o => some (.settles i o)
  | .opens i => some (.opens i)
  | .errs i => some (.errs i)
  | .closes i clean code => some (.closes i clean code)
  | .message i e => some (.message i e)
  | .fires i socket => some (.fires i socket)
  | .report _ _ => none

/-- **What happens to it does what the component does then.** -/
theorem quiet_event (e : Occurrence F) {happening : Component.Happening F}
    (he : e.happening = some happening) : ((hosted F).event e c).quiet = c.step happening := by
  cases e with
  | settles i o =>
    obtain rfl := Option.some.inj he
    show (Hosted.settle i o c).quiet = c.settle i o
    unfold Hosted.settle Component.settle
    cases c.pending[i]? with
    | none => rfl
    | some p =>
      dsimp only
      split_ifs
      · exact quiet_resume _ o p
      · rfl
  | opens i =>
    obtain rfl := Option.some.inj he
    show (Hosted.event (.opens i) c).quiet = _
    unfold Hosted.event Component.step
    dsimp only
    split_ifs
    · simp [Hosted.onOpen, Component.onOpen, touch_touch, Talk.onOpen, Function.comp_def,
        Talk.sendSessionUpdate]
    · rfl
  | errs i =>
    obtain rfl := Option.some.inj he
    show (Hosted.event (.errs i) c).quiet = _
    unfold Hosted.event Component.step
    dsimp only
    split_ifs <;> rfl
  | closes i clean code =>
    obtain rfl := Option.some.inj he
    show (Hosted.event (.closes i clean code) c).quiet = _
    unfold Hosted.event Component.step
    dsimp only
    cases c.sockets[i]? with
    | none => rfl
    | some s =>
      dsimp only
      split_ifs
      · rfl
      · exact quiet_onClose c i s clean code
  | message i e =>
    obtain rfl := Option.some.inj he
    show (Hosted.event (.message i e) c).quiet = _
    unfold Hosted.event Component.step
    dsimp only
    split_ifs
    · exact quiet_onServerEvent c e
    · rfl
  | fires i socket =>
    obtain rfl := Option.some.inj he
    show (Hosted.event (.fires i socket) c).quiet = _
    unfold Hosted.event Component.step
    dsimp only
    rcases c.timers[i]? with - | - | run
    · rfl
    · rfl
    · dsimp only
      unfold Hosted.onTimer Component.onTimer
      dsimp only
      split_ifs <;> rfl
  | report generation played => simp [Occurrence.happening] at he

end Quiet

end Client
end S2S
