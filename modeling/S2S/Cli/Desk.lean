/-
# The voice loop on the sound card of a machine

`src/tools/s2s-cli.cpp` in one process with the engine: the callback of the audio
device (`onAudio`), the writer of the engine with the frames that come back
(`onEvent`), the reader that hands frames to the engine and closes an answer the
loudspeaker is done with (`readLoop`), and whoever stops the process.

The callback shares two rings and a few atomics with the others, without a lock;
the context sits under one mutex, which the writer keeps while it waits for the
callback to drop what is queued (`audioFlush`).  Every load and store of an
atomic, and every move of an offset of a ring, is an action of its own.

A sample carries the answer it is of, which no step looks at.
-/

import S2S.Cli.Ring
import S2S.Wire.Basic

namespace S2S
namespace Cli

open Json Agent Thread Conversation Client

/-- A thread of the process. -/
inductive Role
  | callback
  | writer
  | reader
  | user
  deriving DecidableEq

/-! ### The context -/

/-- `Context`: the conversation, and the answer in flight. -/
structure Context where
  history : List HistoryMessage
  userItem : Bytes
  units : List SpokenUnit
  answering : Bool
  answerDone : Bool
  queued : ℕ
  heardBase : ℕ
  consumedBase : ℕ

/-- `" \t\r\n"`. -/
def blanks : Bytes := [0x20, 0x09, 0x0D, 0x0A]

/-- The units whose audio started playing, joined. -/
def unitsHeard (units : List SpokenUnit) (heard : ℕ) : Bytes :=
  units.foldl (fun content u =>
    if u.start < heard then content ++ (if content.isEmpty then [] else [0x20]) ++ u.text
    else content) []

/-- From the first byte that is no blank to the last one. -/
def trimmed (content : Bytes) : Bytes :=
  ((content.dropWhile blanks.contains).reverse.dropWhile blanks.contains).reverse

/-- The line of an answer. -/
def lineOf (units : List SpokenUnit) (heard : ℕ) : Bytes := trimmed (unitsHeard units heard)

namespace Context

/-- Nothing said yet. -/
def init : Context := ⟨[], [], [], false, false, 0, 0, 0⟩

/-- `context_user`. -/
def user (context : Context) (item transcript : Bytes) : Context :=
  let revised := !item.isEmpty && item == context.userItem &&
    context.history.getLast?.any (·.role == ascii "user")
  let history := if revised then
      context.history.dropLast ++
        context.history.getLast?.toList.map fun last => { last with content := transcript }
    else context.history ++ [⟨ascii "user", item, transcript⟩]
  { context with history := history, userItem := item }

/-- `context_open`, of the counters it reads. -/
def opened (context : Context) (heard consumed : ℕ) : Context :=
  { context with
    answering := true, answerDone := false, queued := 0, heardBase := heard,
    consumedBase := consumed }

/-- The last comparison of `context_played`. -/
def played (context : Context) (consumed : ℕ) : Bool :=
  decide (context.queued ≤ consumed - context.consumedBase)

/-- `context_close`, of the counter it reads, without the list handed to the engine. -/
def closed (context : Context) (heard : ℕ) : Context :=
  let content := lineOf context.units (heard - context.heardBase)
  { context with
    units := [], answering := false, answerDone := false,
    history := if content.isEmpty then context.history
      else context.history ++ [⟨ascii "assistant", [], content⟩] }

end Context

/-! ### The process -/

variable {F : Type}

/-- A frame handed to the engine. -/
inductive Sent (F : Type)
  | history (messages : List HistoryMessage)
  | append (audio : List F) (reference : Option (List F))

/-- What is kept of an answer closed: how much of it was counted as heard, how much was queued, its
units, and whether the loudspeaker was done with it. -/
structure Closing where
  answer : ℕ
  heard : ℕ
  queued : ℕ
  units : List SpokenUnit
  ended : Bool

/-- What is kept of a period of the device: what the microphone heard in it, what was played, and
the pairs of both that the ring of the microphone took. -/
structure Period (F : Type) where
  input : List F
  out : List (ℕ × F)
  kept : List (F × F)

/-- The period under way is the last one. -/
def underWay {F : Type} (f : Period F → Period F) (periods : List (Period F)) : List (Period F) :=
  periods.dropLast ++ periods.getLast?.toList.map f

/-- `Audio` and `Cli`, the frames of the engine, and what was done: `given` is what the loudspeaker
was given to play, `air` what it played. -/
structure Desk (F : Type) where
  aec : Bool
  capture : Ring (F × F)
  playback : Ring (ℕ × F)
  flush : Bool
  heard : ℕ
  consumed : ℕ
  mutex : Option Role
  context : Context
  outbox : List (List HistoryMessage)
  stop : Bool
  coming : List (Frame F)
  current : Option (Frame F)
  taken : List (Frame F)
  sent : List (Sent F)
  answer : ℕ
  given : List (ℕ × F)
  air : List (ℕ × F)
  closings : List Closing
  periods : List (Period F)

/-- What a thread does in one step. -/
inductive Act (F : Type)
  | period
  | loadFlush
  | availableRead
  | seekRead (n : ℕ)
  | lowerFlush
  | acquireRead (n : ℕ)
  | commitRead (chunk : List (ℕ × F))
  | addHeard (n : ℕ)
  | addConsumed (n : ℕ)
  | acquireCapture (n : ℕ)
  | commitCapture (pairs : List (F × F))
  | event
  | lock
  | unlock
  | answering
  | user (item transcript : Bytes)
  | unit (delta : Bytes)
  | queued (n : ℕ)
  | answerDone
  | raiseFlush
  | awaitFlush
  | loadHeard
  | loadConsumed
  | close (heard : ℕ)
  | opens (heard consumed : ℕ)
  | acquireWrite (n : ℕ)
  | commitWrite (pcm : List F)
  | loadStop
  | connStopped
  | answerOver
  | played (consumed : ℕ)
  | swapOutbox
  | connFrame (frame : Sent F)
  | pairsAvailable
  | acquirePairs (n : ℕ)
  | commitPairs (pairs : List (F × F))
  | raiseStop

/-- What an action takes from outside: what the microphone heard in a period of the device, the
samples that a frame of audio decodes to, whether the engine is done. -/
def Act.Input : Act F → Type
  | .period => List F
  | .event => List F
  | .connStopped => Bool
  | _ => Unit

/-- What an action gives back. -/
def Act.Result : Act F → Type
  | .period => List F
  | .loadFlush => Bool
  | .availableRead => ℕ
  | .acquireRead _ => List (ℕ × F)
  | .acquireCapture _ => ℕ
  | .event => ServerEvent F
  | .answering => Bool
  | .loadHeard => ℕ
  | .loadConsumed => ℕ
  | .acquireWrite _ => ℕ
  | .loadStop => Bool
  | .connStopped => Bool
  | .answerOver => Bool
  | .played _ => Bool
  | .swapOutbox => List (List HistoryMessage)
  | .pairsAvailable => ℕ
  | .acquirePairs _ => List (F × F)
  | _ => Unit

/-- `CLI_FRAME_SAMPLES`. -/
def frameSamples : ℕ := 480

/-- What the writer makes of a frame; the samples of audio are the ones it decodes to. -/
def arrives (f : Frame F) (decoded : List F) : Option (ServerEvent F) :=
  match f with
  | .audio pcm => if decoded.length = pcm.length then some (.audio (some decoded)) else none
  | f => some (Wire.told f)

/-- The frame that the writer is done with. -/
def Desk.settled (d : Desk F) (role : Role) : Desk F :=
  match role with
  | .writer => { d with taken := d.taken ++ d.current.toList, current := none }
  | _ => d

/-- An answer is closed. -/
def Desk.close (d : Desk F) (heard : ℕ) (ended : Bool) : Desk F :=
  { d with
    context := d.context.closed heard
    outbox := d.outbox ++ [(d.context.closed heard).history]
    closings := d.closings ++
      [⟨d.answer, heard - d.context.heardBase, d.context.queued, d.context.units, ended⟩] }

/-- **One step of a thread**, nothing where it has to wait. -/
def exec (role : Role) : (a : Act F) → a.Input → Desk F → Option (a.Result × Desk F)
  | .period, input, d => some (input, { d with periods := d.periods ++ [⟨input, [], []⟩] })
  | .loadFlush, _, d => some (d.flush, d)
  | .availableRead, _, d => some (d.playback.availableRead, d)
  | .seekRead n, _, d => some ((), { d with playback := d.playback.seekRead n })
  | .lowerFlush, _, d => some ((), { d with flush := false })
  | .acquireRead n, _, d => some (d.playback.acquireRead n, d)
  | .commitRead chunk, _, d =>
    some ((), { d with
      playback := d.playback.commitRead chunk.length, air := d.air ++ chunk,
      periods := underWay (fun p => { p with out := p.out ++ chunk }) d.periods })
  | .addHeard n, _, d => some ((), { d with heard := d.heard + n })
  | .addConsumed n, _, d => some ((), { d with consumed := d.consumed + n })
  | .acquireCapture n, _, d => some (d.capture.acquireWrite n, d)
  | .commitCapture pairs, _, d =>
    some ((), { d with
      capture := (d.capture.fill pairs).commitWrite pairs.length,
      periods := underWay (fun p => { p with kept := p.kept ++ pairs }) d.periods })
  | .event, decoded, d =>
    match d.coming with
    | [] => none
    | f :: coming =>
      (arrives f decoded).map fun e => (e, { d with coming := coming, current := some f })
  | .lock, _, d => if d.mutex.isSome then none else some ((), { d with mutex := some role })
  | .unlock, _, d => some ((), { d.settled role with mutex := none })
  | .answering, _, d => some (d.context.answering, d)
  | .user item transcript, _, d =>
    some ((), { d with context := d.context.user item transcript })
  | .unit delta, _, d =>
    let u : SpokenUnit := ⟨delta, d.context.queued⟩
    some ((), { d with context := { d.context with units := d.context.units ++ [u] } })
  | .queued n, _, d =>
    some ((), { d with context := { d.context with queued := d.context.queued + n } })
  | .answerDone, _, d => some ((), { d with context := { d.context with answerDone := true } })
  | .raiseFlush, _, d => some ((), { d with flush := true })
  | .awaitFlush, _, d => if d.flush && !d.stop then none else some ((), d)
  | .loadHeard, _, d => some (d.heard, d)
  | .loadConsumed, _, d => some (d.consumed, d)
  | .close heard, _, d => some ((), d.close heard (decide (role = .reader)))
  | .opens heard consumed, _, d =>
    some ((), { d with context := d.context.opened heard consumed, answer := d.answer + 1 })
  | .acquireWrite n, _, d => some (d.playback.acquireWrite n, d)
  | .commitWrite pcm, _, d =>
    let tagged := pcm.map fun x => (d.answer, x)
    some ((), { d with
      playback := (d.playback.fill tagged).commitWrite tagged.length, given := d.given ++ tagged })
  | .loadStop, _, d => some (d.stop, d)
  | .connStopped, stopped, d => some (stopped, d)
  | .answerOver, _, d => some (d.context.answering && d.context.answerDone, d)
  | .played consumed, _, d => some (d.context.played consumed, d)
  | .swapOutbox, _, d => some (d.outbox, { d with outbox := [] })
  | .connFrame frame, _, d => some ((), { d with sent := d.sent ++ [frame] })
  | .pairsAvailable, _, d => some (d.capture.availableRead, d)
  | .acquirePairs n, _, d => some (d.capture.acquireRead n, d)
  | .commitPairs pairs, _, d =>
    some ((), { d with capture := d.capture.commitRead pairs.length })
  | .raiseStop, _, d => some ((), { d with stop := true })

/-! ### The threads -/

/-- A program over the process. -/
abbrev Program (F : Type) := Prog (Act F) Act.Result

/-- One action. -/
def perform (a : Act F) : Program F a.Result := Prog.perform a

/-- The loop of `on_audio` that plays: `fuel` rounds at most, `left` of the period to go. -/
def playLoop : ℕ → ℕ → List (ℕ × F) → Program F (List (ℕ × F))
  | 0, _, out => pure out
  | fuel + 1, left, out =>
    if left = 0 then pure out
    else do
      let chunk : List (ℕ × F) ← perform (.acquireRead left)
      if chunk.isEmpty then pure out
      else do
        perform (.commitRead chunk)
        playLoop fuel (left - chunk.length) (out ++ chunk)

/-- The loop of `on_audio` that captures. -/
def captureLoop : ℕ → List (F × F) → Program F Unit
  | 0, _ => pure ()
  | fuel + 1, pairs =>
    if pairs.isEmpty then pure ()
    else do
      let n : ℕ ← perform (.acquireCapture pairs.length)
      if n = 0 then pure ()
      else do
        perform (.commitCapture (pairs.take n))
        captureLoop fuel (pairs.drop n)

section Threads

variable [Zero F]

/-- The first lines of `on_audio`: the queue is dropped where the flush is up. -/
def audioDrop : Program F Unit := do
  let flush : Bool ← perform .loadFlush
  if flush then do
    let dropped : ℕ ← perform .availableRead
    perform (.seekRead dropped)
    perform (.addConsumed dropped)
    perform .lowerFlush

/-- `on_audio`, one period of the device. -/
def onAudio : Program F Bool := do
  let input : List F ← perform .period
  audioDrop
  let out ← playLoop input.length input.length []
  perform (.addHeard out.length)
  perform (.addConsumed out.length)
  let output := out.map Prod.snd ++ List.replicate (input.length - out.length) 0
  captureLoop input.length (input.zip output)
  pure true

/-- `audio_flush`. -/
def audioFlush : Program F Unit := do
  perform .raiseFlush
  perform .awaitFlush

/-- The loop of `audio_play`: `fuel` rounds at most, `done` samples queued. -/
def audioPlay : ℕ → List F → ℕ → Program F ℕ
  | 0, _, done => pure done
  | fuel + 1, pcm, done =>
    if pcm.isEmpty then pure done
    else do
      let n : ℕ ← perform (.acquireWrite pcm.length)
      if n = 0 then pure done
      else do
        perform (.commitWrite (pcm.take n))
        audioPlay fuel (pcm.drop n) (done + n)

/-- `close_answer`. -/
def closeAnswer : Program F Unit := do
  let answering : Bool ← perform .answering
  if answering then do
    let heard : ℕ ← perform .loadHeard
    perform (.close heard)

/-- `context_open`. -/
def contextOpen : Program F Unit := do
  let heard : ℕ ← perform .loadHeard
  let consumed : ℕ ← perform .loadConsumed
  perform (.opens heard consumed)

/-- What `on_event` does with a frame, the display apart. -/
def handle : ServerEvent F → Program F Unit
  | .speechStarted => do
    let answering : Bool ← perform .answering
    if answering then do
      audioFlush
      closeAnswer
  | .transcript text item => perform (.user item text)
  | .created => do
    closeAnswer
    contextOpen
  | .spoken delta _ => do
    let answering : Bool ← perform .answering
    if answering then perform (.unit delta)
  | .audio pcm => do
    let answering : Bool ← perform .answering
    if answering then do
      let n ← audioPlay (pcm.getD []).length (pcm.getD []) 0
      perform (.queued n)
  | .cancelled => do
    audioFlush
    closeAnswer
  | .done => perform .answerDone
  | _ => pure ()

/-- `on_event`, on the writer of the engine. -/
def onEvent : Program F Bool := do
  let e : ServerEvent F ← perform .event
  perform .lock
  handle e
  perform .unlock
  pure true

/-- The end of `context_played`, and the close of an answer that was played. -/
def closePlayed : Program F Unit := do
  let ended : Bool ← perform .answerOver
  if ended then do
    let consumed : ℕ ← perform .loadConsumed
    let played : Bool ← perform (.played consumed)
    if played then closeAnswer

/-- The lists handed to the engine. -/
def connHistories : List (List HistoryMessage) → Program F Unit
  | [] => pure ()
  | messages :: rest => do
    perform (.connFrame (.history messages))
    connHistories rest

/-- The loop that takes a frame of the microphone out of its ring: `fuel` rounds at most, `got` so
far. -/
def takePairs : ℕ → List (F × F) → Program F (List (F × F))
  | 0, got => pure got
  | fuel + 1, got =>
    if frameSamples ≤ got.length then pure got
    else do
      let chunk : List (F × F) ← perform (.acquirePairs (frameSamples - got.length))
      perform (.commitPairs chunk)
      takePairs fuel (got ++ chunk)

/-- The frame of the microphone: the reference is only there when something played. -/
def appendOf [DecidableEq F] (aec : Bool) (pairs : List (F × F)) : Sent F :=
  .append (pairs.map Prod.fst)
    (if aec && pairs.any (fun p => decide (p.2 ≠ 0)) then some (pairs.map Prod.snd) else none)

variable [DecidableEq F]

/-- One round of the reader in `main`. -/
def readLoop (aec : Bool) : Program F Bool := do
  let stop : Bool ← perform .loadStop
  let stopped : Bool ← perform .connStopped
  if stop || stopped then do
    perform .raiseStop
    pure false
  else do
    perform .lock
    closePlayed
    let outbox : List (List HistoryMessage) ← perform .swapOutbox
    perform .unlock
    connHistories outbox
    let available : ℕ ← perform .pairsAvailable
    if available < frameSamples then pure true
    else do
      let pairs ← takePairs frameSamples []
      perform (.connFrame (appendOf aec pairs))
      pure true

/-- `on_signal`. -/
def onSignal : Program F Bool := do
  perform .raiseStop
  pure false

/-- The process when the device starts, the engine about to send `frames`. -/
def Desk.init (aec : Bool) (captureSize playbackSize : ℕ) (frames : List (Frame F)) : Desk F where
  aec := aec
  capture := .init captureSize (0, 0)
  playback := .init playbackSize (0, 0)
  flush := false
  heard := 0
  consumed := 0
  mutex := none
  context := .init
  outbox := [[]]
  stop := false
  coming := frames
  current := none
  taken := []
  sent := []
  answer := 0
  given := []
  air := []
  closings := []
  periods := []

/-- **The threads of the process.** -/
def cli (aec : Bool) (captureSize playbackSize : ℕ) (frames : List (Frame F)) :
    System Role (Act F) Act.Input Act.Result (Desk F) where
  exec := exec
  body
    | .callback => onAudio
    | .writer => onEvent
    | .reader => readLoop aec
    | .user => onSignal
  init := .init aec captureSize playbackSize frames

end Threads

end Cli
end S2S
