/-
# The threads of a connection

The functions of `src/s2s-conversation.cpp` that the four threads of a
connection run, as programs over its memory: the reader with the events of the
session (`connFrame`, `connOnSessionEvent`), the recognizer (`connRecognize`),
the responder (`connAnswer`), the writer (`connWriter`).  Every load and store of
what they share is an action of its own, so the threads may be interleaved
anywhere between two of them.

What an answer does in between is followed through the functions it calls, as
far as their callbacks come back to the connection: the stream of the endpoint,
the agent, the synthesis.  A callback runs before the call it belongs to
returns.
-/

import S2S.Conversation.Memory

namespace S2S
namespace Conversation

open Json Llm Agent Session Thread

/-- A program over the memory of a connection. -/
abbrev Program (F : Type) := Prog (Act F) Act.Result

section Threads

variable {F V S : Type} (P : Setup F V S)

/-! ### Actions as the source spells them -/

/-- One action. -/
def perform (a : Act F) : Program F a.Result := Prog.perform a

/-- `conn->stop`. -/
def loadStop : Program F Bool := perform (.load .stop)

/-- `conn->cancel.load()`. -/
def loadCancel : Program F Bool := perform (.load .cancel)

/-- `conn_revised`. -/
def connRevised (turnId revision : ℕ) : Program F Bool := perform (.load (.revised turnId revision))

/-- A question to the world. -/
def ask (query : Query F) : Program F query.Answer := perform (.ask query)

/-- `conn_send`. -/
def connSend (f : Frame F) : Program F Unit := perform (.send f)

/-- `conn_error`. -/
def connError (message : Bytes) : Program F Unit := connSend (.error message)

/-- `conn_stop`. -/
def connStop : Program F Unit := do
  perform (.storeCancel true)
  perform .setStop
  perform .stopped

/-- The item of a turn. -/
def itemId (turnId : ℕ) : Bytes := ascii "turn_" ++ natText turnId

theorem itemId_injective : Function.Injective itemId := fun _ _ h =>
  natText_injective (List.append_cancel_left h)

/-! ### The session -/

/-- `conn_on_session_event`; `conn_opened` is `opened`. -/
def connOnSessionEvent (r : Report F) : Program F Unit :=
  match r.event with
  | .speechStarted => do
    connSend .speechStarted
    perform (.opened r.turnId r.revision)
  | .turnResumed => do
    connSend .speechStarted
    perform (.opened r.turnId r.revision)
  | .turnFinal => perform (.final r.turnId)
  | .speechStopped => pure ()
  | .turnReopened => pure ()
  | .bargeIn => perform (.storeCancel true)
  | .turnCommitted => perform (.enqueue ⟨r.pcm, r.turnId, r.revision⟩)

/-- The events of a call, each through its callback. -/
def handOver : List (Report F) → Program F Unit
  | [] => pure ()
  | r :: rs => do
    perform (.callback r)
    connOnSessionEvent r
    perform .returned
    handOver rs

/-- A call of the session. -/
def session (op : Op F) : Program F Unit := do
  let reports ← perform (.session op)
  handOver reports

/-- `conn_release`. -/
def connRelease (turnId revision : ℕ) : Program F Unit := do
  perform .lockSession
  session (.release turnId revision)
  perform .unlockSession

/-! ### The reader -/

/-- What was wrong with a frame. -/
def connErrors : List Bytes → Program F Unit
  | [] => pure ()
  | message :: messages => do
    connError message
    connErrors messages

/-- `conn_apply_patch`: only a change of the listening thresholds reaches the session. -/
def connApplyPatch (errors : List Bytes) (settings : Settings) (params : Option (Session.Params F)) :
    Program F Unit := do
  connErrors errors
  perform (.patch settings)
  match params with
  | none => pure ()
  | some p => do
    perform .lockSession
    session (.setParams p)
    perform .unlockSession

/-- `conn_frame`. -/
def connFrame : Incoming F → Program F Unit
  | .update errors settings params invalid => do
    connApplyPatch errors settings params
    connErrors invalid.toList
    connSend .sessionUpdated
  | .audio errors pcm => do
    connErrors errors
    perform .lockSession
    let speaking ← perform (.load .speaking)
    session (.setSpeaking speaking)
    session (.push pcm)
    perform .unlockSession
  | .cancel => perform (.storeCancel true)
  | .history messages => perform (.history messages)
  | .unknown => connError (ascii "unsupported event")
  | .other => pure ()
  | .closed => pure ()

/-- `conn_close`, without the joins, which only wait. -/
def connClose : Program F Unit := do
  connStop
  perform .closeOut

/-- The loop of the server around `conn_frame`. -/
def connReader : Program F Bool := do
  let incoming ← ask .read
  let stop ← loadStop
  match incoming, stop with
  | .closed, _ => do
    connClose
    pure false
  | _, true => do
    connClose
    pure false
  | incoming, false => do
    connFrame incoming
    pure true

/-! ### The writer -/

/-- `conn_writer`. -/
def connWriter : Program F Bool := do
  match ← perform .popOut with
  | none => pure false
  | some f => do
    let sent ← ask (.transport f)
    if sent then pure true
    else do
      perform .dropOut
      connStop
      pure false

/-! ### The recognizer -/

/-- `conn_recognize`. -/
def connRecognize (turn : TurnAudio F) : Program F Unit := do
  let revised ← connRevised turn.turnId turn.revision
  if revised then connRelease turn.turnId turn.revision
  else do
    match ← ask (.transcribe turn) with
    | none => do
      let message ← ask .lastError
      connError message
      connRelease turn.turnId turn.revision
    | some transcript =>
      if transcript = [] then connRelease turn.turnId turn.revision
      else do
        let admitted ← ask (.admits turn.turnId transcript)
        if admitted then do
          connSend (.transcript (itemId turn.turnId) transcript)
          perform (.pushAnswer ⟨transcript, turn.turnId, turn.revision⟩)
        else connRelease turn.turnId turn.revision

/-- `conn_recognizer`. -/
def connRecognizer : Program F Bool := do
  match ← perform .popQueue with
  | none => pure false
  | some turn => do
    connRecognize turn
    pure true

/-! ### Speaking -/

/-- The voice of the answer in flight, which a tool may change. -/
structure Voice where
  voice : Bytes
  effect : Bytes

/-- `conn_wait_final`. -/
def connWaitFinal : Program F Bool := perform .waitFinal

/-- The first lines of `conn_speak`: the first unit of an answer is held until its turn is final. -/
def connHold : Program F Bool := do
  let released ← perform (.load .answerReleased)
  if released then pure true
  else do
    let answer ← perform (.load .answer)
    connRelease answer.1 answer.2
    let heard ← connWaitFinal
    if heard then do
      perform .setReleased
      pure true
    else pure false

/-- The callback of `conn_speak` on one chunk, `samples` of the unit before it. -/
def speakTap (unit : SentenceUnit) (voice : Voice) (samples : ℕ) (pcm : List F) :
    Program F Bool := do
  if samples = 0 ∧ pcm ≠ [] then connSend (.spoken unit.text unit.textEnd) else pure ()
  let pcm ← if voice.effect = ascii "jarvis" then ask (.jarvis pcm) else pure pcm
  connSend (.audio pcm)
  let cancelled ← loadCancel
  pure !cancelled

/-- `tts_bridge_chunk` on the chunks of a synthesis, up to one that ends it. -/
def ttsBridgeChunks (unit : SentenceUnit) (voice : Voice) : ℕ → List (List F) → Program F Unit
  | _, [] => pure ()
  | samples, pcm :: chunks => do
    let cancelled ← loadCancel
    if cancelled then pure ()
    else do
      let go ← speakTap unit voice samples pcm
      if go then ttsBridgeChunks unit voice (samples + pcm.length) chunks else pure ()

/-- `tts_bridge_speak`. -/
def ttsBridgeSpeak (unit : SentenceUnit) (voice : Voice) : Program F Bool :=
  if unit.text = [] then pure false
  else do
    let cancelled ← loadCancel
    if cancelled then pure false
    else if (if voice.voice = [] then P.defaultVoice else voice.voice) ∉ P.voices then pure false
    else do
      let chunks ← ask (.synthesize unit.text)
      ttsBridgeChunks unit voice 0 chunks
      ask .synthesized

/-- `conn_speak`. -/
def connSpeak (unit : SentenceUnit) (voice : Voice) : Program F Bool := do
  let held ← connHold
  if held then do
    let spoke ← ttsBridgeSpeak P unit voice
    let cancelled ← loadCancel
    if !spoke && !cancelled then do
      let message ← ask .lastError
      connSend (.error message)
    else pure ()
    pure spoke
  else pure false

/-! ### The stream of an answer -/

/-- `StreamTap`, with the voice the answer speaks in. -/
structure StreamTap (S : Type) where
  splitter : S
  voice : Voice

/-- The units a delta completed, up to one that is not spoken. -/
def speakUnits (voice : Voice) : List SentenceUnit → Program F Bool
  | [] => pure true
  | unit :: units => do
    let spoke ← connSpeak P unit voice
    if spoke then speakUnits voice units else pure false

/-- `on_delta` of `conn_answer`. -/
def onDelta (tap : StreamTap S) (delta : Bytes) : Program F (Bool × StreamTap S) := do
  connSend (.textDelta delta)
  let split := P.splitPush tap.splitter delta
  let spoke ← speakUnits P tap.voice split.1
  if spoke then do
    let cancelled ← loadCancel
    pure (!cancelled, { tap with splitter := split.2 })
  else pure (false, { tap with splitter := split.2 })

/-- The deltas of a stream through a callback, as C strings, up to one that ends it. -/
def feed {T : Type} (onText : T → Bytes → Program F (Bool × T)) : T → List Bytes → Program F (Bool × T)
  | t, [] => pure (true, t)
  | t, delta :: deltas => do
    let heard ← onText t (cstr delta)
    if heard.1 then feed onText heard.2 deltas else pure (false, heard.2)

/-- `llm_client_stream`: the answer and its calls when it ended well. -/
def llmClientStream {T : Type} (onText : T → Bytes → Program F (Bool × T)) (t : T)
    (messages : List Message) : Program F (Option (Bytes × List ToolCall) × T) := do
  let deltas ← ask (.stream messages)
  let fed ← feed onText t deltas
  let toolCalls ← ask .streamed
  let cancelled ← loadCancel
  if fed.1 && !cancelled then pure (toolCalls.map fun calls => (deltas.flatten, calls), fed.2)
  else pure (none, fed.2)

/-! ### The agent -/

/-- `LlmAgentTap`. -/
structure AgentTap (S : Type) where
  tap : StreamTap S
  separate : Bool
  spaced : Bool

/-- `llm_agent_tap`. -/
def llmAgentTap (t : AgentTap S) (delta : Bytes) : Program F (Bool × AgentTap S) :=
  if t.separate = true ∧ delta ≠ [] then
    if delta.head?.any isSpaceByte then do
      let heard ← onDelta P t.tap delta
      pure (heard.1, { t with tap := heard.2, separate := false })
    else do
      let spaced ← onDelta P t.tap [0x20]
      if spaced.1 then do
        let heard ← onDelta P spaced.2 delta
        pure (heard.1, ⟨heard.2, false, true⟩)
      else pure (false, ⟨spaced.2, false, true⟩)
  else do
    let heard ← onDelta P t.tap delta
    pure (heard.1, { t with tap := heard.2 })

/-- `conn_set_voice`, its result and the voice afterwards. -/
def connSetVoice (voice : Voice) (arguments : Bytes) : Program F (Option Bytes × Voice) :=
  let root := parse arguments
  let named := textOf (root.bind fun v => v.get (ascii "voice"))
  let effect := textOf (root.bind fun v => v.get (ascii "effect"))
  if named ∉ P.voices then pure (none, voice)
  else if effect ≠ [] ∧ effect ∉ P.effects then pure (none, voice)
  else do
    let voice : Voice := ⟨named, if effect ≠ [] then effect else voice.effect⟩
    perform (.setVoice voice.voice voice.effect)
    connSend (.voice voice.voice voice.effect)
    pure (some (ascii "Voice set to " ++ voice.voice ++ ascii ", effect " ++ voice.effect), voice)

/-- `conn_sleep`. -/
def connSleep : Program F (Option Bytes) := do
  let off ← ask .sleep
  pure (some (if off then ascii "Asleep for the rest of the conversation"
    else ascii "Asleep until the user says a wake phrase"))

/-- `llm_agent_call`; the first built-in tool is `set_voice`, the second `sleep`. -/
def llmAgentCall (available : List AgentTool) (voice : Voice) (call : Call) :
    Program F (Option Bytes × Voice) :=
  match available.find? fun entry => entry.tool.name = call.name with
  | none => pure (none, voice)
  | some entry =>
    match entry.server with
    | .builtin 0 => connSetVoice P voice call.arguments
    | .builtin _ => do
      let result ← connSleep
      pure (result, voice)
    | server => do
      let result ← ask (.call server call.name call.arguments)
      pure (result, voice)

/-- The calls of a round: the messages that answer them, none when the turn was cancelled. -/
def runCalls (p : Params) (available : List AgentTool) :
    Voice → List Call → Program F (Option (List Message) × Voice)
  | voice, [] => pure (some [], voice)
  | voice, call :: calls => do
    let start ← ask .clock
    connSend (.toolStarted call.name)
    let called ← llmAgentCall P available voice call
    let stop ← ask .clock
    match called.1 with
    | some text => do
      connSend (.toolDone call.name true (stop - start) text.length)
      let rest ← runCalls p available called.2 calls
      pure (rest.1.map fun replies => ⟨ascii "tool", text, [], call.id⟩ :: replies, rest.2)
    | none => do
      connSend (.toolDone call.name false (stop - start) 0)
      let cancelled ← loadCancel
      if cancelled then pure (none, called.2)
      else do
        let message ← ask .lastError
        let rest ← runCalls p available called.2 calls
        pure (rest.1.map fun replies =>
          ⟨ascii "tool", failureText p call (stop - start) message, [], call.id⟩ :: replies, rest.2)

/-- The rounds left: whether the answer ended well, its text, and the tap. -/
def rounds (p : Params) (available : List AgentTool) :
    ℕ → StreamTap S → List Message → Bytes → Program F (Bool × Bytes × StreamTap S)
  | 0, tap, _, text => pure (false, text, tap)
  | n + 1, tap, messages, text => do
    let separate := text.getLast?.any fun b => !isSpaceByte b
    let streamed ← llmClientStream (llmAgentTap P) ⟨tap, separate, false⟩ messages
    match streamed.1 with
    | none => pure (false, text, streamed.2.tap)
    | some (answer, toolCalls) =>
      let text := text ++ roundText streamed.2.spaced answer
      let json := cstr (llmClientCallsJson toolCalls)
      if llmAgentCalls json = [] then pure (true, text, streamed.2.tap)
      else do
        let called ← runCalls P p available streamed.2.tap.voice (llmAgentCalls json)
        let tap := { streamed.2.tap with voice := called.2 }
        match called.1 with
        | none => pure (false, text, tap)
        | some replies =>
          rounds p available n tap (messages ++ [⟨ascii "assistant", answer, json, []⟩] ++ replies) text

/-- `llm_agent_run`. -/
def llmAgentRun (client : Settings) (tap : StreamTap S) (messages : List Message) :
    Program F (Bool × Bytes × StreamTap S) := do
  match ← ask .gather with
  | none => pure (false, [], tap)
  | some available => do
    let set ← ask (.setParams (tooled client.llm available client.tools))
    if set then rounds P client.llm available client.maxRounds.toNat tap messages []
    else pure (false, [], tap)

/-! ### The responder -/

/-- The stream of a turn in the conversation mode. -/
def converse (tap : StreamTap S) (messages : List Message) :
    Program F (Bool × Bytes × StreamTap S) := do
  let streamed ← llmClientStream (onDelta P) tap messages
  pure (streamed.1.isSome, (streamed.1.map Prod.fst).getD [], streamed.2)

/-- The part of `conn_answer` that asks a model, and the effect at its end. -/
def respond (job : AnswerJob) (client : Settings) : Program F Bytes := do
  let messages := turnMessages client.systemPrompt client.history (itemId job.turnId) job.transcript
  let tap : StreamTap S := ⟨P.splitter, client.voice, client.effect⟩
  let streamed ← if client.mode = ascii "agentic" then llmAgentRun P client tap messages
    else converse P tap messages
  let tail := P.splitFlush streamed.2.2.splitter
  if streamed.1 = true ∧ tail.text ≠ [] then do
    let _ ← connSpeak P tail streamed.2.2.voice
    pure ()
  else pure ()
  let cancelled ← loadCancel
  if !streamed.1 && !cancelled then do
    let message ← ask .lastError
    connError message
  else if streamed.1 && streamed.2.1.isEmpty then
    connError (ascii "[LLM] The model answered nothing")
  else pure ()
  pure streamed.2.2.voice.effect

/-- Characters, not bytes: the bytes that do not continue one. -/
def countChars (text : Bytes) : ℕ := text.countP fun b => b &&& 0xC0 != 0x80

/-- What `conn_answer` does between `response.created` and its close, and the effect at its end. -/
def compose (job : AnswerJob) (client : Settings) : Program F Bytes := do
  let cancelled ← loadCancel
  if cancelled then pure client.effect
  else if client.mode = ascii "loopback" then
    if (countChars job.transcript : ℤ) < client.minChars then pure client.effect
    else do
      let _ ← connSpeak P ⟨job.transcript, P.utf16Len job.transcript⟩ ⟨client.voice, client.effect⟩
      pure client.effect
  else if client.llm.baseUrl = [] then do
    connError (ascii
      "[Realtime] No endpoint: name one in the session, or start the server with --llm-url")
    pure client.effect
  else do
    let ready ← ask (.endpoint client.llm)
    if ready then respond P job client
    else do
      let message ← ask .lastError
      connError message
      pure client.effect

/-- The echo of the last syllable, heard when the answer ends on its own. -/
def connEcho (effect : Bytes) : Program F Unit :=
  if effect = ascii "jarvis" then do
    let released ← perform (.load .answerReleased)
    if released then do
      let cancelled ← loadCancel
      if cancelled then pure ()
      else do
        let tail ← ask .jarvisTail
        connSend (.audio tail)
    else pure ()
  else pure ()

/-- `conn_answer`; the release at each end is the destructor of `TurnRelease`. -/
def connAnswer (job : AnswerJob) : Program F Unit := do
  let stop ← loadStop
  if stop then connRelease job.turnId job.revision
  else do
    perform (.storeCancel false)
    let client ← perform (.load .client)
    perform (.publish job.turnId job.revision)
    connSend .created
    let effect ← compose P job client
    connEcho effect
    perform (.storeSpeaking false)
    let cancelled ← loadCancel
    connSend (if cancelled then .cancelled else .done)
    connRelease job.turnId job.revision

/-- `conn_responder`. -/
def connResponder : Program F Bool := do
  match ← perform .popAnswer with
  | none => pure false
  | some job => do
    connAnswer P job
    pure true

/-- **A connection**: its memory and its four threads. -/
def connection : System Role (Act F) Act.Input Act.Result (Memory F V) where
  exec := exec P
  body
    | .reader => connReader
    | .recognizer => connRecognizer
    | .responder => connResponder P
    | .writer => connWriter
  init := .new P

end Threads

end Conversation
end S2S
