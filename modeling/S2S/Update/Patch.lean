/-
# A session update

`rt_session_patch` of `src/realtime-proto.h`, `ClientSettings` of
`src/s2s-conversation.h` and `conn_apply_patch` of `src/s2s-conversation.cpp`:
every update describes the whole session, so the settings start from the
defaults of the server and take what the update carries.

`conn_apply_patch` is cut where its parts meet: the servers of tools, the wake
phrases, the canceller, the endpoint, the voice, the listening thresholds.  A
part gives what the connection is after it and what it said, to the log alone
or to the client too.
-/

import S2S.Agent.Messages
import S2S.Http.Hosts
import S2S.Mcp.Exchange
import S2S.Session.Basic

namespace S2S
namespace Update

open Json Llm Mcp Http

/-! ### The data -/

/-- `WakeSettings`. -/
structure WakeSettings where
  mode : Bytes := ascii "off"
  phrases : List Bytes := [ascii "jarvis"]
  sleepPhrases : List Bytes := [ascii "shut up"]

/-- `tts_sampling`, each field at its sentinel. -/
structure TtsSampling where
  temperature : CFloat := .fin (-1)
  topK : ℤ := -1
  topP : CFloat := .fin (-1)
  repetitionPenalty : CFloat := .fin (-1)
  subtalkerTemperature : CFloat := .fin (-1)
  subtalkerTopK : ℤ := -1
  subtalkerTopP : CFloat := .fin (-1)
  maxNewTokens : ℤ := -1
  seed : ℤ := -1

/-- `tts_guards`. -/
structure TtsGuards where
  minChars : ℤ := 3
  charsPerSecond : CFloat := .fin 15
  marginSeconds : CFloat := .fin 2

/-- `tts_request`. -/
structure TtsRequest where
  voice : Bytes := []
  language : Bytes := []
  effect : Bytes := ascii "off"
  browserLanguages : List Bytes := []
  sampling : TtsSampling := {}
  guards : TtsGuards := {}

/-- `ClientSettings`. -/
structure ClientSettings where
  mode : Bytes := ascii "loopback"
  tts : TtsRequest := {}
  llm : Llm.Params := {}
  systemPrompt : Bytes :=
    ascii "You are a voice assistant. Answer in one or two short spoken sentences."
  history : List Agent.HistoryMessage := []
  wake : WakeSettings := {}
  tools : List Bytes := []
  mcp : List ServerParams := []
  maxRounds : ℤ := 10

/-- `ConversationSetup`, less its models. -/
structure ConversationSetup where
  defaults : ClientSettings := {}
  llmFixed : Bool := false
  mcpFixed : Bool := false
  llmHosts : List Bytes := []

/-- `rt_session_patch`: an empty text and a number below its range are not in the update. -/
structure Patch where
  mode : Bytes := []
  echo : Bytes := []
  llmUrl : Bytes := []
  llmModel : Bytes := []
  llmKey : Bytes := []
  systemPrompt : Bytes := []
  wakeMode : Bytes := []
  wakePhrases : List Bytes := []
  sleepPhrases : List Bytes := []
  tools : List Bytes := []
  mcp : List ServerParams := []
  maxRounds : ℤ := -1
  toolTimeoutSec : ℤ := -1
  temperature : CFloat := .fin (-1)
  topP : CFloat := .fin (-1)
  topK : ℤ := -1
  minP : CFloat := .fin (-1)
  maxTokens : ℤ := -1
  presencePenalty : CFloat := .fin (-100)
  frequencyPenalty : CFloat := .fin (-100)
  seed : ℤ := -1
  reasoningEffort : Bytes := []
  ttsVoice : Bytes := []
  ttsEffect : Bytes := []
  ttsLanguage : Bytes := []
  ttsBrowserLanguages : List Bytes := []
  ttsTemperature : CFloat := .fin (-1)
  ttsTopK : ℤ := -1
  ttsTopP : CFloat := .fin (-1)
  ttsRepetitionPenalty : CFloat := .fin (-1)
  ttsSubtalkerTemperature : CFloat := .fin (-1)
  ttsSubtalkerTopK : ℤ := -1
  ttsSubtalkerTopP : CFloat := .fin (-1)
  ttsMaxNewTokens : ℤ := -1
  ttsSeed : ℤ := -1
  ttsMinChars : ℤ := -1
  ttsCharsPerSecond : CFloat := .fin (-1)
  ttsMarginSeconds : CFloat := .fin (-1)
  llmTimeoutSec : ℤ := -1
  vadNegThreshold : CFloat := .fin (-1)
  vadThreshold : CFloat := .fin (-1)
  minSpeechMs : ℤ := -1
  bargeInMs : ℤ := -1
  minSilenceMs : ℤ := -1
  minSpeechContinuationMs : ℤ := -1
  speechPadMs : ℤ := -1
  turnThreshold : CFloat := .fin (-1)
  incompleteDelayMs : ℤ := -1
  turnMaxWaitMs : ℤ := -1
  reopenGraceMs : ℤ := -1
  invalid : Bytes := []

deriving instance DecidableEq for Session.Params

/-- `s2s_session_params()`: the thresholds are the floats closest to 0.45, 0.6 and 0.5. -/
def sessionParams : Session.Params CFloat where
  vadNegThreshold := .fin (7549747 / 16777216)
  vadThreshold := .fin (5033165 / 8388608)
  turnThreshold := .fin (1 / 2)

/-- What an update reads and writes of a `Connection`; `aec` says whether it has a canceller. -/
structure Connection where
  client : ClientSettings
  params : Session.Params CFloat := sessionParams
  echo : Bytes := ascii "client"
  aec : Bool := false
  awake : Bool := true

/-- What a step says: to the client and to the log (`conn_error`), or to the log alone. -/
inductive Notice
  | error (message : Bytes)
  | line (text : Bytes)
  deriving DecidableEq

/-- `s2s_format_v`: the texts as the C strings they are printed from, cut to the buffer. -/
def printed (parts : List Bytes) : Bytes := (parts.flatMap cstr).take 1023

/-- What the log shows of a step. -/
def Notice.logged : Notice → Bytes
  | .error message => printed [message]
  | .line text => text

/-! ### What an update carries -/

/-- A text that is there. -/
def textOr (default text : Bytes) : Bytes := if text = [] then default else text

/-- A list that is there. -/
def textsOr (default texts : List Bytes) : List Bytes := if texts = [] then default else texts

/-- A count from `least` on. -/
def countOr (least default count : ℤ) : ℤ := if least ≤ count then count else default

/-- A number from zero on. -/
def realOr (default real : CFloat) : CFloat := if real.ge 0 then real else default

/-- `conn_effects`. -/
def connEffects : List Bytes := [ascii "off", ascii "jarvis"]

/-- `conn_wake_modes`. -/
def connWakeModes : List Bytes := [ascii "off", ascii "alone", ascii "anywhere"]

/-! ### The parts of an update -/

/-- The servers of tools: each from an allowed host. -/
def takeMcp (setup : ConversationSetup) (patch : Patch) (client : ClientSettings) :
    ClientSettings × List Notice :=
  if setup.mcpFixed then
    (client, if patch.mcp = [] then []
      else [.error (ascii "[Realtime] The MCP servers are set by the server")])
  else
    ({ client with mcp := patch.mcp.filter fun server => hostAllowed setup.llmHosts server.url },
      (patch.mcp.filter fun server => !hostAllowed setup.llmHosts server.url).map fun server =>
        .error (ascii "[Realtime] MCP host " ++ urlHost server.url ++ ascii " is not allowed"))

/-- The wake phrases. -/
def takeWake (patch : Patch) (wake : WakeSettings) : WakeSettings × List Notice :=
  ({ mode := if patch.wakeMode ∈ connWakeModes then patch.wakeMode else wake.mode
     phrases := textsOr wake.phrases patch.wakePhrases
     sleepPhrases := textsOr wake.sleepPhrases patch.sleepPhrases },
    if patch.wakeMode ∈ connWakeModes ∨ patch.wakeMode = [] then []
    else [.error (ascii "[Realtime] Unknown wake mode " ++ patch.wakeMode
      ++ ascii ", every turn is answered")])

/-- The gate: a change of mode wakes the assistant for off, and puts it to sleep for the others. -/
def takeAwake (waking mode : Bytes) (awake : Bool) : Bool × List Notice :=
  if mode = waking then (awake, [])
  else (decide (mode = ascii "off"), [.line (printed [ascii "[Wake] Mode ", mode,
    if mode = ascii "off" then [] else ascii ", asleep"])])

/-- The canceller: a method that is named and new gets a fresh one, or none.  `opens` says whether
`lv_state_new` gives one. -/
def takeEcho (opens : Bool) (patch : Patch) (conn : Connection) : Connection × List Notice :=
  if patch.echo = [] ∨ patch.echo = conn.echo then (conn, [])
  else
    let aec := decide (patch.echo = ascii "server" ∨ patch.echo = ascii "both") && opens
    ({ conn with echo := patch.echo, aec := aec },
      (if conn.aec then [.line (ascii "[AEC] Canceller off")] else [])
      ++ if aec then [.line (ascii "[AEC] Canceller on, fresh echo path")] else [])

/-- The endpoint: a key travels with its URL. -/
def takeEndpoint (setup : ConversationSetup) (patch : Patch) (llm : Llm.Params) :
    Llm.Params × List Notice :=
  if setup.llmFixed then
    (llm, if patch.llmUrl = [] ∧ patch.llmModel = [] ∧ patch.llmKey = [] then []
      else [.error (ascii "[Realtime] The endpoint is set by the server")])
  else
    let named :=
      if patch.llmUrl = [] then (llm, [])
      else if hostAllowed setup.llmHosts patch.llmUrl then
        ({ llm with baseUrl := patch.llmUrl, apiKey := patch.llmKey }, [])
      else (llm, [.error (ascii "[Realtime] Endpoint host " ++ urlHost patch.llmUrl
        ++ ascii " is not allowed")])
    ({ named.1 with model := textOr named.1.model patch.llmModel }, named.2)

/-- The sampling of the endpoint. -/
def takeSampling (patch : Patch) (s : Sampling) : Sampling where
  temperature := realOr s.temperature patch.temperature
  topP := realOr s.topP patch.topP
  topK := countOr 0 s.topK patch.topK
  minP := realOr s.minP patch.minP
  maxTokens := countOr 0 s.maxTokens patch.maxTokens
  presencePenalty := if patch.presencePenalty.gt (-3) then patch.presencePenalty
    else s.presencePenalty
  frequencyPenalty := if patch.frequencyPenalty.gt (-3) then patch.frequencyPenalty
    else s.frequencyPenalty
  seed := if 0 ≤ patch.seed then (BitVec.ofInt 32 patch.seed).toInt else s.seed
  reasoningEffort := textOr s.reasoningEffort patch.reasoningEffort

/-- The voice. -/
def takeVoice (patch : Patch) (tts : TtsRequest) : TtsRequest × List Notice :=
  ({ voice := textOr tts.voice patch.ttsVoice
     effect := if patch.ttsEffect ∈ connEffects then patch.ttsEffect else tts.effect
     language := textOr tts.language patch.ttsLanguage
     browserLanguages := textsOr tts.browserLanguages patch.ttsBrowserLanguages
     guards :=
      { minChars := countOr 0 tts.guards.minChars patch.ttsMinChars
        charsPerSecond := if patch.ttsCharsPerSecond.gt 0 then patch.ttsCharsPerSecond
          else tts.guards.charsPerSecond
        marginSeconds := realOr tts.guards.marginSeconds patch.ttsMarginSeconds }
     sampling :=
      { temperature := realOr tts.sampling.temperature patch.ttsTemperature
        topK := countOr 0 tts.sampling.topK patch.ttsTopK
        topP := realOr tts.sampling.topP patch.ttsTopP
        repetitionPenalty := realOr tts.sampling.repetitionPenalty patch.ttsRepetitionPenalty
        subtalkerTemperature :=
          realOr tts.sampling.subtalkerTemperature patch.ttsSubtalkerTemperature
        subtalkerTopK := countOr 0 tts.sampling.subtalkerTopK patch.ttsSubtalkerTopK
        subtalkerTopP := realOr tts.sampling.subtalkerTopP patch.ttsSubtalkerTopP
        maxNewTokens := countOr 0 tts.sampling.maxNewTokens patch.ttsMaxNewTokens
        seed := countOr 0 tts.sampling.seed patch.ttsSeed } },
    if patch.ttsEffect ∈ connEffects ∨ patch.ttsEffect = [] then []
    else [.error (ascii "[Realtime] Unknown effect " ++ patch.ttsEffect
      ++ ascii ", the voice keeps none")])

/-- The listening thresholds, over those a session starts with. -/
def takeListening (patch : Patch) : Session.Params CFloat :=
  let p := sessionParams
  { vadNegThreshold := realOr p.vadNegThreshold patch.vadNegThreshold
    vadThreshold := realOr p.vadThreshold patch.vadThreshold
    minSpeechMs := countOr 0 p.minSpeechMs patch.minSpeechMs
    bargeInMs := countOr 0 p.bargeInMs patch.bargeInMs
    minSilenceMs := countOr 0 p.minSilenceMs patch.minSilenceMs
    minSpeechContinuationMs := countOr 0 p.minSpeechContinuationMs patch.minSpeechContinuationMs
    speechPadMs := countOr 0 p.speechPadMs patch.speechPadMs
    turnThreshold := realOr p.turnThreshold patch.turnThreshold
    incompleteDelayMs := countOr 0 p.incompleteDelayMs patch.incompleteDelayMs
    turnMaxWaitMs := countOr 0 p.turnMaxWaitMs patch.turnMaxWaitMs
    reopenGraceMs := countOr 0 p.reopenGraceMs patch.reopenGraceMs }

/-! ### An update -/

/-- What an update leaves: the connection, what was said in order, and the thresholds that reach
the session when they changed. -/
structure Applied where
  conn : Connection
  notices : List Notice
  listening : Option (Session.Params CFloat)

/-- `conn_apply_patch`. -/
def connApplyPatch (setup : ConversationSetup) (opens : Bool) (patch : Patch) (conn : Connection) :
    Applied :=
  let client := { setup.defaults with
    history := conn.client.history
    mode := textOr setup.defaults.mode patch.mode
    tools := patch.tools }
  let mcp := takeMcp setup patch client
  let client := { mcp.1 with maxRounds := countOr 1 mcp.1.maxRounds patch.maxRounds }
  let wake := takeWake patch client.wake
  let awake := takeAwake conn.client.wake.mode wake.1.mode conn.awake
  let llm := { client.llm with
    toolTimeoutSec := countOr 1 client.llm.toolTimeoutSec patch.toolTimeoutSec }
  let echo := takeEcho opens patch conn
  let endpoint := takeEndpoint setup patch llm
  let llm := { endpoint.1 with
    sampling := takeSampling patch endpoint.1.sampling
    timeoutSec := countOr 1 endpoint.1.timeoutSec patch.llmTimeoutSec }
  let voice := takeVoice patch client.tts
  let listening := takeListening patch
  { conn := { echo.1 with
      client := { client with
        wake := wake.1
        llm := llm
        systemPrompt := textOr client.systemPrompt patch.systemPrompt
        tts := voice.1 }
      params := listening
      awake := awake.1 }
    notices := mcp.2 ++ wake.2 ++ awake.2 ++ echo.2 ++ endpoint.2 ++ voice.2
    listening := if listening = conn.params then none else some listening }

/-- **The URL and the key of the endpoint are one pair**: that of the server, or the one the update
names, whose host is allowed. -/
theorem connApplyPatch_endpoint (setup : ConversationSetup) (opens : Bool) (patch : Patch)
    (conn : Connection) {llm : Llm.Params}
    (hllm : (connApplyPatch setup opens patch conn).conn.client.llm = llm) :
    (llm.baseUrl = setup.defaults.llm.baseUrl ∧ llm.apiKey = setup.defaults.llm.apiKey) ∨
      (llm.baseUrl = patch.llmUrl ∧ llm.apiKey = patch.llmKey ∧
        hostAllowed setup.llmHosts patch.llmUrl = true) := by
  have hmcp : (takeMcp setup patch { setup.defaults with
      history := conn.client.history
      mode := textOr setup.defaults.mode patch.mode
      tools := patch.tools }).1.llm = setup.defaults.llm := by
    unfold takeMcp
    split_ifs <;> rfl
  subst hllm
  simp only [connApplyPatch, takeEndpoint, hmcp]
  by_cases hfixed : setup.llmFixed = true
  · rw [if_pos hfixed]
    exact .inl ⟨rfl, rfl⟩
  · rw [if_neg hfixed]
    split_ifs with hnone hallowed
    · exact .inl ⟨rfl, rfl⟩
    · exact .inr ⟨rfl, rfl, hallowed⟩
    · exact .inl ⟨rfl, rfl⟩

/-- **The servers of tools are those of the server, or those an update names**, each from an allowed
host. -/
theorem connApplyPatch_mcp (setup : ConversationSetup) (opens : Bool) (patch : Patch)
    (conn : Connection) {server : ServerParams}
    (hserver : server ∈ (connApplyPatch setup opens patch conn).conn.client.mcp) :
    server ∈ setup.defaults.mcp ∨
      server ∈ patch.mcp ∧ hostAllowed setup.llmHosts server.url = true := by
  simp only [connApplyPatch, takeMcp] at hserver
  by_cases hfixed : setup.mcpFixed = true
  · rw [if_pos hfixed] at hserver
    exact .inl hserver
  · rw [if_neg hfixed] at hserver
    exact .inr (List.mem_filter.1 hserver)

end Update
end S2S
