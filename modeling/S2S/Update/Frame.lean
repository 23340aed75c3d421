/-
# The frame of an update

`session.update` as `rt_parse` of `src/realtime-proto.h` reads it and
`conn_frame` of `src/s2s-conversation.cpp` answers it.  A number of it has to be
one, and in its range, or it is read as absent and its name is kept, the first
of them for the error the client gets (`rtJsonValue`).

`NumberField` lists the numbers, the seeds apart, with what is read of each and
what its value comes to on the connection.
-/

import S2S.Json.Numbers
import S2S.Mcp.Client
import S2S.Update.Patch

namespace S2S
namespace Update

open Json Llm Mcp Http

/-! ### Reading -/

/-- `yyjson_obj_get` of what may be missing, or no object. -/
def objGet (object : Option Value) (key : Bytes) : Option Value := object.bind (Value.get key)

def rtJsonStr (object : Option Value) (key : Bytes) : Bytes := textOf (objGet object key)

/-- `rt_json_strs`: the strings of an array, whatever else it holds left out. -/
def rtJsonStrs (object : Option Value) (key : Bytes) : List Bytes :=
  (itemsOf (objGet object key)).filterMap fun
    | .str s => some s
    | _ => none

/-- A number within a range. -/
def numberIn (lo hi : ℚ) : Value → Option ℚ
  | .num text => if lo ≤ numOf text ∧ numOf text ≤ hi then some (numOf text) else none
  | _ => none

/-- `rt_json_value`, none where it gives the fallback; the state is `invalid`. -/
def rtJsonValue (object : Option Value) (key : Bytes) (lo hi : ℚ) : StateM Bytes (Option ℚ) :=
  fun invalid =>
    match objGet object key with
    | none | some .null => (none, invalid)
    | some value =>
      match numberIn lo hi value with
      | some number => (some number, invalid)
      | none => (none, if invalid = [] then key else invalid)

def rtMaxMs : ℚ := 60000
def rtMaxCount : ℚ := 1000000
def rtMaxReal : ℚ := 1000000

/-- A `double` as an `int`, towards zero. -/
def truncate (q : ℚ) : ℤ := if 0 ≤ q then ⌊q⌋ else ⌈q⌉

/-- A `float` of a range. -/
def rtJsonFloat (object : Option Value) (key : Bytes) (fallback lo hi : ℚ) : StateM Bytes CFloat := do
  let number ← rtJsonValue object key lo hi
  return .fin ((number.map nearestFloat).getD fallback)

/-- An `int` of a range that starts from zero. -/
def rtJsonWhole (object : Option Value) (key : Bytes) (hi : ℚ) : StateM Bytes ℤ := do
  let number ← rtJsonValue object key 0 hi
  return (number.map truncate).getD (-1)

def rtJsonReal (object : Option Value) (key : Bytes) (fallback : ℚ) : StateM Bytes CFloat :=
  rtJsonFloat object key fallback (-rtMaxReal) rtMaxReal

def rtJsonCount (object : Option Value) (key : Bytes) : StateM Bytes ℤ :=
  rtJsonWhole object key rtMaxCount

def rtJsonMs (object : Option Value) (key : Bytes) : StateM Bytes ℤ :=
  rtJsonWhole object key rtMaxMs

def rtJsonInt (object : Option Value) (key : Bytes) (fallback : ℤ) : ℤ :=
  ((objGet object key).bind intOf).getD fallback

/-- The servers of tools an update names. -/
def rtServers (fields : Option Value) : List ServerParams :=
  ((itemsOf (objGet fields (ascii "mcp"))).map fun entry =>
    ({ url := rtJsonStr (some entry) (ascii "url")
       apiKey := rtJsonStr (some entry) (ascii "key") } : ServerParams)).filter fun server =>
    server.url ≠ []

/-- The patch of an update, in the order of the source; the state is the first number refused. -/
def rtUpdate (fields : Option Value) : StateM Bytes Patch := do
  let llmTimeoutSec ← rtJsonCount fields (ascii "llm_timeout_sec")
  let wake := objGet fields (ascii "wake")
  let maxRounds ← rtJsonCount fields (ascii "max_rounds")
  let toolTimeoutSec ← rtJsonCount fields (ascii "tool_timeout_sec")
  let llm := objGet fields (ascii "sampling")
  let temperature ← rtJsonReal llm (ascii "temperature") (-1)
  let topP ← rtJsonReal llm (ascii "top_p") (-1)
  let topK ← rtJsonCount llm (ascii "top_k")
  let minP ← rtJsonReal llm (ascii "min_p") (-1)
  let maxTokens ← rtJsonCount llm (ascii "max_tokens")
  let presencePenalty ← rtJsonReal llm (ascii "presence_penalty") (-100)
  let frequencyPenalty ← rtJsonReal llm (ascii "frequency_penalty") (-100)
  let tts := objGet fields (ascii "tts")
  let ttsMinChars ← rtJsonCount tts (ascii "min_chars")
  let ttsCharsPerSecond ← rtJsonFloat tts (ascii "chars_per_second") (-1) 1 1000
  let ttsMarginSeconds ← rtJsonFloat tts (ascii "margin_seconds") (-1) 0 (rtMaxMs / 1000)
  let sampling := objGet tts (ascii "sampling")
  let ttsTemperature ← rtJsonReal sampling (ascii "temperature") (-1)
  let ttsTopK ← rtJsonCount sampling (ascii "top_k")
  let ttsTopP ← rtJsonReal sampling (ascii "top_p") (-1)
  let ttsRepetitionPenalty ← rtJsonReal sampling (ascii "repetition_penalty") (-1)
  let ttsSubtalkerTemperature ← rtJsonReal sampling (ascii "subtalker_temperature") (-1)
  let ttsSubtalkerTopK ← rtJsonCount sampling (ascii "subtalker_top_k")
  let ttsSubtalkerTopP ← rtJsonReal sampling (ascii "subtalker_top_p") (-1)
  let ttsMaxNewTokens ← rtJsonCount sampling (ascii "max_new_tokens")
  let vad := objGet fields (ascii "vad")
  let vadNegThreshold ← rtJsonFloat vad (ascii "neg_threshold") (-1) 0 1
  let vadThreshold ← rtJsonFloat vad (ascii "threshold") (-1) 0 1
  let minSpeechMs ← rtJsonMs vad (ascii "min_speech_ms")
  let bargeInMs ← rtJsonMs vad (ascii "barge_in_ms")
  let minSilenceMs ← rtJsonMs vad (ascii "min_silence_ms")
  let minSpeechContinuationMs ← rtJsonMs vad (ascii "min_speech_continuation_ms")
  let speechPadMs ← rtJsonMs vad (ascii "speech_pad_ms")
  let turn := objGet fields (ascii "turn")
  let turnThreshold ← rtJsonFloat turn (ascii "threshold") (-1) 0 1
  let incompleteDelayMs ← rtJsonMs turn (ascii "incomplete_delay_ms")
  let turnMaxWaitMs ← rtJsonMs turn (ascii "max_wait_ms")
  let reopenGraceMs ← rtJsonMs turn (ascii "reopen_grace_ms")
  return {
    mode := rtJsonStr fields (ascii "mode")
    echo := rtJsonStr fields (ascii "echo")
    llmUrl := rtJsonStr fields (ascii "llm_url")
    llmModel := rtJsonStr fields (ascii "llm_model")
    llmKey := rtJsonStr fields (ascii "llm_key")
    systemPrompt := rtJsonStr fields (ascii "instructions")
    llmTimeoutSec
    wakeMode := rtJsonStr wake (ascii "mode")
    wakePhrases := rtJsonStrs wake (ascii "phrases")
    sleepPhrases := rtJsonStrs wake (ascii "sleep_phrases")
    maxRounds, toolTimeoutSec
    tools := rtJsonStrs fields (ascii "tools")
    mcp := rtServers fields
    temperature, topP, topK, minP, maxTokens, presencePenalty, frequencyPenalty
    seed := rtJsonInt llm (ascii "seed") (-1)
    reasoningEffort := rtJsonStr llm (ascii "reasoning_effort")
    ttsVoice := rtJsonStr tts (ascii "voice")
    ttsEffect := rtJsonStr tts (ascii "effect")
    ttsLanguage := rtJsonStr tts (ascii "language")
    ttsBrowserLanguages := rtJsonStrs tts (ascii "browser_languages")
    ttsMinChars, ttsCharsPerSecond, ttsMarginSeconds, ttsTemperature, ttsTopK, ttsTopP
    ttsRepetitionPenalty, ttsSubtalkerTemperature, ttsSubtalkerTopK, ttsSubtalkerTopP
    ttsMaxNewTokens
    ttsSeed := rtJsonInt sampling (ascii "seed") (-1)
    vadNegThreshold, vadThreshold, minSpeechMs, bargeInMs, minSilenceMs
    minSpeechContinuationMs, speechPadMs, turnThreshold, incompleteDelayMs, turnMaxWaitMs
    reopenGraceMs }

/-- The object of the fields: the session, or the frame itself. -/
def fieldsOf (root : Value) : Option Value := some ((root.get (ascii "session")).getD root)

/-- The patch of a frame. -/
def rtPatch (root : Value) : Patch :=
  let out := (rtUpdate (fieldsOf root)).run []
  { out.1 with invalid := out.2 }

/-- `rt_parse`, as far as it finds a session update. -/
def rtParse (frame : Bytes) : Option Value :=
  (parse frame).filter fun root => rtJsonStr (some root) (ascii "type") = ascii "session.update"

/-! ### The answer to it -/

/-- What `conn_frame` does with an update: the connection after it and what it says, less the
`session.updated` that follows. -/
def connUpdate (setup : ConversationSetup) (opens : Bool) (root : Value) (conn : Connection) :
    Connection × List Notice :=
  let patch := rtPatch root
  let applied := connApplyPatch setup opens patch conn
  let client := applied.conn.client
  (applied.conn,
    applied.notices
    ++ (if patch.invalid = [] then []
      else [.error (ascii "[Realtime] Session update: " ++ patch.invalid
        ++ ascii " is not a number in its range, it keeps the server default")])
    ++ [.line (printed [ascii "[Realtime] Session update: mode ", client.mode, ascii ", echo ",
      applied.conn.echo, ascii ", endpoint ",
      if client.llm.baseUrl = [] then ascii "none" else ascii "set", ascii ", voice ",
      if client.tts.voice = [] then ascii "default" else client.tts.voice, ascii ", language ",
      if client.tts.language = [] then ascii "default" else client.tts.language])])

/-- The servers of tools are all that the first part of an update changes. -/
theorem takeMcp_eq (setup : ConversationSetup) (patch : Patch) (client : ClientSettings) :
    ∃ mcp, (takeMcp setup patch client).1 = { client with mcp := mcp } := by
  unfold takeMcp
  by_cases hfixed : setup.mcpFixed = true
  · rw [if_pos hfixed]
    exact ⟨client.mcp, rfl⟩
  · rw [if_neg hfixed]
    exact ⟨_, rfl⟩

/-- Where the endpoint is, its key and its model are all that its part changes. -/
theorem takeEndpoint_eq (setup : ConversationSetup) (patch : Patch) (llm : Llm.Params) :
    ∃ url key model, (takeEndpoint setup patch llm).1
      = { llm with baseUrl := url, apiKey := key, model := model } := by
  unfold takeEndpoint
  by_cases hfixed : setup.llmFixed = true
  · rw [if_pos hfixed]
    exact ⟨llm.baseUrl, llm.apiKey, llm.model, rfl⟩
  rw [if_neg hfixed]
  dsimp only
  by_cases hnone : patch.llmUrl = []
  · rw [if_pos hnone]
    exact ⟨llm.baseUrl, llm.apiKey, _, rfl⟩
  rw [if_neg hnone]
  by_cases hallowed : hostAllowed setup.llmHosts patch.llmUrl = true
  · rw [if_pos hallowed]
    exact ⟨_, _, _, rfl⟩
  · rw [if_neg hallowed]
    exact ⟨llm.baseUrl, llm.apiKey, _, rfl⟩

/-- **The numbers of an update meet the defaults of the server**, each in its part. -/
theorem connApplyPatch_settings (setup : ConversationSetup) (opens : Bool) (patch : Patch)
    (conn : Connection) :
    let after := (connApplyPatch setup opens patch conn).conn
    after.client.maxRounds = countOr 1 setup.defaults.maxRounds patch.maxRounds ∧
      after.client.llm.toolTimeoutSec
        = countOr 1 setup.defaults.llm.toolTimeoutSec patch.toolTimeoutSec ∧
      after.client.llm.timeoutSec = countOr 1 setup.defaults.llm.timeoutSec patch.llmTimeoutSec ∧
      after.client.llm.sampling = takeSampling patch setup.defaults.llm.sampling ∧
      after.client.tts = (takeVoice patch setup.defaults.tts).1 ∧
      after.params = takeListening patch := by
  obtain ⟨mcp, hmcp⟩ := takeMcp_eq setup patch { setup.defaults with
    history := conn.client.history
    mode := textOr setup.defaults.mode patch.mode
    tools := patch.tools }
  obtain ⟨url, key, model, hendpoint⟩ := takeEndpoint_eq setup patch { setup.defaults.llm with
    toolTimeoutSec := countOr 1 setup.defaults.llm.toolTimeoutSec patch.toolTimeoutSec }
  simp only [connApplyPatch, hmcp, hendpoint, and_self]

/-! ### When the client hears of an error -/

/-- What an update is told of besides its numbers: a wake mode or an effect nobody knows, servers of
tools or an endpoint it may not name. -/
def Refused (setup : ConversationSetup) (patch : Patch) : Prop :=
  (patch.wakeMode ≠ [] ∧ patch.wakeMode ∉ connWakeModes) ∨
  (patch.ttsEffect ≠ [] ∧ patch.ttsEffect ∉ connEffects) ∨
  (if setup.mcpFixed then patch.mcp ≠ []
    else ∃ server ∈ patch.mcp, hostAllowed setup.llmHosts server.url = false) ∨
  if setup.llmFixed then patch.llmUrl ≠ [] ∨ patch.llmModel ≠ [] ∨ patch.llmKey ≠ []
    else patch.llmUrl ≠ [] ∧ hostAllowed setup.llmHosts patch.llmUrl = false

/-- The client is told of an error. -/
def Told (notices : List Notice) : Prop := ∃ message, Notice.error message ∈ notices

theorem told_append {a b : List Notice} : Told (a ++ b) ↔ Told a ∨ Told b := by
  simp only [Told, List.mem_append, exists_or]

theorem told_takeMcp (setup : ConversationSetup) (patch : Patch) (client : ClientSettings) :
    Told (takeMcp setup patch client).2 ↔
      if setup.mcpFixed then patch.mcp ≠ []
      else ∃ server ∈ patch.mcp, hostAllowed setup.llmHosts server.url = false := by
  unfold takeMcp Told
  by_cases hfixed : setup.mcpFixed = true
  · rw [if_pos hfixed, if_pos hfixed]
    by_cases hnone : patch.mcp = [] <;> simp [hnone]
  · rw [if_neg hfixed, if_neg hfixed]
    constructor
    · rintro ⟨message, hmem⟩
      obtain ⟨server, hserver, -⟩ := List.mem_map.1 hmem
      obtain ⟨hserver, hhost⟩ := List.mem_filter.1 hserver
      exact ⟨server, hserver, by simpa using hhost⟩
    · rintro ⟨server, hserver, hhost⟩
      exact ⟨_, List.mem_map.2 ⟨server, List.mem_filter.2 ⟨hserver, by simp [hhost]⟩, rfl⟩⟩

theorem told_takeWake (patch : Patch) (wake : WakeSettings) :
    Told (takeWake patch wake).2 ↔ patch.wakeMode ≠ [] ∧ patch.wakeMode ∉ connWakeModes := by
  unfold takeWake Told
  dsimp only
  split_ifs with h
  · simp only [List.not_mem_nil, exists_false, false_iff]
    rintro ⟨hne, hmode⟩
    exact h.elim hmode hne
  · rw [not_or] at h
    simp [h.1, h.2]

theorem told_takeVoice (patch : Patch) (tts : TtsRequest) :
    Told (takeVoice patch tts).2 ↔ patch.ttsEffect ≠ [] ∧ patch.ttsEffect ∉ connEffects := by
  unfold takeVoice Told
  dsimp only
  split_ifs with h
  · simp only [List.not_mem_nil, exists_false, false_iff]
    rintro ⟨hne, hmode⟩
    exact h.elim hmode hne
  · rw [not_or] at h
    simp [h.1, h.2]

theorem told_takeEndpoint (setup : ConversationSetup) (patch : Patch) (llm : Llm.Params) :
    Told (takeEndpoint setup patch llm).2 ↔
      if setup.llmFixed then patch.llmUrl ≠ [] ∨ patch.llmModel ≠ [] ∨ patch.llmKey ≠ []
      else patch.llmUrl ≠ [] ∧ hostAllowed setup.llmHosts patch.llmUrl = false := by
  unfold takeEndpoint Told
  by_cases hfixed : setup.llmFixed = true
  · rw [if_pos hfixed, if_pos hfixed]
    dsimp only
    split_ifs with hnone
    · simp [hnone.1, hnone.2.1, hnone.2.2]
    · simp only [List.mem_singleton, Notice.error.injEq, exists_eq, true_iff]
      tauto
  · rw [if_neg hfixed, if_neg hfixed]
    dsimp only
    split_ifs with hnone hallowed
    · simp [hnone]
    · simp [hallowed]
    · simp [hnone, hallowed]

theorem not_told_takeAwake (waking mode : Bytes) (awake : Bool) :
    ¬Told (takeAwake waking mode awake).2 := by
  unfold takeAwake Told
  split_ifs <;> simp

theorem not_told_takeEcho (opens : Bool) (patch : Patch) (conn : Connection) :
    ¬Told (takeEcho opens patch conn).2 := by
  unfold takeEcho
  by_cases h : patch.echo = [] ∨ patch.echo = conn.echo
  · rw [if_pos h]
    simp [Told]
  · rw [if_neg h]
    dsimp only
    rw [told_append, not_or]
    unfold Told
    constructor <;> split_ifs <;> simp

/-- **When the client is told**: a number was refused, or something else was. -/
theorem told_connUpdate (setup : ConversationSetup) (opens : Bool) (root : Value) (conn : Connection) :
    Told (connUpdate setup opens root conn).2 ↔
      (rtPatch root).invalid ≠ [] ∨ Refused setup (rtPatch root) := by
  unfold connUpdate connApplyPatch
  dsimp only
  simp only [told_append, told_takeMcp, told_takeWake, told_takeVoice, told_takeEndpoint,
    not_told_takeAwake, not_told_takeEcho, or_false]
  have hinvalid : Told (if (rtPatch root).invalid = [] then []
      else [.error (ascii "[Realtime] Session update: " ++ (rtPatch root).invalid
        ++ ascii " is not a number in its range, it keeps the server default")]) ↔
      (rtPatch root).invalid ≠ [] := by
    unfold Told
    split_ifs with h <;> simp [h]
  have hline : ∀ text, ¬Told [.line text] := by simp [Told]
  rw [hinvalid, or_iff_left (hline _)]
  unfold Refused
  tauto

end Update
end S2S
