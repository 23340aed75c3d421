/-
# The request of a chat completion

`llm_client_body` and `llm_client_calls_json` of `src/llm-client.cpp`: the
document a turn posts to the endpoint, and the calls of an answer in the shape
an assistant message carries them back.

Both add their texts to a JSON document as C strings and write it, so what
arrives is each text up to its first zero byte, and nothing at all when one of
them is not UTF-8: the writer then yields no text, which the body turns into
an empty request.
-/

import S2S.Json.Text
import S2S.Json.Write

namespace S2S
namespace Llm

open Json

/-! ### The data -/

/-- A C `float`. -/
inductive CFloat
  | nan
  | inf (negative : Bool)
  | fin (q : ℚ)
  deriving DecidableEq, Repr

/-- `x >= q`. -/
def CFloat.ge : CFloat → ℚ → Bool
  | .nan, _ => false
  | .inf negative, _ => !negative
  | .fin x, q => decide (q ≤ x)

/-- `x > q`. -/
def CFloat.gt : CFloat → ℚ → Bool
  | .nan, _ => false
  | .inf negative, _ => !negative
  | .fin x, q => decide (q < x)

/-- The text a document carries for a float, none for one that is not finite. -/
def CFloat.decimal (dtoa : ℚ → Decimal) : CFloat → Option Decimal
  | .fin x => some (dtoa x)
  | _ => none

/-- `llm_message`. -/
structure Message where
  role : Bytes
  content : Bytes
  toolCalls : Bytes
  toolCallId : Bytes
  deriving DecidableEq, Repr

/-- `llm_sampling`, each field at its sentinel. -/
structure Sampling where
  temperature : CFloat := .fin (-1)
  topP : CFloat := .fin (-1)
  topK : ℤ := -1
  minP : CFloat := .fin (-1)
  maxTokens : ℤ := -1
  presencePenalty : CFloat := .fin (-100)
  frequencyPenalty : CFloat := .fin (-100)
  seed : ℤ := -1
  reasoningEffort : Bytes := ascii "none"

/-- `llm_client_params`. -/
structure Params where
  baseUrl : Bytes := []
  model : Bytes := []
  apiKey : Bytes := []
  sampling : Sampling := {}
  timeoutSec : ℤ := 10
  toolTimeoutSec : ℤ := 10
  tools : Bytes := []

/-- `llm_tool`. -/
structure Tool where
  name : Bytes
  definition : Bytes
  deriving DecidableEq, Repr

/-- `LlmToolCall`, the fragments of a call joined. -/
structure ToolCall where
  id : Bytes
  name : Bytes
  arguments : Bytes
  deriving DecidableEq, Repr

/-! ### The calls of an answer -/

/-- One call as `llm_client_calls_json` adds it. -/
def callDraft (call : ToolCall) : Draft :=
  .obj [(ascii "id", .str (cstr call.id)), (ascii "type", .str (ascii "function")),
    (ascii "function", .obj [(ascii "name", .str (cstr call.name)),
      (ascii "arguments", .str (cstr call.arguments))])]

/-- `llm_client_calls_json`: a call without a name is left out, and no call
leaves no text. -/
def llmClientCallsJson (calls : List ToolCall) : Bytes :=
  let named := calls.filter fun call => call.name ≠ []
  if named = [] then [] else ((Draft.arr (named.map callDraft)).write).getD []

/-- The value a call is read back as. -/
def ToolCall.value (call : ToolCall) : Value :=
  .obj [(ascii "id", .str (cstr call.id)), (ascii "type", .str (ascii "function")),
    (ascii "function", .obj [(ascii "name", .str (cstr call.name)),
      (ascii "arguments", .str (cstr call.arguments))])]

theorem json_callDraft (call : ToolCall) : (callDraft call).json = some call.value := rfl

theorem jsonItems_callDraft (calls : List ToolCall) :
    jsonItems (calls.map callDraft) = some (calls.map ToolCall.value) := by
  induction calls with
  | nil => rfl
  | cons call calls ih => rw [List.map_cons, jsonItems, json_callDraft, ih, List.map_cons]

/-- A call is written when its texts, as C strings, are UTF-8. -/
theorem callDraft_write_iff (call : ToolCall) :
    (callDraft call).write.isSome = true ↔ validUtf8 (cstr call.id) = true ∧
      validUtf8 (cstr call.name) = true ∧ validUtf8 (cstr call.arguments) = true := by
  have hkeys : ∀ key ∈ [ascii "id", ascii "type", ascii "function", ascii "name",
      ascii "arguments"], validUtf8 key = true := by decide
  simp only [List.forall_mem_cons, List.not_mem_nil, false_imp_iff, implies_true,
    and_true] at hkeys
  obtain ⟨h₁, h₂, h₃, h₄, h₅⟩ := hkeys
  simp [callDraft, h₁, h₂, h₃, h₄, h₅]

/-- **The calls an answer ends on travel as one JSON text, or as none**: none
when a text of theirs is not UTF-8 as a C string. -/
theorem llmClientCallsJson_cases (calls : List ToolCall) :
    llmClientCallsJson calls = [] ∨
      parse (llmClientCallsJson calls) =
        some (.arr ((calls.filter fun call => call.name ≠ []).map ToolCall.value)) ∧
      ∀ call ∈ calls.filter fun call => call.name ≠ [], (callDraft call).write.isSome = true := by
  unfold llmClientCallsJson
  dsimp only
  split_ifs with hnamed
  · exact Or.inl rfl
  · cases hw : (Draft.arr ((calls.filter fun call => call.name ≠ []).map callDraft)).write with
    | none => exact Or.inl rfl
    | some w =>
      refine Or.inr ⟨Draft.parse_write _ hw ?_, ?_⟩
      · rw [Draft.json, jsonItems_callDraft]
        rfl
      · have := write_arr_isSome.1 (Option.isSome_of_eq_some hw)
        exact fun call hcall => this _ (List.mem_map_of_mem hcall)

/-- Calls that can be written are. -/
theorem parse_llmClientCallsJson {calls : List ToolCall}
    (hne : calls.filter (fun call => call.name ≠ []) ≠ [])
    (h : ∀ call ∈ calls, (callDraft call).write.isSome = true) :
    parse (llmClientCallsJson calls) =
      some (.arr ((calls.filter fun call => call.name ≠ []).map ToolCall.value)) := by
  obtain ⟨w, hw⟩ : ∃ w, (Draft.arr ((calls.filter fun call => call.name ≠ []).map callDraft)).write
      = some w := by
    rw [← Option.isSome_iff_exists, write_arr_isSome, List.forall_mem_map]
    exact fun call hcall => h call (List.mem_filter.1 hcall).1
  rw [llmClientCallsJson, if_neg hne, hw]
  refine Draft.parse_write _ hw ?_
  rw [Draft.json, jsonItems_callDraft]
  rfl

theorem llmClientCallsJson_eq (calls : List ToolCall) :
    llmClientCallsJson calls = [] ∨
      parse (llmClientCallsJson calls) =
        some (.arr ((calls.filter fun call => call.name ≠ []).map ToolCall.value)) :=
  (llmClientCallsJson_cases calls).imp_right And.left

/-- The calls pass through a `const char *` whole. -/
theorem cstr_llmClientCallsJson (calls : List ToolCall) :
    cstr (llmClientCallsJson calls) = llmClientCallsJson calls := by
  rcases llmClientCallsJson_eq calls with h | h
  · rw [h]
    rfl
  · exact cstr_of_parse h

/-! ### The request -/

/-- One entry of the messages array. -/
def messageDraft (message : Message) : Draft :=
  .obj <|
    [(ascii "role", .str (cstr message.role)), (ascii "content", .str (cstr message.content))]
    ++ given (message.toolCalls ≠ []) (ascii "tool_calls") (.raw (cstr message.toolCalls))
    ++ given (message.toolCallId ≠ []) (ascii "tool_call_id") (.str (cstr message.toolCallId))

section Body

-- How the writer spells a finite double.
variable (dtoa : ℚ → Decimal)

/-- What a request carries before its messages: the model, the streaming
switch, every sampling field that is set and the tools. -/
def headMembers (p : Params) : List (Bytes × Draft) :=
  let s := p.sampling
  given (p.model ≠ []) (ascii "model") (.str (cstr p.model))
  ++ [(ascii "stream", .bool true)]
  ++ given (s.temperature.ge 0) (ascii "temperature") (.real (s.temperature.decimal dtoa))
  ++ given (s.topP.ge 0) (ascii "top_p") (.real (s.topP.decimal dtoa))
  ++ given (s.topK ≥ 0) (ascii "top_k") (.int (.ofInt 64 s.topK))
  ++ given (s.minP.ge 0) (ascii "min_p") (.real (s.minP.decimal dtoa))
  ++ given (s.maxTokens > 0) (ascii "max_tokens") (.int (.ofInt 64 s.maxTokens))
  ++ given (s.presencePenalty.gt (-3)) (ascii "presence_penalty")
    (.real (s.presencePenalty.decimal dtoa))
  ++ given (s.frequencyPenalty.gt (-3)) (ascii "frequency_penalty")
    (.real (s.frequencyPenalty.decimal dtoa))
  ++ given (s.seed ≥ 0) (ascii "seed") (.int (.ofInt 64 s.seed))
  ++ given (s.reasoningEffort ≠ []) (ascii "reasoning_effort") (.str (cstr s.reasoningEffort))
  ++ given (p.tools ≠ []) (ascii "tools") (.raw (cstr p.tools))

/-- The document of a request. -/
def bodyDraft (p : Params) (messages : List Message) : Draft :=
  .obj (headMembers dtoa p ++ [(ascii "messages", .arr (messages.map messageDraft))])

/-- `llm_client_body`. -/
def llmClientBody (p : Params) (messages : List Message) : Bytes :=
  ((bodyDraft dtoa p messages).write).getD []

end Body

end Llm
end S2S
