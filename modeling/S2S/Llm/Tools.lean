/-
# The tools of the endpoint

`llm_client_tools` and `llm_client_tool_call` of `src/llm-client.cpp`, the
llama.cpp routes: the list of what the endpoint runs, and one call.  A call
posts the arguments the model wrote as they are, next to the name of the tool.
-/

import S2S.Http.Basic
import S2S.Llm.Body

namespace S2S
namespace Llm

open Json Http

/-- `llm_client_root`: the path without the prefix of the chat dialect. -/
def llmClientRoot (path : Bytes) : Bytes :=
  if (ascii "/v1").isSuffixOf path then path.take (path.length - 3) else path

def llmClientReason (body : Bytes) : Bytes := errorReason 200 body

/-- What every request of the client does with a reply that carries no answer. -/
def answerBody (reply : Except Bytes Response) : Except Bytes Bytes :=
  match reply with
  | .error e => .error (setError [ascii "[LLM] ", e])
  | .ok r =>
    if r.ok then .ok r.body
    else .error (setError
      [ascii "[LLM] HTTP ", intText r.status, ascii ", ", llmClientReason r.body])

section Tools

-- How the writer spells a number it read.
variable (spell : Bytes → Decimal)

/-- One entry of the list: a tool with a name and a definition. -/
def listedTool (item : Value) : Option Tool :=
  match item.get (ascii "tool"), item.get (ascii "definition") with
  | some (.str name), some definition =>
    (definition.write spell).map fun text => ⟨name, text⟩
  | _, _ => none

/-- The list in the body of an answer. -/
def readTools (body : Bytes) : Except Bytes (List Tool) :=
  match parse body with
  | none => .error (setError [ascii "[LLM] Tool list is not JSON"])
  | some (.arr items) => .ok (items.filterMap (listedTool spell))
  | some _ => .ok []

/-- `llm_client_tools`: `opens` says which hosts the HTTP library can make a
client for.  The request carries no cancel flag. -/
def llmClientTools (opens : Bytes → Bool) (p : Params) (reply : Except Bytes Response) :
    Except Bytes (List Tool) :=
  match httpSplitUrl p.baseUrl with
  | none => .error (setError [ascii "[LLM] The endpoint URL has no scheme"])
  | some (host, _) =>
    if !opens host then
      .error (setError [ascii "[LLM] The URL cannot be reached: bad port, unknown scheme, ",
        ascii "or https without TLS"])
    else
      match answerBody reply with
      | .error e => .error e
      | .ok body => readTools spell body

end Tools

/-! ### A call -/

/-- The document of a call. -/
def toolCallDraft (name arguments : Bytes) : Draft :=
  .obj [(ascii "tool", .str (cstr name)),
    (ascii "params", if arguments = [] then .obj [] else .raw (cstr arguments))]

/-- What a call posts. -/
def toolCallRequest (name arguments : Bytes) : Bytes := (toolCallDraft name arguments).write.getD []

/-- The plain text of an answer, or the answer itself. -/
def toolCallResult (body : Bytes) : Bytes :=
  match (parse body).bind fun doc => doc.get (ascii "plain_text_response") with
  | some (.str s) => s
  | _ => body

/-- `llm_client_tool_call`: what it posted, and what came of it. -/
def llmClientToolCall (reply : Reply) (name arguments : Bytes) : List Bytes × Except Bytes Bytes :=
  ([toolCallRequest name arguments],
    if reply.cancelled then .error (setError [ascii "[LLM] Cancelled"])
    else
      match answerBody reply.result with
      | .error e => .error e
      | .ok body => .ok (toolCallResult body))

end Llm
end S2S
