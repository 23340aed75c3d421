/-
# The agent

`llm_agent_gather`, `llm_agent_definitions`, `llm_agent_call`,
`llm_agent_calls` and `llm_agent_run` of `src/llm-agent.cpp`: a turn as rounds
of one stream and the calls it ends on.

What surrounds the agent is a world it runs in: the servers that list and run
tools, the flag that cancels, the clock (`Servers`), and the model (`Stream`).
All of them may do anything.  A run keeps a record of each call and of what its
caller heard; what it asks its servers to run is in `S2S.Agent.Recorded`.
-/

import S2S.Http.Basic
import S2S.Llm.Body

namespace S2S
namespace Agent

open Json Http Llm

/-! ### The data -/

/-- What runs a tool: the process, the MCP client of that number, or the
endpoint. -/
inductive Server
  | builtin (i : ℕ)
  | mcp (i : ℕ)
  | endpoint
  deriving DecidableEq, Repr

/-- `LlmAgentTool`. -/
structure AgentTool where
  tool : Tool
  server : Server
  deriving DecidableEq, Repr

/-- `LlmAgentCall`. -/
structure Call where
  id : Bytes
  name : Bytes
  arguments : Bytes
  deriving DecidableEq, Repr

/-- What the agent reaches: the lists, the settings of the endpoint client, the
three ways to run a tool, the cancel flag, the clock, in milliseconds, and the
slot the last error is recorded in.  An operation that gives nothing failed. -/
structure Servers (W : Type) where
  mcpClientTools : ℕ → W → Option (List Tool) × W
  llmClientTools : W → Option (List Tool) × W
  setParams : Params → W → Bool × W
  builtin : ℕ → Bytes → W → Option Bytes × W
  mcpClientCall : ℕ → Bytes → Bytes → W → Option Bytes × W
  llmClientToolCall : Bytes → Bytes → W → Option Bytes × W
  cancelled : W → Bool × W
  clock : W → ℚ × W
  recordError : Bytes → W → W
  lastError : W → Bytes

/-- What one stream gives: the deltas it handed over, and the answer and its
calls, their fragments joined, when it ended well. -/
structure Streamed where
  deltas : List Bytes
  result : Option (Bytes × List ToolCall)

/-- The model behind the endpoint: `llm_client_stream` on a list of messages. -/
abbrev Stream (W : Type) := List Message → W → Streamed × W

/-- What the caller hears, in order. -/
inductive Heard
  | delta (text : Bytes)
  | started (name : Bytes)
  | ended (name : Bytes) (ok : Bool) (ms : ℚ) (bytes : ℕ)
  deriving DecidableEq, Repr

/-- One call of a run: what it returned and after how long, whether the turn was
cancelled then, and the message that answers it. -/
structure Record where
  call : Call
  result : Option Bytes
  ms : ℚ
  cancelled : Bool
  reply : Option Message

/-! ### The tools -/

/-- A tool joins the list unless its name is taken. -/
def addTool (server : Server) (tools : List AgentTool) (tool : Tool) : List AgentTool :=
  if tools.any fun known => known.tool.name = tool.name then tools else tools ++ [⟨tool, server⟩]

section Run

variable {W : Type} (servers : Servers W)

/-- The tools of the MCP servers from number `i` on, `true` for a client that
could be made; none when the turn was cancelled. -/
def gatherMcp : ℕ → List Bool → List AgentTool → W → Option (List AgentTool) × W
  | _, [], tools, w => (some tools, w)
  | i, client :: clients, tools, w =>
    match (if client then servers.mcpClientTools i w else (none, w)) with
    | (some listed, w) => gatherMcp (i + 1) clients (listed.foldl (addTool (.mcp i)) tools) w
    | (none, w) =>
      match servers.cancelled w with
      | (true, w) => (none, w)
      | (false, w) => gatherMcp (i + 1) clients tools w

/-- `llm_agent_gather`. -/
def llmAgentGather (builtins : List Tool) (clients : List Bool) (w : W) :
    Option (List AgentTool) × W :=
  let own := builtins.zipIdx.foldl (fun tools t => addTool (.builtin t.2) tools t.1) []
  match gatherMcp servers 0 clients own w with
  | (none, w) => (none, w)
  | (some tools, w) =>
    match servers.llmClientTools w with
    | (some listed, w) => (some (listed.foldl (addTool .endpoint) tools), w)
    | (none, w) => if clients = [] ∧ builtins = [] then (none, w) else (some tools, w)

/-- The tools of a list that the session checked. -/
def offered (tools : List AgentTool) (enabled : List Bytes) : List AgentTool :=
  tools.filter fun entry => entry.tool.name ∈ enabled

/-- `llm_agent_definitions`. -/
def llmAgentDefinitions (tools : List AgentTool) (enabled : List Bytes) : Bytes :=
  lbracket :: joinWith rbracket ((offered tools enabled).map fun entry => entry.tool.definition)

/-- `llm_agent_call`: what the call returned. -/
def llmAgentCall (tools : List AgentTool) (call : Call) (w : W) : Option Bytes × W :=
  match tools.find? fun entry => entry.tool.name = call.name with
  | none => (none, servers.recordError (setError
      [ascii "[Agent] The model called ", call.name, ascii ", a tool nobody offered"]) w)
  | some entry =>
    match entry.server with
    | .builtin i => servers.builtin i call.arguments w
    | .mcp i => servers.mcpClientCall i call.name call.arguments w
    | .endpoint => servers.llmClientToolCall call.name call.arguments w

/-- `llm_agent_calls`: the calls in the text an answer ended on. -/
def llmAgentCalls (json : Bytes) : List Call :=
  match parse json with
  | some (.arr items) => items.map fun item =>
      let function := item.get (ascii "function")
      { id := textOf (item.get (ascii "id"))
        name := textOf (function.bind fun f => f.get (ascii "name"))
        arguments := textOf (function.bind fun f => f.get (ascii "arguments")) }
  | _ => []

/-! ### A round -/

/-- `isspace` in the C locale. -/
def isSpaceByte (b : UInt8) : Bool := b == 0x20 || decide (0x09 ≤ b) && decide (b ≤ 0x0D)

/-- `llm_agent_tap` over the deltas of a round: what the caller hears, and
whether the round opened with a space of its own. -/
def llmAgentTap : Bool → List Bytes → List Bytes × Bool
  | _, [] => ([], false)
  | separate, delta :: deltas =>
    match separate, cstr delta with
    | true, b :: s =>
      if isSpaceByte b then ((b :: s) :: (llmAgentTap false deltas).1, false)
      else ([0x20] :: (b :: s) :: (llmAgentTap false deltas).1, true)
    | separate, text => (text :: (llmAgentTap separate deltas).1, (llmAgentTap separate deltas).2)

/-- The result the model reads of a call that failed. -/
def failureText (p : Params) (call : Call) (ms : ℚ) (lastError : Bytes) : Bytes :=
  ascii "Error: " ++
    if p.toolTimeoutSec * 1000 ≤ ms + 50 then
      call.name ++ ascii " did not answer within " ++ intText p.toolTimeoutSec ++ ascii " s"
    else cstr lastError

/-- One call of a round. -/
def runCall (p : Params) (tools : List AgentTool) (call : Call) (w : W) : Record × W :=
  let (start, w) := servers.clock w
  let (result, w) := llmAgentCall servers tools call w
  let (stop, w) := servers.clock w
  let ms := stop - start
  match result with
  | some text => (⟨call, result, ms, false, some ⟨ascii "tool", text, [], call.id⟩⟩, w)
  | none =>
    match servers.cancelled w with
    | (true, w) => (⟨call, none, ms, true, none⟩, w)
    | (false, w) => (⟨call, none, ms, false,
        some ⟨ascii "tool", failureText p call ms (servers.lastError w), [], call.id⟩⟩, w)

/-- The calls of a round, up to one that finds the turn cancelled. -/
def runCalls (p : Params) (tools : List AgentTool) : List Call → W → List Record × W
  | [], w => ([], w)
  | call :: calls, w =>
    match runCall servers p tools call w with
    | (record, w) =>
      if record.cancelled then ([record], w)
      else
        match runCalls p tools calls w with
        | (records, w) => (record :: records, w)

/-- What the caller hears of a call. -/
def Record.heard (r : Record) : List Heard :=
  [.started r.call.name, .ended r.call.name r.result.isSome r.ms (r.result.getD []).length]

/-- How a run ends, `returned` what it returns. -/
structure Outcome where
  returned : Bool
  messages : List Message
  text : Bytes
  records : List Record
  heard : List Heard

/-- What earlier rounds left comes before what this outcome has. -/
def Outcome.after (records : List Record) (heard : List Heard) (o : Outcome) : Outcome :=
  { o with records := records ++ o.records, heard := heard ++ o.heard }

/-- The words a round adds to the text. -/
def roundText (spaced : Bool) (answer : Bytes) : Bytes := if spaced then 0x20 :: answer else answer

/-- The rounds left. -/
def rounds (stream : Stream W) (p : Params) (tools : List AgentTool) (maxRounds : ℤ) :
    ℕ → List Message → Bytes → W → Outcome × W
  | 0, messages, text, w =>
    (⟨false, messages, text, [], []⟩, servers.recordError (setError
      [ascii "[Agent] The tools still had work to do after ", intText maxRounds, ascii " rounds"]) w)
  | n + 1, messages, text, w =>
    let separate := text.getLast?.any fun b => !isSpaceByte b
    let (streamed, w) := stream messages w
    let (deltas, spaced) := llmAgentTap separate streamed.deltas
    let heard := deltas.map .delta
    match streamed.result with
    | none => (⟨false, messages, text, [], heard⟩, w)
    | some (answer, toolCalls) =>
      let text := text ++ roundText spaced answer
      let json := cstr (llmClientCallsJson toolCalls)
      if llmAgentCalls json = [] then (⟨true, messages, text, [], heard⟩, w)
      else
        let (records, w) := runCalls servers p tools (llmAgentCalls json) w
        let messages := messages ++ [⟨ascii "assistant", answer, json, []⟩]
          ++ records.filterMap Record.reply
        let heard := heard ++ records.flatMap Record.heard
        if records.any Record.cancelled then (⟨false, messages, text, records, heard⟩, w)
        else
          let (o, w) := rounds stream p tools maxRounds n messages text w
          (o.after records heard, w)

/-- The settings of a run: with the tools it offers, or without any. -/
def tooled (p : Params) (tools : List AgentTool) (enabled : List Bytes) : Params :=
  { p with tools := if offered tools enabled = [] then [] else llmAgentDefinitions tools enabled }

/-- `llm_agent_run`. -/
def llmAgentRun (stream : Stream W) (builtins : List Tool) (clients : List Bool) (p : Params)
    (enabled : List Bytes) (maxRounds : ℤ) (messages : List Message) (w : W) : Outcome × W :=
  match llmAgentGather servers builtins clients w with
  | (none, w) => (⟨false, messages, [], [], []⟩, w)
  | (some available, w) =>
    match servers.setParams (tooled p available enabled) w with
    | (false, w) => (⟨false, messages, [], [], []⟩, w)
    | (true, w) => rounds servers stream p available maxRounds maxRounds.toNat messages [] w

end Run

end Agent
end S2S
