/-
# What a run sends

The world of `Servers` says what the servers answer; `Servers.recorded` puts beside
it what they are asked: each request of the model and each tool that runs, in order
(`Sent`), and changes nothing else (`recorded_llmAgentRun`).  A request carries the
messages of the caller and then one block for each round before it, an assistant
message with its calls and a result for each of them, in order (`Carries`); and a
call runs the tool that the list has under its name, or nothing (`invoked`).
-/

import S2S.Agent.Run

namespace S2S
namespace Agent

open Json Http Llm

/-! ### What is sent -/

/-- A request of the model, or a tool that runs: `builtin`, `mcp_client_call`,
`llm_client_tool_call`. -/
inductive Sent
  | request (messages : List Message)
  | builtin (i : ℕ) (arguments : Bytes)
  | mcpClientCall (i : ℕ) (name arguments : Bytes)
  | llmClientToolCall (name arguments : Bytes)
  deriving DecidableEq, Repr

/-- The messages of a request. -/
def Sent.messages : Sent → Option (List Message)
  | .request messages => some messages
  | _ => none

/-- A tool that runs. -/
def Sent.isTool (s : Sent) : Bool := s.messages.isNone

/-- The name of the tool that runs; a built-in one is known by its place. -/
def Sent.tool (builtins : List Tool) : Sent → Option Bytes
  | .request _ => none
  | .builtin i _ => builtins[i]?.map Tool.name
  | .mcpClientCall _ name _ => some name
  | .llmClientToolCall name _ => some name

/-- The requests among what was sent. -/
def requestsOf (sent : List Sent) : List (List Message) := sent.filterMap Sent.messages

/-- The tools that ran among what was sent. -/
def toolsOf (sent : List Sent) : List Sent := sent.filter Sent.isTool

/-- What a server is asked to run a call. -/
def Server.sent (call : Call) : Server → Sent
  | .builtin i => .builtin i call.arguments
  | .mcp i => .mcpClientCall i call.name call.arguments
  | .endpoint => .llmClientToolCall call.name call.arguments

/-- What a call runs. -/
def invoked (tools : List AgentTool) (call : Call) : List Sent :=
  match tools.find? fun entry => entry.tool.name = call.name with
  | none => []
  | some entry => [entry.server.sent call]

theorem Server.isTool_sent (server : Server) (call : Call) : (server.sent call).isTool = true := by
  cases server <;> rfl

theorem isTool_of_mem_invoked {tools : List AgentTool} {call : Call} {s : Sent}
    (h : s ∈ invoked tools call) : s.isTool = true := by
  unfold invoked at h
  split at h
  · simp at h
  · rw [List.mem_singleton.1 h]
    exact Server.isTool_sent _ call

theorem toolsOf_append (a b : List Sent) : toolsOf (a ++ b) = toolsOf a ++ toolsOf b :=
  List.filter_append ..

theorem requestsOf_append (a b : List Sent) : requestsOf (a ++ b) = requestsOf a ++ requestsOf b :=
  List.filterMap_append ..

/-- Tools that run and no request. -/
theorem toolsOf_eq_self {sent : List Sent} (h : ∀ s ∈ sent, s.isTool = true) :
    toolsOf sent = sent ∧ requestsOf sent = [] := by
  refine ⟨List.filter_eq_self.2 h, List.filterMap_eq_nil_iff.2 fun s hs => ?_⟩
  simpa [Sent.isTool] using h s hs

/-! ### Blocks -/

/-- The result of a call: a tool message with the id of the call. -/
def Answers (call : Value) (reply : Message) : Prop :=
  reply.role = ascii "tool" ∧ reply.toolCallId = textOf (call.get (ascii "id")) ∧
    reply.toolCalls = []

/-- What a round adds: an assistant message with calls, and the result of each. -/
def Block (block : List Message) : Prop :=
  ∃ answer json calls replies, block = ⟨ascii "assistant", answer, json, []⟩ :: replies ∧
    parse json = some (.arr calls) ∧ calls ≠ [] ∧ List.Forall₂ Answers calls replies

/-- The block of the calls of one round: it carries them, as the client wrote them, and what answers
each. -/
structure BlockOf (records : List Record) (block : List Message) : Prop where
  whole : Block block
  calls : block.head?.map (fun m => llmAgentCalls m.toolCalls) = some (records.map Record.call)
  replies : block.tail = records.filterMap Record.reply
  written : ∃ calls, block.head?.map Message.toolCalls = some (llmClientCallsJson calls)

/-- **A request carries the messages of the caller and one block a round**, of the first calls of the
run, `count` rounds of them. -/
def Carries (count : ℕ) (records : List Record) (messages request : List Message) : Prop :=
  ∃ (rounds : List (List Record)) (blocks : List (List Message)), rounds.length = count ∧
    rounds.flatten <+: records ∧ List.Forall₂ BlockOf rounds blocks ∧ request = messages ++ blocks.flatten

theorem Carries.zero (records : List Record) (messages : List Message) :
    Carries 0 records messages messages :=
  ⟨[], [], rfl, List.nil_prefix, .nil, (List.append_nil messages).symm⟩

/-- One round more in front. -/
theorem Carries.succ {count : ℕ} {first records : List Record} {messages block request : List Message}
    (hblock : BlockOf first block) (h : Carries count records (messages ++ block) request) :
    Carries (count + 1) (first ++ records) messages request := by
  obtain ⟨rounds, blocks, hlength, hprefix, hblocks, rfl⟩ := h
  refine ⟨first :: rounds, block :: blocks, by simp [hlength], ?_, .cons hblock hblocks, ?_⟩
  · rw [List.flatten_cons]
    exact (List.prefix_append_right_inj first).2 hprefix
  · rw [List.flatten_cons, List.append_assoc]

/-! ### The record -/

/-- A world, and what it was sent. -/
abbrev Recorded (W : Type) : Type := W × List Sent

variable {W : Type}

/-- An operation that asks for no model and no tool. -/
def beside {α : Type} (op : W → α × W) (w : Recorded W) : α × Recorded W :=
  ((op w.1).1, (op w.1).2, w.2)

/-- A tool that runs is kept. -/
def noted {α : Type} (s : Sent) (op : W → α × W) (w : Recorded W) : α × Recorded W :=
  ((op w.1).1, (op w.1).2, w.2 ++ [s])

/-- The servers, and what they are asked to run. -/
def Servers.recorded (servers : Servers W) : Servers (Recorded W) where
  mcpClientTools i := beside (servers.mcpClientTools i)
  llmClientTools := beside servers.llmClientTools
  setParams p := beside (servers.setParams p)
  builtin i arguments := noted (.builtin i arguments) (servers.builtin i arguments)
  mcpClientCall i name arguments :=
    noted (.mcpClientCall i name arguments) (servers.mcpClientCall i name arguments)
  llmClientToolCall name arguments :=
    noted (.llmClientToolCall name arguments) (servers.llmClientToolCall name arguments)
  cancelled := beside servers.cancelled
  clock := beside servers.clock
  recordError text w := (servers.recordError text w.1, w.2)
  lastError w := servers.lastError w.1

/-- The model, each request of which is kept. -/
def recordedStream (stream : Stream W) : Stream (Recorded W) := fun messages w =>
  ((stream messages w.1).1, (stream messages w.1).2, w.2 ++ [.request messages])

section Recorded

variable (servers : Servers W) (w : Recorded W)

@[simp] theorem recorded_cancelled :
    servers.recorded.cancelled w = beside servers.cancelled w := rfl

@[simp] theorem recorded_clock : servers.recorded.clock w = beside servers.clock w := rfl

@[simp] theorem recorded_mcpClientTools (i : ℕ) :
    servers.recorded.mcpClientTools i w = beside (servers.mcpClientTools i) w := rfl

@[simp] theorem recorded_llmClientTools :
    servers.recorded.llmClientTools w = beside servers.llmClientTools w := rfl

theorem recorded_gatherMcp (i : ℕ) (clients : List Bool) (tools : List AgentTool) :
    gatherMcp servers.recorded i clients tools w =
      beside (gatherMcp servers i clients tools) w := by
  induction clients generalizing i tools w with
  | nil => rfl
  | cons client clients ih =>
    obtain ⟨v, log⟩ := w
    cases client with
    | false =>
      rcases hc : servers.cancelled v with ⟨_ | _, v'⟩
      · simp [gatherMcp, beside, hc, ih]
      · simp [gatherMcp, beside, hc]
    | true =>
      rcases hm : servers.mcpClientTools i v with ⟨_ | listed, v'⟩
      · rcases hc : servers.cancelled v' with ⟨_ | _, v''⟩
        · simp [gatherMcp, beside, hm, hc, ih]
        · simp [gatherMcp, beside, hm, hc]
      · simp [gatherMcp, beside, hm, ih]

theorem recorded_llmAgentGather (builtins : List Tool) (clients : List Bool) :
    llmAgentGather servers.recorded builtins clients w =
      beside (llmAgentGather servers builtins clients) w := by
  unfold llmAgentGather
  simp only [recorded_gatherMcp, beside]
  generalize gatherMcp servers 0 clients _ w.1 = gathered
  obtain ⟨_ | tools, v⟩ := gathered
  · rfl
  · simp only [recorded_llmClientTools, beside]
    rcases servers.llmClientTools v with ⟨_ | listed, v'⟩
    · dsimp only
      split_ifs <;> rfl
    · rfl

theorem recorded_llmAgentCall (tools : List AgentTool) (call : Call) :
    llmAgentCall servers.recorded tools call w =
      ((llmAgentCall servers tools call w.1).1, (llmAgentCall servers tools call w.1).2,
        w.2 ++ invoked tools call) := by
  unfold llmAgentCall invoked
  cases tools.find? fun entry => entry.tool.name = call.name with
  | none => simp [Servers.recorded]
  | some entry =>
    obtain ⟨tool, server⟩ := entry
    cases server <;> rfl

theorem recorded_runCall (p : Params) (tools : List AgentTool) (call : Call) :
    runCall servers.recorded p tools call w =
      ((runCall servers p tools call w.1).1, (runCall servers p tools call w.1).2,
        w.2 ++ invoked tools call) := by
  unfold runCall
  simp only [recorded_clock, beside, recorded_llmAgentCall]
  generalize llmAgentCall servers tools call (servers.clock w.1).2 = called
  obtain ⟨_ | text, v⟩ := called
  · simp only [recorded_cancelled, beside]
    rcases servers.cancelled (servers.clock v).2 with ⟨_ | _, v'⟩ <;> rfl
  · rfl

end Recorded

section Run

variable (servers : Servers W)

theorem runCall_call (p : Params) (tools : List AgentTool) (call : Call) (w : W) :
    (runCall servers p tools call w).1.call = call := by
  unfold runCall
  dsimp only
  split
  · rfl
  · split <;> rfl

/-- **The calls of a round run what the list says**, one after the other. -/
theorem recorded_runCalls (p : Params) (tools : List AgentTool) (calls : List Call) (w : Recorded W) :
    runCalls servers.recorded p tools calls w =
      ((runCalls servers p tools calls w.1).1, (runCalls servers p tools calls w.1).2,
        w.2 ++ (runCalls servers p tools calls w.1).1.flatMap fun r => invoked tools r.call) := by
  induction calls generalizing w with
  | nil => simp [runCalls]
  | cons call calls ih =>
    have hcall := runCall_call servers p tools call w.1
    by_cases hcancelled : (runCall servers p tools call w.1).1.cancelled = true
    · simp [runCalls, recorded_runCall, hcancelled, hcall]
    · simp [runCalls, recorded_runCall, hcancelled, hcall, ih]

/-- The calls of a round that is not cancelled all come to something. -/
theorem runCalls_calls (p : Params) (tools : List AgentTool) (calls : List Call) (w : W)
    (h : (runCalls servers p tools calls w).1.any Record.cancelled = false) :
    (runCalls servers p tools calls w).1.map Record.call = calls := by
  induction calls generalizing w with
  | nil => rfl
  | cons call calls ih =>
    rw [runCalls] at h ⊢
    dsimp only at h ⊢
    split_ifs at h ⊢ with hcancelled
    · simp [hcancelled] at h
    · rw [List.any_cons, Bool.or_eq_false_iff] at h
      rw [List.map_cons, runCall_call, ih _ h.2]

/-! ### A round -/

/-- A call that was not cancelled has its result. -/
theorem runCall_answered (p : Params) (tools : List AgentTool) (call : Call) (w : W)
    (h : (runCall servers p tools call w).1.cancelled = false) :
    ∃ reply, (runCall servers p tools call w).1.reply = some reply ∧ reply.role = ascii "tool" ∧
      reply.toolCallId = call.id ∧ reply.toolCalls = [] := by
  unfold runCall at h ⊢
  dsimp only at h ⊢
  split
  · exact ⟨_, rfl, rfl, rfl, rfl⟩
  · split
    · rename_i hresult _ _ hcancelled
      rw [hresult, hcancelled] at h
      simp at h
    · exact ⟨_, rfl, rfl, rfl, rfl⟩

/-- **Every call of a round has its result**, in order, unless the turn was cancelled. -/
theorem runCalls_answered (p : Params) (tools : List AgentTool) (calls : List Call) (w : W)
    (h : (runCalls servers p tools calls w).1.any Record.cancelled = false) :
    List.Forall₂ (fun call reply => reply.role = ascii "tool" ∧ reply.toolCallId = call.id ∧
        reply.toolCalls = []) calls
      ((runCalls servers p tools calls w).1.filterMap Record.reply) := by
  induction calls generalizing w with
  | nil => exact .nil
  | cons call calls ih =>
    rw [runCalls] at h ⊢
    dsimp only at h ⊢
    split_ifs at h ⊢ with hcancelled
    · simp [hcancelled] at h
    · rw [List.any_cons, Bool.or_eq_false_iff] at h
      obtain ⟨reply, hreply, hanswers⟩ := runCall_answered servers p tools call w h.1
      rw [List.filterMap_cons_some hreply]
      exact .cons hanswers (ih _ h.2)

/-- The call the agent reads in an item of the text. -/
def callOf (item : Value) : Call where
  id := textOf (item.get (ascii "id"))
  name := textOf ((item.get (ascii "function")).bind fun f => f.get (ascii "name"))
  arguments := textOf ((item.get (ascii "function")).bind fun f => f.get (ascii "arguments"))

/-- Calls come from an array. -/
theorem parse_of_llmAgentCalls {json : Bytes} (h : llmAgentCalls json ≠ []) :
    ∃ items, parse json = some (.arr items) ∧ llmAgentCalls json = items.map callOf := by
  unfold llmAgentCalls at h ⊢
  split at h
  · rename_i items hparse
    exact ⟨items, hparse, rfl⟩
  · exact absurd rfl h

/-- What a round that goes on adds is the block of its calls. -/
theorem block_of_round (p : Params) (tools : List AgentTool) (answer : Bytes) {json : Bytes} (w : W)
    (hcalls : llmAgentCalls json ≠ []) {toolCalls : List ToolCall}
    (hjson : json = llmClientCallsJson toolCalls)
    (h : (runCalls servers p tools (llmAgentCalls json) w).1.any Record.cancelled = false) :
    BlockOf (runCalls servers p tools (llmAgentCalls json) w).1
      (⟨ascii "assistant", answer, json, []⟩ ::
        (runCalls servers p tools (llmAgentCalls json) w).1.filterMap Record.reply) := by
  have hanswered := runCalls_answered servers p tools (llmAgentCalls json) w h
  have hmade := runCalls_calls servers p tools (llmAgentCalls json) w h
  obtain ⟨items, hparse, hread⟩ := parse_of_llmAgentCalls hcalls
  refine ⟨⟨answer, json, items, _, rfl, hparse, ?_, ?_⟩, congrArg some hmade.symm, rfl,
    ⟨toolCalls, congrArg some hjson⟩⟩
  · rintro rfl
    exact hcalls hread
  · generalize (runCalls servers p tools (llmAgentCalls json) w).1 = records at hanswered ⊢
    rw [hread, List.forall₂_map_left_iff] at hanswered
    exact hanswered

variable (stream : Stream W)

/-- What the rounds left send, when they come to these records. -/
structure Sends (tools : List AgentTool) (n : ℕ) (messages : List Message) (records : List Record)
    (sent : List Sent) : Prop where
  count : (requestsOf sent).length ≤ n
  requests : ∀ (k : ℕ) request, (requestsOf sent)[k]? = some request → Carries k records messages request
  tools : toolsOf sent = records.flatMap fun r => invoked tools r.call

/-- What one round sends: its request, and what its calls run. -/
def roundSent (tools : List AgentTool) (messages : List Message) (records : List Record) : List Sent :=
  .request messages :: records.flatMap fun r => invoked tools r.call

theorem requestsOf_roundSent (tools : List AgentTool) (messages : List Message) (records : List Record) :
    requestsOf (roundSent tools messages records) = [messages] ∧
      toolsOf (roundSent tools messages records) = records.flatMap fun r => invoked tools r.call := by
  have htool : ∀ s ∈ records.flatMap fun r => invoked tools r.call, s.isTool = true := fun s hs => by
    obtain ⟨r, -, hr⟩ := List.mem_flatMap.1 hs
    exact isTool_of_mem_invoked hr
  have hself := toolsOf_eq_self htool
  constructor
  · show messages :: requestsOf _ = _
    rw [hself.2]
  · show toolsOf _ = _
    exact hself.1

/-- A round that is the last. -/
theorem Sends.last (tools : List AgentTool) (n : ℕ) (messages : List Message) (records : List Record) :
    Sends tools (n + 1) messages records (roundSent tools messages records) := by
  obtain ⟨hrequests, htools⟩ := requestsOf_roundSent tools messages records
  refine ⟨by simp [hrequests], fun k request hk => ?_, htools⟩
  rw [hrequests, List.getElem?_singleton] at hk
  split_ifs at hk with hzero
  rw [hzero, ← Option.some.inj hk]
  exact .zero _ _

/-- A round that goes on. -/
theorem Sends.round {tools : List AgentTool} {n : ℕ} {messages block : List Message}
    {first records : List Record} {sent : List Sent} (hblock : BlockOf first block)
    (h : Sends tools n (messages ++ block) records sent) :
    Sends tools (n + 1) messages (first ++ records) (roundSent tools messages first ++ sent) := by
  obtain ⟨hrequests, htools⟩ := requestsOf_roundSent tools messages first
  refine ⟨?_, fun k request hk => ?_, ?_⟩
  · rw [requestsOf_append, hrequests]
    simpa using h.count
  · rw [requestsOf_append, hrequests] at hk
    cases k with
    | zero =>
      rw [← Option.some.inj hk]
      exact .zero _ _
    | succ k => exact (h.requests k request hk).succ hblock
  · rw [toolsOf_append, htools, h.tools, List.flatMap_append]

/-- **What the rounds send**; what they come to is what it is without the record. -/
theorem recorded_rounds (p : Params) (tools : List AgentTool) (maxRounds : ℤ) (n : ℕ)
    (messages : List Message) (text : Bytes) (w : Recorded W) :
    ∃ sent, rounds servers.recorded (recordedStream stream) p tools maxRounds n messages text w =
        ((rounds servers stream p tools maxRounds n messages text w.1).1,
          (rounds servers stream p tools maxRounds n messages text w.1).2, w.2 ++ sent) ∧
      Sends tools n messages (rounds servers stream p tools maxRounds n messages text w.1).1.records
        sent := by
  induction n generalizing messages text w with
  | zero =>
    exact ⟨[], by simp [rounds, Servers.recorded], Nat.le_refl _, fun k request hk => by simp [requestsOf] at hk,
      rfl⟩
  | succ n ih =>
    rcases hs : stream messages w.1 with ⟨⟨deltas, _ | ⟨answer, toolCalls⟩⟩, v⟩
    · refine ⟨roundSent tools messages [], ?_, ?_⟩
      · simp only [rounds, recordedStream, hs, roundSent, List.flatMap_nil]
      · simp only [rounds, hs]
        exact .last tools n messages []
    · by_cases hcalls : llmAgentCalls (cstr (llmClientCallsJson toolCalls)) = []
      · refine ⟨roundSent tools messages [], ?_, ?_⟩
        · simp only [rounds, recordedStream, hs, hcalls, if_true, roundSent, List.flatMap_nil]
        · simp only [rounds, hs, hcalls, if_true]
          exact .last tools n messages []
      · by_cases hcancelled : (runCalls servers p tools
            (llmAgentCalls (cstr (llmClientCallsJson toolCalls))) v).1.any Record.cancelled = true
        · refine ⟨roundSent tools messages (runCalls servers p tools
            (llmAgentCalls (cstr (llmClientCallsJson toolCalls))) v).1, ?_, ?_⟩
          · simp only [rounds, recordedStream, hs, if_neg hcalls, recorded_runCalls, hcancelled, if_true,
              List.append_assoc, List.singleton_append, roundSent]
          · simp only [rounds, hs, if_neg hcalls, hcancelled, if_true]
            exact .last tools n messages _
        · have hblock := block_of_round servers p tools answer v hcalls
            (cstr_llmClientCallsJson toolCalls) (by simpa using hcancelled)
          set records := (runCalls servers p tools
            (llmAgentCalls (cstr (llmClientCallsJson toolCalls))) v).1 with hrecords
          obtain ⟨sent, hsent, hsends⟩ := ih
            (messages ++ ⟨ascii "assistant", answer, cstr (llmClientCallsJson toolCalls), []⟩ ::
              records.filterMap Record.reply)
            (text ++ roundText (llmAgentTap (text.getLast?.any fun b => !isSpaceByte b) deltas).2
              answer) ((runCalls servers p tools
                (llmAgentCalls (cstr (llmClientCallsJson toolCalls))) v).2,
                w.2 ++ roundSent tools messages records)
          refine ⟨roundSent tools messages records ++ sent, ?_, ?_⟩
          · simp only [rounds, recordedStream, hs, if_neg hcalls, recorded_runCalls, ← hrecords,
              if_neg hcancelled, roundSent, List.append_assoc, List.cons_append,
              List.nil_append] at hsent ⊢
            rw [hsent]
          · simp only [rounds, hs, if_neg hcalls, ← hrecords, if_neg hcancelled, Outcome.after,
              List.append_assoc, List.nil_append, List.cons_append]
            exact hsends.round hblock

/-- **What a run sends**, with the tools it gathered; what it comes to is what it is without the
record. -/
theorem recorded_llmAgentRun (builtins : List Tool) (clients : List Bool) (p : Params)
    (enabled : List Bytes) (maxRounds : ℤ) (messages : List Message) (w : W) :
    ∃ sent available,
      llmAgentRun servers.recorded (recordedStream stream) builtins clients p enabled maxRounds
          messages (w, []) =
        ((llmAgentRun servers stream builtins clients p enabled maxRounds messages w).1,
          (llmAgentRun servers stream builtins clients p enabled maxRounds messages w).2, sent) ∧
      Sends available maxRounds.toNat messages
        (llmAgentRun servers stream builtins clients p enabled maxRounds messages w).1.records sent ∧
      ∀ found, (llmAgentGather servers builtins clients w).1 = some found → found = available := by
  have hnothing : ∀ available, Sends available maxRounds.toNat messages [] [] := fun _ =>
    ⟨Nat.zero_le _, fun k request hk => by simp [requestsOf] at hk, rfl⟩
  unfold llmAgentRun
  rw [recorded_llmAgentGather, beside]
  rcases llmAgentGather servers builtins clients w with ⟨_ | available, v⟩
  · exact ⟨[], [], rfl, hnothing [], fun found hfound => by simp at hfound⟩
  · have hfound : ∀ found, (some available, v).1 = some found → found = available :=
      fun found hfound => (Option.some.inj hfound).symm
    dsimp only
    have hset : servers.recorded.setParams (tooled p available enabled) (v, []) =
        beside (servers.setParams (tooled p available enabled)) (v, []) := rfl
    rw [hset, beside]
    rcases servers.setParams (tooled p available enabled) v with ⟨_ | _, v'⟩
    · exact ⟨[], available, rfl, hnothing available, hfound⟩
    · obtain ⟨sent, hrun, hsends⟩ := recorded_rounds servers stream p available maxRounds
        maxRounds.toNat messages [] (v', [])
      exact ⟨sent, available, hrun, hsends, hfound⟩

/-! ### The tools gathered -/

/-- **What every addition keeps holds of the tools gathered**; a built-in tool joins under its place. -/
theorem gathered_induction {Q : List AgentTool → Prop} {builtins : List Tool} (hnil : Q [])
    (hadd : ∀ server tools tool, (∀ i, server = .builtin i → builtins[i]? = some tool) → Q tools →
      Q (addTool server tools tool))
    {clients : List Bool} {available : List AgentTool} {w : W}
    (h : (llmAgentGather servers builtins clients w).1 = some available) : Q available := by
  have hfold : ∀ (server : Server) (listed : List Tool) (tools : List AgentTool),
      (∀ i, server ≠ .builtin i) → Q tools → Q (listed.foldl (addTool server) tools) := by
    intro server listed
    induction listed with
    | nil => exact fun _ _ htools => htools
    | cons tool listed ih =>
      exact fun tools hserver htools =>
        ih _ hserver (hadd _ _ _ (fun i hi => absurd hi (hserver i)) htools)
  have hown : ∀ (ts : List (Tool × ℕ)) (tools : List AgentTool),
      (∀ t ∈ ts, builtins[t.2]? = some t.1) → Q tools →
      Q (ts.foldl (fun tools t => addTool (.builtin t.2) tools t.1) tools) := by
    intro ts
    induction ts with
    | nil => exact fun _ _ htools => htools
    | cons t ts ih =>
      intro tools hts htools
      obtain ⟨ht, hts⟩ := List.forall_mem_cons.1 hts
      exact ih _ hts (hadd _ _ _ (fun i hi => by rwa [← Server.builtin.inj hi]) htools)
  have hgather : ∀ (clients : List Bool) (i : ℕ) (tools : List AgentTool) (w : W) found,
      Q tools → (gatherMcp servers i clients tools w).1 = some found → Q found := by
    intro clients
    induction clients with
    | nil => exact fun i tools w found htools hfound => Option.some.inj hfound ▸ htools
    | cons client clients ih =>
      intro i tools w found htools hfound
      rw [gatherMcp] at hfound
      split at hfound
      · exact ih _ _ _ _ (hfold _ _ _ (by simp) htools) hfound
      · split at hfound
        · simp at hfound
        · exact ih _ _ _ _ htools hfound
  have hfirst := hown builtins.zipIdx [] (fun t ht => List.mk_mem_zipIdx_iff_getElem?.1 ht) hnil
  unfold llmAgentGather at h
  dsimp only at h
  split at h
  · simp at h
  · rename_i tools w' hlisted
    have htools := hgather clients 0 _ w tools hfirst (congrArg Prod.fst hlisted)
    split at h
    · exact Option.some.inj h ▸ hfold _ _ _ (by simp) htools
    · split_ifs at h
      exact Option.some.inj h ▸ htools

/-- A built-in tool stands in the list under its place. -/
theorem placed_llmAgentGather {builtins : List Tool} {clients : List Bool}
    {available : List AgentTool} {w : W}
    (h : (llmAgentGather servers builtins clients w).1 = some available) :
    ∀ entry ∈ available, ∀ i, entry.server = .builtin i → builtins[i]? = some entry.tool := by
  refine gathered_induction servers (Q := fun tools => ∀ entry ∈ tools, ∀ i,
    entry.server = .builtin i → builtins[i]? = some entry.tool) (List.forall_mem_nil _)
    (fun server tools tool hserver htools => ?_) h
  unfold addTool
  split_ifs
  · exact htools
  · intro entry hentry
    rcases List.mem_append.1 hentry with hentry | hentry
    · exact htools entry hentry
    · rw [List.mem_singleton.1 hentry]
      exact hserver

/-- **A tool that a call runs is the one it names.** -/
theorem tool_of_invoked {builtins : List Tool} {clients : List Bool} {available : List AgentTool}
    {w : W} (h : (llmAgentGather servers builtins clients w).1 = some available) {call : Call}
    {s : Sent} (hs : s ∈ invoked available call) : s.tool builtins = some call.name := by
  have hplaced := placed_llmAgentGather servers h
  unfold invoked at hs
  split at hs
  · simp at hs
  · rename_i entry hentry
    rw [List.mem_singleton.1 hs]
    have hname : entry.tool.name = call.name := by simpa using List.find?_some hentry
    cases hserver : entry.server with
    | builtin i =>
      show builtins[i]?.map Tool.name = some call.name
      rw [hplaced entry (List.mem_of_find?_eq_some hentry) i hserver, Option.map_some, hname]
    | mcp i => rfl
    | endpoint => rfl

end Run

end Agent
end S2S
