/-
# Which tools a run runs

A session names the tools it checked, and a run offers the model these and no
others.  What it runs is another matter: a call is looked up among everything
the servers list (`llm_agent_call`), so the model reaches a tool by its name
whether it was offered or not.  A run holds to the list of the session, whatever
the model writes, exactly when every tool the servers list that the model can
name is on it (`enforced_iff`).  What runs is what the servers are asked to run,
not what the agent takes down.
-/

import S2S.Agent.Recorded
import S2S.Llm.ReadBack

namespace S2S
namespace Agent

open Json Http Llm

/-! ### The names the model can write -/

/-- The call the agent reads of one the model wrote. -/
def cutCall (call : ToolCall) : Call := ⟨cstr call.id, cstr call.name, cstr call.arguments⟩

theorem llmAgentCalls_of_parse {json : Bytes} {calls : List ToolCall}
    (h : parse json = some (.arr (calls.map ToolCall.value))) :
    llmAgentCalls json = calls.map cutCall := by
  rw [llmAgentCalls, h]
  simp only [List.map_map]
  rfl

/-- Whatever the model writes, the names the agent reads are plain. -/
theorem plain_of_mem_llmAgentCalls {calls : List ToolCall} {call : Call}
    (h : call ∈ llmAgentCalls (cstr (llmClientCallsJson calls))) : Plain call.name := by
  rw [cstr_llmClientCallsJson] at h
  rcases llmClientCallsJson_cases calls with hnil | ⟨hparse, hvalid⟩
  · rw [hnil] at h
    simp [llmAgentCalls, show parse [] = none from rfl] at h
  · rw [llmAgentCalls_of_parse hparse] at h
    obtain ⟨tc, htc, rfl⟩ := List.mem_map.1 h
    exact ⟨((callDraft_write_iff tc).1 (hvalid tc htc)).2.1, zero_not_mem_cstr _⟩

/-- A call the model writes to name `name`: an empty name is one that starts with
a zero byte. -/
def naming (name : Bytes) : ToolCall := ⟨ascii "1", if name = [] then [0] else name, []⟩

theorem llmAgentCalls_naming {name : Bytes} (h : Plain name) :
    llmAgentCalls (cstr (llmClientCallsJson [naming name])) = [⟨ascii "1", name, []⟩] := by
  have hname : cstr (naming name).name = name := by
    unfold naming
    split_ifs with hn
    · rw [hn]
      rfl
    · exact cstr_eq_self_iff.2 h.2
  have hne : (naming name).name ≠ [] := by
    unfold naming
    split_ifs with hn <;> simp [hn]
  have hfilter : [naming name].filter (fun call => call.name ≠ []) = [naming name] := by
    simp [hne]
  have hwrite : ∀ call ∈ [naming name], (callDraft call).write.isSome = true := by
    rw [List.forall_mem_singleton, callDraft_write_iff, hname]
    exact ⟨(by decide : validUtf8 (cstr (ascii "1")) = true), h.1,
      (by decide : validUtf8 (cstr []) = true)⟩
  have hparse := parse_llmClientCallsJson (by rw [hfilter]; simp) hwrite
  rw [hfilter] at hparse
  rw [cstr_llmClientCallsJson, llmAgentCalls_of_parse hparse, List.map_singleton, cutCall, hname]
  rfl

/-! ### A run, call by call -/

/-- What a call of a run comes to: on a name the list does not have it is answered
with an error, unless the turn was cancelled. -/
structure Faithful (tools : List AgentTool) (r : Record) : Prop where
  name : Plain r.call.name
  answered : (tools.find? fun entry => entry.tool.name = r.call.name) = none → r.cancelled = false →
    ∃ reason, r.reply = some ⟨ascii "tool", ascii "Error: " ++ reason, [], r.call.id⟩

section Run

variable {W : Type} (servers : Servers W)

theorem llmAgentCall_nobody (tools : List AgentTool) (call : Call) (w : W)
    (h : (tools.find? fun entry => entry.tool.name = call.name) = none) :
    (llmAgentCall servers tools call w).1 = none := by
  unfold llmAgentCall
  rw [h]

theorem runCall_faithful (p : Params) (tools : List AgentTool) (call : Call) (w : W)
    (hname : Plain call.name) : Faithful tools (runCall servers p tools call w).1 := by
  have hcall := runCall_call servers p tools call w
  refine ⟨by rw [hcall]; exact hname, fun hnobody hcancelled => ?_⟩
  rw [hcall] at hnobody ⊢
  have hresult := llmAgentCall_nobody servers tools call (servers.clock w).2 hnobody
  unfold runCall at hcancelled ⊢
  dsimp only at hcancelled ⊢
  generalize llmAgentCall servers tools call (servers.clock w).2 = called at hresult hcancelled ⊢
  obtain ⟨result, w'⟩ := called
  obtain rfl : result = none := hresult
  dsimp only at hcancelled ⊢
  split at hcancelled
  · simp at hcancelled
  · exact ⟨_, rfl⟩

theorem runCalls_faithful (p : Params) (tools : List AgentTool) (calls : List Call) (w : W)
    (hcalls : ∀ call ∈ calls, Plain call.name) :
    ∀ r ∈ (runCalls servers p tools calls w).1, Faithful tools r := by
  induction calls generalizing w with
  | nil => simp [runCalls]
  | cons call calls ih =>
    obtain ⟨hcall, hcalls⟩ := List.forall_mem_cons.1 hcalls
    have hr := runCall_faithful servers p tools call w hcall
    rw [runCalls]
    dsimp only
    split_ifs
    · exact List.forall_mem_singleton.2 hr
    · exact List.forall_mem_cons.2 ⟨hr, ih _ hcalls⟩

/-- **Every call of a run is faithful to the list**, over every round. -/
theorem rounds_faithful (stream : Stream W) (p : Params) (tools : List AgentTool) (maxRounds : ℤ)
    (n : ℕ) (messages : List Message) (text : Bytes) (w : W) :
    ∀ r ∈ (rounds servers stream p tools maxRounds n messages text w).1.records,
      Faithful tools r := by
  induction n generalizing messages text w with
  | zero => simp [rounds]
  | succ n ih =>
    rw [rounds]
    dsimp only
    split
    · simp
    · rename_i answer toolCalls hresult
      split_ifs with hcalls hcancelled
      · simp
      · exact runCalls_faithful servers p tools _ _ fun call hcall => plain_of_mem_llmAgentCalls hcall
      · intro r hr
        rcases List.mem_append.1 hr with hr | hr
        · exact runCalls_faithful servers p tools _ _
            (fun call hcall => plain_of_mem_llmAgentCalls hcall) r hr
        · exact ih _ _ _ r hr

end Run

/-! ### The list of the session -/

/-- **What the session's list asks of a run.**  Every tool that runs is on it.  Call by call, what
runs is the tool the call names; and a call of a name that is not on the list runs nothing and is
answered with an error, unless the turn was cancelled. -/
structure Enforced (builtins : List Tool) (enabled : List Bytes) (records : List Record)
    (sent : List Sent) : Prop where
  ran : ∀ s ∈ toolsOf sent, ∃ name ∈ enabled, s.tool builtins = some name
  calls : ∃ parts : List (List Sent), toolsOf sent = parts.flatten ∧
    List.Forall₂ (fun r part => (∀ s ∈ part, s.tool builtins = some r.call.name) ∧
      (r.call.name ∉ enabled → part = [])) records parts
  answered : ∀ r ∈ records, r.call.name ∉ enabled → r.cancelled = false →
    ∃ reason, r.reply = some ⟨ascii "tool", ascii "Error: " ++ reason, [], r.call.id⟩

/-- A call of a name that is not on the list finds nothing in tools that are on it. -/
theorem Faithful.nobody {tools : List AgentTool} {enabled : List Bytes} {r : Record}
    (h : Faithful tools r) (htools : ∀ t ∈ tools, Plain t.tool.name → t.tool.name ∈ enabled)
    (hname : r.call.name ∉ enabled) :
    (tools.find? fun entry => entry.tool.name = r.call.name) = none := by
  refine List.find?_eq_none.2 fun t ht heq => hname ?_
  have heq : t.tool.name = r.call.name := of_decide_eq_true heq
  exact heq ▸ htools t ht (heq ▸ h.name)

section Run

variable {W : Type} (servers : Servers W)

/-- A model that answers every request with one call, of `name`. -/
def calling (name : Bytes) : Stream W := fun _ w => (⟨[], some ([], [naming name])⟩, w)

/-- The first round of that model calls the tool. -/
theorem rounds_calling (p : Params) (tools : List AgentTool) (maxRounds : ℤ) (n : ℕ)
    (messages : List Message) (w : W) (name : Bytes) (h : Plain name) :
    ∃ r ∈ (rounds servers (calling name) p tools maxRounds (n + 1) messages [] w).1.records,
      r.call = ⟨ascii "1", name, []⟩ := by
  refine ⟨(runCall servers p tools ⟨ascii "1", name, []⟩ w).1, ?_, runCall_call ..⟩
  rw [rounds]
  simp only [calling, llmAgentCalls_naming h, runCalls]
  split_ifs <;> simp_all [Outcome.after]

/-- A run of a list that is all on that of the session. -/
theorem enforced_of_tools {builtins : List Tool} {enabled : List Bytes} {available : List AgentTool}
    {records : List Record} {sent : List Sent}
    (hsent : toolsOf sent = records.flatMap fun r => invoked available r.call)
    (htool : ∀ call, ∀ s ∈ invoked available call, s.tool builtins = some call.name)
    (hfaithful : ∀ r ∈ records, Faithful available r)
    (htools : ∀ t ∈ available, Plain t.tool.name → t.tool.name ∈ enabled) :
    Enforced builtins enabled records sent := by
  have hnothing : ∀ r ∈ records, r.call.name ∉ enabled → invoked available r.call = [] := by
    intro r hr hname
    rw [invoked, (hfaithful r hr).nobody htools hname]
  refine ⟨fun s hs => ?_, ⟨records.map fun r => invoked available r.call, ?_, ?_⟩, ?_⟩
  · rw [hsent] at hs
    obtain ⟨r, hr, hs⟩ := List.mem_flatMap.1 hs
    refine ⟨r.call.name, ?_, htool _ s hs⟩
    by_contra hname
    rw [hnothing r hr hname] at hs
    simp at hs
  · rw [hsent, List.flatMap_def]
  · rw [List.forall₂_map_right_iff]
    exact List.forall₂_same.2 fun r hr => ⟨htool r.call, hnothing r hr⟩
  · exact fun r hr hname => (hfaithful r hr).answered ((hfaithful r hr).nobody htools hname)

/-- A run with calls got as far as its first round. -/
theorem reaches_of_records (stream : Stream W) (builtins : List Tool) (clients : List Bool) (p : Params)
    (enabled : List Bytes) (maxRounds : ℤ) (messages : List Message) (w : W)
    (h : (llmAgentRun servers stream builtins clients p enabled maxRounds messages w).1.records ≠ []) :
    ∃ available w' w'', llmAgentGather servers builtins clients w = (some available, w') ∧
      servers.setParams (tooled p available enabled) w' = (true, w'') ∧ 0 < maxRounds ∧
      (llmAgentRun servers stream builtins clients p enabled maxRounds messages w).1.records =
        (rounds servers stream p available maxRounds maxRounds.toNat messages [] w'').1.records := by
  unfold llmAgentRun at h ⊢
  rcases hgather : llmAgentGather servers builtins clients w with ⟨_ | available, w'⟩
  · simp [hgather] at h
  · rw [hgather] at h
    dsimp only at h ⊢
    rcases hset : servers.setParams (tooled p available enabled) w' with ⟨_ | _, w''⟩
    · simp [hset] at h
    · rw [hset] at h
      refine ⟨available, w', w'', rfl, hset, ?_, rfl⟩
      by_contra hrounds
      have hzero : maxRounds.toNat = 0 := by omega
      simp [hzero, rounds] at h

/-- **A run holds to the list of the session**, whatever the model writes and
however the servers answer, exactly when every tool they list that a model can
name is on it.  The right side is about the tools gathered, in a run that gets
as far as its first round. -/
theorem enforced_iff (builtins : List Tool) (clients : List Bool) (p : Params)
    (enabled : List Bytes) (maxRounds : ℤ) (messages : List Message) (w : W) :
    (∀ stream : Stream W, Enforced builtins enabled
        (llmAgentRun servers.recorded (recordedStream stream) builtins clients p enabled maxRounds
          messages (w, [])).1.records
        (llmAgentRun servers.recorded (recordedStream stream) builtins clients p enabled maxRounds
          messages (w, [])).2.2) ↔
      ∀ available w', llmAgentGather servers builtins clients w = (some available, w') →
        (servers.setParams (tooled p available enabled) w').1 = true → 0 < maxRounds →
        ∀ t ∈ available, Plain t.tool.name → t.tool.name ∈ enabled := by
  constructor
  · intro h available w' hgather hset hrounds t ht hname
    obtain ⟨n, hn⟩ : ∃ n, maxRounds.toNat = n + 1 := ⟨maxRounds.toNat - 1, by omega⟩
    have hrun := h (calling t.tool.name)
    obtain ⟨sent, gathered, heq, hsends, hfound⟩ := recorded_llmAgentRun servers
      (calling t.tool.name) builtins clients p enabled maxRounds messages w
    rw [heq] at hrun
    have hgathered : (llmAgentGather servers builtins clients w).1 = some available := by rw [hgather]
    obtain rfl := hfound available hgathered
    -- The first call of that model: the list has its name, so something runs.
    obtain ⟨r, hr, hcall⟩ : ∃ r ∈ (llmAgentRun servers (calling t.tool.name) builtins clients p enabled
        maxRounds messages w).1.records, r.call = ⟨ascii "1", t.tool.name, []⟩ := by
      unfold llmAgentRun
      rcases hs : servers.setParams (tooled p available enabled) w' with ⟨_ | _, w''⟩
      · simp [hs] at hset
      · simp only [hgather, hs, hn]
        exact rounds_calling servers p available maxRounds n messages w'' _ hname
    obtain ⟨entry, hentry⟩ : ∃ entry, (available.find? fun e => e.tool.name = r.call.name) = some entry := by
      refine Option.isSome_iff_exists.1 (List.find?_isSome.2 ⟨t, ht, ?_⟩)
      rw [hcall]
      simp
    have hmem : entry.server.sent r.call ∈ invoked available r.call := by
      rw [invoked, hentry]
      exact List.mem_singleton_self _
    obtain ⟨name, hname, htool⟩ := hrun.ran (entry.server.sent r.call) (by
      rw [hsends.tools]
      exact List.mem_flatMap.2 ⟨r, hr, hmem⟩)
    rw [tool_of_invoked servers hgathered hmem, hcall] at htool
    have heq : t.tool.name = name := Option.some.inj htool
    exact heq ▸ hname
  · intro h stream
    obtain ⟨sent, gathered, heq, hsends, hfound⟩ :=
      recorded_llmAgentRun servers stream builtins clients p enabled maxRounds messages w
    rw [heq]
    by_cases hnone : (llmAgentRun servers stream builtins clients p enabled maxRounds messages w).1.records = []
    · rw [hnone] at hsends ⊢
      have hsent : toolsOf sent = List.flatMap (fun r : Record => invoked [] r.call) [] := hsends.tools
      exact enforced_of_tools hsent (by simp [invoked]) (by simp) (by simp)
    · obtain ⟨available, w', w'', hgather, hset, hrounds, hrun⟩ :=
        reaches_of_records servers stream builtins clients p enabled maxRounds messages w hnone
      have hgathered : (llmAgentGather servers builtins clients w).1 = some available := by rw [hgather]
      obtain rfl := hfound available hgathered
      refine enforced_of_tools hsends.tools (fun call s => tool_of_invoked servers hgathered) ?_
        (h available w' hgather (by rw [hset]) hrounds)
      rw [hrun]
      exact rounds_faithful servers stream p available maxRounds _ messages [] w''

end Run

/-- An endpoint that lists two tools and runs any. -/
def twoTools : Servers Unit where
  mcpClientTools _ w := (none, w)
  llmClientTools w := (some [⟨ascii "get_time", []⟩, ⟨ascii "exec_shell", []⟩], w)
  setParams _ w := (true, w)
  builtin _ _ w := (none, w)
  mcpClientCall _ _ _ w := (none, w)
  llmClientToolCall _ _ w := (some (ascii "done"), w)
  cancelled w := (false, w)
  clock w := (0, w)
  recordError _ w := w
  lastError _ := []

/-- What the first round of a model that calls `exec_shell` comes to there. -/
theorem records_twoTools (messages : List Message) :
    ∃ r ∈ (llmAgentRun twoTools (calling (ascii "exec_shell")) [] [] {} [ascii "get_time"] 1 messages
        ()).1.records, r.call = ⟨ascii "1", ascii "exec_shell", []⟩ := by
  have hgather : llmAgentGather twoTools [] [] () = (some [⟨⟨ascii "get_time", []⟩, .endpoint⟩,
      ⟨⟨ascii "exec_shell", []⟩, .endpoint⟩], ()) := by decide
  have hset : ∀ p, twoTools.setParams p () = (true, ()) := fun _ => rfl
  have hone : (1 : ℤ).toNat = 0 + 1 := rfl
  simp only [llmAgentRun, hgather, hset, hone]
  exact rounds_calling twoTools {} _ 1 0 messages () (ascii "exec_shell") (by decide)

/-- The session checked one of them, the model calls the other: it runs. -/
theorem unchecked_tool_runs :
    ∃ sent, (llmAgentRun twoTools.recorded (recordedStream (calling (ascii "exec_shell"))) [] [] {}
        [ascii "get_time"] 1 [⟨ascii "user", ascii "What time is it?", [], []⟩] ((), [])).2.2 = sent ∧
      .llmClientToolCall (ascii "exec_shell") [] ∈ sent ∧
      ¬Enforced [] [ascii "get_time"]
        (llmAgentRun twoTools.recorded (recordedStream (calling (ascii "exec_shell"))) [] [] {}
          [ascii "get_time"] 1 [⟨ascii "user", ascii "What time is it?", [], []⟩] ((), [])).1.records
          sent := by
  obtain ⟨sent, gathered, heq, hsends, hfound⟩ := recorded_llmAgentRun twoTools
    (calling (ascii "exec_shell")) [] [] {} [ascii "get_time"] 1
    [⟨ascii "user", ascii "What time is it?", [], []⟩] ()
  obtain rfl := hfound [⟨⟨ascii "get_time", []⟩, .endpoint⟩, ⟨⟨ascii "exec_shell", []⟩, .endpoint⟩]
    (by decide)
  obtain ⟨r, hr, hcall⟩ := records_twoTools [⟨ascii "user", ascii "What time is it?", [], []⟩]
  have hran : Sent.llmClientToolCall (ascii "exec_shell") [] ∈ toolsOf sent := by
    rw [hsends.tools]
    refine List.mem_flatMap.2 ⟨r, hr, ?_⟩
    rw [hcall]
    decide
  refine ⟨sent, by rw [heq], List.mem_of_mem_filter hran, fun henforced => ?_⟩
  obtain ⟨name, hname, htool⟩ := henforced.ran _ hran
  rw [List.mem_singleton.1 hname] at htool
  exact absurd (Option.some.inj htool) (by decide)

end Agent
end S2S
