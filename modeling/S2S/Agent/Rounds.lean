/-
# The requests of a run

What `llm_agent_run` sends: each request carries the messages of the caller and
then one block for each round before it, an assistant message with its calls and a
result for each of them, in order (`Carries`).  An endpoint refuses a conversation
where one call lacks its result, so the law has to hold whatever a call came to,
and a run that is cut inside a block sends nothing more.  The tools have names of
their own, so that a call runs on the server whose tool was offered
(`requests_lawful`).  Where the history is plain the requests of a turn read back
as their messages (`requests_readBack_iff`).
-/

import S2S.Agent.Messages

namespace S2S
namespace Agent

open Json Http Llm

variable {W : Type}

section Run

variable (servers : Servers W) (stream : Stream W)

/-! ### The names -/

/-- The names of a list are taken once. -/
abbrev Apart (tools : List AgentTool) : Prop := (tools.map fun entry => entry.tool.name).Nodup

theorem Apart.addTool {tools : List AgentTool} (h : Apart tools) (server : Server) (tool : Tool) :
    Apart (addTool server tools tool) := by
  unfold Agent.addTool
  split_ifs with hknown
  · exact h
  · unfold Apart
    rw [List.map_append, List.map_singleton, List.nodup_append]
    refine ⟨h, List.nodup_singleton _, fun name hname other hother heq => hknown ?_⟩
    obtain ⟨known, hmem, rfl⟩ := List.mem_map.1 hname
    rw [List.mem_singleton.1 hother] at heq
    exact List.any_eq_true.2 ⟨known, hmem, by simpa using heq⟩

/-- **The tools a run may call have names of their own**: a name that comes up twice keeps its first
server. -/
theorem apart_llmAgentGather {builtins : List Tool} {clients : List Bool}
    {available : List AgentTool} {w : W}
    (h : (llmAgentGather servers builtins clients w).1 = some available) : Apart available :=
  gathered_induction servers (Q := Apart) List.nodup_nil (fun server _ tool _ htools =>
    htools.addTool server tool) h

/-- With names of their own, the tool a name finds is the one that has it. -/
theorem Apart.find {tools : List AgentTool} (h : Apart tools) {entry : AgentTool}
    (hentry : entry ∈ tools) :
    tools.find? (fun known => known.tool.name = entry.tool.name) = some entry := by
  induction tools with
  | nil => simp at hentry
  | cons first tools ih =>
    obtain ⟨hfirst, htools⟩ := List.nodup_cons.1 h
    rcases List.mem_cons.1 hentry with rfl | hentry
    · simp
    · have hne : first.tool.name ≠ entry.tool.name := fun heq =>
        hfirst (List.mem_map.2 ⟨entry, hentry, heq.symm⟩)
      rw [List.find?_cons_of_neg (by simpa using hne)]
      exact ih htools hentry

/-! ### A run -/

/-- **The law of the requests.**  Whatever the model answers, the tools come to and whenever the
turn is cancelled: request number `k` of a run carries the messages of the caller and `k` whole
blocks, those of the calls made in the rounds before it; there are no more of them than rounds; and
the tools have names of their own, a call of one that was offered running on the server whose
definition of it was, and nowhere else. -/
theorem requests_lawful (builtins : List Tool) (clients : List Bool) (p : Params)
    (enabled : List Bytes) (maxRounds : ℤ) (messages : List Message) (w : W) :
    ∃ sent : List Sent,
      llmAgentRun servers.recorded (recordedStream stream) builtins clients p enabled maxRounds
          messages (w, []) =
        ((llmAgentRun servers stream builtins clients p enabled maxRounds messages w).1,
          (llmAgentRun servers stream builtins clients p enabled maxRounds messages w).2, sent) ∧
      (requestsOf sent).length ≤ maxRounds.toNat ∧
      (∀ (k : ℕ) request, (requestsOf sent)[k]? = some request → Carries k
        (llmAgentRun servers stream builtins clients p enabled maxRounds messages w).1.records
        messages request) ∧
      ∀ available, (llmAgentGather servers builtins clients w).1 = some available →
        Apart available ∧ ∃ parts : List (List Sent), toolsOf sent = parts.flatten ∧
          List.Forall₂ (fun r part => ∀ entry ∈ offered available enabled,
            r.call.name = entry.tool.name → part = [entry.server.sent r.call])
            (llmAgentRun servers stream builtins clients p enabled maxRounds messages w).1.records
            parts := by
  obtain ⟨sent, gathered, hrun, hsends, hfound⟩ :=
    recorded_llmAgentRun servers stream builtins clients p enabled maxRounds messages w
  refine ⟨sent, hrun, hsends.count, hsends.requests, fun available hgather => ?_⟩
  obtain rfl := hfound available hgather
  have hapart := apart_llmAgentGather servers hgather
  refine ⟨hapart, _, hsends.tools.trans (List.flatMap_def ..), ?_⟩
  rw [List.forall₂_map_right_iff]
  refine List.forall₂_same.2 fun r _ entry hentry hname => ?_
  rw [invoked, hname, hapart.find (List.mem_filter.1 hentry).1]

/-- **The requests of a turn read back** as their messages exactly when the settings can be sent and
their texts are plain, whatever the model and the tools answered, with any tools listed as JSON. -/
theorem requests_readBack_iff (dtoa : ℚ → Decimal) (systemPrompt : Bytes) (history : List HistoryMessage)
    (item transcript : Bytes) (builtins : List Tool) (clients : List Bool) (p : Params)
    (enabled : List Bytes) (maxRounds : ℤ) (w : W) {available : List AgentTool}
    (hlisted : ∀ entry ∈ available, (parse entry.tool.definition).isSome)
    {request : List Message}
    (hrequest : request ∈ requestsOf (llmAgentRun servers.recorded (recordedStream stream) builtins
      clients p enabled maxRounds (turnMessages systemPrompt history item transcript) (w, [])).2.2) :
    readBack (llmClientBody dtoa (tooled p available enabled) request) =
        some (request.map Message.entry) ↔
      (tooled p available enabled).Sendable ∧ ∀ m ∈ request, m.Plain := by
  obtain ⟨sent, gathered, hrun, hsends, -⟩ := recorded_llmAgentRun servers stream builtins clients p enabled
    maxRounds (turnMessages systemPrompt history item transcript) w
  rw [hrun] at hrequest
  obtain ⟨k, hk⟩ := List.mem_iff_getElem?.1 hrequest
  have hcarried := (hsends.requests k request hk).carried
    (carried_turnMessages systemPrompt history item transcript)
  exact readBack_llmClientBody_iff dtoa _ request (tooled_tools p available enabled hlisted) hcarried

end Run

end Agent
end S2S
