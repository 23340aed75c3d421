/-
# The messages a request carries

The list a turn starts from, as `conn_answer` of `src/s2s-conversation.cpp`
builds it.  The calls of a message are a text the client wrote (`Carried`), also of
those that the rounds of `llm_agent_run` add (`Carries.carried`), and the tools of a
request an array of the definitions that were listed.
-/

import S2S.Agent.Recorded
import S2S.Llm.ReadBack

namespace S2S
namespace Agent

open Json Http Llm

/-- `llm_push`: two user messages in a row are one. -/
def llmPush (messages : List Message) (message : Message) : List Message :=
  match messages.getLast? with
  | some last =>
    if message.role = ascii "user" ∧ last.role = ascii "user" then
      messages.dropLast ++ [{ last with content := last.content ++ 0x20 :: message.content }]
    else messages ++ [message]
  | none => messages ++ [message]

/-- `rt_message`: a message of the history and the item it belongs to. -/
structure HistoryMessage where
  role : Bytes
  item : Bytes
  content : Bytes

/-- The list a turn starts from: the system prompt, the history without the
turn's own earlier revisions, the transcript. -/
def turnMessages (systemPrompt : Bytes) (history : List HistoryMessage) (item transcript : Bytes) :
    List Message :=
  let system := if systemPrompt = [] then [] else [⟨ascii "system", systemPrompt, [], []⟩]
  let past := history.filter fun m => m.role ≠ ascii "user" ∨ m.item ≠ item
  llmPush (past.foldl (fun messages m => llmPush messages ⟨m.role, m.content, [], []⟩) system)
    ⟨ascii "user", transcript, [], []⟩

/-- The calls of every message are a text the client wrote. -/
def Carried (messages : List Message) : Prop :=
  ∀ m ∈ messages, ∃ calls, m.toolCalls = llmClientCallsJson calls

theorem Carried.append {a b : List Message} (ha : Carried a) (hb : Carried b) : Carried (a ++ b) :=
  fun m hm => (List.mem_append.1 hm).elim (ha m) (hb m)

theorem carried_singleton {m : Message} (h : m.toolCalls = []) : Carried [m] := fun m' hm => by
  obtain rfl : m' = m := List.mem_singleton.1 hm
  exact ⟨[], h⟩

theorem Carried.llmPush {messages : List Message} (h : Carried messages) {m : Message}
    (hm : m.toolCalls = []) : Carried (llmPush messages m) := by
  unfold Agent.llmPush
  split
  · rename_i last hlast
    split_ifs
    · have hmem : last ∈ messages := List.mem_of_getLast? hlast
      refine Carried.append (fun x hx => h x (List.mem_of_mem_dropLast hx)) fun x hx => ?_
      obtain rfl := List.mem_singleton.1 hx
      exact h last hmem
    · exact h.append (carried_singleton hm)
  · exact h.append (carried_singleton hm)

theorem carried_turnMessages (systemPrompt : Bytes) (history : List HistoryMessage)
    (item transcript : Bytes) : Carried (turnMessages systemPrompt history item transcript) := by
  have hfold : ∀ (past : List HistoryMessage) (messages : List Message), Carried messages →
      Carried (past.foldl (fun messages m => llmPush messages ⟨m.role, m.content, [], []⟩)
        messages) := by
    intro past
    induction past with
    | nil => exact fun _ h => h
    | cons m past ih => exact fun messages h => ih _ (h.llmPush rfl)
  refine (hfold _ _ ?_).llmPush rfl
  split_ifs
  · exact fun m hm => absurd hm (by simp)
  · exact carried_singleton rfl

theorem forall_right_of_forall₂ {α β : Type} {R : α → β → Prop} {P : β → Prop}
    (hP : ∀ a b, R a b → P b) {as : List α} {bs : List β} (h : List.Forall₂ R as bs) : ∀ b ∈ bs, P b := by
  induction h with
  | nil => simp
  | cons hab _ ih => exact List.forall_mem_cons.2 ⟨hP _ _ hab, ih⟩

/-- What a round adds is carried. -/
theorem BlockOf.carried {records : List Record} {block : List Message} (h : BlockOf records block) :
    Carried block := by
  obtain ⟨answer, json, calls, replies, rfl, -, -, hanswers⟩ := h.whole
  refine List.forall_mem_cons.2 ⟨?_, forall_right_of_forall₂ ?_ hanswers⟩
  · obtain ⟨written, hwritten⟩ := h.written
    exact ⟨written, Option.some.inj hwritten⟩
  · exact fun call reply hanswer => ⟨[], hanswer.2.2⟩

/-- **The requests of a turn keep its messages carried.** -/
theorem Carries.carried {count : ℕ} {records : List Record} {messages request : List Message}
    (h : Carries count records messages request) (hmessages : Carried messages) : Carried request := by
  obtain ⟨rounds, blocks, -, -, hblocks, rfl⟩ := h
  refine hmessages.append fun m hm => ?_
  obtain ⟨block, hblock, hm⟩ := List.mem_flatten.1 hm
  have hall : ∀ block ∈ blocks, Carried block :=
    forall_right_of_forall₂ (fun _ _ hof => BlockOf.carried hof) hblocks
  exact hall block hblock m hm

theorem exists_forall₂_parse (ws : List Bytes) (h : ∀ w ∈ ws, (parse w).isSome) :
    ∃ vs, List.Forall₂ (fun w v => parse w = some v) ws vs := by
  induction ws with
  | nil => exact ⟨[], .nil⟩
  | cons w ws ih =>
    obtain ⟨hw, hws⟩ := List.forall_mem_cons.1 h
    obtain ⟨v, hv⟩ := Option.isSome_iff_exists.1 hw
    obtain ⟨vs, hvs⟩ := ih hws
    exact ⟨v :: vs, .cons hv hvs⟩

/-- The tools a run offers are a JSON array when their definitions are JSON. -/
theorem tooled_tools (p : Params) (tools : List AgentTool) (enabled : List Bytes)
    (h : ∀ entry ∈ tools, (parse entry.tool.definition).isSome) :
    (tooled p tools enabled).tools = [] ∨ (parse (tooled p tools enabled).tools).isSome := by
  unfold tooled
  dsimp only
  split_ifs with hoff
  · exact Or.inl rfl
  · obtain ⟨vs, hvs⟩ := exists_forall₂_parse
      ((offered tools enabled).map fun entry => entry.tool.definition) fun w hw => by
        obtain ⟨entry, he, rfl⟩ := List.mem_map.1 hw
        exact h entry (List.mem_filter.1 he).1
    right
    rw [llmAgentDefinitions, parse_arr hvs]
    rfl

end Agent
end S2S
