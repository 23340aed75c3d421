/-
# What the endpoint reads of a request

`readBack` is the endpoint's side of `llm_client_body`: the messages of the
document it was posted.  A request reads back as the messages it was made of
exactly when every text of theirs is UTF-8 and holds no zero byte
(`readBack_llmClientBody_iff`).  The contents that reach a request are not held
to that: a tool result is the body of an HTTP answer, byte for byte.
-/

import S2S.Llm.Body

namespace S2S
namespace Llm

open Json

/-- One message as the endpoint reads it, its calls as the value they are. -/
structure Entry where
  role : Bytes
  content : Bytes
  calls : Option Value
  toolCallId : Bytes

/-- The bytes of a string value. -/
def asText : Value → Option Bytes
  | .str s => some s
  | _ => none

/-- The message an entry of the array stands for. -/
def readEntry (v : Value) : Option Entry :=
  match (v.get (ascii "role")).bind asText, (v.get (ascii "content")).bind asText with
  | some role, some content =>
    match v.get (ascii "tool_call_id") with
    | none => some ⟨role, content, v.get (ascii "tool_calls"), []⟩
    | some id => (asText id).map fun id => ⟨role, content, v.get (ascii "tool_calls"), id⟩
  | _, _ => none

/-- The messages of a request, none when it is not a document that has them. -/
def readBack (body : Bytes) : Option (List Entry) :=
  match (parse body).bind fun doc => doc.get (ascii "messages") with
  | some (.arr items) => items.mapM readEntry
  | _ => none

/-- A message as it should be read. -/
def Message.entry (message : Message) : Entry where
  role := message.role
  content := message.content
  calls := if message.toolCalls = [] then none else parse message.toolCalls
  toolCallId := message.toolCallId

/-- A text that a C string and a JSON string both carry whole. -/
def Plain (s : Bytes) : Prop := validUtf8 s = true ∧ (0 : UInt8) ∉ s

instance (s : Bytes) : Decidable (Plain s) := inferInstanceAs (Decidable (_ ∧ _))

/-- Every text of a message is plain. -/
def Message.Plain (message : Message) : Prop :=
  Llm.Plain message.role ∧ Llm.Plain message.content ∧ Llm.Plain message.toolCallId

/-- Settings that can be written: names that are UTF-8 as C strings, and no
infinite sampling value. -/
structure Params.Sendable (p : Params) : Prop where
  model : validUtf8 (cstr p.model) = true
  reasoningEffort : validUtf8 (cstr p.sampling.reasoningEffort) = true
  temperature : p.sampling.temperature ≠ .inf false
  topP : p.sampling.topP ≠ .inf false
  minP : p.sampling.minP ≠ .inf false
  presencePenalty : p.sampling.presencePenalty ≠ .inf false
  frequencyPenalty : p.sampling.frequencyPenalty ≠ .inf false

/-! ### Writing -/

variable (dtoa : ℚ → Decimal)

theorem write_real_ge {x : CFloat} {q : ℚ} :
    (x.ge q = true → (Draft.real (x.decimal dtoa)).write.isSome = true) ↔ x ≠ .inf false := by
  cases x with
  | nan => simp [CFloat.ge]
  | inf negative => cases negative <;> simp [CFloat.ge, CFloat.decimal, Draft.write]
  | fin x => simp [CFloat.decimal, Draft.write]

theorem write_real_gt {x : CFloat} {q : ℚ} :
    (x.gt q = true → (Draft.real (x.decimal dtoa)).write.isSome = true) ↔ x ≠ .inf false := by
  cases x with
  | nan => simp [CFloat.gt]
  | inf negative => cases negative <;> simp [CFloat.gt, CFloat.decimal, Draft.write]
  | fin x => simp [CFloat.decimal, Draft.write]

theorem validUtf8_of_ne_nil {s : Bytes} :
    (s ≠ [] → validUtf8 (cstr s) = true) ↔ validUtf8 (cstr s) = true := by
  refine ⟨fun h => ?_, fun h _ => h⟩
  by_cases hs : s = []
  · rw [hs]
    rfl
  · exact h hs

/-- The keys of a request are ASCII texts, and none before the last is
`messages`. -/
theorem headMembers_key (p : Params) :
    ∀ m ∈ headMembers dtoa p, validUtf8 m.1 = true ∧ m.1 ≠ ascii "messages" := by
  simp only [headMembers, List.forall_mem_append, forall_mem_given, List.forall_mem_singleton]
  refine ⟨⟨⟨⟨⟨⟨⟨⟨⟨⟨⟨?_, ?_⟩, ?_⟩, ?_⟩, ?_⟩, ?_⟩, ?_⟩, ?_⟩, ?_⟩, ?_⟩, ?_⟩, ?_⟩
  case refine_2 => decide
  all_goals exact fun _ => by decide

theorem headMembers_write_iff (p : Params) :
    (∀ m ∈ headMembers dtoa p, m.2.write.isSome = true) ↔ p.Sendable := by
  simp only [headMembers, List.forall_mem_append, forall_mem_given, List.forall_mem_singleton,
    write_real_ge, write_real_gt, write_str, validUtf8_of_ne_nil, write_raw, write_int, write_bool,
    implies_true, and_true]
  constructor
  · rintro ⟨⟨⟨⟨⟨⟨h₁, h₂⟩, h₃⟩, h₄⟩, h₅⟩, h₆⟩, h₇⟩
    exact ⟨h₁, h₇, h₂, h₃, h₄, h₅, h₆⟩
  · intro h
    exact ⟨⟨⟨⟨⟨⟨h.model, h.temperature⟩, h.topP⟩, h.minP⟩, h.presencePenalty⟩,
      h.frequencyPenalty⟩, h.reasoningEffort⟩

theorem messageDraft_write_iff (m : Message) :
    (messageDraft m).write.isSome = true ↔ validUtf8 (cstr m.role) = true ∧
      validUtf8 (cstr m.content) = true ∧ validUtf8 (cstr m.toolCallId) = true := by
  have hrole : validUtf8 (ascii "role") = true := by decide
  have hcontent : validUtf8 (ascii "content") = true := by decide
  have hcalls : validUtf8 (ascii "tool_calls") = true := by decide
  have hid : validUtf8 (ascii "tool_call_id") = true := by decide
  simp only [messageDraft, write_obj_isSome, List.forall_mem_append, forall_mem_given,
    List.forall_mem_cons, hrole, hcontent, hcalls, hid, write_str, validUtf8_of_ne_nil, write_raw,
    true_and, implies_true, and_true, and_assoc]
  constructor
  · rintro ⟨h₁, h₂, _, h₃⟩
    exact ⟨h₁, h₂, h₃⟩
  · rintro ⟨h₁, h₂, h₃⟩
    exact ⟨h₁, h₂, by simp, h₃⟩

/-- **A request is written** when its settings and the texts of its messages,
as C strings, are UTF-8, and is empty otherwise. -/
theorem bodyDraft_write_iff (p : Params) (ms : List Message) :
    (bodyDraft dtoa p ms).write.isSome = true ↔ p.Sendable ∧ ∀ m ∈ ms,
      validUtf8 (cstr m.role) = true ∧ validUtf8 (cstr m.content) = true ∧
        validUtf8 (cstr m.toolCallId) = true := by
  have hkey : validUtf8 (ascii "messages") = true := by decide
  rw [bodyDraft, write_obj_isSome, List.forall_mem_append, List.forall_mem_singleton,
    write_arr_isSome, List.forall_mem_map, ← headMembers_write_iff dtoa p]
  simp only [hkey, true_and, messageDraft_write_iff]
  refine and_congr_left fun _ => ⟨fun h m hm => (h m hm).2, fun h m hm => ⟨?_, h m hm⟩⟩
  exact (headMembers_key dtoa p m hm).1

/-! ### Reading -/

/-- A message as it is read: its texts cut at their first zero byte. -/
def Message.cut (m : Message) : Entry where
  role := cstr m.role
  content := cstr m.content
  calls := if m.toolCalls = [] then none else parse (cstr m.toolCalls)
  toolCallId := cstr m.toolCallId

theorem readEntry_messageDraft {m : Message} {v : Value} (h : (messageDraft m).json = some v) :
    readEntry v = some m.cut := by
  have hget := get_of_json_obj h
  unfold Message.cut
  by_cases hcalls : m.toolCalls = [] <;> by_cases hid : m.toolCallId = []
  all_goals
    simp only [given, hcalls, hid, ne_eq, not_true_eq_false, not_false_eq_true, if_true, if_false]
      at hget
    have hrole : v.get (ascii "role") = some (.str (cstr m.role)) := hget _
    have hcontent : v.get (ascii "content") = some (.str (cstr m.content)) := hget _
    simp only [readEntry, hrole, hcontent, hget, Option.bind_some, asText, hcalls, hid]
    rfl

theorem mapM_readEntry {ms : List Message} {vs : List Value}
    (h : jsonItems (ms.map messageDraft) = some vs) :
    vs.mapM readEntry = some (ms.map Message.cut) := by
  induction ms generalizing vs with
  | nil =>
    obtain rfl := Option.some.inj h
    rfl
  | cons m ms ih =>
    rw [List.map_cons, jsonItems] at h
    split at h
    · rename_i v vs' hv hvs
      obtain rfl := Option.some.inj h
      rw [List.mapM_cons, readEntry_messageDraft hv, ih hvs]
      rfl
    · simp at h

/-- What a request that was written is read back as. -/
theorem readBack_of_write {p : Params} {ms : List Message} {w : Bytes} {v : Value}
    (hw : (bodyDraft dtoa p ms).write = some w) (hv : (bodyDraft dtoa p ms).json = some v) :
    readBack w = some (ms.map Message.cut) := by
  have hfind : (headMembers dtoa p ++ [(ascii "messages", Draft.arr (ms.map messageDraft))]).find?
      (fun m => m.1 = ascii "messages")
        = some (ascii "messages", .arr (ms.map messageDraft)) := by
    rw [List.find?_append, List.find?_eq_none.2]
    · rfl
    · intro m hm
      simpa using (headMembers_key dtoa p m hm).2
  have hget : v.get (ascii "messages") = (jsonItems (ms.map messageDraft)).map .arr := by
    rw [get_of_json_obj hv, hfind]
    rfl
  have hsome : (jsonItems (ms.map messageDraft)).isSome := by
    have := json_obj_isSome.1 (Option.isSome_of_eq_some hv) (ascii "messages",
      .arr (ms.map messageDraft)) (by simp)
    rwa [json_arr_isSome, ← jsonItems_isSome] at this
  obtain ⟨vs, hvs⟩ := Option.isSome_iff_exists.1 hsome
  rw [readBack, Draft.parse_write _ hw hv, Option.bind_some, hget, hvs]
  exact mapM_readEntry hvs

theorem cut_eq_entry_iff {m : Message} (hm : ∃ calls, m.toolCalls = llmClientCallsJson calls) :
    m.cut = m.entry ↔ (0 : UInt8) ∉ m.role ∧ (0 : UInt8) ∉ m.content ∧
      (0 : UInt8) ∉ m.toolCallId := by
  have hcalls : cstr m.toolCalls = m.toolCalls := by
    obtain ⟨calls, hc⟩ := hm
    rw [hc, cstr_llmClientCallsJson]
  simp [Message.cut, Message.entry, hcalls, cstr_eq_self_iff]

@[simp] theorem json_real {x : Option Decimal} :
    (Draft.real x).json.isSome = (Draft.real x).write.isSome := by
  cases x <;> rfl

theorem json_raw {s : Bytes} (h : s = [] ∨ (parse s).isSome = true) :
    s ≠ [] → (Draft.raw (cstr s)).json.isSome = true := by
  intro hs
  obtain ⟨v, hv⟩ := Option.isSome_iff_exists.1 (h.resolve_left hs)
  rw [Draft.json, cstr_of_parse hv, hv]
  rfl

theorem messageDraft_json_isSome {m : Message}
    (hm : ∃ calls, m.toolCalls = llmClientCallsJson calls) : (messageDraft m).json.isSome := by
  have hraw : m.toolCalls = [] ∨ (parse m.toolCalls).isSome = true := by
    obtain ⟨calls, hc⟩ := hm
    rw [hc]
    exact (llmClientCallsJson_eq calls).imp_right Option.isSome_of_eq_some
  rw [messageDraft, json_obj_isSome]
  simp only [List.forall_mem_append, forall_mem_given, List.forall_mem_cons]
  exact ⟨⟨⟨rfl, rfl, by simp⟩, json_raw hraw⟩, fun _ => rfl⟩

/-- A request whose calls and tools are JSON texts stands for a value. -/
theorem bodyDraft_json_isSome {p : Params} {ms : List Message}
    (htools : p.tools = [] ∨ (parse p.tools).isSome)
    (hcalls : ∀ m ∈ ms, ∃ calls, m.toolCalls = llmClientCallsJson calls)
    (hp : p.Sendable) : (bodyDraft dtoa p ms).json.isSome := by
  rw [bodyDraft, json_obj_isSome, List.forall_mem_append, List.forall_mem_singleton,
    json_arr_isSome, List.forall_mem_map]
  refine ⟨?_, fun m hm => messageDraft_json_isSome (hcalls m hm)⟩
  simp only [headMembers, List.forall_mem_append, forall_mem_given, List.forall_mem_singleton,
    json_real, write_real_ge, write_real_gt]
  exact ⟨⟨⟨⟨⟨⟨⟨⟨⟨⟨⟨fun _ => rfl, rfl⟩, hp.temperature⟩, hp.topP⟩, fun _ => rfl⟩, hp.minP⟩,
    fun _ => rfl⟩, hp.presencePenalty⟩, hp.frequencyPenalty⟩, fun _ => rfl⟩, fun _ => rfl⟩,
    json_raw htools⟩

theorem readBack_nil : readBack [] = none := rfl

/-- **A request reads back as its messages exactly when their texts are plain.**
The tools are the text the agent makes of definitions, or none; the calls of a
message are the text an answer ended on, or none.  The contents are any bytes. -/
theorem readBack_llmClientBody_iff (p : Params) (ms : List Message)
    (htools : p.tools = [] ∨ (parse p.tools).isSome)
    (hcalls : ∀ m ∈ ms, ∃ calls, m.toolCalls = llmClientCallsJson calls) :
    readBack (llmClientBody dtoa p ms) = some (ms.map Message.entry) ↔
      p.Sendable ∧ ∀ m ∈ ms, m.Plain := by
  unfold llmClientBody
  cases hw : (bodyDraft dtoa p ms).write with
  | none =>
    have hnot : ¬(bodyDraft dtoa p ms).write.isSome = true := by simp [hw]
    refine ⟨fun h => absurd h (by simp [readBack_nil]), fun ⟨hp, hms⟩ => absurd ?_ hnot⟩
    refine (bodyDraft_write_iff dtoa p ms).2 ⟨hp, fun m hm => ?_⟩
    obtain ⟨hrole, hcontent, hid⟩ := hms m hm
    rw [cstr_eq_self_iff.2 hrole.2, cstr_eq_self_iff.2 hcontent.2, cstr_eq_self_iff.2 hid.2]
    exact ⟨hrole.1, hcontent.1, hid.1⟩
  | some w =>
    obtain ⟨hp, hvalid⟩ := (bodyDraft_write_iff dtoa p ms).1 (Option.isSome_of_eq_some hw)
    obtain ⟨v, hv⟩ := Option.isSome_iff_exists.1 (bodyDraft_json_isSome dtoa htools hcalls hp)
    rw [Option.getD_some, readBack_of_write dtoa hw hv, Option.some.injEq, List.map_inj_left]
    refine ⟨fun h => ⟨hp, fun m hm => ?_⟩, fun ⟨_, h⟩ m hm => ?_⟩
    · obtain ⟨h₁, h₂, h₃⟩ := (cut_eq_entry_iff (hcalls m hm)).1 (h m hm)
      obtain ⟨v₁, v₂, v₃⟩ := hvalid m hm
      rw [cstr_eq_self_iff.2 h₁] at v₁
      rw [cstr_eq_self_iff.2 h₂] at v₂
      rw [cstr_eq_self_iff.2 h₃] at v₃
      exact ⟨⟨v₁, h₁⟩, ⟨v₂, h₂⟩, v₃, h₃⟩
    · obtain ⟨hrole, hcontent, hid⟩ := h m hm
      exact (cut_eq_entry_iff (hcalls m hm)).2 ⟨hrole.2, hcontent.2, hid.2⟩

/-- A turn whose tool answered in Latin-1, as `llm_agent_run` leaves it. -/
def latin1Turn : List Message :=
  [⟨ascii "user", ascii "Look it up.", [], []⟩,
    ⟨ascii "assistant", [], llmClientCallsJson [⟨ascii "1", ascii "fetch", ascii "\x7b\x7d"⟩], []⟩,
    ⟨ascii "tool", [0xE9, 0x74, 0xE9], [], ascii "1"⟩]

/-- The tool result is not UTF-8: the request of the next round is empty. -/
theorem latin1Turn_empties_request :
    llmClientBody (fun _ => .zero) {} latin1Turn = [] ∧
      readBack (llmClientBody (fun _ => .zero) {} latin1Turn)
        ≠ some (latin1Turn.map Message.entry) := by
  have hw : (bodyDraft (fun _ => .zero) {} latin1Turn).write = none := by
    rw [← Option.not_isSome_iff_eq_none, bodyDraft_write_iff]
    rintro ⟨-, hms⟩
    have := (hms ⟨ascii "tool", [0xE9, 0x74, 0xE9], [], ascii "1"⟩ (by simp [latin1Turn])).2.1
    exact absurd this (by decide)
  have hbody : llmClientBody (fun _ => .zero) {} latin1Turn = [] := by
    rw [llmClientBody, hw]
    rfl
  refine ⟨hbody, ?_⟩
  rw [hbody, readBack_nil]
  simp

/-- A turn in plain text reads back: the hypotheses can be met. -/
theorem readBack_one_turn :
    readBack (llmClientBody (fun _ => .zero) {}
      [⟨ascii "user", ascii "Hello.", [], []⟩])
      = some [Message.entry ⟨ascii "user", ascii "Hello.", [], []⟩] := by
  refine (readBack_llmClientBody_iff _ {} [⟨ascii "user", ascii "Hello.", [], []⟩]
    (Or.inl rfl) ?_).2 ⟨⟨by decide, by decide, by decide, by decide, by decide, by decide,
      by decide⟩, ?_⟩
  · intro m hm
    obtain rfl : m = _ := by simpa using hm
    exact ⟨[], rfl⟩
  · intro m hm
    obtain rfl : m = _ := by simpa using hm
    exact ⟨by decide, by decide, by decide⟩

end Llm
end S2S
