/-
# Null members of what a server answers

An engine may write a member that it has nothing for as null, or leave it out.
`llm_client_frame` and `mcp_request` ask of every member whether it has the type
they want, and so take the one for the other, with one exception: whether a
frame of a stream reports a failure, and whether a JSON-RPC response is an
error, is whether there is an `error`, null or not.

A frame less null members says the same exactly when its null `error` is none of
them (`llmClientFrame_erases`).  A stream of such frames then ends the same
(`llmClientStream_alike`), but for the words of a failure, which may quote the
frame (`Nulled.Spared`).
-/

import S2S.Json.Nulls
import S2S.Llm.Frames
import S2S.Mcp.Exchange

namespace S2S
namespace Llm

open Json Http

/-! ### A frame -/

/-- The null `error` is among the members that are left out. -/
def ErrorGone (root root' : Value) : Prop :=
  root.get (ascii "error") = some .null ∧ root'.get (ascii "error") = none

/-- Items that read the same, at the same places. -/
theorem mapIdx_forall₂ {α β γ : Type} {R : α → β → Prop} {f : ℕ → α → γ} {g : ℕ → β → γ}
    {l : List α} {l' : List β} (hl : List.Forall₂ R l l') (h : ∀ i a b, R a b → f i a = g i b) :
    l.mapIdx f = l'.mapIdx g := by
  induction hl generalizing f g with
  | nil => rfl
  | cons hab _ ih =>
    rw [List.mapIdx_cons, List.mapIdx_cons, h 0 _ _ hab]
    exact congrArg _ (ih fun i a b hab => h (i + 1) a b hab)

/-- One fragment of a call. -/
theorem toolFragment_erases (index : ℕ) {call call' : Value} (h : Erases call call') :
    toolFragment index call = toolFragment index call' := by
  have hfunction := h.get (ascii "function")
  unfold toolFragment
  rw [(h.get (ascii "index")).intOf, (h.get (ascii "id")).textOf,
    (hfunction.get (ascii "name")).textOf, (hfunction.get (ascii "arguments")).textOf]

theorem firstChoice_eq (root : Value) :
    firstChoice root = (elementsOf (root.get (ascii "choices"))).head? := by
  unfold firstChoice
  cases root.get (ascii "choices") with
  | none => rfl
  | some v => cases v <;> rfl

/-- The first choice. -/
theorem firstChoice_erases {root root' : Value} (h : Erases root root') :
    Loses (firstChoice root) (firstChoice root') := by
  have hitems := (h.get (ascii "choices")).elements
  rw [firstChoice_eq, firstChoice_eq]
  generalize elementsOf (root.get (ascii "choices")) = items at hitems ⊢
  generalize elementsOf (root'.get (ascii "choices")) = items' at hitems ⊢
  cases hitems with
  | nil => exact .absent
  | cons hitem _ => exact .kept hitem

/-- What a frame says, its calls read as the items of an array. -/
theorem llmClientFrame_eq {json : Bytes} {root : Value} (hparse : parse json = some root) :
    llmClientFrame json =
      let message := (firstChoice root).bind (Value.get (ascii "delta"))
      { delta := textOf (message.bind (Value.get (ascii "content")))
        reasoning := (textOf (message.bind (Value.get (ascii "reasoning_content")))).length +
          (textOf (message.bind (Value.get (ascii "reasoning")))).length
        tools := (elementsOf (message.bind (Value.get (ascii "tool_calls")))).mapIdx toolFragment
        finish := textOf ((firstChoice root).bind (Value.get (ascii "finish_reason")))
        failed := (root.get (ascii "error")).isSome } := by
  unfold llmClientFrame
  rw [hparse]
  dsimp only
  congr 1
  cases ((firstChoice root).bind (Value.get (ascii "delta"))).bind
    (Value.get (ascii "tool_calls")) with
  | none => rfl
  | some v => cases v <;> rfl

/-- **A frame less null members says the same**, exactly when its null `error` is none of them. -/
theorem llmClientFrame_erases {json json' : Bytes} {root root' : Value}
    (hparse : parse json = some root) (hparse' : parse json' = some root')
    (h : Erases root root') :
    llmClientFrame json = llmClientFrame json' ↔ ¬ErrorGone root root' := by
  have hchoice := firstChoice_erases h
  have hmessage := hchoice.get (ascii "delta")
  have herror := h.get (ascii "error")
  have htools := mapIdx_forall₂ (hmessage.get (ascii "tool_calls")).elements
    fun i _ _ => toolFragment_erases i
  rw [llmClientFrame_eq hparse, llmClientFrame_eq hparse']
  dsimp only
  rw [(hmessage.get (ascii "content")).textOf, (hmessage.get (ascii "reasoning_content")).textOf,
    (hmessage.get (ascii "reasoning")).textOf, (hchoice.get (ascii "finish_reason")).textOf,
    htools]
  constructor
  · rintro heq ⟨hnull, hgone⟩
    have hfailed := congrArg LlmFrame.failed heq
    simp [hnull, hgone] at hfailed
  · intro hstays
    rw [herror.isSome hstays]

/-! ### A line -/

/-- **Two lines of a stream**, the second one the frame of the first less null members. -/
structure Nulled (line line' : Bytes) where
  data : Bytes
  data' : Bytes
  root : Value
  root' : Value
  line_data : lineData line = some data
  line_data' : lineData line' = some data'
  parses : parse data = some root
  parses' : parse data' = some root'
  erases : Erases root root'

/-- The `error` stays what it is, and when there is one, so do the words that are told of it. -/
def Nulled.Spared {line line' : Bytes} (n : Nulled line line') : Prop :=
  ¬ErrorGone n.root n.root' ∧
    ((n.root.get (ascii "error")).isSome = true → llmClientReason n.data = llmClientReason n.data')

/-- A frame is no end of the stream. -/
theorem ne_done_of_parse {data : Bytes} {root : Value} (h : parse data = some root) :
    data ≠ ascii "[DONE]" := by
  rintro rfl
  have hno : parse (ascii "[DONE]") = none := by decide +kernel
  rw [hno] at h
  simp at h

/-- **A line less null members does the same**, whatever came before and whatever the callback
wants, exactly when it is spared. -/
theorem onLine_nulled {line line' : Bytes} (n : Nulled line line') :
    (∀ cb s, onLine cb s line = onLine cb s line') ↔ n.Spared := by
  have hframe := llmClientFrame_erases n.parses n.parses' n.erases
  have hfailed : (llmClientFrame n.data).failed = (n.root.get (ascii "error")).isSome := by
    rw [llmClientFrame_eq n.parses]
  have hline : ∀ cb s, onLine cb s line =
      if (llmClientFrame n.data).failed then
        ({ s with failure := llmClientReason n.data }, false)
      else onFrame cb s (llmClientFrame n.data) := fun cb s => by
    rw [onLine_data cb s n.line_data, if_neg (ne_done_of_parse n.parses)]
  have hline' : ∀ cb s, onLine cb s line' =
      if (llmClientFrame n.data').failed then
        ({ s with failure := llmClientReason n.data' }, false)
      else onFrame cb s (llmClientFrame n.data') := fun cb s => by
    rw [onLine_data cb s n.line_data', if_neg (ne_done_of_parse n.parses')]
  constructor
  · intro hsame
    have hbare := hsame (fun _ => true) {}
    rw [hline, hline'] at hbare
    have hstays : ¬ErrorGone n.root n.root' := by
      rintro ⟨hnull, hgone⟩
      have hfailed' : (llmClientFrame n.data').failed = false := by
        rw [llmClientFrame_eq n.parses']
        simp [hgone]
      rw [hfailed, hnull, Option.isSome_some, if_pos rfl, hfailed', if_neg (by simp)] at hbare
      have hon := congrArg Prod.snd hbare
      rw [onFrame_on] at hon
      simp at hon
    refine ⟨hstays, fun herror => ?_⟩
    rw [← hframe.2 hstays, hfailed, if_pos herror, if_pos herror] at hbare
    exact congrArg (fun t => t.1.failure) hbare
  · rintro ⟨hstays, hwords⟩ cb s
    rw [hline, hline', ← hframe.2 hstays]
    split_ifs with hfail
    · rw [hwords (hfailed ▸ hfail)]
    · rfl

/-! ### A stream -/

/-- Two lines that are one, or the second one the first less null members and spared. -/
def LineAlike (line line' : Bytes) : Prop := line = line' ∨ ∃ n : Nulled line line', n.Spared

theorem LineAlike.onLine {line line' : Bytes} (h : LineAlike line line') (cb : List Bytes → Bool)
    (s : Streamed) : onLine cb s line = onLine cb s line' := by
  rcases h with rfl | ⟨n, hn⟩
  · rfl
  · exact (onLine_nulled n).2 hn cb s

/-- **Two streams alike**: each call of the receiver finds the same cancel flag and completes as
many lines, alike one by one. -/
def Alike : Bytes → Bytes → List (Bool × Bytes) → List (Bool × Bytes) → Prop
  | _, _, [], [] => True
  | pending, pending', (cancel, data) :: calls, (cancel', data') :: calls' =>
    cancel = cancel' ∧
      List.Forall₂ LineAlike (lines.pieces (pending ++ data)).1 (lines.pieces (pending' ++ data')).1 ∧
      Alike (lines.pieces (pending ++ data)).2 (lines.pieces (pending' ++ data')).2 calls calls'
  | _, _, _, _ => False

section Streams

variable (cb : List Bytes → Bool)

/-- **Streams alike end alike.** -/
theorem receive_alike {r r' : Receiver} {calls calls' : List (Bool × Bytes)}
    (hstream : r.toStreamed = r'.toStreamed) (h : Alike r.pending r'.pending calls calls') :
    (receive cb r calls).1.toStreamed = (receive cb r' calls').1.toStreamed ∧
      (receive cb r calls).2 = (receive cb r' calls').2 := by
  induction calls generalizing r r' calls' with
  | nil =>
    cases calls' with
    | nil => exact ⟨hstream, rfl⟩
    | cons => exact h.elim
  | cons call calls ih =>
    obtain ⟨cancel, data⟩ := call
    cases calls' with
    | nil => exact h.elim
    | cons call' calls' =>
      obtain ⟨cancel', data'⟩ := call'
      obtain ⟨rfl, hlines, hrest⟩ := h
      obtain ⟨s, pending, body⟩ := r
      obtain ⟨s', pending', body'⟩ := r'
      obtain rfl : s = s' := hstream
      cases hdone : s.done with
      | true =>
        rw [receive_of_done cb (r := ⟨s, pending, body⟩) hdone,
          receive_of_done cb (r := ⟨s, pending', body'⟩) hdone]
        exact ⟨rfl, rfl⟩
      | false =>
        cases cancel with
        | true => simp [receive, receiver, hdone]
        | false =>
          obtain ⟨hs, hon⟩ := lines.drain_forall₂ (onLine cb)
            (hlines.imp fun _ _ hline => hline.onLine cb) s
          have hleft := lines.drain_rest (onLine cb) (s := s) (x := pending ++ data)
          have hleft' := lines.drain_rest (onLine cb) (s := s) (x := pending' ++ data')
          simp only [receive, receiver, hdone, Bool.false_eq_true, if_false]
          rcases hd : lines.drain (onLine cb) s (pending ++ data) with ⟨t, rest, on⟩
          rcases hd' : lines.drain (onLine cb) s (pending' ++ data') with ⟨t', rest', on'⟩
          rw [hd, hd'] at hs hon
          rw [hd] at hleft
          rw [hd'] at hleft'
          dsimp only at hs hon hleft hleft' ⊢
          subst hs hon
          cases on with
          | true =>
            rw [Bool.true_or, if_pos rfl, if_pos rfl]
            refine ih rfl ?_
            dsimp only
            rw [hleft rfl, hleft' rfl]
            exact hrest
          | false =>
            rw [Bool.false_or]
            cases hend : t.done with
            | true =>
              rw [if_pos rfl, if_pos rfl, receive_of_done cb (r := ⟨t, rest, body ++ data⟩) hend,
                receive_of_done cb (r := ⟨t, rest', body' ++ data'⟩) hend]
              exact ⟨rfl, rfl⟩
            | false => exact ⟨rfl, rfl⟩

/-- What was handed over to a receiver that read to the end. -/
theorem body_receive {r : Receiver} {calls : List (Bool × Bytes)}
    (hon : (receive cb r calls).2 = true) (hend : (receive cb r calls).1.done = false) :
    (receive cb r calls).1.body = r.body ++ (calls.map Prod.snd).flatten := by
  induction calls generalizing r with
  | nil => simp [receive]
  | cons call calls ih =>
    obtain ⟨cancel, data⟩ := call
    cases hdone : r.done with
    | true =>
      rw [receive_of_done cb hdone] at hend
      simp [hdone] at hend
    | false =>
      cases cancel with
      | true => simp [receive, receiver, hdone] at hon
      | false =>
        simp only [receive, receiver, hdone, Bool.false_eq_true, if_false] at hon hend ⊢
        split_ifs at hon hend ⊢ with hgo
        · rw [ih hon hend]
          simp

/-- **A stream less null members** has the outcome of the stream, when each line is spared and the
answer has a status of success, or its body gives the same reason. -/
theorem llmClientStream_alike (p : Params) (messages : List Message)
    {calls calls' : List (Bool × Bytes)} (ending : Ending) (aborted : Bytes) (cancel : Bool)
    (h : Alike [] [] calls calls')
    (hstatus : ∀ status, ending.result = .ok status → (200 ≤ status ∧ status < 300) ∨
      llmClientReason (calls.map Prod.snd).flatten =
        llmClientReason (calls'.map Prod.snd).flatten) :
    llmClientStream cb p messages calls ending aborted cancel =
      llmClientStream cb p messages calls' ending aborted cancel := by
  obtain ⟨hstream, hon⟩ := @receive_alike cb {} {} calls calls' rfl h
  have hbody := @body_receive cb {} calls
  have hbody' := @body_receive cb {} calls'
  unfold llmClientStream
  split_ifs with hmessages
  · rfl
  · rcases hr : receive cb {} calls with ⟨⟨s, pending, body⟩, on⟩
    rcases hr' : receive cb {} calls' with ⟨⟨s', pending', body'⟩, on'⟩
    rw [hr, hr'] at hstream hon
    rw [hr] at hbody
    rw [hr'] at hbody'
    dsimp only at hstream hon hbody hbody' ⊢
    subst hstream hon
    refine Prod.ext rfl ?_
    cases on with
    | false => rfl
    | true =>
      cases hend : s.done with
      | true => simp [answer, hend]
      | false =>
        obtain rfl : body = (calls.map Prod.snd).flatten := by simpa using hbody rfl hend
        obtain rfl : body' = (calls'.map Prod.snd).flatten := by simpa using hbody' rfl hend
        unfold answer
        simp only [if_true, hend]
        cases hresult : ending.result with
        | error e => rfl
        | ok status =>
          rcases hstatus status hresult with hok | hreason
          · have hno : ¬(status < 200 ∨ 300 ≤ status) := by omega
            simp only [hno, if_false]
          · simp only [hreason]

end Streams

end Llm

namespace Mcp

open Json Http Llm

/-! ### A response -/

/-- **A response whose null `error` is left out is another one**: it is an error with the null
member, and none without. -/
theorem readResult_without {message message' : Bytes} {root : Value}
    (hparse : parse message = some root) (hnull : root.get (ascii "error") = some .null)
    (hparse' : parse message' = some (root.without (ascii "error"))) :
    readResult message ≠ readResult message' := by
  have herror : readResult message = .error (ascii "[MCP]  (0)") := by
    have htext : setError [ascii "[MCP] ", [], ascii " (", intText 0, ascii ")"] =
        ascii "[MCP]  (0)" := by
      decide +kernel
    rw [readResult, hparse]
    dsimp only
    rw [hnull]
    exact congrArg Except.error htext
  rw [herror, readResult, hparse']
  dsimp only
  rw [get_without]
  dsimp only
  split
  · simp
  · refine fun heq => absurd (Except.error.inj heq) ?_
    decide +kernel

/-! ### Null and absent -/

/-- **Null and absent are one but for `error`.**  A frame less null members says the same exactly
when its null `error` is none of them; a line of a stream does the same exactly when it is spared,
and a stream of such lines has the same outcome; a JSON-RPC response whose null `error` is left out
is never the same. -/
theorem null_members (cb : List Bytes → Bool) (p : Params) (messages : List Llm.Message)
    (ending : Ending) (aborted : Bytes) (cancel : Bool) :
    (∀ (json json' : Bytes) (root root' : Value), parse json = some root →
      parse json' = some root' → Erases root root' →
      (llmClientFrame json = llmClientFrame json' ↔ ¬ErrorGone root root')) ∧
    (∀ (line line' : Bytes) (n : Nulled line line'),
      (∀ cb s, onLine cb s line = onLine cb s line') ↔ n.Spared) ∧
    (∀ calls calls' : List (Bool × Bytes), Alike [] [] calls calls' →
      (∀ status, ending.result = .ok status → (200 ≤ status ∧ status < 300) ∨
        llmClientReason (calls.map Prod.snd).flatten =
          llmClientReason (calls'.map Prod.snd).flatten) →
      llmClientStream cb p messages calls ending aborted cancel =
        llmClientStream cb p messages calls' ending aborted cancel) ∧
    (∀ (message message' : Bytes) (root : Value), parse message = some root →
      root.get (ascii "error") = some .null →
      parse message' = some (root.without (ascii "error")) →
      readResult message ≠ readResult message') :=
  ⟨fun _ _ _ _ hparse hparse' h => llmClientFrame_erases hparse hparse' h,
    fun _ _ n => onLine_nulled n,
    fun _ _ h hstatus => llmClientStream_alike cb p messages ending aborted cancel h hstatus,
    fun _ _ _ hparse hnull hparse' => readResult_without hparse hnull hparse'⟩

/-- A frame with a member that is null, and the frame without it. -/
def nullCalls : Bytes :=
  ascii "\x7b\"choices\":[\x7b\"delta\":\x7b\"content\":\"Hi\",\"tool_calls\":null\x7d\x7d]\x7d"

def noCalls : Bytes := ascii "\x7b\"choices\":[\x7b\"delta\":\x7b\"content\":\"Hi\"\x7d\x7d]\x7d"

/-- A null `error`. -/
def nullError : Bytes :=
  ascii "\x7b\"error\":null,\"choices\":[\x7b\"delta\":\x7b\"content\":\"Hi\"\x7d\x7d]\x7d"

/-- The frame of a delta. -/
def frameOf (delta : Value) : Value :=
  .obj [(ascii "choices", .arr [.obj [(ascii "delta", delta)]])]

/-- What the delta lost, the frame lost. -/
theorem erases_frameOf {delta delta' : Value} (h : Erases delta delta') :
    Erases (frameOf delta) (frameOf delta') := by
  have hobj : ∀ (key : Bytes) {v v' : Value}, Erases v v' →
      Erases (.obj [(key, v)]) (.obj [(key, v')]) := fun key _ _ hv =>
    .obj (fun _ => false) (by simp) rfl (.cons hv .nil)
  exact hobj _ (.arr (.cons (hobj _ h) .nil))

/-- A delta that says hello, and calls nothing. -/
def hiDelta : Value := .obj [(ascii "content", .str (ascii "Hi")), (ascii "tool_calls", .null)]

theorem null_members_hi : llmClientFrame nullCalls = llmClientFrame noCalls := by
  have hroot : parse nullCalls = some (frameOf hiDelta) := by
    decide +kernel
  have hroot' : parse noCalls = some (frameOf (hiDelta.without (ascii "tool_calls"))) := by
    decide +kernel
  refine ((null_members (fun _ => true) {} [] ⟨.ok 200, false⟩ [] false).1 _ _ _ _ hroot hroot'
    (erases_frameOf (erases_without (by decide +kernel)))).2 ?_
  rintro ⟨hnull, -⟩
  exact absurd hnull (by decide +kernel)

/-- The value of the frame with a null `error`. -/
def failedFrame : Value :=
  .obj [(ascii "error", .null), (ascii "choices", .arr [.obj [(ascii "delta",
    .obj [(ascii "content", .str (ascii "Hi"))])]])]

/-- **A null `error` is told apart**: with it the frame reports a failure, without it none. -/
theorem null_error_fails :
    ¬∀ (json json' : Bytes) (root root' : Value), parse json = some root →
      parse json' = some root' → Erases root root' →
      llmClientFrame json = llmClientFrame json' := by
  intro h
  have hroot : parse nullError = some failedFrame := by decide +kernel
  have hroot' : parse noCalls = some (failedFrame.without (ascii "error")) := by decide +kernel
  have hsame := congrArg LlmFrame.failed
    (h _ _ _ _ hroot hroot' (erases_without (by decide +kernel)))
  exact absurd hsame (by decide +kernel)

end Mcp
end S2S
