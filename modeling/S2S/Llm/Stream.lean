/-
# The stream of a completion

`llm_client_stream` of `src/llm-client.cpp`.  The endpoint answers a stream of
lines, `data: {...}` for a frame and `data: [DONE]` at the end, and the HTTP
library hands it over in calls of a receiver, cut anywhere.  The receiver keeps
what it has not used (`pending`), takes whole lines off it, and stops at
`[DONE]`, at a frame that reports an error, or when the callback wants no more.

How the body was cut leaves no trace (`llmClientStream_flatten`), a line being
a piece that nothing that follows it can change (`lines`).  What the receiver
does leave in its buffers is another matter: what follows `[DONE]` in the same
call stays in `pending`, and in `body`, which only an error status reads.
-/

import S2S.Chunks
import S2S.Llm.Tools

namespace S2S
namespace Llm

open Json Http

/-! ### A frame -/

/-- `LLM_TOOL_CALLS_MAX`. -/
def llmToolCallsMax : ℤ := 64

/-- `LlmToolFragment`. -/
structure ToolFragment where
  index : ℤ
  id : Bytes
  name : Bytes
  arguments : Bytes

/-- `LlmFrame`: what one data frame says. -/
structure LlmFrame where
  delta : Bytes := []
  reasoning : ℕ := 0
  tools : List ToolFragment := []
  finish : Bytes := []
  failed : Bool := false

/-- One fragment of a call: the index the endpoint gives, as an `int`, or its place in the array. -/
def toolFragment (index : ℕ) (call : Value) : ToolFragment where
  index :=
    match (call.get (ascii "index")).bind intOf with
    | some i => Int.bmod i (2 ^ 32)
    | none => Int.bmod index (2 ^ 32)
  id := textOf (call.get (ascii "id"))
  name := textOf ((call.get (ascii "function")).bind (Value.get (ascii "name")))
  arguments := textOf ((call.get (ascii "function")).bind (Value.get (ascii "arguments")))

/-- The first choice of a frame. -/
def firstChoice (root : Value) : Option Value :=
  match root.get (ascii "choices") with
  | some (.arr choices) => choices.head?
  | _ => none

/-- `llm_client_frame`: a text that is not JSON says nothing. -/
def llmClientFrame (json : Bytes) : LlmFrame :=
  match parse json with
  | none => {}
  | some root =>
    let choice := firstChoice root
    let message := choice.bind (Value.get (ascii "delta"))
    { delta := textOf (message.bind (Value.get (ascii "content")))
      reasoning := (textOf (message.bind (Value.get (ascii "reasoning_content")))).length +
        (textOf (message.bind (Value.get (ascii "reasoning")))).length
      tools :=
        match message.bind (Value.get (ascii "tool_calls")) with
        | some (.arr calls) => calls.mapIdx toolFragment
        | _ => []
      finish := textOf (choice.bind (Value.get (ascii "finish_reason")))
      failed := (root.get (ascii "error")).isSome }

/-- A fragment joins the call of its index; one out of range is dropped. -/
def addFragment (calls : List ToolCall) (fragment : ToolFragment) : List ToolCall :=
  if fragment.index < 0 ∨ llmToolCallsMax ≤ fragment.index then calls
  else
    let at_ := fragment.index.toNat
    (calls ++ List.replicate (at_ + 1 - calls.length) (⟨[], [], []⟩ : ToolCall)).modify at_ fun call =>
      ⟨call.id ++ fragment.id, call.name ++ fragment.name, call.arguments ++ fragment.arguments⟩

/-! ### The receiver -/

/-- What a stream has brought: the text and the deltas the callback got, the calls, how it ended
and the bytes of reasoning that were dropped. -/
structure Streamed where
  text : Bytes := []
  deltas : List Bytes := []
  calls : List ToolCall := []
  finish : Bytes := []
  done : Bool := false
  failure : Bytes := []
  cancelled : Bool := false
  reasoning : ℕ := 0

/-- The receiver between two calls: what came, what it has not used yet, and everything it was
handed. -/
structure Receiver extends Streamed where
  pending : Bytes := []
  body : Bytes := []

/-- The first line of a text and what follows its line feed. -/
def cutLine : Bytes → Option (Bytes × Bytes)
  | [] => none
  | b :: s => if b = 0x0A then some ([], s) else (cutLine s).map (before [b])

theorem cutLine_append {x line rest : Bytes} (h : cutLine x = some (line, rest)) (y : Bytes) :
    cutLine (x ++ y) = some (line, rest ++ y) := by
  induction x generalizing line with
  | nil => simp [cutLine] at h
  | cons b x ih =>
    rw [cutLine] at h
    rw [List.cons_append, cutLine]
    split_ifs at h ⊢ with hb
    · obtain ⟨rfl, rfl⟩ := Prod.mk.inj (Option.some.inj h)
      rfl
    · obtain ⟨⟨line', rest'⟩, hcut, heq⟩ := Option.map_eq_some_iff.1 h
      obtain ⟨rfl, rfl⟩ := Prod.mk.inj heq
      rw [ih hcut]
      rfl

theorem cutLine_length {x line rest : Bytes} (h : cutLine x = some (line, rest)) :
    rest.length < x.length := by
  induction x generalizing line with
  | nil => simp [cutLine] at h
  | cons b x ih =>
    rw [cutLine] at h
    split_ifs at h with hb
    · obtain ⟨rfl, rfl⟩ := Prod.mk.inj (Option.some.inj h)
      simp
    · obtain ⟨⟨line', rest'⟩, hcut, heq⟩ := Option.map_eq_some_iff.1 h
      obtain ⟨rfl, rfl⟩ := Prod.mk.inj heq
      exact (ih hcut).trans (Nat.lt_succ_self _)

/-- The lines of a stream. -/
def lines : Cutter UInt8 where
  cut := cutLine
  cut_append := cutLine_append
  cut_length := cutLine_length

section Receive

-- Whether the callback, having got these deltas, wants more.
variable (cb : List Bytes → Bool)

/-- A frame that reports no error. -/
def onFrame (s : Streamed) (frame : LlmFrame) : Streamed × Bool :=
  let s := { s with
    finish := if frame.finish = [] then s.finish else frame.finish
    reasoning := s.reasoning + frame.reasoning
    calls := frame.tools.foldl addFragment s.calls }
  if frame.delta = [] then (s, true)
  else
    let s := { s with text := s.text ++ frame.delta, deltas := s.deltas ++ [cstr frame.delta] }
    if cb s.deltas then (s, true) else ({ s with cancelled := true }, false)

/-- One whole line: what it changes, and whether the loop goes on to the next. -/
def onLine (s : Streamed) (line : Bytes) : Streamed × Bool :=
  let line := line.rdropWhile fun b => b = 0x0D ∨ b = 0x20
  if line.take 5 ≠ ascii "data:" then (s, true)
  else
    let data := (line.drop 5).dropWhile (· = 0x20)
    if data = ascii "[DONE]" then ({ s with done := true }, false)
    else
      let frame := llmClientFrame data
      if frame.failed then ({ s with failure := llmClientReason data }, false)
      else onFrame cb s frame

/-- The receiver: one call of it, with the cancel flag as it finds it.  It gives back whether the
request goes on, which it does past `[DONE]`. -/
def receiver (r : Receiver) (cancel : Bool) (data : Bytes) : Receiver × Bool :=
  if r.done then (r, true)
  else if cancel then ({ r with cancelled := true }, false)
  else
    let out := lines.drain (onLine cb) r.toStreamed (r.pending ++ data)
    ({ toStreamed := out.1, pending := out.2.1, body := r.body ++ data }, out.2.2 || out.1.done)

/-- The calls of the receiver, until one of them ends the request. -/
def receive (r : Receiver) : List (Bool × Bytes) → Receiver × Bool
  | [] => (r, true)
  | (cancel, data) :: calls =>
    if (receiver cb r cancel data).2 then receive (receiver cb r cancel data).1 calls
    else ((receiver cb r cancel data).1, false)

/-- How a request ends for the HTTP library: a status or the error of a request that got no
response, and whether the endpoint had been silent for as long as it may. -/
structure Ending where
  result : Except Bytes ℤ
  silent : Bool

/-- What follows the request: the calls of the answer, or the reason there is none.  `on` says that
the receiver did not end it, `aborted` what the library says of a request that it did, and `cancel`
is the flag by then. -/
def answer (p : Params) (ending : Ending) (aborted : Bytes) (cancel : Bool) (r : Receiver)
    (on : Bool) : Except Bytes Bytes :=
  let result := if on then ending.result else .error aborted
  let answered := Except.ok (llmClientCallsJson r.calls)
  if r.failure ≠ [] then .error (setError [ascii "[LLM] ", r.failure])
  else if r.cancelled || cancel then .error (setError [ascii "[LLM] Cancelled"])
  else if r.done then answered
  else match result with
    | .error e =>
      if ending.silent then
        .error (setError [ascii "[LLM] The endpoint stayed silent past ", intText p.timeoutSec,
          ascii " s"])
      else .error (setError [ascii "[LLM] ", e])
    | .ok status =>
      if status < 200 ∨ 300 ≤ status then
        .error (setError [ascii "[LLM] HTTP ", intText status, ascii ", ", llmClientReason r.body])
      else if r.finish = [] then
        .error (setError [ascii "[LLM] The stream ended before the answer did"])
      else answered

/-- **`llm_client_stream`**: what came, and what it returns.  `calls` are the calls of the receiver
and `ending` is how a request that it does not end itself ends. -/
def llmClientStream (p : Params) (messages : List Message) (calls : List (Bool × Bytes))
    (ending : Ending) (aborted : Bytes) (cancel : Bool) : Streamed × Except Bytes Bytes :=
  if messages = [] then
    ({}, .error (setError [ascii "[LLM] Client is NULL or the conversation is empty"]))
  else
    let (r, on) := receive cb {} calls
    (r.toStreamed, answer p ending aborted cancel r on)

end Receive

/-! ### Chunks -/

section Chunks

variable (cb : List Bytes → Bool)

/-- A frame is no end of the stream. -/
theorem done_onFrame (s : Streamed) (frame : LlmFrame) : (onFrame cb s frame).1.done = s.done := by
  unfold onFrame
  dsimp only
  split_ifs <;> rfl

/-- While it takes lines, the receiver has met no end of the stream. -/
theorem onLine_on {s : Streamed} {line : Bytes} (h : (onLine cb s line).2 = true) :
    (onLine cb s line).1.done = s.done := by
  unfold onLine at h ⊢
  dsimp only at h ⊢
  split_ifs at h ⊢ <;> first | rfl | exact done_onFrame cb s _

theorem drain_on {s : Streamed} {x : Bytes} (h : (lines.drain (onLine cb) s x).2.2 = true) :
    (lines.drain (onLine cb) s x).1.done = s.done := by
  induction s, x using Cutter.drain.induct lines (onLine cb) with
  | case1 s x hcut => rw [Cutter.drain_none _ _ hcut]
  | case2 s x line rest hcut hon ih =>
    rw [Cutter.drain_some _ _ hcut, if_pos hon] at h ⊢
    exact (ih h).trans (onLine_on cb hon)
  | case3 s x line rest hcut hon =>
    rw [Cutter.drain_some _ _ hcut, if_neg hon] at h
    simp at h

/-- A receiver that met the end of the stream takes every call without a look. -/
theorem receive_of_done {r : Receiver} (h : r.done = true) (calls : List (Bool × Bytes)) :
    receive cb r calls = (r, true) := by
  induction calls with
  | nil => rfl
  | cons call calls ih =>
    obtain ⟨cancel, data⟩ := call
    rw [receive, receiver, if_pos h, if_pos rfl, ih]

/-- **The calls of the receiver are the chunks of a reader of lines.**  They end with the same
stream; the request goes on unless the reader stopped short of the end of the stream; and as long
as it reads, all of the body has been kept. -/
theorem receive_eq_feed {r : Receiver} (hdone : r.done = false) (chunks : List Bytes) :
    (receive cb r (chunks.map (Prod.mk false))).1.toStreamed =
        (chunks.foldl (lines.feed (onLine cb)) (r.toStreamed, r.pending, true)).1 ∧
      (receive cb r (chunks.map (Prod.mk false))).2 =
        ((chunks.foldl (lines.feed (onLine cb)) (r.toStreamed, r.pending, true)).2.2 ||
          (chunks.foldl (lines.feed (onLine cb)) (r.toStreamed, r.pending, true)).1.done) ∧
      ((chunks.foldl (lines.feed (onLine cb)) (r.toStreamed, r.pending, true)).2.2 = true →
        (receive cb r (chunks.map (Prod.mk false))).1.body = r.body ++ chunks.flatten) := by
  induction chunks generalizing r with
  | nil => simp [receive]
  | cons chunk chunks ih =>
    rw [List.map_cons, List.foldl_cons, receive, Cutter.feed, if_pos rfl]
    have hreceiver : receiver cb r false chunk =
        ({ toStreamed := (lines.drain (onLine cb) r.toStreamed (r.pending ++ chunk)).1
           pending := (lines.drain (onLine cb) r.toStreamed (r.pending ++ chunk)).2.1
           body := r.body ++ chunk },
          (lines.drain (onLine cb) r.toStreamed (r.pending ++ chunk)).2.2 ||
            (lines.drain (onLine cb) r.toStreamed (r.pending ++ chunk)).1.done) := by
      rw [receiver, if_neg (by simp [hdone]), if_neg (by simp)]
    rw [hreceiver]
    have hon := drain_on cb (s := r.toStreamed) (x := r.pending ++ chunk)
    rcases hd : lines.drain (onLine cb) r.toStreamed (r.pending ++ chunk) with ⟨s', rest, _ | _⟩
    · -- The reader stopped: at the end of the stream the request goes on, and nothing changes.
      rw [Cutter.foldl_feed_stopped _ _ rfl]
      cases hend : s'.done with
      | false => simp
      | true => simp [receive_of_done cb (r := ⟨s', rest, r.body ++ chunk⟩) hend]
    · rw [hd] at hon
      obtain ⟨hstream, hrest, hbody⟩ :=
        ih (r := ⟨s', rest, r.body ++ chunk⟩) ((hon rfl).trans hdone)
      refine ⟨by simpa using hstream, by simpa using hrest, fun h => ?_⟩
      simpa using hbody h

end Chunks

/-- What is returned depends on the stream, and on the body only when the request went on to its
end without an end of the stream. -/
theorem answer_congr (p : Params) (ending : Ending) (aborted : Bytes) (cancel : Bool)
    {r r' : Receiver} {on : Bool} (hstream : r.toStreamed = r'.toStreamed)
    (hbody : on = true → r.done = false → r.body = r'.body) :
    answer p ending aborted cancel r on = answer p ending aborted cancel r' on := by
  obtain ⟨s, pending, body⟩ := r
  obtain ⟨s', pending', body'⟩ := r'
  obtain rfl : s = s' := hstream
  unfold answer
  cases on with
  | false => rfl
  | true =>
    cases hdone : s.done with
    | true => simp
    | false =>
      obtain rfl : body = body' := hbody rfl hdone
      rfl

/-- **However the body is cut into calls of the receiver**, the stream brings the same: the same
deltas in the same order, the same text, calls, finish reason, end and failure, and the same result
of the request. -/
theorem llmClientStream_flatten (p : Params) (messages : List Message) {chunks chunks' : List Bytes}
    (h : chunks.flatten = chunks'.flatten) (ending : Ending) (aborted : Bytes) :
    llmClientStream (fun _ => true) p messages (chunks.map (Prod.mk false)) ending aborted false =
      llmClientStream (fun _ => true) p messages (chunks'.map (Prod.mk false)) ending aborted
        false := by
  unfold llmClientStream
  split_ifs with hmessages
  · rfl
  · obtain ⟨hstream, hon, hbody⟩ := receive_eq_feed (fun _ => true) (r := {}) rfl chunks
    obtain ⟨hstream', hon', hbody'⟩ := receive_eq_feed (fun _ => true) (r := {}) rfl chunks'
    obtain ⟨hs, hstop⟩ := lines.feeds_flatten (onLine fun _ => true)
      (s := ({} : Receiver).toStreamed) (x := []) rfl chunks
    obtain ⟨hs', hstop'⟩ := lines.feeds_flatten (onLine fun _ => true)
      (s := ({} : Receiver).toStreamed) (x := []) rfl chunks'
    rw [← h] at hs' hstop'
    have heq := hstream.trans (hs.trans (hs'.symm.trans hstream'.symm))
    have hgoes := hon.trans ((congrArg₂ or (hstop.trans hstop'.symm)
      (congrArg Streamed.done (hs.trans hs'.symm))).trans hon'.symm)
    refine Prod.ext heq ?_
    show answer _ _ _ _ _ _ = answer _ _ _ _ _ _
    rw [← hgoes]
    refine answer_congr p ending aborted false heq fun hgo hdone => ?_
    -- The request went on and met no end, so the reader took every line.
    rw [hon, ← hstream, hdone, Bool.or_false] at hgo
    rw [hbody hgo, hbody' (hstop'.trans (hstop.symm.trans hgo)), h]

/-- A frame cut inside a character and an end cut inside its marker and inside its line end. -/
theorem llmClientStream_cut :
    llmClientStream (fun _ => true) {} [⟨ascii "user", ascii "Hello.", [], []⟩]
        (([ascii "data: \x7b\"choices\":[\x7b\"delta\":\x7b\"content\":\"" ++ [0xC3],
          [0xA9] ++ ascii "\"\x7d\x7d]\x7d\r\n\ndata: [DO", ascii "NE]\r", ascii "\n"]).map
            (Prod.mk false))
        ⟨.ok 200, false⟩ (ascii "Canceled") false =
      llmClientStream (fun _ => true) {} [⟨ascii "user", ascii "Hello.", [], []⟩]
        ([ascii "data: \x7b\"choices\":[\x7b\"delta\":\x7b\"content\":\"" ++ [0xC3, 0xA9] ++
          ascii "\"\x7d\x7d]\x7d\r\n\ndata: [DONE]\r\n"].map (Prod.mk false))
        ⟨.ok 200, false⟩ (ascii "Canceled") false :=
  llmClientStream_flatten {} [⟨ascii "user", ascii "Hello.", [], []⟩] (by decide) ⟨.ok 200, false⟩
    (ascii "Canceled")

end Llm
end S2S
