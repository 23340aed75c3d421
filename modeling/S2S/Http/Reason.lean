/-
# The reason of a failure in its frame

An endpoint or a server that answers with an error says why in a body, or in a
line of the stream.  `llm_client_reason` and `mcp_reason` keep the message of
it, or its first line, `s2s_set_error` puts it behind the tag of its component
(`src/s2s-error.h`), and `rt_event_error` of `src/realtime-proto.h` sends the
text to the client in a frame, whose writer lets any byte out.  A WebSocket
client closes on a text frame that is not UTF-8.

The reason is cut to a number of bytes.  `rtEventError_source` says when the
frame of a body of whole characters is one: when no character goes on across
the cut.  The other cuts and the escapes never fall inside one.
-/

import S2S.Json.Strings
import S2S.Llm.Frames
import S2S.Mcp.Exchange

namespace S2S
namespace Http

open Json Llm Mcp

/-! ### The reason -/

/-- The reason a body gives, as long as it is: the message of its error, or its first line. -/
def reasonText (body : Bytes) : Bytes :=
  let reason :=
    match parse body with
    | none => []
    | some doc =>
      match doc.get (ascii "error") with
      | some (.obj members) => textOf ((Value.obj members).get (ascii "message"))
      | error => textOf error
  if reason = [] then body.takeWhile (· ≠ 0x0A) else reason

theorem errorReason_eq (max : ℕ) (body : Bytes) :
    errorReason max body = (reasonText body).take max := rfl

/-- **A whole body gives a whole reason**, whatever its shape. -/
theorem validUtf8_reasonText {body : Bytes} (h : validUtf8 body = true) :
    validUtf8 (reasonText body) = true := by
  unfold reasonText
  dsimp only
  split_ifs with hempty
  · exact validUtf8_takeWhile (by decide) h
  cases hdoc : parse body with
  | none => simp [hdoc] at hempty
  | some doc =>
    dsimp only
    have hwhole := whole_of_parse hdoc
    split
    · next members hobj => exact (hwhole.get hobj).text _
    · exact hwhole.text _

/-- What a reason cut to `max` bytes is printed from, for a reason of whole characters: a zero byte
ends it, or the cut has to fall in front of a character. -/
theorem validUtf8_cstr_take {s : Bytes} {n : ℕ} (h : validUtf8 s = true) :
    validUtf8 (cstr (s.take n)) = true ↔
      (0 : UInt8) ∈ s.take n ∨ ∀ b ∈ s[n]?, continues b = false := by
  have hsplit := List.take_append_drop n s
  by_cases hzero : (0 : UInt8) ∈ s.take n
  · have hcut : cstr s = cstr (s.take n) := by
      have hlt : (cstr (s.take n)).length ≠ (s.take n).length := fun heq =>
        cstr_eq_self_iff.1 ((List.takeWhile_prefix _).eq_of_length heq) hzero
      conv_lhs => rw [← hsplit]
      rw [cstr, List.takeWhile_append]
      exact if_neg hlt
    rw [← hcut]
    exact ⟨fun _ => .inl hzero, fun _ => validUtf8_takeWhile (by decide) h⟩
  rw [cstr_eq_self_iff.2 hzero]
  cases hrest : s.drop n with
  | nil =>
    rw [hrest, List.append_nil] at hsplit
    have hnone : s[n]? = none := List.getElem?_eq_none (List.drop_eq_nil_iff.1 hrest)
    simp [hsplit, h, hnone]
  | cons c rest =>
    rw [hrest] at hsplit
    have hc : s[n]? = some c := by
      rw [← List.head?_drop, hrest]
      rfl
    rw [← hsplit] at h
    rw [validUtf8_cut h, hc]
    simp [hzero]

/-! ### The message -/

/-- An ASCII character that a C string does not end at. -/
def isPlain (b : UInt8) : Bool := decide (0 < b) && decide (b < 0x80)

theorem validUtf8_of_plain {s : Bytes} (h : s.all isPlain = true) : validUtf8 s = true := by
  induction s with
  | nil => rfl
  | cons b s ih =>
    simp only [List.all_cons, Bool.and_eq_true, isPlain, decide_eq_true_eq] at h
    have hlead : lead b = some .done := if_pos h.1.2
    rw [validUtf8, utf8From, Tail.step.eq_1, hlead]
    exact ih h.2

theorem cstr_of_plain {s : Bytes} (h : s.all isPlain = true) : cstr s = s := by
  refine cstr_eq_self_iff.2 fun hzero => ?_
  have := List.all_eq_true.1 h 0 hzero
  exact absurd this (by decide)

theorem plain_intText (i : ℤ) : (intText i).all isPlain = true := by
  have hdigit : ∀ b : UInt8, isDigit b = true → isPlain b = true := by
    intro b hb
    simp only [isDigit, Bool.and_eq_true, decide_eq_true_eq] at hb
    simp only [isPlain, Bool.and_eq_true, decide_eq_true_eq]
    exact ⟨UInt8.lt_of_lt_of_le (by decide) hb.1, UInt8.lt_of_le_of_lt hb.2 (by decide)⟩
  refine List.all_eq_true.2 fun b hb => ?_
  unfold intText at hb
  split_ifs at hb
  · rcases List.mem_cons.1 hb with rfl | hb
    · decide
    · exact hdigit b (isDigit_of_mem_natText hb)
  · exact hdigit b (isDigit_of_mem_natText hb)

theorem length_intText (status : BitVec 32) : (intText status.toInt).length ≤ 11 := by
  have hbound : status.toInt.natAbs < 10 ^ 10 := by
    have := BitVec.toInt_lt (x := status)
    have := BitVec.le_toInt (x := status)
    omega
  unfold intText
  split_ifs
  · exact Nat.succ_le_succ (length_natText_le (by decide) hbound)
  · exact (length_natText_le (by decide) hbound).trans (by decide)

/-- Where a reason comes from, with the status of the response that carries it. -/
inductive Source
  | endpoint (status : BitVec 32)
  | stream
  | server (status : BitVec 32)

/-- What stands before the reason. -/
def Source.tag : Source → List Bytes
  | .endpoint status => [ascii "[LLM] HTTP ", intText status.toInt, ascii ", "]
  | .stream => [ascii "[LLM] "]
  | .server status => [ascii "[MCP] HTTP ", intText status.toInt, ascii ", "]

/-- What is kept of a body. -/
def Source.reason (body : Bytes) : Source → Bytes
  | .server _ => mcpReason body
  | _ => llmClientReason body

/-- What is recorded of a body. -/
def Source.message (source : Source) (body : Bytes) : Bytes :=
  setError (source.tag ++ [source.reason body])

theorem Source.plain_tag (source : Source) : source.tag.flatten.all isPlain = true := by
  cases source with
  | stream => rfl
  | endpoint status | server status =>
    simp only [tag, List.flatten_cons, List.flatten_nil, List.append_nil, List.all_append,
      plain_intText, Bool.true_and]
    rfl

theorem Source.length_tag (source : Source) : source.tag.flatten.length ≤ 24 := by
  cases source with
  | stream => decide
  | endpoint status | server status =>
    have hint := length_intText status
    have hllm : (ascii "[LLM] HTTP ").length = 11 := by decide
    have hmcp : (ascii "[MCP] HTTP ").length = 11 := by decide
    have hcomma : (ascii ", ").length = 2 := by decide
    simp only [tag, List.flatten_cons, List.flatten_nil, List.append_nil, List.length_append]
    omega

/-- **The buffer of a message has room** for the tag and the reason: it cuts neither. -/
theorem Source.message_eq (source : Source) (body : Bytes) :
    source.message body = source.tag.flatten ++ cstr ((reasonText body).take 200) := by
  have hreason : source.reason body = (reasonText body).take 200 := by
    cases source <;> exact errorReason_eq 200 body
  have hplain : ∀ part ∈ source.tag, cstr part = part := fun part hpart =>
    cstr_of_plain (List.all_eq_true.2 fun b hb =>
      List.all_eq_true.1 source.plain_tag b (List.mem_flatten_of_mem hpart hb))
  have htag : source.tag.flatMap cstr = source.tag.flatten := by
    rw [List.flatMap_def, List.map_congr_left hplain, List.map_id']
  rw [message, setError, List.flatMap_append, htag, hreason, List.flatMap_singleton]
  refine List.take_of_length_le ?_
  have hcut : (cstr ((reasonText body).take 200)).length ≤ 200 :=
    (List.takeWhile_prefix _).length_le.trans (length_errorReason_le 200 body)
  have := source.length_tag
  rw [List.length_append]
  omega

/-- The clients record these messages: a status that is an error, and a line of the stream that
reports one. -/
theorem answerBody_error {r : Response} {status : BitVec 32} (hstatus : r.status = status.toInt)
    (hok : r.ok = false) :
    answerBody (.ok r) = .error ((Source.endpoint status).message r.body) := by
  simp [answerBody, hok, hstatus, Source.message, Source.tag, Source.reason]

theorem answer_failure {p : Params} {ending : Ending} {aborted : Bytes} {cancel on : Bool}
    {r : Receiver} {line : Bytes} (hline : r.failure = llmClientReason line)
    (hne : r.failure ≠ []) :
    answer p ending aborted cancel r on = .error (Source.stream.message line) := by
  unfold answer
  rw [if_pos hne, hline]
  rfl

theorem answer_status {p : Params} {ending : Ending} {aborted : Bytes} {r : Receiver}
    {status : BitVec 32} (hfailure : r.failure = []) (hcancelled : r.cancelled = false)
    (hdone : r.done = false) (hresult : ending.result = .ok status.toInt)
    (hok : status.toInt < 200 ∨ 300 ≤ status.toInt) :
    answer p ending aborted false r true = .error ((Source.endpoint status).message r.body) := by
  simp [answer, hfailure, hcancelled, hdone, hresult, hok, Source.message, Source.tag,
    Source.reason]

theorem readReply_error (spell : Bytes → Decimal) (id : ℤ) {r : Response} {status : BitVec 32}
    (hstatus : r.status = status.toInt) (hok : r.ok = false) :
    readReply spell id ⟨.ok r, false⟩ = .error ((Source.server status).message r.body) := by
  simp [readReply, hok, hstatus, Source.message, Source.tag, Source.reason]

/-! ### The frame -/

/-- A string as the writer of the frames has it (`RT_WRITE_FLAGS`): bytes that are not UTF-8 go out
as they came. -/
def rtText (s : Bytes) : Bytes := quote :: (s.flatMap escapeByte ++ [quote])

/-- `rt_event_error`. -/
def rtEventError (message : Bytes) : Bytes :=
  [lbrace] ++ rtText (ascii "type") ++ [colon] ++ rtText (ascii "error") ++ [comma] ++
    rtText (ascii "error") ++ [colon, lbrace] ++ rtText (ascii "message") ++ [colon] ++
    rtText message ++ [rbrace, rbrace]

theorem validUtf8_escapeByte {b : UInt8} (hb : b < 0x80) : validUtf8 (escapeByte b) = true := by
  have hall : ∀ n < 0x80, validUtf8 (escapeByte (UInt8.ofNat n)) = true := by decide +kernel
  have h := hall b.toNat (UInt8.lt_iff_toNat_lt.1 hb)
  rwa [UInt8.ofNat_toNat] at h

/-- An escape is ASCII where the byte is, and every other byte is its own. -/
theorem foldlM_escapeByte (t : Tail) (b : UInt8) :
    (escapeByte b).foldlM Tail.step t = t.step b := by
  by_cases hb : b < 0x80
  · cases t with
    | done =>
      have hone : lead b = some .done := if_pos hb
      rw [utf8From_iff.1 (validUtf8_escapeByte hb)]
      exact hone.symm
    | owed n r =>
      have hnone : ∀ c : UInt8, c < 0x80 → (Tail.owed n r).step c = none := fun c hc =>
        if_neg fun hr => absurd (UInt8.le_trans r.le_lo hr.1) (UInt8.not_le.2 hc)
      have hfirst : ∃ c w, escapeByte b = c :: w ∧ c < 0x80 := by
        unfold escapeByte
        split_ifs <;> first | exact ⟨_, _, rfl, hb⟩ | exact ⟨_, _, rfl, by decide⟩
      obtain ⟨c, w, hcw, hc⟩ := hfirst
      rw [hcw, List.foldlM_cons, hnone c hc, hnone b hb]
      rfl
  · have hself : escapeByte b = [b] := by
      have hne : ∀ c : UInt8, c < 0x80 → b ≠ c := fun c hc hbc => hb (hbc ▸ hc)
      have h20 : ¬b < 0x20 := fun hlt => hb (UInt8.lt_trans hlt (by decide))
      simp [escapeByte, hne quote (by decide), hne backslash (by decide), hne 0x08 (by decide),
        hne 0x09 (by decide), hne 0x0A (by decide), hne 0x0C (by decide), hne 0x0D (by decide),
        h20]
    rw [hself]
    simp

/-- **Escaping a text keeps its characters**, those that are none included. -/
theorem validUtf8_escape (s : Bytes) : validUtf8 (s.flatMap escapeByte) = validUtf8 s := by
  have hrun : ∀ t : Tail, (s.flatMap escapeByte).foldlM Tail.step t = s.foldlM Tail.step t := by
    induction s with
    | nil => exact fun t => rfl
    | cons b s ih =>
      intro t
      rw [List.flatMap_cons, List.foldlM_append, foldlM_escapeByte, List.foldlM_cons]
      exact bind_congr ih
  rw [Bool.eq_iff_iff, validUtf8, validUtf8, utf8From_iff, utf8From_iff, hrun]

/-- **The frame is UTF-8 exactly when its message is.** -/
theorem validUtf8_rtEventError (message : Bytes) :
    validUtf8 (rtEventError message) = validUtf8 message := by
  obtain ⟨head, hhead, hsplit⟩ : ∃ head, validUtf8 head = true ∧ rtEventError message
      = head ++ (message.flatMap escapeByte ++ quote :: [rbrace, rbrace]) := by
    refine ⟨[lbrace] ++ rtText (ascii "type") ++ [colon] ++ rtText (ascii "error") ++ [comma] ++
      rtText (ascii "error") ++ [colon, lbrace] ++ rtText (ascii "message") ++ [colon, quote],
      by decide +kernel, ?_⟩
    simp [rtEventError, rtText]
  rw [Bool.eq_iff_iff, hsplit, validUtf8_append_iff hhead, ← validUtf8_escape message]
  exact ⟨fun h => (validUtf8_cut h).2 (by decide),
    fun h => validUtf8_append h (by decide)⟩

/-- **When the frame of a reason is UTF-8**: for every source and every body of whole characters,
exactly when a zero byte ends the reason before its cut or no character goes on across it. -/
theorem rtEventError_source (source : Source) {body : Bytes} (h : validUtf8 body = true) :
    validUtf8 (rtEventError (source.message body)) = true ↔
      (0 : UInt8) ∈ (reasonText body).take 200 ∨
        ∀ b ∈ (reasonText body)[200]?, continues b = false := by
  rw [validUtf8_rtEventError, source.message_eq,
    validUtf8_append_iff (validUtf8_of_plain source.plain_tag)]
  exact validUtf8_cstr_take (validUtf8_reasonText h)

/-- A short reason. -/
theorem rtEventError_source_short : validUtf8 (ascii "no model") = true ∧
    validUtf8 (rtEventError ((Source.endpoint 503).message (ascii "no model"))) = true :=
  ⟨by decide, (rtEventError_source (.endpoint 503) (by decide)).2
    (.inr fun b hb => by simp [show (reasonText (ascii "no model"))[200]? = none from rfl] at hb)⟩

/-- A line of 199 letters and an accented one, answered with the status 500. -/
theorem accent_across_the_cut : ¬∀ (source : Source) (body : Bytes), validUtf8 body = true →
    validUtf8 (rtEventError (source.message body)) = true := by
  intro h
  have hframe := h (.endpoint 500) (List.replicate 199 0x61 ++ [0xC3, 0xA9]) (by decide +kernel)
  exact absurd hframe (by decide +kernel)

end Http
end S2S
