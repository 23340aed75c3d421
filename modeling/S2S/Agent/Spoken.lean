/-
# The words of a run

The text of a turn is kept twice by `llm_agent_run`: as what its caller hears,
delta by delta through the tap, and as what it returns, answer by answer.  A
space may come between the words of two rounds, and the tap decides it from the
text before the round and the first delta of the round, the text from what the
tap did.  The two stay in step (`rounds_text`): the words of the rounds with a
`gap` where neither side has a space.

The model is behind `llm_client_stream` here (`endpointStream`), with anything
an endpoint may send and a caller that may want no more at any delta.
-/

import S2S.Agent.Run
import S2S.Llm.Frames

namespace S2S
namespace Agent

open Json Http Llm

/-! ### The model behind an endpoint -/

/-- What becomes of one request: whether the caller, having got these deltas, wants more; the calls
of the receiver; how the request ends; what the library says of one that the receiver ended; and the
cancel flag by then. -/
structure Exchange where
  cb : List Bytes → Bool
  calls : List (Bool × Bytes)
  ending : Ending
  aborted : Bytes
  cancel : Bool

/-- `llm_client_stream` as the rounds of a turn see it. -/
def endpointStream {W : Type} (p : Params) (net : List Message → W → Exchange × W) : Stream W :=
  fun messages w =>
    let x := (net messages w).1
    let out := llmClientStream x.cb p messages x.calls x.ending x.aborted x.cancel
    (⟨out.1.deltas,
      match out.2 with
      | .ok _ => some (out.1.text, out.1.calls)
      | .error _ => none⟩, (net messages w).2)

/-- The deltas of an answer are its text, none of them empty. -/
def Whole (streamed : Agent.Streamed) : Prop :=
  ∀ answer calls, streamed.result = some (answer, calls) → (0 : UInt8) ∉ answer →
    streamed.deltas.flatten = answer ∧ ∀ delta ∈ streamed.deltas, delta ≠ [] ∧ (0 : UInt8) ∉ delta

/-- The deltas of a stream are its text. -/
def Said (s : Llm.Streamed) : Prop :=
  (0 : UInt8) ∉ s.text → s.deltas.flatten = s.text ∧ ∀ delta ∈ s.deltas, delta ≠ [] ∧ (0 : UInt8) ∉ delta

/-- A frame adds to the text what it hands over. -/
theorem said_onFrame (cb : List Bytes → Bool) {s : Llm.Streamed} (frame : LlmFrame) (h : Said s) :
    Said (onFrame cb s frame).1 := by
  intro hplain
  rw [text_onFrame] at hplain ⊢
  rw [deltas_onFrame]
  rw [List.mem_append, not_or] at hplain
  obtain ⟨hflatten, hall⟩ := h hplain.1
  by_cases hempty : frame.delta = []
  · rw [if_pos hempty, hempty, List.append_nil, List.append_nil]
    exact ⟨hflatten, hall⟩
  · have hcstr : cstr frame.delta = frame.delta := cstr_eq_self_iff.2 hplain.2
    rw [if_neg hempty, hcstr]
    refine ⟨by rw [List.flatten_concat, hflatten], fun delta hdelta => ?_⟩
    rcases List.mem_append.1 hdelta with hold | hnew
    · exact hall delta hold
    · rw [List.mem_singleton.1 hnew]
      exact ⟨hempty, hplain.2⟩

theorem said_onLine (cb : List Bytes → Bool) (s : Llm.Streamed) (line : Bytes) (h : Said s) :
    Said (onLine cb s line).1 := by
  cases hdata : lineData line with
  | none =>
    rw [onLine_none cb s hdata]
    exact h
  | some data =>
    rw [onLine_data cb s hdata]
    split_ifs
    · exact h
    · exact h
    · exact said_onFrame cb _ h

/-- **An answer is what was handed over of it.** -/
theorem whole_endpointStream {W : Type} (p : Params) (net : List Message → W → Exchange × W)
    (messages : List Message) (w : W) : Whole (endpointStream p net messages w).1 := by
  intro answer calls hresult hplain
  have hsaid : Said (llmClientStream (net messages w).1.cb p messages (net messages w).1.calls
      (net messages w).1.ending (net messages w).1.aborted (net messages w).1.cancel).1 := by
    unfold llmClientStream
    split_ifs
    · exact fun _ => ⟨rfl, by simp⟩
    · exact receive_keeps _ (said_onLine _) (fun s hs => hs) (fun _ => ⟨rfl, by simp⟩) _
  unfold endpointStream at hresult ⊢
  dsimp only at hresult ⊢
  split at hresult
  · obtain ⟨rfl, rfl⟩ := Prod.mk.inj (Option.some.inj hresult)
    exact hsaid hplain
  · exact absurd hresult (by simp)

/-! ### The tap -/

/-- The space between two texts: where both are there and neither has one. -/
def gap (said answer : Bytes) : Bytes :=
  if (said.getLast?.any fun b => !isSpaceByte b) && (answer.head?.any fun b => !isSpaceByte b) then [0x20]
  else []

theorem llmAgentTap_false {deltas : List Bytes} (h : ∀ delta ∈ deltas, (0 : UInt8) ∉ delta) :
    llmAgentTap false deltas = (deltas, false) := by
  induction deltas with
  | nil => rfl
  | cons delta deltas ih =>
    rw [llmAgentTap, ih fun d hd => h d (List.mem_cons_of_mem _ hd),
      cstr_eq_self_iff.2 (h delta (List.mem_cons_self ..))]
    simp

/-- **The tap opens a round with a space exactly when the text does.** -/
theorem llmAgentTap_flatten (said : Bytes) {deltas : List Bytes}
    (h : ∀ delta ∈ deltas, delta ≠ [] ∧ (0 : UInt8) ∉ delta) :
    let tapped := llmAgentTap (said.getLast?.any fun b => !isSpaceByte b) deltas
    tapped.1.flatten = gap said deltas.flatten ++ deltas.flatten ∧
      roundText tapped.2 deltas.flatten = gap said deltas.flatten ++ deltas.flatten := by
  have hplain : ∀ delta ∈ deltas, (0 : UInt8) ∉ delta := fun delta hdelta => (h delta hdelta).2
  unfold gap
  cases hopen : said.getLast?.any fun b => !isSpaceByte b with
  | false =>
    rw [llmAgentTap_false hplain]
    simp [roundText]
  | true =>
    cases deltas with
    | nil => simp [llmAgentTap, roundText]
    | cons delta deltas =>
      obtain ⟨hne, hzero⟩ := h delta (List.mem_cons_self ..)
      have hrest := llmAgentTap_false fun d hd => hplain d (List.mem_cons_of_mem _ hd)
      cases delta with
      | nil => exact absurd rfl hne
      | cons b delta =>
        have htap : llmAgentTap true ((b :: delta) :: deltas) =
            if isSpaceByte b then ((b :: delta) :: deltas, false)
            else ([0x20] :: (b :: delta) :: deltas, true) := by
          simp only [llmAgentTap, cstr_eq_self_iff.2 hzero, hrest]
        rw [htap]
        cases hspace : isSpaceByte b <;> simp [hspace, roundText]

/-! ### The rounds -/

section Rounds

variable {W : Type} (servers : Servers W)

/-- What the model answered in the rounds left, one answer a round that ended well. -/
def answers (stream : Stream W) (p : Params) (tools : List AgentTool) :
    ℕ → List Message → W → List Bytes
  | 0, _, _ => []
  | n + 1, messages, w =>
    let (streamed, w) := stream messages w
    match streamed.result with
    | none => []
    | some (answer, toolCalls) =>
      let json := cstr (llmClientCallsJson toolCalls)
      if llmAgentCalls json = [] then [answer]
      else
        let (records, w) := runCalls servers p tools (llmAgentCalls json) w
        if records.any Record.cancelled then [answer]
        else
          let messages := messages ++ [⟨ascii "assistant", answer, json, []⟩]
            ++ records.filterMap Record.reply
          answer :: answers stream p tools n messages w

/-- Answers put together. -/
def joined (said : Bytes) (answers : List Bytes) : Bytes :=
  answers.foldl (fun said answer => said ++ (gap said answer ++ answer)) said

/-- The strings handed to the caller. -/
def deltasOf (heard : List Heard) : List Bytes :=
  heard.filterMap fun
    | .delta text => some text
    | _ => none

theorem deltasOf_append (heard heard' : List Heard) :
    deltasOf (heard ++ heard') = deltasOf heard ++ deltasOf heard' := List.filterMap_append

theorem deltasOf_delta (deltas : List Bytes) : deltasOf (deltas.map .delta) = deltas := by
  induction deltas with
  | nil => rfl
  | cons delta deltas ih => exact congrArg (delta :: ·) ih

/-- A call of a tool is heard, but says no word. -/
theorem deltasOf_records (records : List Record) : deltasOf (records.flatMap Record.heard) = [] := by
  induction records with
  | nil => rfl
  | cons r records ih => rw [List.flatMap_cons, deltasOf_append, ih]; rfl

/-- **The rounds left**: what they add to the text is what is heard of them, and is their answers put
behind what was said. -/
theorem rounds_text (stream : Stream W) (hstream : ∀ messages w, Whole (stream messages w).1)
    (p : Params) (tools : List AgentTool) (maxRounds : ℤ) (n : ℕ) (messages : List Message)
    (text : Bytes) (w : W) :
    let o := (rounds servers stream p tools maxRounds n messages text w).1
    o.returned = true → (0 : UInt8) ∉ o.text →
      o.text = text ++ (deltasOf o.heard).flatten ∧
        o.text = joined text (answers servers stream p tools n messages w) := by
  induction n generalizing messages text w with
  | zero => exact fun h => absurd h (by simp [rounds])
  | succ n ih =>
    have hwhole := hstream messages w
    rw [rounds, answers]
    rcases hs : stream messages w with ⟨⟨deltas, _ | ⟨answer, toolCalls⟩⟩, v⟩
    · exact fun h => absurd h (by simp)
    · rw [hs] at hwhole
      -- what this round adds, once its words are known to hold no zero
      have hround : (0 : UInt8) ∉ answer →
          let tapped := llmAgentTap (text.getLast?.any fun b => !isSpaceByte b) deltas
          tapped.1.flatten = gap text answer ++ answer ∧ roundText tapped.2 answer = gap text answer ++ answer := by
        intro hplain
        obtain ⟨hflatten, hall⟩ := hwhole answer toolCalls rfl hplain
        have h := llmAgentTap_flatten text hall
        rw [hflatten] at h
        exact h
      dsimp only
      split_ifs with hcalls hcancelled
      · intro _ hplain
        obtain ⟨hheard, htext⟩ := hround fun hzero => hplain (by
          unfold roundText
          split_ifs <;> simp [hzero])
        rw [deltasOf_delta, hheard, htext]
        exact ⟨rfl, rfl⟩
      · exact fun h => absurd h (by simp)
      · intro hreturned hplain
        obtain ⟨hheard', htext'⟩ := ih _ _ _ hreturned hplain
        obtain ⟨hheard, htext⟩ := hround fun hzero => hplain (by
          show (0 : UInt8) ∈ (rounds _ _ _ _ _ _ _ _ _).1.text
          rw [hheard']
          unfold roundText
          split_ifs <;> simp [hzero])
        rw [htext] at hheard' htext'
        constructor
        · show (rounds _ _ _ _ _ _ _ _ _).1.text = _ ++ (deltasOf (_ ++ _ ++ _)).flatten
          rw [htext, hheard', deltasOf_append, deltasOf_append, deltasOf_delta, deltasOf_records,
            List.append_nil, List.flatten_append, hheard, List.append_assoc]
        · show (rounds _ _ _ _ _ _ _ _ _).1.text = _
          rw [htext]
          exact htext'

/-- What the model answered in a run. -/
def runAnswers (stream : Stream W) (builtins : List Tool) (clients : List Bool) (p : Params)
    (enabled : List Bytes) (maxRounds : ℤ) (messages : List Message) (w : W) : List Bytes :=
  match llmAgentGather servers builtins clients w with
  | (none, _) => []
  | (some available, w) =>
    match servers.setParams (tooled p available enabled) w with
    | (false, _) => []
    | (true, w) => answers servers stream p available maxRounds.toNat messages w

/-! ### Borders -/

/-- **The border before an answer.**  Behind words, the words of an answer follow white space: a
space of the words before, of its own, or one put between them, which is when neither has one; before
the first words there is none. -/
theorem gap_border (said answer : Bytes) :
    (gap said answer = [] ∨ gap said answer = [0x20]) ∧
      (said ≠ [] → answer ≠ [] → ∃ b, isSpaceByte b = true ∧
        (said.getLast? = some b ∨ gap said answer = [b] ∨ answer.head? = some b)) ∧
      (gap said answer ≠ [] → said ≠ [] ∧
        ∀ b, said.getLast? = some b ∨ answer.head? = some b → isSpaceByte b = false) := by
  rcases List.eq_nil_or_concat' said with rfl | ⟨before, x, rfl⟩
  · simp [gap]
  · cases answer with
    | nil => simp [gap]
    | cons y answer =>
      have hends : gap (before ++ [x]) (y :: answer)
          = if !isSpaceByte x && !isSpaceByte y then [0x20] else [] := by simp [gap]
      rw [hends]
      cases hx : isSpaceByte x with
      | true => exact ⟨by simp, fun _ _ => ⟨x, hx, .inl (by simp)⟩, by simp⟩
      | false =>
        cases hy : isSpaceByte y with
        | true => exact ⟨by simp, fun _ _ => ⟨y, hy, .inr (.inr rfl)⟩, by simp⟩
        | false =>
          refine ⟨by simp, fun _ _ => ⟨0x20, rfl, .inr (.inl (by simp))⟩, fun _ => ⟨by simp, ?_⟩⟩
          intro b hb
          rcases hb with hb | hb
          · obtain rfl : x = b := by simpa using hb
            exact hx
          · obtain rfl : y = b := by simpa using hb
            exact hy

/-- Where an answer stands in the text of a run. -/
theorem joined_split (said : Bytes) (before : List Bytes) (answer : Bytes) (after : List Bytes) :
    ∃ rest, joined said (before ++ answer :: after)
      = joined said before ++ (gap (joined said before) answer ++ answer) ++ rest := by
  have hgrows : ∀ (said : Bytes) (after : List Bytes), ∃ rest, joined said after = said ++ rest := by
    intro said after
    induction after generalizing said with
    | nil => exact ⟨[], (List.append_nil said).symm⟩
    | cons a after ih =>
      obtain ⟨rest, hrest⟩ := ih (said ++ (gap said a ++ a))
      exact ⟨gap said a ++ a ++ rest, by rw [← List.append_assoc]; exact hrest⟩
  rw [joined, List.foldl_append, List.foldl_cons]
  exact hgrows _ after

/-- **The words of a run.**  What a run returns is what its caller heard, and the answers of its
rounds with a gap between words and words. -/
theorem spoken_text (net : List Message → W → Exchange × W) (q : Params) (builtins : List Tool)
    (clients : List Bool) (p : Params) (enabled : List Bytes) (maxRounds : ℤ)
    (messages : List Message) (w : W) :
    let stream := endpointStream q net
    let o := (llmAgentRun servers stream builtins clients p enabled maxRounds messages w).1
    o.returned = true → (0 : UInt8) ∉ o.text →
      o.text = (deltasOf o.heard).flatten ∧
        ∀ before answer after,
          runAnswers servers stream builtins clients p enabled maxRounds messages w
            = before ++ answer :: after →
          ∃ rest, o.text = joined [] before ++ (gap (joined [] before) answer ++ answer) ++ rest ∧
            (joined [] before ≠ [] → answer ≠ [] → ∃ b, isSpaceByte b = true ∧
              ((joined [] before).getLast? = some b ∨ gap (joined [] before) answer = [b] ∨
                answer.head? = some b)) ∧
            (gap (joined [] before) answer ≠ [] → joined [] before ≠ [] ∧
              ∀ b, (joined [] before).getLast? = some b ∨ answer.head? = some b →
                isSpaceByte b = false) := by
  dsimp only
  intro hreturned hplain
  have hwords := rounds_text servers (endpointStream q net) (whole_endpointStream q net)
  unfold llmAgentRun at hreturned hplain ⊢
  unfold runAnswers
  rcases hgather : llmAgentGather servers builtins clients w with ⟨_ | available, v⟩
  · rw [hgather] at hreturned
    exact absurd hreturned (by simp)
  · rw [hgather] at hreturned hplain
    dsimp only at hreturned hplain ⊢
    rcases hset : servers.setParams (tooled p available enabled) v with ⟨_ | _, v'⟩
    · rw [hset] at hreturned
      exact absurd hreturned (by simp)
    · rw [hset] at hreturned hplain
      obtain ⟨hheard, htext⟩ := hwords p available maxRounds maxRounds.toNat messages [] v'
        hreturned hplain
      refine ⟨hheard, fun before answer after hsplit => ?_⟩
      dsimp only at hsplit
      obtain ⟨rest, hrest⟩ := joined_split [] before answer after
      obtain ⟨-, hspace, hgap⟩ := gap_border (joined [] before) answer
      exact ⟨rest, by rw [htext, hsplit, hrest], hspace, hgap⟩

end Rounds

/-- A model that says a word and calls a tool, then says another. -/
def twoWords : List Message → ℕ → Exchange × ℕ := fun _ round =>
  (⟨fun _ => true,
    [(false, ascii (if round = 0 then
      "data: \x7b\"choices\":[\x7b\"delta\":\x7b\"content\":\"Hi.\",\"tool_calls\":[\x7b\"index\":0,\"id\":\"1\",\"function\":\x7b\"name\":\"t\"\x7d\x7d]\x7d\x7d]\x7d\ndata: [DONE]\n"
      else "data: \x7b\"choices\":[\x7b\"delta\":\x7b\"content\":\"Yes.\"\x7d\x7d]\x7d\ndata: [DONE]\n"))],
    ⟨.ok 200, false⟩, [], false⟩, round + 1)

/-- Nobody runs a tool. -/
def noTools : Servers ℕ where
  mcpClientTools _ w := (none, w)
  llmClientTools w := (some [], w)
  setParams _ w := (true, w)
  builtin _ _ w := (none, w)
  mcpClientCall _ _ _ w := (none, w)
  llmClientToolCall _ _ w := (none, w)
  cancelled w := (false, w)
  clock w := (0, w)
  recordError _ w := w
  lastError _ := []

/-- "Hi." and "Yes.", with a space between them. -/
theorem spoken_text_twice :
    let o := (llmAgentRun noTools (endpointStream {} twoWords) [] [] {} [] 2
      [⟨ascii "user", ascii "Well?", [], []⟩] 0).1
    o.text = ascii "Hi. Yes." ∧ o.text = (deltasOf o.heard).flatten := by
  have hreturned : (llmAgentRun noTools (endpointStream {} twoWords) [] [] {} [] 2
      [⟨ascii "user", ascii "Well?", [], []⟩] 0).1.returned = true := by decide +kernel
  have htext : (llmAgentRun noTools (endpointStream {} twoWords) [] [] {} [] 2
      [⟨ascii "user", ascii "Well?", [], []⟩] 0).1.text = ascii "Hi. Yes." := by decide +kernel
  have hplain : (0 : UInt8) ∉ ascii "Hi. Yes." := by decide
  exact ⟨htext, (spoken_text noTools twoWords {} [] [] {} [] 2 [⟨ascii "user", ascii "Well?", [], []⟩] 0
    hreturned (by rw [htext]; exact hplain)).1⟩

end Agent
end S2S
