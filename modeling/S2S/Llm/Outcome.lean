/-
# What a status is worth

`llm_client_stream` answers when a response of success came to its end, and is
meant to say nothing of a response that is an error: `src/llm-client.h` has it
return false on an error the endpoint reports, as a status or inside the stream.
The receiver hears the body before anyone looks at the status, though, and the
end of the stream is an answer before it.  `honest_iff` says for which responses
the outcome is what it is meant to be: those of success, and of the others those
that hand over no content and do not come to `[DONE]`.
-/

import S2S.Llm.Frames

namespace S2S
namespace Llm

open Json Http

/-- A response as it arrives: its status, the calls of the receiver, and, for one that breaks off,
what the library says of it. -/
structure Arrival where
  status : ℤ
  calls : List (Bool × Bytes)
  lost : Option Bytes
  silent : Bool

namespace Arrival

variable (a : Arrival)

def ending : Ending := ⟨match a.lost with | none => .ok a.status | some e => .error e, a.silent⟩

/-- A status of success. -/
def Success : Prop := 200 ≤ a.status ∧ a.status < 300

instance : Decidable a.Success := inferInstanceAs (Decidable (_ ∧ _))

/-- The data lines handed over before a call that finds the flag up. -/
def datas : List Bytes := dataOf (heardBody a.calls)

/-- Those up to the end of the stream. -/
def frames : List Bytes := a.datas.takeWhile fun data => data ≠ ascii "[DONE]"

end Arrival

/-- **What an outcome is meant to be**: true only for a response of success, without a frame that
reports an error, that nobody cancelled and that came to its end, and no word of any other
response. -/
structure Honest (cb : List Bytes → Bool) (a : Arrival) (cancel : Bool)
    (out : Streamed × Except Bytes Bytes) : Prop where
  success : ∀ json, out.2 = .ok json → a.Success
  sound : ∀ json, out.2 = .ok json → ∀ data ∈ a.frames, (llmClientFrame data).failed = false
  wanted : ∀ json, out.2 = .ok json → cancel = false ∧
    (a.calls.any Prod.fst = true → ascii "[DONE]" ∈ a.datas) ∧
    ∀ n < out.1.deltas.length, cb (out.1.deltas.take (n + 1)) = true
  ended : ∀ json, out.2 = .ok json →
    ascii "[DONE]" ∈ a.datas ∨ ∃ data ∈ a.frames, (llmClientFrame data).finish ≠ []
  silent : ¬a.Success → out.1.deltas = []

/-! ### What frames leave -/

/-- What the callback is told of a frame. -/
def heardOf (data : Bytes) : List Bytes :=
  if (llmClientFrame data).delta = [] then [] else [cstr (llmClientFrame data).delta]

theorem deltas_takeFrames (s : Streamed) (datas : List Bytes) :
    (takeFrames s datas).deltas = s.deltas ++ datas.flatMap heardOf := by
  induction datas generalizing s with
  | nil => exact (List.append_nil _).symm
  | cons data datas ih =>
    have hstep : takeFrames s (data :: datas)
        = takeFrames (onFrame (fun _ => true) s (llmClientFrame data)).1 datas := rfl
    rw [hstep, ih, deltas_onFrame, List.flatMap_cons, List.append_assoc]
    rfl

theorem finish_takeFrames {s : Streamed} {datas : List Bytes} (h : (takeFrames s datas).finish ≠ []) :
    s.finish ≠ [] ∨ ∃ data ∈ datas, (llmClientFrame data).finish ≠ [] := by
  induction datas generalizing s with
  | nil => exact .inl h
  | cons data datas ih =>
    rcases ih h with hs | ⟨later, hmem, hlater⟩
    · rw [finish_onFrame] at hs
      split_ifs at hs with hempty
      · exact .inl hs
      · exact .inr ⟨data, List.mem_cons_self .., hempty⟩
    · exact .inr ⟨later, List.mem_cons_of_mem _ hmem, hlater⟩

theorem stopAt_done (s : Streamed) :
    stopAt s (some (ascii "[DONE]")) = { s with done := true } := by simp [stopAt]

/-- **The callback is told nothing exactly when the frames read have no content.** -/
theorem deltas_receive_eq_nil_iff (cb : List Bytes → Bool) (calls : List (Bool × Bytes)) :
    (receive cb {} calls).1.deltas = [] ↔
      ∀ data ∈ reached (dataOf (heardBody calls)), (llmClientFrame data).delta = [] := by
  have hheard : ∀ data, heardOf data = [] ↔ (llmClientFrame data).delta = [] := by
    intro data
    unfold heardOf
    split_ifs with hempty <;> simp [hempty]
  have hdeltas : (receive (fun _ => true) {} calls).1.deltas
      = (reached (dataOf (heardBody calls))).flatMap heardOf := by
    obtain ⟨done, failure, cancelled, hsaid⟩ := receive_said calls
    exact (congrArg Streamed.deltas hsaid).trans (deltas_takeFrames {} _)
  rw [deltas_eq_nil_iff, hdeltas, List.flatMap_eq_nil_iff]
  exact forall₂_congr fun data _ => hheard data

/-- The frames up to the end, when nothing else ends the reading. -/
theorem takeWhile_eq_reached {datas : List Bytes}
    (h : stopper datas = none ∨ stopper datas = some (ascii "[DONE]")) :
    (datas.takeWhile fun data => data ≠ ascii "[DONE]") = reached datas := by
  induction datas with
  | nil => rfl
  | cons data datas ih =>
    unfold reached
    by_cases hend : data = ascii "[DONE]"
    · have hstops : stops data = true := by simp [stops, hend]
      simp [hend, hend ▸ hstops]
    · by_cases hstops : stops data = true
      · simp [stopper, hstops, hend] at h
      · rw [Bool.not_eq_true] at hstops
        have hrest : stopper (data :: datas) = stopper datas := by simp [stopper, hstops]
        rw [hrest] at h
        simpa [hend, hstops, reached] using ih h

theorem not_failed_of_reached {datas : List Bytes} {data : Bytes} (h : data ∈ reached datas) :
    (llmClientFrame data).failed = false := by
  have := List.mem_takeWhile_imp h
  simp only [stops, Bool.not_eq_true', Bool.or_eq_false_iff] at this
  exact this.2

/-- The callback wanted more of everything it was told, unless it cancelled. -/
def Wanted (cb : List Bytes → Bool) (s : Streamed) : Prop :=
  s.cancelled = false → ∀ n < s.deltas.length, cb (s.deltas.take (n + 1)) = true

theorem wanted_onFrame {cb : List Bytes → Bool} {s : Streamed} (hs : Wanted cb s)
    (frame : LlmFrame) : Wanted cb (onFrame cb s frame).1 := by
  unfold onFrame
  dsimp only
  by_cases hempty : frame.delta = []
  · rw [if_pos hempty]
    exact hs
  rw [if_neg hempty]
  by_cases hwants : cb (s.deltas ++ [cstr frame.delta]) = true
  · rw [if_pos hwants]
    intro hcancelled n hn
    dsimp only at hn ⊢
    rw [List.length_append, List.length_singleton, Nat.lt_succ_iff] at hn
    rcases hn.lt_or_eq with hlt | rfl
    · rw [List.take_append_of_le_length hlt]
      exact hs hcancelled n hlt
    · rwa [List.take_of_length_le (by simp)]
  · rw [if_neg hwants]
    exact fun hcancelled => absurd hcancelled (by simp)

theorem wanted_receive (cb : List Bytes → Bool) (calls : List (Bool × Bytes)) :
    Wanted cb (receive cb {} calls).1.toStreamed := by
  refine receive_keeps cb (fun s line hs => ?_) (fun s _ h => absurd h (by simp))
    (fun _ n hn => absurd hn (by simp)) calls
  cases hdata : lineData line with
  | none => rwa [onLine_none cb s hdata]
  | some data =>
    rw [onLine_data cb s hdata]
    split_ifs
    · exact hs
    · exact hs
    · exact wanted_onFrame hs _

/-! ### When it answers -/

section Outcome

variable {cb : List Bytes → Bool} {p : Params} {a : Arrival} {aborted json : Bytes} {cancel : Bool}

/-- **An answer** was cancelled by nobody, met no frame that reports an error, and came to its end. -/
theorem ended_of_answer
    (h : answer p a.ending aborted cancel (receive cb {} a.calls).1 (receive cb {} a.calls).2 = .ok json) :
    (receive cb {} a.calls).1.cancelled = false ∧ cancel = false ∧
      (stopper a.datas = some (ascii "[DONE]") ∨
        stopper a.datas = none ∧ a.calls.any Prod.fst = false ∧ a.Success ∧
          ∃ data ∈ reached a.datas, (llmClientFrame data).finish ≠ []) := by
  obtain ⟨⟨hfailure, hcancelled, hcancel, hend⟩, -⟩ := answer_ok_iff.1 h
  rw [receive_eq_of_not_cancelled cb hcancelled] at hfailure hend
  have hcancelled' := hcancelled
  rw [receive_eq_of_not_cancelled cb hcancelled] at hcancelled'
  obtain ⟨hstream, hon⟩ := receive_frames a.calls
  refine ⟨hcancelled, hcancel, ?_⟩
  cases hstop : stopper a.datas with
  | some data =>
    refine .inl (congrArg some ?_)
    by_contra hdata
    refine failure_ne_nil hstop hdata (takeFrames {} (reached a.datas)) ?_
    have hleft : (receive (fun _ => true) {} a.calls).1.toStreamed
        = stopAt (takeFrames {} (reached a.datas)) (stopper a.datas) := by
      rw [hstream]
      exact if_neg fun hnone => absurd (hstop.symm.trans hnone.1) (by simp)
    rw [← hstop, ← hleft]
    exact hfailure
  | none =>
    refine .inr ⟨rfl, ?_⟩
    have hany : a.calls.any Prod.fst = false := by
      by_contra hany
      rw [Bool.not_eq_false] at hany
      rw [congrArg Streamed.cancelled hstream, if_pos ⟨hstop, hany⟩] at hcancelled'
      exact absurd hcancelled' (by simp)
    have hleft : (receive (fun _ => true) {} a.calls).1.toStreamed
        = takeFrames {} (reached a.datas) := by
      rw [hstream, if_neg fun hflag => absurd (hflag.2.symm.trans hany) (by simp)]
      exact congrArg (stopAt _) hstop
    rw [congrArg Streamed.done hleft, (takeFrames_goes _).1, congrArg Streamed.finish hleft] at hend
    rcases hend with hend | ⟨-, hfinish, status, hresult, hlow, hhigh⟩
    · exact absurd hend (by simp)
    refine ⟨hany, ?_, ?_⟩
    · unfold Arrival.ending at hresult
      dsimp only at hresult
      split at hresult
      · obtain rfl := Except.ok.inj hresult
        exact ⟨hlow, hhigh⟩
      · exact absurd hresult (by simp)
    · exact (finish_takeFrames hfinish).resolve_left fun hnil => hnil rfl

/-- A stream without content that comes to `[DONE]` is an answer, whatever its status. -/
theorem answer_of_done (hheard : ∀ data ∈ reached a.datas, (llmClientFrame data).delta = [])
    (hstop : stopper a.datas = some (ascii "[DONE]")) :
    ∃ json, answer p a.ending aborted false (receive cb {} a.calls).1 (receive cb {} a.calls).2
      = .ok json := by
  have hsame : receive cb {} a.calls = receive (fun _ => true) {} a.calls := by
    rcases receive_eq_or_parted cb {} a.calls with hsame | hparted
    · exact hsame
    · exact absurd ((deltas_receive_eq_nil_iff cb a.calls).2 hheard) hparted.2.1
  have hleft : (receive (fun _ => true) {} a.calls).1.toStreamed
      = { takeFrames {} (reached a.datas) with done := true } := by
    rw [(receive_frames a.calls).1]
    rw [if_neg fun hnone => absurd (hstop.symm.trans hnone.1) (by simp)]
    exact (congrArg (stopAt _) hstop).trans (stopAt_done _)
  obtain ⟨-, hfailure, hcancelled⟩ := takeFrames_goes (reached a.datas)
  rw [hsame]
  refine ⟨_, answer_ok_iff.2 ⟨⟨?_, ?_, rfl, .inl ?_⟩, rfl⟩⟩
  · exact (congrArg Streamed.failure hleft).trans hfailure
  · exact (congrArg Streamed.cancelled hleft).trans hcancelled
  · exact congrArg Streamed.done hleft

end Outcome

/-- **When the outcome is what it is meant to be**: for every response of success, and of the others
for those whose frames have no content and that do not come to the end of the stream, unless
somebody cancels by then. -/
theorem honest_iff (cb : List Bytes → Bool) (p : Params) (messages : List Message) (a : Arrival)
    (aborted : Bytes) (cancel : Bool) :
    Honest cb a cancel (llmClientStream cb p messages a.calls a.ending aborted cancel) ↔
      messages = [] ∨ a.Success ∨
        (∀ data ∈ reached a.datas, (llmClientFrame data).delta = []) ∧
          ¬(stopper a.datas = some (ascii "[DONE]") ∧ cancel = false) := by
  unfold llmClientStream
  by_cases hmessages : messages = []
  · rw [if_pos hmessages]
    refine iff_of_true ⟨?_, ?_, ?_, ?_, fun _ => rfl⟩ (.inl hmessages)
    all_goals exact fun json h => absurd h (by simp)
  rw [if_neg hmessages]
  dsimp only
  constructor
  · intro h
    by_cases hsuccess : a.Success
    · exact .inr (.inl hsuccess)
    · have hheard := (deltas_receive_eq_nil_iff cb a.calls).1 (h.silent hsuccess)
      refine .inr (.inr ⟨hheard, ?_⟩)
      rintro ⟨hstop, rfl⟩
      have hanswer : ∃ json, answer p a.ending aborted false (receive cb {} a.calls).1
          (receive cb {} a.calls).2 = .ok json := answer_of_done hheard hstop
      obtain ⟨json, hjson⟩ := hanswer
      exact hsuccess (h.success json hjson)
  · intro h
    have hcases := h.resolve_left hmessages
    have hstops : ∀ json, answer p a.ending aborted cancel (receive cb {} a.calls).1
        (receive cb {} a.calls).2 = .ok json →
        stopper a.datas = none ∨ stopper a.datas = some (ascii "[DONE]") := by
      intro json hjson
      obtain ⟨-, -, hend | ⟨hend, -⟩⟩ := ended_of_answer hjson
      · exact .inr hend
      · exact .inl hend
    refine ⟨fun json hjson => ?_, fun json hjson data hdata => ?_, fun json hjson => ?_,
      fun json hjson => ?_, fun hsuccess => ?_⟩
    · obtain ⟨-, hcancel, hend⟩ := ended_of_answer hjson
      rcases hcases with hsuccess | ⟨-, hnot⟩
      · exact hsuccess
      · rcases hend with hstop | ⟨-, -, hsuccess, -⟩
        · exact absurd ⟨hstop, hcancel⟩ hnot
        · exact hsuccess
    · unfold Arrival.frames at hdata
      rw [takeWhile_eq_reached (hstops json hjson)] at hdata
      exact not_failed_of_reached hdata
    · obtain ⟨hcancelled, hcancel, hend⟩ := ended_of_answer hjson
      refine ⟨hcancel, fun hany => ?_, wanted_receive cb a.calls hcancelled⟩
      rcases hend with hstop | ⟨-, hnone, -⟩
      · exact (stopper_mem hstop).1
      · exact absurd (hany.symm.trans hnone) (by simp)
    · obtain ⟨-, -, hend⟩ := ended_of_answer hjson
      rcases hend with hstop | ⟨hnone, -, -, hfinish⟩
      · exact .inl (stopper_mem hstop).1
      · refine .inr ?_
        unfold Arrival.frames
        rwa [takeWhile_eq_reached (.inl hnone)]
    · exact (deltas_receive_eq_nil_iff cb a.calls).2 (hcases.resolve_left hsuccess).1

/-- An error whose body is a stream: a word, then its end. -/
def failedStream : Arrival where
  status := 500
  calls := [(false, ascii
    "data: \x7b\"choices\":[\x7b\"delta\":\x7b\"content\":\"Hi.\"\x7d\x7d]\x7d\ndata: [DONE]\n")]
  lost := none
  silent := false

/-- It is spoken. -/
theorem failedStream_heard : ¬∀ (cb : List Bytes → Bool) (p : Params) (messages : List Message)
    (a : Arrival) (aborted : Bytes) (cancel : Bool),
    Honest cb a cancel (llmClientStream cb p messages a.calls a.ending aborted cancel) := by
  intro h
  have hsilent := (h (fun _ => true) {} [⟨ascii "user", ascii "Hello.", [], []⟩] failedStream []
    false).silent (by decide)
  exact absurd hsilent (by decide +kernel)

end Llm
end S2S
