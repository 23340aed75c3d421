/-
# The frames of a stream

What the receiver of `llm_client_stream` makes of a body, line by line: the data
lines (`lineData`), up to the first that ends the stream or reports a failure
(`reached`), each of them a frame.  A run that no one cancels leaves what its
frames say, however the body was cut into calls (`receive_frames`), and what
every line keeps, a run keeps (`receive_keeps`).
-/

import S2S.Llm.Stream

namespace S2S
namespace Llm

open Json Http

/-! ### A line -/

/-- The data of a line of the stream, none for a line of anything else. -/
def lineData (line : Bytes) : Option Bytes :=
  if (line.rdropWhile fun b => b = 0x0D ∨ b = 0x20).take 5 = ascii "data:" then
    some (((line.rdropWhile fun b => b = 0x0D ∨ b = 0x20).drop 5).dropWhile (· = 0x20))
  else none

section Lines

variable (cb : List Bytes → Bool)

theorem onLine_none (s : Streamed) {line : Bytes} (h : lineData line = none) :
    onLine cb s line = (s, true) := by
  unfold lineData at h
  split_ifs at h with hline
  unfold onLine
  dsimp only
  rw [if_pos (by simpa using hline)]

theorem onLine_data (s : Streamed) {line data : Bytes} (h : lineData line = some data) :
    onLine cb s line =
      if data = ascii "[DONE]" then ({ s with done := true }, false)
      else if (llmClientFrame data).failed then
        ({ s with failure := llmClientReason data }, false)
      else onFrame cb s (llmClientFrame data) := by
  unfold lineData at h
  split_ifs at h with hline
  obtain rfl := Option.some.inj h
  unfold onLine
  dsimp only
  rw [if_neg (by simpa using hline)]

end Lines

/-! ### A frame -/

section Frame

variable (cb : List Bytes → Bool) (s : Streamed) (frame : LlmFrame)

theorem text_onFrame : (onFrame cb s frame).1.text = s.text ++ frame.delta := by
  unfold onFrame
  dsimp only
  by_cases h : frame.delta = []
  · rw [if_pos h, h, List.append_nil]
  · rw [if_neg h]
    split <;> rfl

theorem deltas_onFrame : (onFrame cb s frame).1.deltas =
    s.deltas ++ if frame.delta = [] then [] else [cstr frame.delta] := by
  unfold onFrame
  dsimp only
  by_cases h : frame.delta = []
  · rw [if_pos h, if_pos h, List.append_nil]
  · rw [if_neg h, if_neg h]
    split <;> rfl

theorem calls_onFrame : (onFrame cb s frame).1.calls = frame.tools.foldl addFragment s.calls := by
  unfold onFrame
  dsimp only
  by_cases h : frame.delta = []
  · rw [if_pos h]
  · rw [if_neg h]
    split <;> rfl

theorem finish_onFrame :
    (onFrame cb s frame).1.finish = if frame.finish = [] then s.finish else frame.finish := by
  unfold onFrame
  dsimp only
  by_cases h : frame.delta = []
  · rw [if_pos h]
  · rw [if_neg h]
    split <;> rfl

theorem failure_onFrame : (onFrame cb s frame).1.failure = s.failure := by
  unfold onFrame
  dsimp only
  by_cases h : frame.delta = []
  · rw [if_pos h]
  · rw [if_neg h]
    split <;> rfl

end Frame

theorem cancelled_onFrame (s : Streamed) (frame : LlmFrame) :
    (onFrame (fun _ => true) s frame).1.cancelled = s.cancelled := by
  unfold onFrame
  dsimp only
  by_cases h : frame.delta = []
  · rw [if_pos h]
  · rw [if_neg h, if_pos rfl]

/-- What a callback that wants everything is told of a frame without failure. -/
theorem onFrame_on (s : Streamed) (frame : LlmFrame) :
    (onFrame (fun _ => true) s frame).2 = true := by
  unfold onFrame
  dsimp only
  by_cases hdelta : frame.delta = []
  · rw [if_pos hdelta]
  · rw [if_neg hdelta, if_pos rfl]

/-! ### What a run keeps -/

section Keeps

variable (cb : List Bytes → Bool)

/-- **What every line and every cancellation keep, a run keeps.** -/
theorem receive_keeps {P : Streamed → Prop} (hline : ∀ s line, P s → P (onLine cb s line).1)
    (hcancel : ∀ s, P s → P { s with cancelled := true }) {r : Receiver} (h : P r.toStreamed)
    (calls : List (Bool × Bytes)) : P (receive cb r calls).1.toStreamed := by
  induction calls generalizing r with
  | nil => exact h
  | cons call calls ih =>
    obtain ⟨cancel, data⟩ := call
    have hone : P (receiver cb r cancel data).1.toStreamed := by
      unfold receiver
      split_ifs
      · exact h
      · exact hcancel _ h
      · exact lines.drain_induction (onLine cb) (motive := fun s _ => P s) h
          fun s _ piece _ _ hs => hline s piece hs
    rw [receive]
    split_ifs
    · exact ih hone
    · exact hone

theorem receive_append (r : Receiver) (calls more : List (Bool × Bytes)) :
    receive cb r (calls ++ more) =
      if (receive cb r calls).2 then receive cb (receive cb r calls).1 more else receive cb r calls := by
  induction calls generalizing r with
  | nil => rfl
  | cons call calls ih =>
    obtain ⟨cancel, data⟩ := call
    rw [List.cons_append, receive, receive]
    by_cases hgo : (receiver cb r cancel data).2 = true
    · rw [if_pos hgo, if_pos hgo, ih]
    · rw [if_neg hgo, if_neg hgo]
      exact (if_neg Bool.false_ne_true).symm

/-- What the callback was told stays. -/
theorem deltas_ne_nil_onLine {s : Streamed} (h : s.deltas ≠ []) (line : Bytes) :
    (onLine cb s line).1.deltas ≠ [] := by
  cases hdata : lineData line with
  | none => rwa [onLine_none cb s hdata]
  | some data =>
    rw [onLine_data cb s hdata]
    split_ifs
    · exact h
    · exact h
    · rw [deltas_onFrame]
      exact fun hnil => h (List.append_eq_nil_iff.1 hnil).1

/-- Two runs that part: the callback of the first has cancelled it, and in both it was told
something. -/
def Parted (s s' : Streamed) : Prop := s.cancelled = true ∧ s.deltas ≠ [] ∧ s'.deltas ≠ []

/-- A line does what it does for a callback that wants everything, or the callback cancels. -/
theorem onLine_eq_or_parted (s : Streamed) (line : Bytes) :
    onLine cb s line = onLine (fun _ => true) s line ∨
      Parted (onLine cb s line).1 (onLine (fun _ => true) s line).1 ∧
        (onLine cb s line).2 = false := by
  cases hdata : lineData line with
  | none => exact .inl (by rw [onLine_none _ s hdata, onLine_none _ s hdata])
  | some data =>
    rw [onLine_data _ s hdata, onLine_data _ s hdata]
    unfold onFrame Parted
    dsimp only
    split_ifs <;> simp_all

theorem drain_eq_or_parted (s : Streamed) (x : Bytes) :
    lines.drain (onLine cb) s x = lines.drain (onLine fun _ => true) s x ∨
      Parted (lines.drain (onLine cb) s x).1 (lines.drain (onLine fun _ => true) s x).1 ∧
        (lines.drain (onLine cb) s x).2.2 = false := by
  induction s, x using Cutter.drain.induct lines (onLine cb) with
  | case1 s x hcut => exact .inl (by rw [Cutter.drain_none _ _ hcut, Cutter.drain_none _ _ hcut])
  | case2 s x line rest hcut hon ih =>
    rcases onLine_eq_or_parted cb s line with hsame | ⟨-, hoff⟩
    · rw [Cutter.drain_some _ _ hcut, Cutter.drain_some _ _ hcut, ← hsame, if_pos hon, if_pos hon]
      exact ih
    · rw [hon] at hoff
      exact absurd hoff (by simp)
  | case3 s x line rest hcut hon =>
    rw [Cutter.drain_some _ _ hcut, Cutter.drain_some _ _ hcut, if_neg hon]
    rcases onLine_eq_or_parted cb s line with hsame | ⟨⟨hcancelled, htold, htold'⟩, -⟩
    · rw [← hsame, if_neg hon]
      exact .inl rfl
    · refine .inr ⟨⟨hcancelled, htold, ?_⟩, rfl⟩
      split_ifs
      · exact lines.drain_induction (onLine fun _ => true) (motive := fun s _ => s.deltas ≠ []) htold'
          fun s _ piece _ _ hs => deltas_ne_nil_onLine _ hs piece
      · exact htold'

/-- **A run is that of a callback that wants everything**, until the callback cancels. -/
theorem receive_eq_or_parted (r : Receiver) (calls : List (Bool × Bytes)) :
    receive cb r calls = receive (fun _ => true) r calls ∨
      Parted (receive cb r calls).1.toStreamed (receive (fun _ => true) r calls).1.toStreamed := by
  induction calls generalizing r with
  | nil => exact .inl rfl
  | cons call calls ih =>
    obtain ⟨cancel, data⟩ := call
    have hone : receiver cb r cancel data = receiver (fun _ => true) r cancel data ∨
        Parted (receiver cb r cancel data).1.toStreamed
            (receiver (fun _ => true) r cancel data).1.toStreamed ∧
          ((receiver cb r cancel data).2 = false ∨ (receiver cb r cancel data).1.done = true) := by
      unfold receiver
      split_ifs with hdone hcancel
      · exact .inl rfl
      · exact .inl rfl
      · rcases drain_eq_or_parted cb r.toStreamed (r.pending ++ data) with hsame | ⟨hparted, hstop⟩
        · exact .inl (by rw [hsame])
        · refine .inr ⟨hparted, ?_⟩
          dsimp only
          rw [hstop, Bool.false_or]
          cases (lines.drain (onLine cb) r.toStreamed (r.pending ++ data)).1.done <;> simp
    rcases hone with hsame | ⟨⟨hcancelled, htold, htold'⟩, hend⟩
    · rw [receive, receive, hsame]
      split_ifs
      · exact ih _
      · exact .inl rfl
    · refine .inr ?_
      have hfirst : (receive cb r ((cancel, data) :: calls)).1 = (receiver cb r cancel data).1 := by
        rw [receive]
        rcases hend with hoff | hdone
        · rw [if_neg (by rw [hoff]; exact Bool.false_ne_true)]
        · rw [receive_of_done cb hdone]
          split_ifs <;> rfl
      rw [hfirst]
      refine ⟨hcancelled, htold, ?_⟩
      rw [receive]
      split_ifs
      · exact receive_keeps (fun _ => true) (P := fun s => s.deltas ≠ [])
          (fun s line hs => deltas_ne_nil_onLine _ hs line) (fun s hs => hs) htold' calls
      · exact htold'

/-- **A run that nobody cancels is that of a callback that wants everything.** -/
theorem receive_eq_of_not_cancelled {r : Receiver} {calls : List (Bool × Bytes)}
    (h : (receive cb r calls).1.cancelled = false) :
    receive cb r calls = receive (fun _ => true) r calls := by
  rcases receive_eq_or_parted cb r calls with hsame | hparted
  · exact hsame
  · exact absurd (hparted.1.symm.trans h) (by simp)

/-- What the callback was told is something exactly when it is for one that wants everything. -/
theorem deltas_eq_nil_iff {r : Receiver} {calls : List (Bool × Bytes)} :
    (receive cb r calls).1.deltas = [] ↔ (receive (fun _ => true) r calls).1.deltas = [] := by
  rcases receive_eq_or_parted cb r calls with hsame | hparted
  · rw [hsame]
  · exact iff_of_false hparted.2.1 hparted.2.2

end Keeps

/-! ### What a run reads -/

/-- Data that ends the reading: the end of the stream, or a failure. -/
def stops (data : Bytes) : Bool := data = ascii "[DONE]" || (llmClientFrame data).failed

/-- The frames that are read. -/
def reached (datas : List Bytes) : List Bytes := datas.takeWhile fun data => !stops data

/-- What ends the reading, if anything does. -/
def stopper (datas : List Bytes) : Option Bytes := (datas.dropWhile fun data => !stops data).head?

/-- Frames that are read, one after the other. -/
def takeFrames (s : Streamed) (datas : List Bytes) : Streamed :=
  datas.foldl (fun s data => (onFrame (fun _ => true) s (llmClientFrame data)).1) s

/-- What is left of a stream by what ended its reading. -/
def stopAt (s : Streamed) : Option Bytes → Streamed
  | none => s
  | some data =>
    if data = ascii "[DONE]" then { s with done := true }
    else { s with failure := llmClientReason data }

/-- The data of the lines of a body. -/
def dataOf (body : Bytes) : List Bytes := (lines.pieces body).1.filterMap lineData

/-- **A callback that wants everything gets the frames up to what ends them.** -/
theorem drain_frames (s : Streamed) (x : Bytes) :
    (lines.drain (onLine fun _ => true) s x).1
        = stopAt (takeFrames s (reached (dataOf x))) (stopper (dataOf x)) ∧
      (lines.drain (onLine fun _ => true) s x).2.2 = (stopper (dataOf x)).isNone := by
  induction x using Cutter.pieces.induct lines generalizing s with
  | case1 x hcut =>
    rw [Cutter.drain_none _ _ hcut, dataOf, Cutter.pieces_none _ hcut]
    exact ⟨rfl, rfl⟩
  | case2 x line rest hcut ih =>
    rw [Cutter.drain_some _ _ hcut, dataOf, Cutter.pieces_some _ hcut]
    cases hdata : lineData line with
    | none =>
      rw [onLine_none _ s hdata, if_pos rfl, List.filterMap_cons_none hdata]
      exact ih s
    | some data =>
      rw [onLine_data _ s hdata, List.filterMap_cons_some hdata]
      by_cases hend : data = ascii "[DONE]"
      · have hstops : stops data = true := by simp [stops, hend]
        simp [hend, reached, stopper, takeFrames, stopAt, hend ▸ hstops]
      · by_cases hfail : (llmClientFrame data).failed = true
        · have hstops : stops data = true := by simp [stops, hfail]
          simp [hend, hfail, reached, stopper, takeFrames, stopAt, hstops]
        · have hstops : stops data = false := by simp [stops, hend, hfail]
          rw [if_neg hend, if_neg hfail, if_pos (onFrame_on s _)]
          obtain ⟨hs, hon⟩ := ih (onFrame (fun _ => true) s (llmClientFrame data)).1
          rw [hs, hon]
          simp [reached, stopper, takeFrames, hstops, dataOf]

/-- What is handed over before a call that finds the flag up. -/
def heardBody (calls : List (Bool × Bytes)) : Bytes :=
  (calls.takeWhile fun call => !call.1).flatMap Prod.snd

/-- A call that finds the flag up before the end of the stream is the last one. -/
theorem receive_flagged (cb : List Bytes → Bool) {r : Receiver} (h : r.done = false) (data : Bytes)
    (more : List (Bool × Bytes)) :
    receive cb r ((true, data) :: more) = ({ r with cancelled := true }, false) := by
  simp [receive, receiver, h]

/-- The calls before the flag is up are chunks of a body. -/
theorem receive_unflagged (chunks : List Bytes) :
    (receive (fun _ => true) {} (chunks.map (Prod.mk false))).1.toStreamed
        = stopAt (takeFrames {} (reached (dataOf chunks.flatten))) (stopper (dataOf chunks.flatten)) ∧
      (receive (fun _ => true) {} (chunks.map (Prod.mk false))).2
        = ((stopper (dataOf chunks.flatten)).isNone ||
          (receive (fun _ => true) {} (chunks.map (Prod.mk false))).1.done) := by
  obtain ⟨hstream, hon, -⟩ := receive_eq_feed (fun _ => true) (r := {}) rfl chunks
  obtain ⟨hs, hstop⟩ := lines.feeds_flatten (onLine fun _ => true)
    (s := ({} : Receiver).toStreamed) (x := []) rfl chunks
  obtain ⟨hframes, hnone⟩ := drain_frames {} chunks.flatten
  refine ⟨hstream.trans (hs.trans hframes), ?_⟩
  rw [hon, ← hnone, ← congrArg Streamed.done hstream]
  exact congrArg (· || _) hstop

theorem done_stopAt (s : Streamed) (data : Option Bytes) :
    (stopAt s data).done = (s.done || decide (data = some (ascii "[DONE]"))) := by
  cases data with
  | none => simp [stopAt]
  | some data =>
    unfold stopAt
    by_cases h : data = ascii "[DONE]" <;> simp [h]

/-- A frame ends no stream, for a callback that wants everything. -/
theorem takeFrames_goes (datas : List Bytes) : (takeFrames {} datas).done = false ∧
    (takeFrames {} datas).failure = [] ∧ (takeFrames {} datas).cancelled = false := by
  have hgoes : ∀ s : Streamed, s.done = false ∧ s.failure = [] ∧ s.cancelled = false →
      (takeFrames s datas).done = false ∧ (takeFrames s datas).failure = [] ∧
        (takeFrames s datas).cancelled = false := by
    induction datas with
    | nil => exact fun s h => h
    | cons data datas ih =>
      exact fun s h => ih _ ⟨(done_onFrame _ s _).trans h.1, (failure_onFrame _ s _).trans h.2.1,
        (cancelled_onFrame s _).trans h.2.2⟩
  exact hgoes {} ⟨rfl, rfl, rfl⟩

/-- The calls before the flag is up, and those from there on. -/
theorem split_flag (calls : List (Bool × Bytes)) :
    ∃ (chunks : List Bytes) (rest : List (Bool × Bytes)),
      calls = chunks.map (Prod.mk false) ++ rest ∧ heardBody calls = chunks.flatten ∧
      ((rest = [] ∧ calls.any Prod.fst = false) ∨
        ∃ data more, rest = (true, data) :: more ∧ calls.any Prod.fst = true) := by
  induction calls with
  | nil => exact ⟨[], [], rfl, rfl, .inl ⟨rfl, rfl⟩⟩
  | cons call calls ih =>
    obtain ⟨cancel, data⟩ := call
    cases cancel with
    | true => exact ⟨[], _, rfl, rfl, .inr ⟨data, calls, rfl, rfl⟩⟩
    | false =>
      obtain ⟨chunks, rest, hcalls, hbody, hrest⟩ := ih
      refine ⟨data :: chunks, rest, by rw [hcalls]; rfl, ?_, hrest⟩
      rw [List.flatten_cons, ← hbody]
      rfl

/-- **What a run leaves** when the callback wants everything: what its frames say and what ended
them, and a cancellation when nothing did before the flag was up. -/
theorem receive_frames (calls : List (Bool × Bytes)) :
    let datas := dataOf (heardBody calls)
    let s := stopAt (takeFrames {} (reached datas)) (stopper datas)
    (receive (fun _ => true) {} calls).1.toStreamed
        = (if stopper datas = none ∧ calls.any Prod.fst = true then { s with cancelled := true } else s) ∧
      ((receive (fun _ => true) {} calls).2 = true ↔ stopper datas = some (ascii "[DONE]") ∨
        stopper datas = none ∧ calls.any Prod.fst = false) := by
  obtain ⟨chunks, rest, hcalls, hbody, hrest⟩ := split_flag calls
  obtain ⟨hstream, hon⟩ := receive_unflagged chunks
  have hdone := (takeFrames_goes (reached (dataOf chunks.flatten))).1
  rw [congrArg Streamed.done hstream, done_stopAt, hdone, Bool.false_or] at hon
  rw [hbody]
  dsimp only
  set datas := dataOf chunks.flatten
  set first := receive (fun _ => true) {} (chunks.map (Prod.mk false)) with hfirst
  have hfirstdone : first.1.done = decide (stopper datas = some (ascii "[DONE]")) := by
    rw [congrArg Streamed.done hstream, done_stopAt, hdone, Bool.false_or]
  rcases hrest with ⟨rfl, hany⟩ | ⟨data, more, rfl, hany⟩
  · rw [List.append_nil] at hcalls
    rw [hany, hcalls, ← hfirst, hstream, hon]
    refine ⟨by simp, ?_⟩
    cases stopper datas <;> simp
  · rw [hany, hcalls, receive_append, ← hfirst]
    cases hstop : stopper datas with
    | none =>
      rw [hstop] at hon hfirstdone hstream
      rw [if_pos (by simpa using hon)]
      rw [receive_flagged _ (by rw [hfirstdone]; simp)]
      refine ⟨?_, by simp⟩
      rw [if_pos ⟨rfl, rfl⟩, ← hstream]
    | some stop =>
      rw [hstop] at hon hfirstdone hstream
      by_cases hend : stop = ascii "[DONE]"
      · rw [if_pos (by simpa [hend] using hon),
          receive_of_done _ (by rw [hfirstdone]; simp [hend]), hstream]
        simp [hend]
      · rw [if_neg (by simp [hon, hend]), hstream, hon]
        simp [hend]

/-- **What it has heard is what its frames say**, whatever ended it. -/
theorem receive_said (calls : List (Bool × Bytes)) : ∃ done failure cancelled,
    (receive (fun _ => true) {} calls).1.toStreamed =
      { takeFrames {} (reached (dataOf (heardBody calls))) with
        done := done, failure := failure, cancelled := cancelled } := by
  have hstop : ∀ (s : Streamed) (data : Option Bytes), ∃ done failure,
      stopAt s data = { s with done := done, failure := failure } := by
    intro s data
    cases data with
    | none => exact ⟨_, _, rfl⟩
    | some data =>
      unfold stopAt
      dsimp only
      split_ifs
      · exact ⟨true, _, rfl⟩
      · exact ⟨_, _, rfl⟩
  obtain ⟨done, failure, hleft⟩ := hstop (takeFrames {} (reached (dataOf (heardBody calls))))
    (stopper (dataOf (heardBody calls)))
  rw [(receive_frames calls).1, hleft]
  split_ifs
  · exact ⟨_, _, true, rfl⟩
  · exact ⟨_, _, _, rfl⟩

/-! ### How it ends -/

/-- A failure leaves words: the message of the error, or the data itself. -/
theorem llmClientReason_ne_nil {data : Bytes} (hdata : data ≠ []) (hline : (0x0A : UInt8) ∉ data) :
    llmClientReason data ≠ [] := by
  unfold llmClientReason errorReason
  dsimp only
  split_ifs with h
  · cases data with
    | nil => exact absurd rfl hdata
    | cons b data =>
      have hb : b ≠ 0x0A := fun hb => hline (by rw [hb]; exact List.mem_cons_self ..)
      simp [hb]
  · intro hnil
    rw [List.take_eq_nil_iff] at hnil
    exact hnil.elim (by simp) h

theorem not_mem_cutLine {x line rest : Bytes} (h : cutLine x = some (line, rest)) :
    (0x0A : UInt8) ∉ line := by
  induction x generalizing line with
  | nil => simp [cutLine] at h
  | cons b x ih =>
    rw [cutLine] at h
    split_ifs at h with hb
    · obtain ⟨rfl, rfl⟩ := Prod.mk.inj (Option.some.inj h)
      exact List.not_mem_nil
    · obtain ⟨⟨line', rest'⟩, hcut, heq⟩ := Option.map_eq_some_iff.1 h
      obtain ⟨rfl, rfl⟩ := Prod.mk.inj heq
      show (0x0A : UInt8) ∉ b :: line'
      rw [List.mem_cons, not_or]
      exact ⟨fun h' => hb h'.symm, ih hcut⟩

/-- The data of a line has no line feed. -/
theorem not_mem_dataOf {body data : Bytes} (h : data ∈ dataOf body) : (0x0A : UInt8) ∉ data := by
  obtain ⟨line, hline, hdata⟩ := List.mem_filterMap.1 h
  have hlf : (0x0A : UInt8) ∉ line := by
    clear h hdata
    induction body using Cutter.pieces.induct lines with
    | case1 x hcut =>
      rw [Cutter.pieces_none _ hcut] at hline
      exact absurd hline List.not_mem_nil
    | case2 x piece rest hcut ih =>
      rw [Cutter.pieces_some _ hcut, List.mem_cons] at hline
      rcases hline with rfl | hline
      · exact not_mem_cutLine hcut
      · exact ih hline
  unfold lineData at hdata
  split_ifs at hdata
  obtain rfl := Option.some.inj hdata
  intro hmem
  exact hlf ((List.rdropWhile_prefix _ _).subset (List.mem_of_mem_drop ((List.dropWhile_suffix _).subset hmem)))

theorem stopper_mem {datas : List Bytes} {data : Bytes} (h : stopper datas = some data) :
    data ∈ datas ∧ stops data = true := by
  unfold stopper at h
  have hmem : data ∈ datas.dropWhile fun data => !stops data := List.mem_of_head? h
  refine ⟨(List.dropWhile_suffix _).subset hmem, ?_⟩
  have hnot := List.head?_dropWhile_not (fun data => !stops data) datas
  rw [h] at hnot
  simpa using hnot

/-- A frame that reports a failure ends the answer with words. -/
theorem failure_ne_nil {body data : Bytes} (h : stopper (dataOf body) = some data)
    (hdone : data ≠ ascii "[DONE]") (s : Streamed) : (stopAt s (some data)).failure ≠ [] := by
  obtain ⟨hmem, hstops⟩ := stopper_mem h
  have hne : data ≠ [] := by
    rintro rfl
    exact absurd hstops (by decide +kernel)
  rw [stopAt, if_neg hdone]
  exact llmClientReason_ne_nil hne (not_mem_dataOf hmem)

/-- **When a request has an answer**: no failure, nobody cancelled, and the end of the stream came,
or the request went on to the end of a response of success that gave a finish reason. -/
theorem answer_ok_iff {p : Params} {ending : Ending} {aborted : Bytes} {cancel : Bool} {r : Receiver}
    {on : Bool} {json : Bytes} :
    answer p ending aborted cancel r on = .ok json ↔
      (r.failure = [] ∧ r.cancelled = false ∧ cancel = false ∧
        (r.done = true ∨ on = true ∧ r.finish ≠ [] ∧
          ∃ status, ending.result = .ok status ∧ 200 ≤ status ∧ status < 300)) ∧
        json = llmClientCallsJson r.calls := by
  unfold answer
  dsimp only
  by_cases hfailure : r.failure = []
  · rw [if_neg (by simpa using hfailure)]
    by_cases hcancel : (r.cancelled || cancel) = true
    · rw [if_pos hcancel]
      rw [Bool.or_eq_true] at hcancel
      constructor
      · intro h
        exact absurd h (by simp)
      · rintro ⟨⟨-, hr, hc, -⟩, -⟩
        rcases hcancel with h | h
        · exact absurd (h.symm.trans hr) (by simp)
        · exact absurd (h.symm.trans hc) (by simp)
    · rw [if_neg hcancel]
      rw [Bool.or_eq_true, not_or, Bool.not_eq_true, Bool.not_eq_true] at hcancel
      have hjson : (Except.ok (llmClientCallsJson r.calls) : Except Bytes Bytes) = .ok json ↔
          json = llmClientCallsJson r.calls := ⟨fun h => (Except.ok.inj h).symm, fun h => by rw [h]⟩
      by_cases hdone : r.done = true
      · rw [if_pos hdone, hjson]
        simp [hfailure, hcancel, hdone]
      · rw [if_neg hdone]
        cases on with
        | false => cases ending.silent <;> simp [hdone]
        | true =>
          cases hresult : ending.result with
          | error e => cases ending.silent <;> simp [hdone]
          | ok status =>
            by_cases hstatus : status < 200 ∨ 300 ≤ status
            · simp [hdone, hstatus]
              omega
            · obtain ⟨hlow, hhigh⟩ := not_or.1 hstatus
              by_cases hfinish : r.finish = []
              · simp [hdone, hfinish, hlow, hhigh]
              · simp [hfailure, hcancel, hdone, hfinish, hlow, hhigh, not_lt.1 hlow, not_le.1 hhigh, hjson]
  · rw [if_pos hfailure]
    simp [hfailure]

end Llm
end S2S
