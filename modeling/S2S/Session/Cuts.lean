/-
# Any cut of a stream

`s2s_session_push` takes the audio as the client cuts it, frames of 20 ms, or
what the echo canceller gives back of them.  A run of calls is the windows of
its stream with the other calls between them (`schedule`), and where these fall
is a number of windows, so two cuts of one stream, with the other calls behind
the same windows, are one run (`cuts_agree`).
-/

import S2S.Session.Audio
import S2S.Session.Timing

namespace S2S
namespace Session

section Cuts

variable {F V : Type} (M : Models F V)

/-- The calls of a run that bring no audio, each with the windows fed before it; `n` samples came
before the run, counted from the edge of a window. -/
def between (n : ℕ) : List (Op F) → List (ℕ × Op F)
  | [] => []
  | .push pcm :: ops => between (n + pcm.length) ops
  | .setSpeaking speaking :: ops => (n / M.window, .setSpeaking speaking) :: between n ops
  | .release turnId revision :: ops => (n / M.window, .release turnId revision) :: between n ops
  | .setParams p :: ops => (n / M.window, .setParams p) :: between n ops

/-- The windows of a stream, `k` windows gone by, with calls between them. -/
def schedule (k : ℕ) (stream : List F) : List (ℕ × Op F) → List (Step F)
  | [] => windowsIn M (stream.length / M.window) stream
  | (j, op) :: calls =>
    windowsIn M (j - k) stream
      ++ (stepsOf M [] op ++ schedule j (stream.drop ((j - k) * M.window)) calls)

/-! ### Windows of a longer stream -/

theorem windowsIn_add (n m : ℕ) (pcm : List F) :
    windowsIn M (n + m) pcm = windowsIn M n pcm ++ windowsIn M m (pcm.drop (n * M.window)) := by
  induction n generalizing pcm with
  | zero => simp [windowsIn]
  | succ n ih =>
    rw [Nat.succ_add, windowsIn, windowsIn, ih, List.drop_drop, Nat.succ_mul, Nat.add_comm M.window]
    rfl

theorem windowsIn_append {n : ℕ} {pcm : List F} (h : n * M.window ≤ pcm.length) (more : List F) :
    windowsIn M n (pcm ++ more) = windowsIn M n pcm := by
  induction n generalizing pcm with
  | zero => rfl
  | succ n ih =>
    rw [Nat.succ_mul] at h
    have hfirst : M.window ≤ pcm.length := by omega
    rw [windowsIn, windowsIn, List.take_append_of_le_length hfirst,
      List.drop_append_of_le_length hfirst, ih (by rw [List.length_drop]; omega)]

theorem filter_isWindow_windowsIn (n : ℕ) (pcm : List F) :
    (windowsIn M n pcm).filter Step.isWindow = windowsIn M n pcm := by
  induction n generalizing pcm with
  | zero => rfl
  | succ n ih => rw [windowsIn, List.filter_cons_of_pos rfl, ih]

/-- Windows taken off the front of a stream count among its windows. -/
theorem length_div_eq {q : ℕ} {stream : List F} (h : q * M.window ≤ stream.length) :
    stream.length / M.window = q + (stream.drop (q * M.window)).length / M.window := by
  rw [List.length_drop, Nat.add_comm, ← Nat.add_mul_div_right _ _ M.window_pos,
    Nat.sub_add_cancel h]

/-! ### What waits behind a call -/

theorem partialPcm_apply_push {s : State F V} (hs : s.partialPcm.length < M.window) (pcm : List F) :
    (apply M s (.push pcm)).1.partialPcm = (s.partialPcm ++ pcm).drop
      ((s.partialPcm ++ pcm).length / M.window * M.window) := by
  rw [apply, push_eq M hs]
  exact partialPcm_pushWhole M s _

/-- A call without audio leaves what waits for a window as it was. -/
theorem partialPcm_apply (s : State F V) {op : Op F} (hop : ∀ pcm, op ≠ .push pcm) :
    (apply M s op).1.partialPcm = s.partialPcm := by
  cases op with
  | push pcm => exact absurd rfl (hop pcm)
  | setSpeaking speaking => rfl
  | setParams p => rfl
  | release turnId revision => exact length_partialPcm_release M s turnId revision

/-- The stream of a run that begins with a push. -/
theorem stream_push (left pcm : List F) (ops : List (Op F)) :
    left ++ pushed (.push pcm :: ops) = left ++ pcm ++ pushed ops := by
  rw [List.append_assoc]
  rfl

/-! ### Where the calls fall -/

/-- A call comes behind the windows that were full before the run. -/
theorem le_of_mem_between {n : ℕ} {ops : List (Op F)} {call : ℕ × Op F}
    (h : call ∈ between M n ops) : n / M.window ≤ call.1 := by
  induction ops generalizing n with
  | nil => simp [between] at h
  | cons op ops ih =>
    cases op with
    | push pcm => exact (Nat.div_le_div_right (Nat.le_add_right _ _)).trans (ih h)
    | _ =>
      rw [between, List.mem_cons] at h
      rcases h with rfl | h
      · exact le_rfl
      · exact ih h

/-- The full windows at the front of a stream come before every call. -/
theorem schedule_full {q k : ℕ} {pcm : List F} (hq : q * M.window ≤ pcm.length) (more : List F)
    {calls : List (ℕ × Op F)} (hcalls : ∀ call ∈ calls, k + q ≤ call.1) :
    windowsIn M q pcm ++ schedule M (k + q) (pcm.drop (q * M.window) ++ more) calls
      = schedule M k (pcm ++ more) calls := by
  have hdrop : pcm.drop (q * M.window) ++ more = (pcm ++ more).drop (q * M.window) :=
    (List.drop_append_of_le_length hq).symm
  rw [hdrop, ← windowsIn_append M hq more]
  have hlong : q * M.window ≤ (pcm ++ more).length := by rw [List.length_append]; omega
  generalize pcm ++ more = stream at hlong ⊢
  cases calls with
  | nil =>
    rw [schedule, schedule, length_div_eq M hlong, windowsIn_add]
  | cons call calls =>
    obtain ⟨j, op⟩ := call
    have hj : k + q ≤ j := hcalls _ (List.mem_cons_self ..)
    have hcount : j - k = q + (j - (k + q)) := by omega
    have hmul : (j - k) * M.window = q * M.window + (j - (k + q)) * M.window := by
      rw [hcount, Nat.add_mul]
    rw [schedule, schedule, List.drop_drop, ← hmul, ← List.append_assoc, ← windowsIn_add, ← hcount]

/-- **A run is its stream with the other calls between the windows.** -/
theorem runSteps_eq {s : State F V} (hs : s.partialPcm.length < M.window) (k : ℕ)
    (ops : List (Op F)) :
    runSteps M s ops = schedule M k (s.partialPcm ++ pushed ops)
      (between M (k * M.window + s.partialPcm.length) ops) := by
  induction ops generalizing s k with
  | nil =>
    rw [runSteps, between, schedule, show pushed ([] : List (Op F)) = [] from rfl, List.append_nil,
      Nat.div_eq_of_lt hs]
    rfl
  | cons op ops ih =>
    -- behind a call without audio the same samples wait
    have hcall : ∀ op : Op F, (∀ pcm, op ≠ .push pcm) →
        runSteps M (apply M s op).1 ops = schedule M k (s.partialPcm ++ pushed ops)
          (between M (k * M.window + s.partialPcm.length) ops) := by
      intro op hop
      have hsame := partialPcm_apply M s hop
      rw [ih (by rw [hsame]; exact hs) k, hsame]
    have hhere : (k * M.window + s.partialPcm.length) / M.window = k := by
      rw [Nat.mul_comm, Nat.mul_add_div M.window_pos, Nat.div_eq_of_lt hs, Nat.add_zero]
    cases op with
    | push pcm =>
      have hleft := length_partialPcm_apply M hs (.push pcm)
      rw [runSteps, ih hleft (k + (s.partialPcm ++ pcm).length / M.window),
        partialPcm_apply_push M hs, stepsOf, stream_push, List.length_drop]
      set joined := s.partialPcm ++ pcm with hjoined
      have hwhole : joined.length / M.window * M.window ≤ joined.length := Nat.div_mul_le_self _ _
      have hcount : (k + joined.length / M.window) * M.window
          + (joined.length - joined.length / M.window * M.window)
          = k * M.window + s.partialPcm.length + pcm.length := by
        rw [Nat.add_mul, Nat.add_assoc, Nat.add_sub_cancel' hwhole, hjoined, List.length_append,
          Nat.add_assoc]
      rw [hcount, between]
      refine schedule_full M hwhole _ fun call hmem => ?_
      have hle := le_of_mem_between M hmem
      have hbefore : k * M.window + s.partialPcm.length + pcm.length
          = joined.length + k * M.window := by
        rw [hjoined, List.length_append]
        omega
      rwa [hbefore, Nat.add_mul_div_right _ _ M.window_pos, Nat.add_comm] at hle
    | setSpeaking speaking =>
      rw [runSteps, hcall _ (by simp), between, schedule, hhere, Nat.sub_self, Nat.zero_mul]
      rfl
    | setParams p =>
      rw [runSteps, hcall _ (by simp), between, schedule, hhere, Nat.sub_self, Nat.zero_mul]
      rfl
    | release turnId revision =>
      rw [runSteps, hcall _ (by simp), between, schedule, hhere, Nat.sub_self, Nat.zero_mul]
      rfl

/-! ### What is fed and what waits -/

theorem filter_isWindow_runSteps {s : State F V} (hs : s.partialPcm.length < M.window)
    (ops : List (Op F)) :
    (runSteps M s ops).filter Step.isWindow
      = windowsIn M ((s.partialPcm ++ pushed ops).length / M.window) (s.partialPcm ++ pushed ops) := by
  induction ops generalizing s with
  | nil =>
    rw [show pushed ([] : List (Op F)) = [] from rfl, List.append_nil, Nat.div_eq_of_lt hs]
    rfl
  | cons op ops ih =>
    have hrest := ih (length_partialPcm_apply M hs op)
    rw [runSteps, List.filter_append, hrest]
    cases op with
    | push pcm =>
      have hwhole := Nat.div_mul_le_self (s.partialPcm ++ pcm).length M.window
      rw [partialPcm_apply_push M hs, stream_push, stepsOf, filter_isWindow_windowsIn]
      have h := schedule_full M hwhole (pushed ops) (k := 0) (List.forall_mem_nil _)
      exact h
    | _ =>
      rw [partialPcm_apply M s (by simp)]
      rfl

theorem partialPcm_run {s : State F V} (hs : s.partialPcm.length < M.window) (ops : List (Op F)) :
    (run M s ops).1.partialPcm = (s.partialPcm ++ pushed ops).drop
      ((s.partialPcm ++ pushed ops).length / M.window * M.window) := by
  induction ops generalizing s with
  | nil =>
    rw [show pushed ([] : List (Op F)) = [] from rfl, List.append_nil, Nat.div_eq_of_lt hs,
      Nat.zero_mul]
    rfl
  | cons op ops ih =>
    have hrest := ih (length_partialPcm_apply M hs op)
    rw [run]
    dsimp only
    rw [hrest]
    cases op with
    | push pcm =>
      have hwhole := Nat.div_mul_le_self (s.partialPcm ++ pcm).length M.window
      have hlong := hwhole.trans (List.sublist_append_left (s.partialPcm ++ pcm) (pushed ops)).length_le
      rw [partialPcm_apply_push M hs, stream_push, ← List.drop_append_of_le_length hwhole,
        List.drop_drop, ← Nat.add_mul, ← length_div_eq M hlong]
    | _ =>
      rw [partialPcm_apply M s (by simp)]
      rfl

/-- **Two cuts of one stream are one run.**  From a state the session can be in, two lists of calls
that push the same samples, with the other calls behind the same windows, go through the same steps
and report the same at each; they report the same in all and end in the same state.  The windows
among the steps are those of the stream, what waited before it included, and what fills none waits. -/
theorem cuts_agree {s : State F V} (hs : Reached M s) {ops ops' : List (Op F)}
    (hstream : pushed ops = pushed ops')
    (hcalls : between M s.partialPcm.length ops = between M s.partialPcm.length ops') :
    let stream := s.partialPcm ++ pushed ops
    history M s (runSteps M s ops) = history M s (runSteps M s ops') ∧
      reportsOf (run M s ops).2 = (history M s (runSteps M s ops)).flatMap (·.2) ∧
      reportsOf (run M s ops).2 = reportsOf (run M s ops').2 ∧
      (run M s ops).1 = (run M s ops').1 ∧
      (runSteps M s ops).filter Step.isWindow
        = windowsIn M (stream.length / M.window) stream ∧
      (run M s ops).1.partialPcm = stream.drop (stream.length / M.window * M.window) := by
  have hlength := hs.length_partialPcm
  have hsteps : runSteps M s ops = runSteps M s ops' := by
    have h := runSteps_eq M hlength 0 ops
    have h' := runSteps_eq M hlength 0 ops'
    rw [Nat.zero_mul, Nat.zero_add] at h h'
    rw [h, h', hstream, hcalls]
  obtain ⟨hreports, hstate⟩ := run_eq M hlength ops
  obtain ⟨hreports', hstate'⟩ := run_eq M hlength ops'
  have hleft := partialPcm_run M hlength ops
  refine ⟨by rw [hsteps], hreports, by rw [hreports, hreports', hsteps], ?_,
    filter_isWindow_runSteps M hlength ops, hleft⟩
  have hwhole : (run M s ops).1.withPartial [] = (run M s ops').1.withPartial [] := by
    rw [hstate, hstate', hsteps]
  calc (run M s ops).1
      = ((run M s ops).1.withPartial []).withPartial (run M s ops).1.partialPcm := rfl
    _ = ((run M s ops').1.withPartial []).withPartial (run M s ops').1.partialPcm := by
        rw [hwhole, hleft, partialPcm_run M hlength ops', hstream]
    _ = (run M s ops').1 := rfl

end Cuts

/-- Two windows of two samples, the second cut in three, and one sample that waits. -/
theorem cuts_agree_halves :
    let M : Models ℕ Unit := { tallyModels with window := 2, window_pos := Nat.two_pos }
    let s := sessionNew M () tallyParams
    let whole := run M s [.push [1, 1], .setSpeaking true, .push [0, 0, 1]]
    let cut := run M s [.push [1], .push [1, 0], .setSpeaking true, .push [], .push [0], .push [1]]
    reportsOf whole.2 = reportsOf cut.2 ∧ whole.1 = cut.1 ∧ whole.1.partialPcm = [1] := by
  obtain ⟨-, -, hreports, hstate, -, hleft⟩ := cuts_agree
    { tallyModels with window := 2, window_pos := Nat.two_pos } ⟨(), tallyParams, [], rfl⟩
    (show pushed [.push [1, 1], .setSpeaking true, .push [0, 0, 1]]
      = pushed [.push [1], .push [1, 0], .setSpeaking true, .push [], .push [0], .push [1]] from rfl)
    rfl
  exact ⟨hreports, hstate, hleft⟩

end Session
end S2S
