/-
# How far a start is

Every `await` of `src/tools/webui/src/lib/s2s.ts` is a point where another call
may come in, and the run number compared after it decides who releases what was
acquired meanwhile.  Between two happenings a component is `Sound`: what is in
use is what its fields name (`Owned`), nothing pending belongs to a run to come
(`Timely`), and a start is at rest, waits for its microphone, or runs
(`Phase`).  Every function keeps that (`Sound.step`).
-/

import S2S.Client.Resources

namespace S2S
namespace Client

open Json

variable {F : Type}

theorem getElem?_touch {α : Type} (i : Option ℕ) (f : α → α) (l : List α) (j : ℕ) :
    (touch i f l)[j]? = if i = some j then l[j]?.map f else l[j]? := by
  cases i with
  | none => simp [touch]
  | some i =>
    rw [touch, List.getElem?_modify]
    by_cases h : i = j
    · simp [h]
    · simp [h]

/-- The run a pending step belongs to; other constraints belong to their stream. -/
def Pending.run : Pending → Option ℕ
  | .worklet run => some run
  | .microphone run _ => some run
  | .connected run _ => some run
  | .failed run => some run
  | .switched run _ => some run
  | .constrained _ _ => none

/-- A start that has no stream yet. -/
def Pending.Early : Pending → Prop
  | .worklet _ => True
  | .microphone _ _ => True
  | _ => False

namespace Component

/-! ### What holds between two happenings -/

/-- What is pending of the run in force. -/
def current (c : Component F) : List Pending := c.pending.filter fun p => p.run = some c.run

/-- **What is in use is what the fields name.** -/
structure Owned (c : Component F) : Prop where
  contexts : ∀ i, c.contexts[i]? = some true → c.context = some i
  streams : ∀ i s, c.streams[i]? = some s → s.live = true → c.stream = some i
  sockets : ∀ i s, c.sockets[i]? = some s → s.inUse = true → c.ws = some i

/-- Nothing pending belongs to a run to come. -/
structure Timely (c : Component F) : Prop where
  pending : ∀ p ∈ c.pending, ∀ run, p.run = some run → run ≤ c.run
  timers : ∀ run, some run ∈ c.timers → run ≤ c.run

/-- No start, or one that failed at once. -/
structure Resting (c : Component F) : Prop where
  context : c.context = none
  stream : c.stream = none
  ws : c.ws = none
  state : c.talk.state = .idle
  pending : ∀ p ∈ c.current, p = .failed c.run
  timers : some c.run ∉ c.timers

/-- A start that waits for its worklet or its microphone. -/
structure Loading (c : Component F) : Prop where
  context : c.context ≠ none
  stream : c.stream = none
  ws : c.ws = none
  pending : ∃ p, c.current = [p] ∧ p.Early
  timers : some c.run ∉ c.timers

/-- A start beyond that. -/
structure Running (c : Component F) : Prop where
  context : c.context ≠ none
  pending : ∀ p ∈ c.current, ¬p.Early
  timers : ∀ i j : ℕ, c.timers[i]? = some (some c.run) → c.timers[j]? = some (some c.run) → i = j
  ws : some c.run ∈ c.timers → c.ws = none

/-- How far a start is. -/
inductive Phase (c : Component F) : Prop
  | resting (h : c.Resting)
  | loading (h : c.Loading)
  | running (h : c.Running)

/-- What holds of a component between two happenings. -/
structure Sound (c : Component F) : Prop where
  owned : c.Owned
  timely : c.Timely
  phase : c.Phase

section Parts

variable {c c' : Component F}

/-- A step that only the conversation sees. -/
theorem Owned.talk (h : c.Owned) (talk : Talk F) : Owned { c with talk := talk } :=
  ⟨h.contexts, h.streams, h.sockets⟩

/-- **A teardown leaves nothing in use.** -/
theorem Owned.teardown (h : c.Owned) : c.teardown.Owned := by
  refine ⟨fun i hi => ?_, fun i s hi hlive => ?_, fun i s hi huse => ?_⟩
  · exfalso
    rw [show c.teardown.contexts = touch c.context (fun _ => false) c.contexts from rfl,
      getElem?_touch] at hi
    split_ifs at hi with hcontext
    · cases hnth : c.contexts[i]? <;> simp [hnth] at hi
    · exact hcontext (h.contexts i hi)
  · exfalso
    rw [show c.teardown.streams = touch c.stream (fun s => { s with live := false }) c.streams from rfl,
      getElem?_touch] at hi
    split_ifs at hi with hstream
    · obtain ⟨s', -, rfl⟩ := Option.map_eq_some_iff.1 hi
      simp at hlive
    · exact hstream (h.streams i s hi hlive)
  · exfalso
    rw [show c.teardown.sockets = touch c.ws (fun s => { s with closing := true }) c.sockets from rfl,
      getElem?_touch] at hi
    split_ifs at hi with hws
    · obtain ⟨s', -, rfl⟩ := Option.map_eq_some_iff.1 hi
      simp [Socket.inUse] at huse
    · exact hws (h.sockets i s hi huse)

/-- What is pending belongs to an earlier run. -/
structure Past (c : Component F) : Prop where
  pending : ∀ p ∈ c.pending, ∀ run, p.run = some run → run < c.run
  timers : ∀ run, some run ∈ c.timers → run < c.run

theorem Past.current (h : c.Past) : c.current = [] := by
  refine List.filter_eq_nil_iff.2 fun p hp hrun => ?_
  exact absurd (h.pending p hp c.run (of_decide_eq_true hrun)) (lt_irrefl _)

theorem Past.timely (h : c.Past) : c.Timely :=
  ⟨fun p hp run hrun => (h.pending p hp run hrun).le, fun run hrun => (h.timers run hrun).le⟩

/-- A new run: whatever is pending belongs to an earlier one. -/
theorem Timely.past (h : c.Timely) : Past { c with run := c.run + 1 } :=
  ⟨fun p hp run hrun => Nat.lt_succ_of_le (h.pending p hp run hrun),
    fun run hrun => Nat.lt_succ_of_le (h.timers run hrun)⟩

theorem Timely.teardown_past (h : c.Timely) : c.teardown.Past := by
  refine ⟨fun p hp run hrun => Nat.lt_succ_of_le (h.pending p hp run hrun), fun run hrun => ?_⟩
  obtain ⟨i, hi⟩ := List.mem_iff_getElem?.1 hrun
  rw [show c.teardown.timers = touch c.reconnectTimer (fun _ => none) c.timers from rfl,
    getElem?_touch] at hi
  split_ifs at hi with htimer
  · cases hnth : c.timers[i]? <;> simp [hnth] at hi
  · exact Nat.lt_succ_of_le (h.timers run (List.mem_of_getElem? hi))

theorem teardown_state (t : Talk F) : t.teardown.state = .idle := by
  rw [Talk.teardown, Talk.setState_eq]

/-- **After a teardown the component rests**, and what is pending belongs to the past. -/
theorem Sound.teardown (h : c.Sound) : c.teardown.Sound ∧ c.teardown.Past := by
  have hpast := h.timely.teardown_past
  refine ⟨⟨h.owned.teardown, hpast.timely, .resting ⟨rfl, rfl, rfl, teardown_state _, ?_, ?_⟩⟩, hpast⟩
  · simp [hpast.current]
  · exact fun hmem => absurd (hpast.timers _ hmem) (lt_irrefl _)

theorem Sound.talk (h : c.Sound) {talk : Talk F} (hstate : c.context = none → talk.state = .idle) :
    Sound { c with talk := talk } := by
  refine ⟨h.owned.talk talk, ⟨h.timely.pending, h.timely.timers⟩, ?_⟩
  cases h.phase with
  | resting hr =>
    exact .resting ⟨hr.context, hr.stream, hr.ws, hstate hr.context, hr.pending, hr.timers⟩
  | loading hl => exact .loading ⟨hl.context, hl.stream, hl.ws, hl.pending, hl.timers⟩
  | running hr => exact .running ⟨hr.context, hr.pending, hr.timers, hr.ws⟩

/-- A start that runs loses its connection. -/
theorem Sound.lose (h : c.Sound) (hcontext : c.context ≠ none) :
    Sound { c with talk := { c.talk with connected := false } } :=
  h.talk fun hnone => absurd hnone hcontext

/-- At rest the state is idle. -/
theorem Sound.idle (h : c.Sound) (hcontext : c.context = none) : c.Resting := by
  cases h.phase with
  | resting hr => exact hr
  | loading hl => exact absurd hcontext hl.context
  | running hr => exact absurd hcontext hr.context

theorem Sound.tell (h : c.Sound) (message : Bytes) : (c.tell message).Sound :=
  h.talk fun hcontext => (h.idle hcontext).state

theorem Sound.caught (h : c.Sound) (run : ℕ) (message : Bytes) : (c.caught run message).Sound := by
  unfold Component.caught
  split_ifs
  · exact h
  · exact (h.tell message).teardown.1

/-! ### What is pending -/

theorem current_await (p : Pending) :
    (c.await p).current = c.current ++ if p.run = some c.run then [p] else [] := by
  have hfilter : (c.await p).current =
      (c.pending ++ [p]).filter fun q => q.run = some c.run := rfl
  rw [hfilter, List.filter_append]
  split_ifs with hp
  · rw [List.filter_cons_of_pos (by simp [hp])]
    rfl
  · rw [List.filter_cons_of_neg (by simp [hp])]
    rfl

/-- A step that joins what is pending while a start runs, or that belongs to an earlier run. -/
theorem Sound.await (h : c.Sound) {p : Pending} (hrun : ∀ run, p.run = some run → run ≤ c.run)
    (hphase : p.run = some c.run → c.Running ∧ ¬p.Early) : (c.await p).Sound := by
  have htimely : (c.await p).Timely := by
    refine ⟨fun q hq run hqrun => ?_, h.timely.timers⟩
    rcases List.mem_append.1 hq with hq | hq
    · exact h.timely.pending q hq run hqrun
    · rw [List.mem_singleton.1 hq] at hqrun
      exact hrun run hqrun
  refine ⟨⟨h.owned.contexts, h.owned.streams, h.owned.sockets⟩, htimely, ?_⟩
  by_cases hp : p.run = some c.run
  · obtain ⟨hr, hearly⟩ := hphase hp
    refine .running ⟨hr.context, fun q hq => ?_, hr.timers, hr.ws⟩
    rw [current_await, if_pos hp] at hq
    rcases List.mem_append.1 hq with hq | hq
    · exact hr.pending q hq
    · rwa [List.mem_singleton.1 hq]
  · have hcurrent : (c.await p).current = c.current := by
      rw [current_await, if_neg hp, List.append_nil]
    cases h.phase with
    | resting hr =>
      exact .resting ⟨hr.context, hr.stream, hr.ws, hr.state, hcurrent ▸ hr.pending, hr.timers⟩
    | loading hl =>
      exact .loading ⟨hl.context, hl.stream, hl.ws, hcurrent ▸ hl.pending, hl.timers⟩
    | running hr => exact .running ⟨hr.context, hcurrent ▸ hr.pending, hr.timers, hr.ws⟩

/-- A step of a start that runs joins what is pending. -/
theorem Running.await (h : c.Running) (howned : c.Owned) (htimely : c.Timely) {p : Pending}
    (hrun : p.run = some c.run) (hearly : ¬p.Early) : (c.await p).Sound := by
  refine Sound.await ⟨howned, htimely, .running h⟩ (fun run hprun => ?_) fun _ => ⟨h, hearly⟩
  rw [hrun] at hprun
  exact (Option.some.inj hprun).symm.le

/-- What is pending without the step that settled. -/
abbrev without (c : Component F) (i : ℕ) : Component F := { c with pending := c.pending.eraseIdx i }

theorem current_without {i : ℕ} {p : Pending} (hp : c.pending[i]? = some p) :
    (p.run ≠ some c.run → (c.without i).current = c.current) ∧
      (p.run = some c.run → ∃ front back, c.current = front ++ p :: back ∧
        (c.without i).current = front ++ back) := by
  obtain ⟨hi, hget⟩ := List.getElem?_eq_some_iff.1 hp
  have hsplit : c.pending = c.pending.take i ++ p :: c.pending.drop (i + 1) := by
    rw [← hget, ← List.drop_eq_getElem_cons hi, List.take_append_drop]
  have hcurrent : c.current = (c.pending.take i ++ p :: c.pending.drop (i + 1)).filter
      fun p => p.run = some c.run := by rw [← hsplit]; rfl
  have hwithout : (c.without i).current = (c.pending.take i ++ c.pending.drop (i + 1)).filter
      fun p => p.run = some c.run := by
    rw [current, ← List.eraseIdx_eq_take_drop_succ]
  rw [hcurrent, hwithout]
  constructor
  · intro hrun
    simp [hrun]
  · intro hrun
    exact ⟨_, _, by rw [List.filter_append, List.filter_cons_of_pos (by simp [hrun])],
      List.filter_append ..⟩

theorem mem_current {p : Pending} : p ∈ c.current ↔ p ∈ c.pending ∧ p.run = some c.run := by
  simp [current]

/-- A start that was early is waiting for nothing once that settled. -/
theorem Sound.without_early (h : c.Sound) {i : ℕ} {p : Pending} (hp : c.pending[i]? = some p)
    (hrun : p.run = some c.run) (hearly : p.Early) : c.Loading ∧ (c.without i).current = [] := by
  have hmem : p ∈ c.current := mem_current.2 ⟨List.mem_of_getElem? hp, hrun⟩
  cases h.phase with
  | resting hr =>
    rw [hr.pending p hmem] at hearly
    exact hearly.elim
  | loading hl =>
    refine ⟨hl, ?_⟩
    obtain ⟨q, hq, -⟩ := hl.pending
    obtain ⟨front, back, hfront, hwithout⟩ := (current_without hp).2 hrun
    rw [hq] at hfront
    rcases front with - | ⟨first, front⟩
    · obtain ⟨-, rfl⟩ := List.cons.inj hfront
      exact hwithout
    · simp at hfront
  | running hr => exact absurd hearly (hr.pending p hmem)

theorem Sound.without (h : c.Sound) {i : ℕ} {p : Pending} (hp : c.pending[i]? = some p) :
    (c.without i).Sound := by
  have hsub : ∀ q ∈ (c.without i).current, q ∈ c.current := fun q hq => by
    obtain ⟨hq, hrun⟩ := mem_current.1 hq
    exact mem_current.2 ⟨List.mem_of_mem_eraseIdx hq, hrun⟩
  refine ⟨⟨h.owned.contexts, h.owned.streams, h.owned.sockets⟩,
    ⟨fun q hq => h.timely.pending q (List.mem_of_mem_eraseIdx hq), h.timely.timers⟩, ?_⟩
  cases h.phase with
  | resting hr =>
    exact .resting ⟨hr.context, hr.stream, hr.ws, hr.state, fun q hq => hr.pending q (hsub q hq),
      hr.timers⟩
  | running hr => exact .running ⟨hr.context, fun q hq => hr.pending q (hsub q hq), hr.timers, hr.ws⟩
  | loading hl =>
    by_cases hrun : p.run = some c.run
    · obtain ⟨q, hq, hearly⟩ := hl.pending
      have hpq : p = q := by
        have hmem : p ∈ c.current := mem_current.2 ⟨List.mem_of_getElem? hp, hrun⟩
        rw [hq] at hmem
        exact List.mem_singleton.1 hmem
      have hnone := (h.without_early hp hrun (hpq ▸ hearly)).2
      refine .running ⟨hl.context, by simp [hnone], fun i j hi _ => ?_, fun _ => hl.ws⟩
      exact absurd (List.mem_of_getElem? hi) hl.timers
    · exact .loading ⟨hl.context, hl.stream, hl.ws, (current_without hp).1 hrun ▸ hl.pending, hl.timers⟩

/-! ### Streams -/

/-- A stream that belongs to nobody any more is stopped on the spot. -/
theorem Owned.release (h : c.Owned) (asked : MediaTrackConstraints) :
    ((c.acquire asked).stopTracks c.streams.length).Owned := by
  refine ⟨h.contexts, fun i s hi hlive => ?_, h.sockets⟩
  rw [show ((c.acquire asked).stopTracks c.streams.length).streams = touch (some c.streams.length)
    (fun s => { s with live := false })
    (c.streams ++ [⟨true, asked.deviceId, asked.processing⟩]) from rfl, getElem?_touch] at hi
  split_ifs at hi with hlast
  · obtain ⟨s', -, rfl⟩ := Option.map_eq_some_iff.1 hi
    simp at hlive
  · rw [List.getElem?_append] at hi
    split_ifs at hi with hlt
    · exact h.streams i s hi hlive
    · rw [List.getElem?_singleton] at hi
      split_ifs at hi
      exact absurd (congrArg some (by omega : c.streams.length = i)) hlast

/-- **A stream takes the place of the one before**, which is stopped. -/
theorem Owned.replace (h : c.Owned) (asked : MediaTrackConstraints) (source : Option ℕ) :
    Owned { (c.acquire asked).stopTracks c.stream with stream := c.streams.length, source := source } := by
  refine ⟨h.contexts, fun i s hi hlive => ?_, h.sockets⟩
  have hi' : (touch c.stream (fun s => { s with live := false })
      (c.streams ++ [⟨true, asked.deviceId, asked.processing⟩]))[i]? = some s := hi
  rw [getElem?_touch] at hi'
  split_ifs at hi' with hold
  · obtain ⟨s', -, rfl⟩ := Option.map_eq_some_iff.1 hi'
    simp at hlive
  · rw [List.getElem?_append] at hi'
    split_ifs at hi' with hlt
    · exact absurd (h.streams i s hi' hlive) hold
    · rw [List.getElem?_singleton] at hi'
      split_ifs at hi'
      show some c.streams.length = some i
      congr 1
      omega

/-! ### Sockets -/

/-- **A socket is made when there is none.** -/
theorem Owned.connect (h : c.Owned) (hws : c.ws = none) (run : ℕ) : (c.connect run).Owned := by
  refine ⟨h.contexts, h.streams, fun i s hi huse => ?_⟩
  have hi' : (c.sockets ++ [({ run := run } : Socket)])[i]? = some s := hi
  rw [List.getElem?_append] at hi'
  split_ifs at hi' with hlt
  · exact absurd (h.sockets i s hi' huse) (by simp [hws])
  · rw [List.getElem?_singleton] at hi'
    split_ifs at hi'
    show some c.sockets.length = some i
    congr 1
    omega

/-- What happens to a socket brings none into use. -/
theorem Owned.touch (h : c.Owned) (i : ℕ) {f : Socket → Socket}
    (hf : ∀ s, (f s).inUse = true → s.inUse = true) :
    Owned { c with sockets := Client.touch i f c.sockets } := by
  refine ⟨h.contexts, h.streams, fun j s hj huse => ?_⟩
  have hj' : (Client.touch i f c.sockets)[j]? = some s := hj
  rw [getElem?_touch] at hj'
  split_ifs at hj'
  · obtain ⟨s', hs', rfl⟩ := Option.map_eq_some_iff.1 hj'
    exact h.sockets j s' hs' (hf s' huse)
  · exact h.sockets j s hj' huse

/-! ### Phases -/

theorem Running.same (h : c.Running) (hcontext : c'.context = c.context) (hrun : c'.run = c.run)
    (hpending : c'.pending = c.pending) (htimers : c'.timers = c.timers) (hws : c'.ws = c.ws) :
    c'.Running := by
  have hcurrent : c'.current = c.current := by simp [current, hpending, hrun]
  exact ⟨hcontext ▸ h.context, hcurrent ▸ h.pending, by rw [htimers, hrun]; exact h.timers,
    by rw [htimers, hrun, hws]; exact h.ws⟩

/-- A step that changes neither how far a start is nor the state. -/
theorem Sound.same (h : c.Sound) (howned : c'.Owned) (hcontext : c'.context = c.context)
    (hrun : c'.run = c.run) (hpending : c'.pending = c.pending) (htimers : c'.timers = c.timers)
    (hws : c'.ws = c.ws) (hstream : c'.stream = c.stream) (htalk : c'.talk.state = c.talk.state) :
    c'.Sound := by
  have hcurrent : c'.current = c.current := by simp [current, hpending, hrun]
  refine ⟨howned, ⟨by rw [hpending, hrun]; exact h.timely.pending,
    by rw [htimers, hrun]; exact h.timely.timers⟩, ?_⟩
  cases h.phase with
  | resting hr =>
    exact .resting ⟨hcontext.trans hr.context, hstream.trans hr.stream, hws.trans hr.ws,
      htalk.trans hr.state, by rw [hcurrent, hrun]; exact hr.pending,
      by rw [htimers, hrun]; exact hr.timers⟩
  | loading hl =>
    exact .loading ⟨hcontext ▸ hl.context, hstream.trans hl.stream, hws.trans hl.ws,
      hcurrent ▸ hl.pending, by rw [htimers, hrun]; exact hl.timers⟩
  | running hr => exact .running (hr.same hcontext hrun hpending htimers hws)

/-- What else is pending of a run belongs to a start that has its microphone. -/
theorem Sound.running_of (h : c.Sound) {p : Pending} (hp : p ∈ c.pending)
    (hrun : p.run = some c.run) (hearly : ¬p.Early) (hfailed : p ≠ .failed c.run) : c.Running := by
  have hmem : p ∈ c.current := mem_current.2 ⟨hp, hrun⟩
  cases h.phase with
  | resting hr => exact absurd (hr.pending p hmem) hfailed
  | loading hl =>
    obtain ⟨q, hq, hqearly⟩ := hl.pending
    rw [hq] at hmem
    exact absurd (List.mem_singleton.1 hmem ▸ hqearly) hearly
  | running hr => exact hr

/-- A start whose early step settled runs on with nothing. -/
theorem Sound.without_running (h : c.Sound) {i : ℕ} {p : Pending} (hp : c.pending[i]? = some p)
    (hrun : p.run = some c.run) (hearly : p.Early) : (c.without i).Running := by
  obtain ⟨hl, hnone⟩ := h.without_early hp hrun hearly
  exact ⟨hl.context, by simp [hnone], fun i j hi _ => absurd (List.mem_of_getElem? hi) hl.timers,
    fun _ => hl.ws⟩

/-- A start that fails goes on to its `catch`. -/
theorem Sound.fails (h : c.Sound) {i : ℕ} {p : Pending} (hp : c.pending[i]? = some p) {run : ℕ}
    (hprun : p.run = some run) (hearly : p.Early) : ((c.without i).await (.failed run)).Sound := by
  refine (h.without hp).await (fun run' hrun' => ?_) (fun hrun => ⟨?_, id⟩)
  · obtain rfl : run = run' := Option.some.inj hrun'
    exact h.timely.pending p (List.mem_of_getElem? hp) run hprun
  · exact h.without_running hp (hprun.trans hrun) hearly

/-- A run that has no socket makes one. -/
theorem Running.connects (h : c.Running) (howned : c.Owned) (htimely : c.Timely) (hws : c.ws = none)
    (htimers : some c.run ∉ c.timers) : (c.connect c.run).Sound :=
  ⟨howned.connect hws c.run, ⟨htimely.pending, htimely.timers⟩,
    .running ⟨h.context, h.pending, h.timers, fun hmem => absurd hmem htimers⟩⟩

/-- A socket in use, and so a start that has its microphone. -/
theorem Sound.running_of_ws (h : c.Sound) {i : ℕ} (hws : c.ws = some i) : c.Running := by
  cases h.phase with
  | resting hr => simp [hr.ws] at hws
  | loading hl => simp [hl.ws] at hws
  | running hr => exact hr

/-- A stream, and so a start that has its microphone. -/
theorem Sound.running_of_stream (h : c.Sound) (hstream : c.stream.isSome = true) : c.Running := by
  cases h.phase with
  | resting hr => simp [hr.stream] at hstream
  | loading hl => simp [hl.stream] at hstream
  | running hr => exact hr

/-- A start makes its socket and waits for it. -/
theorem Running.connect (h : c.Running) (howned : c.Owned) (htimely : c.Timely) (hws : c.ws = none)
    (htimers : some c.run ∉ c.timers) :
    ((c.connect c.run).await (.connected c.run c.sockets.length)).Sound := by
  have hsound := h.connects howned htimely hws htimers
  exact (hsound.running_of_ws rfl).await hsound.owned hsound.timely rfl id

/-- A start whose worklet is there asks for its microphone. -/
theorem Sound.asks (h : c.Sound) (hcontext : c.context ≠ none) (hstream : c.stream = none)
    (hws : c.ws = none) (hcurrent : c.current = []) (htimers : some c.run ∉ c.timers)
    (asked : MediaTrackConstraints) : (c.await (.microphone c.run asked)).Sound := by
  have hone : (c.await (.microphone c.run asked)).current = [.microphone c.run asked] := by
    rw [current_await, hcurrent, List.nil_append]
    exact if_pos rfl
  refine ⟨⟨h.owned.contexts, h.owned.streams, h.owned.sockets⟩, ⟨fun p hp run hrun => ?_,
    h.timely.timers⟩, .loading ⟨hcontext, hstream, hws, ⟨_, hone, trivial⟩, htimers⟩⟩
  rcases List.mem_append.1 hp with hp | hp
  · exact h.timely.pending p hp run hrun
  · rw [List.mem_singleton.1 hp] at hrun
    exact (Option.some.inj hrun).symm.le

/-- A start that has its microphone, before it makes anything of it. -/
theorem Sound.holds (h : c.Sound) {i : ℕ} {asked : MediaTrackConstraints}
    (hp : c.pending[i]? = some (.microphone c.run asked)) :
    Sound { (c.without i).acquire asked with stream := (c.without i).streams.length } := by
  have hl := (h.without_early hp rfl trivial).1
  have hd := h.without hp
  -- The first stream of a start: there is none to stop.
  have howned := hd.owned.replace asked (c.without i).source
  rw [show (c.without i).stream = none from hl.stream] at howned
  exact ⟨howned, ⟨hd.timely.pending, hd.timely.timers⟩,
    .running ((h.without_running hp rfl trivial).same rfl rfl rfl rfl rfl)⟩

/-! ### What goes on once something settled -/

theorem Sound.loaded (h : c.Sound) {i run : ℕ} (hp : c.pending[i]? = some (.worklet run))
    (o : Outcome) : ((c.without i).loaded run o).Sound := by
  have hd := h.without hp
  unfold Component.loaded
  split_ifs with hgranted hrun
  · exact h.fails hp rfl trivial
  · exact hd
  · obtain rfl : run = c.run := not_not.1 hrun
    obtain ⟨hl, hnone⟩ := h.without_early hp rfl trivial
    exact hd.asks hl.context hl.stream hl.ws hnone hl.timers _

theorem Sound.heard (h : c.Sound) {i run : ℕ} {asked : MediaTrackConstraints}
    (hp : c.pending[i]? = some (.microphone run asked)) (o : Outcome) :
    ((c.without i).heard run asked o).Sound := by
  have hd := h.without hp
  unfold Component.heard
  dsimp only
  split_ifs with hgranted hrun hgraph hsocket
  · exact h.fails hp rfl trivial
  · exact hd.same (hd.owned.release asked) rfl rfl rfl rfl rfl rfl rfl
  all_goals
    obtain rfl : run = c.run := not_not.1 hrun
    have hl := (h.without_early hp rfl trivial).1
    have hheld := h.holds hp
    have hrunning := hheld.running_of_stream rfl
  · exact hrunning.await hheld.owned hheld.timely rfl id
  · exact Running.connect (c := { (c.without i).acquire asked with
      talk := (c.without i).talk.step .prepared, stream := (c.without i).streams.length,
      source := (c.without i).streams.length }) (hrunning.same rfl rfl rfl rfl rfl)
      ⟨hheld.owned.contexts, hheld.owned.streams, hheld.owned.sockets⟩
      ⟨hheld.timely.pending, hheld.timely.timers⟩ hl.ws hl.timers
  · exact Running.await (c := { (c.without i).acquire asked with
      talk := (c.without i).talk.step .prepared, stream := (c.without i).streams.length,
      source := (c.without i).streams.length }) (hrunning.same rfl rfl rfl rfl rfl)
      ⟨hheld.owned.contexts, hheld.owned.streams, hheld.owned.sockets⟩
      ⟨hheld.timely.pending, hheld.timely.timers⟩ rfl id

theorem Sound.connected (h : c.Sound) {i run socket : ℕ}
    (hp : c.pending[i]? = some (.connected run socket)) (opened : Bool) (o : Outcome) :
    ((c.without i).connected run opened o).Sound := by
  have hd := h.without hp
  unfold Component.connected
  split_ifs with hopened hrun
  · exact hd.caught run o.message
  · exact hd
  · obtain rfl : run = c.run := not_not.1 hrun
    have hrunning := h.running_of (List.mem_of_getElem? hp) rfl id (by simp)
    exact hd.talk fun hcontext => absurd hcontext hrunning.context

/-- Another stream takes the place of the one in use. -/
theorem Sound.takes (h : c.Sound) {i : ℕ} {asked : MediaTrackConstraints}
    (hp : c.pending[i]? = some (.switched c.run asked)) (source : Option ℕ) :
    Sound { ((c.without i).acquire asked).stopTracks (c.without i).stream with
      stream := (c.without i).streams.length, source := source } := by
  have hd := h.without hp
  have hrunning := h.running_of (List.mem_of_getElem? hp) rfl id (by simp)
  have hwithout : (c.without i).Running :=
    ⟨hrunning.context, fun q hq => hrunning.pending q (mem_current.2
      ⟨List.mem_of_mem_eraseIdx (mem_current.1 hq).1, (mem_current.1 hq).2⟩),
      hrunning.timers, hrunning.ws⟩
  exact ⟨hd.owned.replace asked source, ⟨hd.timely.pending, hd.timely.timers⟩,
    .running (hwithout.same rfl rfl rfl rfl rfl)⟩

theorem Sound.switched (h : c.Sound) {i run : ℕ} {asked : MediaTrackConstraints}
    (hp : c.pending[i]? = some (.switched run asked)) (o : Outcome) :
    ((c.without i).switched run asked o).Sound := by
  have hd := h.without hp
  unfold Component.switched
  dsimp only
  split_ifs with hgranted hrun hgraph
  · exact hd.tell _
  · exact hd.same (hd.owned.release asked) rfl rfl rfl rfl rfl rfl rfl
  all_goals
    obtain rfl : run = c.run := by
      by_contra hne
      exact hrun (.inl hne)
  · exact h.takes hp _
  · exact (h.takes hp none).tell _

theorem Sound.constrained (h : c.Sound) (stream : ℕ) (asked : MediaTrackConstraints) (o : Outcome) :
    (c.constrained stream asked o).Sound := by
  unfold Component.constrained
  split_ifs
  · refine h.same ⟨h.owned.contexts, fun i s hi hlive => ?_, h.owned.sockets⟩ rfl rfl rfl rfl rfl rfl rfl
    have hi' : (Client.touch stream (fun s => { s with processing := asked.processing })
        c.streams)[i]? = some s := hi
    rw [getElem?_touch] at hi'
    split_ifs at hi'
    · obtain ⟨s', hs', rfl⟩ := Option.map_eq_some_iff.1 hi'
      exact h.owned.streams i s' hs' hlive
    · exact h.owned.streams i s hi' hlive
  · exact h.tell _

theorem Sound.settle (h : c.Sound) (i : ℕ) (o : Outcome) : (c.settle i o).Sound := by
  unfold Component.settle
  split
  · rename_i p hp
    split_ifs with hready
    · cases p with
      | worklet run => exact h.loaded hp o
      | microphone run asked => exact h.heard hp o
      | connected run socket => exact h.connected hp _ o
      | failed run => exact (h.without hp).caught run o.message
      | switched run asked => exact h.switched hp o
      | constrained stream asked => exact (h.without hp).constrained stream asked o
    · exact h
  · exact h

/-! ### What else happens -/

/-- A start that waits for its worklet. -/
theorem Sound.opens (h : c.Sound) (hcontext : c.context = none) (hpast : c.Past) :
    (Component.await { c with context := c.contexts.length, contexts := c.contexts ++ [true] }
      (.worklet c.run)).Sound := by
  have hrest := h.idle hcontext
  have hone : (Component.await { c with context := c.contexts.length, contexts := c.contexts ++ [true] }
      (.worklet c.run)).current = [.worklet c.run] := by
    rw [current_await]
    show c.current ++ _ = _
    rw [hpast.current, List.nil_append]
    exact if_pos rfl
  refine ⟨⟨fun i hi => ?_, h.owned.streams, h.owned.sockets⟩, ⟨fun p hp run hrun => ?_,
    h.timely.timers⟩, .loading ⟨by simp [Component.await], hrest.stream, hrest.ws,
      ⟨_, hone, trivial⟩, hrest.timers⟩⟩
  · have hi' : (c.contexts ++ [true])[i]? = some true := hi
    rw [List.getElem?_append] at hi'
    split_ifs at hi' with hlt
    · exact absurd (h.owned.contexts i hi') (by simp [hcontext])
    · rw [List.getElem?_singleton] at hi'
      split_ifs at hi'
      show some c.contexts.length = some i
      congr 1
      omega
  · rcases List.mem_append.1 hp with hp | hp
    · exact h.timely.pending p hp run hrun
    · rw [List.mem_singleton.1 hp] at hrun
      exact (Option.some.inj hrun).symm.le

/-- A start that failed before it had an audio context. -/
theorem Sound.fails_early (h : c.Sound) (hcontext : c.context = none) {run : ℕ} (hrun : run ≤ c.run) :
    (c.await (.failed run)).Sound := by
  have hrest := h.idle hcontext
  refine ⟨⟨h.owned.contexts, h.owned.streams, h.owned.sockets⟩, ⟨fun p hp run' hrun' => ?_,
    h.timely.timers⟩, .resting ⟨hcontext, hrest.stream, hrest.ws, hrest.state, fun p hp => ?_,
      hrest.timers⟩⟩
  · rcases List.mem_append.1 hp with hp | hp
    · exact h.timely.pending p hp run' hrun'
    · rw [List.mem_singleton.1 hp] at hrun'
      exact (Option.some.inj hrun').symm.le.trans hrun
  · obtain ⟨hp, hprun⟩ := mem_current.1 hp
    rcases List.mem_append.1 hp with hp | hp
    · exact hrest.pending p (mem_current.2 ⟨hp, hprun⟩)
    · rw [List.mem_singleton.1 hp] at hprun ⊢
      exact congrArg Pending.failed (Option.some.inj hprun)

/-- A run begins, with nothing of its own pending. -/
theorem Sound.begins (h : c.Sound) (hcontext : c.context = none) : Sound { c with run := c.run + 1 } := by
  have hrest := h.idle hcontext
  have hpast := h.timely.past
  refine ⟨⟨h.owned.contexts, h.owned.streams, h.owned.sockets⟩, hpast.timely,
    .resting ⟨hcontext, hrest.stream, hrest.ws, hrest.state, by simp [hpast.current], fun hmem => ?_⟩⟩
  exact absurd (hpast.timers _ hmem) (lt_irrefl _)

theorem Sound.start (h : c.Sound) (ok : Bool) : (c.start ok).Sound := by
  unfold Component.start
  split_ifs with hcontext hok
  · exact h
  · have hnone : c.context = none := by simpa using hcontext
    exact (h.begins hnone).opens hnone h.timely.past
  · have hnone : c.context = none := by simpa using hcontext
    exact (h.begins hnone).fails_early hnone le_rfl

theorem update_state (t : Talk F) (options : S2SOptions) : (t.update options).state = t.state := by
  rw [Talk.update, Talk.sendSessionUpdate, Talk.send_eq]

theorem Sound.update (h : c.Sound) (options : S2SOptions) : (c.update options).Sound := by
  have htalk : Sound { c with talk := c.talk.update options } :=
    h.talk fun hcontext => (update_state _ _).trans (h.idle hcontext).state
  unfold Component.update
  dsimp only
  split_ifs with hmic hecho
  · have hrunning := h.running_of_stream hmic.1
    exact Running.await (c := { c with talk := c.talk.update options })
      (hrunning.same rfl rfl rfl rfl rfl) htalk.owned htalk.timely rfl id
  · unfold Component.applyEcho
    dsimp only
    split
    · exact htalk.await (by simp [Pending.run]) (by simp [Pending.run])
    · exact htalk
  · exact htalk

theorem Sound.ws_of_use (h : c.Sound) {i : ℕ} {q : Socket → Bool}
    (huse : (c.sockets[i]?.any fun s => s.inUse && q s) = true) : c.ws = some i := by
  cases hs : c.sockets[i]? with
  | none => simp [hs] at huse
  | some s =>
    rw [hs, Option.any_some, Bool.and_eq_true] at huse
    exact h.owned.sockets i s hs huse.1

theorem Sound.onOpen (h : c.Sound) {i : ℕ} (hws : c.ws = some i) : (c.onOpen i).Sound := by
  have hrunning := h.running_of_ws hws
  have howned := h.owned.touch i (f := fun s =>
    { s with opened := true, promise := s.promise.or (some true) }) fun s hs => hs
  exact ⟨⟨howned.contexts, howned.streams, howned.sockets⟩, ⟨h.timely.pending, h.timely.timers⟩,
    .running (hrunning.same rfl rfl rfl rfl rfl)⟩

theorem Sound.onError (h : c.Sound) (i : ℕ) : (c.onError i).Sound :=
  h.same (h.owned.touch i fun _ hs => hs) rfl rfl rfl rfl rfl rfl rfl

/-- A socket that is gone leaves none in use. -/
theorem Sound.loses (h : c.Sound) (hrunning : c.Running) {talk : Talk F}
    (hnone : ∀ (j : ℕ) (s : Socket), c.sockets[j]? = some s → s.inUse = false) :
    Sound { c with ws := none, talk := talk } := by
  refine ⟨⟨h.owned.contexts, h.owned.streams, fun j s hj huse => ?_⟩,
    ⟨h.timely.pending, h.timely.timers⟩, .running ⟨hrunning.context, hrunning.pending, hrunning.timers,
      fun _ => rfl⟩⟩
  have hunused : s.inUse = false := hnone j s hj
  simp [hunused] at huse

/-- **A timer joins the others**: one of the run in force only where it has neither a socket nor
another timer. -/
theorem Sound.schedules (h : c.Sound) {run : ℕ} (hrun : run ≤ c.run)
    (hphase : run = c.run → c.Running ∧ c.ws = none ∧ some c.run ∉ c.timers) :
    Sound { c with reconnectTimer := some c.timers.length, timers := c.timers ++ [some run] } := by
  have htimely : ∀ run', some run' ∈ c.timers ++ [some run] → run' ≤ c.run := by
    intro run' hrun'
    rcases List.mem_append.1 hrun' with hrun' | hrun'
    · exact h.timely.timers run' hrun'
    · exact (Option.some.inj (List.mem_singleton.1 hrun')).le.trans hrun
  refine ⟨⟨h.owned.contexts, h.owned.streams, h.owned.sockets⟩, ⟨h.timely.pending, htimely⟩, ?_⟩
  by_cases hnow : run = c.run
  · obtain ⟨hrunning, hws, hfresh⟩ := hphase hnow
    have hlast : ∀ j : ℕ, (c.timers ++ [some run])[j]? = some (some c.run) → j = c.timers.length := by
      intro j hj
      rw [List.getElem?_append] at hj
      split_ifs at hj with hlt
      · exact absurd (List.mem_of_getElem? hj) hfresh
      · rw [List.getElem?_singleton] at hj
        split_ifs at hj
        omega
    exact .running ⟨hrunning.context, hrunning.pending,
      fun j k hj hk => (hlast j hj).trans (hlast k hk).symm, fun _ => hws⟩
  · have hiff : some c.run ∈ c.timers ++ [some run] ↔ some c.run ∈ c.timers := by
      rw [List.mem_append, List.mem_singleton]
      refine ⟨fun hmem => hmem.resolve_right fun heq => hnow (Option.some.inj heq).symm, .inl⟩
    cases h.phase with
    | resting hr =>
      exact .resting ⟨hr.context, hr.stream, hr.ws, hr.state, hr.pending, fun hmem => hr.timers (hiff.1 hmem)⟩
    | loading hl =>
      exact .loading ⟨hl.context, hl.stream, hl.ws, hl.pending, fun hmem => hl.timers (hiff.1 hmem)⟩
    | running hr =>
      have hold : ∀ j : ℕ, (c.timers ++ [some run])[j]? = some (some c.run) →
          c.timers[j]? = some (some c.run) := by
        intro j hj
        rw [List.getElem?_append] at hj
        split_ifs at hj with hlt
        · exact hj
        · rw [List.getElem?_singleton] at hj
          split_ifs at hj
          exact absurd (Option.some.inj (Option.some.inj hj)) hnow
      exact .running ⟨hr.context, hr.pending, fun j k hj hk => hr.timers j k (hold j hj) (hold k hk),
        fun hmem => hr.ws (hiff.1 hmem)⟩

/-- **A reconnection waits for its timer**, the only one of its run, with no socket in use. -/
theorem Sound.reconnect (h : c.Sound) {i : ℕ} (hws : c.ws = some i)
    (hnone : ∀ (j : ℕ) (s : Socket), c.sockets[j]? = some s → s.inUse = false) :
    (c.reconnect c.run).Sound := by
  have hrunning := h.running_of_ws hws
  have hlost : Sound { c with ws := none, talk := c.talk.reconnect } :=
    h.loses hrunning hnone
  refine hlost.schedules le_rfl fun _ => ⟨?_, rfl, fun hmem => ?_⟩
  · exact ⟨hrunning.context, hrunning.pending, hrunning.timers, fun _ => rfl⟩
  · simp [hrunning.ws hmem] at hws

theorem Sound.onClose (h : c.Sound) (i : ℕ) (s : Socket) (clean : Bool) (code : ℕ) :
    (c.onClose i s clean code).Sound := by
  have hclosed : Sound { c with sockets := Client.touch i (fun s => { s with closed := true }) c.sockets } :=
    h.same (h.owned.touch i fun _ hs => by simp [Socket.inUse] at hs) rfl rfl rfl rfl rfl rfl rfl
  unfold Component.onClose
  dsimp only
  split_ifs with hgone hend hclean hopened
  · exact hclosed
  all_goals
    obtain ⟨hws, hrun⟩ := not_or.1 hgone
    have hws : c.ws = some i := not_not.1 hws
    have hrun : s.run = c.run := not_not.1 hrun
    have hrunning := h.running_of_ws hws
    have hlost := hclosed.lose hrunning.context
    have hnone : ∀ (j : ℕ) (s' : Socket),
        (Client.touch i (fun s => { s with closed := true }) c.sockets)[j]? = some s' →
        s'.inUse = false := by
      intro j s' hj
      by_contra huse
      obtain rfl : i = j := Option.some.inj
        (hws.symm.trans (hclosed.owned.sockets j s' hj (Bool.eq_true_of_not_eq_false huse)))
      rw [getElem?_touch, if_pos rfl] at hj
      obtain ⟨s'', -, rfl⟩ := Option.map_eq_some_iff.1 hj
      simp [Socket.inUse] at huse
  · exact hlost.teardown.1
  · exact (hlost.tell _).teardown.1
  · rw [hrun]
    exact (hlost.tell _).reconnect hws hnone
  · rw [hrun]
    exact hlost.reconnect hws hnone

theorem Sound.onTimer (h : c.Sound) {i run : ℕ} (hi : c.timers[i]? = some (some run)) (socket : Bool) :
    (c.onTimer i run socket).Sound := by
  have hmem := List.mem_of_getElem? hi
  have hkept : ∀ j r, (Client.touch i (fun _ => none) c.timers)[j]? = some (some r) →
      i ≠ j ∧ c.timers[j]? = some (some r) := by
    intro j r hj
    rw [getElem?_touch] at hj
    split_ifs at hj with hij
    · cases hnth : c.timers[j]? <;> simp [hnth] at hj
    · exact ⟨fun h => hij (congrArg some h), hj⟩
  have hsub : ∀ r, some r ∈ Client.touch i (fun _ => none) c.timers → some r ∈ c.timers := by
    intro r hr
    obtain ⟨j, hj⟩ := List.mem_iff_getElem?.1 hr
    exact List.mem_of_getElem? (hkept j r hj).2
  have htimely : Timely { c with timers := Client.touch i (fun _ => none) c.timers } :=
    ⟨h.timely.pending, fun r hr => h.timely.timers r (hsub r hr)⟩
  have hfired : Sound { c with timers := Client.touch i (fun _ => none) c.timers } := by
    refine ⟨⟨h.owned.contexts, h.owned.streams, h.owned.sockets⟩, htimely, ?_⟩
    cases h.phase with
    | resting hr =>
      exact .resting ⟨hr.context, hr.stream, hr.ws, hr.state, hr.pending, fun hr' => hr.timers (hsub _ hr')⟩
    | loading hl =>
      exact .loading ⟨hl.context, hl.stream, hl.ws, hl.pending, fun hr' => hl.timers (hsub _ hr')⟩
    | running hr =>
      exact .running ⟨hr.context, hr.pending,
        fun j k hj hk => hr.timers j k (hkept j _ hj).2 (hkept k _ hk).2, fun hr' => hr.ws (hsub _ hr')⟩
  unfold Component.onTimer
  dsimp only
  split_ifs with hconnect
  · obtain ⟨rfl, -⟩ := hconnect
    -- The only timer of this run: once it fired, a socket may be made.
    have hrunning : c.Running := by
      cases h.phase with
      | resting hr => exact absurd hmem hr.timers
      | loading hl => exact absurd hmem hl.timers
      | running hr => exact hr
    have hnone : some c.run ∉ Client.touch i (fun _ => none) c.timers := by
      intro hr
      obtain ⟨j, hj⟩ := List.mem_iff_getElem?.1 hr
      exact (hkept j _ hj).1 (hrunning.timers i j hi (hkept j _ hj).2)
    refine ⟨hfired.owned.connect (hrunning.ws hmem) c.run, ⟨htimely.pending, htimely.timers⟩,
      .running ⟨hrunning.context, hrunning.pending, fun j k hj hk => ?_, fun hr => absurd hr hnone⟩⟩
    exact absurd (List.mem_of_getElem? hj) hnone
  · exact hfired

/-- **Every step keeps what holds.** -/
theorem Sound.step (h : c.Sound) (happening : Happening F) : (c.step happening).Sound := by
  cases happening with
  | start ok => exact h.start ok
  | stop => exact h.teardown.1
  | update options => exact h.update options
  | settles i o => exact h.settle i o
  | opens i =>
    rw [Component.step]
    split_ifs with huse
    · exact h.onOpen (h.ws_of_use huse)
    · exact h
  | errs i =>
    rw [Component.step]
    split_ifs
    · exact h.onError i
    · exact h
  | closes i clean code =>
    rw [Component.step]
    split
    · split_ifs
      · exact h
      · exact h.onClose ..
    · exact h
  | message i e =>
    rw [Component.step]
    split_ifs with huse
    · have hrunning := h.running_of_ws (h.ws_of_use huse)
      exact h.talk fun hcontext => absurd hcontext hrunning.context
    · exact h
  | fires i socket =>
    rw [Component.step]
    split
    · rename_i run hi
      exact h.onTimer hi socket
    · exact h

end Parts

/-! ### Over a run -/

theorem after_snoc (options : S2SOptions) (happenings : List (Happening F)) (h : Happening F) :
    after options (happenings ++ [h]) = (after options happenings).step h := List.foldl_append

theorem sound_initial (options : S2SOptions) : Sound ({ talk := { options := options } } : Component F) :=
  ⟨⟨by simp, by simp, by simp⟩, ⟨by simp, by simp⟩,
    .resting ⟨rfl, rfl, rfl, rfl, by simp [current], by simp⟩⟩

/-- **What holds of a component holds in every run.** -/
theorem after_sound (options : S2SOptions) (happenings : List (Happening F)) :
    (after options happenings).Sound := by
  induction happenings using List.reverseRecOn with
  | nil => exact sound_initial options
  | append_singleton happenings h ih =>
    rw [after_snoc]
    exact ih.step h

end Component

end Client
end S2S
