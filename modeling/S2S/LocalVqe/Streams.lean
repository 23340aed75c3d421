/-
# The streams of the echo canceller

Every stream of `src/localvqe.cpp` hears what it would hear alone (`Serves`):
what its slot holds, what lies in the arrays the streams share, and what has been
handed back to it are the windows, the states and the frames of a canceller
that serves this stream and nothing else (`Solo`), however far its call has come
(`Stage`).
-/

import S2S.LocalVqe.Slots

namespace S2S
namespace LocalVqe

open Lanes

variable {F : Type} [Sample F] {M : Model F}

/-! ### A stream alone -/

/-- What a stream needs of its past. -/
structure Solo (F : Type) where
  micPrev : List F
  refPrev : List F
  ola : List F
  history : List (List F)

/-- A stream that has heard nothing. -/
def Solo.fresh (M : Model F) : Solo F := ⟨zeros M.hop, zeros M.hop, zeros M.nFft, silence M⟩

/-- The previous hop, then the current one. -/
def wholeWindow (M : Model F) (prev pcm : List F) : List F :=
  prev ++ pcm ++ zeros (M.nFft - 2 * M.hop)

/-- What the graph computes of the next hop. -/
def Solo.heard (a : Solo F) (mic ref : Hop M) : List F × List (List F) :=
  M.pass (wholeWindow M a.micPrev mic.pcm) (wholeWindow M a.refPrev ref.pcm) a.history

/-- One call, and what it gives. -/
def Solo.call (a : Solo F) : Call M → Solo F × List F
  | .process mic ref =>
    let ola := overlapAdd a.ola (a.heard mic ref).1
    (⟨mic.pcm, ref.pcm, ola.drop M.hop ++ zeros M.hop, (a.heard mic ref).2⟩, ola.take M.hop)
  | .reset => (.fresh M, [])

/-- Calls, and what each gives. -/
def solo (calls : List (Call M)) : Solo F × List (Call M × List F) :=
  calls.foldl (fun p call => ((p.1.call call).1, p.2 ++ [(call, (p.1.call call).2)])) (.fresh M, [])

theorem solo_snoc (calls : List (Call M)) (call : Call M) :
    solo (calls ++ [call]) = (((solo calls).1.call call).1,
      (solo calls).2 ++ [(call, ((solo calls).1.call call).2)]) := by
  rw [solo, List.foldl_append]
  rfl

/-- The calls of a stream that have returned. -/
def callsOf (id : ℕ) (log : List (Event M)) : List (Call M) := (returnsOf id log).map Prod.fst

/-- What a stream needs of its past, after its calls. -/
def soloOf (id : ℕ) (log : List (Event M)) : Solo F := (solo (callsOf id log)).1

section Returns

omit [Sample F]

theorem returnsOf_snoc (id : ℕ) (log : List (Event M)) (call : Call M) (out : List F) :
    returnsOf id (log ++ [.returned id call out]) = returnsOf id log ++ [(call, out)] := by
  rw [returnsOf, List.filterMap_append]
  simp [returnsOf]

theorem returnsOf_of_ne {id id' : ℕ} (h : id' ≠ id) (log : List (Event M)) (call : Call M)
    (out : List F) : returnsOf id (log ++ [.returned id' call out]) = returnsOf id log := by
  rw [returnsOf, List.filterMap_append]
  simp [returnsOf, h]

end Returns

section Log

variable {id : ℕ} {log : List (Event M)} {call : Call M} {out : List F}

/-- A call of the stream has returned. -/
theorem soloOf_snoc : callsOf id (log ++ [.returned id call out]) = callsOf id log ++ [call] ∧
    soloOf id (log ++ [.returned id call out]) = ((soloOf id log).call call).1 := by
  have hcalls : callsOf id (log ++ [.returned id call out]) = callsOf id log ++ [call] := by
    rw [callsOf, returnsOf_snoc, List.map_append]
    rfl
  rw [soloOf, hcalls, solo_snoc]
  exact ⟨rfl, rfl⟩

theorem returns_snoc (h : returnsOf id log = (solo (callsOf id log)).2)
    (hout : out = ((soloOf id log).call call).2) :
    returnsOf id (log ++ [.returned id call out]) =
      (solo (callsOf id (log ++ [.returned id call out]))).2 := by
  rw [soloOf_snoc.1, solo_snoc, returnsOf_snoc, h, hout]
  rfl

end Log

/-! ### What is kept -/

/-- A window whose end, beyond two hops, is silent. -/
def Windowed (M : Model F) (win : List F) : Prop :=
  win.length = M.nFft ∧ win.drop (2 * M.hop) = zeros (M.nFft - 2 * M.hop)

/-- The buffers of a stream have their lengths. -/
structure Shaped (M : Model F) (st : LvState F) : Prop where
  micPrev : st.micPrev.length = M.hop
  refPrev : st.refPrev.length = M.hop
  micWin : Windowed M st.micWin
  refWin : Windowed M st.refWin
  frame : st.frame.length = M.nFft
  ola : st.ola.length = M.nFft

/-- Lane `k` is marked as one with a hop, or as one without. -/
def Marked (c : Context F) (k : ℕ) (hop : Bool) : Prop :=
  c.valid[k]? = some (if hop then 1 else 0) ∧ c.hold[k]? = some (if hop then 0 else 1)

/-- The slot of a stream of the batch. -/
def Canceller.busy (s : Canceller M) (k : ℕ) : Prop :=
  ∃ id ∈ s.batch, ∃ st, s.streams id = some st ∧ st.slot = k

/-- **How far a stream is with its call**, `a` what it needs of its past. -/
inductive Stage (s : Canceller M) (id : ℕ) (st : LvState F) (a : Solo F) : Prop
  | rests (call : s.calls id = none) (mic : st.micPrev = a.micPrev) (ref : st.refPrev = a.refPrev)
      (history : s.ctx.history st.slot = a.history)
  | waits {mic ref : Hop M} (call : s.calls id = some (mic, ref)) (mem : id ∈ s.ctx.queue)
      (prev : st.micPrev = mic.pcm ∧ st.refPrev = ref.pcm)
      (win : st.micWin = wholeWindow M a.micPrev mic.pcm ∧ st.refWin = wholeWindow M a.refPrev ref.pcm)
      (history : s.ctx.history st.slot = a.history)
  | laid {mic ref : Hop M} (call : s.calls id = some (mic, ref)) (mem : id ∈ s.batch)
      (worker : s.worker = .computes) (prev : st.micPrev = mic.pcm ∧ st.refPrev = ref.pcm)
      (pass : s.ctx.passOf M st.slot = a.heard mic ref)
  | computed {mic ref : Hop M} (call : s.calls id = some (mic, ref)) (mem : id ∈ s.batch)
      (worker : s.worker = .settles) (prev : st.micPrev = mic.pcm ∧ st.refPrev = ref.pcm)
      (out : lane M.nFft st.slot s.ctx.outHost = (a.heard mic ref).1)
      (history : s.ctx.history st.slot = (a.heard mic ref).2)
  | answered {mic ref : Hop M} (call : s.calls id = some (mic, ref)) (done : st.done = true)
      (prev : st.micPrev = mic.pcm ∧ st.refPrev = ref.pcm) (frame : st.frame = (a.heard mic ref).1)
      (history : s.ctx.history st.slot = (a.heard mic ref).2)

/-- **What the canceller keeps.** -/
structure Serves (s : Canceller M) : Prop where
  sound : Sound M s.ctx
  marks : ∀ k < s.ctx.capacity, (s.busy k → Marked s.ctx k true) ∧ (¬s.busy k → Marked s.ctx k false)
  resting : s.worker = .waits → s.batch = []
  computing : s.ctx.computing = true ↔ s.worker ≠ .waits
  opened : ∀ id, s.opened ≤ id → s.streams id = none ∧ callsOf id s.log = []
  slots : ∀ id st, s.streams id = some st →
    st.slot < s.ctx.capacity ∧ s.ctx.used[st.slot]? = some true
  apart : ∀ id id' st st', s.streams id = some st → s.streams id' = some st' →
    st.slot = st'.slot → id = id'
  shaped : ∀ id st, s.streams id = some st → Shaped M st
  handed : (s.ctx.queue ++ s.batch).Nodup
  pending : ∀ id ∈ s.ctx.queue ++ s.batch, s.calls id ≠ none ∧
    ∀ st, s.streams id = some st → st.done = false
  called : ∀ id, s.calls id ≠ none → s.streams id ≠ none
  stage : ∀ id st, s.streams id = some st →
    Stage s id st (soloOf id s.log) ∧ st.ola = (soloOf id s.log).ola
  returns : ∀ id, returnsOf id s.log = (solo (callsOf id s.log)).2

/-! ### Windows -/

theorem wholeWindow_windowed {prev pcm : List F} (hprev : prev.length = M.hop)
    (hpcm : pcm.length = M.hop) : Windowed M (wholeWindow M prev pcm) := by
  have hfits := M.fits
  constructor
  · simp only [wholeWindow, zeros, List.length_append, List.length_replicate, hprev, hpcm]
    omega
  · have hlen : (prev ++ pcm).length = 2 * M.hop := by
      rw [List.length_append, hprev, hpcm, Nat.two_mul]
    rw [wholeWindow, ← hlen, List.drop_left, hlen]

theorem window_eq {prev pcm win : List F} (hprev : prev.length = M.hop)
    (hpcm : pcm.length = M.hop) (hwin : Windowed M win) :
    window prev pcm win = wholeWindow M prev pcm := by
  have hhead : copyTo prev win 0 = prev ++ win.drop M.hop := by
    rw [copyTo, List.take_zero, List.nil_append, Nat.zero_add, hprev]
  have htail : (prev ++ win.drop M.hop).drop (M.hop + M.hop) = win.drop (2 * M.hop) := by
    rw [List.drop_append, hprev, Nat.add_sub_cancel, List.drop_drop,
      List.drop_eq_nil_of_le (by omega), List.nil_append, Nat.two_mul]
  rw [window, hhead, hprev, copyTo, hpcm, htail, hwin.2, ← hprev, List.take_left, wholeWindow,
    hprev]

theorem zeros_windowed : Windowed M (zeros (F := F) M.nFft) :=
  ⟨List.length_replicate, by rw [zeros, List.drop_replicate]; rfl⟩

/-! ### Stages -/

namespace Stage

variable {s s' : Canceller M} {id : ℕ} {st : LvState F} {a : Solo F}

/-- A stage that nothing reaches. -/
theorem mono (h : Stage s id st a) (hcall : s'.calls id = s.calls id)
    (hqueue : id ∈ s.ctx.queue → id ∈ s'.ctx.queue)
    (hbatch : id ∈ s.batch → id ∈ s'.batch ∧ s'.worker = s.worker ∧
      s'.ctx.passOf M st.slot = s.ctx.passOf M st.slot ∧
      lane M.nFft st.slot s'.ctx.outHost = lane M.nFft st.slot s.ctx.outHost)
    (hhistory : s'.ctx.history st.slot = s.ctx.history st.slot) : Stage s' id st a := by
  cases h with
  | rests call mic ref history =>
    exact .rests (hcall.trans call) mic ref (hhistory.trans history)
  | waits call mem prev win history =>
    exact .waits (hcall.trans call) (hqueue mem) prev win (hhistory.trans history)
  | laid call mem worker prev pass =>
    obtain ⟨hmem, hworker, hpass, -⟩ := hbatch mem
    exact .laid (hcall.trans call) hmem (hworker.trans worker) prev (hpass.trans pass)
  | computed call mem worker prev out history =>
    obtain ⟨hmem, hworker, -, hout⟩ := hbatch mem
    exact .computed (hcall.trans call) hmem (hworker.trans worker) prev (hout.trans out)
      (hhistory.trans history)
  | answered call done prev frame history =>
    exact .answered (hcall.trans call) done prev frame (hhistory.trans history)

end Stage

/-! ### Callers -/

/-- A slot is free. -/
def Canceller.Room (s : Canceller M) : Prop := ∃ k : ℕ, s.ctx.used[k]? = some false

omit [Sample F] in
theorem rested_ok {s : Canceller M} {id : ℕ} {st : LvState F} (hst : s.streams id = some st)
    (hcall : s.calls id = none) : rested s id = .ok st := by
  rw [rested, hst, hcall]
  rfl

/-- A stream reset. -/
def Canceller.resets (s : Canceller M) (id : ℕ) (st : LvState F) : Canceller M :=
  { s with
    ctx := { s.ctx with states := s.ctx.states.map (Tensor.cleared st.slot) }
    streams := Function.update s.streams id (some { st with
      micPrev := zeros st.micPrev.length
      refPrev := zeros st.refPrev.length
      ola := zeros st.ola.length })
    log := s.log ++ [.returned id .reset []] }

/-- A hop queued. -/
def Canceller.asks (s : Canceller M) (id : ℕ) (st : LvState F) (mic ref : Hop M) : Canceller M :=
  { s with
    ctx := { s.ctx with queue := s.ctx.queue ++ [id] }
    streams := Function.update s.streams id (some { st with
      micWin := window st.micPrev mic.pcm st.micWin
      refWin := window st.refPrev ref.pcm st.refWin
      micPrev := mic.pcm
      refPrev := ref.pcm
      done := false })
    calls := Function.update s.calls id (some (mic, ref)) }

/-- A hop answered. -/
def Canceller.hears (s : Canceller M) (id : ℕ) (st : LvState F) (mic ref : Hop M) : Canceller M :=
  { s with
    streams := Function.update s.streams id (some { st with
      ola := (overlapAdd st.ola st.frame).drop M.hop ++ zeros M.hop })
    calls := Function.update s.calls id none
    log := s.log ++ [.returned id (.process mic ref) ((overlapAdd st.ola st.frame).take M.hop)] }

/-- A stream freed. -/
def Canceller.frees (s : Canceller M) (id : ℕ) (st : LvState F) : Canceller M :=
  { s with
    ctx := { s.ctx with used := s.ctx.used.set st.slot false }
    streams := Function.update s.streams id none }

/-- A stream opened in a slot. -/
def Canceller.opens (s : Canceller M) (slot : ℕ) : Canceller M :=
  { s with
    ctx := { s.ctx with
      used := s.ctx.used.set slot true
      states := s.ctx.states.map (Tensor.cleared slot) }
    streams := Function.update s.streams s.opened (some (.new M slot))
    opened := s.opened + 1 }

section Callers

variable {s : Canceller M} (h : Serves s)
include h

theorem Serves.batch_nil (hcomputing : s.ctx.computing = false) : s.batch = [] := by
  refine h.resting ?_
  by_contra hworker
  rw [h.computing.2 hworker] at hcomputing
  simp at hcomputing

theorem Serves.not_busy (hcomputing : s.ctx.computing = false) (k : ℕ) : ¬s.busy k := by
  rintro ⟨id, hid, -⟩
  rw [h.batch_nil hcomputing] at hid
  simp at hid

/-- A stream at rest is in no queue. -/
theorem Serves.rests_apart {id : ℕ} (hcall : s.calls id = none) : id ∉ s.ctx.queue ∧ id ∉ s.batch := by
  constructor
  · exact fun hmem => (h.pending id (List.mem_append_left _ hmem)).1 hcall
  · exact fun hmem => (h.pending id (List.mem_append_right _ hmem)).1 hcall

/-- A growth, with no pass running. -/
theorem Serves.grow (hcomputing : s.ctx.computing = false) :
    Serves { s with ctx := s.ctx.grown M } := by
  have hnil := h.batch_nil hcomputing
  obtain ⟨hsound, hhistory⟩ := grown_sound h.sound
  have hidle : ∀ k, ¬Canceller.busy { s with ctx := s.ctx.grown M } k := by
    rintro k ⟨id, hid, -⟩
    rw [hnil] at hid
    simp at hid
  refine { h with
    sound := hsound
    marks := fun k hk => ⟨fun hbusy => absurd hbusy (hidle k), fun _ => ?_⟩
    slots := fun id st hst => ?_
    stage := fun id st hst => ?_ }
  · exact ⟨List.getElem?_replicate_of_lt hk, List.getElem?_replicate_of_lt hk⟩
  · obtain ⟨hlt, hused⟩ := h.slots id st hst
    refine ⟨Nat.lt_succ_of_lt hlt, ?_⟩
    show (s.ctx.used ++ [false])[st.slot]? = _
    rw [List.getElem?_append_left (by rw [h.sound.used]; exact hlt), hused]
  · obtain ⟨hstage, hola⟩ := h.stage id st hst
    refine ⟨hstage.mono rfl (fun hmem => hmem) (fun hmem => ?_)
      (hhistory _ (h.slots id st hst).1), hola⟩
    rw [hnil] at hmem
    simp at hmem

omit [Sample F] h in
/-- The streams, one of them updated. -/
theorem cases_update {id' : ℕ} {st' : LvState F} {id : ℕ} {st : LvState F}
    (hst : Function.update s.streams id' (some st') id = some st) :
    id = id' ∧ st = st' ∨ id ≠ id' ∧ s.streams id = some st := by
  by_cases hid : id = id'
  · subst hid
    rw [Function.update_self] at hst
    exact .inl ⟨rfl, (Option.some.inj hst).symm⟩
  · rw [Function.update_of_ne hid] at hst
    exact .inr ⟨hid, hst⟩

/-- **A stream opened** in a free slot has heard nothing. -/
theorem Serves.openSlot (hcomputing : s.ctx.computing = false) {slot : ℕ}
    (hslot : slot < s.ctx.capacity) (hfree : s.ctx.used[slot]? = some false) :
    openSlot slot s.ctx s = .ok (s.opens slot) ∧ Serves (s.opens slot) := by
  have hnil := h.batch_nil hcomputing
  have hsound : Sound M { s.ctx with used := s.ctx.used.set slot true } :=
    { h.sound with used := (List.length_set ..).trans h.sound.used }
  obtain ⟨hclear, hcleared, hsilent, hothers⟩ := lvClearSlot_sound hsound hslot
  have hlt : decide (slot < s.ctx.used.length) = true := decide_eq_true (h.sound.used ▸ hslot)
  have hnew : s.streams s.opened = none := (h.opened _ (Nat.le_refl _)).1
  have hapart : ∀ id st, s.streams id = some st → st.slot ≠ slot := by
    rintro id st hst rfl
    rw [(h.slots id st hst).2] at hfree
    simp at hfree
  have hused : ∀ k, k ≠ slot → (s.ctx.used.set slot true)[k]? = s.ctx.used[k]? := fun k hk =>
    List.getElem?_set_ne (Ne.symm hk)
  have hset : (s.ctx.used.set slot true)[slot]? = some true := by
    rw [List.getElem?_set_self (by rw [h.sound.used]; exact hslot)]
  refine ⟨by rw [LocalVqe.openSlot, need_bind hlt, bind_ok hclear]; rfl, ?_⟩
  have hidle : ∀ k, ¬(s.opens slot).busy k := by
    rintro k ⟨id, hid, -⟩
    rw [Canceller.opens, hnil] at hid
    simp at hid
  refine {
    sound := hcleared
    marks := fun k hk => ⟨fun hbusy => absurd hbusy (hidle k),
      fun _ => (h.marks k hk).2 (h.not_busy hcomputing k)⟩
    resting := h.resting
    computing := h.computing
    opened := fun id hid => ?_
    slots := fun id st hst => ?_
    apart := fun id id' st st' hst hst' heq => ?_
    shaped := fun id st hst => ?_
    handed := h.handed
    pending := fun id hid => ⟨(h.pending id hid).1, fun st hst => ?_⟩
    called := fun id hid => ?_
    stage := fun id st hst => ?_
    returns := h.returns }
  · have hne : id ≠ s.opened := by
      rintro rfl
      exact Nat.not_succ_le_self _ hid
    exact ⟨(Function.update_of_ne hne _ _).trans (h.opened id (Nat.le_of_succ_le hid)).1,
      (h.opened id (Nat.le_of_succ_le hid)).2⟩
  · rcases cases_update hst with ⟨-, rfl⟩ | ⟨-, hst⟩
    · exact ⟨hslot, hset⟩
    · exact ⟨(h.slots id st hst).1, (hused _ (hapart id st hst)).trans (h.slots id st hst).2⟩
  · rcases cases_update hst with ⟨rfl, rfl⟩ | ⟨-, hst⟩ <;> rcases cases_update hst' with ⟨rfl, rfl⟩ | ⟨-, hst'⟩
    · rfl
    · exact absurd heq.symm (hapart id' st' hst')
    · exact absurd heq (hapart id st hst)
    · exact h.apart id id' st st' hst hst' heq
  · rcases cases_update hst with ⟨-, rfl⟩ | ⟨-, hst⟩
    · exact ⟨List.length_replicate, List.length_replicate, zeros_windowed, zeros_windowed,
        List.length_replicate, List.length_replicate⟩
    · exact h.shaped id st hst
  · rcases cases_update hst with ⟨-, rfl⟩ | ⟨-, hst⟩
    · rfl
    · exact (h.pending id hid).2 st hst
  · by_cases hne : id = s.opened
    · subst hne
      exact absurd hnew (h.called _ hid)
    · exact fun hnone => h.called id hid ((Function.update_of_ne hne _ _).symm.trans hnone)
  · rcases cases_update hst with ⟨rfl, rfl⟩ | ⟨-, hst⟩
    · have hcalls : callsOf s.opened s.log = [] := (h.opened _ (Nat.le_refl _)).2
      have hrest : s.calls s.opened = none := by
        by_contra hcall
        exact h.called _ hcall hnew
      have hsolo : soloOf s.opened s.log = .fresh M := by rw [soloOf, hcalls]; rfl
      show Stage _ _ _ (soloOf s.opened s.log) ∧ _ = (soloOf s.opened s.log).ola
      rw [hsolo]
      exact ⟨.rests hrest rfl rfl hsilent, rfl⟩
    · obtain ⟨hstage, hola⟩ := h.stage id st hst
      refine ⟨hstage.mono rfl (fun hmem => hmem) (fun hmem => ?_)
        (hothers _ (h.slots id st hst).1 (hapart id st hst)), hola⟩
      rw [hnil] at hmem
      simp at hmem

/-- **`lv_state_new`**, where nothing fails: a stream is opened, after a growth where there was no
slot left. -/
theorem Serves.new (hcomputing : s.ctx.computing = false) {o : Allocations}
    (ho : s.Room ∨ o.all = true) :
    ∃ ctx slot, ctx.queue = s.ctx.queue ∧
      lvStateNew o s = .ok (Canceller.opens { s with ctx := ctx } slot) ∧
      Serves (Canceller.opens { s with ctx := ctx } slot) := by
  obtain ⟨slot, hfind, hle, hfree, hfull⟩ :=
    freeSlot_spec s.ctx.used (n := s.ctx.capacity) (k := 0)
      (by rw [h.sound.used, Nat.zero_add])
  have hwaits : (!s.ctx.computing) = true := by rw [hcomputing]; rfl
  rw [lvStateNew, need_bind hwaits, bind_ok hfind]
  by_cases hslot : slot = s.ctx.capacity
  · have hall : o.all = true := ho.resolve_left fun ⟨k, hk⟩ => by
      obtain ⟨hlt, -⟩ := List.getElem?_eq_some_iff.1 hk
      rw [hfull (hslot.trans h.sound.used.symm) k (Nat.zero_le k) hlt] at hk
      simp at hk
    rw [if_pos hslot, bind_ok (lvGrow_eq h.sound hall), if_pos rfl, hslot]
    refine ⟨s.ctx.grown M, s.ctx.capacity, rfl,
      (h.grow hcomputing).openSlot hcomputing
        (show s.ctx.capacity < (s.ctx.grown M).capacity from Nat.lt_succ_self _) ?_⟩
    show (s.ctx.used ++ [false])[s.ctx.capacity]? = _
    rw [List.getElem?_append_right (Nat.le_of_eq h.sound.used), h.sound.used, Nat.sub_self]
    rfl
  · have hlt : slot < s.ctx.used.length := by
      have := h.sound.used
      omega
    rw [if_neg hslot]
    exact ⟨s.ctx, slot, rfl, h.openSlot hcomputing (h.sound.used ▸ hlt) (hfree hlt)⟩

/-- **`lv_state_free`.** -/
theorem Serves.free {id : ℕ} {st : LvState F} (hst : s.streams id = some st)
    (hcall : s.calls id = none) :
    lvStateFree id s = .ok (s.frees id st) ∧ Serves (s.frees id st) := by
  obtain ⟨hlt, hused⟩ := h.slots id st hst
  have hslot : decide (st.slot < s.ctx.used.length) = true := decide_eq_true (h.sound.used ▸ hlt)
  obtain ⟨hqueue, hbatch⟩ := h.rests_apart hcall
  have hcases : ∀ {id' st'}, Function.update s.streams id none id' = some st' →
      id' ≠ id ∧ s.streams id' = some st' := by
    intro id' st' hst'
    by_cases hid : id' = id
    · subst hid
      simp at hst'
    · rw [Function.update_of_ne hid] at hst'
      exact ⟨hid, hst'⟩
  have hbusy : ∀ k, (s.frees id st).busy k ↔ s.busy k := by
    intro k
    constructor
    · rintro ⟨id', hid', st', hst', hk⟩
      exact ⟨id', hid', st', (hcases hst').2, hk⟩
    · rintro ⟨id', hid', st', hst', hk⟩
      have hne : id' ≠ id := fun heq => hbatch (heq ▸ hid')
      exact ⟨id', hid', st', (Function.update_of_ne hne _ _).trans hst', hk⟩
  refine ⟨by rw [lvStateFree, bind_ok (rested_ok hst hcall), need_bind hslot]; rfl, {
    sound := { h.sound with used := (List.length_set ..).trans h.sound.used }
    marks := fun k hk => by rw [hbusy]; exact h.marks k hk
    resting := h.resting
    computing := h.computing
    opened := fun id' hid' => ?_
    slots := fun id' st' hst' => ?_
    apart := fun id' id'' st' st'' hst' hst'' =>
      h.apart id' id'' st' st'' (hcases hst').2 (hcases hst'').2
    shaped := fun id' st' hst' => h.shaped id' st' (hcases hst').2
    handed := h.handed
    pending := fun id' hid' => ⟨(h.pending id' hid').1, fun st' hst' =>
      (h.pending id' hid').2 st' (hcases hst').2⟩
    called := fun id' hid' => ?_
    stage := fun id' st' hst' => ?_
    returns := h.returns }⟩
  · obtain ⟨hnone, hcalls⟩ := h.opened id' hid'
    refine ⟨?_, hcalls⟩
    have hne : id' ≠ id := by
      rintro rfl
      rw [hst] at hnone
      simp at hnone
    exact (Function.update_of_ne hne _ _).trans hnone
  · obtain ⟨hne, hst'⟩ := hcases hst'
    obtain ⟨hlt', hused'⟩ := h.slots id' st' hst'
    have hslots : st.slot ≠ st'.slot := fun heq => hne (h.apart id' id st' st hst' hst heq.symm)
    exact ⟨hlt', (List.getElem?_set_ne hslots).trans hused'⟩
  · have hne : id' ≠ id := by
      rintro rfl
      exact hid' hcall
    exact fun hnone => h.called id' hid' ((Function.update_of_ne hne _ _).symm.trans hnone)
  · obtain ⟨hne, hst'⟩ := hcases hst'
    obtain ⟨hstage, hola⟩ := h.stage id' st' hst'
    exact ⟨hstage.mono rfl (fun hmem => hmem) (fun hmem => ⟨hmem, rfl, rfl, rfl⟩) rfl, hola⟩

omit [Sample F] h in
/-- One stream updated, which keeps its slot. -/
theorem busy_update {id : ℕ} {st st' : LvState F} (hst : s.streams id = some st)
    (hslot : st'.slot = st.slot) {s' : Canceller M}
    (hstreams : s'.streams = Function.update s.streams id (some st')) (hbatch : s'.batch = s.batch)
    (k : ℕ) : s'.busy k ↔ s.busy k := by
  unfold Canceller.busy
  rw [hstreams, hbatch]
  constructor
  · rintro ⟨id', hid', st₁, hst₁, hk⟩
    rcases cases_update hst₁ with ⟨rfl, rfl⟩ | ⟨-, hst₁⟩
    · exact ⟨id', hid', st, hst, hslot ▸ hk⟩
    · exact ⟨id', hid', st₁, hst₁, hk⟩
  · rintro ⟨id', hid', st₁, hst₁, hk⟩
    by_cases hid : id' = id
    · subst hid
      obtain rfl : st = st₁ := Option.some.inj (hst.symm.trans hst₁)
      exact ⟨id', hid', st', Function.update_self .., hslot.trans hk⟩
    · exact ⟨id', hid', st₁, (Function.update_of_ne hid _ _).trans hst₁, hk⟩

/-- **One stream goes on**, with the others where they were: what its own call changes of the
canceller. -/
theorem Serves.goes {id : ℕ} {st st' : LvState F} (s' : Canceller M) (hst : s.streams id = some st)
    (hstreams : s'.streams = Function.update s.streams id (some st'))
    (hslot : st'.slot = st.slot)
    (hctx : s'.ctx.capacity = s.ctx.capacity ∧ s'.ctx.used = s.ctx.used ∧
      s'.ctx.valid = s.ctx.valid ∧ s'.ctx.hold = s.ctx.hold ∧
      s'.ctx.computing = s.ctx.computing)
    (hsound : Sound M s'.ctx) (hworker : s'.worker = s.worker) (hbatch : s'.batch = s.batch)
    (hopened : s'.opened = s.opened) (hshaped : Shaped M st')
    (hhanded : (s'.ctx.queue ++ s'.batch).Nodup)
    (hpending : ∀ id' ∈ s'.ctx.queue ++ s'.batch, s'.calls id' ≠ none ∧
      ∀ st, s'.streams id' = some st → st.done = false)
    (hcalls : ∀ id', id' ≠ id → s'.calls id' = s.calls id')
    (hlog : ∀ id', id' ≠ id → returnsOf id' s'.log = returnsOf id' s.log)
    (hothers : ∀ id' st₁, id' ≠ id → s.streams id' = some st₁ →
      Stage s id' st₁ (soloOf id' s.log) → Stage s' id' st₁ (soloOf id' s.log))
    (hstage : Stage s' id st' (soloOf id s'.log) ∧ st'.ola = (soloOf id s'.log).ola)
    (hreturns : returnsOf id s'.log = (solo (callsOf id s'.log)).2) : Serves s' := by
  obtain ⟨hcapacity, hused, hvalid, hhold, hcomputing⟩ := hctx
  have hcallsOf : ∀ id', id' ≠ id → callsOf id' s'.log = callsOf id' s.log := fun id' hne => by
    rw [callsOf, hlog id' hne, callsOf]
  have hcases : ∀ {id₁ st₁}, s'.streams id₁ = some st₁ →
      id₁ = id ∧ st₁ = st' ∨ id₁ ≠ id ∧ s.streams id₁ = some st₁ := fun hst₁ =>
    cases_update (by rw [← hstreams]; exact hst₁)
  -- the slot is the one it had, so every slot is whose it was
  have hold : ∀ id₁ st₁, s'.streams id₁ = some st₁ → ∃ st₂, s.streams id₁ = some st₂ ∧
      st₂.slot = st₁.slot := by
    intro id₁ st₁ hst₁
    rcases hcases hst₁ with ⟨rfl, rfl⟩ | ⟨-, hst₁⟩
    · exact ⟨st, hst, hslot.symm⟩
    · exact ⟨st₁, hst₁, rfl⟩
  refine {
    sound := hsound
    marks := fun k hk => ?_
    resting := by rw [hworker, hbatch]; exact h.resting
    computing := by rw [hworker, hcomputing]; exact h.computing
    opened := fun id' hid' => ?_
    slots := fun id₁ st₁ hst₁ => ?_
    apart := fun id₁ id₂ st₁ st₂ hst₁ hst₂ heq => ?_
    shaped := fun id₁ st₁ hst₁ => ?_
    handed := hhanded
    pending := hpending
    called := fun id' hid' => ?_
    stage := fun id₁ st₁ hst₁ => ?_
    returns := fun id' => ?_ }
  · rw [busy_update hst hslot hstreams hbatch]
    unfold Marked
    rw [hvalid, hhold]
    exact h.marks k (hcapacity ▸ hk)
  · obtain ⟨hnone, hnil⟩ := h.opened id' (hopened ▸ hid')
    have hne : id' ≠ id := by
      rintro rfl
      rw [hst] at hnone
      simp at hnone
    rw [hstreams, Function.update_of_ne hne, hcallsOf id' hne]
    exact ⟨hnone, hnil⟩
  · obtain ⟨st₂, hst₂, hslot₂⟩ := hold id₁ st₁ hst₁
    rw [hcapacity, hused, ← hslot₂]
    exact h.slots id₁ st₂ hst₂
  · obtain ⟨st₃, hst₃, hslot₃⟩ := hold id₁ st₁ hst₁
    obtain ⟨st₄, hst₄, hslot₄⟩ := hold id₂ st₂ hst₂
    exact h.apart id₁ id₂ st₃ st₄ hst₃ hst₄ (by rw [hslot₃, hslot₄, heq])
  · rcases hcases hst₁ with ⟨-, rfl⟩ | ⟨-, hst₁⟩
    · exact hshaped
    · exact h.shaped id₁ st₁ hst₁
  · by_cases hne : id' = id
    · subst hne
      rw [hstreams, Function.update_self]
      simp
    · rw [hstreams, Function.update_of_ne hne]
      exact h.called id' (by rw [← hcalls id' hne]; exact hid')
  · rcases hcases hst₁ with ⟨rfl, rfl⟩ | ⟨hne, hst₁⟩
    · exact hstage
    · obtain ⟨hstage₁, hola₁⟩ := h.stage id₁ st₁ hst₁
      have hsolo : soloOf id₁ s'.log = soloOf id₁ s.log := by
        rw [soloOf, hcallsOf id₁ hne, soloOf]
      rw [hsolo]
      exact ⟨hothers id₁ st₁ hne hst₁ hstage₁, hola₁⟩
  · by_cases hne : id' = id
    · subst hne
      exact hreturns
    · rw [hlog id' hne, hcallsOf id' hne]
      exact h.returns id'

/-- **`lv_state_reset`.** -/
theorem Serves.reset (hcomputing : s.ctx.computing = false) {id : ℕ} {st : LvState F}
    (hst : s.streams id = some st) (hcall : s.calls id = none) :
    lvStateReset id s = .ok (s.resets id st) ∧ Serves (s.resets id st) := by
  have hnil := h.batch_nil hcomputing
  have hwaits : (!s.ctx.computing) = true := by rw [hcomputing]; rfl
  obtain ⟨hlt, -⟩ := h.slots id st hst
  obtain ⟨hclear, hcleared, hsilent, hothers⟩ := lvClearSlot_sound h.sound hlt
  have hshaped := h.shaped id st hst
  obtain ⟨hqueue, -⟩ := h.rests_apart hcall
  have hsolo : soloOf id (s.resets id st).log = .fresh M := soloOf_snoc.2
  refine ⟨by rw [lvStateReset, bind_ok (rested_ok hst hcall), need_bind hwaits, bind_ok hclear]; rfl,
    h.goes (s.resets id st) hst rfl rfl ⟨rfl, rfl, rfl, rfl, rfl⟩ hcleared rfl rfl rfl ?_
      h.handed (fun id' hid' => ⟨(h.pending id' hid').1, fun st₁ hst₁ => ?_⟩) (fun _ _ => rfl)
      (fun id' hne => returnsOf_of_ne (Ne.symm hne) ..) (fun id' st₁ hne hst₁ hstage => ?_) ?_
      (returns_snoc (h.returns id) rfl)⟩
  · exact ⟨List.length_replicate.trans hshaped.micPrev, List.length_replicate.trans hshaped.refPrev,
      hshaped.micWin, hshaped.refWin, hshaped.frame, List.length_replicate.trans hshaped.ola⟩
  · rcases cases_update hst₁ with ⟨rfl, -⟩ | ⟨-, hst₁⟩
    · exact absurd hcall (h.pending id' hid').1
    · exact (h.pending id' hid').2 st₁ hst₁
  · have hslots : st₁.slot ≠ st.slot := fun heq => hne (h.apart id' id st₁ st hst₁ hst heq)
    refine hstage.mono rfl (fun hmem => hmem) (fun hmem => ?_)
      (hothers _ (h.slots id' st₁ hst₁).1 hslots)
    rw [hnil] at hmem
    simp at hmem
  · rw [hsolo]
    refine ⟨.rests hcall ?_ ?_ hsilent, ?_⟩
    · exact congrArg zeros hshaped.micPrev
    · exact congrArg zeros hshaped.refPrev
    · exact congrArg zeros hshaped.ola

/-- **`lv_process`**, up to its wait. -/
theorem Serves.process {id : ℕ} {st : LvState F} (hst : s.streams id = some st)
    (hcall : s.calls id = none) (mic ref : Hop M) :
    lvProcess id mic ref s = .ok (s.asks id st mic ref) ∧ Serves (s.asks id st mic ref) := by
  have hshaped := h.shaped id st hst
  obtain ⟨hqueue, hbatch⟩ := h.rests_apart hcall
  have hmic := window_eq hshaped.micPrev mic.length hshaped.micWin
  have href := window_eq hshaped.refPrev ref.length hshaped.refWin
  refine ⟨by rw [lvProcess, bind_ok (rested_ok hst hcall)]; rfl,
    h.goes (s.asks id st mic ref) hst rfl rfl ⟨rfl, rfl, rfl, rfl, rfl⟩
      { h.sound with } rfl rfl rfl ?_ ?_ (fun id' hid' => ?_)
      (fun id' hne => Function.update_of_ne hne _ _) (fun _ _ => rfl)
      (fun id' st₁ hne hst₁ hstage => ?_) ?_ (h.returns id)⟩
  · exact ⟨mic.length, ref.length, hmic ▸ wholeWindow_windowed hshaped.micPrev mic.length,
      href ▸ wholeWindow_windowed hshaped.refPrev ref.length, hshaped.frame, hshaped.ola⟩
  · show ((s.ctx.queue ++ [id]) ++ s.batch).Nodup
    rw [List.append_assoc, List.singleton_append, List.perm_middle.nodup_iff, List.nodup_cons,
      List.mem_append]
    exact ⟨fun hmem => hmem.elim hqueue hbatch, h.handed⟩
  · have hmem : id' = id ∨ id' ∈ s.ctx.queue ++ s.batch := by
      rcases List.mem_append.1 hid' with hmem | hmem
      · rcases List.mem_append.1 hmem with hmem | hmem
        · exact .inr (List.mem_append_left _ hmem)
        · exact .inl (List.mem_singleton.1 hmem)
      · exact .inr (List.mem_append_right _ hmem)
    by_cases hne : id' = id
    · subst hne
      have hcalls : (s.asks id' st mic ref).calls id' = some (mic, ref) := Function.update_self ..
      refine ⟨by rw [hcalls]; simp, fun st₁ hst₁ => ?_⟩
      rcases cases_update hst₁ with ⟨-, rfl⟩ | ⟨hne, -⟩
      · rfl
      · exact absurd rfl hne
    · obtain ⟨hcalled, hdone⟩ := h.pending id' (hmem.resolve_left hne)
      have hcalls : (s.asks id st mic ref).calls id' = s.calls id' := Function.update_of_ne hne _ _
      refine ⟨by rw [hcalls]; exact hcalled, fun st₁ hst₁ => ?_⟩
      rcases cases_update hst₁ with ⟨heq, -⟩ | ⟨-, hst₁⟩
      · exact absurd heq hne
      · exact hdone st₁ hst₁
  · exact hstage.mono (Function.update_of_ne hne _ _) (fun hmem => List.mem_append_left _ hmem)
      (fun hmem => ⟨hmem, rfl, rfl, rfl⟩) rfl
  · obtain ⟨hstage, hola⟩ := h.stage id st hst
    refine ⟨?_, hola⟩
    cases hstage with
    | rests _ hmicPrev hrefPrev history =>
      refine .waits (Function.update_self ..) (by simp [Canceller.asks]) ⟨rfl, rfl⟩ ⟨?_, ?_⟩ history
      · exact hmic.trans (by rw [hmicPrev]; rfl)
      · exact href.trans (by rw [hrefPrev]; rfl)
    | waits call => exact absurd (hcall.symm.trans call) (by simp)
    | laid call => exact absurd (hcall.symm.trans call) (by simp)
    | computed call => exact absurd (hcall.symm.trans call) (by simp)
    | answered call => exact absurd (hcall.symm.trans call) (by simp)

/-- A call that is in no queue any more has been answered. -/
theorem Serves.answered {id : ℕ} {st : LvState F} (hst : s.streams id = some st) {mic ref : Hop M}
    (hcall : s.calls id = some (mic, ref)) (hdone : st.done = true) :
    let a := soloOf id s.log
    st.micPrev = mic.pcm ∧ st.refPrev = ref.pcm ∧ st.frame = (a.heard mic ref).1 ∧
      s.ctx.history st.slot = (a.heard mic ref).2 := by
  have hnot : id ∉ s.ctx.queue ++ s.batch := fun hmem => by
    rw [(h.pending id hmem).2 st hst] at hdone
    simp at hdone
  cases (h.stage id st hst).1 with
  | rests call => exact absurd (hcall.symm.trans call) (by simp)
  | waits _ mem => exact absurd (List.mem_append_left _ mem) hnot
  | laid _ mem => exact absurd (List.mem_append_right _ mem) hnot
  | computed _ mem => exact absurd (List.mem_append_right _ mem) hnot
  | answered call _ prev frame history =>
    obtain ⟨rfl, rfl⟩ := Prod.mk.inj (Option.some.inj (hcall.symm.trans call))
    exact ⟨prev.1, prev.2, frame, history⟩

/-- **`lv_process`**, after its wait. -/
theorem Serves.processed {id : ℕ} {st : LvState F} (hst : s.streams id = some st) {mic ref : Hop M}
    (hcall : s.calls id = some (mic, ref)) (hdone : st.done = true) :
    lvProcessed id s = .ok (s.hears id st mic ref) ∧ Serves (s.hears id st mic ref) := by
  have hshaped := h.shaped id st hst
  obtain ⟨hmic, href, hframe, hhistory⟩ := h.answered hst hcall hdone
  have hola := (h.stage id st hst).2
  have hfits := M.fits
  have hadd : (overlapAdd st.ola st.frame).length = M.nFft := by
    rw [overlapAdd, List.length_zipWith, hshaped.ola, hshaped.frame, Nat.min_self]
  have hnot : id ∉ s.ctx.queue ++ s.batch := fun hmem => by
    rw [(h.pending id hmem).2 st hst] at hdone
    simp at hdone
  refine ⟨by rw [lvProcessed, hst, hcall]; exact need_bind hdone,
    h.goes (s.hears id st mic ref) hst rfl rfl ⟨rfl, rfl, rfl, rfl, rfl⟩ h.sound rfl rfl rfl
      ?_ h.handed (fun id' hid' => ?_) (fun id' hne => Function.update_of_ne hne _ _)
      (fun id' hne => returnsOf_of_ne (Ne.symm hne) ..) (fun id' st₁ hne hst₁ hstage => ?_) ?_
      (returns_snoc (h.returns id) ?_)⟩
  · refine ⟨hshaped.micPrev, hshaped.refPrev, hshaped.micWin, hshaped.refWin, hshaped.frame, ?_⟩
    rw [List.length_append, List.length_drop, hadd, zeros, List.length_replicate]
    omega
  · have hne : id' ≠ id := by
      rintro rfl
      exact hnot hid'
    obtain ⟨hcalled, hnone⟩ := h.pending id' hid'
    have hcalls : (s.hears id st mic ref).calls id' = s.calls id' := Function.update_of_ne hne _ _
    refine ⟨by rw [hcalls]; exact hcalled, fun st₁ hst₁ => ?_⟩
    rcases cases_update hst₁ with ⟨heq, -⟩ | ⟨-, hst₁⟩
    · exact absurd heq hne
    · exact hnone st₁ hst₁
  · exact hstage.mono (Function.update_of_ne hne _ _) (fun hmem => hmem)
      (fun hmem => ⟨hmem, rfl, rfl, rfl⟩) rfl
  · rw [Canceller.hears, soloOf_snoc.2]
    refine ⟨.rests (Function.update_self ..) hmic href hhistory, ?_⟩
    show (overlapAdd st.ola st.frame).drop M.hop ++ _ = (overlapAdd _ _).drop M.hop ++ _
    rw [hola, hframe]
  · show (overlapAdd st.ola st.frame).take M.hop = (overlapAdd _ _).take M.hop
    rw [hola, hframe]

end Callers

end LocalVqe
end S2S
