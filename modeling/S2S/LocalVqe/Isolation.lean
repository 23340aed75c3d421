/-
# Every stream on its own

The worker of `src/localvqe.cpp` lays out a batch, computes it and hands it back
(`Serves.takes`, `Serves.computes`, `Serves.settles`); so whatever the order of
the calls of all streams and of the passes, no step reads or writes where there
is nothing (`serves_step`), and every stream is given what it is given on a
canceller of its own (`isolated`).
-/

import S2S.LocalVqe.Streams

namespace S2S
namespace LocalVqe

open Lanes

variable {F : Type} [Sample F] {M : Model F}

/-! ### The batch laid out -/

section LayOut

variable {streams : ℕ → Option (LvState F)} {c : Context F}

/-- A context with other windows and marks. -/
def Context.laid (c : Context F) (mic ref valid hold : List F) : Context F :=
  { c with micHost := mic, refHost := ref, valid := valid, hold := hold }

/-- The windows of one stream are laid out in its lane, and the lane is marked; the other lanes are
left as they are. -/
theorem layOut_sound (h : Sound M c) {id : ℕ} {st : LvState F} (hst : streams id = some st)
    (hslot : st.slot < c.capacity) (hshaped : Shaped M st) :
    ∃ mic ref valid hold, layOut (M := M) streams c id = .ok (c.laid mic ref valid hold) ∧
      Sound M (c.laid mic ref valid hold) ∧
      lane M.nFft st.slot mic = st.micWin ∧ lane M.nFft st.slot ref = st.refWin ∧
      Marked (c.laid mic ref valid hold) st.slot true ∧
      ∀ k, k ≠ st.slot → lane M.nFft k mic = lane M.nFft k c.micHost ∧
        lane M.nFft k ref = lane M.nFft k c.refHost ∧ valid[k]? = c.valid[k]? ∧
        hold[k]? = c.hold[k]? := by
  have hfits := lane_fits M.nFft hslot
  have hmic : st.slot * M.nFft + M.nFft ≤ c.micHost.length := by rw [h.mic]; exact hfits
  have href : st.slot * M.nFft + M.nFft ≤ c.refHost.length := by rw [h.ref]; exact hfits
  have hvalid : st.slot < c.valid.length := by rw [h.valid]; exact hslot
  have hhold : st.slot < c.hold.length := by rw [h.hold]; exact hslot
  have hmicLen := hshaped.micWin.1
  have hrefLen := hshaped.refWin.1
  refine ⟨copyTo st.micWin c.micHost (st.slot * M.nFft), copyTo st.refWin c.refHost
    (st.slot * M.nFft), c.valid.set st.slot 1, c.hold.set st.slot 0, ?_, { h with
      valid := (List.length_set ..).trans h.valid
      hold := (List.length_set ..).trans h.hold
      mic := (length_copyTo (by rw [hmicLen]; exact hmic)).trans h.mic
      ref := (length_copyTo (by rw [hrefLen]; exact href)).trans h.ref },
    lane_copyTo_self hmicLen hmic, lane_copyTo_self hrefLen href,
    ⟨List.getElem?_set_self hvalid, List.getElem?_set_self hhold⟩, fun k hk =>
      ⟨lane_copyTo_of_ne (Ne.symm hk) hmicLen hmic, lane_copyTo_of_ne (Ne.symm hk) hrefLen href,
        List.getElem?_set_ne (Ne.symm hk), List.getElem?_set_ne (Ne.symm hk)⟩⟩
  simp only [layOut, hst]
  refine need_bind ?_
  simp [hmic, href, hvalid, hhold]

/-- **A batch is laid out**, every stream in a lane of its own. -/
theorem layOut_batch {ids : List ℕ} (h : Sound M c) (hnodup : ids.Nodup)
    (hids : ∀ id ∈ ids, ∃ st, streams id = some st ∧ st.slot < c.capacity ∧ Shaped M st)
    (hapart : ∀ id id' st st', streams id = some st → streams id' = some st' →
      st.slot = st'.slot → id = id') :
    ∃ mic ref valid hold, ids.foldlM (layOut (M := M) streams) c = .ok (c.laid mic ref valid hold) ∧
      Sound M (c.laid mic ref valid hold) ∧
      (∀ id ∈ ids, ∀ st, streams id = some st → lane M.nFft st.slot mic = st.micWin ∧
        lane M.nFft st.slot ref = st.refWin ∧ Marked (c.laid mic ref valid hold) st.slot true) ∧
      ∀ k, (∀ id ∈ ids, ∀ st, streams id = some st → st.slot ≠ k) →
        lane M.nFft k mic = lane M.nFft k c.micHost ∧ lane M.nFft k ref = lane M.nFft k c.refHost ∧
          valid[k]? = c.valid[k]? ∧ hold[k]? = c.hold[k]? := by
  induction ids generalizing c with
  | nil => exact ⟨_, _, _, _, rfl, h, by simp, fun k _ => ⟨rfl, rfl, rfl, rfl⟩⟩
  | cons id ids ih =>
    obtain ⟨hnot, hnodup⟩ := List.nodup_cons.1 hnodup
    obtain ⟨st, hst, hslot, hshaped⟩ := hids id List.mem_cons_self
    obtain ⟨mic, ref, valid, hold, hok, hsound, hmic, href, hmarked, hothers⟩ :=
      layOut_sound h hst hslot hshaped
    obtain ⟨mic', ref', valid', hold', hok', hsound', hin, hout⟩ := ih hsound hnodup
      (fun id' hid' => hids id' (List.mem_cons_of_mem _ hid'))
    -- the streams behind are in other lanes
    have hbehind : ∀ id' ∈ ids, ∀ st', streams id' = some st' → st'.slot ≠ st.slot := by
      rintro id' hid' st' hst' heq
      exact hnot (hapart id' id st' st hst' hst heq ▸ hid')
    obtain ⟨hmic', href', hvalid', hhold'⟩ := hout st.slot hbehind
    refine ⟨mic', ref', valid', hold', by rw [List.foldlM_cons, bind_ok hok, hok']; rfl, hsound',
      fun id' hid' st' hst' => ?_, fun k hk => ?_⟩
    · rcases List.mem_cons.1 hid' with rfl | hid'
      · obtain rfl : st = st' := Option.some.inj (hst.symm.trans hst')
        exact ⟨hmic'.trans hmic, href'.trans href, hvalid'.trans hmarked.1, hhold'.trans hmarked.2⟩
      · exact hin id' hid' st' hst'
    · obtain ⟨h₁, h₂, h₃, h₄⟩ := hout k fun id' hid' => hk id' (List.mem_cons_of_mem _ hid')
      obtain ⟨h₅, h₆, h₇, h₈⟩ := hothers k (Ne.symm (hk id List.mem_cons_self st hst))
      exact ⟨h₁.trans h₅, h₂.trans h₆, h₃.trans h₇, h₄.trans h₈⟩

end LayOut

/-! ### The batch handed back -/

/-- A canceller with other streams and marks. -/
def Canceller.back (s : Canceller M) (streams : ℕ → Option (LvState F)) (valid hold : List F) :
    Canceller M :=
  { s with ctx := { s.ctx with valid := valid, hold := hold }, streams := streams }

/-- A stream with its frame. -/
def LvState.answered (st : LvState F) (frame : List F) : LvState F :=
  { st with frame := frame, done := true }

/-- **A batch is handed back**, every stream its own frame. -/
theorem handBack_batch {ids : List ℕ} {s : Canceller M} (h : Sound M s.ctx) (hnodup : ids.Nodup)
    (hids : ∀ id ∈ ids, ∃ st, s.streams id = some st ∧ st.slot < s.ctx.capacity)
    (hapart : ∀ id id' st st', s.streams id = some st → s.streams id' = some st' →
      st.slot = st'.slot → id = id') :
    ∃ streams valid hold, ids.foldlM handBack s = .ok (s.back streams valid hold) ∧
      valid.length = s.ctx.capacity ∧ hold.length = s.ctx.capacity ∧
      (∀ id ∈ ids, ∀ st, s.streams id = some st →
        streams id = some (st.answered (lane M.nFft st.slot s.ctx.outHost)) ∧
          valid[st.slot]? = some 0 ∧ hold[st.slot]? = some 1) ∧
      (∀ id, id ∉ ids → streams id = s.streams id) ∧
      ∀ k, (∀ id ∈ ids, ∀ st, s.streams id = some st → st.slot ≠ k) →
        valid[k]? = s.ctx.valid[k]? ∧ hold[k]? = s.ctx.hold[k]? := by
  induction ids generalizing s with
  | nil => exact ⟨_, _, _, rfl, h.valid, h.hold, by simp, fun _ _ => rfl, fun _ _ => ⟨rfl, rfl⟩⟩
  | cons id ids ih =>
    obtain ⟨hnot, hnodup⟩ := List.nodup_cons.1 hnodup
    obtain ⟨st, hst, hslot⟩ := hids id List.mem_cons_self
    have hout : st.slot * M.nFft + M.nFft ≤ s.ctx.outHost.length := by
      rw [h.out]
      exact lane_fits _ hslot
    have hvalid : st.slot < s.ctx.valid.length := by rw [h.valid]; exact hslot
    have hhold : st.slot < s.ctx.hold.length := by rw [h.hold]; exact hslot
    let s₁ := s.back (Function.update s.streams id
      (some (st.answered (lane M.nFft st.slot s.ctx.outHost)))) (s.ctx.valid.set st.slot 0)
      (s.ctx.hold.set st.slot 1)
    have hok : handBack s id = .ok s₁ := by
      simp only [handBack, hst]
      refine need_bind ?_
      simp [hout, hvalid, hhold]
    have hother : ∀ id', id' ≠ id → s₁.streams id' = s.streams id' := fun id' hne =>
      Function.update_of_ne hne _ _
    have hold : ∀ id' st', s₁.streams id' = some st' → ∃ st₂, s.streams id' = some st₂ ∧
        st₂.slot = st'.slot := by
      intro id' st' hst'
      rcases cases_update (s := s) hst' with ⟨rfl, rfl⟩ | ⟨-, hst'⟩
      · exact ⟨st, hst, rfl⟩
      · exact ⟨st', hst', rfl⟩
    have hne : ∀ id' ∈ ids, id' ≠ id := by
      rintro id' hid' rfl
      exact hnot hid'
    have hbehind : ∀ id' ∈ ids, ∀ st', s.streams id' = some st' → st'.slot ≠ st.slot := by
      rintro id' hid' st' hst' heq
      exact hne id' hid' (hapart id' id st' st hst' hst heq)
    obtain ⟨streams, valid, hold', hok', hlen, hlen', hin, hout', hrest⟩ := ih (s := s₁)
      { h with
        valid := (List.length_set ..).trans h.valid
        hold := (List.length_set ..).trans h.hold } hnodup
      (fun id' hid' => by
        rw [hother id' (hne id' hid')]
        exact hids id' (List.mem_cons_of_mem _ hid'))
      (fun id₁ id₂ st₁ st₂ hst₁ hst₂ heq => by
        obtain ⟨st₃, hst₃, hslot₃⟩ := hold id₁ st₁ hst₁
        obtain ⟨st₄, hst₄, hslot₄⟩ := hold id₂ st₂ hst₂
        exact hapart id₁ id₂ st₃ st₄ hst₃ hst₄ (by rw [hslot₃, hslot₄, heq]))
    refine ⟨streams, valid, hold', by rw [List.foldlM_cons, bind_ok hok, hok']; rfl, hlen, hlen',
      fun id' hid' st' hst' => ?_, fun id' hid' => ?_, fun k hk => ?_⟩
    · rcases List.mem_cons.1 hid' with rfl | hid'
      · obtain rfl : st = st' := Option.some.inj (hst.symm.trans hst')
        have hkept := hrest st.slot fun id' hid' st' hst' =>
          hbehind id' hid' st' (by rw [← hother id' (hne id' hid')]; exact hst')
        exact ⟨(hout' id' hnot).trans (Function.update_self ..),
          hkept.1.trans (List.getElem?_set_self hvalid),
          hkept.2.trans (List.getElem?_set_self hhold)⟩
      · exact hin id' hid' st' (by rw [hother id' (hne id' hid')]; exact hst')
    · rw [List.mem_cons, not_or] at hid'
      exact (hout' id' hid'.2).trans (hother id' hid'.1)
    · have hkept := hrest k fun id' hid' st' hst' =>
        hk id' (List.mem_cons_of_mem _ hid') st' (by rw [← hother id' (hne id' hid')]; exact hst')
      have hslots : st.slot ≠ k := hk id List.mem_cons_self st hst
      exact ⟨hkept.1.trans (List.getElem?_set_ne hslots),
        hkept.2.trans (List.getElem?_set_ne hslots)⟩

/-! ### The worker -/

section Worker

variable {s : Canceller M} (h : Serves s)
include h

omit h in
/-- The canceller with its queue taken. -/
def Canceller.taken (s : Canceller M) (ctx : Context F) : Canceller M :=
  { s with
    ctx := { ctx with queue := [], computing := true }
    batch := s.ctx.queue
    worker := .computes }

/-- Whatever waits is a stream of its own slot. -/
theorem Serves.waiting {id : ℕ} (hid : id ∈ s.ctx.queue ++ s.batch) :
    ∃ st, s.streams id = some st ∧ st.slot < s.ctx.capacity ∧ Shaped M st := by
  obtain ⟨st, hst⟩ := Option.ne_none_iff_exists'.1 (h.called id (h.pending id hid).1)
  exact ⟨st, hst, (h.slots id st hst).1, h.shaped id st hst⟩

theorem Serves.queue_apart {id : ℕ} (hid : id ∈ s.ctx.queue) : id ∉ s.batch := fun hmem =>
  (List.nodup_append.1 h.handed).2.2 id hid id hmem rfl

/-- **The worker takes the hops that wait.** -/
theorem Serves.takes (hworker : s.worker = .waits) (hqueue : s.ctx.queue ≠ []) :
    ∃ ctx, lvWorkerTakes s = .ok (s.taken ctx) ∧ Serves (s.taken ctx) := by
  have hnil := h.resting hworker
  have hhanded := h.handed
  rw [hnil, List.append_nil] at hhanded
  have hwaiting : ∀ id ∈ s.ctx.queue, ∃ st, s.streams id = some st ∧ st.slot < s.ctx.capacity ∧
      Shaped M st := fun id hid => h.waiting (List.mem_append_left _ hid)
  obtain ⟨mic, ref, valid, hold, hok, hsound, hin, hout⟩ :=
    layOut_batch h.sound hhanded hwaiting h.apart
  have hneed : (decide (s.worker = .waits) && !s.ctx.queue.isEmpty) = true := by
    simp [hworker, hqueue]
  have hidle : ∀ k, ¬s.busy k := by
    rintro k ⟨id, hid, -⟩
    rw [hnil] at hid
    simp at hid
  refine ⟨s.ctx.laid mic ref valid hold, by rw [lvWorkerTakes, need_bind hneed, bind_ok hok]; rfl, {
    sound := { hsound with }
    marks := fun k hk => ⟨?_, fun hbusy => ?_⟩
    resting := by rintro ⟨⟩
    computing := by simp [Canceller.taken]
    opened := h.opened
    slots := h.slots
    apart := h.apart
    shaped := h.shaped
    handed := hhanded
    pending := fun id hid => h.pending id (List.mem_append_left _ hid)
    called := h.called
    stage := fun id st hst => ?_
    returns := h.returns }⟩
  · rintro ⟨id, hid, st, hst, rfl⟩
    exact (hin id hid st hst).2.2
  · have hkept := hout k fun id hid st hst hk => hbusy ⟨id, hid, st, hst, hk⟩
    obtain ⟨hvalid, hhold⟩ := (h.marks k hk).2 (hidle k)
    exact ⟨hkept.2.2.1.trans hvalid, hkept.2.2.2.trans hhold⟩
  · obtain ⟨hstage, hola⟩ := h.stage id st hst
    refine ⟨?_, hola⟩
    cases hstage with
    | rests call hmic href history => exact .rests call hmic href history
    | waits call mem prev win history =>
      obtain ⟨hmic, href, -⟩ := hin id mem st hst
      refine .laid call mem rfl prev ?_
      show M.pass (lane M.nFft st.slot mic) (lane M.nFft st.slot ref) (s.ctx.history st.slot) = _
      rw [hmic, href, win.1, win.2, history]
      rfl
    | laid _ mem =>
      rw [hnil] at mem
      simp at mem
    | computed _ mem =>
      rw [hnil] at mem
      simp at mem
    | answered call done prev frame history => exact .answered call done prev frame history

omit h in
/-- The canceller with its batch computed. -/
def Canceller.passed (s : Canceller M) : Canceller M :=
  { s with ctx := s.ctx.computed M, worker := .settles }

/-- **The worker computes a pass.** -/
theorem Serves.computes (hworker : s.worker = .computes) :
    lvWorkerComputes s = .ok s.passed ∧ Serves s.passed := by
  have hneed : decide (s.worker = .computes) = true := decide_eq_true hworker
  refine ⟨by rw [lvWorkerComputes, need_bind hneed, bind_ok (graphCompute_eq h.sound)]; rfl, {
    sound := computed_sound h.sound
    marks := h.marks
    resting := by rintro ⟨⟩
    computing := by
      show s.ctx.computing = true ↔ _
      rw [h.computing, hworker]
      simp [Canceller.passed]
    opened := h.opened
    slots := h.slots
    apart := h.apart
    shaped := h.shaped
    handed := h.handed
    pending := h.pending
    called := h.called
    stage := fun id st hst => ?_
    returns := h.returns }⟩
  obtain ⟨hstage, hola⟩ := h.stage id st hst
  obtain ⟨hslot, -⟩ := h.slots id st hst
  -- a stream that is not of the batch is alone in its slot, and so has no hop in this pass
  have hkeeps : id ∉ s.batch → (s.ctx.computed M).history st.slot = s.ctx.history st.slot := by
    intro hid
    have hbusy : ¬s.busy st.slot := by
      rintro ⟨id', hid', st', hst', heq⟩
      exact hid (h.apart id' id st' st hst' hst heq ▸ hid')
    obtain ⟨hvalid, hhold⟩ := (h.marks _ hslot).2 hbusy
    exact history_of_hold h.sound hslot hvalid hhold
  refine ⟨?_, hola⟩
  cases hstage with
  | rests call hmic href history =>
    exact .rests call hmic href ((hkeeps (h.rests_apart call).2).trans history)
  | waits call mem prev win history =>
    exact .waits call mem prev win ((hkeeps (h.queue_apart mem)).trans history)
  | laid call mem worker prev pass =>
    obtain ⟨hvalid, hhold⟩ := (h.marks _ hslot).1 ⟨id, mem, st, hst, rfl⟩
    refine .computed call mem rfl prev ?_ ?_
    · exact (computed_out h.sound hslot).trans (congrArg Prod.fst pass)
    · exact (history_of_valid h.sound hslot hvalid hhold).trans (congrArg Prod.snd pass)
  | computed _ _ worker =>
    rw [hworker] at worker
    simp at worker
  | answered call done prev frame history =>
    have hid : id ∉ s.batch := fun hmem => by
      rw [(h.pending id (List.mem_append_right _ hmem)).2 st hst] at done
      simp at done
    exact .answered call done prev frame ((hkeeps hid).trans history)

omit h in
/-- The canceller with its batch handed back. -/
def Canceller.settled (s : Canceller M) (streams : ℕ → Option (LvState F)) (valid hold : List F) :
    Canceller M :=
  { s with
    ctx := { s.ctx with valid := valid, hold := hold, computing := false }
    streams := streams
    batch := []
    worker := .waits }

/-- **The worker hands the frames back.** -/
theorem Serves.settles (hworker : s.worker = .settles) :
    ∃ streams valid hold, lvWorkerSettles s = .ok (s.settled streams valid hold) ∧
      Serves (s.settled streams valid hold) ∧
      ∀ id ∈ s.batch, ∀ st, streams id = some st → st.done = true := by
  have hneed : decide (s.worker = .settles) = true := decide_eq_true hworker
  have hnodup : s.batch.Nodup := (List.nodup_append.1 h.handed).2.1
  obtain ⟨streams, valid, hold, hok, hvalid, hhold, hin, hout, hrest⟩ := handBack_batch h.sound hnodup
    (fun id hid => by
      obtain ⟨st, hst, hslot, -⟩ := h.waiting (List.mem_append_right _ hid)
      exact ⟨st, hst, hslot⟩) h.apart
  -- every stream is as it was, but for the frame of one of the batch
  have hcases : ∀ {id st'}, streams id = some st' → ∃ st, s.streams id = some st ∧
      (id ∈ s.batch ∧ st' = st.answered (lane M.nFft st.slot s.ctx.outHost) ∨
        id ∉ s.batch ∧ st' = st) := by
    intro id st' hst'
    by_cases hid : id ∈ s.batch
    · obtain ⟨st, hst, -⟩ := h.waiting (List.mem_append_right _ hid)
      have heq := (hin id hid st hst).1
      exact ⟨st, hst, .inl ⟨hid, Option.some.inj (hst'.symm.trans heq)⟩⟩
    · exact ⟨st', (hout id hid).symm.trans hst', .inr ⟨hid, rfl⟩⟩
  have hslot : ∀ {id st'}, streams id = some st' → ∃ st, s.streams id = some st ∧
      st.slot = st'.slot := by
    intro id st' hst'
    obtain ⟨st, hst, ⟨-, rfl⟩ | ⟨-, rfl⟩⟩ := hcases hst'
    · exact ⟨st, hst, rfl⟩
    · exact ⟨st', hst, rfl⟩
  have hnone : ∀ id, streams id = none ↔ s.streams id = none := by
    intro id
    by_cases hid : id ∈ s.batch
    · obtain ⟨st, hst, -⟩ := h.waiting (List.mem_append_right _ hid)
      rw [(hin id hid st hst).1, hst]
      simp
    · rw [hout id hid]
  refine ⟨streams, valid, hold, by rw [lvWorkerSettles, need_bind hneed, bind_ok hok]; rfl, {
    sound := { h.sound with valid := hvalid, hold := hhold }
    marks := fun k hk => ⟨fun hbusy => ?_, fun _ => ?_⟩
    resting := fun _ => rfl
    computing := by simp [Canceller.settled]
    opened := fun id hid => ⟨(hnone id).2 (h.opened id hid).1, (h.opened id hid).2⟩
    slots := fun id st' hst' => ?_
    apart := fun id id' st st' hst hst' heq => ?_
    shaped := fun id st' hst' => ?_
    handed := by
      show (s.ctx.queue ++ []).Nodup
      rw [List.append_nil]
      exact (List.nodup_append.1 h.handed).1
    pending := fun id hid => ?_
    called := fun id hid hnone' => h.called id hid ((hnone id).1 hnone')
    stage := fun id st' hst' => ?_
    returns := h.returns }, fun id hid st' hst' => ?_⟩
  · obtain ⟨id, hid, -⟩ := hbusy
    simp [Canceller.settled] at hid
  · by_cases hbusy : s.busy k
    · obtain ⟨id, hid, st, hst, rfl⟩ := hbusy
      exact (hin id hid st hst).2
    · have hkept := hrest k fun id hid st hst hk => hbusy ⟨id, hid, st, hst, hk⟩
      obtain ⟨hvalid', hhold'⟩ := (h.marks k hk).2 hbusy
      exact ⟨hkept.1.trans hvalid', hkept.2.trans hhold'⟩
  · obtain ⟨st, hst, heq⟩ := hslot hst'
    show st'.slot < s.ctx.capacity ∧ s.ctx.used[st'.slot]? = some true
    rw [← heq]
    exact h.slots id st hst
  · obtain ⟨st₁, hst₁, heq₁⟩ := hslot hst
    obtain ⟨st₂, hst₂, heq₂⟩ := hslot hst'
    exact h.apart id id' st₁ st₂ hst₁ hst₂ (by rw [heq₁, heq₂, heq])
  · obtain ⟨st, hst, ⟨-, rfl⟩ | ⟨-, rfl⟩⟩ := hcases hst'
    · refine { h.shaped id st hst with frame := length_lane ?_ }
      rw [h.sound.out]
      exact lane_fits _ (h.slots id st hst).1
    · exact h.shaped id st' hst
  · have hqueue : id ∈ s.ctx.queue := by
      rcases List.mem_append.1 hid with hid | hid
      · exact hid
      · simp [Canceller.settled] at hid
    have hnot := h.queue_apart hqueue
    obtain ⟨hcalled, hdone⟩ := h.pending id (List.mem_append_left _ hqueue)
    exact ⟨hcalled, fun st hst => hdone st ((hout id hnot).symm.trans hst)⟩
  · obtain ⟨st, hst, hboth⟩ := hcases hst'
    obtain ⟨hstage, hola⟩ := h.stage id st hst
    rcases hboth with ⟨hid, rfl⟩ | ⟨hid, rfl⟩
    · refine ⟨?_, hola⟩
      cases hstage with
      | rests call => exact absurd hid (h.rests_apart call).2
      | waits _ mem => exact absurd hid (h.queue_apart mem)
      | laid _ _ worker =>
        rw [hworker] at worker
        simp at worker
      | computed call _ _ prev out history => exact .answered call rfl prev out history
      | answered _ done =>
        rw [(h.pending id (List.mem_append_right _ hid)).2 st hst] at done
        simp at done
    · exact ⟨hstage.mono rfl (fun hmem => hmem) (fun hmem => absurd hmem hid) rfl, hola⟩
  · obtain ⟨st, -, ⟨-, rfl⟩ | ⟨hnot, -⟩⟩ := hcases hst'
    · rfl
    · exact absurd hid hnot

end Worker

/-! ### Runs -/

/-- Nothing that the step needs fails. -/
def Step.Good (s : Canceller M) : Step M → Prop
  | .new o => s.Room ∨ o.all = true
  | _ => True

/-- Nothing that a run needs fails. -/
def Provided (s : Canceller M) : List (Step M) → Prop
  | [] => True
  | x :: steps => x.Good s ∧ ∀ s', step s x = .ok s' → Provided s' steps

/-- Every allocation of the step succeeds. -/
def Step.Succeeds : Step M → Prop
  | .new o => o.all = true
  | _ => True

omit [Sample F] in
theorem Step.Succeeds.good {x : Step M} (h : x.Succeeds) (s : Canceller M) : x.Good s := by
  cases x with
  | new o => exact .inr h
  | _ => exact trivial

theorem provided_of_succeeds {steps : List (Step M)} (h : ∀ x ∈ steps, x.Succeeds)
    (s : Canceller M) : Provided s steps := by
  induction steps generalizing s with
  | nil => exact trivial
  | cons x steps ih =>
    exact ⟨(h x List.mem_cons_self).good s,
      fun s' _ => ih (fun y hy => h y (List.mem_cons_of_mem _ hy)) s'⟩

theorem need_waits {α : Type} {p : Bool} {f : Unit → Except Stuck α} (hp : p = false) :
    (need p .waits >>= f) = .error .waits := by
  rw [need, hp]
  rfl

/-- **A step that has not to wait is taken**, and the streams are served as they were. -/
theorem serves_step {s : Canceller M} (h : Serves s) {x : Step M} (hgood : x.Good s) :
    step s x = .error .waits ∨ ∃ s', step s x = .ok s' ∧ Serves s' := by
  have hrested : ∀ id, rested s id = .error .waits ∨
      ∃ st, s.streams id = some st ∧ s.calls id = none := by
    intro id
    cases hst : s.streams id with
    | none => exact .inl (by rw [rested, hst])
    | some st =>
      cases hcall : s.calls id with
      | none => exact .inr ⟨st, rfl, rfl⟩
      | some p => exact .inl (by rw [rested, hst, hcall])
  cases x with
  | new o =>
    cases hcomputing : s.ctx.computing with
    | true => exact .inl (need_waits (by rw [hcomputing]; rfl))
    | false =>
      obtain ⟨ctx, slot, -, hok, hserves⟩ := h.new hcomputing hgood
      exact .inr ⟨_, hok, hserves⟩
  | reset id =>
    rcases hrested id with hrest | ⟨st, hst, hcall⟩
    · exact .inl (by rw [step, lvStateReset, hrest]; rfl)
    · cases hcomputing : s.ctx.computing with
      | true =>
        refine .inl ?_
        rw [step, lvStateReset, bind_ok (rested_ok hst hcall)]
        exact need_waits (by rw [hcomputing]; rfl)
      | false => exact .inr ⟨_, h.reset hcomputing hst hcall⟩
  | free id =>
    rcases hrested id with hrest | ⟨st, hst, hcall⟩
    · exact .inl (by rw [step, lvStateFree, hrest]; rfl)
    · exact .inr ⟨_, h.free hst hcall⟩
  | process id mic ref =>
    rcases hrested id with hrest | ⟨st, hst, hcall⟩
    · exact .inl (by rw [step, lvProcess, hrest]; rfl)
    · exact .inr ⟨_, h.process hst hcall mic ref⟩
  | processed id =>
    cases hst : s.streams id with
    | none => exact .inl (by rw [step, lvProcessed, hst])
    | some st =>
      cases hcall : s.calls id with
      | none => exact .inl (by rw [step, lvProcessed, hst, hcall])
      | some p =>
        obtain ⟨mic, ref⟩ := p
        cases hdone : st.done with
        | true => exact .inr ⟨_, h.processed hst hcall hdone⟩
        | false =>
          refine .inl ?_
          rw [step, lvProcessed, hst, hcall]
          exact need_waits hdone
  | takes =>
    by_cases hready : s.worker = .waits ∧ s.ctx.queue ≠ []
    · obtain ⟨ctx, htaken⟩ := h.takes hready.1 hready.2
      exact .inr ⟨_, htaken⟩
    · refine .inl (need_waits ?_)
      rw [Bool.and_eq_false_iff, decide_eq_false_iff_not]
      by_cases hworker : s.worker = .waits
      · refine .inr ?_
        have hqueue : s.ctx.queue = [] := by
          by_contra hne
          exact hready ⟨hworker, hne⟩
        rw [hqueue]
        rfl
      · exact .inl hworker
  | computes =>
    by_cases hworker : s.worker = .computes
    · exact .inr ⟨_, h.computes hworker⟩
    · exact .inl (need_waits (decide_eq_false hworker))
  | settles =>
    by_cases hworker : s.worker = .settles
    · obtain ⟨streams, valid, hold, hok, hserves, -⟩ := h.settles hworker
      exact .inr ⟨_, hok, hserves⟩
    · exact .inl (need_waits (decide_eq_false hworker))

theorem serves_start : Serves (.start M) where
  sound := by
    refine ⟨rfl, rfl, rfl, rfl, ?_, ?_, ?_, ?_, ?_⟩
    · exact (length_resize _).trans (Nat.mul_comm ..)
    · exact (length_resize _).trans (Nat.mul_comm ..)
    · exact (length_resize _).trans (Nat.mul_comm ..)
    · show (M.sizes.map _).map _ = _
      rw [List.map_map]
      exact List.map_id _
    · intro t ht
      obtain ⟨n, -, rfl⟩ := List.mem_map.1 ht
      exact ⟨_, rfl, List.length_replicate.trans (Nat.mul_comm ..)⟩
  marks k hk := by
    obtain rfl : k = 0 := Nat.lt_one_iff.1 hk
    refine ⟨?_, fun _ => ⟨rfl, rfl⟩⟩
    rintro ⟨id, hid, -⟩
    simp [Canceller.start] at hid
  resting _ := rfl
  computing := by simp [Canceller.start, lvBuildGraph]
  opened _ _ := ⟨rfl, rfl⟩
  slots _ _ h := by simp [Canceller.start] at h
  apart _ _ _ _ h := by simp [Canceller.start] at h
  shaped _ _ h := by simp [Canceller.start] at h
  handed := List.nodup_nil
  pending _ h := by simp [Canceller.start, lvBuildGraph] at h
  called _ h := absurd rfl h
  stage _ _ h := by simp [Canceller.start] at h
  returns _ := rfl

theorem run_cons {s s' : Canceller M} {x : Step M} {steps : List (Step M)}
    (h : run s (x :: steps) = .ok s') : ∃ s₁, step s x = .ok s₁ ∧ run s₁ steps = .ok s' := by
  rw [run, List.foldlM_cons] at h
  cases hstep : step s x with
  | error stuck =>
    rw [hstep] at h
    exact absurd h (by rintro ⟨⟩)
  | ok s₁ =>
    rw [hstep] at h
    exact ⟨s₁, rfl, h⟩

/-- **Every run serves every stream.** -/
theorem serves_run {s s' : Canceller M} (h : Serves s) {steps : List (Step M)}
    (hrun : run s steps = .ok s') (hprovided : Provided s steps) : Serves s' := by
  induction steps generalizing s with
  | nil =>
    cases hrun
    exact h
  | cons x steps ih =>
    obtain ⟨s₁, hstep, hrest⟩ := run_cons hrun
    rcases serves_step h hprovided.1 with hwaits | ⟨s₂, hok, hserves⟩
    · rw [hwaits] at hstep
      exact absurd hstep (by rintro ⟨⟩)
    · obtain rfl : s₂ = s₁ := Except.ok.inj (hok.symm.trans hstep)
      exact ih hserves hrest (hprovided.2 _ hok)

/-! ### Alone -/

/-- A canceller whose only stream is at rest. -/
structure Lone (s : Canceller M) : Prop where
  serves : Serves s
  worker : s.worker = .waits
  queue : s.ctx.queue = []
  stream : ∃ st, s.streams 0 = some st
  free : s.calls 0 = none

theorem run_append {s s' : Canceller M} {steps : List (Step M)} (h : run s steps = .ok s')
    (steps' : List (Step M)) : run s (steps ++ steps') = run s' steps' := by
  rw [run, List.foldlM_append]
  exact bind_ok h

theorem run_step {s s' : Canceller M} {x : Step M} (h : step s x = .ok s') (steps : List (Step M)) :
    run s (x :: steps) = run s' steps := by
  rw [run, List.foldlM_cons]
  exact bind_ok h

namespace Lone

variable {s : Canceller M}

theorem computing (h : Lone s) : s.ctx.computing = false := by
  rw [← Bool.not_eq_true, h.serves.computing, h.worker]
  simp

/-- **A call alone**: it is taken, computed and answered. -/
theorem answers (h : Lone s) (call : Call M) :
    ∃ s', run s call.aloneSteps = .ok s' ∧ Lone s' ∧ callsOf 0 s'.log = callsOf 0 s.log ++ [call] := by
  obtain ⟨st, hst⟩ := h.stream
  cases call with
  | reset =>
    obtain ⟨hok, hserves⟩ := h.serves.reset h.computing hst h.free
    exact ⟨s.resets 0 st, run_step (x := .reset 0) hok [],
      ⟨hserves, h.worker, h.queue, by simp [Canceller.resets], h.free⟩, soloOf_snoc.1⟩
  | process mic ref =>
    obtain ⟨hok₁, hserves₁⟩ := h.serves.process hst h.free mic ref
    have hqueue : (s.asks 0 st mic ref).ctx.queue = [0] := congrArg (· ++ [0]) h.queue
    obtain ⟨ctx, hok₂, hserves₂⟩ := hserves₁.takes h.worker (by rw [hqueue]; simp)
    obtain ⟨hok₃, hserves₃⟩ := hserves₂.computes rfl
    obtain ⟨streams, valid, hold, hok₄, hserves₄, hdone⟩ := hserves₃.settles rfl
    have hcall : (((s.asks 0 st mic ref).taken ctx).passed.settled streams valid hold).calls 0 =
        some (mic, ref) := by
      simp [Canceller.asks, Canceller.taken, Canceller.passed, Canceller.settled]
    obtain ⟨st', hst'⟩ := Option.ne_none_iff_exists'.1
      (hserves₄.called 0 (by rw [hcall]; simp))
    have hbatch : 0 ∈ ((s.asks 0 st mic ref).taken ctx).passed.batch := by
      show 0 ∈ (s.asks 0 st mic ref).ctx.queue
      rw [hqueue]
      exact List.mem_singleton_self 0
    obtain ⟨hok₅, hserves₅⟩ := hserves₄.processed hst' hcall (hdone 0 hbatch st' hst')
    have hrun := (run_step (x := .process 0 mic ref) hok₁ _).trans <|
      (run_step (x := .takes) hok₂ _).trans <| (run_step (x := .computes) hok₃ _).trans <|
      (run_step (x := .settles) hok₄ _).trans <| run_step (x := .processed 0) hok₅ []
    exact ⟨_, hrun, ⟨hserves₅, rfl, rfl, by simp [Canceller.hears], by simp [Canceller.hears]⟩,
      soloOf_snoc.1⟩

theorem calls (h : Lone s) (calls : List (Call M)) :
    ∃ s', run s (calls.flatMap Call.aloneSteps) = .ok s' ∧ Serves s' ∧
      callsOf 0 s'.log = callsOf 0 s.log ++ calls := by
  induction calls generalizing s with
  | nil => exact ⟨s, rfl, h.serves, (List.append_nil _).symm⟩
  | cons call calls ih =>
    obtain ⟨s₁, hrun, hlone, hcalls⟩ := h.answers call
    obtain ⟨s₂, hrest, hserves, hcalls'⟩ := ih hlone
    refine ⟨s₂, ?_, hserves, ?_⟩
    · rw [List.flatMap_cons, run_append hrun, hrest]
    · rw [hcalls', hcalls, List.append_assoc]
      rfl

end Lone

/-- **A canceller alone answers every call.** -/
theorem alone_ok (calls : List (Call M)) :
    ∃ s, alone calls = .ok s ∧ Serves s ∧ callsOf 0 s.log = calls := by
  obtain ⟨ctx, slot, hqueue, hok, hserves⟩ :=
    (serves_start (M := M)).new (o := ⟨true, true, true⟩) rfl (.inr rfl)
  have hlone : Lone (Canceller.opens { Canceller.start M with ctx := ctx } slot) :=
    ⟨hserves, rfl, hqueue, by simp [Canceller.opens, Canceller.start], rfl⟩
  obtain ⟨s, hrun, hs, hcalls⟩ := hlone.calls calls
  exact ⟨s, (run_step (x := .new ⟨true, true, true⟩) hok _).trans hrun, hs, hcalls⟩

/-- **Every stream is isolated.**  Whatever the streams of a canceller and the worker do, in any
order, with slots freed and taken again and the capacity growing as it may: what the calls of a
stream gave is what the same calls give on a canceller that serves this stream alone. -/
theorem isolated {steps : List (Step M)} {s : Canceller M} (hrun : run (.start M) steps = .ok s)
    (hsucceeds : ∀ x ∈ steps, x.Succeeds) (id : ℕ) :
    ∃ a, alone (callsOf id s.log) = .ok a ∧ returnsOf id s.log = returnsOf 0 a.log := by
  have hs := serves_run serves_start hrun (provided_of_succeeds hsucceeds _)
  obtain ⟨a, halone, ha, hcalls⟩ := alone_ok (callsOf id s.log)
  refine ⟨a, halone, ?_⟩
  rw [hs.returns id, ha.returns 0, hcalls]

instance : Sample ℤ where
  zero := 0
  add x y := x + y
  one := 1
  mul x y := x * y
  zero_add := Int.zero_add
  add_zero := Int.add_zero
  one_mul := Int.one_mul
  mul_one := Int.mul_one
  zero_mul := Int.zero_mul
  mul_zero := Int.mul_zero

/-- The samples of a window together. -/
def total (samples : List ℤ) : ℤ := samples.foldr (fun x y => x + y) 0

/-- Windows of two samples, and a state that sums what the microphone heard. -/
def sums : Model ℤ where
  nFft := 2
  hop := 1
  fits := by decide
  sizes := [1]
  pass mic ref states :=
    ([total mic - total ref, total states.flatten], [[total states.flatten + total mic]])
  frame_length _ _ _ := rfl
  next_length _ _ _ _ := rfl

/-- One hop of one sample. -/
def sample (x : ℤ) : Hop sums := ⟨[x], rfl⟩

/-- A pass of the worker. -/
def onePass : List (Step sums) := [.takes, .computes, .settles]

/-- Two streams in one pass, the second one freed, its slot taken again, and the first one on its
own in between. -/
def reuse : List (Step sums) :=
  [.new ⟨true, true, true⟩, .new ⟨true, true, true⟩, .process 0 (sample 1) (sample 0),
    .process 1 (sample 5) (sample 2)] ++ onePass ++
  [.processed 0, .processed 1, .free 1, .process 0 (sample 3) (sample 1)] ++ onePass ++
  [.processed 0, .new ⟨true, true, true⟩, .process 2 (sample 7) (sample 0)] ++ onePass ++
  [.processed 2]

theorem isolated_reuse : ∃ s, run (.start sums) reuse = .ok s ∧
    (returnsOf 0 s.log).map Prod.snd = [[1], [3]] ∧
    ∃ a, alone (callsOf 0 s.log) = .ok a ∧ returnsOf 0 s.log = returnsOf 0 a.log := by
  have hsucceeds : ∀ x ∈ reuse, x.Succeeds := by
    simp [reuse, onePass, Step.Succeeds, Allocations.all]
  exact ⟨_, rfl, rfl, isolated rfl hsucceeds 0⟩

end LocalVqe
end S2S
