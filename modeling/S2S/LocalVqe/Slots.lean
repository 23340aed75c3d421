/-
# The slots

What the operations of `src/localvqe.cpp` do to a sound context, slot by slot:
a growth keeps what every stream has (`lvGrow_sound`), a slot cleared is the only
one that changes (`lvClearSlot_sound`), and a pass gives every stream that had a
hop its next states and leaves the others theirs (`graphCompute_sound`).
-/

import S2S.LocalVqe.Basic

namespace S2S
namespace LocalVqe

open Lanes

variable {F : Type} [Sample F] {M : Model F} {c : Context F}

/-! ### Steps that may fail -/

@[simp] theorem need_bind {α : Type} {p : Bool} {stuck : Stuck} {f : Unit → Except Stuck α}
    (hp : p = true) : (need p stuck >>= f) = f () := by
  rw [need, if_pos hp]
  rfl

theorem bind_ok {α β : Type} {x : Except Stuck α} {f : α → Except Stuck β} {a : α}
    (h : x = .ok a) : (x >>= f) = f a := by
  rw [h]
  rfl

/-! ### Sound contexts -/

/-- A context whose arrays and tensors are all of its capacity, behind a graph of that many
streams. -/
structure Sound (M : Model F) (c : Context F) : Prop where
  graph : c.graph = ⟨c.capacity, true⟩
  used : c.used.length = c.capacity
  valid : c.valid.length = c.capacity
  hold : c.hold.length = c.capacity
  mic : c.micHost.length = c.capacity * M.nFft
  ref : c.refHost.length = c.capacity * M.nFft
  out : c.outHost.length = c.capacity * M.nFft
  sizes : c.states.map Tensor.stride = M.sizes
  backed : ∀ t ∈ c.states, ∃ data, t.data = some data ∧ data.length = c.capacity * t.stride

/-- A stream that has heard nothing. -/
def silence (M : Model F) : List (List F) := M.sizes.map zeros

/-- Lane `k` ends within `m` lanes. -/
theorem lane_fits {k m : ℕ} (n : ℕ) (h : k < m) : k * n + n ≤ m * n := lane_end_le n h

namespace Sound

omit [Sample F] in
theorem slot_length (h : Sound M c) {t : Tensor F} (ht : t ∈ c.states) {k : ℕ}
    (hk : k < c.capacity) : (t.slot k).length = t.stride := by
  obtain ⟨data, hdata, hlen⟩ := h.backed t ht
  rw [Tensor.slot, hdata]
  exact length_lane (by rw [Option.getD_some, hlen]; exact lane_fits _ hk)

omit [Sample F] in
theorem history_lengths (h : Sound M c) {k : ℕ} (hk : k < c.capacity) :
    (c.history k).map List.length = M.sizes := by
  rw [← h.sizes, Context.history, List.map_map]
  exact List.map_congr_left fun t ht => h.slot_length ht hk

omit [Sample F] in
theorem holds (h : Sound M c) {n : ℕ} (hn : n ≤ c.capacity) :
    (c.states.all fun t => t.holds n) = true := by
  rw [List.all_eq_true]
  intro t ht
  obtain ⟨data, hdata, hlen⟩ := h.backed t ht
  simp only [Tensor.holds, hdata, hlen, decide_eq_true_eq]
  exact Nat.mul_le_mul_right _ hn

end Sound

/-! ### A slot cleared -/

/-- The state tensor with one slot zeroed. -/
def Tensor.cleared (slot : ℕ) (t : Tensor F) : Tensor F :=
  { t with data := t.data.map fun data => copyTo (List.replicate t.stride 0) data (slot * t.stride) }

theorem lvClearSlot_sound (h : Sound M c) {slot : ℕ} (hslot : slot < c.capacity) :
    lvClearSlot slot c = .ok { c with states := c.states.map (Tensor.cleared slot) } ∧
      Sound M { c with states := c.states.map (Tensor.cleared slot) } ∧
      (c.states.map (Tensor.cleared slot)).map (·.slot slot) = silence M ∧
      ∀ k < c.capacity, k ≠ slot →
        (c.states.map (Tensor.cleared slot)).map (·.slot k) = c.history k := by
  refine ⟨?_, ⟨h.graph, h.used, h.valid, h.hold, h.mic, h.ref, h.out, ?_, ?_⟩, ?_, ?_⟩
  · exact need_bind (h.holds hslot)
  · rw [← h.sizes, List.map_map]
    rfl
  · intro t ht
    obtain ⟨t₀, ht₀, rfl⟩ := List.mem_map.1 ht
    obtain ⟨data, hdata, hlen⟩ := h.backed t₀ ht₀
    refine ⟨_, by rw [Tensor.cleared, hdata]; rfl, ?_⟩
    rw [length_copyTo]
    · exact hlen
    · rw [List.length_replicate, hlen]
      exact lane_fits _ hslot
  · rw [silence, ← h.sizes, List.map_map, List.map_map]
    refine List.map_congr_left fun t ht => ?_
    obtain ⟨data, hdata, hlen⟩ := h.backed t ht
    simp only [Function.comp_apply, Tensor.slot, Tensor.cleared, hdata, Option.map_some,
      Option.getD_some]
    refine lane_copyTo_self (List.length_replicate ..) ?_
    rw [hlen]
    exact lane_fits _ hslot
  · intro k hk hne
    rw [Context.history, List.map_map]
    refine List.map_congr_left fun t ht => ?_
    obtain ⟨data, hdata, hlen⟩ := h.backed t ht
    simp only [Function.comp_apply, Tensor.slot, Tensor.cleared, hdata, Option.map_some,
      Option.getD_some]
    refine lane_copyTo_of_ne (Ne.symm hne) (List.length_replicate ..) ?_
    rw [hlen]
    exact lane_fits _ hslot

/-! ### Growing -/

/-- The context that `lv_grow` leaves where nothing fails. -/
def Context.grown (M : Model F) (c : Context F) : Context F :=
  { c with
    capacity := c.capacity + 1
    states := c.states.map fun t => { t with
      data := t.data.map fun data => data ++ List.replicate t.stride 0 }
    graph := ⟨c.capacity + 1, true⟩
    used := c.used ++ [false]
    valid := List.replicate (c.capacity + 1) 0
    hold := List.replicate (c.capacity + 1) 1
    micHost := c.micHost ++ List.replicate M.nFft 0
    refHost := c.refHost ++ List.replicate M.nFft 0
    outHost := c.outHost ++ List.replicate M.nFft 0 }

theorem resize_lane {n m : ℕ} {xs : List F} (h : xs.length = m * n) :
    resize xs (n * (m + 1)) 0 = xs ++ List.replicate n 0 := by
  have hn : n * (m + 1) = m * n + n := by rw [Nat.mul_succ, Nat.mul_comm]
  rw [hn, resize_of_le _ (by omega), h, Nat.add_sub_cancel_left]

theorem moveState_zero {t : Tensor F} {data : List F} {m : ℕ} (hdata : t.data = some data)
    (hlen : data.length = m * t.stride) :
    moveState t ⟨t.stride, some (List.replicate (t.stride * (m + 1)) 0)⟩ =
      { t with data := t.data.map fun data => data ++ List.replicate t.stride 0 } := by
  have hn : t.stride * (m + 1) = m * t.stride + t.stride := by rw [Nat.mul_succ, Nat.mul_comm]
  simp only [moveState, hdata, Option.map_some, Option.getD_some, copyTo, List.take_zero,
    List.nil_append, Nat.zero_add, List.drop_replicate, hn, hlen, Nat.add_sub_cancel_left]

theorem lvGrow_eq (h : Sound M c) {o : Allocations} (ho : o.all = true) :
    lvGrow M o c = .ok (true, c.grown M) := by
  simp only [Allocations.all, Bool.and_eq_true] at ho
  obtain ⟨⟨hctx, hbuf⟩, hcompute⟩ := ho
  have hlive : (c.states.all fun t => t.data.isSome) = true := by
    rw [List.all_eq_true]
    intro t ht
    obtain ⟨data, hdata, -⟩ := h.backed t ht
    rw [hdata]
    rfl
  have hstates : List.zipWith moveState c.states
      (M.sizes.map fun n => ⟨n, some (List.replicate (n * (c.capacity + 1)) 0)⟩) =
      c.states.map fun t => { t with
        data := t.data.map fun data => data ++ List.replicate t.stride 0 } := by
    rw [← h.sizes, List.map_map, List.zipWith_map_right, List.zipWith_self]
    refine List.map_congr_left fun t ht => ?_
    obtain ⟨data, hdata, hlen⟩ := h.backed t ht
    exact moveState_zero hdata hlen
  have hused : resize c.used (c.capacity + 1) false = c.used ++ [false] := by
    rw [resize_of_le _ (by rw [h.used]; omega), h.used, Nat.add_sub_cancel_left]
    rfl
  simp only [lvGrow, lvBuildGraph, hctx, hbuf, hcompute, if_true, hstates, hused,
    resize_lane h.mic, resize_lane h.ref, resize_lane h.out, need_bind hlive]
  rfl

theorem length_grown {n m : ℕ} {xs : List F} (h : xs.length = m * n) :
    (xs ++ List.replicate n 0).length = (m + 1) * n := by
  rw [List.length_append, List.length_replicate, h, Nat.succ_mul]

/-- **A growth keeps what every stream has.** -/
theorem grown_sound (h : Sound M c) : Sound M (c.grown M) ∧
    ∀ k < c.capacity, (c.grown M).history k = c.history k := by
  refine ⟨⟨rfl, ?_, List.length_replicate .., List.length_replicate .., length_grown h.mic,
    length_grown h.ref, length_grown h.out, ?_, ?_⟩, ?_⟩
  · rw [Context.grown, List.length_append, h.used]
    rfl
  · rw [← h.sizes, Context.grown, List.map_map]
    rfl
  · intro t ht
    obtain ⟨t₀, ht₀, rfl⟩ := List.mem_map.1 ht
    obtain ⟨data, hdata, hlen⟩ := h.backed t₀ ht₀
    exact ⟨_, by rw [hdata]; rfl, length_grown hlen⟩
  · intro k hk
    rw [Context.history, Context.history, Context.grown, List.map_map]
    refine List.map_congr_left fun t ht => ?_
    obtain ⟨data, hdata, hlen⟩ := h.backed t ht
    simp only [Function.comp_apply, Tensor.slot, hdata, Option.map_some, Option.getD_some]
    refine lane_append ?_
    rw [hlen]
    exact lane_fits _ hk

/-! ### A free slot -/

/-- The loop of `lv_state_new` reads no more than there is, and finds the first free slot. -/
theorem freeSlot_spec (used : List Bool) {n k : ℕ} (h : k + n = used.length) :
    ∃ slot, freeSlot used n k = .ok slot ∧ slot ≤ used.length ∧
      (slot < used.length → used[slot]? = some false) ∧
      (slot = used.length → ∀ j, k ≤ j → j < used.length → used[j]? = some true) := by
  induction n generalizing k with
  | zero => exact ⟨k, rfl, by omega, by omega, fun _ j hj hlt => by omega⟩
  | succ n ih =>
    have hk : k < used.length := by omega
    rw [freeSlot, List.getElem?_eq_getElem hk]
    cases hused : used[k] with
    | false =>
      refine ⟨k, rfl, by omega, fun _ => ?_, fun heq => by omega⟩
      rw [List.getElem?_eq_getElem hk, hused]
    | true =>
      obtain ⟨slot, hfind, hle, hfree, hall⟩ := ih (k := k + 1) (by omega)
      refine ⟨slot, hfind, hle, hfree, fun heq j hj hlt => ?_⟩
      rcases Nat.lt_or_ge k j with hkj | hkj
      · exact hall heq j hkj hlt
      · obtain rfl : j = k := by omega
        rw [List.getElem?_eq_getElem hk, hused]

/-! ### A pass -/

theorem commit_one {xs ys : List F} (h : xs.length = ys.length) : lvStateCommit 1 0 xs ys = xs := by
  unfold lvStateCommit
  induction xs generalizing ys with
  | nil => rfl
  | cons x xs ih =>
    cases ys with
    | nil => simp at h
    | cons y ys =>
      rw [List.zipWith_cons_cons, ih (by simpa using h), mul_one, mul_zero, add_zero]

theorem commit_zero {xs ys : List F} (h : xs.length = ys.length) :
    lvStateCommit 0 1 xs ys = ys := by
  unfold lvStateCommit
  induction xs generalizing ys with
  | nil =>
    cases ys with
    | nil => rfl
    | cons y ys => simp at h
  | cons x xs ih =>
    cases ys with
    | nil => simp at h
    | cons y ys =>
      rw [List.zipWith_cons_cons, ih (by simpa using h), mul_one, mul_zero, zero_add]

/-- The context that a pass leaves. -/
def Context.computed (M : Model F) (c : Context F) : Context F :=
  { c with
    states := c.states.mapIdx (c.committed M)
    outHost := (List.range c.graph.streams).flatMap fun k => (c.passOf M k).1 }

section Pass

variable (h : Sound M c)
include h

omit [Sample F] in
theorem next_lengths {k : ℕ} (hk : k < c.capacity) : (c.passOf M k).2.map List.length = M.sizes :=
  M.next_length _ _ _ (h.history_lengths hk)

omit [Sample F] in
theorem next_getD {k i : ℕ} (hk : k < c.capacity) (hi : i < c.states.length) :
    ((c.passOf M k).2.getD i []).length = (c.states.get ⟨i, hi⟩).stride := by
  have hlen := next_lengths h hk
  have hi' : i < (c.passOf M k).2.length := by
    have := congrArg List.length hlen
    rw [List.length_map, ← h.sizes, List.length_map] at this
    omega
  rw [List.getD_eq_getElem _ _ hi']
  have hentry : ((c.passOf M k).2.map List.length)[i]? = (c.states.map Tensor.stride)[i]? := by
    rw [hlen, h.sizes]
  rw [List.getElem?_map, List.getElem?_map, List.getElem?_eq_getElem hi',
    List.getElem?_eq_getElem hi] at hentry
  exact Option.some.inj hentry

/-- What a pass leaves of one stream in one state. -/
theorem committed_slot {k i : ℕ} (hk : k < c.capacity) (hi : i < c.states.length) :
    (c.committed M i (c.states.get ⟨i, hi⟩)).slot k =
      lvStateCommit (c.valid.getD k 0) (c.hold.getD k 0) ((c.passOf M k).2.getD i [])
        ((c.states.get ⟨i, hi⟩).slot k) := by
  have hlen : ∀ j < c.capacity, (lvStateCommit (c.valid.getD j 0) (c.hold.getD j 0)
      ((c.passOf M j).2.getD i []) ((c.states.get ⟨i, hi⟩).slot j)).length =
        (c.states.get ⟨i, hi⟩).stride := fun j hj => by
    rw [lvStateCommit, List.length_zipWith, next_getD h hj hi,
      h.slot_length (List.get_mem _ _) hj, Nat.min_self]
  show lane _ k ((List.range c.graph.streams).flatMap _) = _
  rw [h.graph]
  exact lane_flatMap hlen hk

theorem graphCompute_eq : graphCompute M c = .ok (c.computed M) := by
  refine need_bind ?_
  rw [h.graph, Bool.true_and]
  exact h.holds (Nat.le_refl _)

theorem computed_sound : Sound M (c.computed M) := by
  refine ⟨h.graph, h.used, h.valid, h.hold, h.mic, h.ref, ?_, ?_, ?_⟩
  · show ((List.range c.graph.streams).flatMap _).length = _
    rw [h.graph]
    exact length_flatMap_lanes fun k _ => M.frame_length ..
  · rw [← h.sizes]
    refine List.ext_getElem? fun i => ?_
    simp only [Context.computed, List.getElem?_map, List.getElem?_mapIdx, Option.map_map]
    rfl
  · intro t ht
    obtain ⟨i, hi, rfl⟩ := List.mem_mapIdx.1 ht
    refine ⟨_, rfl, ?_⟩
    show ((List.range c.graph.streams).flatMap _).length = c.capacity * _
    rw [h.graph]
    refine length_flatMap_lanes fun j hj => ?_
    rw [lvStateCommit, List.length_zipWith, next_getD h hj hi,
      h.slot_length (List.getElem_mem hi) hj]
    exact Nat.min_self _

/-- **A stream that had a hop has its next states.** -/
theorem history_of_valid {k : ℕ} (hk : k < c.capacity) (hvalid : c.valid[k]? = some 1)
    (hhold : c.hold[k]? = some 0) : (c.computed M).history k = (c.passOf M k).2 := by
  have hlen := next_lengths h hk
  refine List.ext_getElem? fun i => ?_
  simp only [Context.history, Context.computed, List.getElem?_map, List.getElem?_mapIdx,
    Option.map_map]
  have hcount : (c.passOf M k).2.length = c.states.length := by
    rw [← List.length_map (f := List.length), hlen, ← h.sizes, List.length_map]
  rcases Nat.lt_or_ge i c.states.length with hi | hi
  · have hi' : i < (c.passOf M k).2.length := by omega
    rw [List.getElem?_eq_getElem hi, Option.map_some, List.getElem?_eq_getElem hi']
    refine congrArg some ((committed_slot h hk hi).trans ?_)
    rw [List.getD_eq_getElem?_getD, List.getD_eq_getElem?_getD, hvalid, hhold, Option.getD_some,
      Option.getD_some, commit_one]
    · exact List.getD_eq_getElem _ _ hi'
    · rw [next_getD h hk hi, h.slot_length (List.get_mem _ _) hk]
  · rw [List.getElem?_eq_none hi, List.getElem?_eq_none (by omega)]
    rfl

/-- **A stream that had none keeps its own.** -/
theorem history_of_hold {k : ℕ} (hk : k < c.capacity) (hvalid : c.valid[k]? = some 0)
    (hhold : c.hold[k]? = some 1) : (c.computed M).history k = c.history k := by
  refine List.ext_getElem? fun i => ?_
  simp only [Context.history, Context.computed, List.getElem?_map, List.getElem?_mapIdx,
    Option.map_map]
  rcases Nat.lt_or_ge i c.states.length with hi | hi
  · rw [List.getElem?_eq_getElem hi, Option.map_some, Option.map_some]
    refine congrArg some ((committed_slot h hk hi).trans ?_)
    rw [List.getD_eq_getElem?_getD, List.getD_eq_getElem?_getD, hvalid, hhold, Option.getD_some,
      Option.getD_some, commit_zero]
    · rfl
    · rw [next_getD h hk hi, h.slot_length (List.get_mem _ _) hk]
  · rw [List.getElem?_eq_none hi]
    rfl

theorem computed_out {k : ℕ} (hk : k < c.capacity) :
    lane M.nFft k (c.computed M).outHost = (c.passOf M k).1 := by
  show lane M.nFft k ((List.range c.graph.streams).flatMap _) = _
  rw [h.graph]
  exact lane_flatMap (fun j _ => M.frame_length ..) hk

end Pass

end LocalVqe
end S2S
