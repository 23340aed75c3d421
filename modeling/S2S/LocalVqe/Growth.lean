/-
# A growth that fails

`lv_grow` of `src/localvqe.cpp` counts the new stream before it has the memory for
it, and frees the states of the old ones whatever came of it.  A call of
`lv_state_new` that returns no stream leaves the streams untouched
(`Untouched`) just when it cannot happen (`growth_untouched_iff`): there is a
slot, or every allocation succeeds.
-/

import S2S.LocalVqe.Isolation

namespace S2S
namespace LocalVqe

open Lanes

variable {F : Type} [Sample F] {M : Model F}

/-- **The streams are untouched** by what leads from `s` to `s'`: the arrays are of the capacity they
had, the graph and the states are the ones in use before, and whatever comes later gives every
stream what it would have. -/
structure Untouched (s s' : Canceller M) : Prop where
  capacity : s'.ctx.capacity = s.ctx.capacity
  used : s'.ctx.used.length = s'.ctx.capacity
  valid : s'.ctx.valid.length = s'.ctx.capacity
  hold : s'.ctx.hold.length = s'.ctx.capacity
  graph : s'.ctx.graph = s.ctx.graph
  states : s'.ctx.states = s.ctx.states
  later : ∀ steps id, (run s' steps).map (fun t => returnsOf id t.log) =
    (run s steps).map fun t => returnsOf id t.log

/-- Whenever `lv_state_new` gives no stream, the streams are untouched. -/
def Atomic (s : Canceller M) (o : Allocations) : Prop :=
  ∀ s', lvStateNew o s = .ok s' → s'.opened = s.opened → Untouched s s'

/-- Where the memory is not there, the capacity is one more than the arrays are for. -/
theorem lvGrow_fails {c : Context F} {o : Allocations} (ho : o.all = false) :
    ∃ c', lvGrow M o c = .ok (false, c') ∧ c'.capacity = c.capacity + 1 ∧ c'.used = c.used := by
  obtain ⟨stateCtx, stateBuf, compute⟩ := o
  cases stateCtx with
  | false => exact ⟨_, rfl, rfl, rfl⟩
  | true =>
    cases stateBuf with
    | false => exact ⟨_, rfl, rfl, rfl⟩
    | true =>
      cases compute with
      | false => exact ⟨_, rfl, rfl, rfl⟩
      | true => simp [Allocations.all] at ho

/-- **Where `lv_state_new` needs memory that is not there**, it gives no stream, and leaves one slot
too many: the next call that looks for a free one reads past the slots. -/
theorem lvStateNew_fails {s : Canceller M} (h : Serves s) (hcomputing : s.ctx.computing = false)
    {o : Allocations} (hroom : ¬s.Room) (ho : o.all = false) :
    ∃ s', lvStateNew o s = .ok s' ∧ s'.opened = s.opened ∧
      s'.ctx.capacity = s.ctx.capacity + 1 ∧ s'.ctx.used = s.ctx.used := by
  obtain ⟨slot, hfind, hle, hfree, -⟩ :=
    freeSlot_spec s.ctx.used (n := s.ctx.capacity) (k := 0)
      (by rw [h.sound.used, Nat.zero_add])
  have hslot : slot = s.ctx.capacity := by
    by_contra hne
    have hlt : slot < s.ctx.used.length := by
      have := h.sound.used
      omega
    exact hroom ⟨slot, hfree hlt⟩
  have hwaits : (!s.ctx.computing) = true := by rw [hcomputing]; rfl
  obtain ⟨ctx, hgrow, hcapacity, hused⟩ := lvGrow_fails (M := M) (c := s.ctx) ho
  refine ⟨{ s with ctx := ctx, log := s.log ++ [.refused] }, ?_, rfl, hcapacity, hused⟩
  rw [lvStateNew, need_bind hwaits, bind_ok hfind, if_pos hslot, bind_ok hgrow]
  rfl

/-- **A growth is atomic only where it does not fail.**  In every run that had the memory it needed,
no step so provided reads or writes where there is nothing; and a call of `lv_state_new`, with no
pass running, leaves the streams untouched whenever it gives no stream if and only if a slot is free
or no allocation fails. -/
theorem growth_untouched_iff {steps : List (Step M)} {s : Canceller M}
    (hrun : run (.start M) steps = .ok s) (hprovided : Provided (.start M) steps) :
    (∀ x : Step M, x.Good s → step s x ≠ .error .undefined) ∧
      (s.ctx.computing = false → ∀ o : Allocations, Atomic s o ↔ s.Room ∨ o.all = true) := by
  have h := serves_run serves_start hrun hprovided
  refine ⟨fun x hx hundefined => ?_, fun hcomputing o => ⟨fun hatomic => ?_, fun ho => ?_⟩⟩
  · rcases serves_step h hx with hwaits | ⟨s', hok, -⟩
    · rw [hwaits] at hundefined
      simp at hundefined
    · rw [hok] at hundefined
      simp at hundefined
  · by_contra hnot
    rw [not_or, Bool.not_eq_true] at hnot
    obtain ⟨s', hok, hopened, hcapacity, -⟩ := lvStateNew_fails h hcomputing hnot.1 hnot.2
    have := (hatomic s' hok hopened).capacity
    omega
  · intro s' hok hopened
    obtain ⟨ctx, slot, -, hnew, -⟩ := h.new hcomputing ho
    rw [hnew] at hok
    obtain rfl := Except.ok.inj hok
    exact absurd hopened (Nat.succ_ne_self _)

/-- One stream, which has heard a hop. -/
def oneStream : List (Step sums) :=
  [.new ⟨true, true, true⟩, .process 0 (sample 1) (sample 0)] ++ onePass ++ [.processed 0]

/-- With the memory there, the second stream is opened; without it, the first one is touched. -/
theorem growth_untouched_iff_one : ∃ s, run (.start sums) oneStream = .ok s ∧
    (Atomic s ⟨true, true, true⟩ ∧ ¬Atomic s ⟨true, false, true⟩) := by
  have hprovided : Provided (.start sums) oneStream := by
    refine provided_of_succeeds ?_ _
    simp [oneStream, onePass, Step.Succeeds, Allocations.all]
  refine ⟨_, rfl, ?_⟩
  have hiff := (growth_untouched_iff (show run (.start sums) oneStream = .ok _ from rfl) hprovided).2 rfl
  refine ⟨(hiff _).2 (.inr rfl), fun hatomic => ?_⟩
  rcases (hiff _).1 hatomic with ⟨k, hk⟩ | hall
  · cases k with
    | zero => exact absurd (show some true = some false from hk) (by decide)
    | succ k => exact absurd (show (none : Option Bool) = some false from hk) (by decide)
  · simp [Allocations.all] at hall

/-- **A stream that cannot be opened touches the one that is.**  The state buffer cannot be
allocated: `lv_state_new` returns no stream, the capacity is two with one slot behind it, the next
call of `lv_state_new` reads past the slots, and the next hop of the first stream is computed on
states that have no buffer. -/
theorem failed_growth_touches : ∃ s s', run (.start sums) oneStream = .ok s ∧
    lvStateNew ⟨true, false, true⟩ s = .ok s' ∧ s'.opened = s.opened ∧ ¬Untouched s s' ∧
    s'.ctx.capacity = 2 ∧ s'.ctx.used.length = 1 ∧
    run s' [.new ⟨true, true, true⟩] = .error .undefined ∧
    run s' [.process 0 (sample 3) (sample 0), .takes, .computes] = .error .undefined := by
  refine ⟨_, _, rfl, rfl, rfl, fun huntouched => ?_, rfl, rfl, rfl, rfl⟩
  exact absurd huntouched.capacity (by decide)

end LocalVqe
end S2S
