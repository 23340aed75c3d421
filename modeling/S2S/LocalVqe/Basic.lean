/-
# The echo canceller

`src/localvqe.cpp`: one graph serves every stream, a slot each.  Callers queue
the windows of a hop and wait; the worker takes the hops that wait, computes them
in one pass off the lock, and hands the frames back.

What the graph computes of one stream is `Model.pass`; that a lane is computed of
nothing but its own windows and its own states is all that is assumed of it.
Tensors are flat, the streams on the outermost dimension.  A read or a write past
an array, or of a tensor without a buffer, is `Stuck.undefined`.
-/

import Mathlib.Algebra.GroupWithZero.Defs
import Mathlib.Logic.Function.Basic
import S2S.Lanes

namespace S2S
namespace LocalVqe

open Lanes

/-- Finite samples, their zeros without a sign. -/
class Sample (F : Type) extends AddZeroClass F, MulZeroOneClass F

/-- What the model file fixes, and what its graph computes of one stream: the frame, and the next
value of every state. -/
structure Model (F : Type) where
  nFft : ℕ
  hop : ℕ
  fits : 2 * hop ≤ nFft
  sizes : List ℕ
  pass : List F → List F → List (List F) → List F × List (List F)
  frame_length : ∀ mic ref states, (pass mic ref states).1.length = nFft
  next_length : ∀ mic ref states, states.map List.length = sizes →
    (pass mic ref states).2.map List.length = sizes

/-- The samples of one hop, as `lv_process` reads them. -/
structure Hop {F : Type} (M : Model F) where
  pcm : List F
  length : pcm.length = M.hop

/-- Why a step is not taken: its caller has to wait, or the memory is not there. -/
inductive Stuck
  | waits
  | undefined
  deriving DecidableEq

/-- Nothing, where `p` holds. -/
def need (p : Bool) (stuck : Stuck) : Except Stuck Unit := if p then .ok () else .error stuck

/-! ### The context -/

/-- A state tensor, `stride` numbers a stream; no `data` where no buffer is behind it. -/
structure Tensor (F : Type) where
  stride : ℕ
  data : Option (List F)

/-- The graph for as many streams; `allocated` once its compute buffer is. -/
structure Graph where
  streams : ℕ
  allocated : Bool
  deriving DecidableEq

/-- `lv_context`, the weights apart. -/
structure Context (F : Type) where
  capacity : ℕ
  graph : Graph
  micHost : List F
  refHost : List F
  states : List (Tensor F)
  used : List Bool
  valid : List F
  hold : List F
  queue : List ℕ
  computing : Bool
  outHost : List F

/-- Which allocations of `lv_build_graph` succeed. -/
structure Allocations where
  stateCtx : Bool
  stateBuf : Bool
  compute : Bool
  deriving DecidableEq

/-- Every allocation succeeds. -/
def Allocations.all (o : Allocations) : Bool := o.stateCtx && o.stateBuf && o.compute

namespace Tensor

variable {F : Type}

/-- A buffer for as many streams is behind the tensor. -/
def holds (t : Tensor F) (streams : ℕ) : Bool :=
  match t.data with
  | some data => streams * t.stride ≤ data.length
  | none => false

/-- What a stream has in the tensor. -/
def slot (t : Tensor F) (k : ℕ) : List F := lane t.stride k (t.data.getD [])

/-- The buffer, freed. -/
def freed (t : Tensor F) : Tensor F := { t with data := none }

end Tensor

section Context

variable {F : Type} [Sample F] (M : Model F)

/-- `lv_state_commit`, the numbers of one stream in one state. -/
def lvStateCommit (valid hold : F) (next state : List F) : List F :=
  List.zipWith (fun x y => x * valid + y * hold) next state

/-- `lv_build_graph` up to its end, where it fails at the first allocation that does. -/
def lvBuildGraph (o : Allocations) (ctx : Context F) : Bool × Context F :=
  if o.stateCtx then
    let ctx := { ctx with
      states := M.sizes.map fun n => ⟨n, none⟩
      graph := ⟨ctx.capacity, false⟩ }
    if o.stateBuf then
      let ctx := { ctx with
        states := M.sizes.map fun n => ⟨n, some (List.replicate (n * ctx.capacity) 0)⟩ }
      if o.compute then
        (true, { ctx with
          graph := ⟨ctx.capacity, true⟩
          used := resize ctx.used ctx.capacity false
          valid := List.replicate ctx.capacity 0
          hold := List.replicate ctx.capacity 1
          micHost := resize ctx.micHost (M.nFft * ctx.capacity) 0
          refHost := resize ctx.refHost (M.nFft * ctx.capacity) 0
          outHost := resize ctx.outHost (M.nFft * ctx.capacity) 0 })
      else (false, ctx)
    else (false, ctx)
  else (false, ctx)

/-- An old state, copied to the head of a new one. -/
def moveState (old new : Tensor F) : Tensor F :=
  { new with data := new.data.map fun data => copyTo (old.data.getD []) data 0 }

/-- `lv_grow`.  The old states are freed whatever came of it, those still in use among them where
the new ones were never begun. -/
def lvGrow (o : Allocations) (ctx : Context F) : Except Stuck (Bool × Context F) := do
  let old := ctx.states
  let built := lvBuildGraph M o { ctx with capacity := ctx.capacity + 1 }
  if built.1 then do
    need (old.all fun t => t.data.isSome) .undefined
    pure (true, { built.2 with states := List.zipWith moveState old built.2.states })
  else if o.stateCtx then pure (false, built.2)
  else pure (false, { built.2 with states := old.map Tensor.freed })

/-- `lv_clear_slot`. -/
def lvClearSlot (slot : ℕ) (ctx : Context F) : Except Stuck (Context F) := do
  need (ctx.states.all fun t => t.holds (slot + 1)) .undefined
  pure { ctx with
    states := ctx.states.map fun t => { t with
      data := t.data.map fun data => copyTo (List.replicate t.stride 0) data (slot * t.stride) } }

/-- The first slot free from `slot` on, `n` of them looked at. -/
def freeSlot (used : List Bool) : ℕ → ℕ → Except Stuck ℕ
  | 0, slot => pure slot
  | n + 1, slot =>
    match used[slot]? with
    | none => .error .undefined
    | some true => freeSlot used n (slot + 1)
    | some false => pure slot

/-! ### A pass -/

/-- What stream `k` has in the states. -/
def Context.history (ctx : Context F) (k : ℕ) : List (List F) := ctx.states.map (·.slot k)

/-- What the graph computes of stream `k`. -/
def Context.passOf (ctx : Context F) (k : ℕ) : List F × List (List F) :=
  M.pass (lane M.nFft k ctx.micHost) (lane M.nFft k ctx.refHost) (ctx.history k)

/-- What a pass leaves in one state: of every stream the next value where it had a hop, and the one
it had otherwise. -/
def Context.committed (ctx : Context F) (i : ℕ) (t : Tensor F) : Tensor F :=
  { t with data := some <| (List.range ctx.graph.streams).flatMap fun k =>
      lvStateCommit (ctx.valid.getD k 0) (ctx.hold.getD k 0) ((ctx.passOf M k).2.getD i []) (t.slot k) }

/-- `lv_worker` off the lock. -/
def graphCompute (ctx : Context F) : Except Stuck (Context F) := do
  need (ctx.graph.allocated && ctx.states.all fun t => t.holds ctx.graph.streams) .undefined
  pure { ctx with
    states := ctx.states.mapIdx (ctx.committed M)
    outHost := (List.range ctx.graph.streams).flatMap fun k => (ctx.passOf M k).1 }

end Context

/-! ### The streams -/

/-- `lv_state`. -/
structure LvState (F : Type) where
  slot : ℕ
  micPrev : List F
  refPrev : List F
  micWin : List F
  refWin : List F
  frame : List F
  ola : List F
  done : Bool

/-- What a stream asks for. -/
inductive Call {F : Type} (M : Model F)
  | process (mic ref : Hop M)
  | reset

/-- What has happened: a call of a stream that has returned, with what it gave, a stream that was
not opened. -/
inductive Event {F : Type} (M : Model F)
  | returned (id : ℕ) (call : Call M) (out : List F)
  | refused

/-- Where the worker is. -/
inductive Worker
  | waits
  | computes
  | settles
  deriving DecidableEq

/-- The canceller with its streams, by the order they were opened, and the `lv_process` that each is
in. -/
structure Canceller {F : Type} (M : Model F) where
  ctx : Context F
  streams : ℕ → Option (LvState F)
  opened : ℕ
  calls : ℕ → Option (Hop M × Hop M)
  worker : Worker
  batch : List ℕ
  log : List (Event M)

section Streams

variable {F : Type} [Sample F] {M : Model F}

/-- Zeros. -/
def zeros (n : ℕ) : List F := List.replicate n 0

/-- The half kept, then the hop, into the window. -/
def window (prev pcm win : List F) : List F := copyTo pcm (copyTo prev win 0) prev.length

/-- The stream of `lv_state_new`. -/
def LvState.new (M : Model F) (slot : ℕ) : LvState F where
  slot := slot
  micPrev := zeros M.hop
  refPrev := zeros M.hop
  micWin := zeros M.nFft
  refWin := zeros M.nFft
  frame := zeros M.nFft
  ola := zeros M.nFft
  done := false

/-- The slot found is the one of the new stream. -/
def openSlot (slot : ℕ) (ctx : Context F) (s : Canceller M) : Except Stuck (Canceller M) := do
  need (slot < ctx.used.length) .undefined
  let ctx ← lvClearSlot slot { ctx with used := ctx.used.set slot true }
  pure { s with
    ctx := ctx
    streams := Function.update s.streams s.opened (some (.new M slot))
    opened := s.opened + 1 }

/-- `lv_state_new`. -/
def lvStateNew (o : Allocations) (s : Canceller M) : Except Stuck (Canceller M) := do
  need (!s.ctx.computing) .waits
  let slot ← freeSlot s.ctx.used s.ctx.capacity 0
  if slot = s.ctx.capacity then do
    let grown ← lvGrow M o s.ctx
    if grown.1 then openSlot slot grown.2 s
    else pure { s with ctx := grown.2, log := s.log ++ [.refused] }
  else openSlot slot s.ctx s

/-- The stream, when it is the caller's to use: open, and in no call. -/
def rested (s : Canceller M) (id : ℕ) : Except Stuck (LvState F) :=
  match s.streams id, s.calls id with
  | some st, none => pure st
  | _, _ => .error .waits

/-- `lv_state_reset`. -/
def lvStateReset (id : ℕ) (s : Canceller M) : Except Stuck (Canceller M) := do
  let st ← rested s id
  need (!s.ctx.computing) .waits
  let ctx ← lvClearSlot st.slot s.ctx
  pure { s with
    ctx := ctx
    streams := Function.update s.streams id (some { st with
      micPrev := zeros st.micPrev.length
      refPrev := zeros st.refPrev.length
      ola := zeros st.ola.length })
    log := s.log ++ [.returned id .reset []] }

/-- `lv_state_free`. -/
def lvStateFree (id : ℕ) (s : Canceller M) : Except Stuck (Canceller M) := do
  let st ← rested s id
  need (st.slot < s.ctx.used.length) .undefined
  pure { s with
    ctx := { s.ctx with used := s.ctx.used.set st.slot false }
    streams := Function.update s.streams id none }

/-- `lv_process` up to its wait. -/
def lvProcess (id : ℕ) (mic ref : Hop M) (s : Canceller M) : Except Stuck (Canceller M) := do
  let st ← rested s id
  pure { s with
    ctx := { s.ctx with queue := s.ctx.queue ++ [id] }
    streams := Function.update s.streams id (some { st with
      micWin := window st.micPrev mic.pcm st.micWin
      refWin := window st.refPrev ref.pcm st.refWin
      micPrev := mic.pcm
      refPrev := ref.pcm
      done := false })
    calls := Function.update s.calls id (some (mic, ref)) }

/-- The overlap-add at the end of `lv_process`. -/
def overlapAdd (ola frame : List F) : List F := List.zipWith (· + ·) ola frame

/-- `lv_process` after its wait. -/
def lvProcessed (id : ℕ) (s : Canceller M) : Except Stuck (Canceller M) :=
  match s.streams id, s.calls id with
  | some st, some (mic, ref) => do
    need st.done .waits
    let ola := overlapAdd st.ola st.frame
    pure { s with
      streams := Function.update s.streams id (some { st with
        ola := ola.drop M.hop ++ zeros M.hop })
      calls := Function.update s.calls id none
      log := s.log ++ [.returned id (.process mic ref) (ola.take M.hop)] }
  | _, _ => .error .waits

/-! ### The worker -/

/-- The windows of one hop, laid out. -/
def layOut (streams : ℕ → Option (LvState F)) (ctx : Context F) (id : ℕ) :
    Except Stuck (Context F) :=
  match streams id with
  | none => .error .undefined
  | some st => do
    need (st.slot * M.nFft + M.nFft ≤ ctx.micHost.length &&
      st.slot * M.nFft + M.nFft ≤ ctx.refHost.length && st.slot < ctx.valid.length &&
      st.slot < ctx.hold.length) .undefined
    pure { ctx with
      micHost := copyTo st.micWin ctx.micHost (st.slot * M.nFft)
      refHost := copyTo st.refWin ctx.refHost (st.slot * M.nFft)
      valid := ctx.valid.set st.slot 1
      hold := ctx.hold.set st.slot 0 }

/-- `lv_worker`: the hops that wait are taken. -/
def lvWorkerTakes (s : Canceller M) : Except Stuck (Canceller M) := do
  need (s.worker = .waits && !s.ctx.queue.isEmpty) .waits
  let ctx ← s.ctx.queue.foldlM (layOut (M := M) s.streams) s.ctx
  pure { s with
    ctx := { ctx with queue := [], computing := true }
    batch := s.ctx.queue
    worker := .computes }

/-- `lv_worker`: the pass, off the lock. -/
def lvWorkerComputes (s : Canceller M) : Except Stuck (Canceller M) := do
  need (s.worker = .computes) .waits
  let ctx ← graphCompute M s.ctx
  pure { s with ctx := ctx, worker := .settles }

/-- The frame of one hop, handed back. -/
def handBack (s : Canceller M) (id : ℕ) : Except Stuck (Canceller M) :=
  match s.streams id with
  | none => .error .undefined
  | some st => do
    need (st.slot * M.nFft + M.nFft ≤ s.ctx.outHost.length && st.slot < s.ctx.valid.length &&
      st.slot < s.ctx.hold.length) .undefined
    pure { s with
      ctx := { s.ctx with valid := s.ctx.valid.set st.slot 0, hold := s.ctx.hold.set st.slot 1 }
      streams := Function.update s.streams id (some { st with
        frame := lane M.nFft st.slot s.ctx.outHost, done := true }) }

/-- `lv_worker`: the frames are handed back. -/
def lvWorkerSettles (s : Canceller M) : Except Stuck (Canceller M) := do
  need (s.worker = .settles) .waits
  let s ← s.batch.foldlM handBack s
  pure { s with ctx := { s.ctx with computing := false }, batch := [], worker := .waits }

/-! ### Runs -/

/-- What the callers and the worker do under the lock, or off it. -/
inductive Step (M : Model F)
  | new (o : Allocations)
  | reset (id : ℕ)
  | free (id : ℕ)
  | process (id : ℕ) (mic ref : Hop M)
  | processed (id : ℕ)
  | takes
  | computes
  | settles

/-- One step. -/
def step (s : Canceller M) : Step M → Except Stuck (Canceller M)
  | .new o => lvStateNew o s
  | .reset id => lvStateReset id s
  | .free id => lvStateFree id s
  | .process id mic ref => lvProcess id mic ref s
  | .processed id => lvProcessed id s
  | .takes => lvWorkerTakes s
  | .computes => lvWorkerComputes s
  | .settles => lvWorkerSettles s

/-- As many steps, one after the other. -/
def run (s : Canceller M) (steps : List (Step M)) : Except Stuck (Canceller M) :=
  steps.foldlM step s

/-- `lv_init`: capacity one, and no stream. -/
def Canceller.start (M : Model F) : Canceller M where
  ctx := (lvBuildGraph M ⟨true, true, true⟩
    ⟨1, ⟨0, false⟩, [], [], [], [], [], [], [], false, []⟩).2
  streams := fun _ => none
  opened := 0
  calls := fun _ => none
  worker := .waits
  batch := []
  log := []

/-- The calls of a stream that have returned, with what they gave. -/
def returnsOf (id : ℕ) (log : List (Event M)) : List (Call M × List F) :=
  log.filterMap fun
    | .returned id' call out => if id' = id then some (call, out) else none
    | .refused => none

/-- A call of the stream `0`, where the worker has nothing else to do. -/
def Call.aloneSteps : Call M → List (Step M)
  | .process mic ref => [.process 0 mic ref, .takes, .computes, .settles, .processed 0]
  | .reset => [.reset 0]

/-- The calls on a canceller of their own. -/
def alone (calls : List (Call M)) : Except Stuck (Canceller M) :=
  run (.start M) (.new ⟨true, true, true⟩ :: calls.flatMap Call.aloneSteps)

end Streams

end LocalVqe
end S2S
