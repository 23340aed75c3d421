/-
# The classifier of turns, asked over one worker

The exchange of `src/smart-turn.cpp`: every session asks on a thread of its own
(`stPredict`), one worker computes (`stWorker`), and the one that frees the
context raises `stop` (`stFree`).  A caller hands over a pointer into its own
samples, under `job_mutex`; the worker reads the pointer and the samples after it
gave the mutex back.

A mutex is held or free, and who asks for a held one stays where it is.  What is
read and written under `job_mutex` alone is one action.  `job_cv.wait` looks for
what it waits for with the mutex held; if that does not hold, the thread sleeps and
the mutex is free (`Act.await`), and it goes on once it was notified and finds it,
with the mutex (`Act.resume`).  Who sleeps is not part of the context: `jobCv` says
which actions put a thread to sleep, which one wakes them all, and when a thread
that was woken came too early.
-/

import S2S.Json.Utf8
import S2S.SmartTurn.Audio
import S2S.Thread.Sleepers

namespace S2S
namespace SmartTurn

open Json Thread

/-- A thread: a session that asks, the worker, the owner of the context. -/
inductive Role (ι : Type)
  | caller (i : ι)
  | worker
  | owner
  deriving DecidableEq

variable {ι F P : Type}

/-! ### What is shared -/

/-- What is kept of a job: it was posted, computed, and its result collected. -/
inductive Entry (ι F P : Type)
  | posted (i : ι) (pcm : List F)
  | computed (i : ι) (pcm : List F) (prob : P) (error : Bytes)
  | collected (i : ι) (prob : P) (error : Bytes)

/-- `st_context`, the samples of whoever is in a call, and the last error of each thread. -/
structure Context (ι F P : Type) where
  audio : List F
  callMutex : Option (Role ι)
  jobMutex : Option (Role ι)
  /-- A pointer into the samples of a caller. -/
  jobPcm : Option ι
  jobSamples : ℕ
  jobReady : Bool
  jobDone : Bool
  stop : Bool
  jobProb : P
  jobError : Bytes
  samples : ι → Option (List F)
  errors : Role ι → Bytes
  /-- Samples were read that nobody holds any more. -/
  fault : Bool
  log : List (Entry ι F P)

/-! ### Actions -/

/-- What `job_cv` is waited on for. -/
inductive Awaited
  | ready
  | done
  deriving DecidableEq

/-- The predicates of the two waits. -/
def Context.meets (c : Context ι F P) : Awaited → Bool
  | .ready => c.jobReady || c.stop
  | .done => c.jobDone

/-- What a thread does in one step. -/
inductive Act (ι F P : Type)
  | request
  | refuse (message : Bytes)
  | lockCall
  | unlockCall
  | lockJob
  | unlockJob
  | setPcm
  | setSamples (n : ℕ)
  | arm (pcm : List F)
  | notifyAll
  | await (what : Awaited)
  | resume (what : Awaited)
  | collect
  | answer (prob : P)
  | keepJob
  | getStop
  | clearReady
  | getPcm
  | getSamples
  | compute (pcm : Option ι) (n : ℕ)
  | deliver (prob : P)
  | setStop

/-- What an action takes from outside: the turn that is asked about, and whether each of the two
graphs ran. -/
def Act.Input : Act ι F P → Type
  | .request => Option (List F)
  | .compute _ _ => Bool × Bool
  | _ => Unit

/-- What an action gives back. -/
def Act.Result : Act ι F P → Type
  | .request => Option (List F)
  | .await _ => Bool
  | .collect => P
  | .getStop => Bool
  | .getPcm => Option ι
  | .getSamples => ℕ
  | .compute _ _ => P
  | _ => Unit

variable [Zero F] [DecidableEq ι] (M : Model F P)

/-- What went wrong in the graphs, or nothing. -/
def failure : Bool × Bool → Option Bytes
  | (false, _) => some (ascii "[SmartTurn] Mel graph compute failed")
  | (true, false) => some (ascii "[SmartTurn] Encoder graph compute failed")
  | (true, true) => none

/-- The score that `st_compute` hands back, of the buffer. -/
def Model.outcome (audio : List F) (ran : Bool × Bool) : P :=
  if (failure ran).isSome then M.failed else M.score audio

/-- The error that travels with a score: the last one of the worker, if the score says that one
happened. -/
def Model.blame (prob : P) (last : Bytes) : Bytes := if M.negative prob then last else []

/-- A thread says what went wrong. -/
def Context.setError (c : Context ι F P) (role : Role ι) (message : Bytes) : Context ι F P :=
  { c with errors := Function.update c.errors role message }

/-- `st_compute`.  Where the pointer leads nowhere there are no samples to read. -/
def stCompute (role : Role ι) (pcm : Option ι) (n : ℕ) (ran : Bool × Bool) (c : Context ι F P) :
    P × Context ι F P :=
  match pcm.bind fun i => (c.samples i).map fun samples => (i, samples) with
  | none => (M.failed, { c with fault := true })
  | some (i, samples) =>
    if samples.length < n then (M.failed, { c with fault := true })
    else
      let audio := stAudio M c.audio (samples.take n)
      let prob := M.outcome audio ran
      let c := { c with audio := audio }
      let c := match failure ran with
        | none => c
        | some message => c.setError role message
      (prob, { c with
        log := c.log ++ [.computed i (samples.take n) prob (M.blame prob (c.errors role))] })

/-- The score that was handed over, and with it the error of the worker. -/
def Context.collect (c : Context ι F P) (i : ι) : P × Context ι F P :=
  let told := if M.negative c.jobProb then c.setError (.caller i) c.jobError else c
  (c.jobProb, { told with
    log := c.log ++ [.collected i c.jobProb (M.blame c.jobProb (told.errors (.caller i)))] })

/-- **One step of a thread**, nothing where it has to wait for a mutex, or for what it was woken
for. -/
def exec (role : Role ι) :
    (a : Act ι F P) → a.Input → Context ι F P → Option (a.Result × Context ι F P)
  | .request, turn, c =>
    match role with
    | .caller i => some (turn, { c with samples := Function.update c.samples i turn })
    | _ => none
  | .refuse message, _, c =>
    match role with
    | .caller i =>
      let c := c.setError role message
      some ((), { c with samples := Function.update c.samples i none })
    | _ => none
  | .lockCall, _, c =>
    if c.callMutex.isSome then none else some ((), { c with callMutex := some role })
  | .unlockCall, _, c => some ((), { c with callMutex := none })
  | .lockJob, _, c =>
    if c.jobMutex.isSome then none else some ((), { c with jobMutex := some role })
  | .unlockJob, _, c => some ((), { c with jobMutex := none })
  | .setPcm, _, c =>
    match role with
    | .caller i => some ((), { c with jobPcm := some i })
    | _ => none
  | .setSamples n, _, c => some ((), { c with jobSamples := n })
  | .arm pcm, _, c =>
    match role with
    | .caller i =>
      some ((), { c with jobDone := false, jobReady := true, log := c.log ++ [.posted i pcm] })
    | _ => none
  | .notifyAll, _, c => some ((), c)
  | .await what, _, c =>
    if c.meets what then some (true, c) else some (false, { c with jobMutex := none })
  | .resume what, _, c =>
    if c.jobMutex.isSome || !c.meets what then none
    else some ((), { c with jobMutex := some role })
  | .collect, _, c =>
    match role with
    | .caller i => some (c.collect M i)
    | _ => none
  | .answer _, _, c =>
    match role with
    | .caller i => some ((), { c with samples := Function.update c.samples i none })
    | _ => none
  | .keepJob, _, c =>
    if c.jobMutex = some role then some ((), c)
    else if c.jobMutex.isSome then none
    else some ((), { c with jobMutex := some role })
  | .getStop, _, c => some (c.stop, c)
  | .clearReady, _, c => some ((), { c with jobReady := false })
  | .getPcm, _, c => some (c.jobPcm, c)
  | .getSamples, _, c => some (c.jobSamples, c)
  | .compute pcm n, ran, c => some (stCompute M role pcm n ran c)
  | .deliver prob, _, c =>
    some ((), { c with
      jobProb := prob, jobError := M.blame prob (c.errors role), jobDone := true })
  | .setStop, _, c => some ((), { c with stop := true })

/-! ### The threads -/

/-- A program over the context. -/
abbrev Program (ι F P : Type) := Prog (Act ι F P) Act.Result

/-- One action. -/
def perform (a : Act ι F P) : Program ι F P a.Result := Prog.perform a

/-- `job_cv.wait`, with `job_mutex`. -/
def wait (what : Awaited) : Program ι F P Unit := do
  let met : Bool ← perform (.await what)
  if met then pure () else perform (.resume what)

/-- The mutexes held, the job is posted, waited for and collected. -/
def stCall (pcm : List F) : Program ι F P Bool := do
  perform .lockCall
  perform .lockJob
  perform .setPcm
  perform (.setSamples pcm.length)
  perform (.arm pcm)
  perform .notifyAll
  wait .done
  let prob : P ← perform .collect
  perform .unlockJob
  perform .unlockCall
  perform (.answer prob)
  pure true

/-- `st_predict`, on the thread of a session. -/
def stPredict : Program ι F P Bool := do
  let turn : Option (List F) ← perform .request
  match turn with
  | none => do
    perform (.refuse (ascii "[SmartTurn] Context or pcm is NULL"))
    pure true
  | some [] => do
    perform (.refuse (ascii "[SmartTurn] Empty audio"))
    pure true
  | some pcm => stCall pcm

/-- What `st_worker` does once it has waited, with the mutex: it ends, or does the job and keeps the
mutex. -/
def stJob (stop : Bool) : Program ι F P Bool :=
  if stop then do
    perform .unlockJob
    pure false
  else do
    perform .clearReady
    perform .unlockJob
    let pcm : Option ι ← perform .getPcm
    let n : ℕ ← perform .getSamples
    let prob : P ← perform (.compute pcm n)
    perform .lockJob
    perform (.deliver prob)
    perform .notifyAll
    pure true

/-- `st_worker`, one round of its loop.  The mutex is taken in front of the first one. -/
def stWorker : Program ι F P Bool := do
  perform .keepJob
  wait .ready
  let stop : Bool ← perform .getStop
  stJob stop

/-- `st_free`, as far as the worker notices. -/
def stFree : Program ι F P Bool := do
  perform .lockJob
  perform .setStop
  perform .unlockJob
  perform .notifyAll
  pure false

/-- A context that `st_init` has set up. -/
def Context.init : Context ι F P where
  audio := List.replicate (M.window + M.nFft) 0
  callMutex := none
  jobMutex := none
  jobPcm := none
  jobSamples := 0
  jobReady := false
  jobDone := false
  stop := false
  jobProb := M.failed
  jobError := []
  samples := fun _ => none
  errors := fun _ => []
  fault := false
  log := []

/-- **The threads over a context.** -/
def classifier : System (Role ι) (Act ι F P) Act.Input Act.Result (Context ι F P) where
  exec := exec M
  body
    | .caller _ => stPredict
    | .worker => stWorker
    | .owner => stFree
  init := .init M

/-- **Who sleeps on `job_cv`.**  A thread that waits in vain sleeps until it is notified; it goes on
with the mutex, and sleeps again if it does not find what it waits for. -/
def jobCv : CondVar (Role ι) (Act ι F P) Act.Result (Context ι F P) where
  sleeps
    | .await _, met => !met
    | _, _ => false
  wakes
    | .resume _ => true
    | _ => false
  notifies
    | .notifyAll => true
    | _ => false
  early _
    | .resume what, c => c.jobMutex.isNone && !c.meets what
    | _, _ => false

end SmartTurn
end S2S
