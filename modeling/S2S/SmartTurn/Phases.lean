/-
# Where the threads of the classifier stand

The place of each thread in its program (`Phase`), and every step that one of
them may take from there, with what it needs and what it changes (`Move`).
-/

import S2S.SmartTurn.Worker
import S2S.Thread.Monitor

namespace S2S
namespace SmartTurn

open Json Thread

variable {ι F P : Type}

/-- Where a thread stands: a caller with its turn, then with its score; the worker with the pointer
and the size that it read, then with the score; the owner. -/
inductive Phase (ι F P : Type)
  | idle
  | refusing (message : Bytes)
  | asked (pcm : List F)
  | called (pcm : List F)
  | entered (pcm : List F)
  | pointed (pcm : List F)
  | sized (pcm : List F)
  | armed (pcm : List F)
  | told (pcm : List F)
  | waiting (pcm : List F)
  | woken (pcm : List F)
  | collected (prob : P)
  | freed (prob : P)
  | leaving (prob : P)
  | rest
  | kept
  | looking
  | napping
  | roused
  | stopping
  | awake
  | taken
  | fetching
  | aimed (pcm : Option ι)
  | measured (pcm : Option ι) (n : ℕ)
  | scored (prob : P)
  | back (prob : P)
  | delivered
  | closing
  | inside
  | raised
  | ringing
  | over

namespace Phase

/-- What a thread does next. -/
def does : Role ι → Phase ι F P → Option (Act ι F P)
  | .caller _, .idle => some .request
  | .caller _, .refusing message => some (.refuse message)
  | .caller _, .asked _ => some .lockCall
  | .caller _, .called _ => some .lockJob
  | .caller _, .entered _ => some .setPcm
  | .caller _, .pointed pcm => some (.setSamples pcm.length)
  | .caller _, .sized pcm => some (.arm pcm)
  | .caller _, .armed _ => some .notifyAll
  | .caller _, .told _ => some (.await .done)
  | .caller _, .waiting _ => some (.resume .done)
  | .caller _, .woken _ => some .collect
  | .caller _, .collected _ => some .unlockJob
  | .caller _, .freed _ => some .unlockCall
  | .caller _, .leaving prob => some (.answer prob)
  | .worker, .rest => some .keepJob
  | .worker, .kept => some .keepJob
  | .worker, .looking => some (.await .ready)
  | .worker, .napping => some (.resume .ready)
  | .worker, .roused => some .getStop
  | .worker, .stopping => some .unlockJob
  | .worker, .awake => some .clearReady
  | .worker, .taken => some .unlockJob
  | .worker, .fetching => some .getPcm
  | .worker, .aimed _ => some .getSamples
  | .worker, .measured pcm n => some (.compute pcm n)
  | .worker, .scored _ => some .lockJob
  | .worker, .back prob => some (.deliver prob)
  | .worker, .delivered => some .notifyAll
  | .owner, .closing => some .lockJob
  | .owner, .inside => some .setStop
  | .owner, .raised => some .unlockJob
  | .owner, .ringing => some .notifyAll
  | _, _ => none

/-- What is asked about, if anything. -/
def asks : Option (List F) → Phase ι F P
  | none => .refusing (ascii "[SmartTurn] Context or pcm is NULL")
  | some [] => .refusing (ascii "[SmartTurn] Empty audio")
  | some pcm => .asked pcm

/-- The worker goes on, for good or with a job. -/
def wakes : Bool → Phase ι F P
  | true => .stopping
  | false => .awake

/-- The phase behind the beginning of a wait, which is over if what is waited for holds. -/
def awaited : Phase ι F P → Bool → Phase ι F P
  | .told pcm, true => .woken pcm
  | .told pcm, false => .waiting pcm
  | .looking, true => .roused
  | .looking, false => .napping
  | p, _ => p

/-- The phase behind `job_mutex` taken. -/
def locked : Phase ι F P → Phase ι F P
  | .called pcm => .entered pcm
  | .scored prob => .back prob
  | .closing => .inside
  | p => p

/-- The phase behind `job_mutex` given back. -/
def unlocked : Phase ι F P → Phase ι F P
  | .collected prob => .freed prob
  | .stopping => .over
  | .taken => .fetching
  | .raised => .ringing
  | p => p

/-- The phase behind any other step. -/
def forward : Phase ι F P → Phase ι F P
  | .refusing _ => .idle
  | .asked pcm => .called pcm
  | .entered pcm => .pointed pcm
  | .pointed pcm => .sized pcm
  | .sized pcm => .armed pcm
  | .armed pcm => .told pcm
  | .waiting pcm => .woken pcm
  | .freed prob => .leaving prob
  | .leaving _ => .idle
  | .rest => .looking
  | .kept => .looking
  | .napping => .roused
  | .awake => .taken
  | .back _ => .delivered
  | .delivered => .kept
  | .inside => .raised
  | .ringing => .over
  | p => p

/-- The size is read behind the pointer. -/
def measure (n : ℕ) : Phase ι F P → Phase ι F P
  | .aimed pcm => .measured pcm n
  | p => p

/-- The phase behind an action, as its result has it. -/
def after (p : Phase ι F P) : (a : Act ι F P) → a.Result → Phase ι F P
  | .request, turn => asks turn
  | .lockJob, _ => p.locked
  | .unlockJob, _ => p.unlocked
  | .collect, prob => .collected prob
  | .await _, met => p.awaited met
  | .getStop, stop => wakes stop
  | .getPcm, pcm => .aimed pcm
  | .getSamples, n => p.measure n
  | .compute _ _, prob => .scored prob
  | _, _ => p.forward

end Phase

/-- Every thread takes its steps in order. -/
def inOrder : Monitor (Role ι) (Act ι F P) Act.Result where
  State := Phase ι F P
  next := Phase.after
  ok role p a := p.does role = some a

variable [Zero F] [DecidableEq ι] {M : Model F P}

/-- How a round of the worker ends. -/
def WorkerEnds (again : Bool) (p : Phase ι F P) : Prop :=
  again = true ∧ p = .kept ∨ again = false ∧ p = .over

omit [Zero F] [DecidableEq ι] in
theorem watched_stJob (stop : Bool) :
    Watched inOrder (.worker : Role ι) (WorkerEnds (F := F)) (.wakes stop) (stJob (P := P) stop) := by
  cases stop with
  | true => exact .act rfl fun _ => .done (.inr ⟨rfl, rfl⟩)
  | false =>
    exact .act rfl fun _ => .act rfl fun _ => .act rfl fun _ => .act rfl fun _ =>
      .act rfl fun _ => .act rfl fun _ => .act rfl fun _ => .act rfl fun _ =>
      .done (.inl ⟨rfl, rfl⟩)

omit [Zero F] [DecidableEq ι] in
theorem watched_stWorker {p : Phase ι F P} (hp : p = .rest ∨ p = .kept) :
    Watched inOrder (.worker : Role ι) (WorkerEnds (F := F)) p (stWorker (P := P)) := by
  have hround : Watched inOrder (.worker : Role ι) (WorkerEnds (F := F)) .looking
      (wait .ready >>= fun _ => perform .getStop >>= stJob (P := P)) := by
    refine .act rfl fun met => ?_
    cases met with
    | true => exact .act rfl watched_stJob
    | false => exact .act rfl fun _ => .act rfl watched_stJob
  rcases hp with rfl | rfl
  · exact .act rfl fun _ => hround
  · exact .act rfl fun _ => hround

/-- **The programs of the threads**, phase by phase. -/
def course (M : Model F P) : Course (classifier (ι := ι) M) inOrder where
  start
    | .caller _ => .idle
    | .worker => .rest
    | .owner => .closing
  begins
    | .caller _, p => p = .idle
    | .worker, p => p = .rest ∨ p = .kept
    | .owner, p => p = .closing
  ends
    | .caller _, again, p => again = true ∧ p = .idle
    | .worker, again, p => WorkerEnds again p
    | .owner, again, p => again = false ∧ p = .over
  starts role := by
    cases role with
    | caller i => rfl
    | worker => exact .inl rfl
    | owner => rfl
  bodies role p hp := by
    cases role with
    | caller i =>
      subst hp
      refine .act rfl fun turn => ?_
      rcases turn with _ | _ | ⟨x, xs⟩
      · exact .act rfl fun _ => .done ⟨rfl, rfl⟩
      · exact .act rfl fun _ => .done ⟨rfl, rfl⟩
      · refine .act rfl fun _ => .act rfl fun _ => .act rfl fun _ => .act rfl fun _ =>
          .act rfl fun _ => .act rfl fun _ => .act rfl fun met => ?_
        cases met with
        | true =>
          exact .act rfl fun _ => .act rfl fun _ => .act rfl fun _ => .act rfl fun _ =>
            .done ⟨rfl, rfl⟩
        | false =>
          exact .act rfl fun _ => .act rfl fun _ => .act rfl fun _ => .act rfl fun _ =>
            .act rfl fun _ => .done ⟨rfl, rfl⟩
    | worker => exact watched_stWorker hp
    | owner =>
      subst hp
      exact .act rfl fun _ => .act rfl fun _ => .act rfl fun _ => .act rfl fun _ => .done ⟨rfl, rfl⟩
  again role p h := by
    cases role with
    | caller i => exact h.2
    | worker => exact h.elim (fun h => .inr h.2) fun h => absurd h.1 (by simp)
    | owner => exact absurd h.1 (by simp)

/-! ### The steps -/

/-- **Every step that a thread may take**, from a phase to the next and from a context to the
next. -/
inductive Move (M : Model F P) :
    Role ι → Phase ι F P → Context ι F P → Phase ι F P → Context ι F P → Prop
  | request {i c} (turn : Option (List F)) : Move M (.caller i) .idle c (.asks turn)
      { c with samples := Function.update c.samples i turn }
  | refuse {i c message} : Move M (.caller i) (.refusing message) c .idle
      { c.setError (.caller i) message with samples := Function.update c.samples i none }
  | lockCall {i c pcm} (hfree : c.callMutex = none) :
      Move M (.caller i) (.asked pcm) c (.called pcm) { c with callMutex := some (.caller i) }
  | lockJob {r p c} (hp : p.does r = some .lockJob) (hfree : c.jobMutex = none) :
      Move M r p c p.locked { c with jobMutex := some r }
  | unlockJob {r p c} (hp : p.does r = some .unlockJob) :
      Move M r p c p.unlocked { c with jobMutex := none }
  | setPcm {i c pcm} :
      Move M (.caller i) (.entered pcm) c (.pointed pcm) { c with jobPcm := some i }
  | setSamples {i c pcm} :
      Move M (.caller i) (.pointed pcm) c (.sized pcm) { c with jobSamples := pcm.length }
  | arm {i c pcm} : Move M (.caller i) (.sized pcm) c (.armed pcm)
      { c with jobDone := false, jobReady := true, log := c.log ++ [.posted i pcm] }
  | notifyAll {r p c} (hp : p.does r = some .notifyAll) : Move M r p c p.forward c
  | met {r p c what} (hp : p.does r = some (.await what)) (hmet : c.meets what = true) :
      Move M r p c (p.awaited true) c
  | unmet {r p c what} (hp : p.does r = some (.await what)) (hunmet : c.meets what = false) :
      Move M r p c (p.awaited false) { c with jobMutex := none }
  | resume {r p c what} (hp : p.does r = some (.resume what)) (hfree : c.jobMutex = none)
      (hmet : c.meets what = true) : Move M r p c p.forward { c with jobMutex := some r }
  | collect {i c pcm} :
      Move M (.caller i) (.woken pcm) c (.collected c.jobProb) (c.collect M i).2
  | unlockCall {i c prob} :
      Move M (.caller i) (.freed prob) c (.leaving prob) { c with callMutex := none }
  | answer {i c prob} : Move M (.caller i) (.leaving prob) c .idle
      { c with samples := Function.update c.samples i none }
  | keepJob {p c} (hp : p.does .worker = some .keepJob)
      (hfree : c.jobMutex = none ∨ c.jobMutex = some .worker) :
      Move M .worker p c p.forward { c with jobMutex := some .worker }
  | getStop {c} : Move M .worker .roused c (.wakes c.stop) c
  | clearReady {c} : Move M .worker .awake c .taken { c with jobReady := false }
  | getPcm {c} : Move M .worker .fetching c (.aimed c.jobPcm) c
  | getSamples {c pcm} : Move M .worker (.aimed pcm) c (.measured pcm c.jobSamples) c
  | compute {c pcm n} (ran : Bool × Bool) : Move M .worker (.measured pcm n) c
      (.scored (stCompute M .worker pcm n ran c).1) (stCompute M .worker pcm n ran c).2
  | deliver {c prob} : Move M .worker (.back prob) c .delivered { c with
      jobProb := prob, jobError := M.blame prob (c.errors .worker), jobDone := true }
  | setStop {c} : Move M .owner .inside c .raised { c with stop := true }

/-- Taking `job_mutex`. -/
theorem Move.of_lockJob {r : Role ι} {p : Phase ι F P} {c c' : Context ι F P} {x res}
    (hdoes : p.does r = some .lockJob) (hexec : exec M r .lockJob x c = some (res, c')) :
    Move M r p c p.locked c' := by
  obtain ⟨hfree, hsome⟩ := Option.ite_none_left_eq_some.1 hexec
  cases hsome
  exact .lockJob hdoes (by simpa using hfree)

/-- The beginning of a wait. -/
theorem Move.of_await {r : Role ι} {p : Phase ι F P} {c c' : Context ι F P} {what : Awaited} {x}
    {res : Bool} (hdoes : p.does r = some (.await what))
    (hexec : exec M r (.await what) x c = some (res, c')) : Move M r p c (p.awaited res) c' := by
  rw [exec] at hexec
  split_ifs at hexec with hmet
  · cases hexec
    exact .met hdoes hmet
  · cases hexec
    exact .unmet hdoes (by simpa using hmet)

/-- The end of one. -/
theorem Move.of_resume {r : Role ι} {p : Phase ι F P} {c c' : Context ι F P} {what : Awaited} {x res}
    (hdoes : p.does r = some (.resume what))
    (hexec : exec M r (.resume what) x c = some (res, c')) : Move M r p c p.forward c' := by
  obtain ⟨hfree, hsome⟩ := Option.ite_none_left_eq_some.1 hexec
  cases hsome
  simp only [Bool.or_eq_true, not_or, Bool.not_eq_true, Option.isSome_eq_false_iff,
    Option.isNone_iff_eq_none, Bool.not_eq_false'] at hfree
  exact .resume hdoes hfree.1 hfree.2

/-- A round of the worker has the mutex. -/
theorem Move.of_keepJob {p : Phase ι F P} {c c' : Context ι F P} {x res}
    (hdoes : p.does .worker = some .keepJob)
    (hexec : exec M .worker .keepJob x c = some (res, c')) : Move M .worker p c p.forward c' := by
  rw [exec] at hexec
  split_ifs at hexec with hown hheld
  · cases hexec
    have hmove : Move M .worker p c p.forward _ := .keepJob hdoes (.inr hown)
    rwa [← hown] at hmove
  · cases hexec
    exact .keepJob hdoes (.inl (by simpa using hheld))

/-- **What a thread does is one of its steps.** -/
theorem move_of_exec {r : Role ι} {p : Phase ι F P} {a : Act ι F P} {x : a.Input}
    {c c' : Context ι F P} {res : a.Result} (hdoes : p.does r = some a)
    (hexec : exec M r a x c = some (res, c')) : Move M r p c (p.after a res) c' := by
  cases r with
  | caller i =>
    cases p with
    | idle => cases hdoes; cases hexec; exact .request _
    | refusing => cases hdoes; cases hexec; exact .refuse
    | asked =>
      cases hdoes
      obtain ⟨hfree, hsome⟩ := Option.ite_none_left_eq_some.1 hexec
      cases hsome
      exact .lockCall (by simpa using hfree)
    | called => cases hdoes; exact .of_lockJob rfl hexec
    | entered => cases hdoes; cases hexec; exact .setPcm
    | pointed => cases hdoes; cases hexec; exact .setSamples
    | sized => cases hdoes; cases hexec; exact .arm
    | armed => cases hdoes; cases hexec; exact .notifyAll rfl
    | told => cases hdoes; exact .of_await rfl hexec
    | waiting => cases hdoes; exact .of_resume rfl hexec
    | woken =>
      cases hdoes
      obtain ⟨rfl, rfl⟩ := Prod.ext_iff.1 (Option.some.inj hexec)
      exact .collect
    | collected => cases hdoes; cases hexec; exact .unlockJob rfl
    | freed => cases hdoes; cases hexec; exact .unlockCall
    | leaving => cases hdoes; cases hexec; exact .answer
    | _ => cases hdoes
  | worker =>
    cases p with
    | rest => cases hdoes; exact .of_keepJob rfl hexec
    | kept => cases hdoes; exact .of_keepJob rfl hexec
    | looking => cases hdoes; exact .of_await rfl hexec
    | napping => cases hdoes; exact .of_resume rfl hexec
    | roused => cases hdoes; cases hexec; exact .getStop
    | stopping => cases hdoes; cases hexec; exact .unlockJob rfl
    | awake => cases hdoes; cases hexec; exact .clearReady
    | taken => cases hdoes; cases hexec; exact .unlockJob rfl
    | fetching => cases hdoes; cases hexec; exact .getPcm
    | aimed => cases hdoes; cases hexec; exact .getSamples
    | measured =>
      cases hdoes
      obtain ⟨rfl, rfl⟩ := Prod.ext_iff.1 (Option.some.inj hexec)
      exact .compute _
    | scored => cases hdoes; exact .of_lockJob rfl hexec
    | back => cases hdoes; cases hexec; exact .deliver
    | delivered => cases hdoes; cases hexec; exact .notifyAll rfl
    | _ => cases hdoes
  | owner =>
    cases p with
    | closing => cases hdoes; exact .of_lockJob rfl hexec
    | inside => cases hdoes; cases hexec; exact .setStop
    | raised => cases hdoes; cases hexec; exact .unlockJob rfl
    | ringing => cases hdoes; cases hexec; exact .notifyAll rfl
    | _ => cases hdoes

end SmartTurn
end S2S
