/-
# One job at a time

How far the job of the classifier is (`Exchange`), and what that says of the
context, of where the worker stands and of every caller (`Held`).  A caller posts
a job while it has both mutexes, so nobody else has one under way; the worker
follows the pointer while that caller waits, so the samples are still held.

Every step of a caller, of the worker and of the owner keeps what holds.
-/

import S2S.SmartTurn.Phases

namespace S2S
namespace SmartTurn

open Json Thread

variable {ι F P : Type}

/-! ### Phases -/

namespace Phase

/-- Between `call_mutex` taken and given back. -/
def Calling : Phase ι F P → Prop
  | .called _ | .entered _ | .pointed _ | .sized _ | .armed _ | .told _ | .waiting _ | .woken _
  | .collected _ | .freed _ => True
  | _ => False

/-- Between `job_mutex` taken and given back. -/
def Inside : Phase ι F P → Prop
  | .entered _ | .pointed _ | .sized _ | .armed _ | .told _ | .woken _ | .collected _ | .kept
  | .looking | .roused | .stopping | .awake | .taken | .back _ | .delivered | .inside
  | .raised => True
  | _ => False

/-- The turn that a caller waits for. -/
def waits : Phase ι F P → Option (List F)
  | .armed pcm | .told pcm | .waiting pcm | .woken pcm => some pcm
  | _ => none

/-- The turn that a caller holds. -/
def turn : Phase ι F P → Option (List F)
  | .asked pcm | .called pcm | .entered pcm | .pointed pcm | .sized pcm | .armed pcm | .told pcm
  | .waiting pcm | .woken pcm => some pcm
  | _ => none

/-- The worker has no job in hand. -/
def Quiet : Phase ι F P → Prop
  | .rest | .kept | .looking | .napping | .roused | .stopping | .over => True
  | _ => False

@[simp] theorem locked_calling (p : Phase ι F P) : p.locked.Calling ↔ p.Calling := by
  cases p <;> exact Iff.rfl

@[simp] theorem unlocked_calling (p : Phase ι F P) : p.unlocked.Calling ↔ p.Calling := by
  cases p <;> exact Iff.rfl

theorem locked_inside {p : Phase ι F P} {r : Role ι} (hp : p.does r = some .lockJob) :
    p.locked.Inside := by
  cases r <;> cases p <;> cases hp <;> trivial

/-- Where a caller waits for its score. -/
theorem told_of_await {p : Phase ι F P} {i : ι} {what : Awaited}
    (hp : p.does (.caller i) = some (.await what)) : ∃ pcm, p = .told pcm ∧ what = .done := by
  cases p <;> cases hp
  exact ⟨_, rfl, rfl⟩

theorem waiting_of_resume {p : Phase ι F P} {i : ι} {what : Awaited}
    (hp : p.does (.caller i) = some (.resume what)) : ∃ pcm, p = .waiting pcm ∧ what = .done := by
  cases p <;> cases hp
  exact ⟨_, rfl, rfl⟩

/-- Where the worker waits for a job. -/
theorem looking_of_await {p : Phase ι F P} {what : Awaited}
    (hp : p.does (.worker : Role ι) = some (.await what)) : p = .looking ∧ what = .ready := by
  cases p <;> cases hp
  exact ⟨rfl, rfl⟩

theorem napping_of_resume {p : Phase ι F P} {what : Awaited}
    (hp : p.does (.worker : Role ι) = some (.resume what)) : p = .napping ∧ what = .ready := by
  cases p <;> cases hp
  exact ⟨rfl, rfl⟩

theorem unlocked_inside {p : Phase ι F P} {r : Role ι} (hp : p.does r = some .unlockJob) :
    p.Inside ∧ ¬p.unlocked.Inside := by
  cases r <;> cases p <;> cases hp <;> exact ⟨trivial, id⟩

end Phase

/-! ### The exchange -/

/-- One job: who asked, about which turn, which graphs ran, and the last error of the worker
before. -/
structure Round (ι F : Type) where
  caller : ι
  pcm : List F
  ran : Bool × Bool
  last : Bytes

/-- How far the job is. -/
inductive Exchange (ι F : Type)
  | clear
  | posted (i : ι) (pcm : List F)
  | taken (i : ι) (pcm : List F)
  | scored (round : Round ι F)
  | told (round : Round ι F)

namespace Exchange

/-- Whose job it is. -/
def job : Exchange ι F → Option (ι × List F)
  | .clear => none
  | .posted i pcm => some (i, pcm)
  | .taken i pcm => some (i, pcm)
  | .scored r => some (r.caller, r.pcm)
  | .told r => some (r.caller, r.pcm)

/-- A job that is posted or computed. -/
structure Open (c : Context ι F P) (i : ι) (pcm : List F) (ready done : Bool) : Prop where
  ready : c.jobReady = ready
  done : c.jobDone = done
  aims : c.jobPcm = some i
  size : c.jobSamples = pcm.length

end Exchange

/-- What holds of a caller. -/
structure Served (e : Exchange ι F) (c : Context ι F P) (i : ι) (p : Phase ι F P) : Prop where
  holds : ∀ pcm, p.turn = some pcm → c.samples i = some pcm
  idle : p = .idle → c.samples i = none
  pointed : ∀ pcm, p = .pointed pcm ∨ p = .sized pcm → c.jobPcm = some i
  sized : ∀ pcm, p = .sized pcm → c.jobSamples = pcm.length
  waits : ∀ pcm, p.waits = some pcm ↔ e.job = some (i, pcm)
  woken : ∀ pcm, p = .woken pcm → ∃ r, e = .told r

section Served

variable {ph : Role ι → Phase ι F P} {c c' : Context ι F P} {p : Phase ι F P} {i : ι}
  {e e' : Exchange ι F}

theorem Phase.turn_of_waits {pcm : List F} (h : p.waits = some pcm) : p.turn = some pcm := by
  cases p <;> first | exact h | cases h

/-- The samples of the caller are as they were, and so is what a caller says of the job. -/
theorem Served.same (h : Served e c i p) (hsamples : c'.samples i = c.samples i)
    (haims : c'.jobPcm = c.jobPcm) (hsize : c'.jobSamples = c.jobSamples) : Served e c' i p :=
  { h with
    holds := fun pcm hturn => hsamples.trans (h.holds pcm hturn)
    idle := fun hidle => hsamples.trans (h.idle hidle)
    pointed := fun pcm hp => haims.trans (h.pointed pcm hp)
    sized := fun pcm hp => hsize.trans (h.sized pcm hp) }

/-- Whoever is outside says nothing of the job but whose it is. -/
theorem Served.outside (h : Served e c i p) (hout : ¬p.Inside)
    (hsamples : c'.samples i = c.samples i)
    (hjob : ∀ pcm, e'.job = some (i, pcm) ↔ e.job = some (i, pcm)) : Served e' c' i p where
  holds pcm hturn := hsamples.trans (h.holds pcm hturn)
  idle hidle := hsamples.trans (h.idle hidle)
  pointed pcm hp := by
    rcases hp with rfl | rfl <;> exact absurd trivial hout
  sized pcm hp := by
    subst hp
    exact absurd trivial hout
  waits pcm := (h.waits pcm).trans (hjob pcm).symm
  woken pcm hp := by
    subst hp
    exact absurd trivial hout

/-- The job goes on, and its caller waits as before. -/
theorem Served.worked (h : Served e c i p) (hjob : e'.job = e.job)
    (hwoken : ∀ r, e = .told r → ∃ r', e' = .told r') (hsamples : c'.samples i = c.samples i)
    (haims : c'.jobPcm = c.jobPcm) (hsize : c'.jobSamples = c.jobSamples) : Served e' c' i p where
  holds pcm hturn := hsamples.trans (h.holds pcm hturn)
  idle hidle := hsamples.trans (h.idle hidle)
  pointed pcm hp := haims.trans (h.pointed pcm hp)
  sized pcm hp := hsize.trans (h.sized pcm hp)
  waits pcm := hjob ▸ h.waits pcm
  woken pcm hp := by
    obtain ⟨r, hr⟩ := h.woken pcm hp
    exact hwoken r hr

/-- The job is as it was. -/
structure Context.Same (c c' : Context ι F P) : Prop where
  ready : c'.jobReady = c.jobReady
  done : c'.jobDone = c.jobDone
  aims : c'.jobPcm = c.jobPcm
  size : c'.jobSamples = c.jobSamples
  prob : c'.jobProb = c.jobProb
  error : c'.jobError = c.jobError
  last : c'.errors .worker = c.errors .worker
  log : c'.log = c.log

theorem Exchange.Open.same {pcm : List F} {ready done : Bool} (h : Exchange.Open c i pcm ready done)
    (hsame : c.Same c') : Exchange.Open c' i pcm ready done :=
  ⟨hsame.ready.trans h.ready, hsame.done.trans h.done, hsame.aims.trans h.aims,
    hsame.size.trans h.size⟩

variable [DecidableEq ι]

theorem served_update (hothers : ∀ j, j ≠ i → Served e c j (ph (.caller j))) (hi : Served e c i p) :
    ∀ j, Served e c j (Function.update ph (.caller i) p (.caller j)) := by
  intro j
  by_cases hji : j = i
  · subst hji
    rwa [Function.update_self]
  · rw [Function.update_of_ne fun heq => hji (Role.caller.inj heq)]
    exact hothers j hji

/-- A caller asks about a turn. -/
theorem Served.asks (hi : Served e c i .idle) (turn : Option (List F)) :
    Served e { c with samples := Function.update c.samples i turn } i (.asks turn) := by
  have hsamples : Function.update c.samples i turn i = turn := Function.update_self ..
  rcases turn with _ | _ | ⟨x, xs⟩
  · exact ⟨nofun, nofun, by simp [Phase.asks], nofun, hi.waits, nofun⟩
  · exact ⟨nofun, nofun, by simp [Phase.asks], nofun, hi.waits, nofun⟩
  · exact ⟨fun pcm hturn => hsamples.trans hturn, nofun, by simp [Phase.asks], nofun, hi.waits,
      nofun⟩

/-- A caller is done. -/
theorem Served.ends (hi : Served e c i p) (hwaits : p.waits = none) (errors : Role ι → Bytes) :
    Served e { c with samples := Function.update c.samples i none, errors := errors } i .idle where
  holds := nofun
  idle _ := Function.update_self ..
  pointed := by simp
  sized := nofun
  waits pcm := by
    rw [← hi.waits pcm, hwaits]
    rfl
  woken := nofun

/-- The errors behind a score collected: the caller has the one that travelled with it. -/
def Context.told (c : Context ι F P) (M : Model F P) (i : ι) : Role ι → Bytes :=
  if M.negative c.jobProb then Function.update c.errors (.caller i) c.jobError else c.errors

theorem Context.collect_snd (c : Context ι F P) (i : ι) : (c.collect M i).2 = { c with
    errors := c.told M i
    log := c.log ++ [.collected i c.jobProb (M.blame c.jobProb (c.told M i (.caller i)))] } := by
  unfold Context.collect Context.told
  split <;> rfl

end Served

variable [Zero F] (M : Model F P)

/-! ### Rounds -/

namespace Round

/-- The score of the round, of the buffer of its turn. -/
def prob (M : Model F P) (r : Round ι F) : P := M.outcome (M.padded r.pcm) r.ran

/-- The error of the round. -/
def error (M : Model F P) (r : Round ι F) : Bytes :=
  M.blame (r.prob M) ((failure r.ran).getD r.last)

/-- **A pass that failed tells its caller why**, whatever went wrong before. -/
theorem error_of_failure {r : Round ι F} {message : Bytes} (h : failure r.ran = some message) :
    r.prob M = M.failed ∧ r.error M = message := by
  have hprob : r.prob M = M.failed := by
    simp [prob, Model.outcome, h]
  refine ⟨hprob, ?_⟩
  rw [error, hprob, h, Model.blame, if_pos M.negative_failed]
  rfl

/-- **What is kept of a round.** -/
def entries (M : Model F P) (r : Round ι F) : List (Entry ι F P) :=
  [.posted r.caller r.pcm, .computed r.caller r.pcm (r.prob M) (r.error M),
    .collected r.caller (r.prob M) (r.error M)]

end Round

/-- Complete rounds, and what was begun of the next one. -/
def Rounds (log begun : List (Entry ι F P)) : Prop :=
  ∃ rounds : List (Round ι F), log = rounds.flatMap (Round.entries M) ++ begun

namespace Exchange

/-- The context shows how far the job is. -/
def Shows (c : Context ι F P) : Exchange ι F → Prop
  | .clear => c.jobReady = false ∧ Rounds M c.log []
  | .posted i pcm => Open c i pcm true false ∧ Rounds M c.log [.posted i pcm]
  | .taken i pcm => Open c i pcm false false ∧ Rounds M c.log [.posted i pcm]
  | .scored r => Open c r.caller r.pcm false false ∧ Rounds M c.log ((r.entries M).take 2) ∧
      M.blame (r.prob M) (c.errors .worker) = r.error M
  | .told r => Open c r.caller r.pcm false true ∧ Rounds M c.log ((r.entries M).take 2) ∧
      c.jobProb = r.prob M ∧ c.jobError = r.error M

end Exchange

/-- Where the worker may stand. -/
def Exchange.Serves (p : Phase ι F P) : Exchange ι F → Prop
  | .clear => p.Quiet
  | .posted _ _ => p = .awake ∨ p.Quiet
  | .taken i pcm =>
    p = .taken ∨ p = .fetching ∨ p = .aimed (some i) ∨ p = .measured (some i) pcm.length
  | .scored r => p = .scored (r.prob M) ∨ p = .back (r.prob M)
  | .told _ => p = .delivered ∨ p.Quiet

/-- **What holds of the phases and the context.** -/
structure Held (ph : Role ι → Phase ι F P) (c : Context ι F P) : Prop where
  call : Guards Phase.Calling c.callMutex ph
  job : Guards Phase.Inside c.jobMutex ph
  audio : c.audio.length = M.window + M.nFft
  sound : c.fault = false
  stopped : ph .worker = .stopping ∨ ph .worker = .over → c.stop = true
  roused : ph .worker = .roused → c.meets .ready = true
  exchange : ∃ e : Exchange ι F, e.Shows M c ∧ e.Serves M (ph .worker) ∧
    ∀ i, Served e c i (ph (.caller i))

section Steps

variable {M} {ph : Role ι → Phase ι F P} {c c' : Context ι F P} {p p' : Phase ι F P} {i : ι}
  {e e' : Exchange ι F}

theorem Exchange.Shows.same (h : e.Shows M c) (hsame : c.Same c') : e.Shows M c' := by
  cases e with
  | clear => exact ⟨hsame.ready.trans h.1, hsame.log ▸ h.2⟩
  | posted i pcm => exact ⟨h.1.same hsame, hsame.log ▸ h.2⟩
  | taken i pcm => exact ⟨h.1.same hsame, hsame.log ▸ h.2⟩
  | scored r => exact ⟨h.1.same hsame, hsame.log ▸ h.2.1, hsame.last ▸ h.2.2⟩
  | told r =>
    exact ⟨h.1.same hsame, hsame.log ▸ h.2.1, hsame.prob.trans h.2.2.1, hsame.error.trans h.2.2.2⟩

/-- A score that is there was told. -/
theorem Exchange.Shows.told (h : e.Shows M c) (hdone : c.meets .done = true) {pcm : List F}
    (hjob : e.job = some (i, pcm)) : ∃ r, e = .told r := by
  have hdone : c.jobDone = true := hdone
  cases e with
  | clear => cases hjob
  | posted => exact absurd (hdone.symm.trans h.1.done) (by simp)
  | taken => exact absurd (hdone.symm.trans h.1.done) (by simp)
  | scored => exact absurd (hdone.symm.trans h.1.done) (by simp)
  | told r => exact ⟨r, rfl⟩

/-- Whoever calls and waits for nothing finds no job. -/
theorem Held.clear (h : Held M ph c) (hserved : ∀ i, Served e c i (ph (.caller i)))
    (hcalling : (ph (.caller i)).Calling) (hwaits : (ph (.caller i)).waits = none) :
    e = .clear := by
  cases hjob : e.job with
  | none => cases e <;> first | rfl | cases hjob
  | some job =>
    obtain ⟨j, pcm⟩ := job
    have hj := ((hserved j).waits pcm).2 hjob
    have hcalls : (ph (.caller j)).Calling := by
      cases hp : ph (.caller j) <;> simp [hp, Phase.waits, Phase.Calling] at hj ⊢
    obtain rfl := Role.caller.inj (h.call.eq hcalling hcalls)
    rw [hwaits] at hj
    cases hj

variable [DecidableEq ι]

/-! ### The steps of a caller -/

/-- A step of a caller beside the job. -/
theorem Held.aside (h : Held M ph c) (hsame : c.Same c') (haudio : c'.audio = c.audio)
    (hsound : c'.fault = c.fault) (hstop : c'.stop = c.stop)
    (hcall : Guards Phase.Calling c'.callMutex (Function.update ph (.caller i) p'))
    (hjob : Guards Phase.Inside c'.jobMutex (Function.update ph (.caller i) p'))
    (hothers : ∀ e j, j ≠ i → Served e c j (ph (.caller j)) → Served e c' j (ph (.caller j)))
    (hown : ∀ e : Exchange ι F, e.Shows M c → Served e c i (ph (.caller i)) → Served e c' i p') :
    Held M (Function.update ph (.caller i) p') c' := by
  obtain ⟨e, hshows, hserves, hserved⟩ := h.exchange
  have hworker : Function.update ph (.caller i) p' .worker = ph .worker :=
    Function.update_of_ne (by simp) ..
  refine ⟨hcall, hjob, haudio ▸ h.audio, hsound ▸ h.sound, ?_, ?_, e, hshows.same hsame,
    hworker ▸ hserves, served_update (fun j hji => hothers e j hji (hserved j))
      (hown e hshows (hserved i))⟩
  · rw [hworker, hstop]
    exact h.stopped
  · rw [hworker, Context.meets, hsame.ready, hstop]
    exact h.roused

/-- A step of a caller with the job in hand. -/
theorem Held.inside (h : Held M ph c) (e' : Exchange ι F) (hp : ph (.caller i) = p) (hin : p.Inside)
    (hcalling : p'.Calling ↔ p.Calling) (hin' : p'.Inside) (hcall : c'.callMutex = c.callMutex)
    (hjob : c'.jobMutex = c.jobMutex) (haudio : c'.audio = c.audio) (hfault : c'.fault = c.fault)
    (hstop : c'.stop = c.stop) (hsamples : c'.samples = c.samples)
    (hexchange : e'.Shows M c' ∧ e'.Serves M (ph .worker) ∧ Served e' c' i p')
    (hothers : ∀ j, j ≠ i → Served e c j (ph (.caller j)))
    (hsame : ∀ j, j ≠ i → ∀ pcm, e'.job = some (j, pcm) ↔ e.job = some (j, pcm)) :
    Held M (Function.update ph (.caller i) p') c' := by
  obtain ⟨hshows, hserves, hown⟩ := hexchange
  subst hp
  have hworker : Function.update ph (.caller i) p' .worker = ph .worker :=
    Function.update_of_ne (by simp) ..
  refine ⟨hcall ▸ h.call.keep hcalling, hjob ▸ h.job.keep (iff_of_true hin' hin), haudio ▸ h.audio,
    hfault ▸ h.sound, ?_, ?_, e', hshows, hworker ▸ hserves, served_update (fun j hji => ?_) hown⟩
  · rw [hworker, hstop]
    exact h.stopped
  · rw [hworker]
    intro hroused
    have heq : Role.worker = .caller i := h.job.eq (hroused ▸ trivial) hin
    cases heq
  · refine (hothers j hji).outside (fun hinside => ?_) (by rw [hsamples]) (hsame j hji)
    exact hji (Role.caller.inj (h.job.eq hinside hin))

/-- The caller is told what went wrong in its round. -/
theorem blame_told (r : Round ι F) (hprob : c.jobProb = r.prob M)
    (herror : c.jobError = r.error M) :
    M.blame c.jobProb (c.told M i (.caller i)) = r.error M := by
  unfold Context.told Model.blame
  split
  · rw [Function.update_self, herror]
  · rename_i hnegative
    rw [hprob] at hnegative
    exact (if_neg hnegative).symm

/-- **A step of a caller keeps what holds.** -/
theorem Held.caller (h : Held M ph c) (hp : ph (.caller i) = p)
    (hmove : Move M (.caller i) p c p' c') :
    Held M (Function.update ph (.caller i) p') c' := by
  have hother : ∀ {j}, j ≠ i → ∀ turn, Function.update c.samples i turn j = c.samples j :=
    fun hji _ => Function.update_of_ne hji ..
  cases hmove with
  | request turn =>
    refine h.aside ⟨rfl, rfl, rfl, rfl, rfl, rfl, rfl, rfl⟩ rfl rfl rfl (h.call.keep ?_)
      (h.job.keep ?_) (fun e j hji hj => hj.same (hother hji turn) rfl rfl)
      fun e _ hi => (hp ▸ hi).asks turn
    · rw [hp]
      rcases turn with _ | _ | ⟨x, xs⟩ <;> exact Iff.rfl
    · rw [hp]
      rcases turn with _ | _ | ⟨x, xs⟩ <;> exact Iff.rfl
  | @refuse _ _ message =>
    refine h.aside ⟨rfl, rfl, rfl, rfl, rfl, rfl, ?_, rfl⟩ rfl rfl rfl (h.call.keep (hp ▸ Iff.rfl))
      (h.job.keep (hp ▸ Iff.rfl)) (fun e j hji hj => hj.same (hother hji none) rfl rfl)
      fun e _ hi => (hp ▸ hi).ends rfl _
    show Function.update c.errors (.caller i) message .worker = c.errors .worker
    exact Function.update_of_ne (by simp) ..
  | answer =>
    exact h.aside ⟨rfl, rfl, rfl, rfl, rfl, rfl, rfl, rfl⟩ rfl rfl rfl (h.call.keep (hp ▸ Iff.rfl))
      (h.job.keep (hp ▸ Iff.rfl)) (fun e j hji hj => hj.same (hother hji none) rfl rfl)
      fun e _ hi => (hp ▸ hi).ends rfl _
  | lockCall hfree =>
    have hcall := h.call
    rw [hfree] at hcall
    refine h.aside ⟨rfl, rfl, rfl, rfl, rfl, rfl, rfl, rfl⟩ rfl rfl rfl (hcall.take trivial)
      (h.job.keep (hp ▸ Iff.rfl)) (fun e j hji hj => hj.same rfl rfl rfl) fun e _ hi => ?_
    rw [hp] at hi
    exact ⟨hi.holds, nofun, by simp, nofun, hi.waits, nofun⟩
  | unlockCall =>
    refine h.aside ⟨rfl, rfl, rfl, rfl, rfl, rfl, rfl, rfl⟩ rfl rfl rfl
      (h.call.give (hp ▸ trivial) id) (h.job.keep (hp ▸ Iff.rfl))
      (fun e j hji hj => hj.same rfl rfl rfl) fun e _ hi => ?_
    rw [hp] at hi
    exact ⟨nofun, nofun, by simp, nofun, hi.waits, nofun⟩
  | lockJob hdoes hfree =>
    have hjob := h.job
    rw [hfree] at hjob
    refine h.aside ⟨rfl, rfl, rfl, rfl, rfl, rfl, rfl, rfl⟩ rfl rfl rfl
      (h.call.keep (by rw [hp, Phase.locked_calling])) (hjob.take (Phase.locked_inside hdoes))
      (fun e j hji hj => hj.same rfl rfl rfl) fun e _ hi => ?_
    rw [hp] at hi
    cases p <;> cases hdoes
    exact ⟨hi.holds, nofun, by simp [Phase.locked], nofun, hi.waits, nofun⟩
  | unlockJob hdoes =>
    obtain ⟨hin, hout⟩ := Phase.unlocked_inside hdoes
    refine h.aside ⟨rfl, rfl, rfl, rfl, rfl, rfl, rfl, rfl⟩ rfl rfl rfl
      (h.call.keep (by rw [hp, Phase.unlocked_calling])) (h.job.give (hp ▸ hin) hout)
      (fun e j hji hj => hj.same rfl rfl rfl) fun e _ hi => ?_
    rw [hp] at hi
    cases p <;> cases hdoes
    exact ⟨nofun, nofun, by simp [Phase.unlocked], nofun, hi.waits, nofun⟩
  | notifyAll hdoes =>
    refine h.aside ⟨rfl, rfl, rfl, rfl, rfl, rfl, rfl, rfl⟩ rfl rfl rfl
      (h.call.keep (by rw [hp]; cases p <;> cases hdoes; exact Iff.rfl))
      (h.job.keep (by rw [hp]; cases p <;> cases hdoes; exact Iff.rfl))
      (fun e j hji hj => hj.same rfl rfl rfl) fun e _ hi => ?_
    rw [hp] at hi
    cases p <;> cases hdoes
    exact ⟨hi.holds, nofun, by simp [Phase.forward], nofun, hi.waits, nofun⟩
  | unmet hdoes =>
    obtain ⟨pcm, rfl, rfl⟩ := Phase.told_of_await hdoes
    refine h.aside ⟨rfl, rfl, rfl, rfl, rfl, rfl, rfl, rfl⟩ rfl rfl rfl
      (h.call.keep (by rw [hp]; exact Iff.rfl)) (h.job.give (hp ▸ trivial) id)
      (fun e j hji hj => hj.same rfl rfl rfl) fun e _ hi => ?_
    rw [hp] at hi
    exact ⟨hi.holds, nofun, by simp [Phase.awaited], nofun, hi.waits, nofun⟩
  | met hdoes hmet =>
    obtain ⟨pcm, rfl, rfl⟩ := Phase.told_of_await hdoes
    refine h.aside ⟨rfl, rfl, rfl, rfl, rfl, rfl, rfl, rfl⟩ rfl rfl rfl
      (h.call.keep (by rw [hp]; exact Iff.rfl)) (h.job.keep (by rw [hp]; exact Iff.rfl))
      (fun e j hji hj => hj.same rfl rfl rfl) fun e hshows hi => ?_
    rw [hp] at hi
    have htold := hshows.told hmet ((hi.waits pcm).1 rfl)
    exact ⟨hi.holds, nofun, by simp [Phase.awaited], nofun, hi.waits, fun _ _ => htold⟩
  | resume hdoes hfree hmet =>
    obtain ⟨pcm, rfl, rfl⟩ := Phase.waiting_of_resume hdoes
    have hjob := h.job
    rw [hfree] at hjob
    refine h.aside ⟨rfl, rfl, rfl, rfl, rfl, rfl, rfl, rfl⟩ rfl rfl rfl
      (h.call.keep (by rw [hp]; exact Iff.rfl)) (hjob.take trivial)
      (fun e j hji hj => hj.same rfl rfl rfl) fun e hshows hi => ?_
    rw [hp] at hi
    have htold := hshows.told hmet ((hi.waits pcm).1 rfl)
    exact ⟨hi.holds, nofun, by simp [Phase.forward], nofun, hi.waits, fun _ _ => htold⟩
  | setPcm =>
    obtain ⟨e, hshows, hserves, hserved⟩ := h.exchange
    obtain rfl := h.clear hserved (i := i) (hp ▸ trivial) (hp ▸ rfl)
    have hi := hserved i
    rw [hp] at hi
    exact h.inside .clear hp trivial Iff.rfl trivial rfl rfl rfl rfl rfl rfl
      ⟨hshows, hserves, hi.holds, nofun, fun _ _ => rfl, nofun, hi.waits, nofun⟩
      (fun j _ => hserved j) fun _ _ _ => Iff.rfl
  | setSamples =>
    obtain ⟨e, hshows, hserves, hserved⟩ := h.exchange
    obtain rfl := h.clear hserved (i := i) (hp ▸ trivial) (hp ▸ rfl)
    have hi := hserved i
    rw [hp] at hi
    refine h.inside .clear hp trivial Iff.rfl trivial rfl rfl rfl rfl rfl rfl
      ⟨hshows, hserves, hi.holds, nofun, fun _ _ => hi.pointed _ (.inl rfl), ?_, hi.waits, nofun⟩
      (fun j _ => hserved j) fun _ _ _ => Iff.rfl
    rintro pcm ⟨⟩
    rfl
  | @arm _ _ pcm =>
    obtain ⟨e, hshows, hserves, hserved⟩ := h.exchange
    obtain rfl := h.clear hserved (i := i) (hp ▸ trivial) (hp ▸ rfl)
    have hi := hserved i
    rw [hp] at hi
    obtain ⟨-, rounds, hlog⟩ := hshows
    refine h.inside (.posted i pcm) hp trivial Iff.rfl trivial rfl rfl rfl rfl rfl rfl
      ⟨⟨⟨rfl, rfl, hi.pointed _ (.inr rfl), hi.sized _ rfl⟩, rounds, ?_⟩, .inr hserves, hi.holds,
        nofun, by simp, nofun, fun pcm' => ?_, nofun⟩ (fun j _ => hserved j) fun j hji pcm' => ?_
    · show c.log ++ _ = _
      rw [hlog, List.append_nil]
    · constructor
      · rintro ⟨⟩
        rfl
      · rintro ⟨⟩
        rfl
    · constructor
      · rintro ⟨⟩
        exact absurd rfl hji
      · nofun
  | @collect _ _ pcm =>
    obtain ⟨e, hshows, hserves, hserved⟩ := h.exchange
    have hi := hserved i
    rw [hp] at hi
    obtain ⟨r, rfl⟩ := hi.woken pcm rfl
    obtain ⟨rfl, rfl⟩ := Prod.ext_iff.1 (Option.some.inj ((hi.waits pcm).1 rfl))
    obtain ⟨hopen, ⟨rounds, hlog⟩, hprob, herror⟩ := hshows
    -- the worker is out, so it has no job in hand
    have hquiet : (ph .worker).Quiet := by
      refine hserves.resolve_left fun hdelivered => ?_
      have heq : Role.worker = .caller r.caller := h.job.eq (hdelivered ▸ trivial) (hp ▸ trivial)
      cases heq
    rw [Context.collect_snd]
    refine h.inside .clear hp trivial Iff.rfl trivial rfl rfl rfl rfl rfl rfl
      ⟨⟨hopen.ready, rounds ++ [r], ?_⟩, hquiet, nofun, nofun, by simp, nofun, fun pcm => ?_, nofun⟩
      (fun j _ => hserved j) fun j hji pcm => ?_
    · show c.log ++ _ = _
      rw [hlog, blame_told r hprob herror, hprob, List.flatMap_append, List.append_assoc,
        List.append_nil]
      rfl
    · constructor <;> nofun
    · constructor
      · nofun
      · rintro heq
        exact absurd (congrArg Prod.fst (Option.some.inj heq)).symm hji

/-! ### The steps of the worker -/

/-- A step of the worker. -/
theorem Held.serve (h : Held M ph c) (e' : Exchange ι F) (hp : ph .worker = p)
    (hcalling : p'.Calling ↔ p.Calling) (hcall : c'.callMutex = c.callMutex)
    (hjob : Guards Phase.Inside c'.jobMutex (Function.update ph .worker p'))
    (haudio : c'.audio.length = M.window + M.nFft) (hsound : c'.fault = false)
    (hstopped : p' = .stopping ∨ p' = .over → c'.stop = true)
    (hroused : p' = .roused → c'.meets .ready = true) (hshows : e'.Shows M c')
    (hserves : e'.Serves M p') (hserved : ∀ i, Served e' c' i (ph (.caller i))) :
    Held M (Function.update ph .worker p') c' := by
  subst hp
  refine ⟨hcall ▸ h.call.keep hcalling, hjob, haudio, hsound, ?_, ?_, e', hshows, ?_, fun i => ?_⟩
  · rw [Function.update_self]
    exact hstopped
  · rw [Function.update_self]
    exact hroused
  · rw [Function.update_self]
    exact hserves
  · rw [Function.update_of_ne (by simp)]
    exact hserved i

/-- **The pass over a turn that is held.** -/
theorem stCompute_eq (haudio : c.audio.length = M.window + M.nFft) {pcm : List F}
    (hsamples : c.samples i = some pcm) (ran : Bool × Bool) :
    ∃ errors, stCompute M .worker (some i) pcm.length ran c =
      ((Round.mk i pcm ran (c.errors .worker)).prob M, { c with
        audio := M.padded pcm
        errors := errors
        log := c.log ++ [.computed i pcm ((Round.mk i pcm ran (c.errors .worker)).prob M)
          ((Round.mk i pcm ran (c.errors .worker)).error M)] }) ∧
      errors .worker = (failure ran).getD (c.errors .worker) := by
  unfold stCompute
  simp only [Option.bind_some, hsamples, Option.map_some, Nat.lt_irrefl, if_false,
    List.take_length, stAudio_eq_padded M haudio]
  cases hfailure : failure ran with
  | none => exact ⟨c.errors, by simp [Round.prob, Round.error, hfailure], rfl⟩
  | some message =>
    refine ⟨Function.update c.errors .worker message, ?_, Function.update_self ..⟩
    simp [Round.prob, Round.error, hfailure, Context.setError]

/-- **A step of the worker keeps what holds.** -/
theorem Held.worker (h : Held M ph c) (hp : ph .worker = p) (hmove : Move M .worker p c p' c') :
    Held M (Function.update ph .worker p') c' := by
  obtain ⟨e, hshows, hserves, hserved⟩ := h.exchange
  rw [hp] at hserves
  have hstay : ∀ i, (c'.samples i = c.samples i) → c'.jobPcm = c.jobPcm →
      c'.jobSamples = c.jobSamples → Served e c' i (ph (.caller i)) := fun i =>
    (hserved i).worked rfl fun r hr => ⟨r, hr⟩
  cases hmove with
  | keepJob hdoes hfree =>
    refine h.serve e hp (by cases p <;> cases hdoes <;> exact Iff.rfl) rfl
      (h.job.hold hfree ?_) h.audio h.sound ?_ ?_
      (hshows.same ⟨rfl, rfl, rfl, rfl, rfl, rfl, rfl, rfl⟩) ?_ fun i => hstay i rfl rfl rfl
    · cases p <;> cases hdoes <;> trivial
    · cases p <;> cases hdoes <;> simp [Phase.forward]
    · cases p <;> cases hdoes <;> simp [Phase.forward]
    · cases p <;> cases hdoes <;> cases e <;>
        simp [Exchange.Serves, Phase.Quiet, Phase.forward] at hserves ⊢
  | notifyAll hdoes =>
    obtain rfl : p = .delivered := by cases p <;> cases hdoes; rfl
    refine h.serve e hp Iff.rfl rfl (h.job.keep (by rw [hp]; exact Iff.rfl)) h.audio h.sound
      (by simp [Phase.forward]) (by simp [Phase.forward]) hshows ?_ hserved
    cases e <;> simp [Exchange.Serves, Phase.Quiet, Phase.forward] at hserves ⊢
  | met hdoes hmet =>
    obtain ⟨rfl, rfl⟩ := Phase.looking_of_await hdoes
    refine h.serve e hp Iff.rfl rfl (h.job.keep (by rw [hp]; exact Iff.rfl)) h.audio h.sound
      (by simp [Phase.awaited]) (fun _ => hmet) hshows ?_ hserved
    cases e <;> simp [Exchange.Serves, Phase.Quiet, Phase.awaited] at hserves ⊢
  | unmet hdoes =>
    obtain ⟨rfl, rfl⟩ := Phase.looking_of_await hdoes
    refine h.serve e hp Iff.rfl rfl (h.job.give (hp ▸ trivial) id) h.audio h.sound
      (by simp [Phase.awaited]) (by simp [Phase.awaited])
      (hshows.same ⟨rfl, rfl, rfl, rfl, rfl, rfl, rfl, rfl⟩) ?_ fun i => hstay i rfl rfl rfl
    cases e <;> simp [Exchange.Serves, Phase.Quiet, Phase.awaited] at hserves ⊢
  | resume hdoes hfree hmet =>
    obtain ⟨rfl, rfl⟩ := Phase.napping_of_resume hdoes
    have hjob := h.job
    rw [hfree] at hjob
    refine h.serve e hp Iff.rfl rfl (hjob.take trivial) h.audio h.sound
      (by simp [Phase.forward]) (fun _ => hmet)
      (hshows.same ⟨rfl, rfl, rfl, rfl, rfl, rfl, rfl, rfl⟩) ?_ fun i => hstay i rfl rfl rfl
    cases e <;> simp [Exchange.Serves, Phase.Quiet, Phase.forward] at hserves ⊢
  | getStop =>
    have hready := h.roused hp
    cases hstop : c.stop with
    | true =>
      refine h.serve e hp Iff.rfl rfl (h.job.keep (hp ▸ Iff.rfl)) h.audio h.sound (fun _ => hstop)
        (by simp [Phase.wakes]) hshows ?_ hserved
      cases e <;> simp [Exchange.Serves, Phase.Quiet, Phase.wakes] at hserves ⊢
    | false =>
      have hready : c.jobReady = true := by simpa [Context.meets, hstop] using hready
      refine h.serve e hp Iff.rfl rfl (h.job.keep (hp ▸ Iff.rfl)) h.audio h.sound
        (by simp [Phase.wakes]) (by simp [Phase.wakes]) hshows ?_ hserved
      cases e with
      | clear => exact absurd (hready.symm.trans hshows.1) (by simp)
      | posted => exact .inl rfl
      | told => exact absurd (hready.symm.trans hshows.1.ready) (by simp)
      | _ => simp [Exchange.Serves] at hserves
  | unlockJob hdoes =>
    obtain ⟨hin, hout⟩ := Phase.unlocked_inside hdoes
    refine h.serve e hp (by simp) rfl (h.job.give (hp ▸ hin) hout) h.audio h.sound ?_ ?_
      (hshows.same ⟨rfl, rfl, rfl, rfl, rfl, rfl, rfl, rfl⟩) ?_
      fun i => hstay i rfl rfl rfl
    · intro hover
      cases p <;> cases hdoes
      · exact h.stopped (.inl hp)
      · simp [Phase.unlocked] at hover
    · cases p <;> cases hdoes <;> simp [Phase.unlocked]
    · cases p <;> cases hdoes <;> cases e <;>
        simp [Exchange.Serves, Phase.Quiet, Phase.unlocked] at hserves ⊢
  | lockJob hdoes hfree =>
    have hjob := h.job
    rw [hfree] at hjob
    refine h.serve e hp (by simp) rfl (hjob.take (Phase.locked_inside hdoes)) h.audio h.sound ?_ ?_
      (hshows.same ⟨rfl, rfl, rfl, rfl, rfl, rfl, rfl, rfl⟩) ?_
      fun i => hstay i rfl rfl rfl
    · intro hover
      cases p <;> cases hdoes
      simp [Phase.locked] at hover
    · cases p <;> cases hdoes
      simp [Phase.locked]
    · cases p <;> cases hdoes
      cases e <;> simp [Exchange.Serves, Phase.Quiet, Phase.locked] at hserves ⊢
      exact hserves
  | clearReady =>
    cases e with
    | posted i pcm =>
      obtain ⟨hopen, hlog⟩ := hshows
      exact h.serve (.taken i pcm) hp Iff.rfl rfl (h.job.keep (hp ▸ Iff.rfl)) h.audio h.sound
        (by simp) (by simp) ⟨⟨rfl, hopen.done, hopen.aims, hopen.size⟩, hlog⟩ (.inl rfl)
        fun j => (hserved j).worked rfl (by simp) rfl rfl rfl
    | _ => simp [Exchange.Serves, Phase.Quiet] at hserves
  | getPcm =>
    cases e with
    | taken i pcm =>
      exact h.serve (.taken i pcm) hp Iff.rfl rfl (h.job.keep (hp ▸ Iff.rfl)) h.audio h.sound
        (by simp) (by simp) hshows (.inr (.inr (.inl (by rw [hshows.1.aims])))) hserved
    | _ => simp [Exchange.Serves, Phase.Quiet] at hserves
  | getSamples =>
    cases e with
    | taken i pcm =>
      obtain rfl : _ = some i := by simpa [Exchange.Serves] using hserves
      exact h.serve (.taken i pcm) hp Iff.rfl rfl (h.job.keep (hp ▸ Iff.rfl)) h.audio h.sound
        (by simp) (by simp) hshows (.inr (.inr (.inr (by rw [hshows.1.size])))) hserved
    | _ => simp [Exchange.Serves, Phase.Quiet] at hserves
  | compute ran =>
    cases e with
    | taken i pcm =>
      obtain ⟨rfl, rfl⟩ : _ = some i ∧ _ = pcm.length := by simpa [Exchange.Serves] using hserves
      obtain ⟨hopen, rounds, hlog⟩ := hshows
      have hheld := (hserved i).holds pcm (Phase.turn_of_waits (((hserved i).waits pcm).2 rfl))
      obtain ⟨errors, hcompute, hlast⟩ := stCompute_eq h.audio hheld ran
      rw [hcompute]
      refine h.serve (.scored ⟨i, pcm, ran, c.errors .worker⟩) hp Iff.rfl rfl
        (h.job.keep (hp ▸ Iff.rfl)) ?_ h.sound (by simp) (by simp)
        ⟨⟨hopen.ready, hopen.done, hopen.aims, hopen.size⟩, ⟨rounds, ?_⟩, ?_⟩ (.inl rfl)
        fun j => (hserved j).worked rfl (by simp) rfl rfl rfl
      · simp [Model.padded]
      · show c.log ++ _ = _
        rw [hlog, List.append_assoc]
        rfl
      · show M.blame _ (errors .worker) = _
        rw [hlast]
        rfl
    | _ => simp [Exchange.Serves, Phase.Quiet] at hserves
  | deliver =>
    cases e with
    | scored r =>
      obtain ⟨hopen, hlog, herror⟩ := hshows
      obtain rfl : _ = r.prob M := by simpa [Exchange.Serves] using hserves
      exact h.serve (.told r) hp Iff.rfl rfl (h.job.keep (hp ▸ Iff.rfl)) h.audio h.sound
        (by simp) (by simp) ⟨⟨hopen.ready, rfl, hopen.aims, hopen.size⟩, hlog, rfl, herror⟩ (.inl rfl)
        fun j => (hserved j).worked rfl (by simp) rfl rfl rfl
    | _ => simp [Exchange.Serves, Phase.Quiet] at hserves

/-! ### The steps of the owner -/

/-- **A step of the owner keeps what holds.** -/
theorem Held.owner (h : Held M ph c) (hp : ph .owner = p) (hmove : Move M .owner p c p' c') :
    Held M (Function.update ph .owner p') c' := by
  obtain ⟨e, hshows, hserves, hserved⟩ := h.exchange
  have hworker : Function.update ph .owner p' .worker = ph .worker :=
    Function.update_of_ne (by simp) ..
  have hcaller : ∀ i, Function.update ph .owner p' (.caller i) = ph (.caller i) := fun i =>
    Function.update_of_ne (by simp) ..
  have hheld : Guards Phase.Calling c'.callMutex (Function.update ph .owner p') →
      Guards Phase.Inside c'.jobMutex (Function.update ph .owner p') → c'.audio = c.audio →
      c'.fault = c.fault → (c.stop = true → c'.stop = true) →
      (c.meets .ready = true → c'.meets .ready = true) → e.Shows M c' →
      (∀ i, Served e c' i (ph (.caller i))) → Held M (Function.update ph .owner p') c' :=
    fun hcall hjob haudio hsound hstop hmeets hshows hserved => ⟨hcall, hjob, haudio ▸ h.audio,
      hsound ▸ h.sound, hworker ▸ fun hover => hstop (h.stopped hover),
      hworker ▸ fun hroused => hmeets (h.roused hroused), e, hshows, hworker ▸ hserves,
      fun i => hcaller i ▸ hserved i⟩
  have hstay : c.Same c' → e.Shows M c' := hshows.same
  cases hmove with
  | lockJob hdoes hfree =>
    have hjob := h.job
    rw [hfree] at hjob
    exact hheld (h.call.keep (by rw [hp, Phase.locked_calling]))
      (hjob.take (Phase.locked_inside hdoes)) rfl rfl id id
      (hstay ⟨rfl, rfl, rfl, rfl, rfl, rfl, rfl, rfl⟩)
      fun i => (hserved i).same rfl rfl rfl
  | unlockJob hdoes =>
    obtain ⟨hin, hout⟩ := Phase.unlocked_inside hdoes
    exact hheld (h.call.keep (by rw [hp, Phase.unlocked_calling])) (h.job.give (hp ▸ hin) hout)
      rfl rfl id id (hstay ⟨rfl, rfl, rfl, rfl, rfl, rfl, rfl, rfl⟩)
      fun i => (hserved i).same rfl rfl rfl
  | notifyAll hdoes =>
    obtain rfl : p = .ringing := by cases p <;> cases hdoes; rfl
    exact hheld (h.call.keep (by rw [hp]; exact Iff.rfl)) (h.job.keep (by rw [hp]; exact Iff.rfl))
      rfl rfl id id hshows hserved
  | met hdoes => cases p <;> cases hdoes
  | unmet hdoes => cases p <;> cases hdoes
  | resume hdoes => cases p <;> cases hdoes
  | setStop =>
    exact hheld (h.call.keep (hp ▸ Iff.rfl)) (h.job.keep (hp ▸ Iff.rfl)) rfl rfl (fun _ => rfl)
      (fun _ => Bool.or_true _) (hstay ⟨rfl, rfl, rfl, rfl, rfl, rfl, rfl, rfl⟩)
      fun i => (hserved i).same rfl rfl rfl

end Steps

end SmartTurn
end S2S
