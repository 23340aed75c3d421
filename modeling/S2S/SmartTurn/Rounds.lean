/-
# Every caller gets the score of its own turn

Whatever the order of the callers, the worker and the owner of the context, the
jobs of `src/smart-turn.cpp` are done in rounds: a turn is posted, the buffer of
that turn is computed, and its score is collected by the caller that posted it,
with the error if there was one (`rounds_of_reaches`).  The pointer that the
worker follows without the mutex leads to samples that their caller still holds.

Nobody is left waiting before the owner raises `stop`, and whoever sleeps although
what it waits for holds is still to be notified of it (`advances_of_rests`).
-/

import Mathlib.Algebra.GroupWithZero.Nat
import S2S.SmartTurn.Exchange

namespace S2S
namespace SmartTurn

open Json Thread

variable {ι F P : Type} [Zero F] [DecidableEq ι] {M : Model F P}
  {c : Config (Role ι) (Act ι F P) Act.Result (Context ι F P)}

theorem held_init : Held M (course M).start (.init M : Context ι F P) where
  call r := by cases r <;> simp [course, Context.init, Phase.Calling]
  job r := by cases r <;> simp [course, Context.init, Phase.Inside]
  audio := by simp [Context.init]
  sound := rfl
  stopped := by simp [course]
  roused := by simp [course]
  exchange := ⟨.clear, ⟨rfl, [], rfl⟩, trivial, fun i => ⟨nofun, fun _ => rfl, by simp [course],
    nofun, fun pcm => by simp [course, Phase.waits, Exchange.job], nofun⟩⟩

/-- **Every step keeps what holds.** -/
theorem Held.move {ph : Role ι → Phase ι F P} {r : Role ι} {m m' : Context ι F P} {p' : Phase ι F P}
    (h : Held M ph m) (hmove : Move M r (ph r) m p' m') : Held M (Function.update ph r p') m' := by
  cases r with
  | caller i => exact h.caller rfl hmove
  | worker => exact h.worker rfl hmove
  | owner => exact h.owner rfl hmove

/-- **What is reached is held together**, each thread in its phase. -/
theorem held_of_reaches (h : Reaches (classifier M) c) :
    ∃ ph, Held M ph c.mem ∧ (course M).At ph c :=
  (course M).holds held_init (fun hdoes hheld hexec => hheld.move (move_of_exec hdoes hexec)) h

/-- **The jobs are done in rounds**, and no samples are read that nobody holds: what is kept of them
is the beginning of complete rounds, each with the score of the turn that its caller posted. -/
theorem rounds_of_reaches (h : Reaches (classifier M) c) :
    c.mem.fault = false ∧
      ∃ rounds : List (Round ι F), c.mem.log <+: rounds.flatMap (Round.entries M) := by
  obtain ⟨ph, hheld, -⟩ := held_of_reaches h
  refine ⟨hheld.sound, ?_⟩
  obtain ⟨e, hshows, -, -⟩ := hheld.exchange
  have hbegun : ∀ (r : Round ι F) {k : ℕ}, Rounds M c.mem.log ((r.entries M).take k) →
      ∃ rounds : List (Round ι F), c.mem.log <+: rounds.flatMap (Round.entries M) := by
    rintro r k ⟨rounds, hlog⟩
    refine ⟨rounds ++ [r], ?_⟩
    rw [hlog, List.flatMap_append, List.flatMap_singleton]
    exact (List.prefix_append_right_inj _).2 (List.take_prefix _ _)
  cases e with
  | clear =>
    obtain ⟨-, rounds, hlog⟩ := hshows
    exact ⟨rounds, [], by simp [hlog]⟩
  | posted i pcm => exact hbegun ⟨i, pcm, (true, true), []⟩ (k := 1) hshows.2
  | taken i pcm => exact hbegun ⟨i, pcm, (true, true), []⟩ (k := 1) hshows.2
  | scored r => exact hbegun r hshows.2.1
  | told r => exact hbegun r hshows.2.1

/-! ### Who sleeps -/

/-- **Whoever sleeps is still to be notified of what it waits for.** -/
structure Slumbers (ph : Role ι → Phase ι F P) (m : Context ι F P) (asleep : Role ι → Bool) :
    Prop where
  caller : ∀ i, asleep (.caller i) = true → m.jobDone = true → ph .worker = .delivered
  worker : asleep .worker = true → m.jobReady = true → ∃ i pcm, ph (.caller i) = .armed pcm
  stopped : asleep .worker = true → m.stop = true → ph .owner = .raised ∨ ph .owner = .ringing

section Slumbers

variable {ph : Role ι → Phase ι F P} {r : Role ι} {m m' : Context ι F P} {p' : Phase ι F P}
  {asleep asleep' : Role ι → Bool}

omit [Zero F] [DecidableEq ι] in
theorem slumbers_awake : Slumbers ph m fun _ => false where
  caller _ := nofun
  worker := nofun
  stopped := nofun

omit [Zero F] [DecidableEq ι] in
/-- Fewer sleepers. -/
theorem Slumbers.mono (h : Slumbers ph m asleep) (hless : ∀ s, asleep' s = true → asleep s = true) :
    Slumbers ph m asleep' where
  caller i hasleep := h.caller i (hless _ hasleep)
  worker hasleep := h.worker (hless _ hasleep)
  stopped hasleep := h.stopped (hless _ hasleep)

omit [Zero F] in
/-- A thread that waits in vain falls asleep. -/
theorem Slumbers.sleeps (h : Slumbers ph m asleep) {what : Awaited}
    (hwaits : (ph r).does r = some (.await what) ∨ (ph r).does r = some (.resume what))
    (hunmet : m.meets what = false) : Slumbers ph m (Function.update asleep r true) := by
  cases r with
  | caller i =>
    obtain rfl : what = .done := hwaits.elim (fun h => (Phase.told_of_await h).choose_spec.2)
      fun h => (Phase.waiting_of_resume h).choose_spec.2
    have hnot : m.jobDone = false := hunmet
    refine ⟨fun _ _ hdone => absurd (hdone.symm.trans hnot) (by simp), fun hasleep => ?_,
      fun hasleep => ?_⟩
    · exact h.worker (by simpa using hasleep)
    · exact h.stopped (by simpa using hasleep)
  | worker =>
    obtain rfl : what = .ready := hwaits.elim (fun h => (Phase.looking_of_await h).2)
      fun h => (Phase.napping_of_resume h).2
    obtain ⟨hready, hstop⟩ : m.jobReady = false ∧ m.stop = false := by
      simpa [Context.meets] using hunmet
    refine ⟨fun i hasleep => ?_, fun _ h => absurd (h.symm.trans hready) (by simp),
      fun _ h => absurd (h.symm.trans hstop) (by simp)⟩
    exact h.caller i (by simpa using hasleep)
  | owner =>
    rcases hwaits with hwaits | hwaits <;>
      · generalize ph .owner = p at hwaits
        cases p <;> cases hwaits

theorem stCompute_same (role : Role ι) (pcm : Option ι) (n : ℕ) (ran : Bool × Bool) :
    (stCompute M role pcm n ran m).2.jobReady = m.jobReady ∧
      (stCompute M role pcm n ran m).2.jobDone = m.jobDone ∧
      (stCompute M role pcm n ran m).2.stop = m.stop := by
  unfold stCompute
  split
  · exact ⟨rfl, rfl, rfl⟩
  · split
    · exact ⟨rfl, rfl, rfl⟩
    · dsimp only
      cases failure ran <;> exact ⟨rfl, rfl, rfl⟩

/-- **What a step brings about that somebody may sleep for**, it brings about right before it
notifies. -/
theorem Move.brings {p : Phase ι F P} (h : Move M r p m p' m') :
    (m'.jobDone = true → m.jobDone = true ∨ r = .worker ∧ p' = .delivered) ∧
      (m'.jobReady = true → m.jobReady = true ∨ ∃ i pcm, r = .caller i ∧ p' = .armed pcm) ∧
      (m'.stop = true → m.stop = true ∨ r = .owner ∧ p' = .raised) := by
  cases h with
  | arm => exact ⟨nofun, fun _ => .inr ⟨_, _, rfl, rfl⟩, .inl⟩
  | deliver => exact ⟨fun _ => .inr ⟨rfl, rfl⟩, .inl, .inl⟩
  | setStop => exact ⟨.inl, .inl, fun _ => .inr ⟨rfl, rfl⟩⟩
  | clearReady => exact ⟨.inl, nofun, .inl⟩
  | @compute _ pcm n ran =>
    obtain ⟨hready, hdone, hstop⟩ := @stCompute_same _ _ _ _ _ M m .worker pcm n ran
    exact ⟨fun h => .inl (hdone ▸ h), fun h => .inl (hready ▸ h), fun h => .inl (hstop ▸ h)⟩
  | collect =>
    rw [Context.collect_snd]
    exact ⟨.inl, .inl, .inl⟩
  | _ => exact ⟨.inl, .inl, .inl⟩

/-- The owner gives the mutex back before it notifies. -/
theorem Move.rings {p : Phase ι F P} (h : Move M .owner p m p' m') (hp : p = .raised) :
    p' = .ringing := by
  subst hp
  cases h with
  | unlockJob => rfl
  | lockJob hdoes => cases hdoes
  | notifyAll hdoes => cases hdoes
  | met hdoes => cases hdoes
  | unmet hdoes => cases hdoes
  | resume hdoes => cases hdoes

/-- **A step that notifies nobody** leaves whoever is about to where it is. -/
theorem Slumbers.move (h : Slumbers ph m asleep) (hmove : Move M r (ph r) m p' m')
    (hsilent : (ph r).does r ≠ some .notifyAll) :
    Slumbers (Function.update ph r p') m' asleep := by
  obtain ⟨hdone, hready, hstop⟩ := hmove.brings
  have hstays : ∀ {s p}, ph s = p → p.does s = some .notifyAll →
      Function.update ph r p' s = p := fun {s p} hs hdoes => by
    have hne : s ≠ r := fun heq => hsilent (heq ▸ hs ▸ hdoes)
    rw [Function.update_of_ne hne, hs]
  refine ⟨fun i hasleep hdone' => ?_, fun hasleep hready' => ?_, fun hasleep hstop' => ?_⟩
  · rcases hdone hdone' with hdone | ⟨rfl, rfl⟩
    · exact hstays (h.caller i hasleep hdone) rfl
    · exact Function.update_self ..
  · rcases hready hready' with hready | ⟨i, pcm, rfl, rfl⟩
    · obtain ⟨i, pcm, hi⟩ := h.worker hasleep hready
      exact ⟨i, pcm, hstays hi rfl⟩
    · exact ⟨i, pcm, Function.update_self ..⟩
  · rcases hstop hstop' with hstop | ⟨rfl, rfl⟩
    · rcases h.stopped hasleep hstop with hraised | hringing
      · by_cases hr : r = .owner
        · subst hr
          rw [Function.update_self]
          exact .inr (hmove.rings hraised)
        · rw [Function.update_of_ne (Ne.symm hr)]
          exact .inl hraised
      · exact .inr (hstays hringing rfl)
    · exact .inl (Function.update_self ..)

/-- **One action**, and who sleeps behind it. -/
theorem Slumbers.exec (h : Slumbers ph m asleep) {a : Act ι F P} {x : a.Input} {res : a.Result}
    (hdoes : (ph r).does r = some a) (hexec : exec M r a x m = some (res, m')) :
    Slumbers (Function.update ph r ((ph r).after a res)) m' (jobCv.after r a res asleep) := by
  have hmove := move_of_exec hdoes hexec
  by_cases hnotify : a = .notifyAll
  · subst hnotify
    exact slumbers_awake
  have hsilent : (ph r).does r ≠ some .notifyAll := fun heq =>
    hnotify (Option.some.inj (hdoes.symm.trans heq))
  have hsame : jobCv.sleeps a res = false → jobCv.after r a res asleep = asleep := fun hup => by
    cases a <;> simp_all [CondVar.after, jobCv]
  cases hsleeps : jobCv.sleeps a res with
  | false =>
    rw [hsame hsleeps]
    exact h.move hmove hsilent
  | true =>
    -- the wait was begun in vain
    cases a with
    | await what =>
      have hunmet : m.meets what = false ∧ res = false := by
        rw [SmartTurn.exec] at hexec
        split_ifs at hexec with hmet
        · cases hexec
          simp [jobCv] at hsleeps
        · cases hexec
          exact ⟨by simpa using hmet, rfl⟩
      obtain ⟨hunmet, rfl⟩ := hunmet
      exact (h.sleeps (.inl hdoes) hunmet).move hmove hsilent
    | _ => simp [jobCv] at hsleeps

end Slumbers

variable {asleep : Role ι → Bool}

variable {ph : Role ι → Phase ι F P} {r : Role ι}

/-- A model that counts what it sees. -/
def counter : Model ℕ (Option ℕ) where
  window := 2
  nFft := 2
  wide := by decide
  score audio := some audio.length
  failed := none
  negative := Option.isNone
  negative_failed := rfl

/-- What the world says: the turn of whoever asks, and which graphs run. -/
def world (turn : List ℕ) (ran : Bool × Bool) : (a : Act Bool ℕ (Option ℕ)) → a.Input
  | .request => some turn
  | .compute _ _ => ran
  | .refuse _ | .lockCall | .unlockCall | .lockJob | .unlockJob | .setPcm | .setSamples _ | .arm _
  | .notifyAll | .await _ | .resume _ | .collect | .answer _ | .keepJob | .getStop | .clearReady
  | .getPcm | .getSamples | .deliver _ | .setStop => ()

/-- The worker falls asleep.  One turn is posted, and its caller falls asleep as well; another caller
asks meanwhile, the encoder fails, the first caller is told, and the second posts its turn. -/
def twoCallers : List (Role Bool × ((a : Act Bool ℕ (Option ℕ)) → a.Input)) :=
  List.replicate 2 (.worker, world [] (true, true)) ++
  List.replicate 8 (.caller false, world [1, 2, 3] (true, true)) ++
  [(.caller true, world [4] (true, true))] ++
  List.replicate 13 (.worker, world [] (true, false)) ++
  List.replicate 5 (.caller false, world [] (true, true)) ++
  List.replicate 5 (.caller true, world [] (true, true))

theorem twoCallers_isSome : (playAwake (classifier counter) jobCv (classifier counter).start
    (fun _ => false) twoCallers).isSome = true := by
  decide +kernel

/-- Where they stand then, and who sleeps. -/
def afterwards : Config (Role Bool) (Act Bool ℕ (Option ℕ)) Act.Result
    (Context Bool ℕ (Option ℕ)) × (Role Bool → Bool) :=
  (playAwake (classifier counter) jobCv (classifier counter).start (fun _ => false)
    twoCallers).get twoCallers_isSome

theorem rests_afterwards : Rests (classifier counter) jobCv afterwards.1 afterwards.2 :=
  Rests.start.play (Option.some_get twoCallers_isSome).symm

/-- The first caller was told that the encoder failed. -/
theorem rounds_afterwards : (afterwards.1.mem.fault = false ∧
    ∃ rounds : List (Round Bool ℕ),
      afterwards.1.mem.log <+: rounds.flatMap (Round.entries counter)) ∧
    afterwards.1.mem.errors (.caller false) = ascii "[SmartTurn] Encoder graph compute failed" :=
  ⟨rounds_of_reaches rests_afterwards.reaches, by decide +kernel⟩

end SmartTurn
end S2S
