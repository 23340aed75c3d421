/-
# What a step of the voice loop can do

Every action of a thread of `src/tools/s2s-cli.cpp`, from where its thread stands
to where it stands next and from a state of the process to the next one, each a
constructor: of the callback (`Air.Move`), of the writer (`Hand.Move`) and of the
reader (`Look.Move`).
-/

import S2S.Cli.Stand

namespace S2S
namespace Cli

open Json Agent Thread Conversation Client

variable {F : Type} {d d' : Desk F}

theorem exec_inj {α β : Type} {x y : α} {m m' : β} (h : some (x, m) = some (y, m')) :
    x = y ∧ m = m' := by
  cases h
  exact ⟨rfl, rfl⟩

/-! ### The callback -/

/-- **A step of the callback.** -/
inductive Air.Move : Air F → Desk F → Air F → Desk F → Prop
  | aside {s : Air F} {d : Desk F} (capture : Ring (F × F)) (periods : List (Period F)) :
      Air.Move s d s { d with capture := capture, periods := periods }
  | flush {d : Desk F} (hflush : d.flush = true) : Air.Move (.playing 0) d .flushing d
  | count {d : Desk F} : Air.Move .flushing d (.counted d.playback.availableRead) d
  | drops {d : Desk F} {n : ℕ} :
      Air.Move (.counted n) d (.dropped n) { d with playback := d.playback.seekRead n }
  | dropped {d : Desk F} {n : ℕ} :
      Air.Move (.dropped n) d .lowering { d with consumed := d.consumed + n }
  | lower {d : Desk F} : Air.Move .lowering d (.playing 0) { d with flush := false }
  | acquire {d : Desk F} {n k : ℕ} (hsome : d.playback.acquireRead k ≠ []) :
      Air.Move (.playing n) d (.chunk n (d.playback.acquireRead k)) d
  | commit {d : Desk F} {n : ℕ} {xs : List (ℕ × F)} (periods : List (Period F)) :
      Air.Move (.chunk n xs) d (.playing (n + xs.length))
        { d with
          playback := d.playback.commitRead xs.length, air := d.air ++ xs, periods := periods }
  | heard {d : Desk F} {n : ℕ} : Air.Move (.playing n) d (.told n) { d with heard := d.heard + n }
  | consumed {d : Desk F} {n : ℕ} :
      Air.Move (.told n) d (.playing 0) { d with consumed := d.consumed + n }

theorem Air.move_of_exec {s : Air F} {a : Act F} {x : a.Input} {r : a.Result} (hok : s.ok a)
    (hexec : exec .callback a x d = some (r, d')) : s.Move d (s.next a r) d' := by
  cases a with
  | period =>
    obtain ⟨-, rfl⟩ := exec_inj hexec
    exact .aside d.capture _
  | loadFlush =>
    obtain ⟨rfl, rfl⟩ := exec_inj hexec
    obtain rfl := hok
    cases hflush : d.flush with
    | false => exact .aside d.capture d.periods
    | true => exact .flush hflush
  | availableRead =>
    obtain ⟨rfl, rfl⟩ := exec_inj hexec
    obtain rfl := hok
    exact .count
  | seekRead n =>
    obtain ⟨-, rfl⟩ := exec_inj hexec
    obtain rfl := hok
    exact .drops
  | lowerFlush =>
    obtain ⟨-, rfl⟩ := exec_inj hexec
    obtain rfl := hok
    exact .lower
  | acquireRead k =>
    obtain ⟨rfl, rfl⟩ := exec_inj hexec
    obtain ⟨n, rfl⟩ := hok
    by_cases hnone : d.playback.acquireRead k = []
    · have hsame : (Air.playing n).next (.acquireRead k) (d.playback.acquireRead k) =
          .playing n := by
        rw [hnone]
        rfl
      rw [hsame]
      exact .aside d.capture d.periods
    · have hchunk : (Air.playing n).next (.acquireRead k) (d.playback.acquireRead k) =
          .chunk n (d.playback.acquireRead k) := by
        cases hxs : d.playback.acquireRead k with
        | nil => exact absurd hxs hnone
        | cons => rfl
      rw [hchunk]
      exact .acquire hnone
  | commitRead xs =>
    obtain ⟨-, rfl⟩ := exec_inj hexec
    obtain ⟨n, rfl⟩ := hok
    exact .commit _
  | addHeard n =>
    obtain ⟨-, rfl⟩ := exec_inj hexec
    obtain rfl := hok
    exact .heard
  | addConsumed n =>
    obtain ⟨-, rfl⟩ := exec_inj hexec
    rcases hok with rfl | rfl
    · exact .dropped
    · exact .consumed
  | acquireCapture n =>
    obtain ⟨-, rfl⟩ := exec_inj hexec
    exact .aside d.capture d.periods
  | commitCapture pairs =>
    obtain ⟨-, rfl⟩ := exec_inj hexec
    exact .aside _ _
  | _ => exact hok.elim

/-! ### The writer -/

/-- **A step of the writer**, while nobody stops the process. -/
inductive Hand.Move : Hand F → Desk F → Hand F → Desk F → Prop
  | event {d : Desk F} {f : Frame F} {coming : List (Frame F)} {decoded : List F}
      {e : ServerEvent F} (hcoming : d.coming = f :: coming)
      (harrives : arrives f decoded = some e) :
      Hand.Move .away d (.took e) { d with coming := coming, current := some f }
  | lock {d : Desk F} {e : ServerEvent F} (hfree : d.mutex = none) :
      Hand.Move (.took e) d (.holding e) { d with mutex := some .writer }
  | asks {d : Desk F} {e : ServerEvent F} (hbeside : ¬Beside e) (hcancelled : e ≠ .cancelled) :
      Hand.Move (.holding e) d ((Hand.holding e).asked d.context.answering) d
  | asksStill {d : Desk F} {e : ServerEvent F} :
      Hand.Move (.still e) d (cond d.context.answering (.closing e) (.shut e)) d
  | raise {s : Hand F} {d : Desk F} {e : ServerEvent F} (hs : s = .sure e ∨ s = .holding e) :
      Hand.Move s d (.raised e) { d with flush := true }
  | await {d : Desk F} {e : ServerEvent F} (hflush : d.flush = false) :
      Hand.Move (.raised e) d (.still e) d
  | hears {d : Desk F} {e : ServerEvent F} : Hand.Move (.closing e) d (.told e d.heard) d
  | close {d : Desk F} {e : ServerEvent F} {heard : ℕ} :
      Hand.Move (.told e heard) d (.shut e) (d.close heard false)
  | opening {d : Desk F} : Hand.Move (.shut .created) d (.opening d.heard) d
  | opened {d : Desk F} {heard : ℕ} :
      Hand.Move (.opening heard) d (.opened heard d.consumed) d
  | opens {d : Desk F} {heard consumed : ℕ} :
      Hand.Move (.opened heard consumed) d (.settled .created)
        { d with context := d.context.opened heard consumed, answer := d.answer + 1 }
  | unit {d : Desk F} {delta : Bytes} {textEnd : ℕ} (u : SpokenUnit) :
      Hand.Move (.sure (.spoken delta textEnd)) d (.settled (.spoken delta textEnd))
        { d with context := { d.context with units := d.context.units ++ [u] } }
  | acquire {d : Desk F} {pcm : Option (List F)} {n l : ℕ} :
      Hand.Move (.filling pcm n) d ((Hand.filling pcm n).offered l (d.playback.acquireWrite l)) d
  | commit {d : Desk F} {pcm : Option (List F)} {n k l : ℕ} {xs : List (ℕ × F)}
      (hxs : xs.length = min k l) (htags : ∀ p ∈ xs, p.1 = d.answer) :
      Hand.Move (.room pcm n k l) d (.filling pcm (n + k))
        { d with
          playback := (d.playback.fill xs).commitWrite xs.length, given := d.given ++ xs }
  | queued {d : Desk F} {pcm : Option (List F)} {n : ℕ} :
      Hand.Move (.filling pcm n) d (.settled (.audio pcm))
        { d with context := { d.context with queued := d.context.queued + n } }
  | user {d : Desk F} {item text : Bytes} :
      Hand.Move (.holding (.transcript text item)) d (.settled (.transcript text item))
        { d with context := d.context.user item text }
  | done {d : Desk F} : Hand.Move (.holding .done) d (.settled .done)
        { d with context := { d.context with answerDone := true } }
  | unlock {s : Hand F} {d : Desk F} (hdone : s.Done) :
      Hand.Move s d .away
        { d with taken := d.taken ++ d.current.toList, current := none, mutex := none }

theorem Hand.move_of_exec {s : Hand F} {a : Act F} {x : a.Input} {r : a.Result}
    (hstop : d.stop = false) (hok : s.ok a) (hexec : exec .writer a x d = some (r, d')) :
    s.Move d (s.next a r) d' := by
  cases a with
  | event =>
    obtain rfl := hok
    cases hcoming : d.coming with
    | nil => simp [exec, hcoming] at hexec
    | cons f coming =>
      cases harrives : arrives f x with
      | none =>
        simp only [exec, hcoming, harrives] at hexec
        cases hexec
      | some e =>
        simp only [exec, hcoming, harrives] at hexec
        obtain ⟨rfl, rfl⟩ := exec_inj hexec
        exact .event hcoming harrives
  | lock =>
    obtain ⟨e, rfl⟩ := hok
    simp only [exec] at hexec
    split_ifs at hexec with hheld
    obtain ⟨-, rfl⟩ := exec_inj hexec
    exact .lock (by simpa using hheld)
  | answering =>
    obtain ⟨rfl, rfl⟩ := exec_inj hexec
    rcases hok with ⟨e, rfl, hbeside, hcancelled⟩ | ⟨e, rfl⟩
    · exact .asks hbeside hcancelled
    · exact .asksStill
  | raiseFlush =>
    obtain ⟨-, rfl⟩ := exec_inj hexec
    rcases hok with rfl | rfl
    · exact .raise (.inl rfl)
    · exact .raise (.inr rfl)
  | awaitFlush =>
    obtain ⟨e, rfl⟩ := hok
    simp only [exec, hstop, Bool.not_false, Bool.and_true] at hexec
    split_ifs at hexec with hflush
    obtain ⟨-, rfl⟩ := exec_inj hexec
    exact .await (by simpa using hflush)
  | loadHeard =>
    obtain ⟨rfl, rfl⟩ := exec_inj hexec
    rcases hok with ⟨e, rfl⟩ | rfl
    · exact .hears
    · exact .opening
  | close heard =>
    obtain ⟨-, rfl⟩ := exec_inj hexec
    obtain ⟨e, rfl⟩ := hok
    exact .close
  | loadConsumed =>
    obtain ⟨rfl, rfl⟩ := exec_inj hexec
    obtain ⟨heard, rfl⟩ := hok
    exact .opened
  | opens heard consumed =>
    obtain ⟨-, rfl⟩ := exec_inj hexec
    obtain rfl := hok
    exact .opens
  | unit delta =>
    obtain ⟨-, rfl⟩ := exec_inj hexec
    obtain ⟨textEnd, rfl⟩ := hok
    exact .unit _
  | acquireWrite l =>
    obtain ⟨rfl, rfl⟩ := exec_inj hexec
    obtain ⟨pcm, n, rfl⟩ := hok
    exact .acquire
  | commitWrite pcm =>
    obtain ⟨-, rfl⟩ := exec_inj hexec
    obtain ⟨pcm', n, k, l, rfl, hlength⟩ := hok
    refine .commit (by simpa using hlength) ?_
    simp
  | queued n =>
    obtain ⟨-, rfl⟩ := exec_inj hexec
    obtain ⟨pcm, rfl⟩ := hok
    exact .queued
  | user item text =>
    obtain ⟨-, rfl⟩ := exec_inj hexec
    obtain rfl := hok
    exact .user
  | answerDone =>
    obtain ⟨-, rfl⟩ := exec_inj hexec
    obtain rfl := hok
    exact .done
  | unlock =>
    obtain ⟨-, rfl⟩ := exec_inj hexec
    exact .unlock hok
  | _ => exact hok.elim

/-! ### The reader -/

/-- **A step of the reader**, while nobody stops the process. -/
inductive Look.Move : Look → Desk F → Look → Desk F → Prop
  | aside {d : Desk F} (capture : Ring (F × F)) (sent : List (Sent F)) :
      Look.Move .away d .away { d with capture := capture, sent := sent }
  | lock {d : Desk F} (hfree : d.mutex = none) :
      Look.Move .away d .holding { d with mutex := some .reader }
  | ended {d : Desk F} : Look.Move .holding d
      (cond (d.context.answering && d.context.answerDone) .ended .shut) d
  | consumed {d : Desk F} : Look.Move .ended d (.saw d.consumed) d
  | played {d : Desk F} {consumed : ℕ} :
      Look.Move (.saw consumed) d (cond (d.context.played consumed) .still .shut) d
  | asks {d : Desk F} : Look.Move .still d (cond d.context.answering .closing .shut) d
  | hears {d : Desk F} : Look.Move .closing d (.told d.heard) d
  | close {d : Desk F} {heard : ℕ} : Look.Move (.told heard) d .shut (d.close heard true)
  | swap {d : Desk F} : Look.Move .shut d .shut { d with outbox := [] }
  | unlock {d : Desk F} : Look.Move .shut d .away { d with mutex := none }

theorem Look.move_of_exec {s : Look} {a : Act F} {x : a.Input} {r : a.Result} (hok : s.ok a)
    (hstop : d'.stop = false) (hexec : exec .reader a x d = some (r, d')) :
    s.Move d (s.next a r) d' := by
  cases a with
  | lock =>
    obtain rfl := hok
    simp only [exec] at hexec
    split_ifs at hexec with hheld
    obtain ⟨-, rfl⟩ := exec_inj hexec
    exact .lock (by simpa using hheld)
  | answerOver =>
    obtain ⟨rfl, rfl⟩ := exec_inj hexec
    obtain rfl := hok
    exact .ended
  | loadConsumed =>
    obtain ⟨rfl, rfl⟩ := exec_inj hexec
    obtain rfl := hok
    exact .consumed
  | played consumed =>
    obtain ⟨rfl, rfl⟩ := exec_inj hexec
    obtain rfl := hok
    exact .played
  | answering =>
    obtain ⟨rfl, rfl⟩ := exec_inj hexec
    obtain rfl := hok
    exact .asks
  | loadHeard =>
    obtain ⟨rfl, rfl⟩ := exec_inj hexec
    obtain rfl := hok
    exact .hears
  | close heard =>
    obtain ⟨-, rfl⟩ := exec_inj hexec
    obtain rfl := hok
    exact .close
  | swapOutbox =>
    obtain ⟨-, rfl⟩ := exec_inj hexec
    obtain rfl := hok
    exact .swap
  | unlock =>
    obtain ⟨-, rfl⟩ := exec_inj hexec
    obtain rfl := hok
    exact .unlock
  | loadStop =>
    obtain ⟨-, rfl⟩ := exec_inj hexec
    obtain rfl := hok
    exact .aside d.capture d.sent
  | connStopped =>
    obtain ⟨-, rfl⟩ := exec_inj hexec
    obtain rfl := hok
    exact .aside d.capture d.sent
  | raiseStop =>
    obtain ⟨-, rfl⟩ := exec_inj hexec
    exact absurd hstop (by simp)
  | connFrame frame =>
    obtain ⟨-, rfl⟩ := exec_inj hexec
    obtain rfl := hok
    exact .aside d.capture _
  | pairsAvailable =>
    obtain ⟨-, rfl⟩ := exec_inj hexec
    obtain rfl := hok
    exact .aside d.capture d.sent
  | acquirePairs n =>
    obtain ⟨-, rfl⟩ := exec_inj hexec
    obtain rfl := hok
    exact .aside d.capture d.sent
  | commitPairs pairs =>
    obtain ⟨-, rfl⟩ := exec_inj hexec
    obtain rfl := hok
    exact .aside _ d.sent
  | _ => exact hok.elim

end Cli
end S2S
