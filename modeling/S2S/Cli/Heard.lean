/-
# The list says what was heard

The voice loop of `src/tools/s2s-cli.cpp` on the frames of a connection of
`src/src/s2s-conversation.cpp`, each with its own threads in any order: every
answer that was closed was counted as heard exactly as far as the loudspeaker
played it, from its first sample on and before or after the close, and that is
the line the list of the model has of it (`heard_of_reaches`).

No counter is reset and no sample tells its answer.  It holds since the writer
waits for the callback to drop the queue, since the callback counts a sample as
heard before it counts it as consumed, and since a connection opens no answer
while another one sounds.
-/

import S2S.Cli.Held
import S2S.Conversation.Order

namespace S2S
namespace Cli

open Json Agent Thread Conversation Client

variable {F V S : Type}

/-! ### The frames of a connection -/

/-- **A connection opens an answer only where no other one sounds.** -/
theorem playable_of_reaches {P : Setup F V S} {c : Config _ (Conversation.Act F) _ (Memory F V)}
    (h : Reaches (connection P) c) : Playable (Conversation.frames c.mem.log) := by
  obtain ⟨states, hheld⟩ := Conversation.held_of_reaches h
  intro before after hframes
  rw [← notes_frame] at hframes
  obtain ⟨ns, ns', hsplit, hbefore, hafter⟩ := List.map_eq_append_iff.1 hframes
  obtain ⟨n, rest, rfl, hn, -⟩ := List.map_eq_cons_iff.1 hafter
  have hfits : n.Fits ns := hheld.orderly ns n rest hsplit
  have hopens : Openable ns n.pair := by
    unfold Note.Fits at hfits
    rw [hn] at hfits
    exact hfits
  rw [← hbefore]
  exact hopens.quiet

/-! ### The voice loop -/

section Runs

variable [Zero F] [DecidableEq F] {aec : Bool} {captureSize playbackSize : ℕ}
  {fs : List (Frame F)} {c : Config Role (Act F) Act.Result (Desk F)}

omit [Zero F] [DecidableEq F] in
/-- Nobody takes a stop back. -/
theorem stop_exec {role : Role} {a : Act F} {x : a.Input} {d d' : Desk F} {r : a.Result}
    (hexec : exec role a x d = some (r, d')) (hstop : d'.stop = false) : d.stop = false := by
  cases a with
  | raiseStop =>
    obtain ⟨-, rfl⟩ := exec_inj hexec
    cases hstop
  | event =>
    simp only [exec] at hexec
    split at hexec
    · cases hexec
    · obtain ⟨e, -, he⟩ := Option.map_eq_some_iff.1 hexec
      cases he
      exact hstop
  | lock =>
    simp only [exec] at hexec
    split_ifs at hexec
    cases hexec
    exact hstop
  | unlock =>
    obtain ⟨-, rfl⟩ := exec_inj hexec
    cases role <;> exact hstop
  | awaitFlush =>
    simp only [exec] at hexec
    split_ifs at hexec
    cases hexec
    exact hstop
  | _ =>
    obtain ⟨-, rfl⟩ := exec_inj hexec
    exact hstop

omit [DecidableEq F] in
theorem held_init (hsize : 0 < playbackSize) :
    Held fs (.playing 0) .away .away (.init aec captureSize playbackSize fs) where
  mutex role := by cases role <;> simp [Desk.init, standing, Stand.Inside, Hand.Inside]
  plays := ⟨Ring.sound_init hsize _, rfl, by simp, fun hdrops => hdrops.elim, by simp, by simp⟩
  accounts := ⟨by simp [Desk.init, Context.init], by simp [Desk.init, Context.init],
    by simp [Desk.init, Context.init], by simp [Desk.init, Context.init],
    fun _ => ⟨Ring.contents_init _ _, rfl⟩, by simp [Desk.init, Context.init],
    by simp [Desk.init], by simp [Desk.init], fun a => List.prefix_refl _⟩
  filed := ⟨by simp [Desk.init], by simp [Desk.init], by simp [Desk.init], rfl⟩
  flush := by simp [Desk.init]
  hand := trivial
  look := trivial
  takes := rfl
  frames := by simp [Desk.init]
  near := near_of_shut rfl

/-- **What is reached is held together**, unless it was stopped. -/
theorem held_of_reaches (hplayable : Playable fs) (hsize : 0 < playbackSize)
    (h : Reaches (cli aec captureSize playbackSize fs) c) (hstop : c.mem.stop = false) :
    ∃ s w l, Held fs s w l c.mem := by
  let tie : (Role → Stand F) → Desk F → Prop := fun states d =>
    d.stop = false → ∃ s w l, states = standing s w l ∧ Held fs s w l d
  have htie : ∃ states, tie states c.mem ∧
      (course aec captureSize playbackSize fs).At states c := by
    refine (course aec captureSize playbackSize fs).holds (fun _ => ?_) ?_ h
    · exact ⟨_, _, _, funext fun role => by cases role <;> rfl, held_init hsize⟩
    · intro states role a x r d d' hok htie hexec hstop
      obtain ⟨s, w, l, rfl, hheld⟩ := htie (stop_exec hexec hstop)
      cases role with
      | callback =>
        exact ⟨_, _, _, update_callback, hheld.callback (Air.move_of_exec hok hexec)⟩
      | writer =>
        exact ⟨_, _, _, update_writer,
          hheld.writer hplayable (Hand.move_of_exec (stop_exec hexec hstop) hok hexec)⟩
      | reader =>
        exact ⟨_, _, _, update_reader, hheld.reader (Look.move_of_exec hok hstop hexec)⟩
      | user =>
        obtain rfl : a = .raiseStop := hok
        obtain ⟨-, rfl⟩ := exec_inj hexec
        cases hstop
  obtain ⟨states, hheld, -⟩ := htie
  obtain ⟨s, w, l, -, hheld⟩ := hheld hstop
  exact ⟨s, w, l, hheld⟩

end Runs

/-- **The list of the model says what was heard**: of a connection in any state it can reach, and a
voice loop that took any of its frames and was not stopped, every answer that was closed was heard
exactly as far as the loudspeaker ever played it, one that was over to its end; what was played of
an answer is the front of what was queued of it; and the lines of the assistant are the ones of the
answers closed, in their order. -/
theorem heard_of_reaches [Zero F] [DecidableEq F] {P : Setup F V S}
    {server : Config _ (Conversation.Act F) _ (Memory F V)}
    (hserver : Reaches (connection P) server)
    {aec : Bool} {captureSize playbackSize : ℕ} {c : Config Role (Act F) Act.Result (Desk F)}
    (hc : Reaches (cli aec captureSize playbackSize (Conversation.frames server.mem.log)) c)
    (hsize : 0 < playbackSize) (hstop : c.mem.stop = false) :
    (∀ k ∈ c.mem.closings, k.Heard c.mem) ∧
      (∀ a, ofAnswer a c.mem.air <+: ofAnswer a c.mem.given) ∧
      assistants c.mem.context.history = linesOf c.mem.closings := by
  obtain ⟨s, w, l, hheld⟩ := held_of_reaches (playable_of_reaches hserver) hsize hc hstop
  exact ⟨hheld.filed.heard, hheld.accounts.front, hheld.filed.lines⟩

/-! ### A turn that is heard -/

/-- A microphone that hears `input` in every period, and frames of audio of one sample. -/
def plainCard (input : List ℕ) : (a : Act ℕ) → a.Input
  | .period => input
  | .event => [1]
  | .connStopped => false
  | .loadFlush | .availableRead | .seekRead _ | .lowerFlush | .acquireRead _ | .commitRead _
  | .addHeard _ | .addConsumed _ | .acquireCapture _ | .commitCapture _ | .lock | .unlock
  | .answering | .user _ _ | .unit _ | .queued _ | .answerDone | .raiseFlush | .awaitFlush
  | .loadHeard | .loadConsumed | .close _ | .opens _ _ | .acquireWrite _ | .commitWrite _
  | .loadStop | .answerOver | .played _ | .swapOutbox | .connFrame _ | .pairsAvailable
  | .acquirePairs _ | .commitPairs _ | .raiseStop => ()

/-- As many steps of one thread. -/
def turns (input : List ℕ) (role : Role) (n : ℕ) : List (Role × ((a : Act ℕ) → a.Input)) :=
  List.replicate n (role, plainCard input)

/-- The frames of a turn are taken, its sample is played, and the reader finds the answer over. -/
def heardOut : List (Role × ((a : Act ℕ) → a.Input)) :=
  turns [0] .writer 37 ++ turns [0] .callback 8 ++ turns [0] .reader 11

/-- The voice loop on the frames of a turn in loopback. -/
abbrev loopback : System Role (Act ℕ) Act.Input Act.Result (Desk ℕ) :=
  cli false 4 4 (Conversation.frames (Conversation.played _ _ throughGate_isSome).mem.log)

theorem heardOut_isSome : (play loopback loopback.start heardOut).isSome = true := by
  decide +kernel

/-- The turn, heard. -/
def heardTurn : Config Role (Act ℕ) Act.Result (Desk ℕ) :=
  (play loopback loopback.start heardOut).get heardOut_isSome

/-- Its answer was played to the end, and is in the list. -/
theorem heard_loopback : (∀ k ∈ heardTurn.mem.closings, k.Heard heardTurn.mem) ∧
    (∀ a, ofAnswer a heardTurn.mem.air <+: ofAnswer a heardTurn.mem.given) ∧
    assistants heardTurn.mem.context.history = linesOf heardTurn.mem.closings ∧
    linesOf heardTurn.mem.closings = [ascii "hello"] ∧
    (heardTurn.mem.closings.map fun k => (k.heard, k.queued, k.ended)) = [(1, 1, true)] := by
  have hheard : Reaches loopback heardTurn := Reaches.start.play (Option.some_get _).symm
  obtain ⟨hclosings, hfront, hlines⟩ := heard_of_reaches
    (Conversation.reaches_played throughGate_isSome) hheard (by decide) (by decide +kernel)
  exact ⟨hclosings, hfront, hlines, by decide +kernel, by decide +kernel⟩

end Cli
end S2S
