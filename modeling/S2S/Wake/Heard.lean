/-
# A turn that was never admitted

What the gate is for, over every interleaving of the four threads: no
transcript leaves the server and no answer is begun for a turn that
`conn_admit` did not let through.  The recognizer tells the client and the
responder of a turn only after the gate said yes to it (`mayTell`), no other
thread does either (`allowed_of_reaches`), and the responder only takes what it
was told.

`wake_gate` puts this next to the laws of the gate itself.
-/

import S2S.Conversation.Responder
import S2S.Thread.Trace
import S2S.Wake.Runs

namespace S2S
namespace Wake

open Json Update Conversation Thread

variable {F V S : Type}

/-- A move of a thread of a connection. -/
abbrev Step (F : Type) := Move Role (Act F) Act.Result

/-- `conn_admit` was asked about a turn with this transcript, and let it through. -/
def Admitted (trace : List (Step F)) (turnId : ℕ) (transcript : Bytes) : Prop :=
  ∃ role, (⟨role, .ask (.admits turnId transcript), true⟩ : Step F) ∈ trace

/-- A turn is only told to the client and to the responder once it was let through. -/
def mayTell (trace : List (Step F)) : Act F → Prop
  | .send (.transcript item text) => ∃ turnId, item = itemId turnId ∧ Admitted trace turnId text
  | .pushAnswer job => Admitted trace job.turnId job.transcript
  | _ => True

theorem lasting_mayTell : Lasting (mayTell (F := F)) := by
  intro trace trace' a hsub hmay
  cases a with
  | send f =>
    cases f with
    | transcript item text =>
      obtain ⟨turnId, hitem, role, hmem⟩ := hmay
      exact ⟨turnId, hitem, role, hsub hmem⟩
    | _ => trivial
  | pushAnswer job =>
    obtain ⟨role, hmem⟩ := hmay
    exact ⟨role, hsub hmem⟩
  | _ => trivial

/-! ### The recognizer -/

/-- The events of the session tell nothing of the kind. -/
theorem heeds_handOver (reports : List (Session.Report F)) (trace : List (Step F)) :
    Heeds .recognizer mayTell trace (handOver reports) := by
  induction reports generalizing trace with
  | nil => exact .done
  | cons r reports ih =>
    have hevent : ∀ trace, Heeds .recognizer mayTell trace (connOnSessionEvent r) := by
      intro trace
      unfold connOnSessionEvent
      split
      · exact .act trivial fun _ => .act trivial fun _ => .done
      · exact .act trivial fun _ => .act trivial fun _ => .done
      · exact .act trivial fun _ => .done
      · exact .done
      · exact .done
      · exact .act trivial fun _ => .done
      · exact .act trivial fun _ => .done
    refine .act trivial fun _ => (hevent _).bind lasting_mayTell fun _ => ?_
    exact .act trivial fun _ => ih _

theorem heeds_connRelease (turnId revision : ℕ) (trace : List (Step F)) :
    Heeds .recognizer mayTell trace (connRelease turnId revision) := by
  have hsession : ∀ (op : Session.Op F) (trace : List (Step F)),
      Heeds .recognizer mayTell trace (Conversation.session op) := fun op trace =>
    Heeds.act (a := Act.session op) trivial fun reports => heeds_handOver reports _
  refine .act trivial fun _ => (hsession _ _).bind lasting_mayTell fun _ => ?_
  exact .act trivial fun _ => .done

/-- **`conn_recognize`** tells of its turn behind the gate only. -/
theorem heeds_connRecognize (turn : TurnAudio F) (trace : List (Step F)) :
    Heeds .recognizer mayTell trace (connRecognize turn) := by
  refine .act trivial fun revised => ?_
  cases revised with
  | true => exact heeds_connRelease _ _ _
  | false =>
    refine .act trivial fun text => ?_
    cases text with
    | none => exact .act trivial fun _ => .act trivial fun _ => heeds_connRelease _ _ _
    | some transcript =>
      show Heeds _ _ _ (if transcript = [] then connRelease turn.turnId turn.revision else _)
      split_ifs with hempty
      · exact heeds_connRelease _ _ _
      · refine Heeds.act (a := Act.ask (.admits turn.turnId transcript)) trivial fun admitted => ?_
        cases admitted with
        | false => exact heeds_connRelease _ _ _
        | true =>
          -- The gate said yes: the move is in the trace from here on.
          refine .act ⟨turn.turnId, rfl, .recognizer, by simp⟩ fun _ => ?_
          exact .act ⟨.recognizer, by simp⟩ fun _ => .done

theorem heeds_connRecognizer : Heeds .recognizer mayTell [] (connRecognizer (F := F)) := by
  refine Heeds.act (a := Act.popQueue) trivial fun turn => ?_
  cases turn with
  | none => exact .done
  | some turn => exact (heeds_connRecognize turn _).bind lasting_mayTell fun _ => .done

/-! ### The responder -/

section Run

variable {P : Setup F V S}

/-- Only a push adds to the answers that wait. -/
theorem answers_exec {role : Role} {a : Act F} {x : a.Input} {m m' : Memory F V} {r : a.Result}
    (h : exec P role a x m = some (r, m')) {job : AnswerJob} (hjob : job ∈ m'.answers) :
    job ∈ m.answers ∨ a = .pushAnswer job := by
  by_cases hturns : a.OfTurns
  · cases a with
    | pushAnswer pushed =>
      obtain ⟨-, rfl⟩ := done_inj h
      exact (List.mem_append.1 hjob).imp id fun hmem => by rw [List.mem_singleton.1 hmem]
    | popAnswer =>
      rcases popAnswer_cases h with ⟨-, -, rfl⟩ | ⟨-, popped, answers, hanswers, -, rfl⟩
      · exact .inl hjob
      · exact .inl (hanswers ▸ List.mem_cons_of_mem _ hjob)
    | popQueue =>
      rcases popQueue_cases h with ⟨-, -, rfl⟩ | ⟨turn, queue, -, -, rfl⟩
      · exact .inl hjob
      · exact .inl hjob
    | lockSession =>
      obtain ⟨-, rfl⟩ := lockSession_cases h
      exact .inl hjob
    | session op =>
      obtain ⟨-, rfl⟩ := done_inj h
      obtain ⟨recognizing, answering, heq, -⟩ := apply_eq P.models role op m
      rw [heq] at hjob
      exact .inl hjob
    | opened turnId revision =>
      obtain ⟨opening, cancel, rfl, -⟩ := opened_cases h
      exact .inl hjob
    | unlockSession => obtain ⟨-, rfl⟩ := done_inj h; exact .inl hjob
    | returned => obtain ⟨-, rfl⟩ := done_inj h; exact .inl hjob
    | final turnId => obtain ⟨-, rfl⟩ := done_inj h; exact .inl hjob
    | enqueue turn => obtain ⟨-, rfl⟩ := done_inj h; exact .inl hjob
    | _ => exact hturns.elim
  · rw [congrArg TurnState.answers (turnState_exec hturns h)] at hjob
    exact .inl hjob

/-- What a pop of the responder hands back was waiting. -/
theorem popAnswer_exec {role : Role} {x : Unit} {m m' : Memory F V} {job : AnswerJob}
    (h : exec P role (.popAnswer : Act F) x m = some (some job, m')) : job ∈ m.answers := by
  rcases popAnswer_cases h with ⟨-, hnone, -⟩ | ⟨-, popped, answers, hanswers, hjob, -⟩
  · simp at hnone
  · rw [hanswers, Option.some.inj hjob]
    exact List.mem_cons_self

variable {c : Config Role (Act F) Act.Result (Memory F V)} {trace : List (Step F)}

/-- **The recognizer alone tells of a turn, behind the gate.** -/
theorem told_admitted (h : Traces (connection P) c trace) :
    ∀ before move after, trace = before ++ move :: after → mayTell before move.action := by
  intro before move after hsplit
  by_cases hrole : move.thread = .recognizer
  · exact h.permitted lasting_mayTell heeds_connRecognizer before move after hsplit hrole
  · -- Another thread takes no such action: it would not be allowed.
    induction h generalizing after with
    | start => simp at hsplit
    | @act c trace htrace role a next hprog x r m hexec ih =>
      rcases List.eq_nil_or_concat' after with rfl | ⟨after, last, rfl⟩
      · obtain ⟨rfl, hmove⟩ := List.append_inj' hsplit rfl
        obtain rfl := (List.cons.inj hmove).1
        have hallowed := allowed_of_reaches htrace.reaches hprog
        cases a with
        | send f =>
          cases f with
          | transcript item text => exact absurd (hallowed.frames.transcript item text rfl).1 hrole
          | _ => trivial
        | pushAnswer job => exact absurd hallowed.turns.1 hrole
        | _ => trivial
      · rw [← List.cons_append, ← List.append_assoc] at hsplit
        exact ih after (List.append_inj' hsplit rfl).1
    | again _ _ ih => exact ih after hsplit

/-- The answers that wait were let through. -/
theorem waiting_admitted (h : Traces (connection P) c trace) :
    ∀ job ∈ c.mem.answers, Admitted trace job.turnId job.transcript := by
  induction h with
  | start =>
    intro job hjob
    simp [System.start, connection, Memory.new] at hjob
  | @act c trace htrace role a next hprog x r m hexec ih =>
    intro job hjob
    rcases answers_exec hexec hjob with hold | rfl
    · obtain ⟨role', hmem⟩ := ih job hold
      exact ⟨role', List.mem_append_left _ hmem⟩
    · obtain ⟨role', hmem⟩ := told_admitted (htrace.act hprog hexec) trace _ [] rfl
      exact ⟨role', List.mem_append_left _ hmem⟩
  | again _ _ ih => exact ih

/-- **The responder takes a turn that was let through.** -/
theorem taken_admitted (h : Traces (connection P) c trace) {role : Role} {job : AnswerJob}
    (hjob : (⟨role, .popAnswer, some job⟩ : Step F) ∈ trace) :
    Admitted trace job.turnId job.transcript := by
  induction h with
  | start => simp at hjob
  | @act c trace htrace role' a next hprog x r m hexec ih =>
    rcases List.mem_append.1 hjob with hjob | hjob
    · obtain ⟨role'', hmem⟩ := ih hjob
      exact ⟨role'', List.mem_append_left _ hmem⟩
    · obtain ⟨rfl, heq⟩ := Move.mk.inj (List.mem_singleton.1 hjob)
      obtain ⟨rfl, hr⟩ := heq
      obtain rfl := eq_of_heq hr
      have hpop : exec P role .popAnswer x c.mem = some (some job, m) := hexec
      obtain ⟨role'', hmem⟩ := waiting_admitted htrace job (popAnswer_exec hpop)
      exact ⟨role'', List.mem_append_left _ hmem⟩
  | again _ _ ih => exact ih hjob

/-- **A turn that the gate never let through leaves no transcript and begins no answer.** -/
theorem unheard {turnId : ℕ} (h : Traces (connection P) c trace)
    (hnever : ∀ transcript, ¬Admitted trace turnId transcript) :
    (∀ role text r, (⟨role, .send (.transcript (itemId turnId) text), r⟩ : Step F) ∉ trace) ∧
      ∀ role job, (⟨role, .popAnswer, some job⟩ : Step F) ∈ trace → job.turnId ≠ turnId := by
  constructor
  · intro role text r hmem
    obtain ⟨before, after, hsplit⟩ := List.append_of_mem hmem
    obtain ⟨turnId', hitem, role', hadmitted⟩ := told_admitted h before _ after hsplit
    obtain rfl := itemId_injective hitem
    exact hnever text ⟨role', hsplit ▸ List.mem_append_left _ hadmitted⟩
  · rintro role job hmem rfl
    exact hnever _ (taken_admitted h hmem)

end Run

/-- **The law of the wake gate.**  Over every run of the gate, outside loopback: a turn that got
through gets through at every later revision; asleep, a turn other than the one let through last
gets through exactly by a wake phrase of its own, until a step wakes the assistant; with the gate
off and no call of the sleep tool since, every turn gets through.  And over every run of the
threads, a turn that was never let through leaves no transcript and begins no answer. -/
theorem wake_gate (setup : ConversationSetup) (P : Setup F V S) :
    (∀ before between turnId transcript revision,
      InOrder (before ++ .turn turnId transcript :: between ++ [.turn turnId revision]) →
      (gate setup before).admits turnId transcript = true →
      (connAdmit (gate setup (before ++ .turn turnId transcript :: between)) turnId revision).1 =
        true) ∧
    (∀ before sleeps between turnId transcript,
      FallsAsleep setup before sleeps →
      (∀ mid c rest, between = mid ++ c :: rest → ¬Wakes setup (before ++ sleeps :: mid) c) →
      (gate setup (before ++ sleeps :: between)).Guards →
      lastAdmitted setup (before ++ sleeps :: between) ≠ some turnId →
      (connAdmit (gate setup (before ++ sleeps :: between)) turnId transcript).1 =
        (gate setup (before ++ sleeps :: between)).hearsWake transcript) ∧
    (∀ before between turnId transcript,
      TurnedOff setup before →
      (∀ mid rest, between = mid ++ rest → (gate setup (before ++ mid)).mode = ascii "off") →
      .sleep ∉ between →
      (connAdmit (gate setup (before ++ between)) turnId transcript).1 = true) ∧
    ∀ (c : Config Role (Act F) Act.Result (Memory F V)) (trace : List (Step F)) (turnId : ℕ),
      Traces (connection P) c trace → (∀ transcript, ¬Admitted trace turnId transcript) →
      (∀ role text r, (⟨role, .send (.transcript (itemId turnId) text), r⟩ : Step F) ∉ trace) ∧
        ∀ role job, (⟨role, .popAnswer, some job⟩ : Step F) ∈ trace → job.turnId ≠ turnId :=
  ⟨fun _ _ _ _ _ horder hadmits => admitted_again horder hadmits,
    fun _ _ _ _ _ hsleeps hwakes hguards hother =>
      asleep_until_woken hsleeps hwakes hguards hother,
    fun _ _ _ _ hturned hoff hsleep => off_admits hturned hoff hsleep,
    fun _ _ _ htrace hnever => unheard htrace hnever⟩

end Wake
end S2S
