/-
# How the threads of a connection get along

The discipline of a connection: `Kept` is what every action keeps, `Allowed` when
a thread may take one.  Most of what a thread knows the others cannot change: who
holds the session sees it stand still (`held_exec`), a turn that was handed over
stays so (`knows_exec`), and a released one stays released (`released_exec`).
-/

import S2S.Conversation.Frames
import S2S.Conversation.Recognitions
import S2S.Thread.Discipline

namespace S2S
namespace Conversation

open Json Session Thread TurnState

variable {F V S : Type}

/-- **What every action keeps.** -/
structure Kept (m : Memory F V) : Prop where
  turns : Turns m.toTurnState (logged m.log)
  frames : Frames m.answers.length m.recognizing m.log
  stops : Stops m.stop m.log
  recognized : Recognitions m.toTurnState m.log

/-- **When a thread may take an action.**  A recognizer that sent a transcript does nothing before
it has handed it on. -/
structure Allowed (role : Role) (a : Act F) (m : Memory F V) : Prop where
  turns : TurnsAllow role a m
  frames : FramesAllow role a m
  stops : StopsAllow a m
  recognized : RecognitionsAllow role a m
  handed : role = .recognizer → (∀ job, a ≠ .pushAnswer job) → transcripts m.log = gives m.log

/-- The discipline of a connection. -/
def discipline (P : Setup F V S) : Discipline (connection P) where
  inv := Kept
  allowed := Allowed
  init := ⟨turns_new P, Frames.new, Stops.new, recognitions_new P⟩
  keeps h hallow hexec :=
    ⟨turns_keeps P h.turns hallow.turns hexec, frames_keeps P h.frames hallow.frames hexec,
      stops_keeps P h.stops hallow.stops hexec,
      recognitions_keeps P h.turns h.recognized hallow.turns hallow.recognized hexec⟩

theorem sendAllow_plain {m : Memory F V} (h : Kept m) (role : Role) {f : Frame F} (hf : f.Plain) :
    SendAllow role f m where
  bracket := by
    obtain ⟨b, hb⟩ := h.frames.bracket
    exact ⟨b, by rw [hb]; exact hf.frame b⟩
  sound := fun hs => absurd hs hf.not_sound
  created := fun heq => by rw [heq] at hf; exact hf.elim
  transcript := fun item text heq => by rw [heq] at hf; exact hf.elim
  answer := fun ha => absurd ha hf.not_ofAnswer

theorem recognitionsAllow_plain {role : Role} {f : Frame F} (hf : f.Plain) (m : Memory F V) :
    RecognitionsAllow role (.send f) m := by
  cases f with
  | transcript item text => exact hf.elim
  | _ => trivial

/-! ### A memory under the lock -/

/-- What the holder of the session lock sees of a memory. -/
structure Same (m m' : Memory F V) : Prop where
  session : m'.session = m.session
  sessionMutex : m'.sessionMutex = m.sessionMutex
  due : m'.due = m.due
  finalTurn : m'.finalTurn = m.finalTurn
  opening : m'.opening = m.opening
  logged : logged m'.log = logged m.log
  inPlace : ∀ p, m.InPlace p → m'.InPlace p
  entered : ∀ p, Entered m'.toTurnState m'.log p → Entered m.toTurnState m.log p
  placed : ∀ p, Placed m.toTurnState m.log p → Placed m'.toTurnState m'.log p

section Exec

variable {P : Setup F V S} {role : Role} {a : Act F} {x : a.Input} {m m' : Memory F V} {r : a.Result}

/-- What is recognized stays so. -/
theorem recognitions_mono (h : exec P role a x m = some (r, m')) {p : ℕ × ℕ}
    (hp : p ∈ recognitions m.log) : p ∈ recognitions m'.log := by
  rw [log_exec h, recognitions_append]
  exact List.mem_append_left _ hp

/-- Only a question for it recognizes anything. -/
theorem recognitions_exec (ha : ∀ turn, a ≠ .ask (.transcribe turn))
    (h : exec P role a x m = some (r, m')) : recognitions m'.log = recognitions m.log := by
  rw [log_exec h, recognitions_append]
  have hnone : recognitions (a.logs role m r) = [] := by
    cases a with
    | ask query =>
      cases query with
      | transcribe turn => exact absurd rfl (ha turn)
      | _ => rfl
    | popAnswer => cases r <;> rfl
    | _ => rfl
  rw [hnone, List.append_nil]

/-- An action on neither the turns nor the events leaves both. -/
theorem same_exec (hturns : ¬a.OfTurns) (hevent : ∀ r, a ≠ .callback r)
    (htranscribe : ∀ turn, a = .ask (.transcribe turn) → m.recognizing = some turn.pair)
    (h : exec P role a x m = some (r, m')) : Same m m' := by
  have hsame := turnState_exec hturns h
  have hlogged := logged_exec hevent h
  refine ⟨congrArg TurnState.session hsame, congrArg TurnState.sessionMutex hsame,
    congrArg TurnState.due hsame, congrArg TurnState.finalTurn hsame,
    congrArg TurnState.opening hsame, hlogged, fun p hp => ?_, fun p hp => ?_, fun p hp => ?_⟩
  · rw [hsame]
    exact hp
  · rw [hsame] at hp
    by_cases hask : ∃ turn, a = .ask (.transcribe turn)
    · obtain ⟨turn, rfl⟩ := hask
      have hadds : recognitions m'.log = recognitions m.log ++ [turn.pair] := by
        rw [log_exec h, recognitions_append]
        rfl
      unfold Entered at hp ⊢
      rw [hadds] at hp
      rcases hp with hp | hp
      · rcases List.mem_append.1 hp with hp | hp
        · exact .inl hp
        · rw [List.mem_singleton.1 hp]
          exact .inr (.inl (htranscribe turn rfl))
      · exact .inr hp
    · unfold Entered at hp ⊢
      rwa [recognitions_exec (fun turn heq => hask ⟨turn, heq⟩) h] at hp
  · rw [hsame]
    unfold Placed Settled at hp ⊢
    rw [hlogged]
    exact hp.imp_left fun hp => hp.imp_left (recognitions_mono h)

/-- **Nobody touches the turns of a session that another thread holds.** -/
theorem held_exec {holder : Role} (hother : role ≠ holder) (hmutex : m.sessionMutex = some holder)
    (hallow : Allowed role a m) (h : exec P role a x m = some (r, m')) : Same m m' := by
  have hnot : m.sessionMutex ≠ some role := by
    rw [hmutex]
    exact fun heq => hother (Option.some.inj heq).symm
  by_cases hturns : a.OfTurns
  · have hlogged : logged m'.log = logged m.log :=
      logged_exec (fun r hr => by rw [hr] at hturns; exact hturns) h
    have hallowed := hallow.turns
    cases a with
    | lockSession =>
      have hfree := (lockSession_cases h).1
      simp [hmutex] at hfree
    | unlockSession => exact absurd hallowed.1 hnot
    | session op => exact absurd hallowed.1 hnot
    | returned => exact absurd hallowed.1 hnot
    | opened turnId revision => exact absurd hallowed.1 hnot
    | final turnId => exact absurd hallowed.1 hnot
    | enqueue turn => exact absurd hallowed.1 hnot
    | popQueue =>
      rcases popQueue_cases h with ⟨-, -, rfl⟩ | ⟨turn, queue, hqueue, -, rfl⟩
      · exact ⟨rfl, rfl, rfl, rfl, rfl, rfl, fun _ hp => hp, fun _ hp => hp, fun _ hp => hp⟩
      · exact ⟨rfl, rfl, rfl, rfl, rfl, rfl, fun p =>
          (inPlace_popQueue (c := m.toTurnState) hqueue hallowed.2 p).1,
          fun _ => (entered_popQueue hqueue hallowed.2).1,
          fun _ => (placed_popQueue hqueue hallowed.2).2⟩
    | pushAnswer job =>
      have hrecognitions := recognitions_exec (by simp) h
      obtain ⟨-, rfl⟩ := done_inj h
      refine ⟨rfl, rfl, rfl, rfl, rfl, hlogged, fun p =>
        (inPlace_pushAnswer (c := m.toTurnState) hallowed.2 p).1, fun p hp => ?_, fun p hp => ?_⟩
      · unfold Entered at hp
        rw [hrecognitions] at hp
        exact Entered.of_rests (c := m.toTurnState) (m.answers ++ [job]) hp
      · refine Placed.append (Placed.rests hp fun q hq => ?_) _
        obtain rfl := Option.some.inj (hallowed.2.symm.trans hq)
        exact hallow.recognized
    | popAnswer =>
      have hrecognitions := recognitions_exec (by simp) h
      rcases popAnswer_cases h with ⟨-, -, rfl⟩ | ⟨-, job, answers, hanswers, -, rfl⟩
      · exact ⟨rfl, rfl, rfl, rfl, rfl, rfl, fun _ hp => hp, fun _ hp => hp, fun _ hp => hp⟩
      · refine ⟨rfl, rfl, rfl, rfl, rfl, hlogged, fun p =>
          (inPlace_popAnswer (c := m.toTurnState) hanswers hallowed.2 p).1, fun p hp => ?_,
          fun p hp => Placed.append hp _⟩
        unfold Entered at hp
        rw [hrecognitions] at hp
        exact hp
    | _ => exact hturns.elim
  · refine same_exec hturns (fun e he => ?_) (fun turn hask => ?_) h
    · subst he
      exact absurd hallow.turns.1 hnot
    · subst hask
      exact hallow.recognized.2.1

/-! ### What lasts -/

/-- A call of the session moves its turn as the grammar says. -/
theorem session_exec {op : Op F} (h : Kept m) {x : Unit} {r : List (Report F)}
    (hexec : exec P role (.session op) x m = some (r, m')) :
    (m'.opening = m.opening ∧ m'.finalTurn = m.finalTurn ∧ m'.sessionMutex = m.sessionMutex ∧
      m'.due = r) ∧
      ∃ t, m.session.turn.call op = some t ∧ t.reports r = some m'.session.turn := by
  obtain ⟨rfl, rfl⟩ := done_inj hexec
  have hcall := call_reports P.models h.turns.coherent op
  obtain ⟨recognizing, answering, heq, -⟩ := apply_eq P.models role op m
  rw [heq]
  exact ⟨⟨rfl, rfl, rfl, rfl⟩, hcall⟩

/-- Only a call changes the session, and only `opened` what opened last. -/
theorem turn_exec (hallow : Allowed role a m) (hcall : ∀ op, a ≠ .session op)
    (h : exec P role a x m = some (r, m')) :
    m'.session = m.session ∧ UpTo m.opening m'.opening := by
  by_cases hturns : a.OfTurns
  · cases a with
    | session op => exact absurd rfl (hcall op)
    | opened turnId revision =>
      have hnew := hallow.turns.2.2
      have hle : UpTo m.opening (turnId, revision) := by
        simp only [UpTo, opening]
        omega
      obtain ⟨opening, cancel, rfl, rfl, -⟩ := opened_cases h
      rw [if_pos (hnew.imp_right fun h => ⟨h.1, h.2.1⟩)]
      exact ⟨rfl, hle⟩
    | lockSession =>
      obtain ⟨-, rfl⟩ := lockSession_cases h
      exact ⟨rfl, UpTo.refl _⟩
    | popQueue =>
      rcases popQueue_cases h with ⟨-, -, rfl⟩ | ⟨turn, queue, -, -, rfl⟩
      · exact ⟨rfl, UpTo.refl _⟩
      · exact ⟨rfl, UpTo.refl _⟩
    | popAnswer =>
      rcases popAnswer_cases h with ⟨-, -, rfl⟩ | ⟨-, job, answers, -, -, rfl⟩
      · exact ⟨rfl, UpTo.refl _⟩
      · exact ⟨rfl, UpTo.refl _⟩
    | _ =>
      first
      | exact hturns.elim
      | (obtain ⟨-, rfl⟩ := done_inj h
         exact ⟨rfl, UpTo.refl _⟩)
  · have hsame := turnState_exec hturns h
    rw [hsame]
    exact ⟨rfl, UpTo.refl _⟩

/-- **What a connection knows it goes on knowing.** -/
theorem knows_exec {p : ℕ × ℕ} (h : Kept m) (hallow : Allowed role a m)
    (hexec : exec P role a x m = some (r, m')) (hp : m.Knows p) : m'.Knows p := by
  by_cases hcall : ∃ op, a = .session op
  · obtain ⟨op, rfl⟩ := hcall
    obtain ⟨⟨hopening, -⟩, t, hcall, hreports⟩ := session_exec h hexec
    exact ⟨hp.pos, hopening ▸ hp.upTo, (hp.behind.call hcall).reports hreports⟩
  · obtain ⟨hsession, hopening⟩ := turn_exec hallow (fun op heq => hcall ⟨op, heq⟩) hexec
    exact ⟨hp.pos, hp.upTo.trans hopening, hsession ▸ hp.behind⟩

/-- **What was released stays released.** -/
theorem released_exec {p : ℕ × ℕ} (h : Kept m) (hallow : Allowed role a m)
    (hexec : exec P role a x m = some (r, m')) (hp : Released p m.session.turn) :
    Released p m'.session.turn := by
  by_cases hcall : ∃ op, a = .session op
  · obtain ⟨op, rfl⟩ := hcall
    obtain ⟨-, t, hcall, hreports⟩ := session_exec h hexec
    exact (hp.call hcall).reports hreports
  · rw [(turn_exec hallow (fun op heq => hcall ⟨op, heq⟩) hexec).1]
    exact hp

/-- What is final stays final. -/
theorem final_exec {p : ℕ × ℕ} (hexec : exec P role a x m = some (r, m'))
    (hp : Final (logged m.log) p) : Final (logged m'.log) p := by
  rw [log_exec hexec, logged_append]
  exact hp.append _

/-- After a call that releases it, what was handed over is released. -/
theorem released_release {p : ℕ × ℕ} (h : Kept m) {x : Unit} {r : List (Report F)}
    (hexec : exec P role (.session (.release p.1 p.2)) x m = some (r, m')) (hp : m.Knows p) :
    Released p m'.session.turn := by
  obtain ⟨-, t, hcall, hreports⟩ := session_exec h hexec
  refine Released.reports ⟨hp.behind.call hcall, fun heq hstage => ?_⟩ hreports
  obtain ⟨hbefore, hother⟩ := owed_call hcall hstage
  rw [pair_call hcall] at heq
  obtain ⟨h₁, h₂⟩ := Prod.mk.inj heq
  exact hother (by rw [h₁, h₂])

end Exec

end Conversation
end S2S
