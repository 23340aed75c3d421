/-
# The frames of a connection

What the log of a connection keeps, whatever the threads do.  `Frames`: the
answers are told to the client one at a time, none before its transcript, and
sound comes of a turn that is final.  `Stops`: a stop that has returned was set.

`FramesAllow` and `StopsAllow` are when a thread may take an action for this to
stay so.
-/

import S2S.Conversation.Effects
import S2S.Prefixes

namespace S2S
namespace Conversation

open Json Session

variable {F V S : Type}

/-! ### What the client is told -/

/-- **What the frames keep**, `waiting` jobs in the answer queue. -/
structure Frames (waiting : ℕ) (recognizing : Option (ℕ × ℕ)) (log : List (Entry F)) : Prop where
  bracket : ∃ b, bracketOf log = some b
  sound : ∀ before role f after, log = before ++ .frame role f :: after → f.Sound →
    role = .responder ∧ ∃ p, answerOf before = some p ∧ Final (logged before) p
  told : ∀ l, l <+: log → created l ≤ transcripts l
  taken : takes log + waiting = gives log
  answered : created log ≤ takes log
  given : gives log ≤ transcripts log
  handed : recognizing = none → transcripts log = gives log

/-- When a thread may send a frame. -/
structure SendAllow (role : Role) (f : Frame F) (m : Memory F V) : Prop where
  bracket : ∃ b, (bracketOf m.log).bind (fun b => b.frame f) = some b
  sound : f.Sound → ∃ p, answerOf m.log = some p ∧ Final (logged m.log) p
  created : f = .created → created m.log < takes m.log
  transcript : ∀ item text, f = .transcript item text → role = .recognizer ∧ m.recognizing ≠ none
  answer : f.OfAnswer → role = .responder

/-- When a thread may take an action, as far as the frames are concerned. -/
def FramesAllow (role : Role) (a : Act F) (m : Memory F V) : Prop :=
  match a with
  | .send f => SendAllow role f m
  | .session (.release _ _) => role = .recognizer → transcripts m.log = gives m.log
  | .pushAnswer _ => transcripts m.log = gives m.log + 1
  | .popAnswer => bracketOf m.log = some .closed ∧ (m.stop = false → created m.log = takes m.log)
  | _ => True

namespace Frames

variable {waiting : ℕ} {recognizing : Option (ℕ × ℕ)} {log : List (Entry F)}
  (h : Frames waiting recognizing log)
include h

/-- Prefixes of an extended log. -/
theorem told_snoc {e : Entry F} (he : created (log ++ [e]) ≤ transcripts (log ++ [e])) :
    ∀ l, l <+: log ++ [e] → created l ≤ transcripts l := by
  intro l hl
  rcases List.prefix_concat_iff.1 hl with rfl | hl
  · exact he
  · exact h.told l hl

theorem sound_snoc {e : Entry F} (he : ∀ role f, e = .frame role f → f.Sound →
    role = .responder ∧ ∃ p, answerOf log = some p ∧ Final (logged log) p) :
    ∀ before role f after, log ++ [e] = before ++ .frame role f :: after → f.Sound →
      role = .responder ∧ ∃ p, answerOf before = some p ∧ Final (logged before) p := by
  intro before role f after hsplit hsound
  rcases split_snoc hsplit with ⟨-, rfl, he'⟩ | ⟨after', -, hlog⟩
  · exact he role f he'.symm hsound
  · exact h.sound before role f after' hlog hsound

theorem quiet {e : Entry F} (he : e.Quiet) : Frames waiting recognizing (log ++ [e]) where
  bracket := by
    rw [he.bracketOf]
    exact h.bracket
  sound := h.sound_snoc fun role f heq hsound =>
    absurd hsound (Frame.Plain.not_sound (by rw [heq] at he; exact he))
  told := h.told_snoc (by
    have := h.told log (List.prefix_refl log)
    rw [created_append, transcripts_append, he.created, he.transcripts]
    exact this)
  taken := by
    rw [takes_append, gives_append, he.takes, he.gives]
    exact h.taken
  answered := by
    rw [created_append, takes_append, he.created, he.takes]
    exact h.answered
  given := by
    rw [gives_append, transcripts_append, he.gives, he.transcripts]
    exact h.given
  handed := fun hr => by
    rw [gives_append, transcripts_append, he.gives, he.transcripts, h.handed hr]

theorem send {m : Memory F V} {role : Role} {f : Frame F} (hlog : m.log = log)
    (hrec : m.recognizing = recognizing) (hallow : SendAllow role f m) :
    Frames waiting recognizing (log ++ [.frame role f]) := by
  subst hlog
  have hsent := h.told m.log (List.prefix_refl _)
  have hgiven := h.given
  have hanswered := h.answered
  have htaken := h.taken
  have hbracket : ∃ b, bracketOf (m.log ++ [.frame role f]) = some b := by
    rw [bracketOf_snoc]
    exact hallow.bracket
  have hsound := h.sound_snoc (e := .frame role f) fun role' f' heq hs => by
    obtain ⟨rfl, rfl⟩ := Entry.frame.inj heq
    exact ⟨hallow.answer hs.ofAnswer, hallow.sound hs⟩
  cases f with
  | created =>
    have hlt := hallow.created rfl
    exact ⟨hbracket, hsound, h.told_snoc (by
      rw [created_append, transcripts_append]
      change created m.log + 1 ≤ transcripts m.log + 0
      omega), by rw [takes_append, gives_append]; exact htaken, by
      rw [created_append, takes_append]
      change created m.log + 1 ≤ takes m.log + 0
      omega, by rw [gives_append, transcripts_append]; exact hgiven,
      fun hr => by rw [gives_append, transcripts_append]; exact h.handed hr⟩
  | transcript item text =>
    have hbusy := (hallow.transcript item text rfl).2
    exact ⟨hbracket, hsound, h.told_snoc (by
      rw [created_append, transcripts_append]
      change created m.log + 0 ≤ transcripts m.log + 1
      omega), by rw [takes_append, gives_append]; exact htaken,
      by rw [created_append, takes_append]; exact hanswered, by
      rw [gives_append, transcripts_append]
      change gives m.log + 0 ≤ transcripts m.log + 1
      omega, fun hr => absurd (hrec.trans hr) hbusy⟩
  | _ =>
    exact ⟨hbracket, hsound, h.told_snoc (by rw [created_append, transcripts_append]; exact hsent),
      by rw [takes_append, gives_append]; exact htaken,
      by rw [created_append, takes_append]; exact hanswered,
      by rw [gives_append, transcripts_append]; exact hgiven,
      fun hr => by rw [gives_append, transcripts_append]; exact h.handed hr⟩

theorem pushAnswer (job : AnswerJob) (hsent : transcripts log = gives log + 1) :
    Frames (waiting + 1) none (log ++ [.gave job.turnId job.revision]) where
  bracket := by rw [bracketOf_snoc]; exact h.bracket
  sound := h.sound_snoc fun _ _ heq => by simp at heq
  told := h.told_snoc (by
    rw [created_append, transcripts_append]
    exact h.told log (List.prefix_refl log))
  taken := by
    have := h.taken
    rw [takes_append, gives_append]
    change takes log + 0 + (waiting + 1) = gives log + 1
    omega
  answered := by rw [created_append, takes_append]; exact h.answered
  given := by
    rw [gives_append, transcripts_append]
    change gives log + 1 ≤ transcripts log + 0
    omega
  handed := fun _ => by
    rw [gives_append, transcripts_append]
    change transcripts log + 0 = gives log + 1
    omega

end Frames

theorem Frames.popAnswer {waiting : ℕ} {recognizing : Option (ℕ × ℕ)} {log : List (Entry F)}
    (h : Frames (waiting + 1) recognizing log) (job : AnswerJob) :
    Frames waiting recognizing (log ++ [.took job.turnId job.revision]) where
  bracket := by rw [bracketOf_snoc]; exact h.bracket
  sound := h.sound_snoc fun _ _ heq => by simp at heq
  told := h.told_snoc (by
    rw [created_append, transcripts_append]
    exact h.told log (List.prefix_refl log))
  taken := by
    have := h.taken
    rw [takes_append, gives_append]
    change takes log + 1 + waiting = gives log + 0
    omega
  answered := by
    have := h.answered
    rw [created_append, takes_append]
    change created log + 0 ≤ takes log + 1
    omega
  given := by rw [gives_append, transcripts_append]; exact h.given
  handed := fun hr => by rw [gives_append, transcripts_append]; exact h.handed hr

theorem Frames.new : Frames 0 none ([] : List (Entry F)) where
  bracket := ⟨.closed, rfl⟩
  sound := fun before _ _ _ h => by simp at h
  told := fun l hl => by rw [List.prefix_nil.1 hl]; exact le_rfl
  taken := rfl
  answered := le_rfl
  given := le_rfl
  handed := fun _ => rfl

/-- **Every action keeps the frames**, taken when it is allowed. -/
theorem frames_keeps (P : Setup F V S) {role : Role} {a : Act F} {x : a.Input} {m m' : Memory F V}
    {r : a.Result} (h : Frames m.answers.length m.recognizing m.log)
    (hallow : FramesAllow role a m) (hexec : exec P role a x m = some (r, m')) :
    Frames m'.answers.length m'.recognizing m'.log := by
  have hlog := log_exec hexec
  -- An action with no entry or a quiet one, on neither queue of the responder.
  have hrest : m'.answers = m.answers → m'.recognizing = m.recognizing →
      (a.logs role m r = [] ∨ ∃ e, a.logs role m r = [e] ∧ e.Quiet) →
      Frames m'.answers.length m'.recognizing m'.log := by
    rintro hanswers hrec (hnone | ⟨e, hone, hquiet⟩)
    · rw [hanswers, hrec, hlog, hnone, List.append_nil]
      exact h
    · rw [hanswers, hrec, hlog, hone]
      exact h.quiet hquiet
  by_cases hturns : a.OfTurns
  · cases a with
    | session op =>
      obtain ⟨rfl, rfl⟩ := done_inj hexec
      have hanswers : (m.apply P.models role op).answers = m.answers := by
        unfold Memory.apply
        dsimp only
        split <;> rfl
      by_cases hrec : (m.apply P.models role op).recognizing = m.recognizing
      · exact hrest hanswers hrec (.inl rfl)
      · have hrelease : role = .recognizer ∧ ∃ t r, op = .release t r := by
          unfold Memory.apply at hrec
          dsimp only at hrec
          split at hrec
          · exact ⟨rfl, _, _, rfl⟩
          · exact absurd rfl hrec
          · exact absurd rfl hrec
        obtain ⟨rfl, t, r, rfl⟩ := hrelease
        rw [hanswers, hlog]
        change Frames m.answers.length none (m.log ++ [])
        rw [List.append_nil]
        exact ⟨h.bracket, h.sound, h.told, h.taken, h.answered, h.given, fun _ => hallow rfl⟩
    | popQueue =>
      rcases popQueue_cases hexec with ⟨-, rfl, rfl⟩ | ⟨turn, queue, -, rfl, rfl⟩
      · exact h
      · exact ⟨h.bracket, h.sound, h.told, h.taken, h.answered, h.given, fun hr => by simp at hr⟩
    | pushAnswer job =>
      obtain ⟨rfl, rfl⟩ := done_inj hexec
      have := h.pushAnswer job hallow
      rw [← List.length_singleton (a := job), ← List.length_append] at this
      exact this
    | popAnswer =>
      rcases popAnswer_cases hexec with ⟨-, rfl, rfl⟩ | ⟨-, job, answers, hanswers, rfl, rfl⟩
      · exact h
      · rw [hanswers] at h
        exact Frames.popAnswer h job
    | opened turnId revision =>
      obtain ⟨opening, cancel, rfl, -⟩ := opened_cases hexec
      exact hrest rfl rfl (.inl rfl)
    | lockSession =>
      obtain ⟨-, rfl⟩ := lockSession_cases hexec
      exact h
    | unlockSession => obtain ⟨rfl, rfl⟩ := done_inj hexec; exact h
    | returned => obtain ⟨rfl, rfl⟩ := done_inj hexec; exact h
    | final turnId => obtain ⟨rfl, rfl⟩ := done_inj hexec; exact h
    | enqueue turn => obtain ⟨rfl, rfl⟩ := done_inj hexec; exact h
    | _ => exact hturns.elim
  · have hsame := turnState_exec hturns hexec
    have hanswers : m'.answers = m.answers := congrArg TurnState.answers hsame
    have hrec : m'.recognizing = m.recognizing := congrArg TurnState.recognizing hsame
    cases a with
    | send f =>
      rw [hanswers, hrec, hlog]
      exact h.send rfl rfl hallow
    | ask query =>
      refine hrest hanswers hrec ?_
      cases hw : query.work with
      | none => exact .inl (by simp [Act.logs, hw])
      | some w => exact .inr ⟨.work w m.cancel, by simp [Act.logs, hw], trivial⟩
    | callback e => exact hrest hanswers hrec (.inr ⟨_, rfl, trivial⟩)
    | stopped => exact hrest hanswers hrec (.inr ⟨_, rfl, trivial⟩)
    | _ => first | exact absurd trivial hturns | exact hrest hanswers hrec (.inl rfl)

/-! ### A stop that returned -/

/-- A stop that has returned was set. -/
def Stops (stop : Bool) (log : List (Entry F)) : Prop := .stopped ∈ log → stop = true

/-- When a thread may take an action, as far as a stop is concerned. -/
def StopsAllow (a : Act F) (m : Memory F V) : Prop :=
  match a with
  | .stopped => m.stop = true
  | _ => True

theorem Stops.new : Stops false ([] : List (Entry F)) := by simp [Stops]

/-- Only the end of a stop says that it returned. -/
theorem stopped_logs (role : Role) {a : Act F} {m : Memory F V} {r : a.Result}
    (ha : a ≠ .stopped) : .stopped ∉ a.logs role m r := by
  cases a with
  | stopped => exact absurd rfl ha
  | ask query => cases hw : query.work <;> simp [Act.logs, hw]
  | popAnswer => cases r <;> simp [Act.logs]
  | _ => simp [Act.logs]

/-- **Every action keeps a stop that returned**, taken when it is allowed. -/
theorem stops_keeps (P : Setup F V S) {role : Role} {a : Act F} {x : a.Input} {m m' : Memory F V}
    {r : a.Result} (h : Stops m.stop m.log) (hallow : StopsAllow a m)
    (hexec : exec P role a x m = some (r, m')) : Stops m'.stop m'.log := by
  intro hstopped
  rw [log_exec hexec] at hstopped
  by_cases ha : a = .stopped
  · subst ha
    exact stop_exec hexec hallow
  · exact stop_exec hexec (h ((List.mem_append.1 hstopped).resolve_right (stopped_logs role ha)))

end Conversation
end S2S
