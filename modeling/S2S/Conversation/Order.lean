/-
# The order of what a client is told

Over every interleaving of the threads the frames of a connection keep to the
order of `S2S.Conversation.Notes` (`orderly_of_reaches`).  A client is told of a
start before the connection writes down what opened (`conn_on_session_event`),
and between its `response.created` and its first sound the responder takes the
lock of the session once (`conn_speak` releases its turn before it waits).  So
whoever was telling of a start then has written down what opened by the time the
responder waits, and a wait that lets an answer pass found nothing later than
what it answers.

The tie between the monitors of `S2S.Conversation.Gate` and the memory is put
together from one for each of them: `Spot.Holds`, `Relay.Holds`, `Stand.Holds`,
and `Ears` for what the client hears.
-/

import S2S.Conversation.Gate
import S2S.Conversation.Guarantees
import S2S.Conversation.Notes

namespace S2S
namespace Conversation

open Json Session Thread TurnState

variable {F V S : Type}

/-- The answer in flight, or the last one. -/
def Memory.answer (m : Memory F V) : ℕ × ℕ := (m.answerTurn, m.answerRevision)

/-- **Nothing of a turn is committed after it was final**: what was committed of it is no later
revision. -/
theorem upTo_of_final {t : Turn} {rs : List (Report F)} {p q : ℕ × ℕ} (h : Traced t rs)
    (hfinal : Final rs p) (hq : q ∈ commitsOf rs) (hturn : q.1 = p.1) : q.2 ≤ p.2 := by
  obtain ⟨items, hfollow, rfl⟩ := h
  obtain ⟨r, hr, hevent, rfl⟩ := hfinal
  obtain ⟨r', hr', hcommit, rfl⟩ := mem_commitsOf.1 hq
  obtain ⟨before, after, rfl⟩ := List.append_of_mem (mem_reportsOf.1 hr)
  obtain ⟨t₁, t₂, hmarks, hreport, -, hrest⟩ := follow_split hfollow
  obtain ⟨hmoves, hid, hrev⟩ := report_some hreport
  obtain ⟨hstage, rfl⟩ := hmoves.of_final hevent
  dsimp only at hid hrev
  rcases List.mem_append.1 (mem_reportsOf.1 hr') with hin | hin
  · have hpast : Earlier r'.pair (t₁.turnId, t₁.revision) ∨
        r'.pair = (t₁.turnId, t₁.revision) ∧ Handed t₁ :=
      hmarks.earlier _ (mem_commitsOf.2 ⟨r', mem_reportsOf.2 hin, hcommit, rfl⟩)
    rw [hid, hrev] at hpast
    rcases hpast with hearlier | ⟨hsame, -⟩
    · change r'.turnId = r.turnId at hturn
      unfold Earlier at hearlier
      simp only [Report.pair] at hearlier ⊢
      omega
    · rw [hsame]
      exact le_refl r.revision
  · rcases List.mem_cons.1 hin with hsame | hin
    · rw [Item.report.inj hsame, hevent] at hcommit
      simp at hcommit
    · have hpast : Past r.turnId ⟨.waiting, t₁.turnId, t₁.revision, t₁.floor⟩ :=
        .inr ⟨hid.symm, .inl rfl⟩
      have hlt := hpast.follow hrest hin (by simp [hcommit])
      change r'.turnId = r.turnId at hturn
      omega

/-! ### The events -/

/-- What a thread knows where it stands: some run shows the events that were handed over and those
that are left. -/
def Spot.Holds (role : Role) (m : Memory F V) : Spot F → Prop
  | .free => m.sessionMutex = some role → Traced m.session.turn (logged m.log ++ m.due)
  | .within r _ => m.sessionMutex = some role ∧ ∃ l rest, m.due = r :: rest ∧
      logged m.log = l ++ [r] ∧ Traced m.session.turn (logged m.log ++ rest)

/-- An action on the session or its lock. -/
def Act.OfLock : Act F → Prop
  | .lockSession => True
  | .unlockSession => True
  | .session _ => True
  | .callback _ => True
  | .returned => True
  | _ => False

section Exec

variable {P : Setup F V S} {role : Role} {a : Act F} {x : a.Input} {m m' : Memory F V} {r : a.Result}

/-- Any other action leaves the session as it is. -/
theorem lock_exec (ha : ¬a.OfLock) (h : exec P role a x m = some (r, m')) :
    m'.session = m.session ∧ m'.sessionMutex = m.sessionMutex ∧ m'.due = m.due ∧
      logged m'.log = logged m.log := by
  have hlogged := logged_exec (P := P) (fun e he => by rw [he] at ha; exact ha trivial) h
  by_cases hturns : a.OfTurns
  · cases a with
    | opened turnId revision =>
      obtain ⟨opening, cancel, rfl, -⟩ := opened_cases h
      exact ⟨rfl, rfl, rfl, hlogged⟩
    | popQueue =>
      rcases popQueue_cases h with ⟨-, -, rfl⟩ | ⟨turn, queue, -, -, rfl⟩
      · exact ⟨rfl, rfl, rfl, hlogged⟩
      · exact ⟨rfl, rfl, rfl, hlogged⟩
    | popAnswer =>
      rcases popAnswer_cases h with ⟨-, -, rfl⟩ | ⟨-, job, answers, -, -, rfl⟩
      · exact ⟨rfl, rfl, rfl, hlogged⟩
      · exact ⟨rfl, rfl, rfl, hlogged⟩
    | _ =>
      first
      | exact hturns.elim
      | exact absurd trivial ha
      | (obtain ⟨-, rfl⟩ := done_inj h
         exact ⟨rfl, rfl, rfl, hlogged⟩)
  · have hsame := turnState_exec hturns h
    exact ⟨congrArg TurnState.session hsame, congrArg TurnState.sessionMutex hsame,
      congrArg TurnState.due hsame, hlogged⟩

/-- Nobody takes the lock for somebody else. -/
theorem mutex_exec {holder : Role} (hother : role ≠ holder) (h : exec P role a x m = some (r, m'))
    (hmutex : m'.sessionMutex = some holder) : m.sessionMutex = some holder := by
  by_cases ha : a.OfLock
  · cases a with
    | lockSession =>
      obtain ⟨-, rfl⟩ := lockSession_cases h
      exact absurd (Option.some.inj hmutex) hother
    | unlockSession =>
      obtain ⟨-, rfl⟩ := done_inj h
      simp at hmutex
    | session op =>
      obtain ⟨-, rfl⟩ := done_inj h
      obtain ⟨recognizing, answering, heq, -⟩ := apply_eq P.models role op m
      rw [heq] at hmutex
      exact hmutex
    | callback e =>
      obtain ⟨-, rfl⟩ := done_inj h
      exact hmutex
    | returned =>
      obtain ⟨-, rfl⟩ := done_inj h
      exact hmutex
    | _ => exact ha.elim
  · rw [← (lock_exec ha h).2.1]
    exact hmutex

theorem Spot.Holds.same {holder : Role} {s : Spot F} (hsession : m'.session = m.session)
    (hmutex : m'.sessionMutex = m.sessionMutex) (hdue : m'.due = m.due)
    (hlogged : logged m'.log = logged m.log) (h : s.Holds holder m) : s.Holds holder m' := by
  cases s with
  | free =>
    intro hm
    rw [hsession, hlogged, hdue]
    exact h (hmutex ▸ hm)
  | within r started =>
    obtain ⟨hm, l, rest, hrest, hl, htraced⟩ := h
    exact ⟨hmutex.trans hm, l, rest, hdue.trans hrest, hlogged.trans hl, by
      rw [hsession, hlogged]; exact htraced⟩

/-- What the others do is not seen where a thread stands. -/
theorem Spot.Holds.other {holder : Role} {s : Spot F} (hother : role ≠ holder)
    (hallow : Allowed role a m) (hexec : exec P role a x m = some (r, m')) (h : s.Holds holder m) :
    s.Holds holder m' := by
  have hheld : m.sessionMutex = some holder → s.Holds holder m' := fun hm => by
    have hsame := held_exec hother hm hallow hexec
    exact h.same hsame.session hsame.sessionMutex hsame.due hsame.logged
  cases s with
  | free =>
    intro hm
    exact hheld (mutex_exec hother hexec hm) hm
  | within r started => exact hheld h.1

/-- **A thread goes from spot to spot.** -/
theorem Spot.Holds.act {s : Spot F} (hm : Kept m) (hallow : Allowed role a m) (hok : s.ok a)
    (hexec : exec P role a x m = some (r, m')) (h : s.Holds role m) : (s.next a).Holds role m' := by
  by_cases ha : a.OfLock
  · cases a with
    | lockSession =>
      obtain ⟨hfree, rfl⟩ := lockSession_cases hexec
      have hdue := hm.turns.idle hfree
      cases s with
      | free =>
        intro _
        show Traced m.session.turn (logged m.log ++ m.due)
        rw [hdue, List.append_nil]
        exact hm.recognized.traced hdue
      | within e started =>
        have hheld := h.1
        rw [hfree] at hheld
        simp at hheld
    | unlockSession =>
      obtain ⟨-, rfl⟩ := done_inj hexec
      obtain rfl := hok
      intro hheld
      simp at hheld
    | session op =>
      obtain rfl := hok
      obtain ⟨⟨-, -, -, hdue⟩, t, hcall, hreports⟩ := session_exec (x := x) hm hexec
      have hlogged : logged m'.log = logged m.log := (logged_exec (by simp) hexec)
      intro _
      rw [hlogged, hdue]
      exact ((hm.recognized.traced hallow.turns.2.1).call hcall).reports hreports
    | callback e =>
      obtain rfl := hok
      obtain ⟨rest, hdue⟩ := hallow.recognized
      have htraced := h hallow.turns.1
      obtain ⟨-, rfl⟩ := done_inj hexec
      have hlogged : logged (m.record (.report e)).log = logged m.log ++ [e] := by
        simp [Memory.record]
      refine ⟨hallow.turns.1, logged m.log, rest, hdue, hlogged, ?_⟩
      rw [hlogged, List.append_assoc, List.singleton_append, ← hdue]
      exact htraced
    | returned =>
      obtain ⟨e, rfl⟩ := hok
      obtain ⟨hheld, l, rest, hdue, hl, htraced⟩ := h
      obtain ⟨-, rfl⟩ := done_inj hexec
      intro _
      show Traced m.session.turn (logged m.log ++ m.due.tail)
      rw [hdue]
      exact htraced
    | _ => exact ha.elim
  · obtain ⟨hsession, hmutex, hdue, hlogged⟩ := lock_exec ha hexec
    have hsame := h.same hsession hmutex hdue hlogged
    cases a with
    | send f =>
      cases f with
      | speechStarted => cases s <;> exact hsame
      | _ => exact hsame
    | opened turnId revision => cases s <;> exact hsame
    | _ => first | exact absurd trivial ha | exact hsame

end Exec

/-- The reports so far are those of some run, and there is more of it. -/
theorem traced_of_spots {m : Memory F V} (hm : Kept m) {spots : Role → Spot F}
    (h : ∀ i, (spots i).Holds i m) : ∃ t rest, Traced t (logged m.log ++ rest) := by
  cases hmutex : m.sessionMutex with
  | none =>
    refine ⟨m.session.turn, [], ?_⟩
    rw [List.append_nil]
    exact hm.recognized.traced (hm.turns.idle hmutex)
  | some i =>
    have hi := h i
    cases hspot : spots i with
    | free =>
      rw [hspot] at hi
      exact ⟨_, _, hi hmutex⟩
    | within e started =>
      rw [hspot] at hi
      obtain ⟨-, l, rest, -, -, htraced⟩ := hi
      exact ⟨_, _, htraced⟩

/-! ### The transcripts -/

/-- What the recognizer knows where it stands: every transcript but one that it just told is handed
on. -/
def Relay.Holds (log : List (Entry F)) : Relay → Prop
  | .idle => gaves log = heard log
  | .asked p => (recognitions log).getLast? = some p ∧ gaves log = heard log
  | .told p => heard log = gaves log ++ [p]

/-- An action on the recognitions, the transcripts or what is handed on. -/
def Act.OfRelay : Act F → Prop
  | .ask (.transcribe _) => True
  | .send (.transcript _ _) => True
  | .pushAnswer _ => True
  | _ => False

theorem Relay.Holds.gaves_prefix {log : List (Entry F)} {s : Relay} (h : s.Holds log) :
    gaves log <+: heard log := by
  cases s with
  | idle => exact h ▸ List.prefix_refl _
  | asked p => exact h.2 ▸ List.prefix_refl _
  | told p => exact ⟨[p], h.symm⟩

section Exec

variable {P : Setup F V S} {role : Role} {a : Act F} {x : a.Input} {m m' : Memory F V} {r : a.Result}

theorem relay_exec (ha : ¬a.OfRelay) (h : exec P role a x m = some (r, m')) :
    recognitions m'.log = recognitions m.log ∧ heard m'.log = heard m.log ∧
      gaves m'.log = gaves m.log := by
  rw [log_exec h, recognitions_append, heard_append, gaves_append]
  suffices hnone : recognitions (a.logs role m r) = [] ∧
      (∀ last, heardFrom last (a.logs role m r) = []) ∧ gaves (a.logs role m r) = [] by
    rw [hnone.1, hnone.2.1, hnone.2.2]
    simp
  cases a with
  | ask query =>
    cases query with
    | transcribe turn => exact absurd trivial ha
    | _ => exact ⟨rfl, fun _ => rfl, rfl⟩
  | send f =>
    cases f with
    | transcript item text => exact absurd trivial ha
    | _ => exact ⟨rfl, fun _ => rfl, rfl⟩
  | popAnswer => cases r <;> exact ⟨rfl, fun _ => rfl, rfl⟩
  | pushAnswer job => exact absurd trivial ha
  | _ => exact ⟨rfl, fun _ => rfl, rfl⟩

/-- Only the recognizer takes such an action. -/
theorem recognizer_of_relay (ha : a.OfRelay) (hallow : Allowed role a m) : role = .recognizer := by
  cases a with
  | ask query =>
    cases query with
    | transcribe turn => exact hallow.recognized.1
    | _ => exact ha.elim
  | send f =>
    cases f with
    | transcript item text => exact (hallow.frames.transcript item text rfl).1
    | _ => exact ha.elim
  | pushAnswer job => exact hallow.turns.1
  | _ => exact ha.elim

/-- Only a frame tells of a recognition. -/
theorem heard_quiet (ha : ∀ f, a ≠ .send f) (h : exec P role a x m = some (r, m')) :
    heard m'.log = heard m.log := by
  rw [log_exec h, heard_append]
  have hnone : ∀ last, heardFrom last (a.logs role m r) = [] := fun last => by
    cases a with
    | ask query => cases query <;> rfl
    | send f => exact absurd rfl (ha f)
    | popAnswer => cases r <;> rfl
    | _ => rfl
  rw [hnone, List.append_nil]

theorem Relay.Holds.same {s : Relay} (ha : ¬a.OfRelay) (hexec : exec P role a x m = some (r, m'))
    (h : s.Holds m.log) : s.Holds m'.log := by
  obtain ⟨hrec, hheard, hgaves⟩ := relay_exec ha hexec
  unfold Relay.Holds
  rw [hrec, hheard, hgaves]
  exact h

/-- **The recognizer goes on.** -/
theorem Relay.Holds.act {s : Relay} (hok : s.ok a) (hexec : exec P role a x m = some (r, m'))
    (h : s.Holds m.log) : (s.next a).Holds m'.log := by
  by_cases ha : a.OfRelay
  · have hlog := log_exec hexec
    cases a with
    | ask query =>
      cases query with
      | transcribe turn =>
        have hgaves : gaves m.log = heard m.log := by
          cases s with
          | idle => exact h
          | asked p => exact h.2
          | told p => exact absurd rfl (hok p)
        refine ⟨?_, ?_⟩
        · rw [hlog, recognitions_append]
          exact List.getLast?_append_of_ne_nil _ (by simp [Act.logs, Query.work, recognitions])
        · rw [hlog, gaves_append, heard_append, hgaves]
          rfl
      | _ => exact ha.elim
    | send f =>
      cases f with
      | transcript item text =>
        obtain ⟨p, rfl, -⟩ := hok
        show heard m'.log = gaves m'.log ++ [p]
        rw [hlog, heard_append, gaves_append, h.1, h.2]
        simp [Act.logs, heardFrom, gaves]
      | _ => exact ha.elim
    | pushAnswer job =>
      obtain rfl := hok
      have hheard : heard m.log = gaves m.log ++ [(job.turnId, job.revision)] := h
      show gaves m'.log = heard m'.log
      rw [hlog, heard_append, gaves_append, hheard]
      simp [Act.logs, heardFrom, gaves]
    | _ => exact ha.elim
  · have hsame := h.same ha hexec
    cases a with
    | ask query =>
      cases query with
      | transcribe turn => exact absurd trivial ha
      | _ => exact hsame
    | send f =>
      cases f with
      | transcript item text => exact absurd trivial ha
      | _ => exact hsame
    | pushAnswer job => exact absurd trivial ha
    | _ => exact hsame

end Exec

/-! ### The answers -/

/-- The job of `p` is the last one taken, and no answer to it has been opened. -/
def Awaits (m : Memory F V) (p : ℕ × ℕ) : Prop :=
  ∃ l, tooks m.log = l ++ [p] ∧ (createdOf (notes m.log)).Sublist l

/-- The answer in flight is to the last job taken, and it has been opened. -/
structure Answered (m : Memory F V) : Prop where
  taken : (tooks m.log).getLast? = some m.answer
  opened : (createdOf (notes m.log)).getLast? = some m.answer
  order : (createdOf (notes m.log)).Sublist (tooks m.log)

/-- What the responder knows where it stands. -/
def Stand.Holds (m : Memory F V) : Stand → Prop
  | .rest => (createdOf (notes m.log)).Sublist (tooks m.log)
  | .took p => Awaits m p
  | .published => m.answerReleased = false ∧ Awaits m m.answer
  | .through => m.answerReleased = true ∧ Answered m
  | _ => m.answerReleased = false ∧ Answered m

theorem Awaits.order {m : Memory F V} {p : ℕ × ℕ} (h : Awaits m p) :
    (createdOf (notes m.log)).Sublist (tooks m.log) := by
  obtain ⟨l, hl, hsub⟩ := h
  rw [hl]
  exact hsub.trans (List.sublist_append_left _ _)

theorem Stand.Holds.order {m : Memory F V} {s : Stand} (h : s.Holds m) :
    (createdOf (notes m.log)).Sublist (tooks m.log) := by
  cases s with
  | rest => exact h
  | took p => exact Awaits.order h
  | published => exact Awaits.order h.2
  | _ => exact h.2.order

/-- An action on the jobs, the answer in flight or its opening. -/
def Act.OfStand : Act F → Prop
  | .popAnswer => True
  | .publish _ _ => True
  | .setReleased => True
  | .send .created => True
  | _ => False

section Exec

variable {P : Setup F V S} {role : Role} {a : Act F} {x : a.Input} {m m' : Memory F V} {r : a.Result}

theorem notes_send {f : Frame F} {x r : Unit} (h : exec P role (.send f) x m = some (r, m')) :
    notes m'.log = notes m.log ++ noteOf m.log (.frame role f) := by
  rw [log_exec (a := .send f) h]
  exact notes_snoc _ _

theorem notes_exec (ha : ∀ f, a ≠ .send f) (h : exec P role a x m = some (r, m')) :
    notes m'.log = notes m.log := by
  rw [log_exec h]
  have hnone : ∀ {l : List (Entry F)} (log : List (Entry F)), (l = [] ∨ ∃ e, l = [e] ∧
      ∀ log, noteOf log e = []) → notes (log ++ l) = notes log := by
    rintro l log (rfl | ⟨e, rfl, he⟩)
    · rw [List.append_nil]
    · rw [notes_snoc, he, List.append_nil]
  refine hnone m.log ?_
  cases a with
  | ask query =>
    cases hw : query.work with
    | none => exact .inl (by simp [Act.logs, hw])
    | some w => exact .inr ⟨.work w m.cancel, by simp [Act.logs, hw], fun _ => rfl⟩
  | send f => exact absurd rfl (ha f)
  | popAnswer => cases r <;> first | exact .inl rfl | exact .inr ⟨_, rfl, fun _ => rfl⟩
  | _ => first | exact .inl rfl | exact .inr ⟨_, rfl, fun _ => rfl⟩

theorem tooks_exec (ha : a ≠ .popAnswer) (h : exec P role a x m = some (r, m')) :
    tooks m'.log = tooks m.log := by
  rw [log_exec h, tooks_append]
  have hnone : tooks (a.logs role m r) = [] := by
    cases a with
    | ask query => cases hw : query.work <;> simp [Act.logs, hw, tooks]
    | popAnswer => exact absurd rfl ha
    | _ => rfl
  rw [hnone, List.append_nil]

theorem createdOf_exec (ha : a ≠ .send .created) (h : exec P role a x m = some (r, m')) :
    createdOf (notes m'.log) = createdOf (notes m.log) := by
  by_cases hsend : ∃ f, a = .send f
  · obtain ⟨f, rfl⟩ := hsend
    rw [notes_send h, createdOf_append]
    have hnone : createdOf (noteOf m.log (.frame role f)) = [] := by
      cases f <;> first | exact absurd rfl ha | rfl
    rw [hnone, List.append_nil]
  · rw [notes_exec (fun f heq => hsend ⟨f, heq⟩) h]

theorem Stand.Holds.same {s : Stand} (ha : ¬a.OfStand) (hexec : exec P role a x m = some (r, m'))
    (h : s.Holds m) : s.Holds m' := by
  have htooks : tooks m'.log = tooks m.log :=
    tooks_exec (fun heq => ha (by rw [heq]; trivial)) hexec
  have hcreated : createdOf (notes m'.log) = createdOf (notes m.log) :=
    createdOf_exec (fun heq => ha (by rw [heq]; trivial)) hexec
  have hnot : ¬a.OfAnswer := fun hof => by
    cases a <;> first | exact hof | exact ha trivial
  obtain ⟨hturn, hrevision, hreleased⟩ := answer_exec hnot hexec
  have hanswer : m'.answer = m.answer := by
    unfold Memory.answer
    rw [hturn, hrevision]
  have hawaits : ∀ {p : ℕ × ℕ}, Awaits m p → Awaits m' p := by
    rintro p ⟨l, hl, hsub⟩
    exact ⟨l, htooks.trans hl, hcreated ▸ hsub⟩
  have hanswered : Answered m → Answered m' := fun hm =>
    ⟨by rw [htooks, hanswer]; exact hm.taken, by rw [hcreated, hanswer]; exact hm.opened,
      by rw [hcreated, htooks]; exact hm.order⟩
  cases s with
  | rest =>
    show (createdOf (notes m'.log)).Sublist (tooks m'.log)
    rw [hcreated, htooks]
    exact h
  | took p => exact hawaits h
  | published => exact ⟨hreleased.trans h.1, hanswer ▸ hawaits h.2⟩
  | _ => exact ⟨hreleased.trans h.1, hanswered h.2⟩

/-- The stand of the responder is its own. -/
theorem Stand.Holds.other {s : Stand} (hother : role ≠ .responder) (hallow : Allowed role a m)
    (hexec : exec P role a x m = some (r, m')) (h : s.Holds m) : s.Holds m' := by
  refine h.same (fun ha => ?_) hexec
  have hturns := hallow.turns
  cases a with
  | popAnswer => exact hother hturns.1
  | publish turnId revision => exact hother hturns
  | setReleased => exact hother hturns
  | send f =>
    cases f with
    | created => exact hother (hallow.frames.answer trivial)
    | _ => exact ha
  | _ => exact ha

/-- The responder stands where the answer is released, or not. -/
theorem Stand.Holds.next_answerReleased {s : Stand} {x : Unit} {r : Bool} (h : s.Holds m)
    (hok : s.ok (.load .answerReleased : Act F))
    (hexec : exec P role (.load .answerReleased) x m = some (r, m')) :
    s.next (.load .answerReleased : Act F) r = s := by
  obtain ⟨hreleased, -⟩ := done_inj hexec
  change m.answerReleased = r at hreleased
  subst hreleased
  cases s with
  | opened =>
    show (if m.answerReleased then Stand.through else _) = _
    rw [if_neg (by simp [h.1])]
    rfl
  | clear =>
    show (if m.answerReleased then Stand.through else _) = _
    rw [if_neg (by simp [h.1])]
    rfl
  | through =>
    show (if m.answerReleased then Stand.through else _) = _
    rw [if_pos h.1]
  | _ => exact hok.elim

/-- **The responder goes on.** -/
theorem Stand.Holds.act {s : Stand} (hok : s.ok a) (hexec : exec P role a x m = some (r, m'))
    (h : s.Holds m) : (s.next a r).Holds m' := by
  by_cases ha : a.OfStand
  · cases a with
    | popAnswer =>
      obtain rfl := hok
      rcases popAnswer_cases hexec with ⟨-, rfl, rfl⟩ | ⟨-, job, answers, -, rfl, rfl⟩
      · exact h
      · refine ⟨tooks m.log, ?_, ?_⟩
        · simp [Memory.record, tooks]
        · have hnotes : notes (m.log ++ [.took job.turnId job.revision]) = notes m.log := by
            rw [notes_snoc]
            exact List.append_nil _
          show (createdOf (notes (m.log ++ [.took job.turnId job.revision]))).Sublist (tooks m.log)
          rw [hnotes]
          exact h
    | publish turnId revision =>
      obtain rfl := hok
      obtain ⟨-, rfl⟩ := done_inj hexec
      exact ⟨rfl, h⟩
    | setReleased =>
      obtain rfl := hok
      obtain ⟨-, rfl⟩ := done_inj hexec
      exact ⟨rfl, h.2.taken, h.2.opened, h.2.order⟩
    | send f =>
      cases f with
      | created =>
        obtain rfl := hok
        obtain ⟨hreleased, l, hl, hsub⟩ := h
        have htooks : tooks m'.log = tooks m.log := tooks_exec (by simp) hexec
        obtain ⟨hturn, hrevision, hreleased'⟩ := answer_exec (P := P) (a := .send .created) id hexec
        have hanswer : m'.answer = m.answer := by
          unfold Memory.answer
          rw [hturn, hrevision]
        have hlast : (tooks m.log).getLast? = some m.answer := by simp [hl]
        have hcreated : createdOf (notes m'.log) = createdOf (notes m.log) ++ [m.answer] := by
          rw [notes_send hexec, createdOf_append]
          simp [noteOf, createdOf, answerOf_eq, hlast]
        refine ⟨hreleased'.trans hreleased, ?_, ?_, ?_⟩
        · rw [htooks, hanswer]
          exact hlast
        · rw [hcreated, hanswer]
          simp
        · rw [hcreated, htooks, hl]
          exact hsub.append (List.Sublist.refl _)
      | _ => exact ha.elim
    | _ => exact ha.elim
  · have hsame := h.same ha hexec
    cases a with
    | send f =>
      cases f with
      | created => exact absurd trivial ha
      | done => exact hsame.order
      | cancelled => exact hsame.order
      | _ => exact hsame
    | load field =>
      cases field with
      | stop =>
        cases r with
        | true => exact hsame.order
        | false => exact hsame
      | answerReleased =>
        rw [h.next_answerReleased hok hexec]
        exact hsame
      | _ => exact hsame
    | lockSession => cases s <;> exact hsame
    | waitFinal =>
      obtain rfl := hok
      cases r <;> exact hsame
    | popAnswer => exact absurd trivial ha
    | publish turnId revision => exact absurd trivial ha
    | setReleased => exact absurd trivial ha
    | _ => exact hsame

end Exec

/-! ### The queue and what opened -/

/-- The turn and the revision of a job. -/
def AnswerJob.pair (job : AnswerJob) : ℕ × ℕ := (job.turnId, job.revision)

/-- The jobs are taken in the order in which they were handed on. -/
def Queued (m : Memory F V) : Prop := tooks m.log ++ m.answers.map AnswerJob.pair = gaves m.log

/-- What was recognized has opened. -/
def Opened (m : Memory F V) : Prop := ∀ p ∈ recognitions m.log, UpTo p m.opening

section Exec

variable {P : Setup F V S} {role : Role} {a : Act F} {x : a.Input} {m m' : Memory F V} {r : a.Result}

theorem gaves_exec (ha : ∀ job, a ≠ .pushAnswer job) (h : exec P role a x m = some (r, m')) :
    gaves m'.log = gaves m.log := by
  rw [log_exec h, gaves_append]
  have hnone : gaves (a.logs role m r) = [] := by
    cases a with
    | ask query => cases hw : query.work <;> simp [Act.logs, hw, gaves]
    | popAnswer => cases r <;> rfl
    | pushAnswer job => exact absurd rfl (ha job)
    | _ => rfl
  rw [hnone, List.append_nil]

theorem answers_exec (hpush : ∀ job, a ≠ .pushAnswer job) (hpop : a ≠ .popAnswer)
    (h : exec P role a x m = some (r, m')) : m'.answers = m.answers := by
  by_cases hturns : a.OfTurns
  · cases a with
    | session op =>
      obtain ⟨-, rfl⟩ := done_inj h
      obtain ⟨recognizing, answering, heq, -⟩ := apply_eq P.models role op m
      rw [heq]
    | opened turnId revision =>
      obtain ⟨opening, cancel, rfl, -⟩ := opened_cases h
      rfl
    | lockSession =>
      obtain ⟨-, rfl⟩ := lockSession_cases h
      rfl
    | popQueue => rcases popQueue_cases h with ⟨-, -, rfl⟩ | ⟨turn, queue, -, -, rfl⟩ <;> rfl
    | pushAnswer job => exact absurd rfl (hpush job)
    | popAnswer => exact absurd rfl hpop
    | _ =>
      first
      | exact hturns.elim
      | (obtain ⟨-, rfl⟩ := done_inj h
         rfl)
  · exact congrArg TurnState.answers (turnState_exec hturns h)

theorem Queued.act (hexec : exec P role a x m = some (r, m')) (h : Queued m) : Queued m' := by
  by_cases hpush : ∃ job, a = .pushAnswer job
  · obtain ⟨job, rfl⟩ := hpush
    obtain ⟨-, rfl⟩ := done_inj hexec
    show tooks (m.log ++ [.gave job.turnId job.revision]) ++ (m.answers ++ [job]).map AnswerJob.pair
      = gaves (m.log ++ [.gave job.turnId job.revision])
    rw [tooks_append, gaves_append, List.map_append, ← h]
    simp [tooks, gaves, AnswerJob.pair]
  by_cases hpop : a = .popAnswer
  · subst hpop
    rcases popAnswer_cases hexec with ⟨-, -, rfl⟩ | ⟨-, job, answers, hanswers, -, rfl⟩
    · exact h
    · show tooks (m.log ++ [.took job.turnId job.revision]) ++ answers.map AnswerJob.pair
        = gaves (m.log ++ [.took job.turnId job.revision])
      unfold Queued at h
      rw [hanswers] at h
      rw [tooks_append, gaves_append, ← h]
      simp [tooks, gaves, AnswerJob.pair]
  · unfold Queued
    rw [tooks_exec hpop hexec, gaves_exec (fun job heq => hpush ⟨job, heq⟩) hexec,
      answers_exec (fun job heq => hpush ⟨job, heq⟩) hpop hexec]
    exact h

/-- What opened last only moves on. -/
theorem opening_exec (hm : Kept m) (hallow : Allowed role a m)
    (hexec : exec P role a x m = some (r, m')) : UpTo m.opening m'.opening := by
  by_cases hcall : ∃ op, a = .session op
  · obtain ⟨op, rfl⟩ := hcall
    obtain ⟨⟨hopening, -⟩, -⟩ := session_exec (x := x) hm hexec
    rw [hopening]
    exact UpTo.refl _
  · exact (turn_exec hallow (fun op heq => hcall ⟨op, heq⟩) hexec).2

theorem opening_same (hopened : ∀ turnId revision, a ≠ .opened turnId revision)
    (h : exec P role a x m = some (r, m')) : m'.opening = m.opening := by
  by_cases hturns : a.OfTurns
  · cases a with
    | session op =>
      obtain ⟨-, rfl⟩ := done_inj h
      obtain ⟨recognizing, answering, heq, -⟩ := apply_eq P.models role op m
      rw [heq]
      rfl
    | opened turnId revision => exact absurd rfl (hopened _ _)
    | lockSession =>
      obtain ⟨-, rfl⟩ := lockSession_cases h
      rfl
    | popQueue => rcases popQueue_cases h with ⟨-, -, rfl⟩ | ⟨turn, queue, -, -, rfl⟩ <;> rfl
    | popAnswer => rcases popAnswer_cases h with ⟨-, -, rfl⟩ | ⟨-, job, answers, -, -, rfl⟩ <;> rfl
    | _ =>
      first
      | exact hturns.elim
      | (obtain ⟨-, rfl⟩ := done_inj h
         rfl)
  · exact congrArg TurnState.opening (turnState_exec hturns h)

theorem Opened.act (hm : Kept m) (hallow : Allowed role a m)
    (hexec : exec P role a x m = some (r, m')) (h : Opened m) : Opened m' := by
  have hopening := opening_exec hm hallow hexec
  by_cases hask : ∃ turn, a = .ask (.transcribe turn)
  · obtain ⟨turn, rfl⟩ := hask
    intro p hp
    rw [log_exec hexec, recognitions_append] at hp
    rcases List.mem_append.1 hp with hp | hp
    · exact (h p hp).trans hopening
    · obtain rfl : p = turn.pair := List.mem_singleton.1 hp
      have hplace : m.InPlace turn.pair := .inr (.inl hallow.recognized.2.1)
      exact (hm.turns.known _ hplace).upTo.trans hopening
  · intro p hp
    rw [recognitions_exec (fun turn heq => hask ⟨turn, heq⟩) hexec] at hp
    exact (h p hp).trans hopening

end Exec

/-! ### What the client hears -/

/-- The responder has taken the lock of the session in this answer. -/
def Stand.Cleared : Stand → Prop
  | .clear => True
  | .passed => True
  | .through => True
  | _ => False

/-- The wait let the responder pass. -/
def Stand.Passed : Stand → Prop
  | .passed => True
  | .through => True
  | _ => False

theorem Stand.Passed.cleared {s : Stand} (h : s.Passed) : s.Cleared := by
  cases s <;> first | exact h.elim | trivial

/-- **What a client hears binds the others.**  While it hears an answer that has been cleared, nobody
is telling of a start; once it has passed, nothing later than it has opened; and while it sounds no
other job is taken. -/
structure Ears (spots : Role → Spot F) (stand : Stand) (m : Memory F V) : Prop where
  calm : ∀ b, hears (notes m.log) = .hearing b → b = true ∨ stand.Cleared →
    ∀ i r, spots i ≠ .within r true
  upTo : ∀ b, hears (notes m.log) = .hearing b → b = true ∨ stand.Passed → UpTo m.opening m.answer
  rests : hears (notes m.log) = .hearing true → stand = .through ∨ stand = .rest
  taken : hears (notes m.log) = .hearing true → m.answer ∈ tooks m.log

namespace Ears

variable {spots spots' : Role → Spot F} {stand stand' : Stand} {m m' : Memory F V}

/-- No answer sounds, and none is cleared. -/
theorem quiet (hquiet : hears (notes m.log) ≠ .hearing true) (hstand : ¬stand.Cleared) :
    Ears spots stand m where
  calm _ hb h := h.elim (fun htrue => absurd (htrue ▸ hb) hquiet) fun h => absurd h hstand
  upTo _ hb h :=
    h.elim (fun htrue => absurd (htrue ▸ hb) hquiet) fun h => absurd h.cleared hstand
  rests hb := absurd hb hquiet
  taken hb := absurd hb hquiet

theorem deaf (hdeaf : hears (notes m.log) = .deaf) : Ears spots stand m where
  calm _ hb := by simp [hdeaf] at hb
  upTo _ hb := by simp [hdeaf] at hb
  rests hb := by simp [hdeaf] at hb
  taken hb := by simp [hdeaf] at hb

/-- The same is heard, and the responder goes on. -/
theorem move (h : Ears spots stand m) (hear : hears (notes m'.log) = hears (notes m.log))
    (hspots : ∀ i r, spots' i = .within r true → spots i = .within r true)
    (hopening : m'.opening = m.opening) (hanswer : m'.answer = m.answer)
    (htooks : ∀ p ∈ tooks m.log, p ∈ tooks m'.log)
    (hcleared : stand'.Cleared → stand.Cleared ∨ ∀ i r, spots' i ≠ .within r true)
    (hpassed : stand'.Passed → stand.Passed ∨ UpTo m.opening m.answer)
    (hrests : hears (notes m.log) = .hearing true → stand' = .through ∨ stand' = .rest) :
    Ears spots' stand' m' where
  calm b hb hor i r heq := by
    rw [hear] at hb
    rcases hor with htrue | hor
    · exact h.calm b hb (.inl htrue) i r (hspots i r heq)
    · rcases hcleared hor with hor | hnobody
      · exact h.calm b hb (.inr hor) i r (hspots i r heq)
      · exact hnobody i r heq
  upTo b hb hor := by
    rw [hear] at hb
    rw [hopening, hanswer]
    rcases hor with htrue | hor
    · exact h.upTo b hb (.inl htrue)
    · rcases hpassed hor with hor | hupTo
      · exact h.upTo b hb (.inr hor)
      · exact hupTo
  rests hb := hrests (hear ▸ hb)
  taken hb := by
    rw [hanswer]
    exact htooks _ (h.taken (hear ▸ hb))

/-- Nothing that it is about has changed. -/
theorem same (h : Ears spots stand m) (hear : hears (notes m'.log) = hears (notes m.log))
    (hspots : ∀ i r, spots' i = .within r true → spots i = .within r true)
    (hopening : m'.opening = m.opening) (hanswer : m'.answer = m.answer)
    (htooks : ∀ p ∈ tooks m.log, p ∈ tooks m'.log) : Ears spots' stand m' :=
  h.move hear hspots hopening hanswer htooks .inl .inl h.rests

end Ears

section Exec

variable {P : Setup F V S} {role : Role} {a : Act F} {x : a.Input} {m m' : Memory F V} {r : a.Result}

theorem noteOf_eq (log : List (Entry F)) (role : Role) (f : Frame F) :
    ∃ p, noteOf log (.frame role f) = [⟨f, p⟩] := by
  cases f <;> exact ⟨_, rfl⟩

theorem hears_send {f : Frame F} {x r : Unit} (h : exec P role (.send f) x m = some (r, m')) :
    hears (notes m'.log) = (hears (notes m.log)).frame f := by
  obtain ⟨p, hp⟩ := noteOf_eq m.log role f
  rw [notes_send h, hp, hears_snoc]

theorem hears_exec (ha : ∀ f, a = .send f → f.Beside) (h : exec P role a x m = some (r, m')) :
    hears (notes m'.log) = hears (notes m.log) := by
  by_cases hsend : ∃ f, a = .send f
  · obtain ⟨f, rfl⟩ := hsend
    rw [hears_send h]
    exact (ha f rfl).ear _
  · rw [notes_exec (fun f heq => hsend ⟨f, heq⟩) h]

theorem answer_same (hpublish : ∀ turnId revision, a ≠ .publish turnId revision)
    (h : exec P role a x m = some (r, m')) : m'.answer = m.answer := by
  by_cases hreleased : a = .setReleased
  · subst hreleased
    obtain ⟨-, rfl⟩ := done_inj h
    rfl
  · have hnot : ¬a.OfAnswer := fun hof => by
      cases a with
      | publish turnId revision => exact hpublish _ _ rfl
      | setReleased => exact hreleased rfl
      | _ => exact hof
    obtain ⟨hturn, hrevision, -⟩ := answer_exec hnot h
    unfold Memory.answer
    rw [hturn, hrevision]

theorem tooks_mono (h : exec P role a x m = some (r, m')) : ∀ p ∈ tooks m.log, p ∈ tooks m'.log := by
  intro p hp
  rw [log_exec h, tooks_append]
  exact List.mem_append_left _ hp

theorem Spot.next_started {s : Spot F} {e : Report F} (hnot : a ≠ .send .speechStarted)
    (h : s.next a = .within e true) : s = .within e true := by
  cases a with
  | send f =>
    cases f with
    | speechStarted => exact absurd rfl hnot
    | _ => exact h
  | callback e' => simp [Spot.next] at h
  | opened turnId revision => cases s <;> simp [Spot.next] at h
  | returned => simp [Spot.next] at h
  | _ => exact h

/-- A wait that lets an answer pass found nothing later. -/
theorem upTo_of_waitFinal {x : Unit} {r : Bool} (h : exec P role .waitFinal x m = some (r, m'))
    (hr : r = true) : UpTo m.opening m.answer := by
  obtain ⟨-, heard, -⟩ := waitFinal_cases h
  rw [hr] at heard
  have hvoid : m.outdated m.answerTurn m.answerRevision = false := by
    by_contra hnot
    simp [Memory.voided, hnot] at heard
  simp only [Memory.outdated, Bool.or_eq_false_iff, decide_eq_false_iff_not, Bool.and_eq_false_iff,
    beq_eq_false_iff_ne] at hvoid
  show m.openTurn < m.answerTurn ∨ m.openTurn = m.answerTurn ∧ m.openRevision ≤ m.answerRevision
  omega

/-- Whoever waits for a lock that is free is told of nothing. -/
theorem nobody_started {m : Memory F V} (hfree : m.sessionMutex = none) {spots : Role → Spot F}
    (h : ∀ i, (spots i).Holds i m) (i : Role) (e : Report F) : spots i ≠ .within e true := by
  intro heq
  have hi := h i
  rw [heq] at hi
  have hheld : m.sessionMutex = some i := hi.1
  simp [hfree] at hheld

namespace Ears

variable {spots spots' : Role → Spot F} {stand : Stand}

/-- An action that is neither heard nor moves what opened or is answered. -/
theorem aside (h : Ears spots stand m) (hbeside : ∀ f, a = .send f → f.Beside)
    (hopened : ∀ turnId revision, a ≠ .opened turnId revision)
    (hpublish : ∀ turnId revision, a ≠ .publish turnId revision)
    (hspots : ∀ i e, spots' i = .within e true → spots i = .within e true)
    (hexec : exec P role a x m = some (r, m')) : Ears spots' stand m' :=
  h.same (hears_exec hbeside hexec) hspots (opening_same hopened hexec) (answer_same hpublish hexec)
    (tooks_mono hexec)

/-- Whoever writes down what opened has told the client. -/
theorem opened {turnId revision : ℕ} {x : Bool} {r : Unit} {e : Report F}
    (h : Ears spots stand m) (hspot : spots role = .within e true)
    (hexec : exec P role (.opened turnId revision) x m = some (r, m')) : Ears spots' stand m' := by
  have hear : hears (notes m'.log) = hears (notes m.log) :=
    hears_exec (a := .opened turnId revision) (fun f heq => by simp at heq) hexec
  cases hnow : hears (notes m.log) with
  | deaf => exact .deaf (hear.trans hnow)
  | hearing b =>
    refine .quiet (fun htrue => ?_) fun hcleared => h.calm b hnow (.inr hcleared) role e hspot
    rw [hear, hnow] at htrue
    exact h.calm b hnow (.inl (Ear.hearing.inj htrue)) role e hspot

/-- **What a client hears, as the responder goes on.** -/
theorem act (h : Ears spots stand m) (hholds : ∀ i, (spots i).Holds i m) (hstand : stand.Holds m)
    (hdone : hears (notes m.log) = .hearing true → m.answers = []) (hok : stand.ok a)
    (hstarted : a ≠ .send .speechStarted) (hopened : ∀ turnId revision, a ≠ .opened turnId revision)
    (hspots : ∀ i e, spots' i = .within e true → spots i = .within e true)
    (hexec : exec P role a x m = some (r, m')) : Ears spots' (stand.next a r) m' := by
  by_cases hear : ∀ f, a = .send f → f.Beside
  · have hsame := hears_exec hear hexec
    by_cases hpublish : ∃ turnId revision, a = .publish turnId revision
    · obtain ⟨turnId, revision, rfl⟩ := hpublish
      obtain rfl := hok
      refine .quiet (fun htrue => ?_) id
      simpa using h.rests (hsame ▸ htrue)
    have hmove : ∀ stand' : Stand,
        (stand'.Cleared → stand.Cleared ∨ ∀ i r, spots' i ≠ .within r true) →
        (stand'.Passed → stand.Passed ∨ UpTo m.opening m.answer) →
        (hears (notes m.log) = .hearing true → stand' = .through ∨ stand' = .rest) →
        Ears spots' stand' m' := fun _ =>
      h.move hsame hspots (opening_same hopened hexec)
        (answer_same (fun turnId revision heq => hpublish ⟨turnId, revision, heq⟩) hexec)
        (tooks_mono hexec)
    have hstay := hmove stand .inl .inl h.rests
    have hrest := hmove .rest False.elim False.elim fun _ => .inr rfl
    cases a with
    | popAnswer =>
      obtain rfl := hok
      cases r with
      | none => exact hstay
      | some job =>
        refine .quiet (fun htrue => ?_) id
        rcases popAnswer_cases hexec with ⟨-, hnone, -⟩ | ⟨-, _, _, hanswers, -, -⟩
        · simp at hnone
        · rw [hdone (hsame ▸ htrue)] at hanswers
          simp at hanswers
    | load field =>
      cases field with
      | stop =>
        cases r with
        | true => exact hrest
        | false => exact hstay
      | answerReleased =>
        rw [hstand.next_answerReleased hok hexec]
        exact hstay
      | _ => exact hstay
    | lockSession =>
      obtain ⟨hfree, -⟩ := lockSession_cases hexec
      refine hmove stand.locked (fun _ => .inr fun i e heq => ?_) (fun hpassed => .inl ?_) fun htrue => ?_
      · exact nobody_started hfree hholds i e (hspots i e heq)
      · cases stand <;> exact hpassed
      · rcases h.rests htrue with rfl | rfl
        · exact .inl rfl
        · exact .inr rfl
    | waitFinal =>
      obtain rfl := hok
      cases hr : r with
      | true =>
        refine hmove .passed (fun _ => .inl trivial) (fun _ => .inr (upTo_of_waitFinal hexec hr))
          fun htrue => ?_
        simpa using h.rests htrue
      | false => exact hstay
    | setReleased =>
      obtain rfl := hok
      exact hmove .through (fun _ => .inl trivial) (fun _ => .inl trivial) fun _ => .inl rfl
    | send f =>
      cases f with
      | done => exact hrest
      | created => exact (hear _ rfl).elim
      | cancelled => exact (hear _ rfl).elim
      | _ => exact hstay
    | publish turnId revision => exact absurd ⟨_, _, rfl⟩ hpublish
    | _ => exact hstay
  · obtain ⟨f, rfl, hf⟩ : ∃ f, a = .send f ∧ ¬f.Beside := by
      by_contra hnone
      exact hear fun f heq => by_contra fun hf => hnone ⟨f, heq, hf⟩
    have hsend := hears_send hexec
    have hsound : f.Sound → stand = .through →
        Ears spots' (stand.next (.send f) r) m' := fun hsound hthrough => by
      subst hthrough
      have hstay : Stand.next .through (.send f) r = .through := by
        cases f <;> first | exact hsound.elim | rfl
      rw [hsound.ear] at hsend
      split_ifs at hsend with hdeaf
      · exact .deaf hsend
      obtain ⟨b, hb⟩ : ∃ b, hears (notes m.log) = .hearing b := by
        cases hnow : hears (notes m.log) with
        | deaf => exact absurd hnow hdeaf
        | hearing b => exact ⟨b, rfl⟩
      have hopening := opening_same hopened hexec
      have hanswer := answer_same (P := P) (a := .send f) (by simp) hexec
      have htaken : m.answer ∈ tooks m.log := List.mem_of_getLast? hstand.2.taken
      refine ⟨fun _ _ _ i e heq => ?_, fun _ _ _ => ?_, fun _ => .inl hstay, fun _ => ?_⟩
      · exact h.calm b hb (.inr trivial) i e (hspots i e heq)
      · rw [hopening, hanswer]
        exact h.upTo b hb (.inr trivial)
      · rw [hanswer]
        exact tooks_mono hexec _ htaken
    cases f with
    | speechStarted => exact absurd rfl hstarted
    | cancelled => exact .deaf hsend
    | created => exact .quiet (by simp [hsend, Ear.frame]) id
    | audio pcm => exact hsound trivial hok
    | spoken unit textEnd => exact hsound trivial hok
    | _ => exact absurd trivial hf

end Ears

end Exec

/-! ### Every frame in its place -/

/-- **What ties the threads to the memory.** -/
structure Held (states : Role → Gate F) (m : Memory F V) : Prop where
  spots : ∀ i, (states i).spot.Holds i m
  relay : (states .recognizer).relay.Holds m.log
  stand : (states .responder).stand.Holds m
  queued : Queued m
  opened : Opened m
  ears : Ears (fun i => (states i).spot) (states .responder).stand m
  told : transcriptsOf (notes m.log) = heard m.log
  sounds : ∀ p ∈ soundsOf (notes m.log), p ∈ tooks m.log ∧ Final (logged m.log) p
  orderly : Orderly (notes m.log)

namespace Held

variable {states : Role → Gate F} {m : Memory F V}

theorem handed (h : Held states m) : tooks m.log ++ m.answers.map AnswerJob.pair <+: heard m.log := by
  have hqueued : tooks m.log ++ m.answers.map AnswerJob.pair = gaves m.log := h.queued
  exact hqueued ▸ h.relay.gaves_prefix

theorem taken (h : Held states m) {p : ℕ × ℕ} (hp : p ∈ tooks m.log) : p ∈ heard m.log :=
  h.handed.subset (List.mem_append_left _ hp)

/-- The jobs are taken in the order of the revisions. -/
theorem sorted (hm : Kept m) (h : Held states m) : (tooks m.log).Pairwise Earlier :=
  hm.recognized.heard.sublist ((List.sublist_append_left _ _).trans h.handed.sublist)

/-- Where nothing later than the answer has opened, nothing later was recognized. -/
theorem not_later (h : Held states m) (hupTo : UpTo m.opening m.answer) {p : ℕ × ℕ}
    (hp : p ∈ recognitions m.log) : ¬Earlier m.answer p := by
  intro hlater
  have hback := (h.opened p hp).trans hupTo
  unfold Earlier at hlater
  unfold UpTo at hback
  omega

/-- While an answer sounds there is no other job. -/
theorem no_job (hm : Kept m) (h : Held states m) (hsounds : hears (notes m.log) = .hearing true) :
    m.answers = [] := by
  by_contra hjobs
  obtain ⟨job, rest, hanswers⟩ := List.exists_cons_of_ne_nil hjobs
  have hjob : job.pair ∈ m.answers.map AnswerJob.pair := by simp [hanswers]
  have hknown : job.pair ∈ recognitions m.log :=
    hm.recognized.heardOf _ (h.handed.subset (List.mem_append_right _ hjob))
  refine h.not_later (h.ears.upTo true hsounds (.inl rfl)) hknown ?_
  exact (List.pairwise_append.1 (hm.recognized.heard.sublist h.handed.sublist)).2.2 _
    (h.ears.taken hsounds) _ hjob

/-- Where sound is heard, what was transcribed last is what is answered. -/
theorem last_told (hm : Kept m) (h : Held states m) (hthrough : (states .responder).stand = .through)
    (hhears : hears (notes m.log) ≠ .deaf) : (heard m.log).getLast? = some m.answer := by
  have hstand := h.stand
  rw [hthrough] at hstand
  have htold : m.answer ∈ heard m.log := h.taken (List.mem_of_getLast? hstand.2.taken)
  obtain ⟨b, hb⟩ : ∃ b, hears (notes m.log) = .hearing b := by
    cases hnow : hears (notes m.log) with
    | deaf => exact absurd hnow hhears
    | hearing b => exact ⟨b, rfl⟩
  have hupTo := h.ears.upTo b hb (.inr (by rw [hthrough]; trivial))
  rcases List.eq_nil_or_concat' (heard m.log) with hnil | ⟨l, last, hlast⟩
  · simp [hnil] at htold
  have hordered := hm.recognized.heard
  rw [hlast] at htold hordered ⊢
  rcases List.mem_append.1 htold with hin | hin
  · have hknown : last ∈ recognitions m.log := hm.recognized.heardOf _ (by simp [hlast])
    refine absurd ?_ (h.not_later hupTo hknown)
    exact (List.pairwise_append.1 hordered).2.2 _ hin _ (List.mem_singleton_self last)
  · rw [List.mem_singleton.1 hin]
    simp

/-- **A transcript has its place.** -/
theorem tellable (hm : Kept m) (h : Held states m) {p : ℕ × ℕ}
    (hlast : (recognitions m.log).getLast? = some p) (hlater : ∀ q ∈ heard m.log, Earlier q p) :
    Tellable (notes m.log) (itemId p.1) p where
  quiet hsounds :=
    h.not_later (h.ears.upTo true hsounds (.inl rfl)) (List.mem_of_getLast? hlast)
      (hlater _ (h.taken (h.ears.taken hsounds)))
  item := rfl
  later := by
    rw [h.told]
    exact hlater
  unheard q hq := by
    obtain ⟨htaken, hfinal⟩ := h.sounds q hq
    obtain ⟨t, rest, htraced⟩ := traced_of_spots hm h.spots
    have hcommitted : p ∈ commitsOf (logged m.log ++ rest) := by
      rw [commitsOf_append]
      exact List.mem_append_left _
        (hm.recognized.entered p (.inl (List.mem_of_getLast? hlast))).2
    have hearlier := hlater q (h.taken htaken)
    unfold Earlier at hearlier
    rcases hearlier with hlt | ⟨hturn, hlt⟩
    · exact hlt
    · have hle := upTo_of_final htraced (hfinal.append rest) hcommitted hturn.symm
      omega

/-- **An answer is opened in its place.** -/
theorem openable (hm : Kept m) (h : Held states m)
    (hpublished : (states .responder).stand = .published) :
    answerOf m.log = some m.answer ∧ Openable (notes m.log) m.answer := by
  have hstand := h.stand
  rw [hpublished] at hstand
  obtain ⟨-, l, hl, hsub⟩ := hstand
  have hlast : m.answer ∈ tooks m.log := by simp [hl]
  refine ⟨by simp [answerOf_eq, hl], fun hsounds => ?_, ?_, fun q hq => ?_⟩
  · have hrests := h.ears.rests hsounds
    rw [hpublished] at hrests
    simp at hrests
  · rw [h.told]
    exact h.taken hlast
  · have hsorted := h.sorted hm
    rw [hl] at hsorted
    exact (List.pairwise_append.1 hsorted).2.2 q (hsub.subset hq) _ (List.mem_singleton_self _)

/-- **Sound has its place.** -/
theorem audible (hm : Kept m) (h : Held states m)
    (hthrough : (states .responder).stand = .through) :
    answerOf m.log = some m.answer ∧ Audible (notes m.log) m.answer := by
  have hstand := h.stand
  rw [hthrough] at hstand
  refine ⟨(answerOf_eq m.log).trans hstand.2.taken, fun hhears => ?_, hstand.2.opened⟩
  rw [h.told]
  exact h.last_told hm hthrough hhears

/-- **A frame that is sent has its place.** -/
theorem fits {role : Role} {f : Frame F} (hm : Kept m) (hallow : Allowed role (.send f) m)
    (h : Held states m) (hok : (gate F).ok role (states role) (.send f)) :
    ∃ p, noteOf m.log (.frame role f) = [⟨f, p⟩] ∧ (⟨f, p⟩ : Note F).Fits (notes m.log) := by
  obtain ⟨-, -, hstand⟩ := hok
  have hresponder := hallow.frames.answer
  cases f with
  | transcript item text =>
    obtain ⟨p, hlast, rfl, hlater⟩ := hallow.recognized
    exact ⟨p, by simp [noteOf, hlast], h.tellable hm hlast hlater⟩
  | created =>
    obtain rfl := hresponder trivial
    obtain ⟨hanswer, hfits⟩ := h.openable hm hstand
    exact ⟨m.answer, by simp [noteOf, hanswer], hfits⟩
  | audio pcm =>
    obtain rfl := hresponder trivial
    obtain ⟨hanswer, hfits⟩ := h.audible hm hstand
    exact ⟨m.answer, by simp [noteOf, hanswer], hfits⟩
  | spoken unit textEnd =>
    obtain rfl := hresponder trivial
    obtain ⟨hanswer, hfits⟩ := h.audible hm hstand
    exact ⟨m.answer, by simp [noteOf, hanswer], hfits⟩
  | _ => exact ⟨_, rfl, trivial⟩

section Act

variable {P : Setup F V S} {role : Role} {a : Act F} {x : a.Input} {m' : Memory F V} {r : a.Result}

/-- What is sounded is of a job that was taken, and of a turn that is final. -/
theorem sounded (hm : Kept m) (hallow : Allowed role a m) (h : Held states m)
    (hok : (gate F).ok role (states role) a) (hexec : exec P role a x m = some (r, m')) :
    ∀ p ∈ soundsOf (notes m'.log), p ∈ tooks m'.log ∧ Final (logged m'.log) p := by
  have hkeep : ∀ p, p ∈ tooks m.log ∧ Final (logged m.log) p →
      p ∈ tooks m'.log ∧ Final (logged m'.log) p := by
    rintro p ⟨htaken, hfinal⟩
    exact ⟨tooks_mono hexec p htaken, final_exec hexec hfinal⟩
  intro p hp
  refine hkeep p ?_
  by_cases hsend : ∃ f, a = .send f
  · obtain ⟨f, rfl⟩ := hsend
    obtain ⟨q, hq, -⟩ := h.fits hm hallow hok
    rw [notes_send hexec, hq, soundsOf_append] at hp
    rcases List.mem_append.1 hp with hp | hp
    · exact h.sounds p hp
    by_cases hsound : f.Sound
    · obtain ⟨p', hanswer, hfinal⟩ := hallow.frames.sound hsound
      have hnote : noteOf m.log (.frame role f) = [⟨f, p'⟩] := by
        cases f <;> first | exact hsound.elim | simp [noteOf, hanswer]
      obtain rfl : q = p' := by simpa [hq] using hnote
      have hpair : p = q := by
        cases f <;> first | exact hsound.elim | simpa [soundsOf] using hp
      rw [hpair]
      rw [answerOf_eq] at hanswer
      exact ⟨List.mem_of_getLast? hanswer, hfinal⟩
    · cases f <;> first | exact absurd trivial hsound | simp [soundsOf] at hp
  · rw [notes_exec (fun f heq => hsend ⟨f, heq⟩) hexec] at hp
    exact h.sounds p hp

/-- Every transcript is of the recognition before it. -/
theorem heard_act (hallow : Allowed role a m) (h : Held states m)
    (hexec : exec P role a x m = some (r, m')) : transcriptsOf (notes m'.log) = heard m'.log := by
  by_cases hsend : ∃ f, a = .send f
  · obtain ⟨f, rfl⟩ := hsend
    rw [log_exec hexec]
    refine transcriptsOf_snoc h.told ?_
    rintro role' item text heq
    obtain ⟨rfl, rfl⟩ := Entry.frame.inj heq
    obtain ⟨p, hp, -⟩ := hallow.recognized
    exact ⟨p, hp⟩
  · have hnone : ∀ f, a ≠ .send f := fun f heq => hsend ⟨f, heq⟩
    rw [notes_exec hnone hexec, heard_quiet hnone hexec]
    exact h.told

/-- **One action of one thread.** -/
theorem act {states' : Role → Gate F} (hm : Kept m) (hallow : Allowed role a m) (h : Held states m)
    (hok : (gate F).ok role (states role) a) (hexec : exec P role a x m = some (r, m'))
    (hself : states' role = (gate F).next (states role) a r)
    (hothers : ∀ i, i ≠ role → states' i = states i) : Held states' m' where
  spots i := by
    by_cases hi : i = role
    · subst hi
      rw [hself]
      exact (h.spots i).act hm hallow hok.1 hexec
    · rw [hothers i hi]
      exact (h.spots i).other (Ne.symm hi) hallow hexec
  relay := by
    by_cases hi : role = .recognizer
    · subst hi
      rw [hself]
      exact h.relay.act hok.2.1 hexec
    · rw [hothers _ (Ne.symm hi)]
      exact Relay.Holds.same (fun hof => hi (recognizer_of_relay hof hallow)) hexec h.relay
  stand := by
    by_cases hi : role = .responder
    · subst hi
      rw [hself]
      exact h.stand.act hok.2.2 hexec
    · rw [hothers _ (Ne.symm hi)]
      exact h.stand.other hi hallow hexec
  queued := h.queued.act hexec
  opened := h.opened.act hm hallow hexec
  ears := by
    by_cases hstarted : a = .send .speechStarted
    · subst hstarted
      exact .deaf (hears_send hexec)
    have hspots : ∀ i e, (states' i).spot = .within e true → (states i).spot = .within e true := by
      intro i e heq
      by_cases hi : i = role
      · subst hi
        rw [hself] at heq
        exact Spot.next_started hstarted heq
      · rw [hothers i hi] at heq
        exact heq
    by_cases hopened : ∃ turnId revision, a = .opened turnId revision
    · obtain ⟨turnId, revision, rfl⟩ := hopened
      obtain ⟨e, hspot, -⟩ := hok.1
      have hstand : (states' .responder).stand = (states .responder).stand := by
        by_cases hi : role = .responder
        · subst hi
          rw [hself]
          rfl
        · rw [hothers _ (Ne.symm hi)]
      rw [hstand]
      exact h.ears.opened hspot hexec
    have hnot : ∀ turnId revision, a ≠ .opened turnId revision := fun turnId revision heq =>
      hopened ⟨turnId, revision, heq⟩
    by_cases hi : role = .responder
    · subst hi
      rw [hself]
      exact h.ears.act h.spots h.stand (h.no_job hm) hok.2.2 hstarted hnot hspots hexec
    · rw [hothers _ (Ne.symm hi)]
      refine h.ears.aside (fun f heq => ?_) hnot (fun turnId revision heq => ?_) hspots hexec
      · subst heq
        have hbeside : ¬f.OfAnswer := fun hof => hi (hallow.frames.answer hof)
        cases f <;> first | exact absurd trivial hbeside | exact absurd rfl hstarted | exact trivial
      · subst heq
        exact hi hallow.turns
  told := h.heard_act hallow hexec
  sounds := h.sounded hm hallow hok hexec
  orderly := by
    by_cases hsend : ∃ f, a = .send f
    · obtain ⟨f, rfl⟩ := hsend
      obtain ⟨p, hp, hfits⟩ := h.fits hm hallow hok
      rw [notes_send hexec, hp]
      exact h.orderly.snoc hfits
    · rw [notes_exec (fun f heq => hsend ⟨f, heq⟩) hexec]
      exact h.orderly

end Act

end Held

/-- **Every frame has its place.** -/
theorem tied_gate (P : Setup F V S) : Tied (gateFit P) Held where
  start :=
    { spots := fun i hheld => by simp [connection, Memory.new] at hheld
      relay := rfl
      stand := List.Sublist.refl _
      queued := rfl
      opened := fun p hp => by simp [connection, Memory.new, recognitions] at hp
      ears := .deaf rfl
      told := rfl
      sounds := fun p hp => by simp [connection, Memory.new, notes, notesFrom, soundsOf] at hp
      orderly := fun before n after hsplit => by
        simp [connection, Memory.new, notes, notesFrom] at hsplit }
  act := by
    rintro c hc states role a x r m next hprog hok h hexec
    exact Held.act (kept_of_reaches hc) (allowed_of_reaches hc hprog) h hok hexec
      (Function.update_self ..) fun i hi => Function.update_of_ne hi ..

section Runs

variable {P : Setup F V S} {c : Config Role (Act F) Act.Result (Memory F V)}

/-- Whatever is reached is tied. -/
theorem held_of_reaches (h : Reaches (connection P) c) : ∃ states, Held states c.mem := by
  obtain ⟨states, hheld, -⟩ := (tied_gate P).holds h
  exact ⟨states, hheld⟩

/-- **The frames are in order**, in every order of the threads. -/
theorem orderly_of_reaches (h : Reaches (connection P) c) : Orderly (notes c.mem.log) := by
  obtain ⟨states, hheld⟩ := held_of_reaches h
  exact hheld.orderly

end Runs

/-- A turn answered in loopback: its transcript, its answer, and sound of it. -/
theorem orderly_loopback : Orderly (notes (played _ _ throughGate_isSome).mem.log) ∧
    transcriptsOf (notes (played _ _ throughGate_isSome).mem.log) = [(1, 0)] ∧
    createdOf (notes (played _ _ throughGate_isSome).mem.log) = [(1, 0)] ∧
    (1, 0) ∈ soundsOf (notes (played _ _ throughGate_isSome).mem.log) :=
  ⟨orderly_of_reaches (reaches_played throughGate_isSome), by decide +kernel, by decide +kernel,
    by decide +kernel⟩

end Conversation
end S2S
