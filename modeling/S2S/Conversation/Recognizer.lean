/-
# The reader, the writer and the recognizer

The outlines of the three threads around the answers.  The reader and the writer
need no assertion of their own.  The recognizer owes the release of the turn it
works on (`Recognizing`) until it has released it or handed its transcript on.
-/

import S2S.Conversation.HandOver

namespace S2S
namespace Conversation

open Json Session Thread TurnState

variable {F V S : Type}

/-! ### A stop -/

section Stop

variable (P : Setup F V S) {role : Role}

/-- An action that a thread may always take, the recognizer apart. -/
theorem outline_free (a : Act F) (hallow : ∀ m : Memory F V, Kept m → Allowed role a m) :
    Outline (discipline P) role (fun _ _ => True) (fun _ => True) (perform a) :=
  Outline.quiet a (Steady.true fun _ => True) trivial fun m hm _ => hallow m hm

/-- **`conn_stop`**, by any thread but the recognizer. -/
theorem outline_stop (hrole : role ≠ .recognizer) :
    Outline (discipline P) role (fun _ _ => True) (fun _ => True) connStop := by
  have htrue : Stable (discipline P) role fun _ => True := (Steady.true fun _ => True).stable
  have hset : Stable (discipline P) role fun m : Memory F V => m.stop = true :=
    fun _ _ _ _ _ _ _ _ _ _ hexec hm => stop_exec hexec hm
  have hhanded : ∀ {Q : Prop}, role = .recognizer → Q := fun h => absurd h hrole
  refine Outline.bind (Q := fun _ _ => True) ?_ fun _ =>
    Outline.bind (Q := fun _ m => m.stop = true) ?_ fun _ => ?_
  · exact Outline.perform (Act.storeCancel true) htrue (fun _ => htrue)
      (fun _ _ _ => ⟨trivial, trivial, trivial, trivial, fun h => hhanded h⟩) fun _ _ _ _ => trivial
  · refine Outline.perform Act.setStop htrue (fun _ => hset)
      (fun _ _ _ => ⟨trivial, trivial, trivial, trivial, fun h => hhanded h⟩) fun {x m r m'} _ _ _ hexec => ?_
    obtain ⟨-, rfl⟩ := done_inj hexec
    rfl
  · exact Outline.perform Act.stopped hset (fun _ => htrue)
      (fun _ _ h => ⟨trivial, trivial, h, trivial, fun h => hhanded h⟩) fun _ _ _ _ => trivial

end Stop

/-! ### The reader -/

section Reader

variable (P : Setup F V S)

theorem carried_true {role : Role} (hrole : role ≠ .recognizer) :
    Carried P role fun _ : Memory F V => True :=
  ⟨Steady.true _, fun h => absurd h hrole⟩

theorem outline_errors {role : Role} (hrole : role ≠ .recognizer) (messages : List Bytes) :
    Outline (discipline P) role (fun _ _ => True) (fun _ => True) (connErrors messages) := by
  induction messages with
  | nil => exact Outline.pure (Steady.true fun _ => True).stable fun _ _ _ => trivial
  | cons message messages ih =>
    exact (outline_free P (.send (.error message)) fun m hm =>
      ⟨trivial, sendAllow_plain hm role trivial, trivial, trivial, fun h => absurd h hrole⟩).bind fun _ => ih

/-- A call of the reader, which owes no release. -/
theorem outline_reader_session {op : Op F} (hop : ∀ turnId revision, op ≠ .release turnId revision) :
    Outline (discipline P) .reader (fun _ m => True ∧ Locked .reader m)
      (fun m => True ∧ Locked .reader m) (session op) := by
  refine outline_session (Steady.true fun _ => True).stable (carried_true P (by simp))
    (fun m _ _ h => ⟨⟨h.1, h.2, fun turnId revision heq => absurd heq (hop _ _)⟩, ?_, trivial,
      fun hrole => by simp at hrole, by simp⟩) fun _ _ _ _ _ => trivial
  cases op with
  | release turnId revision => exact absurd rfl (hop _ _)
  | _ => trivial

theorem outline_applyPatch (errors : List Bytes) (settings : Settings)
    (params : Option (Session.Params F)) :
    Outline (discipline P) .reader (fun _ _ => True) (fun _ => True)
      (connApplyPatch errors settings params) := by
  refine (outline_errors P (by simp) errors).bind fun _ =>
    (outline_free P (.patch settings) fun m _ => ⟨trivial, trivial, trivial, trivial, by simp⟩).bind fun _ => ?_
  cases params with
  | none => exact Outline.pure (Steady.true fun _ => True).stable fun _ _ _ => trivial
  | some p =>
    exact (outline_lock (carried_true P (by simp))).bind fun _ =>
      (outline_reader_session P (by simp)).bind fun _ => outline_unlock (carried_true P (by simp))

/-- **One frame from the client.** -/
theorem outline_frame (incoming : Incoming F) :
    Outline (discipline P) .reader (fun _ _ => True) (fun _ => True) (connFrame incoming) := by
  have hskip : Outline (discipline P) .reader (fun _ _ => True) (fun _ => True)
      (pure () : Program F Unit) :=
    Outline.pure (Steady.true fun _ => True).stable fun _ _ _ => trivial
  have hsend : ∀ f : Frame F, f.Plain → Outline (discipline P) .reader (fun _ _ => True)
      (fun _ => True) (connSend f) := fun f hf =>
    outline_free P (.send f) fun m hm =>
      ⟨trivial, sendAllow_plain hm _ hf, trivial, recognitionsAllow_plain hf m, by simp⟩
  cases incoming with
  | update errors settings params invalid =>
    exact (outline_applyPatch P errors settings params).bind fun _ =>
      (outline_errors P (by simp) invalid.toList).bind fun _ => hsend _ trivial
  | audio errors pcm =>
    have hspeaking : Outline (discipline P) .reader (fun _ m => True ∧ Locked .reader m)
        (fun m => True ∧ Locked .reader m) (perform (.load .speaking)) :=
      outline_aside (carried_true P (by simp)) (stable_locked P) (fun hs h => hs.locked h)
        (.load .speaking) trivial (fun h => h) (by simp) fun _ _ _ => ⟨trivial, trivial, trivial, trivial⟩
    exact (outline_errors P (by simp) errors).bind fun _ =>
      (outline_lock (carried_true P (by simp))).bind fun _ => hspeaking.bind fun speaking =>
        (outline_reader_session P (by simp)).bind fun _ =>
          (outline_reader_session P (by simp)).bind fun _ =>
            outline_unlock (carried_true P (by simp))
  | cancel =>
    exact outline_free P (.storeCancel true) fun m _ => ⟨trivial, trivial, trivial, trivial, by simp⟩
  | history messages =>
    exact outline_free P (.history messages) fun m _ => ⟨trivial, trivial, trivial, trivial, by simp⟩
  | unknown => exact hsend _ trivial
  | other => exact hskip
  | closed => exact hskip

/-- **The reader.** -/
theorem outline_reader :
    Outline (discipline P) .reader (fun _ _ => True) (fun _ => True) connReader := by
  have hend : ∀ again : Bool, Outline (discipline P) .reader (fun _ _ => True) (fun _ => True)
      (pure again : Program F Bool) := fun again =>
    Outline.pure (Steady.true fun _ => True).stable fun _ _ _ => trivial
  have hclose : Outline (discipline P) .reader (fun _ _ => True) (fun _ => True)
      (connClose : Program F Unit) :=
    (outline_stop P (by simp)).bind fun _ =>
      outline_free P .closeOut fun m _ => ⟨trivial, trivial, trivial, trivial, by simp⟩
  refine (outline_free P (.ask .read) fun m _ => ⟨trivial, trivial, trivial, trivial, by simp⟩).bind
    fun incoming => (outline_free P (.load .stop) fun m _ =>
      ⟨trivial, trivial, trivial, trivial, by simp⟩).bind fun stop => ?_
  split
  · exact hclose.bind fun _ => hend false
  · exact hclose.bind fun _ => hend false
  · exact (outline_frame P _).bind fun _ => hend true

/-! ### The writer -/

/-- **The writer.** -/
theorem outline_writer :
    Outline (discipline P) .writer (fun _ _ => True) (fun _ => True) connWriter := by
  have hend : ∀ again : Bool, Outline (discipline P) .writer (fun _ _ => True) (fun _ => True)
      (pure again : Program F Bool) := fun again =>
    Outline.pure (Steady.true fun _ => True).stable fun _ _ _ => trivial
  refine (outline_free P .popOut fun m _ => ⟨trivial, trivial, trivial, trivial, by simp⟩).bind fun next => ?_
  cases next with
  | none => exact hend false
  | some f =>
    refine (outline_free P (.ask (.transport f)) fun m _ =>
      ⟨trivial, trivial, trivial, trivial, by simp⟩).bind fun sent => ?_
    split
    · exact hend true
    · exact (outline_free P .dropOut fun m _ => ⟨trivial, trivial, trivial, trivial, by simp⟩).bind fun _ =>
        (outline_stop P (by simp)).bind fun _ => hend false

end Reader

/-! ### The recognizer -/

/-- An action of the recognizer on what it owes. -/
def Act.OfQueue : Act F → Prop
  | .popQueue => True
  | .pushAnswer _ => True
  | .session _ => True
  | .send (.transcript _ _) => True
  | .ask (.transcribe _) => True
  | _ => False

section Recognizer

variable {P : Setup F V S} {role : Role} {a : Act F} {x : a.Input} {m m' : Memory F V} {r : a.Result}

/-- **What the recognizer owes is its own.** -/
theorem recognizing_exec (hown : role = .recognizer → ¬a.OfQueue) (hallow : Allowed role a m)
    (h : exec P role a x m = some (r, m')) :
    m'.recognizing = m.recognizing ∧ transcripts m'.log = transcripts m.log ∧
      gives m'.log = gives m.log := by
  rw [log_exec h, transcripts_append, gives_append]
  by_cases hturns : a.OfTurns
  · have hallowed := hallow.turns
    cases a with
    | popQueue => exact absurd trivial (hown hallowed.1)
    | pushAnswer job => exact absurd trivial (hown hallowed.1)
    | session op =>
      have hrole : role ≠ .recognizer := fun heq => hown heq trivial
      obtain ⟨rfl, rfl⟩ := done_inj h
      refine ⟨?_, rfl, rfl⟩
      obtain ⟨recognizing, answering, heq, hrecognizing, -⟩ := apply_eq P.models role op m
      rw [heq]
      exact hrecognizing.resolve_right fun hreleased => hrole hreleased.1
    | popAnswer =>
      rcases popAnswer_cases h with ⟨-, rfl, rfl⟩ | ⟨-, job, answers, -, rfl, rfl⟩
      · exact ⟨rfl, rfl, rfl⟩
      · exact ⟨rfl, rfl, rfl⟩
    | opened turnId revision =>
      obtain ⟨opening, cancel, rfl, -⟩ := opened_cases h
      exact ⟨rfl, rfl, rfl⟩
    | lockSession =>
      obtain ⟨-, rfl⟩ := lockSession_cases h
      exact ⟨rfl, rfl, rfl⟩
    | unlockSession => obtain ⟨rfl, rfl⟩ := done_inj h; exact ⟨rfl, rfl, rfl⟩
    | returned => obtain ⟨rfl, rfl⟩ := done_inj h; exact ⟨rfl, rfl, rfl⟩
    | final turnId => obtain ⟨rfl, rfl⟩ := done_inj h; exact ⟨rfl, rfl, rfl⟩
    | enqueue turn => obtain ⟨rfl, rfl⟩ := done_inj h; exact ⟨rfl, rfl, rfl⟩
    | _ => exact hturns.elim
  · refine ⟨congrArg TurnState.recognizing (turnState_exec hturns h), ?_⟩
    cases a with
    | send f =>
      cases f with
      | transcript item text =>
        exact absurd trivial (hown (hallow.frames.transcript item text rfl).1)
      | _ => exact ⟨rfl, rfl⟩
    | ask query => cases hw : query.work <;> simp [Act.logs, hw, transcripts, gives]
    | _ => first | exact absurd trivial hturns | exact ⟨rfl, rfl⟩

/-- Nobody else recognizes, or tells of it. -/
theorem heard_exec (hown : role = .recognizer → ¬a.OfQueue) (hallow : Allowed role a m)
    (h : exec P role a x m = some (r, m')) :
    recognitions m'.log = recognitions m.log ∧ heard m'.log = heard m.log := by
  have hask : ∀ turn, a ≠ .ask (.transcribe turn) := by
    rintro turn rfl
    exact hown hallow.recognized.1 trivial
  refine ⟨recognitions_exec hask h, ?_⟩
  rw [log_exec h, heard_append]
  have hnone : heardFrom (recognitions m.log).getLast? (a.logs role m r) = [] := by
    cases a with
    | ask query =>
      cases query with
      | transcribe turn => exact absurd rfl (hask turn)
      | _ => rfl
    | send f =>
      cases f with
      | transcript item text => exact absurd trivial (hown (hallow.frames.transcript item text rfl).1)
      | _ => rfl
    | popAnswer => cases r <;> rfl
    | _ => rfl
  rw [hnone, List.append_nil]

/-- The recognizer works on `p`, and has sent `sent` transcripts it has not handed on. -/
def Recognizing (p : ℕ × ℕ) (sent : ℕ) (m : Memory F V) : Prop :=
  m.recognizing = some p ∧ transcripts m.log = gives m.log + sent

/-- The recognizer owes nothing. -/
def Rests (m : Memory F V) : Prop := m.recognizing = none

/-- `p` comes after all that was recognized. -/
def Fresh (p : ℕ × ℕ) (m : Memory F V) : Prop := ∀ q ∈ recognitions m.log, Earlier q p

/-- `p` was recognized last, and the client does not know yet. -/
def Untold (p : ℕ × ℕ) (m : Memory F V) : Prop :=
  (recognitions m.log).getLast? = some p ∧ ∀ q ∈ heard m.log, Earlier q p

theorem Untold.settled {p : ℕ × ℕ} (h : Untold p m) : Settled m.log p :=
  .inl (List.mem_of_getLast? h.1)

variable (P)

theorem steady_recognizing (p : ℕ × ℕ) (sent : ℕ) :
    Steady (discipline P) .recognizer (fun a => ¬a.OfQueue) (Recognizing p sent) :=
  fun _ _ _ _ _ _ hown _ _ hallow hexec h => by
    obtain ⟨hrec, hsent, hgiven⟩ := recognizing_exec hown hallow hexec
    exact ⟨hrec.trans h.1, by rw [hsent, hgiven]; exact h.2⟩

theorem steady_rests : Steady (discipline P) .recognizer (fun a : Act F => ¬a.OfQueue) Rests :=
  fun _ _ _ _ _ _ hown _ _ hallow hexec h => (recognizing_exec hown hallow hexec).1.trans h

theorem steady_fresh (p : ℕ × ℕ) :
    Steady (discipline P) .recognizer (fun a : Act F => ¬a.OfQueue) (Fresh p) :=
  fun _ _ _ _ _ _ hown _ _ hallow hexec h => by
    unfold Fresh
    rw [(heard_exec hown hallow hexec).1]
    exact h

theorem steady_untold (p : ℕ × ℕ) :
    Steady (discipline P) .recognizer (fun a : Act F => ¬a.OfQueue) (Untold p) :=
  fun _ _ _ _ _ _ hown _ _ hallow hexec h => by
    unfold Untold
    rw [(heard_exec hown hallow hexec).1, (heard_exec hown hallow hexec).2]
    exact h

theorem steady_settled (p : ℕ × ℕ) : Steady (discipline P) .recognizer (fun a : Act F => ¬a.OfQueue)
    fun m => Settled m.log p :=
  fun _ _ _ _ _ _ _ _ _ _ hexec h => by
    show Settled _ p
    rw [log_exec hexec]
    exact h.append _

theorem not_ofQueue_of_ofEvent : ∀ a : Act F, a.OfEvent → ¬a.OfQueue := by
  intro a ha
  cases a with
  | send f => cases f <;> first | exact ha.elim | exact id
  | _ => first | exact ha.elim | exact id

theorem carried_recognizing (p : ℕ × ℕ) :
    Carried P .recognizer fun m => Recognizing p 0 m ∧ Settled m.log p :=
  ⟨((steady_recognizing P p 0).and (steady_settled P p)).mono not_ofQueue_of_ofEvent,
    fun _ _ _ h => h.1.2⟩

theorem carried_rests : Carried P .recognizer (Rests (F := F) (V := V)) :=
  ⟨(steady_rests P).mono not_ofQueue_of_ofEvent, fun _ _ hm h => hm.frames.handed h⟩

/-- The release of a turn that is not answered. -/
theorem outline_recognizer_release (turnId revision : ℕ) :
    Outline (discipline P) .recognizer (fun _ => Rests)
      (fun m => Recognizing (turnId, revision) 0 m ∧ Settled m.log (turnId, revision))
      (connRelease turnId revision) := by
  refine outline_release (carried_recognizing P _) (carried_rests P) (fun m _ h hlocked => ?_)
    fun {x m r m'} _ _ _ _ hexec => ?_
  · refine ⟨⟨hlocked.1, hlocked.2, fun turnId' revision' hop => ⟨fun _ p hp => ?_, by simp⟩⟩,
      fun _ => h.1.2, trivial, fun _ _ _ _ p hp => ?_, fun _ _ => h.1.2⟩
    · obtain ⟨h₁, h₂⟩ := Op.release.inj hop
      obtain rfl := Option.some.inj (h.1.1.symm.trans hp)
      exact ⟨h₁.symm, h₂.symm⟩
    · obtain rfl := Option.some.inj (h.1.1.symm.trans hp)
      exact h.2
  · obtain ⟨-, rfl⟩ := done_inj hexec
    rfl

/-- One action of the recognizer that leaves what it owes, and what else it knows. -/
theorem outline_recognizer_quiet (p : ℕ × ℕ) {X : Memory F V → Prop}
    (hX : Steady (discipline P) .recognizer (fun a : Act F => ¬a.OfQueue) X) (a : Act F)
    (ha : ¬a.OfQueue) (hallow : ∀ m : Memory F V, Kept m → TurnsAllow .recognizer a m ∧
      FramesAllow .recognizer a m ∧ StopsAllow a m ∧ RecognitionsAllow .recognizer a m) :
    Outline (discipline P) .recognizer (fun _ m => Recognizing p 0 m ∧ X m)
      (fun m => Recognizing p 0 m ∧ X m) (perform a) :=
  Outline.quiet a ((steady_recognizing P p 0).and hX) ha fun m hm h =>
    ⟨(hallow m hm).1, (hallow m hm).2.1, (hallow m hm).2.2.1, (hallow m hm).2.2.2, fun _ _ => h.1.2⟩

/-- **`conn_revised`** says of the turn it is asked about that a later revision was reported. -/
theorem settled_of_revised {p : ℕ × ℕ} {m : Memory F V} (hm : Kept m)
    (hrecognizing : m.recognizing = some p) (hrevised : m.read (.revised p.1 p.2) = true) :
    Settled m.log p := by
  have hpos := (hm.recognized.entered p (.inr (.inl hrecognizing))).1
  change (m.openTurn == p.1 && decide (p.2 < m.openRevision)) = true at hrevised
  simp only [Bool.and_eq_true, beq_iff_eq, decide_eq_true_eq] at hrevised
  obtain ⟨hturn, hlater⟩ := hrevised
  rcases hm.recognized.opened with hzero | ⟨r, hr, hstarts, hpair⟩
  · omega
  · obtain ⟨hid, hrev⟩ := Prod.mk.inj hpair
    exact .inr ⟨r, hr, hstarts, hid.trans hturn, hrev ▸ hlater⟩

/-- The transcript goes to the client, and on to the responder. -/
theorem outline_recognizer_hand (turnId revision : ℕ) (transcript : Bytes) :
    Outline (discipline P) .recognizer (fun _ => Rests)
      (fun m => Recognizing (turnId, revision) 0 m ∧ Untold (turnId, revision) m)
      (do connSend (.transcript (itemId turnId) transcript)
          perform (.pushAnswer ⟨transcript, turnId, revision⟩)) := by
  set p := (turnId, revision)
  refine Outline.bind (Q := fun _ m => Recognizing p 1 m ∧ Settled m.log p) ?_ fun _ => ?_
  · refine Outline.perform (Act.send _) ((steady_recognizing P p 0).and (steady_untold P p)).stable
      (fun _ => ((steady_recognizing P p 1).and (steady_settled P p)).stable) (fun m hm h => ?_)
      fun {x m r m'} _ _ h hexec => ?_
    · obtain ⟨b, hb⟩ := hm.frames.bracket
      refine ⟨trivial, ⟨⟨b, ?_⟩, fun hs => hs.elim, fun heq => by simp at heq,
        fun _ _ _ => ⟨rfl, by simp [h.1.1]⟩, fun ha => ha.elim⟩, trivial,
        ⟨p, h.2.1, rfl, h.2.2⟩, fun _ _ => h.1.2⟩
      rw [hb]
      cases b <;> rfl
    · have hsettled : Settled m'.log p := by
        rw [log_exec (P := P) (a := .send _) (x := x) hexec]
        exact h.2.settled.append _
      obtain ⟨-, rfl⟩ := done_inj hexec
      have hsent := h.1.2
      have hlog : ∀ m' : Memory F V, m'.log = m.log ++
          [.frame .recognizer (.transcript (itemId turnId) transcript)] →
          transcripts m'.log = gives m'.log + 1 := fun m' hlog => by
        rw [hlog, transcripts_append, gives_append, hsent]
        rfl
      refine ⟨?_, hsettled⟩
      split_ifs
      · exact ⟨h.1.1, hlog _ rfl⟩
      · exact ⟨h.1.1, hlog _ rfl⟩
  · refine Outline.perform (Act.pushAnswer _)
      ((steady_recognizing P p 1).and (steady_settled P p)).stable (fun _ => (steady_rests P).stable)
      (fun m _ h => ⟨⟨rfl, h.1.1⟩, h.1.2, trivial, h.2, fun _ hjob => absurd rfl (hjob _)⟩)
      fun {x m r m'} _ _ _ hexec => ?_
    obtain ⟨-, rfl⟩ := done_inj hexec
    rfl

/-- **`conn_recognize`**: every way out either releases the turn or hands it on. -/
theorem outline_recognize (turn : TurnAudio F) :
    Outline (discipline P) .recognizer (fun _ => Rests)
      (fun m => Recognizing (turn.turnId, turn.revision) 0 m ∧ Fresh (turn.turnId, turn.revision) m)
      (connRecognize turn) := by
  set p := (turn.turnId, turn.revision)
  have hrelease := outline_recognizer_release P turn.turnId turn.revision
  have huntold : Stable (discipline P) .recognizer fun m => Recognizing p 0 m ∧ Untold p m :=
    ((steady_recognizing P p 0).and (steady_untold P p)).stable
  have hgive : Outline (discipline P) .recognizer (fun _ => Rests)
      (fun m => Recognizing p 0 m ∧ Untold p m) (connRelease turn.turnId turn.revision) :=
    hrelease.strengthen huntold fun m _ h => ⟨h.1, h.2.settled⟩
  have hquiet := fun a ha hallow =>
    outline_recognizer_quiet P p (steady_untold P p) a ha hallow
  refine Outline.bind (Q := fun revised m => (Recognizing p 0 m ∧ Fresh p m) ∧
    (revised = true → Settled m.log p)) ?_ fun revised => ?_
  · have hsteady := (steady_recognizing P p 0).and (steady_fresh P p)
    refine Outline.perform (Act.load (.revised _ _)) hsteady.stable (fun revised => ?_)
      (fun m _ h => ⟨trivial, trivial, trivial, trivial, fun _ _ => h.1.2⟩)
      fun {x m r m'} hm _ h hexec => ?_
    · by_cases hrevised : revised = true
      · exact hsteady.stable.and (by simpa [hrevised] using (steady_settled P p).stable)
      · exact hsteady.stable.and (by simpa [hrevised] using (Steady.true fun _ => True).stable)
    · obtain ⟨rfl, rfl⟩ := done_inj hexec
      exact ⟨h, settled_of_revised hm h.1.1⟩
  have hstable : Stable (discipline P) .recognizer fun m => (Recognizing p 0 m ∧ Fresh p m) ∧
      (revised = true → Settled m.log p) := by
    by_cases hrevised : revised = true
    · exact ((steady_recognizing P p 0).and (steady_fresh P p)).stable.and
        (by simpa [hrevised] using (steady_settled P p).stable)
    · exact ((steady_recognizing P p 0).and (steady_fresh P p)).stable.and
        (by simpa [hrevised] using (Steady.true fun _ => True).stable)
  split
  · rename_i hrevised
    exact hrelease.strengthen hstable fun m _ h => ⟨h.1.1, h.2 hrevised⟩
  refine Outline.bind (Q := fun _ m => Recognizing p 0 m ∧ Untold p m) ?_ fun transcript => ?_
  · refine Outline.perform (Act.ask (.transcribe turn)) hstable (fun _ => huntold)
      (fun m _ h => ⟨trivial, trivial, trivial, ⟨rfl, h.1.1.1, h.1.2⟩, fun _ _ => h.1.1.2⟩)
      fun {x m r m'} hm _ h hexec => ?_
    obtain ⟨-, rfl⟩ := done_inj hexec
    have hlog : ∀ m' : Memory F V, m'.log = m.log ++ [.work (.recognition turn.turnId turn.revision)
        m.cancel] → Recognizing p 0 { m' with recognizing := some p } ∧ Untold p m' := by
      intro m' hlog
      refine ⟨⟨rfl, ?_⟩, ?_, ?_⟩
      · show transcripts m'.log = gives m'.log + 0
        rw [hlog, transcripts_append, gives_append]
        exact h.1.1.2
      · rw [hlog, recognitions_append]
        exact List.getLast?_concat
      · rw [hlog, heard_append]
        intro q hq
        exact h.1.2 q (hm.recognized.heardOf q (by simpa [heardFrom] using hq))
    obtain ⟨hrecognizing, huntold⟩ := hlog (m.record _) rfl
    exact ⟨⟨h.1.1.1, hrecognizing.2⟩, huntold⟩
  cases transcript with
  | none =>
    exact (hquiet (.ask .lastError) id fun _ _ => ⟨trivial, trivial, trivial, trivial⟩).bind
      fun message => (hquiet (.send (.error message)) id fun m hm =>
        ⟨trivial, sendAllow_plain hm _ trivial, trivial, trivial⟩).bind fun _ => hgive
  | some transcript =>
    dsimp only
    split
    · exact hgive
    refine (hquiet (.ask (.admits _ _)) id fun _ _ => ⟨trivial, trivial, trivial, trivial⟩).bind
      fun admitted => ?_
    split
    · exact outline_recognizer_hand P turn.turnId turn.revision transcript
    · exact hgive

/-- **The recognizer.** -/
theorem outline_recognizer :
    Outline (discipline P) .recognizer (fun _ => Rests) Rests connRecognizer := by
  refine Outline.bind (Q := fun next m =>
    next.elim (Rests m) fun turn => Recognizing (turn.turnId, turn.revision) 0 m ∧
      Fresh (turn.turnId, turn.revision) m) ?_ fun next => ?_
  · refine Outline.perform Act.popQueue (steady_rests P).stable (fun next => ?_)
      (fun m hm h => ⟨⟨rfl, h⟩, trivial, trivial, trivial, fun _ _ => hm.frames.handed h⟩)
      fun {x m r m'} hm _ h hexec => ?_
    · cases next with
      | none => exact (steady_rests P).stable
      | some turn => exact ((steady_recognizing P _ 0).and (steady_fresh P _)).stable
    · have hsent := hm.frames.handed h
      have hbefore := hm.recognized.before
      change exec P .recognizer .popQueue x m = some (r, m') at hexec
      rcases popQueue_cases hexec with ⟨-, rfl, rfl⟩ | ⟨turn, queue, hqueue, rfl, rfl⟩
      · exact h
      · refine ⟨⟨rfl, hsent⟩, fun q hq => hbefore q hq turn ?_⟩
        rw [hqueue]
        exact List.mem_cons_self
  · cases next with
    | none => exact Outline.pure (steady_rests P).stable fun _ _ h => h
    | some turn =>
      exact (outline_recognize P turn).bind fun _ =>
        Outline.pure (steady_rests P).stable fun _ _ h => h

end Recognizer

end Conversation
end S2S
