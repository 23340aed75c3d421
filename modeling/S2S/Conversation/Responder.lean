/-
# The responder

The outline of the thread that answers.  `Holding` is what it knows of the job it
took, `Published` of the answer in flight: the client sees the bracket as the
responder does, and once the answer is released its turn is final.  Everything
that an answer runs through keeps this, whatever the world answers; only
`connHold` lets it speak.
-/

import S2S.Conversation.Recognizer

namespace S2S
namespace Conversation

open Json Llm Agent Session Thread TurnState

variable {F V S : Type}

/-! ### Beside the answer -/

/-- An action that leaves the answer in flight as it is. -/
def Act.Aside : Act F → Prop
  | .popAnswer => False
  | .publish _ _ => False
  | .setReleased => False
  | .send f => ¬f.OfAnswer
  | _ => True

/-- An entry that is not about the answers. -/
def Entry.Aside : Entry F → Prop
  | .frame _ f => ¬f.OfAnswer
  | .took _ _ => False
  | _ => True

/-- Such an entry leaves what the log says of the answers. -/
theorem Entry.Aside.snoc {e : Entry F} (he : e.Aside) {log : List (Entry F)} {b : Bracket}
    (hb : bracketOf log = some b) :
    answerOf (log ++ [e]) = answerOf log ∧ bracketOf (log ++ [e]) = some b ∧
      created (log ++ [e]) = created log ∧ takes (log ++ [e]) = takes log := by
  rw [answerOf_snoc, bracketOf_snoc, created_append, takes_append]
  cases e with
  | frame role f =>
    cases f with
    | error message => exact ⟨rfl, by rw [hb]; cases b <;> rfl, rfl, rfl⟩
    | speechStarted => exact ⟨rfl, by rw [hb]; cases b <;> rfl, rfl, rfl⟩
    | sessionUpdated => exact ⟨rfl, by rw [hb]; cases b <;> rfl, rfl, rfl⟩
    | voice voice effect => exact ⟨rfl, by rw [hb]; cases b <;> rfl, rfl, rfl⟩
    | transcript item text => exact ⟨rfl, by rw [hb]; cases b <;> rfl, rfl, rfl⟩
    | _ => exact absurd trivial he
  | took turnId revision => exact he.elim
  | _ => exact ⟨rfl, hb, rfl, rfl⟩

section Exec

variable {P : Setup F V S} {role : Role} {a : Act F} {x : a.Input} {m m' : Memory F V} {r : a.Result}

/-- What the other threads do is beside the answer. -/
theorem aside_of_allowed (hother : role ≠ .responder) (hallow : Allowed role a m) : a.Aside := by
  have hturns := hallow.turns
  cases a with
  | popAnswer => exact absurd hturns.1 hother
  | publish turnId revision => exact absurd hturns hother
  | setReleased => exact absurd hturns hother
  | send f => exact fun hf => hother (hallow.frames.answer hf)
  | _ => trivial

theorem logs_aside (role : Role) (ha : a.Aside) :
    a.logs role m r = [] ∨ ∃ e : Entry F, a.logs role m r = [e] ∧ e.Aside := by
  cases a with
  | ask query =>
    cases hw : query.work with
    | none => exact .inl (by simp [Act.logs, hw])
    | some w => exact .inr ⟨.work w m.cancel, by simp [Act.logs, hw], trivial⟩
  | send f => exact .inr ⟨.frame role f, rfl, ha⟩
  | callback r => exact .inr ⟨_, rfl, trivial⟩
  | pushAnswer job => exact .inr ⟨_, rfl, trivial⟩
  | stopped => exact .inr ⟨_, rfl, trivial⟩
  | _ => first | exact ha.elim | exact .inl rfl

/-- Such an action leaves what the log says of the answers. -/
theorem aside_log (ha : a.Aside) {b : Bracket} (hb : bracketOf m.log = some b)
    (h : exec P role a x m = some (r, m')) :
    answerOf m'.log = answerOf m.log ∧ bracketOf m'.log = some b ∧
      created m'.log = created m.log ∧ takes m'.log = takes m.log := by
  rw [log_exec h]
  rcases logs_aside role (m := m) (r := r) ha with hnone | ⟨e, hone, he⟩
  · rw [hnone, List.append_nil]
    exact ⟨rfl, hb, rfl, rfl⟩
  · rw [hone]
    exact he.snoc hb

/-- It takes no job, and may at most release one. -/
theorem aside_answering (ha : a.Aside) (h : exec P role a x m = some (r, m')) :
    m'.answering = m.answering ∨ m'.answering = none := by
  by_cases hturns : a.OfTurns
  · cases a with
    | session op =>
      obtain ⟨rfl, rfl⟩ := done_inj h
      obtain ⟨recognizing, answering, heq, -, hanswering⟩ := apply_eq P.models role op m
      rw [heq]
      exact hanswering
    | popAnswer => exact ha.elim
    | opened turnId revision =>
      obtain ⟨opening, cancel, rfl, -⟩ := opened_cases h
      exact .inl rfl
    | lockSession =>
      obtain ⟨-, rfl⟩ := lockSession_cases h
      exact .inl rfl
    | popQueue =>
      rcases popQueue_cases h with ⟨-, -, rfl⟩ | ⟨turn, queue, -, -, rfl⟩
      · exact .inl rfl
      · exact .inl rfl
    | _ =>
      first
      | exact hturns.elim
      | (obtain ⟨-, rfl⟩ := done_inj h
         exact .inl rfl)
  · exact .inl (congrArg TurnState.answering (turnState_exec hturns h))

theorem Act.Aside.not_ofAnswer (ha : a.Aside) : ¬a.OfAnswer := by
  cases a <;> first | exact ha.elim | exact id

end Exec

/-! ### What the responder knows -/

/-- The responder took the job of `p`: `b` is what the client sees, and `left` whether it is still
to be told of the answer. -/
structure Holding (p : ℕ × ℕ) (b : Bracket) (left : ℕ) (m : Memory F V) : Prop where
  known : m.Knows p
  owes : ∀ q, m.answering = some q → q = p
  taken : answerOf m.log = some p
  bracket : bracketOf m.log = some b
  count : created m.log + left = takes m.log

/-- The answer in flight is the one to `p`. -/
structure Published (p : ℕ × ℕ) (b : Bracket) (left : ℕ) (m : Memory F V) : Prop
    extends Holding p b left m where
  answer : (m.answerTurn, m.answerRevision) = p
  released : m.answerReleased = true → Final (logged m.log) p

/-- The responder has no job. -/
structure Idle (m : Memory F V) : Prop where
  answering : m.answering = none
  bracket : bracketOf m.log = some .closed
  count : m.stop = false → created m.log = takes m.log

section Outlines

variable (P : Setup F V S) (p : ℕ × ℕ)

theorem steady_holding (b : Bracket) (left : ℕ) :
    Steady (discipline P) .responder Act.Aside (Holding p b left) := by
  intro role a x m r m' hown hm hm' hallow hexec h
  have ha : a.Aside := by
    by_cases hrole : role = .responder
    · exact hown hrole
    · exact aside_of_allowed hrole hallow
  obtain ⟨htaken, hbracket, hcreated, htakes⟩ := aside_log ha h.bracket hexec
  refine ⟨knows_exec hm hallow hexec h.known, fun q hq => ?_, htaken.trans h.taken, hbracket, ?_⟩
  · rcases aside_answering ha hexec with hsame | hnone
    · exact h.owes q (hsame ▸ hq)
    · rw [hnone] at hq
      simp at hq
  · rw [hcreated, htakes]
    exact h.count

theorem steady_published (b : Bracket) (left : ℕ) :
    Steady (discipline P) .responder Act.Aside (Published p b left) := by
  intro role a x m r m' hown hm hm' hallow hexec h
  have ha : a.Aside := by
    by_cases hrole : role = .responder
    · exact hown hrole
    · exact aside_of_allowed hrole hallow
  obtain ⟨hturn, hrev, hreleased⟩ := answer_exec ha.not_ofAnswer hexec
  refine ⟨steady_holding P p b left hown hm hm' hallow hexec h.toHolding, ?_, fun hr => ?_⟩
  · rw [hturn, hrev]
    exact h.answer
  · exact final_exec hexec (h.released (hreleased ▸ hr))

theorem steady_idle : Steady (discipline P) .responder Act.Aside (Idle (F := F) (V := V)) := by
  intro role a x m r m' hown hm hm' hallow hexec h
  have ha : a.Aside := by
    by_cases hrole : role = .responder
    · exact hown hrole
    · exact aside_of_allowed hrole hallow
  obtain ⟨-, hbracket, hcreated, htakes⟩ := aside_log ha h.bracket hexec
  refine ⟨?_, hbracket, fun hstop => ?_⟩
  · rcases aside_answering ha hexec with hsame | hnone
    · exact hsame.trans h.answering
    · exact hnone
  · rw [hcreated, htakes]
    refine h.count (by_contra fun hnot => ?_)
    rw [stop_exec hexec (by simpa using hnot)] at hstop
    simp at hstop

theorem steady_stop (own : Act F → Prop) :
    Steady (discipline P) .responder own fun m : Memory F V => m.stop = true :=
  fun _ _ _ _ _ _ _ _ _ _ hexec h => stop_exec hexec h

theorem steady_released (own : Act F → Prop) :
    Steady (discipline P) .responder own fun m : Memory F V => Released p m.session.turn :=
  fun _ _ _ _ _ _ _ hm _ hallow hexec h => released_exec hm hallow hexec h

theorem steady_final (own : Act F → Prop) :
    Steady (discipline P) .responder own fun m : Memory F V => Final (logged m.log) p :=
  fun _ _ _ _ _ _ _ _ _ _ hexec h => final_exec hexec h

theorem aside_of_ofEvent : ∀ a : Act F, a.OfEvent → a.Aside := by
  intro a ha
  cases a with
  | send f => exact fun hf => absurd hf (Frame.Plain.not_ofAnswer ha)
  | _ => first | exact ha.elim | trivial

variable {P p} {K K' : Memory F V → Prop}

/-- An assertion beside the answer is carried through a call. -/
theorem carried_of_steady (hK : Steady (discipline P) .responder Act.Aside K) :
    Carried P .responder K :=
  ⟨hK.mono aside_of_ofEvent, fun h => by simp at h⟩

/-- One action beside the answer. -/
theorem outline_beside (hK : Steady (discipline P) .responder Act.Aside K) (a : Act F)
    (ha : a.Aside) (hallow : ∀ m, Kept m → K m →
      TurnsAllow .responder a m ∧ FramesAllow .responder a m ∧ StopsAllow a m ∧
        RecognitionsAllow .responder a m) :
    Outline (discipline P) .responder (fun _ => K) K (perform a) :=
  Outline.quiet a hK ha fun m hm h =>
    ⟨(hallow m hm h).1, (hallow m hm h).2.1, (hallow m hm h).2.2.1, (hallow m hm h).2.2.2,
      fun h => by simp at h⟩

/-- A question to the world. -/
theorem outline_ask (hK : Steady (discipline P) .responder Act.Aside K) (query : Query F)
    (hquery : ∀ turn, query ≠ .transcribe turn) :
    Outline (discipline P) .responder (fun _ => K) K (ask query) := by
  refine outline_beside hK (.ask query) trivial fun _ _ _ => ⟨trivial, trivial, trivial, ?_⟩
  cases query with
  | transcribe turn => exact absurd rfl (hquery turn)
  | _ => trivial

theorem outline_loadCancel (hK : Steady (discipline P) .responder Act.Aside K) :
    Outline (discipline P) .responder (fun _ => K) K loadCancel :=
  outline_beside hK (.load .cancel) trivial fun _ _ _ => ⟨trivial, trivial, trivial, trivial⟩

/-- A frame that belongs to no answer. -/
theorem outline_plain (hK : Steady (discipline P) .responder Act.Aside K) (f : Frame F)
    (hf : f.Plain) : Outline (discipline P) .responder (fun _ => K) K (connSend f) :=
  outline_beside hK (.send f) hf.not_ofAnswer fun _ hm _ =>
    ⟨trivial, sendAllow_plain hm _ hf, trivial, recognitionsAllow_plain hf _⟩

theorem outline_pure {α : Type} (hK : Steady (discipline P) .responder Act.Aside K) (value : α) :
    Outline (discipline P) .responder (fun _ => K) K (pure value : Program F α) :=
  Outline.pure hK.stable fun _ _ h => h

/-- The release of the job the responder holds. -/
theorem outline_responder_release {p : ℕ × ℕ}
    (hK : Steady (discipline P) .responder Act.Aside K)
    (hK' : Steady (discipline P) .responder Act.Aside K')
    (howes : ∀ m, K m → ∀ q, m.answering = some q → q = p)
    (hafter : ∀ {x m r m'}, Kept m → Kept m' →
      Allowed .responder (.session (.release p.1 p.2)) m → K m →
      exec P .responder (.session (.release p.1 p.2)) x m = some (r, m') → K' m') :
    Outline (discipline P) .responder (fun _ => K') K (connRelease p.1 p.2) := by
  refine outline_release (carried_of_steady hK) (carried_of_steady hK')
    (fun m _ h hlocked => ⟨⟨hlocked.1, hlocked.2, fun turnId revision hop => ⟨by simp, ?_⟩⟩,
      by simp [FramesAllow], trivial, fun hrole => by simp at hrole, by simp⟩) hafter
  intro _ q hq
  obtain ⟨h₁, h₂⟩ := Op.release.inj hop
  rw [howes m h q hq]
  exact ⟨h₁.symm, h₂.symm⟩

/-! ### Frames of an answer -/

/-- **A frame of the answer in flight.** -/
theorem outline_send {b b' : Bracket} (f : Frame F) (hb : b.frame f = some b')
    (hcreated : f ≠ .created) (htranscript : ∀ item text, f ≠ .transcript item text)
    {X : Memory F V → Prop} (hX : Steady (discipline P) .responder (fun _ => True) X)
    (hsound : f.Sound → ∀ m, X m → Final (logged m.log) p) :
    Outline (discipline P) .responder (fun _ m => Published p b' 0 m ∧ X m)
      (fun m => Published p b 0 m ∧ X m) (connSend f) := by
  have hallow : ∀ m, Kept m → Published p b 0 m ∧ X m → Allowed .responder (.send f) m :=
    fun m _ h => ⟨trivial, ⟨⟨b', by rw [h.1.bracket]; exact hb⟩,
      fun hs => ⟨p, h.1.taken, hsound hs m h.2⟩, fun heq => absurd heq hcreated,
      fun item text heq => absurd heq (htranscript item text), fun _ => rfl⟩, trivial, by
        cases f with
        | transcript item text => exact absurd rfl (htranscript item text)
        | _ => trivial, by simp⟩
  refine Outline.perform (Act.send f)
    ((steady_published P p b 0).stable.and hX.stable)
    (fun _ => (steady_published P p b' 0).stable.and hX.stable) hallow
    fun {x m r m'} hm hm' h hexec => ⟨?_, hX (a := .send f) (fun _ => trivial) hm hm'
      (hallow m hm h) hexec h.2⟩
  have hlog : m'.log = m.log ++ [.frame .responder f] :=
    log_exec (P := P) (a := .send f) (x := x) hexec
  have hstate : m'.toTurnState = m.toTurnState :=
    turnState_exec (P := P) (a := .send f) (x := x) id hexec
  obtain ⟨hturn, hrev, hreleased⟩ := answer_exec (P := P) (a := .send f) (x := x) id hexec
  have hfinal : m.answerReleased = true → Final (logged m'.log) p := fun hr => by
    rw [hlog, logged_append]
    exact (h.1.released hr).append _
  refine ⟨⟨hstate ▸ h.1.known, fun q hq => h.1.owes q (by rw [← hstate]; exact hq), ?_, ?_, ?_⟩,
    by rw [hturn, hrev]; exact h.1.answer, fun hr => hfinal (hreleased ▸ hr)⟩
  · rw [hlog, answerOf_snoc]
    exact h.1.taken
  · rw [hlog, bracketOf_snoc, h.1.bracket]
    exact hb
  · have hcount := h.1.count
    rw [hlog, created_append, takes_append]
    have hone : created [Entry.frame .responder f] = 0 := by
      cases f <;> first | exact absurd rfl hcreated | rfl
    rw [hone]
    exact hcount

/-- The answer is open, and the client sees no call under way. -/
abbrev Open (p : ℕ × ℕ) (m : Memory F V) : Prop := Published p .opened 0 m

variable (P p) in
theorem steady_open : Steady (discipline P) .responder Act.Aside (Open (F := F) (V := V) p) :=
  steady_published P p .opened 0

/-- A silent frame of the answer. -/
theorem outline_silent {b b' : Bracket} (f : Frame F) (hb : b.frame f = some b')
    (hcreated : f ≠ .created) (htranscript : ∀ item text, f ≠ .transcript item text)
    (hsound : ¬f.Sound) :
    Outline (discipline P) .responder (fun _ => Published p b' 0) (Published p b 0) (connSend f) :=
  ((outline_send f hb hcreated htranscript (Steady.true _) fun hs => absurd hs hsound).weaken
    fun _ _ _ h => h.1).strengthen (steady_published P p b 0).stable fun _ _ h => ⟨h, trivial⟩

/-- A frame of sound, once the turn is final. -/
theorem outline_sound (f : Frame F) (hf : f.Sound) :
    Outline (discipline P) .responder (fun _ m => Open p m ∧ Final (logged m.log) p)
      (fun m => Open p m ∧ Final (logged m.log) p) (connSend f) := by
  refine outline_send f ?_ (fun heq => ?_) (fun item text heq => ?_) (steady_final P p _)
    fun _ _ h => h
  · cases f <;> first | exact hf.elim | rfl
  · rw [heq] at hf
    exact hf
  · rw [heq] at hf
    exact hf

/-! ### Speaking -/

/-- **The gate.**  When it lets the responder through, the turn of its answer is final. -/
theorem final_of_passes {m : Memory F V} (hm : Kept m) (h : Open p m) (hstop : m.stop = false)
    (hpasses : m.passes = true) (hcancel : m.voided.cancel = false) : Final (logged m.log) p := by
  have hanswer := h.answer
  have hpos := h.known.pos
  have hupTo := h.known.upTo
  have hbehind := hm.turns.behind
  subst hanswer
  simp only [Memory.voided, Bool.or_eq_false_iff] at hcancel
  obtain ⟨hc, houtdated⟩ := hcancel
  simp only [Memory.passes, hstop, hc, houtdated, Bool.false_or, Bool.or_false,
    decide_eq_true_eq] at hpasses
  simp only [Memory.outdated, Bool.or_eq_false_iff, Bool.and_eq_false_iff, decide_eq_false_iff_not,
    beq_eq_false_iff_ne] at houtdated
  simp only [UpTo, opening] at hupTo
  -- What is final opened last, and so did the turn of the answer.
  have hturn : m.openTurn = m.answerTurn := by omega
  have hrevision : m.openRevision = m.answerRevision := by omega
  have hfinal := (hm.turns.final (by omega)).resolve_left (by omega)
  rw [opening, hturn, hrevision] at hfinal
  exact hfinal

/-- **`conn_wait_final`**, after the release. -/
theorem outline_waitFinal :
    Outline (discipline P) .responder
      (fun heard m => Open p m ∧ (heard = true → Final (logged m.log) p))
      (fun m => Open p m ∧ Released p m.session.turn) connWaitFinal := by
  have hstable : ∀ heard : Bool, Stable (discipline P) .responder fun m : Memory F V =>
      Open p m ∧ (heard = true → Final (logged m.log) p) := by
    intro heard
    refine (steady_open P p).stable.and ?_
    cases heard with
    | false => exact fun _ _ _ _ _ _ _ _ _ _ _ _ h => by simp at h
    | true => exact fun _ _ _ _ _ _ _ _ _ _ hexec h _ => final_exec hexec (h rfl)
  have hallow : ∀ m : Memory F V, Kept m → Open p m ∧ Released p m.session.turn →
      Allowed .responder .waitFinal m := fun m _ h => by
    have hanswer := h.1.answer
    have hpos := h.1.known.pos
    subst hanswer
    exact ⟨⟨rfl, hpos, h.2⟩, trivial, trivial, trivial, by simp⟩
  refine Outline.perform Act.waitFinal
    (((steady_open P p).and (steady_released P p _)).stable) hstable hallow
    fun {x m r m'} hm hm' h hexec =>
      ⟨steady_open P p (a := .waitFinal) (fun _ => trivial) hm hm' (hallow m hm h) hexec h.1, ?_⟩
  change exec P .responder .waitFinal x m = some (r, m') at hexec
  obtain ⟨hpasses, rfl, rfl⟩ := waitFinal_cases hexec
  intro hheard
  simp only [Bool.and_eq_true, Bool.not_eq_true'] at hheard
  exact final_of_passes (m := m) hm h.1 hheard.1 hpasses hheard.2

/-- **The first lines of `conn_speak`**: what goes on is final. -/
theorem outline_hold :
    Outline (discipline P) .responder
      (fun held m => Open p m ∧ (held = true → Final (logged m.log) p)) (Open p) connHold := by
  have hstable : ∀ held : Bool, Stable (discipline P) .responder fun m : Memory F V =>
      Open p m ∧ (held = true → Final (logged m.log) p) := by
    intro held
    refine (steady_open P p).stable.and ?_
    cases held with
    | false => exact fun _ _ _ _ _ _ _ _ _ _ _ _ h => by simp at h
    | true => exact fun _ _ _ _ _ _ _ _ _ _ hexec h _ => final_exec hexec (h rfl)
  refine Outline.bind (Q := fun released m => Open p m ∧ (released = true → Final (logged m.log) p))
    ?_ fun released => ?_
  · refine Outline.perform (Act.load .answerReleased) (steady_open P p).stable hstable
      (fun _ _ _ => ⟨trivial, trivial, trivial, trivial, by simp⟩) fun {x m r m'} _ _ h hexec => ?_
    obtain ⟨rfl, rfl⟩ := done_inj hexec
    exact ⟨h, h.released⟩
  split
  · rename_i hreleased
    exact Outline.pure (hstable released) fun m _ h => ⟨h.1, fun _ => h.2 hreleased⟩
  refine Outline.strengthen (P := Open p) ?_ (hstable released) fun _ _ h => h.1
  refine Outline.bind (Q := fun answer m => Open p m ∧ answer = p) ?_ fun answer => ?_
  · refine Outline.perform (Act.load .answer) (steady_open P p).stable
      (fun answer => (steady_open P p).stable.and fun _ _ _ _ _ _ _ _ _ _ _ h => h)
      (fun _ _ _ => ⟨trivial, trivial, trivial, trivial, by simp⟩) fun {x m r m'} _ _ h hexec => ?_
    obtain ⟨rfl, rfl⟩ := done_inj hexec
    exact ⟨h, h.answer⟩
  refine Outline.assuming (answer = p)
    ((steady_open P p).stable.and fun _ _ _ _ _ _ _ _ _ _ _ h => h) (fun heq => ?_)
    fun _ _ h => h.2
  subst heq
  refine Outline.strengthen (P := Open answer) ?_
    ((steady_open P answer).stable.and fun _ _ _ _ _ _ _ _ _ _ _ h => h) fun _ _ h => h.1
  have hreleased := (steady_open P answer).and (steady_released P answer Act.Aside)
  refine (outline_responder_release (steady_open P answer) hreleased (fun _ h => h.owes)
    fun {x m r m'} hm hm' hallow h hexec =>
      ⟨steady_open P answer (a := .session _) (x := x) (fun _ => trivial) hm hm' hallow hexec h,
        released_release hm (x := x) hexec h.known⟩).bind fun _ => ?_
  refine outline_waitFinal.bind fun heard => ?_
  split
  · rename_i hheard
    refine Outline.bind (Q := fun _ m => Open answer m ∧ Final (logged m.log) answer) ?_ fun _ =>
      Outline.pure ((steady_open P answer).stable.and (steady_final P answer Act.Aside).stable)
        fun _ _ h => ⟨h.1, fun _ => h.2⟩
    refine Outline.perform Act.setReleased (hstable heard)
      (fun _ => (steady_open P answer).stable.and (steady_final P answer Act.Aside).stable)
      (fun _ _ _ => ⟨rfl, trivial, trivial, trivial, by simp⟩) fun {x m r m'} _ _ h hexec => ?_
    obtain ⟨-, rfl⟩ := done_inj hexec
    obtain ⟨hopen, hfinal⟩ := h
    exact ⟨⟨⟨hopen.known, hopen.owes, hopen.taken, hopen.bracket, hopen.count⟩, hopen.answer,
      fun _ => hfinal hheard⟩, hfinal hheard⟩
  · exact Outline.pure (hstable heard) fun m _ h => ⟨h.1, fun h => by simp at h⟩

/-- The callback of `conn_speak`. -/
theorem outline_speakTap (unit : SentenceUnit) (voice : Voice) (samples : ℕ) (pcm : List F) :
    Outline (discipline P) .responder (fun _ m => Open p m ∧ Final (logged m.log) p)
      (fun m => Open p m ∧ Final (logged m.log) p) (speakTap unit voice samples pcm) := by
  have hK := (steady_open P p).and (steady_final P p Act.Aside)
  have hrest : ∀ pcm : List F, Outline (discipline P) .responder
      (fun _ m => Open p m ∧ Final (logged m.log) p) (fun m => Open p m ∧ Final (logged m.log) p)
      (do connSend (.audio pcm)
          let cancelled ← loadCancel
          pure !cancelled) := fun pcm =>
    (outline_sound (.audio pcm) trivial).bind fun _ => (outline_loadCancel hK).bind fun _ =>
      outline_pure hK _
  have heffect : Outline (discipline P) .responder (fun _ m => Open p m ∧ Final (logged m.log) p)
      (fun m => Open p m ∧ Final (logged m.log) p)
      (do let pcm ← if voice.effect = ascii "jarvis" then ask (.jarvis pcm) else pure pcm
          connSend (.audio pcm)
          let cancelled ← loadCancel
          pure !cancelled) := by
    split
    · exact (outline_ask hK (.jarvis pcm) (by simp)).bind fun pcm => hrest pcm
    · exact hrest pcm
  unfold speakTap
  by_cases hfirst : samples = 0 ∧ pcm ≠ []
  · rw [if_pos hfirst]
    exact (outline_sound (.spoken unit.text unit.textEnd) trivial).bind fun _ => heffect
  · rw [if_neg hfirst]
    exact heffect

theorem outline_bridgeChunks (unit : SentenceUnit) (voice : Voice) (chunks : List (List F))
    (samples : ℕ) :
    Outline (discipline P) .responder (fun _ m => Open p m ∧ Final (logged m.log) p)
      (fun m => Open p m ∧ Final (logged m.log) p) (ttsBridgeChunks unit voice samples chunks) := by
  have hK := (steady_open P p).and (steady_final P p Act.Aside)
  induction chunks generalizing samples with
  | nil => exact outline_pure hK ()
  | cons pcm chunks ih =>
    refine (outline_loadCancel hK).bind fun cancelled => ?_
    split
    · exact outline_pure hK ()
    refine (outline_speakTap unit voice samples pcm).bind fun go => ?_
    split
    · exact ih _
    · exact outline_pure hK ()

theorem outline_bridgeSpeak (unit : SentenceUnit) (voice : Voice) :
    Outline (discipline P) .responder (fun _ m => Open p m ∧ Final (logged m.log) p)
      (fun m => Open p m ∧ Final (logged m.log) p) (ttsBridgeSpeak P unit voice) := by
  have hK := (steady_open P p).and (steady_final P p Act.Aside)
  unfold ttsBridgeSpeak
  split
  · exact outline_pure hK false
  refine (outline_loadCancel hK).bind fun cancelled => ?_
  split
  · exact outline_pure hK false
  generalize (if voice.voice = [] then P.defaultVoice else voice.voice) = named
  split
  · exact outline_pure hK false
  exact (outline_ask hK (.synthesize unit.text) (by simp)).bind fun chunks =>
    (outline_bridgeChunks unit voice chunks 0).bind fun _ => outline_ask hK .synthesized (by simp)

/-- **`conn_speak`.** -/
theorem outline_speak (unit : SentenceUnit) (voice : Voice) :
    Outline (discipline P) .responder (fun _ => Open p) (Open p) (connSpeak P unit voice) := by
  have hK := steady_open P p
  refine outline_hold.bind fun held => ?_
  split
  · rename_i hheld
    refine Outline.bind (Q := fun _ => Open p) ?_ fun spoke => ?_
    · refine ((outline_bridgeSpeak unit voice).weaken fun _ _ _ h => h.1).strengthen
        (Stable.and hK.stable ?_) fun _ _ h => ⟨h.1, h.2 hheld⟩
      rw [hheld]
      exact fun _ _ _ _ _ _ _ _ _ _ hexec h _ => final_exec hexec (h rfl)
    refine (outline_loadCancel hK).bind fun cancelled => ?_
    split
    · exact (outline_ask hK .lastError (by simp)).bind fun message =>
        (outline_plain hK (.error message) trivial).bind fun _ => outline_pure hK spoke
    · exact outline_pure hK spoke
  · rename_i hheld
    refine Outline.pure (hK.stable.and ?_) fun _ _ h => h.1
    exact fun _ _ _ _ _ _ _ _ _ _ _ _ h => absurd h hheld

/-! ### The stream and the agent -/

theorem outline_speakUnits (voice : Voice) (units : List SentenceUnit) :
    Outline (discipline P) .responder (fun _ => Open p) (Open p) (speakUnits P voice units) := by
  have hK := steady_open P p
  induction units with
  | nil => exact outline_pure hK true
  | cons unit units ih =>
    refine (outline_speak unit voice).bind fun spoke => ?_
    split
    · exact ih
    · exact outline_pure hK false

theorem outline_delta (tap : StreamTap S) (delta : Bytes) :
    Outline (discipline P) .responder (fun _ => Open p) (Open p) (onDelta P tap delta) := by
  have hK := steady_open P p
  refine (outline_silent (.textDelta delta) rfl (by simp) (by simp) id).bind fun _ => ?_
  refine (outline_speakUnits tap.voice _).bind fun spoke => ?_
  split
  · exact (outline_loadCancel hK).bind fun _ => outline_pure hK _
  · exact outline_pure hK _

/-- A stream, whatever its callback does with the answer. -/
theorem outline_stream {T : Type} {onText : T → Bytes → Program F (Bool × T)}
    (htext : ∀ t delta, Outline (discipline P) .responder (fun _ => Open p) (Open p) (onText t delta))
    (t : T) (messages : List Message) :
    Outline (discipline P) .responder (fun _ => Open p) (Open p)
      (llmClientStream onText t messages) := by
  have hK := steady_open P p
  have hfeed : ∀ (deltas : List Bytes) (t : T), Outline (discipline P) .responder (fun _ => Open p)
      (Open p) (feed onText t deltas) := by
    intro deltas
    induction deltas with
    | nil => exact fun t => outline_pure hK _
    | cons delta deltas ih =>
      intro t
      refine (htext t _).bind fun heard => ?_
      split
      · exact ih _
      · exact outline_pure hK _
  refine (outline_ask hK (.stream messages) (by simp)).bind fun deltas => ?_
  refine (hfeed deltas t).bind fun fed => (outline_ask hK .streamed (by simp)).bind fun calls => ?_
  refine (outline_loadCancel hK).bind fun cancelled => ?_
  split
  · exact outline_pure hK _
  · exact outline_pure hK _

theorem outline_agentTap (t : AgentTap S) (delta : Bytes) :
    Outline (discipline P) .responder (fun _ => Open p) (Open p) (llmAgentTap P t delta) := by
  have hK := steady_open P p
  unfold llmAgentTap
  split
  · split
    · exact (outline_delta t.tap delta).bind fun heard => outline_pure hK _
    · refine (outline_delta t.tap [0x20]).bind fun spaced => ?_
      split
      · exact (outline_delta spaced.2 delta).bind fun heard => outline_pure hK _
      · exact outline_pure hK _
  · exact (outline_delta t.tap delta).bind fun heard => outline_pure hK _

/-- The answer is open, and the client sees a call of `name`. -/
abbrev Calling (p : ℕ × ℕ) (name : Bytes) (m : Memory F V) : Prop :=
  Published p (.calling name) 0 m

/-- A built-in tool, which may say that the voice changed. -/
theorem outline_setVoice (hK : Steady (discipline P) .responder Act.Aside K) (voice : Voice)
    (arguments : Bytes) :
    Outline (discipline P) .responder (fun _ => K) K (connSetVoice P voice arguments) := by
  unfold connSetVoice
  dsimp only
  split
  · exact outline_pure hK _
  split
  · exact outline_pure hK _
  exact (outline_beside hK (.setVoice _ _) trivial fun _ _ _ => ⟨trivial, trivial, trivial, trivial⟩).bind
    fun _ => (outline_plain hK (.voice _ _) trivial).bind fun _ => outline_pure hK _

/-- **A tool call**, between the two frames that tell of it. -/
theorem outline_call (hK : Steady (discipline P) .responder Act.Aside K)
    (available : List AgentTool) (voice : Voice) (call : Call) :
    Outline (discipline P) .responder (fun _ => K) K (llmAgentCall P available voice call) := by
  unfold llmAgentCall
  split
  · exact outline_pure hK _
  split
  · exact outline_setVoice hK voice call.arguments
  · exact ((outline_ask hK .sleep (by simp)).bind fun off => outline_pure hK _).bind fun _ =>
      outline_pure hK _
  · exact (outline_ask hK (.call _ _ _) (by simp)).bind fun _ => outline_pure hK _

/-- **The calls of a round**, each told before the next starts. -/
theorem outline_runCalls (params : Params) (available : List AgentTool) (calls : List Call)
    (voice : Voice) :
    Outline (discipline P) .responder (fun _ => Open p) (Open p)
      (runCalls P params available voice calls) := by
  have hK := steady_open P p
  induction calls generalizing voice with
  | nil => exact outline_pure hK _
  | cons call calls ih =>
    have hcalling : Steady (discipline P) .responder Act.Aside (Calling p call.name) :=
      steady_published P p _ 0
    have hdone : ∀ (ok : Bool) (ms : ℚ) (bytes : ℕ), Outline (discipline P) .responder
        (fun _ => Open p) (Calling p call.name) (connSend (.toolDone call.name ok ms bytes)) :=
      fun ok ms bytes => outline_silent (.toolDone call.name ok ms bytes) (by simp [Bracket.frame])
        (by simp) (by simp) id
    refine (outline_ask hK .clock (by simp)).bind fun start => ?_
    refine (outline_silent (.toolStarted call.name) rfl (by simp) (by simp) id).bind fun _ => ?_
    refine (outline_call hcalling available voice call).bind fun called => ?_
    refine (outline_ask hcalling .clock (by simp)).bind fun stop => ?_
    split
    · exact (hdone _ _ _).bind fun _ => (ih _).bind fun _ => outline_pure hK _
    · refine (hdone _ _ _).bind fun _ => (outline_loadCancel hK).bind fun cancelled => ?_
      split
      · exact outline_pure hK _
      · exact (outline_ask hK .lastError (by simp)).bind fun _ => (ih _).bind fun _ =>
          outline_pure hK _

theorem outline_rounds (params : Params) (available : List AgentTool) (n : ℕ) (tap : StreamTap S)
    (messages : List Message) (text : Bytes) :
    Outline (discipline P) .responder (fun _ => Open p) (Open p)
      (rounds P params available n tap messages text) := by
  have hK := steady_open P p
  induction n generalizing tap messages text with
  | zero => exact outline_pure hK _
  | succ n ih =>
    refine (outline_stream outline_agentTap _ messages).bind fun streamed => ?_
    split
    · exact outline_pure hK _
    dsimp only
    split
    · exact outline_pure hK _
    refine (outline_runCalls params available _ _).bind fun called => ?_
    split
    · exact outline_pure hK _
    · exact ih _ _ _

/-- **`llm_agent_run`.** -/
theorem outline_agentRun (client : Settings) (tap : StreamTap S) (messages : List Message) :
    Outline (discipline P) .responder (fun _ => Open p) (Open p)
      (llmAgentRun P client tap messages) := by
  have hK := steady_open P p
  refine (outline_ask hK .gather (by simp)).bind fun gathered => ?_
  split
  · exact outline_pure hK _
  refine (outline_ask hK (.setParams _) (by simp)).bind fun set => ?_
  split
  · exact outline_rounds client.llm _ _ tap messages []
  · exact outline_pure hK _

/-! ### One answer -/

theorem outline_respond (job : AnswerJob) (client : Settings) :
    Outline (discipline P) .responder (fun _ => Open p) (Open p) (respond P job client) := by
  have hK := steady_open P p
  -- What is left once the model has answered: the tail, and what went wrong.
  have hend : ∀ streamed : Bool × Bytes × StreamTap S, Outline (discipline P) .responder
      (fun _ => Open p) (Open p)
      (do
        let cancelled ← loadCancel
        if !streamed.1 && !cancelled then do
          let message ← ask .lastError
          connError message
        else if streamed.1 && streamed.2.1.isEmpty then
          connError (ascii "[LLM] The model answered nothing")
        else pure ()
        pure streamed.2.2.voice.effect) := fun streamed => by
    refine (outline_loadCancel hK).bind fun cancelled => ?_
    split
    · exact (outline_ask hK .lastError (by simp)).bind fun message =>
        (outline_plain hK (.error message) trivial).bind fun _ => outline_pure hK _
    split
    · exact (outline_plain hK (.error _) trivial).bind fun _ => outline_pure hK _
    · exact outline_pure hK _
  have hrest : ∀ streamed : Bool × Bytes × StreamTap S, Outline (discipline P) .responder
      (fun _ => Open p) (Open p)
      (do
        let tail := P.splitFlush streamed.2.2.splitter
        if streamed.1 = true ∧ tail.text ≠ [] then do
          let _ ← connSpeak P tail streamed.2.2.voice
          pure ()
        else pure ()
        let cancelled ← loadCancel
        if !streamed.1 && !cancelled then do
          let message ← ask .lastError
          connError message
        else if streamed.1 && streamed.2.1.isEmpty then
          connError (ascii "[LLM] The model answered nothing")
        else pure ()
        pure streamed.2.2.voice.effect) := fun streamed => by
    by_cases htail : streamed.1 = true ∧ (P.splitFlush streamed.2.2.splitter).text ≠ []
    · dsimp only
      rw [if_pos htail]
      exact (outline_speak _ _).bind fun _ => hend streamed
    · dsimp only
      rw [if_neg htail]
      exact hend streamed
  unfold respond
  by_cases hmode : client.mode = ascii "agentic"
  · dsimp only
    rw [if_pos hmode]
    exact (outline_agentRun client _ _).bind fun streamed => hrest streamed
  · dsimp only
    rw [if_neg hmode]
    exact ((outline_stream outline_delta _ _).bind fun _ => outline_pure hK _).bind
      fun streamed => hrest streamed

theorem outline_compose (job : AnswerJob) (client : Settings) :
    Outline (discipline P) .responder (fun _ => Open p) (Open p) (compose P job client) := by
  have hK := steady_open P p
  refine (outline_loadCancel hK).bind fun cancelled => ?_
  split
  · exact outline_pure hK _
  split
  · split
    · exact outline_pure hK _
    · exact (outline_speak _ _).bind fun _ => outline_pure hK _
  split
  · exact (outline_plain hK (.error _) trivial).bind fun _ => outline_pure hK _
  refine (outline_ask hK (.endpoint client.llm) (by simp)).bind fun ready => ?_
  split
  · exact outline_respond job client
  · exact (outline_ask hK .lastError (by simp)).bind fun message =>
      (outline_plain hK (.error message) trivial).bind fun _ => outline_pure hK _

/-- The echo at the end, of an answer that was heard. -/
theorem outline_echo (effect : Bytes) :
    Outline (discipline P) .responder (fun _ => Open p) (Open p) (connEcho effect) := by
  have hK := steady_open P p
  have hstable : ∀ released : Bool, Stable (discipline P) .responder fun m : Memory F V =>
      Open p m ∧ (released = true → Final (logged m.log) p) := by
    intro released
    refine hK.stable.and ?_
    cases released with
    | false => exact fun _ _ _ _ _ _ _ _ _ _ _ _ h => by simp at h
    | true => exact fun _ _ _ _ _ _ _ _ _ _ hexec h _ => final_exec hexec (h rfl)
  unfold connEcho
  split
  · refine Outline.bind (Q := fun released m => Open p m ∧
      (released = true → Final (logged m.log) p)) ?_ fun released => ?_
    · refine Outline.perform (Act.load .answerReleased) hK.stable hstable
        (fun _ _ _ => ⟨trivial, trivial, trivial, trivial, by simp⟩) fun {x m r m'} _ _ h hexec => ?_
      obtain ⟨rfl, rfl⟩ := done_inj hexec
      exact ⟨h, h.released⟩
    split
    · rename_i hreleased
      have hF := hK.and (steady_final P p Act.Aside)
      refine Outline.weaken (Q := fun _ m => Open p m ∧ Final (logged m.log) p) ?_
        fun _ _ _ h => h.1
      refine Outline.strengthen (P := fun m => Open p m ∧ Final (logged m.log) p) ?_
        (hstable released) fun _ _ h => ⟨h.1, h.2 hreleased⟩
      refine (outline_loadCancel hF).bind fun cancelled => ?_
      split
      · exact outline_pure hF ()
      · exact (outline_ask hF .jarvisTail (by simp)).bind fun tail =>
          outline_sound (.audio tail) trivial
    · exact Outline.pure (hstable released) fun _ _ h => h.1
  · exact outline_pure hK ()

/-- The release at the end of a job, whichever way it ended. -/
theorem outline_finish {K : Memory F V → Prop}
    (hK : Steady (discipline P) .responder Act.Aside K) (hholding : ∀ m, K m → ∃ left,
      Holding p .closed left m ∧ (m.stop = false → left = 0)) :
    Outline (discipline P) .responder (fun _ => Idle) K (connRelease p.1 p.2) := by
  refine outline_responder_release hK (steady_idle P)
    (fun m h => (hholding m h).elim fun _ h => h.1.owes) fun {x m r m'} hm hm' hallow h hexec => ?_
  obtain ⟨left, hold, hleft⟩ := hholding m h
  obtain ⟨-, hbracket, hcreated, htakes⟩ :=
    aside_log (a := .session _) (x := x) trivial hold.bracket hexec
  refine ⟨?_, hbracket, fun hstop => ?_⟩
  · obtain ⟨-, rfl⟩ := done_inj hexec
    rfl
  · have hcount := hold.count
    have hbefore : m.stop = false := by_contra fun hnot => by
      rw [stop_exec (a := .session _) (x := x) hexec (by simpa using hnot)] at hstop
      simp at hstop
    rw [hcreated, htakes]
    rw [hleft hbefore] at hcount
    exact hcount

/-- **`conn_answer`**: the answer is opened and closed, and the job released at each end. -/
theorem outline_answer (job : AnswerJob) :
    Outline (discipline P) .responder (fun _ => Idle)
      (Holding (job.turnId, job.revision) .closed 1) (connAnswer P job) := by
  set p := (job.turnId, job.revision) with hp
  have hheld : ∀ left, Steady (discipline P) .responder Act.Aside (Holding p .closed left) :=
    fun left => steady_holding P p .closed left
  refine Outline.bind (Q := fun stop m => Holding p .closed 1 m ∧ (stop = true → m.stop = true))
    ?_ fun stop => ?_
  · refine Outline.perform (Act.load .stop) (hheld 1).stable (fun stop => (hheld 1).stable.and ?_)
      (fun _ _ _ => ⟨trivial, trivial, trivial, trivial, by simp⟩) fun {x m r m'} _ _ h hexec => ?_
    · exact fun _ _ _ _ _ _ _ _ _ _ hexec h heq => stop_exec hexec (h heq)
    · obtain ⟨rfl, rfl⟩ := done_inj hexec
      exact ⟨h, fun heq => heq⟩
  cases stop with
  | true =>
    have hstopped := (hheld 1).and (steady_stop P Act.Aside)
    refine Outline.strengthen (P := fun m => Holding p .closed 1 m ∧ m.stop = true)
      (outline_finish hstopped fun m h => ⟨1, h.1, fun hnot => by simp [h.2] at hnot⟩)
      ((hheld 1).stable.and fun _ _ _ _ _ _ _ _ _ _ hexec h heq => stop_exec hexec (h heq))
      fun _ _ h => ⟨h.1, h.2 rfl⟩
  | false =>
    refine Outline.strengthen (P := Holding p .closed 1) ?_
      ((hheld 1).stable.and fun _ _ _ _ _ _ _ _ _ _ _ _ h => by simp at h) fun _ _ h => h.1
    refine (outline_beside (hheld 1) (.storeCancel false) trivial
      fun _ _ _ => ⟨trivial, trivial, trivial, trivial⟩).bind fun _ => ?_
    refine (outline_beside (hheld 1) (.load .client) trivial
      fun _ _ _ => ⟨trivial, trivial, trivial, trivial⟩).bind fun client => ?_
    refine Outline.bind (Q := fun _ => Published p .closed 1) ?_ fun _ => ?_
    · refine Outline.perform (Act.publish _ _) (hheld 1).stable
        (fun _ => (steady_published P p .closed 1).stable)
        (fun _ _ _ => ⟨rfl, trivial, trivial, trivial, by simp⟩) fun {x m r m'} _ _ h hexec => ?_
      obtain ⟨-, rfl⟩ := done_inj hexec
      exact ⟨⟨h.known, h.owes, h.taken, h.bracket, h.count⟩, rfl, fun hr => by simp at hr⟩
    refine Outline.bind (Q := fun _ => Open p) ?_ fun _ => ?_
    · refine Outline.perform (Act.send .created) (steady_published P p .closed 1).stable
        (fun _ => (steady_open P p).stable) (fun m _ h => ?_) fun {x m r m'} _ _ h hexec => ?_
      · have hcount := h.count
        refine ⟨trivial, ⟨⟨.opened, by rw [h.bracket]; rfl⟩, fun hs => hs.elim, fun _ => by omega,
          by simp, fun _ => rfl⟩, trivial, trivial, by simp⟩
      · have hlog : m'.log = m.log ++ [.frame .responder .created] :=
          log_exec (P := P) (a := .send .created) (x := x) hexec
        have hstate : m'.toTurnState = m.toTurnState :=
          turnState_exec (P := P) (a := .send .created) (x := x) id hexec
        obtain ⟨hturn, hrev, hreleased⟩ :=
          answer_exec (P := P) (a := .send .created) (x := x) id hexec
        refine ⟨⟨hstate ▸ h.known, fun q hq => h.owes q (by rw [← hstate]; exact hq), ?_, ?_, ?_⟩,
          by rw [hturn, hrev]; exact h.answer, fun hr => ?_⟩
        · rw [hlog, answerOf_snoc]
          exact h.taken
        · rw [hlog, bracketOf_snoc, h.bracket]
          rfl
        · rw [hlog, created_append, takes_append]
          exact h.count
        · rw [hlog, logged_append]
          exact (h.released (hreleased ▸ hr)).append _
    refine (outline_compose job client).bind fun effect => (outline_echo effect).bind fun _ => ?_
    refine (outline_beside (steady_open P p) (.storeSpeaking false) trivial
      fun _ _ _ => ⟨rfl, trivial, trivial, trivial⟩).bind fun _ => ?_
    refine (outline_loadCancel (steady_open P p)).bind fun cancelled => ?_
    have hclosed : Outline (discipline P) .responder (fun _ => Published p .closed 0) (Open p)
        (connSend (if cancelled then .cancelled else .done)) := by
      split
      · exact outline_silent .cancelled rfl (by simp) (by simp) id
      · exact outline_silent .done rfl (by simp) (by simp) id
    exact hclosed.bind fun _ => outline_finish (steady_published P p .closed 0)
      fun m h => ⟨0, h.toHolding, fun _ => rfl⟩

/-- **The responder.** -/
theorem outline_responder :
    Outline (discipline P) .responder (fun _ => Idle) Idle (connResponder P) := by
  refine Outline.bind (Q := fun next m =>
    next.elim (Idle m) fun job => Holding (job.turnId, job.revision) .closed 1 m) ?_ fun next => ?_
  · refine Outline.perform Act.popAnswer (steady_idle P).stable (fun next => ?_)
      (fun m hm h => ⟨⟨rfl, h.answering⟩, ⟨h.bracket, h.count⟩, trivial, trivial, by simp⟩)
      fun {x m r m'} hm hm' h hexec => ?_
    · cases next with
      | none => exact (steady_idle P).stable
      | some job => exact (steady_holding P _ .closed 1).stable
    · have hknown := hm'.turns.known
      change exec P .responder .popAnswer x m = some (r, m') at hexec
      rcases popAnswer_cases hexec with ⟨-, rfl, rfl⟩ | ⟨hstop, job, answers, -, rfl, rfl⟩
      · exact h
      · refine ⟨hknown _ (.inr (.inr (.inr rfl))), fun q hq => (Option.some.inj hq).symm, ?_, ?_, ?_⟩
        · exact answerOf_snoc _ _
        · exact (bracketOf_snoc _ _).trans h.bracket
        · have hcount := h.count hstop
          change created (m.log ++ [_]) + 1 = takes (m.log ++ [_])
          rw [created_append, takes_append, hcount]
          rfl
  · cases next with
    | none => exact outline_pure (steady_idle P) false
    | some job => exact (outline_answer job).bind fun _ => outline_pure (steady_idle P) true

end Outlines

/-! ### Every thread -/

/-- **The four threads keep to the discipline.** -/
def outlined (P : Setup F V S) : Outlined (discipline P) where
  before
    | .reader => fun _ => True
    | .recognizer => Rests
    | .responder => Idle
    | .writer => fun _ => True
  after
    | .reader => fun _ _ => True
    | .recognizer => fun _ => Rests
    | .responder => fun _ => Idle
    | .writer => fun _ _ => True
  starts := by
    intro role
    cases role with
    | reader => trivial
    | recognizer => rfl
    | responder => exact ⟨rfl, rfl, fun _ => rfl⟩
    | writer => trivial
  again := by
    intro role m _ h
    cases role <;> exact h
  bodies := by
    intro role
    cases role with
    | reader => exact outline_reader P
    | recognizer => exact outline_recognizer P
    | responder => exact outline_responder
    | writer => exact outline_writer P

/-- **Whatever the threads reach is kept.** -/
theorem kept_of_reaches {P : Setup F V S} {c : Config Role (Act F) Act.Result (Memory F V)}
    (h : Reaches (connection P) c) : Kept c.mem :=
  (outlined P).inv h

/-- **Whatever a thread does next is allowed.** -/
theorem allowed_of_reaches {P : Setup F V S} {c : Config Role (Act F) Act.Result (Memory F V)}
    (h : Reaches (connection P) c) {role : Role} {a : Act F} {next : a.Result → Program F Bool}
    (hprog : c.prog role = .act a next) : Allowed role a c.mem :=
  (outlined P).allowed h hprog

end Conversation
end S2S
