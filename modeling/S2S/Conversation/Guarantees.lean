/-
# What a connection guarantees

Over every interleaving of the four threads, whatever the client sends and the
world answers: no sound of an answer before its turn is final
(`soundIsFinal_of_reaches`), no turn left behind (`accounted_of_reaches`), the frames of the
answers in their brackets (`bracketed_of_reaches`), and every turn recognized
once (`recognized_of_reaches`).
-/

import S2S.Conversation.Responder

namespace S2S
namespace Conversation

open Json Llm Agent Session Thread TurnState

/-! ### Runs -/

/-- Samples that say themselves whether somebody speaks, a millisecond each; whoever stops speaking
is done. -/
def plainModels : Models ℕ Unit where
  window := 1
  sampleRate := 1000
  stWindow := 1
  prob := fun vad window => (window.headD 0, vad)
  predict := fun _ => 1
  ge := fun a b => decide (b ≤ a)
  lt := fun a b => decide (a < b)
  zero := 0
  window_pos := Nat.one_pos

/-- A connection that answers in one mode, and splits no answer. -/
def plainSetup (mode : Bytes) : Setup ℕ Unit Unit where
  models := plainModels
  vad := ()
  params := { vadNegThreshold := 1, vadThreshold := 1, minSpeechMs := 1, bargeInMs := 1,
              minSilenceMs := 1, minSpeechContinuationMs := 1, speechPadMs := 1, turnThreshold := 1,
              reopenGraceMs := 1 }
  defaults := { mode := mode, systemPrompt := [], history := [],
                llm := { baseUrl := ascii "http://localhost" }, tools := [], maxRounds := 1,
                voice := [], effect := [], minChars := 0 }
  splitter := ()
  splitPush := fun splitter _ => ([], splitter)
  splitFlush := fun _ => ⟨[], 0⟩
  utf16Len := List.length
  voices := [[]]
  defaultVoice := []
  effects := []

/-- What the world answers, the client with one frame. -/
def plainWorld (incoming : Incoming ℕ) : (a : Act ℕ) → a.Input
  | .ask .read => incoming
  | .ask (.transport _) => true
  | .ask (.transcribe _) => some (ascii "hello")
  | .ask (.admits _ _) => true
  | .ask (.endpoint _) => true
  | .ask (.stream _) => []
  | .ask .streamed => some []
  | .ask .gather => some []
  | .ask (.setParams _) => true
  | .ask (.call _ _ _) => none
  | .ask .sleep => true
  | .ask (.synthesize _) => [[1]]
  | .ask .synthesized => true
  | .ask (.jarvis pcm) => pcm
  | .ask .jarvisTail => []
  | .ask .clock => 0
  | .ask .lastError => []
  | .opened _ _ => false
  | .load _ => ()
  | .send _ => ()
  | .popOut => ()
  | .dropOut => ()
  | .closeOut => ()
  | .lockSession => ()
  | .unlockSession => ()
  | .session _ => ()
  | .callback _ => ()
  | .returned => ()
  | .final _ => ()
  | .enqueue _ => ()
  | .popQueue => ()
  | .pushAnswer _ => ()
  | .popAnswer => ()
  | .publish _ _ => ()
  | .waitFinal => ()
  | .setReleased => ()
  | .storeSpeaking _ => ()
  | .storeCancel _ => ()
  | .setStop => ()
  | .stopped => ()
  | .patch _ => ()
  | .history _ => ()
  | .setVoice _ _ => ()

/-- As many steps of one thread. -/
def steps (role : Role) (incoming : Incoming ℕ) (n : ℕ) : List (Role × ((a : Act ℕ) → a.Input)) :=
  List.replicate n (role, plainWorld incoming)

/-- A turn of one sample, up to the gate. -/
def upToGate : List (Role × ((a : Act ℕ) → a.Input)) :=
  steps .reader (.audio [] [1, 0]) 16 ++ steps .recognizer .other 6 ++ steps .responder .other 12

/-- Silence makes it final, and its answer is heard. -/
def throughGate : List (Role × ((a : Act ℕ) → a.Input)) :=
  upToGate ++ steps .reader (.audio [] [0, 0]) 11 ++ steps .responder .other 16

/-- The end of a schedule. -/
def played (mode : Bytes) (schedule : List (Role × ((a : Act ℕ) → a.Input)))
    (h : (play (connection (plainSetup mode)) (connection (plainSetup mode)).start schedule).isSome) :
    Config Role (Act ℕ) Act.Result (Memory ℕ Unit) :=
  (play (connection (plainSetup mode)) (connection (plainSetup mode)).start schedule).get h

theorem reaches_played {mode : Bytes} {schedule : List (Role × ((a : Act ℕ) → a.Input))}
    (h : (play (connection (plainSetup mode)) (connection (plainSetup mode)).start schedule).isSome) :
    Reaches (connection (plainSetup mode)) (played mode schedule h) :=
  Reaches.start.play (Option.some_get h).symm

theorem upToGate_isSome : (play (connection (plainSetup (ascii "loopback")))
    (connection (plainSetup (ascii "loopback"))).start upToGate).isSome = true := by
  decide +kernel

theorem throughGate_isSome : (play (connection (plainSetup (ascii "loopback")))
    (connection (plainSetup (ascii "loopback"))).start throughGate).isSome = true := by
  decide +kernel

variable {F V S : Type} {P : Setup F V S} {c : Config Role (Act F) Act.Result (Memory F V)}

/-! ### Sound -/

/-- **No sound before the turn is final.**  Where the responder queued a frame of sound, the session
had said that the turn was final, at the revision the answer is to; and nothing that the session
had said before that was of a later revision or a later turn. -/
def SoundIsFinal (log : List (Entry F)) : Prop :=
  ∀ before role f after, log = before ++ .frame role f :: after → f.Sound →
    role = .responder ∧ ∃ p earlier r later, answerOf before = some p ∧
      logged before = earlier ++ r :: later ∧ r.event = .turnFinal ∧ r.pair = p ∧
      ∀ r' ∈ earlier, UpTo r'.pair p

/-- **Sound waits for the turn**, in every order of the threads. -/
theorem soundIsFinal_of_reaches (h : Reaches (connection P) c) : SoundIsFinal c.mem.log := by
  intro before role f after hlog hsound
  have hkept := kept_of_reaches h
  obtain ⟨hrole, p, htaken, r, hr, hevent, hpair⟩ := hkept.frames.sound before role f after hlog hsound
  obtain ⟨earlier, later, hsplit⟩ := List.append_of_mem hr
  refine ⟨hrole, p, earlier, r, later, htaken, hsplit, hevent, hpair, fun r' hr' => ?_⟩
  have hordered := hkept.turns.ordered
  rw [hlog, logged_append, hsplit, List.append_assoc] at hordered
  rw [← hpair]
  exact (List.pairwise_append.1 hordered).2.2 r' hr' r (by simp)

/-- A turn answered in loopback, which is heard. -/
theorem soundIsFinal_loopback :
    SoundIsFinal (played _ _ throughGate_isSome).mem.log ∧
      ((played _ _ throughGate_isSome).mem.log.any fun
        | .frame _ (.audio _) => true
        | _ => false) = true :=
  ⟨soundIsFinal_of_reaches (reaches_played throughGate_isSome), by decide +kernel⟩

/-! ### Frames -/

/-- **The answers as the client sees them.**  They open and close one after the other, with
everything that belongs to one inside; none opens before its transcript; and once the responder
waits for the next job, with none left and no transcript on its way there, there were as many as
transcripts. -/
structure Bracketed (c : Config Role (Act F) Act.Result (Memory F V)) : Prop where
  bracket : ∃ b, bracketOf c.mem.log = some b
  told : ∀ l, l <+: c.mem.log → created l ≤ transcripts l
  answered : ∀ next, c.prog .responder = .act .popAnswer next → c.mem.stop = false →
    c.mem.answers = [] → (∀ job next, c.prog .recognizer ≠ .act (.pushAnswer job) next) →
    created c.mem.log = transcripts c.mem.log

/-- **The frames come in brackets**, in every order of the threads. -/
theorem bracketed_of_reaches (h : Reaches (connection P) c) : Bracketed c := by
  have hkept := kept_of_reaches h
  refine ⟨hkept.frames.bracket, hkept.frames.told, fun next hnext hstop hanswers hrec => ?_⟩
  have hanswered : created c.mem.log = takes c.mem.log :=
    (allowed_of_reaches h hnext).frames.2 hstop
  have htaken := hkept.frames.taken
  have hhanded : transcripts c.mem.log = gives c.mem.log := by
    cases hprog : c.prog .recognizer with
    | done again => exact hkept.frames.handed ((outlined P).ended h hprog)
    | act a next =>
      refine (allowed_of_reaches h hprog).handed rfl fun job heq => ?_
      subst heq
      exact hrec job next hprog
  rw [hanswers, List.length_nil] at htaken
  omega

/-- The same turn, once its answer is over. -/
theorem bracketed_loopback : Bracketed (played _ _ throughGate_isSome) :=
  bracketed_of_reaches (reaches_played throughGate_isSome)

/-! ### Turns -/

/-- A turn that the recognizer or the responder is said to have is in its hands: it is in the
middle of something. -/
theorem in_hand (h : Reaches (connection P) c) :
    (c.mem.recognizing ≠ none → ∃ a next, c.prog .recognizer = .act a next ∧ a ≠ .popQueue) ∧
      (c.mem.answering ≠ none → ∃ a next, c.prog .responder = .act a next ∧ a ≠ .popAnswer) := by
  constructor
  · intro hrec
    cases hprog : c.prog .recognizer with
    | done again => exact absurd ((outlined P).ended h hprog) hrec
    | act a next =>
      refine ⟨a, next, rfl, fun heq => ?_⟩
      subst heq
      exact hrec (allowed_of_reaches h hprog).turns.2
  · intro hrec
    cases hprog : c.prog .responder with
    | done again => exact absurd ((outlined P).ended h hprog).answering hrec
    | act a next =>
      refine ⟨a, next, rfl, fun heq => ?_⟩
      subst heq
      exact hrec (allowed_of_reaches h hprog).turns.2

/-- What the responder waits for, while nothing lets it through. -/
theorem waits_for (h : Reaches (connection P) c) {next : Bool → Program F Bool}
    (hnext : c.prog .responder = .act .waitFinal next) (hdue : c.mem.due = [])
    (hpasses : c.mem.passes = false) :
    c.mem.session.turn = ⟨.committed true, c.mem.answerTurn, c.mem.answerRevision,
      c.mem.session.speaking⟩ := by
  have hkept := kept_of_reaches h
  obtain ⟨-, hpos, ⟨hbehind, hfree⟩⟩ := (allowed_of_reaches h hnext).turns
  obtain ⟨⟨hopening, hfinal, -⟩, -⟩ := hkept.turns.viewed hdue
  simp only [Memory.passes, Memory.outdated, Bool.or_eq_false_iff, decide_eq_false_iff_not,
    Bool.and_eq_false_iff, beq_eq_false_iff_ne] at hpasses
  obtain ⟨⟨-, hgate⟩, hlater, hrevised⟩ := hpasses
  have hturn : c.mem.openTurn = c.mem.session.turn.turnId := congrArg Prod.fst hopening
  have hrevision : c.mem.openRevision = c.mem.session.turn.revision := congrArg Prod.snd hopening
  rcases hbehind with hearlier | ⟨hpair, hhanded⟩
  · rcases hearlier with hlt | ⟨heq, hlt⟩
    · exact absurd (by rw [hturn]; exact hlt) hlater
    · rcases hrevised with hne | hle
      · exact absurd (hturn.trans heq.symm) hne
      · exact absurd (by rw [hrevision]; exact hlt) hle
  obtain ⟨hid, hrev⟩ := Prod.mk.inj hpair
  have hstage : c.mem.session.turn.stage = .committed true := by
    rcases hhanded with (hwaiting | ⟨released, hcommitted⟩) | hcut
    · rcases hfinal hwaiting with hzero | hlast
      · omega
      · omega
    · cases released with
      | true => exact hcommitted
      | false => exact absurd hcommitted (hfree hpair)
    · have hnever : c.mem.session.turn.stage ≠ .cut := by
        simp only [State.turn, State.stage]
        cases c.mem.session.phase <;> cases c.mem.session.committed <;> simp
      exact absurd hcut hnever
  have hfields : c.mem.session.turn = ⟨c.mem.session.turn.stage, c.mem.session.turn.turnId,
    c.mem.session.turn.revision, c.mem.session.speaking⟩ := rfl
  rw [hfields, hstage, ← hid, ← hrev]

/-- What opens the gate. -/
theorem exec_waitFinal {m : Memory F V} (hstop : m.stop = false) (hcancel : m.cancel = false)
    (houtdated : m.outdated m.answerTurn m.answerRevision = false)
    (hfinal : m.answerTurn ≤ m.finalTurn) :
    ∃ m', exec P .responder .waitFinal () m = some (true, m') := by
  have hpasses : m.passes = true := by
    simp only [Memory.passes, Bool.or_eq_true, decide_eq_true_eq]
    exact .inl (.inr hfinal)
  refine ⟨m.voided, ?_⟩
  simp only [exec]
  rw [if_pos hpasses]
  simp [Memory.voided, houtdated, hstop, hcancel]

/-- **No turn is left behind.**  A turn that the session holds committed and not released is on its
way through the queues and the two threads, unless its commit is still being handed over; a thread
that is said to have a turn is in the middle of something; and while the responder waits at the
gate, the session holds exactly the turn it answers, committed and released, which as many windows
as its grace has left make final, and let the responder through. -/
structure Accounted (P : Setup F V S) (c : Config Role (Act F) Act.Result (Memory F V)) : Prop where
  placed : c.mem.session.committed = true → c.mem.session.released = false →
    c.mem.InPlace (c.mem.session.turnId, c.mem.session.revision) ∨
      ∃ r ∈ c.mem.due, r.event = .turnCommitted ∧
        r.pair = (c.mem.session.turnId, c.mem.session.revision)
  handed : c.mem.sessionMutex = none → c.mem.due = []
  recognizing : c.mem.recognizing ≠ none →
    ∃ a next, c.prog .recognizer = .act a next ∧ a ≠ .popQueue
  answering : c.mem.answering ≠ none → ∃ a next, c.prog .responder = .act a next ∧ a ≠ .popAnswer
  parked : ∀ next, c.prog .responder = .act .waitFinal next → c.mem.due = [] →
    c.mem.passes = false →
    c.mem.session.committed = true ∧ c.mem.session.released = true ∧
    c.mem.session.turnId = c.mem.answerTurn ∧ c.mem.session.revision = c.mem.answerRevision ∧
    0 < c.mem.session.graceLeft ∧
    ∀ n pcm, Quiet P.models n c.mem.session pcm →
      (n < c.mem.session.graceLeft → (pushWindows P.models n c.mem.session pcm).2 = []) ∧
      (n = c.mem.session.graceLeft → ∃ r,
        (pushWindows P.models n c.mem.session pcm).2 = [r] ∧ r.event = .turnFinal ∧
        ∃ m, exec P .responder .waitFinal ()
          { c.mem with finalTurn := max r.turnId c.mem.finalTurn } = some (true, m))

/-- **Every turn is accounted for**, in every order of the threads. -/
theorem accounted_of_reaches (h : Reaches (connection P) c) : Accounted P c := by
  have hkept := kept_of_reaches h
  have hcoherent := hkept.turns.coherent
  obtain ⟨hrecognizer, hresponder⟩ := in_hand h
  refine ⟨fun hcommitted hreleased => ?_, hkept.turns.idle, hrecognizer, hresponder,
    fun next hnext hdue hpasses => ?_⟩
  · refine hkept.turns.owed ?_
    exact (State.stage_committed hcoherent hcommitted).trans (by rw [hreleased])
  · have hturn := waits_for h hnext hdue hpasses
    obtain ⟨-, hcommitted, hreleased⟩ :=
      State.stage_eq_committed.1 (congrArg Turn.stage hturn)
    have hid : c.mem.session.turnId = c.mem.answerTurn := congrArg Turn.turnId hturn
    have hrev : c.mem.session.revision = c.mem.answerRevision := congrArg Turn.revision hturn
    refine ⟨hcommitted, hreleased, hid, hrev, hcoherent.grace_of_released hcommitted hreleased,
      fun n pcm hquiet => ?_⟩
    obtain ⟨hbefore, hlast⟩ := grace_runs_out P.models n hcoherent hcommitted hreleased pcm hquiet
    refine ⟨hbefore, fun hn => ?_⟩
    obtain ⟨r, hr, hevent, hpair⟩ := hlast hn
    refine ⟨r, hr, hevent, ?_⟩
    have hrid : r.turnId = c.mem.answerTurn := (congrArg Prod.fst hpair).trans hid
    simp only [Memory.passes, Bool.or_eq_false_iff] at hpasses
    obtain ⟨⟨⟨hstop, hcancel⟩, -⟩, houtdated⟩ := hpasses
    exact exec_waitFinal (m := { c.mem with finalTurn := max r.turnId c.mem.finalTurn }) hstop
      hcancel houtdated (hrid ▸ le_max_left _ _)

/-- The responder at the gate, with one window of grace left. -/
theorem accounted_upToGate :
    Accounted (plainSetup (ascii "loopback")) (played _ _ upToGate_isSome) ∧
      (played _ _ upToGate_isSome).mem.passes = false ∧
      (played _ _ upToGate_isSome).mem.session.graceLeft = 1 :=
  ⟨accounted_of_reaches (reaches_played upToGate_isSome), by decide +kernel, by decide +kernel⟩

/-! ### Recognitions -/

/-- **What the recognizer has done.**  No commit is handed to `pk_transcribe` twice; the transcript
frames are of the turns their items name, in order, those of one turn in a row; and once the session
is idle, with no call of it in progress, the queue is empty and the recognizer waits for the next
turn, the last commit of every turn was handed over, once. -/
structure Recognized (c : Config Role (Act F) Act.Result (Memory F V)) : Prop where
  once : (recognitions c.mem.log).Nodup
  committed : ∀ p ∈ recognitions c.mem.log, p ∈ commitsOf (logged c.mem.log)
  items : transcribed c.mem.log = (heard c.mem.log).map fun p => itemId p.1
  ordered : (heard c.mem.log).Pairwise Earlier
  row : ∀ before p between q after, heard c.mem.log = before ++ p :: between ++ q :: after →
    p.1 = q.1 → ∀ r ∈ between, r.1 = p.1
  last : c.mem.session.phase = .idle → c.mem.due = [] → c.mem.queue = [] →
    (∀ a next, c.prog .recognizer = .act a next → a = .popQueue) →
    ∀ p ∈ commitsOf (logged c.mem.log),
      (∀ q ∈ commitsOf (logged c.mem.log), q.1 = p.1 → q.2 ≤ p.2) →
      (recognitions c.mem.log).count p = 1

/-- Between two that are in order, of one turn, there is only that turn. -/
theorem row_of_ordered {l before between after : List (ℕ × ℕ)} {p q : ℕ × ℕ}
    (h : l.Pairwise Earlier) (hl : l = before ++ p :: between ++ q :: after) (hpq : p.1 = q.1) :
    ∀ r ∈ between, r.1 = p.1 := by
  intro r hr
  rw [hl, List.append_assoc, List.pairwise_append] at h
  obtain ⟨hp, htail⟩ := List.pairwise_cons.1 h.2.1
  have hfirst : Earlier p r := hp r (List.mem_append_left _ hr)
  have hlast : Earlier r q := (List.pairwise_append.1 htail).2.2 r hr q List.mem_cons_self
  unfold Earlier at hfirst hlast
  omega

/-- In an idle session the last commit of a turn is of its last revision. -/
theorem not_outdated_of_idle {m : Memory F V} (hkept : Kept m) (hidle : m.session.phase = .idle)
    (hdue : m.due = []) {p : ℕ × ℕ}
    (hlast : ∀ q ∈ commitsOf (logged m.log), q.1 = p.1 → q.2 ≤ p.2) :
    ¬Outdated (logged m.log) p := by
  rintro ⟨r, hr, hstarts, hid, hrev⟩
  have hover : Handed m.session.turn := by
    simp only [Handed, Turn.Over, State.turn, State.stage, hidle]
    cases m.session.committed <;> simp
  rcases (hkept.recognized.traced hdue).covered r hr hstarts with ⟨-, hopen⟩ | ⟨q, hq, hsame, hle⟩
  · exact hopen hover
  · have := hlast q hq (hsame.trans hid)
    omega

/-- **Every turn is recognized, and once**, in every order of the threads. -/
theorem recognized_of_reaches (h : Reaches (connection P) c) : Recognized c := by
  have hkept := kept_of_reaches h
  have hrec := hkept.recognized
  refine ⟨nodup_of_earlier hrec.sorted, fun p hp => (hrec.entered p (.inl hp)).2, hrec.items,
    hrec.heard, fun _ _ _ _ _ hl hpq => row_of_ordered hrec.heard hl hpq,
    fun hidle hdue hqueue hrest p hp hlast => ?_⟩
  have hnone : c.mem.recognizing = none := by
    by_contra hsome
    obtain ⟨a, next, hprog, ha⟩ := (in_hand h).1 hsome
    exact ha (hrest a next hprog)
  rw [List.count_eq_one_of_mem (nodup_of_earlier hrec.sorted)]
  rcases hrec.placed p hp with hplaced | ⟨r, rest, hr, -⟩
  · rcases hplaced with (hdone | houtdated) | hworking | ⟨turn, hturn, -⟩
    · exact hdone
    · exact absurd houtdated (not_outdated_of_idle hkept hidle hdue hlast)
    · rw [hnone] at hworking
      simp at hworking
    · rw [hqueue] at hturn
      simp at hturn
  · rw [hdue] at hr
    simp at hr

/-- One turn, recognized. -/
theorem recognized_loopback : Recognized (played _ _ throughGate_isSome) ∧
    recognitions (played _ _ throughGate_isSome).mem.log = [(1, 0)] :=
  ⟨recognized_of_reaches (reaches_played throughGate_isSome), by decide +kernel⟩

end Conversation
end S2S
