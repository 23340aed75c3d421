/-
# Where the threads stand

What a thread of a connection is in the middle of, followed from its actions
alone.  Whoever hands an event over is with it until the callback returns, and
tells the client that speech started before the connection writes down what
opened (`Spot`).  The recognizer tells a transcript after its recognition and
then hands it on (`Relay`).  The responder takes a job, publishes it, opens its
answer, takes the lock of the session once before it waits, and speaks only
once it is through (`Stand`).

The monitor `gate` keeps the three and says which action may come when; every
thread is fit for it (`gateFit`).
-/

import S2S.Conversation.Compose
import S2S.Conversation.Recognitions

namespace S2S
namespace Conversation

open Json Llm Agent Session Thread

variable {F V S : Type}

/-- Where a thread is with the events of the session: between two, or with one, the client told of
its start or not. -/
inductive Spot (F : Type)
  | free
  | within (r : Report F) (started : Bool)

/-- Where the recognizer is: a recognition was asked for, its transcript was told. -/
inductive Relay
  | idle
  | asked (p : ℕ × ℕ)
  | told (p : ℕ × ℕ)

/-- Where the responder is: a job was taken, published, opened; nobody was in the middle of an event
once since then; the wait let it pass; its answer is released. -/
inductive Stand
  | rest
  | took (p : ℕ × ℕ)
  | published
  | opened
  | clear
  | passed
  | through
  deriving DecidableEq

/-- All three. -/
structure Gate (F : Type) where
  spot : Spot F
  relay : Relay
  stand : Stand

/-- The spot after an action. -/
def Spot.next (s : Spot F) : Act F → Spot F
  | .callback r => .within r false
  | .send .speechStarted => match s with
    | .within r _ => .within r true
    | .free => .free
  | .opened _ _ => match s with
    | .within r _ => .within r false
    | .free => .free
  | .returned => .free
  | _ => s

/-- When a thread may act, as far as the events are concerned. -/
def Spot.ok (s : Spot F) : Act F → Prop
  | .callback _ => s = .free
  | .session _ => s = .free
  | .unlockSession => s = .free
  | .send .speechStarted => ∃ r, s = .within r false ∧ r.Starts
  | .opened turnId revision => ∃ r, s = .within r true ∧ r.pair = (turnId, revision)
  | .returned => ∃ r, s = .within r false
  | _ => True

/-- The relay after an action. -/
def Relay.next (s : Relay) : Act F → Relay
  | .ask (.transcribe turn) => .asked turn.pair
  | .send (.transcript _ _) => match s with
    | .asked p => .told p
    | s => s
  | .pushAnswer _ => .idle
  | _ => s

/-- When a thread may act, as far as the transcripts are concerned. -/
def Relay.ok (s : Relay) : Act F → Prop
  | .ask (.transcribe _) => ∀ p, s ≠ .told p
  | .send (.transcript item _) => ∃ p, s = .asked p ∧ item = itemId p.1
  | .pushAnswer job => s = .told (job.turnId, job.revision)
  | _ => True

/-- The stand once the lock is taken. -/
def Stand.locked (s : Stand) : Stand := if s = .opened then .clear else s

/-- The stand after an action. -/
def Stand.next (s : Stand) : (a : Act F) → a.Result → Stand
  | .popAnswer, next => next.elim s fun job => .took (job.turnId, job.revision)
  | .load .stop, stop => if stop then .rest else s
  | .publish _ _, _ => .published
  | .send .created, _ => .opened
  | .send .done, _ => .rest
  | .send .cancelled, _ => .rest
  | .lockSession, _ => s.locked
  | .load .answerReleased, released =>
    if released then .through else if s = .through then .opened else s
  | .waitFinal, heard => if heard then .passed else s
  | .setReleased, _ => .through
  | _, _ => s

/-- The answer is open, and the responder is not in the middle of its wait. -/
def Stand.Open : Stand → Prop
  | .opened => True
  | .clear => True
  | .through => True
  | _ => False

/-- When a thread may act, as far as the answers are concerned. -/
def Stand.ok (s : Stand) : Act F → Prop
  | .popAnswer => s = .rest
  | .publish turnId revision => s = .took (turnId, revision)
  | .send .created => s = .published
  | .send .done => s.Open
  | .send .cancelled => s.Open
  | .load .answerReleased => s.Open
  | .waitFinal => s = .clear
  | .setReleased => s = .passed
  | .send (.audio _) => s = .through
  | .send (.spoken _ _) => s = .through
  | _ => True

/-- **The monitor of the gate.** -/
def gate (F : Type) : Monitor Role (Act F) Act.Result where
  State := Gate F
  next s a r := ⟨s.spot.next a, s.relay.next a, s.stand.next a r⟩
  ok _ s a := s.spot.ok a ∧ s.relay.ok a ∧ s.stand.ok a

/-- An action that none of this depends on. -/
def Act.Still : Act F → Prop
  | .callback _ => False
  | .session _ => False
  | .lockSession => False
  | .unlockSession => False
  | .opened _ _ => False
  | .returned => False
  | .ask (.transcribe _) => False
  | .pushAnswer _ => False
  | .popAnswer => False
  | .publish _ _ => False
  | .waitFinal => False
  | .setReleased => False
  | .load .stop => False
  | .load .answerReleased => False
  | .send (.error _) => True
  | .send .sessionUpdated => True
  | .send (.voice _ _) => True
  | .send (.textDelta _) => True
  | .send (.toolStarted _) => True
  | .send (.toolDone _ _ _ _) => True
  | .send _ => False
  | _ => True

theorem Act.Still.fits {a : Act F} (ha : a.Still) (role : Role) (s : Gate F) :
    (gate F).ok role s a ∧ ∀ r, (gate F).next s a r = s := by
  cases a with
  | ask query =>
    cases query <;> first | exact ha.elim | exact ⟨⟨trivial, trivial, trivial⟩, fun _ => rfl⟩
  | send f =>
    cases f <;> first | exact ha.elim | exact ⟨⟨trivial, trivial, trivial⟩, fun _ => rfl⟩
  | load field =>
    cases field <;> first | exact ha.elim | exact ⟨⟨trivial, trivial, trivial⟩, fun _ => rfl⟩
  | _ => first | exact ha.elim | exact ⟨⟨trivial, trivial, trivial⟩, fun _ => rfl⟩

section Programs

variable {role : Role} {I : Gate F → Prop}

/-- One action, then the rest. -/
theorem gate_act {α : Type} {Q : α → Gate F → Prop} {s : Gate F} (a : Act F)
    {next : a.Result → Program F α} (ok : (gate F).ok role s a)
    (rest : ∀ r, Watched (gate F) role Q ((gate F).next s a r) (next r)) :
    Watched (gate F) role Q s (.act a next) :=
  .act ok rest

/-- One action. -/
theorem gate_perform {s : Gate F} (a : Act F) {Q : a.Result → Gate F → Prop}
    (ok : (gate F).ok role s a) (h : ∀ r, Q r ((gate F).next s a r)) :
    Watched (gate F) role Q s (perform a) :=
  .perform ok h

theorem Act.Still.keeps {a : Act F} (ha : a.Still) : (gate F).Keeps role I a := fun s hs =>
  ⟨(ha.fits role s).1, fun r => by rw [(ha.fits role s).2 r]; exact hs⟩

theorem Act.Still.holds {a : Act F} (ha : a.Still) : (gate F).Holds role I (perform a) :=
  ha.keeps.holds

/-! ### The session -/

/-- **One event through its callback.** -/
theorem watched_event (r : Report F) {s : Gate F} (hs : s.spot = .within r false) :
    Watched (gate F) role (fun _ (s' : Gate F) => s' = s) s (connOnSessionEvent r) := by
  obtain ⟨spot, relay, stand⟩ := s
  obtain rfl := hs
  have hstarts : r.Starts →
      Watched (gate F) role (fun _ (s' : Gate F) => s' = ⟨.within r false, relay, stand⟩)
        ⟨.within r false, relay, stand⟩ (do
          connSend .speechStarted
          perform (.opened r.turnId r.revision)) := fun hstarts =>
    gate_act (.send .speechStarted) ⟨⟨r, rfl, hstarts⟩, trivial, trivial⟩ fun _ =>
      gate_perform (.opened _ _) ⟨⟨r, rfl, rfl⟩, trivial, trivial⟩ fun _ => rfl
  have hstill : ∀ {a : Act F}, a.Still →
      Watched (gate F) role (fun _ (s' : Gate F) => s' = ⟨.within r false, relay, stand⟩)
        ⟨.within r false, relay, stand⟩ (perform a) := fun ha =>
    .perform (ha.fits role _).1 (ha.fits role _).2
  unfold connOnSessionEvent
  cases hevent : r.event with
  | speechStarted => exact hstarts (.inl hevent)
  | turnResumed => exact hstarts (.inr hevent)
  | turnFinal => exact hstill (a := .final _) trivial
  | bargeIn => exact hstill (a := .storeCancel true) trivial
  | turnCommitted => exact hstill (a := .enqueue _) trivial
  | speechStopped => exact .pure rfl
  | turnReopened => exact .pure rfl

theorem watched_handOver (rs : List (Report F)) {s : Gate F} (hs : s.spot = .free) :
    Watched (gate F) role (fun _ (s' : Gate F) => s' = s) s (handOver rs) := by
  obtain ⟨spot, relay, stand⟩ := s
  obtain rfl := hs
  induction rs with
  | nil => exact .pure rfl
  | cons r rs ih =>
    refine gate_act (.callback r) ⟨rfl, trivial, trivial⟩ fun _ => ?_
    refine (watched_event r rfl).bind fun _ s' hs' => ?_
    obtain rfl := hs'
    exact gate_act (.returned) ⟨⟨r, rfl⟩, trivial, trivial⟩ fun _ => ih

/-- **A call of the session**, whoever makes it. -/
theorem watched_session (op : Op F) {s : Gate F} (hs : s.spot = .free) :
    Watched (gate F) role (fun _ (s' : Gate F) => s' = s) s (session op) :=
  gate_act (.session op) ⟨hs, trivial, trivial⟩ fun reports => watched_handOver reports hs

theorem watched_release (turnId revision : ℕ) {s : Gate F} (hs : s.spot = .free) :
    Watched (gate F) role (fun _ (s' : Gate F) => s' = { s with stand := s.stand.locked }) s
      (connRelease turnId revision) := by
  refine gate_act (.lockSession) ⟨trivial, trivial, trivial⟩ fun _ => ?_
  refine (watched_session (.release turnId revision) (s := { s with stand := s.stand.locked })
    hs).bind fun _ s' hs' => ?_
  obtain rfl := hs'
  exact gate_perform (.unlockSession) ⟨hs, trivial, trivial⟩ fun _ => rfl

/-! ### The reader and the writer -/

/-- A thread that is in the middle of nothing. -/
def Gate.rest : Gate F := ⟨.free, .idle, .rest⟩

/-- Such a thread, with a program that leaves it so. -/
abbrev Unmoved (role : Role) {α : Type} (p : Program F α) : Prop :=
  (gate F).Holds role (· = Gate.rest) p

theorem rests_loadStop : Unmoved role (loadStop : Program F Bool) := fun s hs => by
  obtain rfl := hs
  refine gate_perform (.load .stop) ⟨trivial, trivial, trivial⟩ fun stop => ?_
  cases stop <;> rfl

theorem rests_call (op : Op F) : Unmoved role (do
    perform .lockSession
    session op
    perform .unlockSession) := fun s hs => by
  obtain rfl := hs
  refine gate_act (.lockSession) ⟨trivial, trivial, trivial⟩ fun _ => ?_
  refine (watched_session op (s := Gate.rest) rfl).bind fun _ s' hs' => ?_
  obtain rfl := hs'
  exact gate_perform (.unlockSession) ⟨rfl, trivial, trivial⟩ fun _ => rfl

theorem rests_errors (messages : List Bytes) :
    Unmoved role (connErrors messages : Program F Unit) := by
  induction messages with
  | nil => exact Monitor.holds_pure ()
  | cons message messages ih =>
    exact (Act.Still.holds (a := .send (.error message)) trivial).bind fun _ => ih

theorem rests_stop : Unmoved role (connStop : Program F Unit) :=
  (Act.Still.holds (a := .storeCancel true) trivial).bind fun _ =>
    (Act.Still.holds (a := .setStop) trivial).bind fun _ =>
      Act.Still.holds (a := .stopped) trivial

theorem rests_close : Unmoved role (connClose : Program F Unit) :=
  rests_stop.bind fun _ => Act.Still.holds (a := .closeOut) trivial

/-- **`conn_frame`.** -/
theorem rests_frame (x : Incoming F) : Unmoved role (connFrame x) := by
  cases x with
  | update errors settings params invalid =>
    have hpatch : Unmoved role (connApplyPatch errors settings params) := by
      refine (rests_errors errors).bind fun _ =>
        (Act.Still.holds (a := .patch settings) trivial).bind fun _ => ?_
      cases params with
      | none => exact Monitor.holds_pure ()
      | some p => exact rests_call (.setParams p)
    exact hpatch.bind fun _ => (rests_errors _).bind fun _ =>
      Act.Still.holds (a := .send .sessionUpdated) trivial
  | audio errors pcm =>
    refine (rests_errors errors).bind fun _ s hs => ?_
    obtain rfl := hs
    refine gate_act (.lockSession) ⟨trivial, trivial, trivial⟩ fun _ => ?_
    refine gate_act (.load .speaking) ⟨trivial, trivial, trivial⟩ fun speaking => ?_
    refine (watched_session (.setSpeaking speaking) (s := Gate.rest) rfl).bind fun _ s' hs' => ?_
    obtain rfl := hs'
    refine (watched_session (.push pcm) (s := Gate.rest) rfl).bind fun _ s' hs' => ?_
    obtain rfl := hs'
    exact gate_perform (.unlockSession) ⟨rfl, trivial, trivial⟩ fun _ => rfl
  | cancel => exact Act.Still.holds (a := .storeCancel true) trivial
  | history messages => exact Act.Still.holds (a := .history messages) trivial
  | unknown => exact Act.Still.holds (a := .send (.error _)) trivial
  | other => exact Monitor.holds_pure ()
  | closed => exact Monitor.holds_pure ()

theorem rests_reader : Unmoved role (connReader : Program F Bool) := by
  have hclose : Unmoved role (do
      connClose
      pure false : Program F Bool) := rests_close.bind fun _ => Monitor.holds_pure false
  refine (Act.Still.holds (a := .ask .read) trivial).bind fun x =>
    rests_loadStop.bind fun stop => ?_
  cases stop with
  | true => cases x <;> exact hclose
  | false =>
    have hframe : Unmoved role (do
        connFrame x
        pure true) := (rests_frame x).bind fun _ => Monitor.holds_pure true
    cases x with
    | closed => exact hclose
    | _ => exact hframe

theorem rests_writer : Unmoved role (connWriter : Program F Bool) := by
  refine (Act.Still.holds (a := .popOut) trivial).bind fun next => ?_
  cases next with
  | none => exact Monitor.holds_pure false
  | some f =>
    refine (Act.Still.holds (a := .ask (.transport f)) trivial).bind fun sent => ?_
    split
    · exact Monitor.holds_pure true
    · exact (Act.Still.holds (a := .dropOut) trivial).bind fun _ =>
        rests_stop.bind fun _ => Monitor.holds_pure false

/-! ### The recognizer -/

/-- The recognizer has no transcript to hand on. -/
structure Gate.Relays (s : Gate F) : Prop where
  spot : s.spot = .free
  relay : ∀ p, s.relay ≠ .told p
  stand : s.stand = .rest

theorem Gate.Relays.release (turnId revision : ℕ) :
    (gate F).Holds role Gate.Relays (connRelease turnId revision) := fun s hs => by
  refine (watched_release turnId revision hs.spot).mono fun _ s' hs' => ?_
  obtain rfl := hs'
  refine ⟨hs.spot, hs.relay, ?_⟩
  show s.stand.locked = .rest
  rw [hs.stand]
  rfl

/-- What is done with a transcript. -/
theorem relays_transcript (turn : TurnAudio F) (transcript : Bytes) {s : Gate F} (hs : s.Relays)
    (hasked : s.relay = .asked turn.pair) :
    Watched (gate F) role (fun _ (s' : Gate F) => s'.Relays) s
      (if transcript = [] then connRelease turn.turnId turn.revision
      else do
        let admitted ← ask (.admits turn.turnId transcript)
        if admitted then do
          connSend (.transcript (itemId turn.turnId) transcript)
          perform (.pushAnswer ⟨transcript, turn.turnId, turn.revision⟩)
        else connRelease turn.turnId turn.revision) := by
  obtain ⟨spot, relay, stand⟩ := s
  dsimp only at hasked
  subst hasked
  split
  · exact Gate.Relays.release _ _ _ hs
  refine gate_act (.ask (.admits _ _)) ⟨trivial, trivial, trivial⟩ fun admitted => ?_
  cases admitted with
  | true =>
    refine gate_act (.send (.transcript _ _)) ⟨trivial, ⟨turn.pair, rfl, rfl⟩, trivial⟩ fun _ => ?_
    exact gate_perform (.pushAnswer _) ⟨trivial, rfl, trivial⟩ fun _ =>
      ⟨hs.spot, by simp [gate, Relay.next], hs.stand⟩
  | false => exact Gate.Relays.release _ _ _ hs

/-- **`conn_recognize`** tells what it asked for, and hands on what it told. -/
theorem relays_recognize (turn : TurnAudio F) :
    (gate F).Holds role Gate.Relays (connRecognize turn) := by
  refine (Act.Still.holds (a := .load (.revised _ _)) trivial).bind fun revised => ?_
  split
  · exact Gate.Relays.release _ _
  intro s hs
  refine gate_act (.ask (.transcribe turn)) ⟨trivial, hs.relay, trivial⟩ fun transcript => ?_
  have hasked : (⟨s.spot, .asked turn.pair, s.stand⟩ : Gate F).Relays :=
    ⟨hs.spot, by simp, hs.stand⟩
  cases transcript with
  | none =>
    exact ((Act.Still.holds (a := .ask .lastError) trivial).bind fun message =>
      (Act.Still.holds (a := .send (.error message)) trivial).bind fun _ =>
        Gate.Relays.release _ _) _ hasked
  | some transcript => exact relays_transcript turn transcript hasked rfl

theorem relays_recognizer : (gate F).Holds role Gate.Relays (connRecognizer : Program F Bool) := by
  refine (Act.Still.holds (a := .popQueue) trivial).bind fun next => ?_
  cases next with
  | none => exact Monitor.holds_pure false
  | some turn => exact (relays_recognize turn).bind fun _ => Monitor.holds_pure true

/-! ### The responder -/

/-- The responder between two jobs. -/
structure Gate.Between (s : Gate F) : Prop where
  spot : s.spot = .free
  stand : s.stand = .rest

/-- The responder in an answer. -/
structure Gate.Inside (s : Gate F) : Prop where
  spot : s.spot = .free
  stand : s.stand.Open

/-- The responder past the gate. -/
structure Gate.Past (s : Gate F) : Prop where
  spot : s.spot = .free
  stand : s.stand = .through

theorem Gate.Past.inside {s : Gate F} (h : s.Past) : s.Inside := ⟨h.spot, by rw [h.stand]; trivial⟩

theorem Gate.Between.release (turnId revision : ℕ) :
    (gate F).Holds role Gate.Between (connRelease turnId revision) := fun s hs => by
  refine (watched_release turnId revision hs.spot).mono fun _ s' hs' => ?_
  obtain rfl := hs'
  refine ⟨hs.spot, ?_⟩
  show s.stand.locked = .rest
  rw [hs.stand]
  rfl

/-- **The gate**: whoever is let through has taken the lock of the session in this answer, and
passed the wait after it. -/
theorem watched_hold {s : Gate F} (hs : s.Inside) :
    Watched (gate F) role (fun held (s' : Gate F) => s'.Inside ∧ (held = true → s'.Past)) s
      connHold := by
  obtain ⟨spot, relay, stand⟩ := s
  obtain ⟨hspot, hopen⟩ := hs
  dsimp only at hspot hopen
  obtain rfl := hspot
  refine gate_act (.load .answerReleased) ⟨trivial, trivial, hopen⟩ fun released => ?_
  cases released with
  | true => exact .pure ⟨⟨rfl, trivial⟩, fun _ => ⟨rfl, rfl⟩⟩
  | false =>
    have hclear : (if stand = .through then Stand.opened else stand).locked = .clear := by
      cases stand <;> first | exact hopen.elim | rfl
    refine gate_act (.load .answer) ⟨trivial, trivial, trivial⟩ fun answer => ?_
    set left : Stand := if stand = .through then .opened else stand
    refine (watched_release answer.1 answer.2 (s := ⟨.free, relay, left⟩) rfl).bind
      fun _ s' hs' => ?_
    obtain rfl := hs'
    refine gate_act (.waitFinal) ⟨trivial, trivial, hclear⟩ fun heard => ?_
    cases heard with
    | true =>
      exact gate_act (.setReleased) ⟨trivial, trivial, rfl⟩ fun _ =>
        .pure ⟨⟨rfl, trivial⟩, fun _ => ⟨rfl, rfl⟩⟩
    | false =>
      refine .pure ⟨⟨rfl, ?_⟩, by simp⟩
      show (if stand = .through then Stand.opened else stand).locked.Open
      rw [hclear]
      trivial

theorem query_still {query : Query F} (h : query.OfAnswer) : (Act.ask query).Still := by
  cases query <;> first | exact h.elim | exact trivial

theorem silent_still {f : Frame F} (h : f.Silent) : (Act.send f).Still := by
  cases f <;> first | exact h.elim | exact trivial

theorem sounds_past : Sounds (gate F) role Gate.Past where
  load := Act.Still.keeps (a := .load .cancel) trivial
  ask _ h := (query_still h).keeps
  spoken _ _ _ hs := ⟨⟨trivial, trivial, hs.stand⟩, fun _ => hs⟩
  audio _ _ hs := ⟨⟨trivial, trivial, hs.stand⟩, fun _ => hs⟩

variable (P : Setup F V S)

theorem inside_speak (unit : SentenceUnit) (voice : Voice) :
    (gate F).Holds role Gate.Inside (connSpeak P unit voice) := fun s hs => by
  refine (watched_hold hs).bind fun held s' hs' => ?_
  cases held with
  | false => exact .pure hs'.1
  | true =>
    refine (sounds_past.bridge P unit voice s' (hs'.2 rfl)).bind fun spoke s' hs' => ?_
    have hrest : (gate F).Holds role Gate.Inside (do
        let cancelled ← loadCancel
        if !spoke && !cancelled then do
          let message ← ask .lastError
          connSend (.error message)
        else pure ()
        pure spoke : Program F Bool) := by
      refine (Act.Still.holds (a := .load .cancel) trivial).bind fun cancelled => ?_
      split
      · exact (Act.Still.holds (a := .ask .lastError) trivial).bind fun message =>
          (Act.Still.holds (a := .send (.error message)) trivial).bind fun _ => Monitor.holds_pure _
      · exact Monitor.holds_pure _
    exact hrest s' hs'.inside

theorem composes_gate : Composes P (gate F) Gate.Inside where
  load := Act.Still.keeps (a := .load .cancel) trivial
  ask _ h := (query_still h).keeps
  tell _ h := (silent_still h).keeps
  speak := inside_speak P
  setVoice voice arguments := by
    unfold connSetVoice
    dsimp only
    split
    · exact Monitor.holds_pure _
    split
    · exact Monitor.holds_pure _
    · exact (Act.Still.holds (a := .setVoice _ _) trivial).bind fun _ =>
        (Act.Still.holds (a := .send (.voice _ _)) trivial).bind fun _ => Monitor.holds_pure _

theorem inside_echo (effect : Bytes) : (gate F).Holds role Gate.Inside (connEcho effect) := by
  unfold connEcho
  split
  · rintro ⟨spot, relay, stand⟩ ⟨hspot, hopen⟩
    dsimp only at hspot hopen
    obtain rfl := hspot
    refine gate_act (.load .answerReleased) ⟨trivial, trivial, hopen⟩ fun released => ?_
    cases released with
    | false =>
      refine .pure ⟨rfl, ?_⟩
      show (if stand = .through then Stand.opened else stand).Open
      split
      · trivial
      · exact hopen
    | true =>
      have htail : (gate F).Holds role Gate.Past (do
          let cancelled ← loadCancel
          if cancelled then pure ()
          else do
            let tail ← ask .jarvisTail
            connSend (.audio tail) : Program F Unit) := by
        refine (Act.Still.holds (a := .load .cancel) trivial).bind fun cancelled => ?_
        split
        · exact Monitor.holds_pure ()
        · exact (Act.Still.holds (a := .ask .jarvisTail) trivial).bind fun tail =>
            (sounds_past.audio tail).holds
      exact (htail _ ⟨rfl, rfl⟩).mono fun _ _ hs => hs.inside
  · exact Monitor.holds_pure ()

/-- **`conn_answer`.** -/
theorem watched_gate_answer (job : AnswerJob) {s : Gate F} (hspot : s.spot = .free)
    (hstand : s.stand = .took (job.turnId, job.revision)) :
    Watched (gate F) .responder (fun _ (s' : Gate F) => s'.Between) s (connAnswer P job) := by
  obtain ⟨spot, relay, stand⟩ := s
  dsimp only at hspot hstand
  obtain ⟨rfl, rfl⟩ := And.intro hspot hstand
  refine gate_act (.load .stop) ⟨trivial, trivial, trivial⟩ fun stop => ?_
  cases stop with
  | true => exact Gate.Between.release _ _ _ ⟨rfl, rfl⟩
  | false =>
    refine gate_act (.storeCancel false) ⟨trivial, trivial, trivial⟩ fun _ => ?_
    refine gate_act (.load .client) ⟨trivial, trivial, trivial⟩ fun client => ?_
    refine gate_act (.publish _ _) ⟨trivial, trivial, rfl⟩ fun _ => ?_
    refine gate_act (.send .created) ⟨trivial, trivial, rfl⟩ fun _ => ?_
    refine ((composes_gate P).compose job client ⟨.free, relay, .opened⟩ ⟨rfl, trivial⟩).bind
      fun effect s hs => ?_
    refine (inside_echo effect s hs).bind fun _ s hs => ?_
    refine (Act.Still.holds (a := .storeSpeaking false) trivial s hs).bind fun _ s hs => ?_
    refine (Act.Still.holds (a := .load .cancel) trivial s hs).bind fun cancelled s hs => ?_
    have hrelease : (gate F).Holds .responder Gate.Between
        (connRelease job.turnId job.revision) := Gate.Between.release _ _
    obtain ⟨spot, relay, stand⟩ := s
    obtain ⟨hspot, hopen⟩ := hs
    dsimp only at hspot hopen
    obtain rfl := hspot
    cases cancelled with
    | true =>
      exact gate_act (.send .cancelled) ⟨trivial, trivial, hopen⟩ fun _ =>
        hrelease ⟨.free, relay, .rest⟩ ⟨rfl, rfl⟩
    | false => exact gate_act (.send .done) ⟨trivial, trivial, hopen⟩ fun _ =>
        hrelease ⟨.free, relay, .rest⟩ ⟨rfl, rfl⟩

theorem between_responder : (gate F).Holds .responder Gate.Between (connResponder P) := by
  intro s hs
  refine gate_act (.popAnswer) ⟨trivial, trivial, hs.stand⟩ fun next => ?_
  cases next with
  | none => exact .pure hs
  | some job =>
    have hanswer := watched_gate_answer P job (s := (gate F).next s .popAnswer (some job))
      hs.spot rfl
    exact hanswer.bind fun _ _ hs => .pure hs

end Programs

/-- **Every thread is fit for the gate.** -/
def gateFit (P : Setup F V S) : Fit (connection P) (gate F) where
  start _ := Gate.rest
  begins
    | .reader, s => s = Gate.rest
    | .recognizer, s => s.Relays
    | .responder, s => s.Between
    | .writer, s => s = Gate.rest
  starts role := by
    cases role with
    | reader => rfl
    | recognizer => exact ⟨rfl, by simp [Gate.rest], rfl⟩
    | responder => exact ⟨rfl, rfl⟩
    | writer => rfl
  bodies role s hs := by
    cases role with
    | reader => exact (rests_reader s hs).mono fun _ _ h _ => h
    | recognizer => exact (relays_recognizer s hs).mono fun _ _ h _ => h
    | responder => exact (between_responder P s hs).mono fun _ _ (h : Gate.Between _) _ => h
    | writer => exact (rests_writer s hs).mono fun _ _ h _ => h

end Conversation
end S2S
