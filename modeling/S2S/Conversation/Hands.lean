/-
# What a thread has in hand

The threads of a connection hand frames on: the reader takes one of the client
and applies it, the responder sets a voice and tells it, the writer takes a frame
off the queue and writes it.  In between the frame is in nobody's queue but in
the hand of a thread (`Hand`).  And the responder, in an answer, looks at the
cancel now and then; its last look before the close says how it closes (`Look`).

The monitor `watch` keeps both from the actions of a thread alone, and says which
of them may come when; every thread is fit for it (`watchFit`).
-/

import S2S.Conversation.Threads
import S2S.Thread.Monitor

namespace S2S
namespace Conversation

open Json Llm Agent Session Thread

variable {F V S : Type}

/-- What a thread has in hand: a frame of the client that it has read, a voice that it has set and
not told, a frame that it has taken and not written.  Or it has seen that the connection is over. -/
inductive Hand (F : Type)
  | empty
  | incoming (x : Incoming F)
  | owing (voice effect : Bytes)
  | carrying (f : Frame F)
  | gone

/-- What the responder knows of the cancel: it is in no answer, in one, or has just looked. -/
inductive Look
  | off
  | on
  | looked (cancelled : Bool)
  deriving DecidableEq, Repr

/-- Both. -/
structure Watch (F : Type) where
  hand : Hand F
  look : Look

/-- The hand after an action. -/
def Hand.next (s : Hand F) : (a : Act F) → a.Result → Hand F
  | .ask .read, x => .incoming x
  | .ask (.transport _), sent => if sent then .empty else .gone
  | .load .stop, stop => if stop then .gone else if let .gone := s then .empty else s
  | .popOut, next => next.elim .gone .carrying
  | .patch _, _ => .empty
  | .setVoice voice effect, _ => .owing voice effect
  | .send (.voice _ _), _ => .empty
  | .storeCancel true, _ => if let .incoming .cancel := s then .empty else s
  | _, _ => s

/-- The look after an action. -/
def Look.next (s : Look) : (a : Act F) → a.Result → Look
  | .storeCancel false, _ => .on
  | .send .done, _ => .off
  | .send .cancelled, _ => .off
  | .load .cancel, cancelled => if s = .off then .off else .looked cancelled
  | _, _ => if s = .off then .off else .on

/-- The reader may read on: what it has in hand has no more to be applied. -/
def Hand.Free : Hand F → Prop
  | .empty => True
  | .incoming (.update _ _ _ _) => False
  | .incoming .cancel => False
  | .incoming .closed => False
  | .incoming _ => True
  | _ => False

/-- The thread has seen that the connection is over. -/
def Hand.Ended : Hand F → Prop
  | .gone => True
  | .incoming .closed => True
  | _ => False

/-- **The monitor of the threads**: who takes what into its hand when, and how an answer closes. -/
def watch (P : Setup F V S) : Monitor Role (Act F) Act.Result where
  State := Watch F
  next s a r := ⟨s.hand.next a r, s.look.next a r⟩
  ok role s a := match a with
    | .ask .read => role = .reader ∧ s.hand.Free
    | .ask (.transport f) => role = .writer ∧ s.hand = .carrying f
    | .popOut => role = .writer ∧ s.hand = .empty
    | .patch settings => role = .reader ∧
        ∃ errors params invalid, s.hand = .incoming (.update errors settings params invalid)
    | .setVoice voice _ => role = .responder ∧ s.hand = .empty ∧ voice ∈ P.voices
    | .send (.voice voice effect) => role = .responder ∧ s.hand = .owing voice effect
    | .send .cancelled => role = .responder ∧ s.look = .looked true
    | .send .done => role = .responder ∧ s.look = .looked false
    | .storeCancel false => role = .responder ∧ s.look = .off
    | .dropOut => s.hand.Ended
    | .closeOut => s.hand.Ended
    | .setStop => s.hand.Ended
    | _ => True

/-- An action that concerns neither the hand nor an answer as a whole. -/
def Act.Calm : Act F → Prop
  | .ask .read => False
  | .ask (.transport _) => False
  | .load .stop => False
  | .popOut => False
  | .patch _ => False
  | .setVoice _ _ => False
  | .send (.voice _ _) => False
  | .send .cancelled => False
  | .send .done => False
  | .storeCancel false => False
  | .dropOut => False
  | .closeOut => False
  | .setStop => False
  | _ => True

/-- The same in hand, and in an answer or in none as before. -/
structure Watch.Same (s s' : Watch F) : Prop where
  hand : s'.hand = s.hand
  look : s'.look = .off ↔ s.look = .off

namespace Watch.Same

variable {s s' s'' : Watch F}

theorem refl (s : Watch F) : s.Same s := ⟨rfl, .rfl⟩

theorem trans (h : s.Same s') (h' : s'.Same s'') : s.Same s'' :=
  ⟨h'.hand.trans h.hand, h'.look.trans h.look⟩

end Watch.Same

/-- A frame of the client that raises the cancel. -/
def Hand.Cancels : Hand F → Prop
  | .incoming .cancel => True
  | _ => False

theorem Act.Calm.same {a : Act F} (ha : a.Calm) {s : Watch F} (hs : ¬s.hand.Cancels) (r : a.Result) :
    s.Same ⟨s.hand.next a r, s.look.next a r⟩ := by
  have hlook : (if s.look = .off then Look.off else .on) = .off ↔ s.look = .off := by
    split_ifs <;> simp [*]
  cases a with
  | ask query => cases query <;> first | exact ha.elim | exact ⟨rfl, hlook⟩
  | send f => cases f <;> first | exact ha.elim | exact ⟨rfl, hlook⟩
  | load field =>
    cases field with
    | stop => exact ha.elim
    | cancel =>
      refine ⟨rfl, ?_⟩
      show (if s.look = .off then Look.off else .looked r) = .off ↔ _
      split_ifs <;> simp [*]
    | _ => exact ⟨rfl, hlook⟩
  | storeCancel cancel =>
    cases cancel with
    | false => exact ha.elim
    | true =>
      refine ⟨?_, hlook⟩
      show (if let .incoming .cancel := s.hand then Hand.empty else s.hand) = s.hand
      split
      · rename_i heq
        exact absurd (heq ▸ trivial) hs
      · rfl
  | _ => first | exact ha.elim | exact ⟨rfl, hlook⟩

/-! ### Calm programs -/

section Programs

variable (P : Setup F V S) (role : Role) {α β : Type}

/-- A program of such actions: nothing is taken in hand or given away. -/
def Calms (p : Program F α) : Prop :=
  ∀ s : Watch F, ¬s.hand.Cancels → Watched (watch P) role (fun _ (s' : Watch F) => s.Same s') s p

/-- **The same of the responder**, which may set a voice in between and tell it. -/
def Settles (p : Program F α) : Prop :=
  ∀ s : Watch F, s.hand = .empty →
    Watched (watch P) .responder (fun _ (s' : Watch F) => s.Same s') s p

variable {P} {role}

theorem Watch.not_cancels {s : Watch F} (h : s.hand = .empty) : ¬s.hand.Cancels := by
  rw [h]
  exact id

theorem Calms.settles {p : Program F α} (h : Calms P .responder p) : Settles P p :=
  fun s hs => h s (Watch.not_cancels hs)

theorem calms_pure (value : α) : Calms P role (pure value : Program F α) := fun s _ => .pure (.refl s)

theorem calms_bind {p : Program F α} {f : α → Program F β} (h : Calms P role p)
    (hf : ∀ value, Calms P role (f value)) : Calms P role (p >>= f) := fun s hs =>
  (h s hs).bind fun value s' hsame =>
    (hf value s' (hsame.hand ▸ hs)).mono fun _ _ h' => hsame.trans h'

theorem calms_perform (a : Act F) (ha : a.Calm) : Calms P role (perform a) := fun s hs => by
  refine Watched.perform ?_ fun r => ha.same hs r
  cases a with
  | ask query => cases query <;> first | exact ha.elim | trivial
  | send f => cases f <;> first | exact ha.elim | trivial
  | storeCancel cancel => cases cancel <;> first | exact ha.elim | trivial
  | _ => first | exact ha.elim | trivial

theorem settles_pure (value : α) : Settles P (pure value : Program F α) := (calms_pure value).settles

theorem settles_bind {p : Program F α} {f : α → Program F β} (h : Settles P p)
    (hf : ∀ value, Settles P (f value)) : Settles P (p >>= f) := fun s hs =>
  (h s hs).bind fun value s' hsame =>
    (hf value s' (hsame.hand.trans hs)).mono fun _ _ h' => hsame.trans h'

theorem settles_perform (a : Act F) (ha : a.Calm) : Settles P (perform a) :=
  (calms_perform a ha).settles

/-! ### The session -/

theorem calms_onSessionEvent (r : Report F) : Calms P role (connOnSessionEvent r) := by
  unfold connOnSessionEvent
  split
  · exact calms_bind (calms_perform (.send .speechStarted) trivial) fun _ =>
      calms_perform (.opened _ _) trivial
  · exact calms_bind (calms_perform (.send .speechStarted) trivial) fun _ =>
      calms_perform (.opened _ _) trivial
  · exact calms_perform (.final _) trivial
  · exact calms_pure ()
  · exact calms_pure ()
  · exact calms_perform (.storeCancel true) trivial
  · exact calms_perform (.enqueue _) trivial

theorem calms_handOver (rs : List (Report F)) : Calms P role (handOver rs) := by
  induction rs with
  | nil => exact calms_pure ()
  | cons r rs ih =>
    exact calms_bind (calms_perform (.callback r) trivial) fun _ =>
      calms_bind (calms_onSessionEvent r) fun _ =>
        calms_bind (calms_perform .returned trivial) fun _ => ih

theorem calms_session (op : Op F) : Calms P role (session op) :=
  calms_bind (calms_perform (.session op) trivial) fun reports => calms_handOver reports

theorem calms_release (turnId revision : ℕ) : Calms P role (connRelease turnId revision) :=
  calms_bind (calms_perform .lockSession trivial) fun _ =>
    calms_bind (calms_session _) fun _ => calms_perform .unlockSession trivial

theorem calms_errors (messages : List Bytes) : Calms P role (connErrors messages : Program F Unit) := by
  induction messages with
  | nil => exact calms_pure ()
  | cons message messages ih =>
    exact calms_bind (calms_perform (.send (.error message)) trivial) fun _ => ih

/-! ### The recognizer -/

theorem calms_recognizer : Calms P .recognizer (connRecognizer : Program F Bool) := by
  refine calms_bind (calms_perform .popQueue trivial) fun next => ?_
  cases next with
  | none => exact calms_pure false
  | some turn =>
    refine calms_bind ?_ fun _ => calms_pure true
    refine calms_bind (calms_perform (.load (.revised _ _)) trivial) fun revised => ?_
    split
    · exact calms_release _ _
    refine calms_bind (calms_perform (.ask (.transcribe turn)) trivial) fun transcript => ?_
    cases transcript with
    | none =>
      exact calms_bind (calms_perform (.ask .lastError) trivial) fun message =>
        calms_bind (calms_perform (.send (.error message)) trivial) fun _ => calms_release _ _
    | some transcript =>
      dsimp only
      split
      · exact calms_release _ _
      refine calms_bind (calms_perform (.ask (.admits _ _)) trivial) fun admitted => ?_
      split
      · exact calms_bind (calms_perform (.send (.transcript _ _)) trivial) fun _ =>
          calms_perform (.pushAnswer _) trivial
      · exact calms_release _ _

/-! ### Speaking -/

theorem calms_hold : Calms P role (connHold : Program F Bool) := by
  refine calms_bind (calms_perform (.load .answerReleased) trivial) fun released => ?_
  split
  · exact calms_pure true
  refine calms_bind (calms_perform (.load .answer) trivial) fun answer => ?_
  refine calms_bind (calms_release _ _) fun _ =>
    calms_bind (calms_perform .waitFinal trivial) fun heard => ?_
  split
  · exact calms_bind (calms_perform .setReleased trivial) fun _ => calms_pure true
  · exact calms_pure false

theorem calms_loadCancel : Calms P role (loadCancel : Program F Bool) :=
  calms_perform (.load .cancel) trivial

theorem calms_tap (unit : SentenceUnit) (voice : Voice) (samples : ℕ) (pcm : List F) :
    Calms P role (speakTap unit voice samples pcm) := by
  have hrest : ∀ pcm : List F, Calms P role (do
      connSend (.audio pcm)
      let cancelled ← loadCancel
      pure !cancelled) := fun pcm =>
    calms_bind (calms_perform (.send (.audio pcm)) trivial) fun _ =>
      calms_bind calms_loadCancel fun cancelled => calms_pure !cancelled
  have heffect : Calms P role (do
      let pcm ← if voice.effect = ascii "jarvis" then ask (.jarvis pcm) else pure pcm
      connSend (.audio pcm)
      let cancelled ← loadCancel
      pure !cancelled) := by
    split
    · exact calms_bind (calms_perform (.ask (.jarvis pcm)) trivial) fun pcm => hrest pcm
    · exact hrest pcm
  unfold speakTap
  by_cases hfirst : samples = 0 ∧ pcm ≠ []
  · rw [if_pos hfirst]
    exact calms_bind (calms_perform (.send (.spoken _ _)) trivial) fun _ => heffect
  · rw [if_neg hfirst]
    exact heffect

theorem calms_chunks (unit : SentenceUnit) (voice : Voice) (chunks : List (List F)) (samples : ℕ) :
    Calms P role (ttsBridgeChunks unit voice samples chunks) := by
  induction chunks generalizing samples with
  | nil => exact calms_pure ()
  | cons pcm chunks ih =>
    refine calms_bind calms_loadCancel fun cancelled => ?_
    split
    · exact calms_pure ()
    refine calms_bind (calms_tap unit voice samples pcm) fun go => ?_
    split
    · exact ih _
    · exact calms_pure ()

theorem calms_bridge (unit : SentenceUnit) (voice : Voice) :
    Calms P role (ttsBridgeSpeak P unit voice) := by
  unfold ttsBridgeSpeak
  split
  · exact calms_pure false
  refine calms_bind calms_loadCancel fun cancelled => ?_
  split
  · exact calms_pure false
  generalize (if voice.voice = [] then P.defaultVoice else voice.voice) = named
  split
  · exact calms_pure false
  exact calms_bind (calms_perform (.ask (.synthesize _)) trivial) fun chunks =>
    calms_bind (calms_chunks unit voice chunks 0) fun _ => calms_perform (.ask .synthesized) trivial

/-- **`conn_speak`** takes nothing in hand. -/
theorem calms_speak (unit : SentenceUnit) (voice : Voice) : Calms P role (connSpeak P unit voice) := by
  refine calms_bind calms_hold fun held => ?_
  split
  · refine calms_bind (calms_bridge unit voice) fun spoke =>
      calms_bind calms_loadCancel fun cancelled => ?_
    split
    · exact calms_bind (calms_perform (.ask .lastError) trivial) fun message =>
        calms_bind (calms_perform (.send (.error message)) trivial) fun _ => calms_pure spoke
    · exact calms_pure spoke
  · exact calms_pure false

theorem calms_units (voice : Voice) (units : List SentenceUnit) :
    Calms P role (speakUnits P voice units) := by
  induction units with
  | nil => exact calms_pure true
  | cons unit units ih =>
    refine calms_bind (calms_speak unit voice) fun spoke => ?_
    split
    · exact ih
    · exact calms_pure false

/-! ### The stream and the agent -/

theorem calms_delta (tap : StreamTap S) (delta : Bytes) : Calms P role (onDelta P tap delta) := by
  refine calms_bind (calms_perform (.send (.textDelta delta)) trivial) fun _ =>
    calms_bind (calms_units _ _) fun spoke => ?_
  split
  · exact calms_bind calms_loadCancel fun _ => calms_pure _
  · exact calms_pure _

theorem calms_stream {T : Type} {onText : T → Bytes → Program F (Bool × T)}
    (htext : ∀ t delta, Calms P role (onText t delta)) (t : T) (messages : List Message) :
    Calms P role (llmClientStream onText t messages) := by
  have hfeed : ∀ (deltas : List Bytes) (t : T), Calms P role (feed onText t deltas) := by
    intro deltas
    induction deltas with
    | nil => exact fun t => calms_pure _
    | cons delta deltas ih =>
      refine fun t => calms_bind (htext t _) fun heard => ?_
      split
      · exact ih _
      · exact calms_pure _
  refine calms_bind (calms_perform (.ask (.stream messages)) trivial) fun deltas =>
    calms_bind (hfeed deltas t) fun fed => calms_bind (calms_perform (.ask .streamed) trivial)
      fun calls => calms_bind calms_loadCancel fun cancelled => ?_
  split
  · exact calms_pure _
  · exact calms_pure _

theorem calms_agentTap (t : AgentTap S) (delta : Bytes) : Calms P role (llmAgentTap P t delta) := by
  unfold llmAgentTap
  split
  · split
    · exact calms_bind (calms_delta _ _) fun _ => calms_pure _
    · refine calms_bind (calms_delta _ _) fun spaced => ?_
      split
      · exact calms_bind (calms_delta _ _) fun _ => calms_pure _
      · exact calms_pure _
  · exact calms_bind (calms_delta _ _) fun _ => calms_pure _

/-- **`conn_set_voice`** tells the voice that it set, before anything else. -/
theorem settles_setVoice (voice : Voice) (arguments : Bytes) :
    Settles P (connSetVoice P voice arguments) := by
  unfold connSetVoice
  dsimp only
  split
  · exact settles_pure _
  rename_i hnamed
  split
  · exact settles_pure _
  intro s hs
  refine Watched.act (M := watch P) (a := .setVoice _ _) ⟨rfl, hs, not_not.1 hnamed⟩ fun _ => ?_
  refine Watched.act (M := watch P) (a := .send (.voice _ _)) ⟨rfl, rfl⟩ fun _ => ?_
  refine Watched.pure ⟨hs.symm, ?_⟩
  show (if (if s.look = .off then Look.off else .on) = .off then Look.off else .on) = .off ↔ _
  split_ifs <;> simp_all

theorem settles_call (available : List AgentTool) (voice : Voice) (call : Call) :
    Settles P (llmAgentCall P available voice call) := by
  unfold llmAgentCall
  split
  · exact settles_pure _
  split
  · exact settles_setVoice voice _
  · exact settles_bind (settles_bind (settles_perform (.ask .sleep) trivial) fun _ => settles_pure _)
      fun _ => settles_pure _
  · exact settles_bind (settles_perform (.ask (.call _ _ _)) trivial) fun _ => settles_pure _

theorem settles_runCalls (params : Params) (available : List AgentTool) (calls : List Call)
    (voice : Voice) : Settles P (runCalls P params available voice calls) := by
  induction calls generalizing voice with
  | nil => exact settles_pure _
  | cons call calls ih =>
    refine settles_bind (settles_perform (.ask .clock) trivial) fun start =>
      settles_bind (settles_perform (.send (.toolStarted _)) trivial) fun _ =>
        settles_bind (settles_call available voice call) fun called =>
          settles_bind (settles_perform (.ask .clock) trivial) fun stop => ?_
    split
    · exact settles_bind (settles_perform (.send (.toolDone _ _ _ _)) trivial) fun _ =>
        settles_bind (ih _) fun _ => settles_pure _
    · refine settles_bind (settles_perform (.send (.toolDone _ _ _ _)) trivial) fun _ =>
        settles_bind calms_loadCancel.settles fun cancelled => ?_
      split
      · exact settles_pure _
      · exact settles_bind (settles_perform (.ask .lastError) trivial) fun _ =>
          settles_bind (ih _) fun _ => settles_pure _

theorem settles_rounds (params : Params) (available : List AgentTool) (n : ℕ) (tap : StreamTap S)
    (messages : List Message) (text : Bytes) :
    Settles P (rounds P params available n tap messages text) := by
  induction n generalizing tap messages text with
  | zero => exact settles_pure _
  | succ n ih =>
    refine settles_bind (calms_stream calms_agentTap _ _).settles fun streamed => ?_
    split
    · exact settles_pure _
    dsimp only
    split
    · exact settles_pure _
    refine settles_bind (settles_runCalls params available _ _) fun called => ?_
    split
    · exact settles_pure _
    · exact ih _ _ _

/-- **`llm_agent_run`.** -/
theorem settles_agentRun (client : Settings) (tap : StreamTap S) (messages : List Message) :
    Settles P (llmAgentRun P client tap messages) := by
  refine settles_bind (settles_perform (.ask .gather) trivial) fun gathered => ?_
  split
  · exact settles_pure _
  refine settles_bind (settles_perform (.ask (.setParams _)) trivial) fun set => ?_
  split
  · exact settles_rounds _ _ _ _ _ _
  · exact settles_pure _

/-! ### One answer -/

theorem settles_respond (job : AnswerJob) (client : Settings) : Settles P (respond P job client) := by
  have hend : ∀ streamed : Bool × Bytes × StreamTap S, Settles P (do
      let cancelled ← loadCancel
      if !streamed.1 && !cancelled then do
        let message ← ask .lastError
        connError message
      else if streamed.1 && streamed.2.1.isEmpty then
        connError (ascii "[LLM] The model answered nothing")
      else pure ()
      pure streamed.2.2.voice.effect) := fun streamed => by
    refine settles_bind calms_loadCancel.settles fun cancelled => ?_
    split
    · exact settles_bind (settles_perform (.ask .lastError) trivial) fun message =>
        settles_bind (settles_perform (.send (.error message)) trivial) fun _ => settles_pure _
    split
    · exact settles_bind (settles_perform (.send (.error _)) trivial) fun _ => settles_pure _
    · exact settles_pure _
  have hrest : ∀ streamed : Bool × Bytes × StreamTap S, Settles P (do
      let tail := P.splitFlush streamed.2.2.splitter
      if streamed.1 = true ∧ tail.text ≠ [] then do
        let _ ← connSpeak P tail streamed.2.2.voice
        pure ()
      else pure ()
      let cancelled ← loadCancel
      if !streamed.1 && !cancelled then do
        let message ← ask .lastError
        connError message
      else if streamed.1 && streamed.2.1.isEmpty then
        connError (ascii "[LLM] The model answered nothing")
      else pure ()
      pure streamed.2.2.voice.effect) := fun streamed => by
    by_cases htail : streamed.1 = true ∧ (P.splitFlush streamed.2.2.splitter).text ≠ []
    · dsimp only
      rw [if_pos htail]
      exact settles_bind (calms_speak _ _).settles fun _ => hend streamed
    · dsimp only
      rw [if_neg htail]
      exact hend streamed
  unfold respond
  by_cases hmode : client.mode = ascii "agentic"
  · dsimp only
    rw [if_pos hmode]
    exact settles_bind (settles_agentRun client _ _) fun streamed => hrest streamed
  · dsimp only
    rw [if_neg hmode]
    exact settles_bind (settles_bind (calms_stream calms_delta _ _).settles fun _ => settles_pure _)
      fun streamed => hrest streamed

theorem settles_compose (job : AnswerJob) (client : Settings) : Settles P (compose P job client) := by
  refine settles_bind calms_loadCancel.settles fun cancelled => ?_
  split
  · exact settles_pure _
  split
  · split
    · exact settles_pure _
    · exact settles_bind (calms_speak _ _).settles fun _ => settles_pure _
  split
  · exact settles_bind (settles_perform (.send (.error _)) trivial) fun _ => settles_pure _
  refine settles_bind (settles_perform (.ask (.endpoint client.llm)) trivial) fun ready => ?_
  split
  · exact settles_respond job client
  · exact settles_bind (settles_perform (.ask .lastError) trivial) fun message =>
      settles_bind (settles_perform (.send (.error message)) trivial) fun _ => settles_pure _

theorem settles_echo (effect : Bytes) : Settles P (connEcho effect) := by
  unfold connEcho
  split
  · refine settles_bind (settles_perform (.load .answerReleased) trivial) fun released => ?_
    split
    · refine settles_bind calms_loadCancel.settles fun cancelled => ?_
      split
      · exact settles_pure _
      · exact settles_bind (settles_perform (.ask .jarvisTail) trivial) fun tail =>
          settles_perform (.send (.audio tail)) trivial
    · exact settles_pure _
  · exact settles_pure _

end Programs

/-! ### The responder -/

section Bodies

variable {P : Setup F V S}

/-- The responder between two answers. -/
structure Watch.Between (s : Watch F) : Prop where
  hand : s.hand = .empty ∨ s.hand = .gone
  look : s.look = .off

theorem Watch.Between.not_cancels {s : Watch F} (h : s.Between) : ¬s.hand.Cancels := by
  rcases h.hand with hs | hs <;> rw [hs] <;> exact id

theorem Watch.Between.same {s s' : Watch F} (h : s.Between) (hsame : s.Same s') : s'.Between :=
  ⟨hsame.hand ▸ h.hand, hsame.look.2 h.look⟩

/-- The responder in an answer. -/
structure Watch.Inside (s : Watch F) : Prop where
  hand : s.hand = .empty
  look : s.look ≠ .off

theorem Settles.inside {α : Type} {p : Program F α} (h : Settles P p) {s : Watch F} (hs : s.Inside) :
    Watched (watch P) .responder (fun _ (s' : Watch F) => s'.Inside) s p :=
  (h s hs.hand).mono fun _ _ hsame =>
    ⟨hsame.hand.trans hs.hand, fun hoff => hs.look (hsame.look.1 hoff)⟩

/-- **`conn_answer`** looks at the cancel right before it closes. -/
theorem watched_answer (job : AnswerJob) {s : Watch F} (h : s.Between) :
    Watched (watch P) .responder (fun _ (s' : Watch F) => s'.Between) s (connAnswer P job) := by
  have hoff : (if s.look = .off then Look.off else .on) = .off := if_pos h.look
  refine Watched.act (M := watch P) (a := .load .stop) trivial fun stop => ?_
  cases stop with
  | true =>
    have hbetween : (⟨.gone, if s.look = .off then .off else .on⟩ : Watch F).Between :=
      ⟨.inr rfl, hoff⟩
    exact (calms_release _ _ _ hbetween.not_cancels).mono fun _ _ hsame => hbetween.same hsame
  | false =>
    refine Watched.act (M := watch P) (a := .storeCancel false) ⟨rfl, hoff⟩ fun _ => ?_
    have hin : (⟨s.hand.next (.load .stop) false, .on⟩ : Watch F).Inside := by
      refine ⟨?_, by simp⟩
      rcases h.hand with hs | hs <;> rw [hs] <;> rfl
    refine ((settles_perform (.load .client) trivial).inside hin).bind fun client s hin => ?_
    refine ((settles_perform (.publish _ _) trivial).inside hin).bind fun _ s hin => ?_
    refine ((settles_perform (.send .created) trivial).inside hin).bind fun _ s hin => ?_
    refine ((settles_compose job client).inside hin).bind fun effect s hin => ?_
    refine ((settles_echo effect).inside hin).bind fun _ s hin => ?_
    refine ((settles_perform (.storeSpeaking false) trivial).inside hin).bind fun _ s hin => ?_
    refine Watched.act (M := watch P) (a := .load .cancel) trivial fun cancelled => ?_
    have hlooked : (if s.look = .off then Look.off else .looked cancelled) = .looked cancelled :=
      if_neg hin.look
    have hbetween : (⟨s.hand, .off⟩ : Watch F).Between := ⟨.inl hin.hand, rfl⟩
    have hcalm : Calms P .responder (connRelease job.turnId job.revision : Program F Unit) :=
      calms_release _ _
    have hrelease := (hcalm _ hbetween.not_cancels).mono fun _ _ hsame => hbetween.same hsame
    cases cancelled with
    | true => exact Watched.act (M := watch P) (a := .send .cancelled) ⟨rfl, hlooked⟩ fun _ => hrelease
    | false => exact Watched.act (M := watch P) (a := .send .done) ⟨rfl, hlooked⟩ fun _ => hrelease

theorem watched_responder {s : Watch F} (h : s.Between) :
    Watched (watch P) .responder (fun _ (s' : Watch F) => s'.Between) s (connResponder P) := by
  refine ((calms_perform .popAnswer trivial) s h.not_cancels).bind fun next s' hsame => ?_
  cases next with
  | none => exact .pure (h.same hsame)
  | some job => exact (watched_answer job (h.same hsame)).bind fun _ _ hs => .pure hs

/-! ### The reader and the writer -/

theorem Hand.Ended.not_cancels {s : Hand F} (h : s.Ended) : ¬s.Cancels := by
  cases s with
  | incoming x => cases x <;> first | exact h.elim | exact id
  | _ => first | exact h.elim | exact id

theorem Hand.Free.not_cancels {s : Hand F} (h : s.Free) : ¬s.Cancels := by
  cases s with
  | incoming x => cases x <;> first | exact h.elim | exact id
  | _ => first | exact h.elim | exact id

theorem watched_stop {role : Role} {s : Watch F} (h : s.hand.Ended) :
    Watched (watch P) role (fun _ (s' : Watch F) => s'.hand.Ended) s connStop := by
  have hhand : (s.hand.next (.storeCancel true) ()).Ended := by
    have hhand : s.hand.next (.storeCancel true) () = s.hand :=
      (Act.Calm.same (a := .storeCancel true) trivial h.not_cancels ()).hand
    rw [hhand]
    exact h
  refine Watched.act (M := watch P) (a := .storeCancel true) trivial fun _ => ?_
  refine Watched.act (M := watch P) (a := .setStop) hhand fun _ => ?_
  exact Watched.perform (M := watch P) (a := .stopped) trivial fun _ => hhand

/-- **The writer** writes what it took. -/
theorem watched_writer {s : Watch F} (h : s.hand = .empty) :
    Watched (watch P) .writer (fun again (s' : Watch F) => again = true → s'.hand = .empty) s
      connWriter := by
  refine Watched.act (M := watch P) (a := .popOut) ⟨rfl, h⟩ fun next => ?_
  cases next with
  | none => exact .pure (by simp)
  | some f =>
    refine Watched.act (M := watch P) (a := .ask (.transport f)) ⟨rfl, rfl⟩ fun sent => ?_
    cases sent with
    | true => exact .pure fun _ => rfl
    | false =>
      refine Watched.act (M := watch P) (a := .dropOut) trivial fun _ => ?_
      exact (watched_stop (s := ⟨.gone, _⟩) trivial).bind fun _ _ _ => .pure (by simp)

theorem watched_close {s : Watch F} (h : s.hand.Ended) :
    Watched (watch P) .reader (fun _ _ => True) s connClose :=
  (watched_stop h).bind fun _ _ h =>
    Watched.perform (M := watch P) (a := .closeOut) h fun _ => trivial

/-- What is calm leaves the reader free to read on. -/
theorem Calms.free {p : Program F Unit} (hp : Calms P .reader p) {s : Watch F} (h : s.hand.Free) :
    Watched (watch P) .reader (fun _ (s' : Watch F) => s'.hand.Free) s p :=
  (hp s h.not_cancels).mono fun _ _ hsame => hsame.hand ▸ h

/-- **`conn_frame`** applies what was read. -/
theorem watched_frame (x : Incoming F) (hx : x ≠ .closed) {s : Watch F} (h : s.hand = .incoming x) :
    Watched (watch P) .reader (fun _ (s' : Watch F) => s'.hand.Free) s (connFrame x) := by
  cases x with
  | update errors settings params invalid =>
    have hcancels : ¬s.hand.Cancels := by
      rw [h]
      exact id
    have hrest : Calms P .reader (do
        connErrors invalid.toList
        connSend .sessionUpdated) :=
      calms_bind (calms_errors _) fun _ => calms_perform (.send .sessionUpdated) trivial
    refine Watched.bind (Q := fun _ (s' : Watch F) => s'.hand.Free) ?_ fun _ _ hfree => hrest.free hfree
    refine (calms_errors errors s hcancels).bind fun _ s' hsame => ?_
    refine Watched.act (M := watch P) (a := .patch settings)
      ⟨rfl, errors, params, invalid, hsame.hand.trans h⟩ fun _ => ?_
    cases params with
    | none => exact (calms_pure ()).free trivial
    | some p =>
      have hlock : Calms P .reader (perform .lockSession : Program F Unit) :=
        calms_perform .lockSession trivial
      exact (calms_bind hlock fun _ => calms_bind (calms_session (.setParams p)) fun _ =>
        calms_perform .unlockSession trivial).free trivial
  | audio errors pcm =>
    have hcalms : Calms P .reader (connFrame (.audio errors pcm)) :=
      calms_bind (calms_errors errors) fun _ => calms_bind (calms_perform .lockSession trivial) fun _ =>
        calms_bind (calms_perform (.load .speaking) trivial) fun speaking =>
          calms_bind (calms_session _) fun _ => calms_bind (calms_session _) fun _ =>
            calms_perform .unlockSession trivial
    exact hcalms.free (h ▸ trivial)
  | cancel =>
    refine Watched.perform (M := watch P) (a := .storeCancel true) trivial fun _ => ?_
    show (s.hand.next (.storeCancel true) ()).Free
    rw [h]
    trivial
  | history messages =>
    exact Calms.free (calms_perform (.history messages) trivial) (h ▸ trivial)
  | unknown => exact Calms.free (calms_perform (.send (.error _)) trivial) (h ▸ trivial)
  | other => exact .pure (h ▸ trivial)
  | closed => exact absurd rfl hx

/-- **The reader** reads on once it has applied what it read. -/
theorem watched_reader {s : Watch F} (h : s.hand.Free) :
    Watched (watch P) .reader (fun again (s' : Watch F) => again = true → s'.hand.Free) s
      connReader := by
  have hclosed : ∀ {s : Watch F}, s.hand.Ended →
      Watched (watch P) .reader (fun again (s' : Watch F) => again = true → s'.hand.Free) s
        (connClose >>= fun _ => pure false) := fun hs =>
    (watched_close hs).bind fun _ _ _ => .pure (by simp)
  refine Watched.act (M := watch P) (a := .ask .read) ⟨rfl, h⟩ fun x => ?_
  refine Watched.act (M := watch P) (a := .load .stop) trivial fun stop => ?_
  cases stop with
  | true => cases x <;> exact hclosed trivial
  | false =>
    by_cases hx : x = .closed
    · subst hx
      exact hclosed trivial
    · have hframe := watched_frame (P := P) x hx
        (s := ⟨.incoming x,
          Look.next (Look.next s.look (.ask .read : Act F) x) (.load .stop : Act F) false⟩) rfl
      have hend : Watched (watch P) .reader (fun again (s' : Watch F) => again = true → s'.hand.Free)
          _ (connFrame x >>= fun _ => pure true) := hframe.bind fun _ _ hfree => .pure fun _ => hfree
      cases x with
      | closed => exact absurd rfl hx
      | _ => exact hend

end Bodies

/-- **Every thread is fit for its monitor.** -/
def watchFit (P : Setup F V S) : Fit (connection P) (watch P) where
  start _ := ⟨.empty, .off⟩
  begins
    | .reader, s => s.hand.Free
    | .recognizer, s => s.hand = .empty
    | .responder, s => s.Between
    | .writer, s => s.hand = .empty
  starts role := by
    cases role with
    | responder => exact ⟨.inl rfl, rfl⟩
    | reader => trivial
    | _ => rfl
  bodies role s hs := by
    cases role with
    | reader => exact watched_reader hs
    | recognizer =>
      exact (calms_recognizer s (Watch.not_cancels hs)).mono fun _ _ hsame _ => hsame.hand.trans hs
    | responder => exact (watched_responder hs).mono fun _ _ h _ => h
    | writer => exact watched_writer hs

end Conversation
end S2S
