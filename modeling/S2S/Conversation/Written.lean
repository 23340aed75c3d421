/-
# What is spoken was written before

A unit goes to the client with the place where it ends in the written text
(`rt_event_spoken` of `src/realtime-proto.h`).  `on_delta` of
`src/s2s-conversation.cpp` sends a delta before it splits it, and every delta of
an answer passes through there, so the place lies within the text the client has
(`SpokenEnds`).  In the loopback mode nothing is written: the unit is the
transcript, and its end is its own length.

The responder is followed by a monitor that keeps the text of the answer in
flight (`pen`).
-/

import S2S.Conversation.Guarantees
import S2S.Split.Ends
import S2S.Thread.Monitor

namespace S2S
namespace Conversation

open Json Llm Agent Session Thread Split

variable {F V S : Type}

/-- A connection with the splitter of `src/sentence-split.h`. -/
def Setup.splitting (P : Setup F V S) : Setup F V SentenceSplitter where
  models := P.models
  vad := P.vad
  params := P.params
  defaults := P.defaults
  splitter := {}
  splitPush := sentenceSplitPush
  splitFlush s := (sentenceSplitFlush s).1
  utf16Len := sentenceUtf16Len
  voices := P.voices
  defaultVoice := P.defaultVoice
  effects := P.effects

/-! ### The text of the answer in flight -/

/-- What a frame makes of the text. -/
def Frame.write (text : Bytes) : Frame F → Bytes
  | .created => []
  | .textDelta delta => text ++ delta
  | _ => text

/-- The text that was sent since the last `response.created`. -/
def writtenText (log : List (Entry F)) : Bytes :=
  log.foldl (fun text e => match e with
    | .frame _ f => f.write text
    | _ => text) []

theorem writtenText_snoc (log : List (Entry F)) (e : Entry F) :
    writtenText (log ++ [e]) = match e with
      | .frame _ f => f.write (writtenText log)
      | _ => writtenText log := by
  rw [writtenText, List.foldl_append]
  rfl

/-- A unit that ends within the text, or stands for one that nobody wrote. -/
def Behind (text unit : Bytes) (textEnd : ℕ) : Prop :=
  textEnd ≤ sentenceUtf16Len text ∨ text = [] ∧ textEnd = sentenceUtf16Len unit

/-- **Every unit ends within the text that the client had been sent.** -/
def SpokenEnds (log : List (Entry F)) : Prop :=
  ∀ before role unit textEnd after, log = before ++ .frame role (.spoken unit textEnd) :: after →
    Behind (writtenText before) unit textEnd

/-! ### The monitor -/

/-- What an action makes of the text. -/
def Act.write (text : Bytes) : Act F → Bytes
  | .send f => f.write text
  | _ => text

/-- **The monitor of the responder**: the text of its answer, and where its units may end. -/
def pen (F : Type) : Monitor Role (Act F) Act.Result where
  State := Bytes
  next text a _ := a.write text
  ok role text a := ∀ unit textEnd, role = .responder → a = .send (.spoken unit textEnd) →
    Behind text unit textEnd

/-- A frame of neither. -/
def Frame.Mute : Frame F → Prop
  | .created => False
  | .textDelta _ => False
  | .spoken _ _ => False
  | _ => True

/-- A program that leaves the text as it is. -/
abbrev Keeps {α : Type} (text : Bytes) (p : Program F α) : Prop :=
  Watched (pen F) .responder (fun _ (text' : Bytes) => text' = text) text p

/-- A program that neither writes nor says where a unit ends. -/
abbrev Mute {α : Type} (p : Program F α) : Prop := ∀ text, Keeps text p

section Programs

variable {α β : Type} {text : Bytes}

theorem keeps_bind {p : Program F α} {f : α → Program F β} (h : Keeps text p)
    (hf : ∀ value, Keeps text (f value)) : Keeps text (p >>= f) :=
  h.bind fun value _ htext => htext ▸ hf value

theorem mute_pure (value : α) : Mute (pure value : Program F α) := fun _ => .pure rfl

theorem mute_bind {p : Program F α} {f : α → Program F β} (h : Mute p) (hf : ∀ value, Mute (f value)) :
    Mute (p >>= f) := fun text => keeps_bind (h text) fun value => hf value text

theorem mute_perform (a : Act F) (ha : ∀ f, a = .send f → f.Mute) : Mute (perform a) := by
  intro text
  refine Watched.perform (fun unit textEnd _ heq => ?_) fun _ => ?_
  · exact (ha _ heq).elim
  · cases a with
    | send f =>
      have hmute := ha f rfl
      cases f <;> first | exact hmute.elim | rfl
    | _ => rfl

theorem mute_send {f : Frame F} (hf : f.Mute) : Mute (connSend f) :=
  mute_perform (.send f) fun _ heq => Act.send.inj heq ▸ hf

theorem mute_ask (query : Query F) : Mute (ask query) := mute_perform (.ask query) (by simp)

theorem mute_loadCancel : Mute (F := F) loadCancel := mute_perform (.load .cancel) (by simp)

theorem mute_error (message : Bytes) : Mute (F := F) (connError message) := mute_send trivial

/-! ### The release -/

theorem mute_onSessionEvent (r : Report F) : Mute (connOnSessionEvent r) := by
  unfold connOnSessionEvent
  split
  · exact mute_bind (mute_send trivial) fun _ => mute_perform _ (by simp)
  · exact mute_bind (mute_send trivial) fun _ => mute_perform _ (by simp)
  · exact mute_perform _ (by simp)
  · exact mute_pure _
  · exact mute_pure _
  · exact mute_perform _ (by simp)
  · exact mute_perform _ (by simp)

theorem mute_handOver (rs : List (Report F)) : Mute (handOver rs) := by
  induction rs with
  | nil => exact mute_pure _
  | cons r rs ih =>
    exact mute_bind (mute_perform (.callback r) (by simp)) fun _ =>
      mute_bind (mute_onSessionEvent r) fun _ =>
        mute_bind (mute_perform .returned (by simp)) fun _ => ih

theorem mute_release (turnId revision : ℕ) : Mute (F := F) (connRelease turnId revision) :=
  mute_bind (mute_perform .lockSession (by simp)) fun _ =>
    mute_bind (mute_bind (mute_perform (.session _) (by simp)) fun rs => mute_handOver rs) fun _ =>
      mute_perform .unlockSession (by simp)

theorem mute_hold : Mute (F := F) connHold := by
  refine mute_bind (mute_perform (.load .answerReleased) (by simp)) fun released => ?_
  split
  · exact mute_pure _
  refine mute_bind (mute_perform (.load .answer) (by simp)) fun answer => ?_
  refine mute_bind (mute_release _ _) fun _ => mute_bind (mute_perform .waitFinal (by simp)) fun heard => ?_
  split
  · exact mute_bind (mute_perform .setReleased (by simp)) fun _ => mute_pure _
  · exact mute_pure _

/-! ### Speaking -/

/-- The callback of `conn_speak` on a unit that lies within the text. -/
theorem keeps_tap {unit : SentenceUnit} (hunit : Behind text unit.text unit.textEnd) (voice : Voice)
    (samples : ℕ) (pcm : List F) : Keeps text (speakTap unit voice samples pcm) := by
  have hrest : ∀ pcm : List F, Mute (do
      connSend (.audio pcm)
      let cancelled ← loadCancel
      pure !cancelled) := fun pcm =>
    mute_bind (mute_send trivial) fun _ => mute_bind mute_loadCancel fun _ => mute_pure _
  have heffect : Mute (do
      let pcm ← if voice.effect = ascii "jarvis" then ask (.jarvis pcm) else pure pcm
      connSend (.audio pcm)
      let cancelled ← loadCancel
      pure !cancelled) := by
    split
    · exact mute_bind (mute_ask (.jarvis pcm)) fun pcm => hrest pcm
    · exact hrest pcm
  unfold speakTap
  by_cases hfirst : samples = 0 ∧ pcm ≠ []
  · rw [if_pos hfirst]
    have hsend : Keeps (F := F) text (connSend (.spoken unit.text unit.textEnd)) := by
      refine Watched.perform (a := Act.send _) (fun text' textEnd _ heq => ?_) fun _ => rfl
      obtain ⟨rfl, rfl⟩ := Frame.spoken.inj (Act.send.inj heq)
      exact hunit
    exact keeps_bind hsend fun _ => heffect text
  · rw [if_neg hfirst]
    exact heffect text

theorem keeps_chunks {unit : SentenceUnit} (hunit : Behind text unit.text unit.textEnd)
    (voice : Voice) (chunks : List (List F)) (samples : ℕ) :
    Keeps text (ttsBridgeChunks unit voice samples chunks) := by
  induction chunks generalizing samples with
  | nil => exact mute_pure _ text
  | cons pcm chunks ih =>
    refine keeps_bind (mute_loadCancel text) fun cancelled => ?_
    split
    · exact mute_pure _ text
    refine keeps_bind (keeps_tap hunit voice samples pcm) fun go => ?_
    split
    · exact ih _
    · exact mute_pure _ text

variable {P : Setup F V S}

theorem keeps_bridge {unit : SentenceUnit} (hunit : Behind text unit.text unit.textEnd)
    (voice : Voice) : Keeps text (ttsBridgeSpeak P unit voice) := by
  unfold ttsBridgeSpeak
  split
  · exact mute_pure _ text
  refine keeps_bind (mute_loadCancel text) fun cancelled => ?_
  split
  · exact mute_pure _ text
  generalize (if voice.voice = [] then P.defaultVoice else voice.voice) = named
  split
  · exact mute_pure _ text
  exact keeps_bind (mute_ask (.synthesize unit.text) text) fun chunks =>
    keeps_bind (keeps_chunks hunit voice chunks 0) fun _ => mute_ask .synthesized text

/-- **`conn_speak`** on a unit that lies within the text. -/
theorem keeps_speak {unit : SentenceUnit} (hunit : Behind text unit.text unit.textEnd)
    (voice : Voice) : Keeps text (connSpeak P unit voice) := by
  refine keeps_bind (mute_hold text) fun held => ?_
  split
  · refine keeps_bind (keeps_bridge hunit voice) fun spoke => ?_
    refine keeps_bind (mute_loadCancel text) fun cancelled => ?_
    split
    · exact mute_bind (mute_ask .lastError) (fun message =>
        mute_bind (mute_error message) fun _ => mute_pure _) text
    · exact mute_pure _ text
  · exact mute_pure _ text

theorem keeps_units (voice : Voice) {units : List SentenceUnit}
    (h : ∀ unit ∈ units, Behind text unit.text unit.textEnd) :
    Keeps text (speakUnits P voice units) := by
  induction units with
  | nil => exact mute_pure _ text
  | cons unit units ih =>
    obtain ⟨hunit, hunits⟩ := List.forall_mem_cons.1 h
    refine keeps_bind (keeps_speak hunit voice) fun spoke => ?_
    split
    · exact ih hunits
    · exact mute_pure _ text

end Programs

/-! ### The stream and the agent -/

section Answers

variable {P : Setup F V S}

/-- The text was pushed through the splitter, delta by delta. -/
def Pushed (splitter : SentenceSplitter) (text : Bytes) : Prop :=
  ∃ deltas : List Bytes, deltas.flatten = text ∧ splitter = (sentenceSplitPushes {} deltas).2

theorem sentenceSplitPushes_snoc (s : SentenceSplitter) (deltas : List Bytes) (delta : Bytes) :
    sentenceSplitPushes s (deltas ++ [delta]) =
      ((sentenceSplitPushes s deltas).1 ++ (sentenceSplitPush (sentenceSplitPushes s deltas).2 delta).1,
        (sentenceSplitPush (sentenceSplitPushes s deltas).2 delta).2) := by
  induction deltas generalizing s with
  | nil => simp [sentenceSplitPushes]
  | cons first deltas ih => simp [sentenceSplitPushes, ih, List.append_assoc]

/-- **One delta**: its units end within the text it belongs to. -/
theorem Pushed.push {splitter : SentenceSplitter} {text : Bytes} (h : Pushed splitter text)
    (delta : Bytes) :
    Pushed (sentenceSplitPush splitter delta).2 (text ++ delta) ∧
      ∀ unit ∈ (sentenceSplitPush splitter delta).1, Behind (text ++ delta) unit.text unit.textEnd := by
  obtain ⟨deltas, rfl, rfl⟩ := h
  have hflatten : (deltas ++ [delta]).flatten = deltas.flatten ++ delta := by simp
  refine ⟨⟨deltas ++ [delta], hflatten, ?_⟩, fun unit hunit => .inl ?_⟩
  · rw [sentenceSplitPushes_snoc]
  · rw [← hflatten]
    refine textEnd_le ?_
    rw [sentenceSplitPushes_snoc]
    exact List.mem_append_right _ hunit

/-- **The flush**: the tail ends where the text does. -/
theorem Pushed.flush {splitter : SentenceSplitter} {text : Bytes} (h : Pushed splitter text) :
    Behind text (sentenceSplitFlush splitter).1.text (sentenceSplitFlush splitter).1.textEnd := by
  obtain ⟨deltas, rfl, rfl⟩ := h
  exact .inl (flush_textEnd deltas).le

theorem pushed_nil : Pushed {} [] := ⟨[], rfl, rfl⟩

/-- A program that goes on writing: what it gives back keeps to `J` with the text then. -/
abbrev Writes {α : Type} (J : α → Bytes → Prop) (text : Bytes) (p : Program F α) : Prop :=
  Watched (pen F) .responder J text p

/-- **`on_delta`**: the delta is sent, then split, then spoken. -/
theorem writes_delta {tap : StreamTap SentenceSplitter} {text : Bytes}
    (h : Pushed tap.splitter text) (delta : Bytes) :
    Writes (fun heard text => Pushed heard.2.splitter text) text (onDelta P.splitting tap delta) := by
  obtain ⟨hpushed, hunits⟩ := h.push delta
  refine Watched.bind (Q := fun _ text' => text' = text ++ delta)
    (.perform (fun _ _ _ heq => by simp at heq) fun _ => rfl) fun _ text' htext => ?_
  subst htext
  refine (keeps_units tap.voice hunits).bind fun spoke text' htext => ?_
  subst htext
  split
  · refine (mute_loadCancel _).bind fun _ text' htext => .pure ?_
    exact htext ▸ hpushed
  · exact .pure hpushed

/-- A stream, whatever its callback does, while it keeps to `J`. -/
theorem writes_stream {T : Type} {J : T → Bytes → Prop} {onText : T → Bytes → Program F (Bool × T)}
    (htext : ∀ t delta text, J t text → Writes (fun heard => J heard.2) text (onText t delta)) {t : T}
    {text : Bytes} (ht : J t text) (messages : List Message) :
    Writes (fun streamed => J streamed.2) text (llmClientStream onText t messages) := by
  have hfeed : ∀ (deltas : List Bytes) (t : T) (text : Bytes), J t text →
      Writes (fun fed => J fed.2) text (feed onText t deltas) := by
    intro deltas
    induction deltas with
    | nil => exact fun t text ht => .pure ht
    | cons delta deltas ih =>
      intro t text ht
      refine (htext t _ text ht).bind fun heard text' hheard => ?_
      split
      · exact ih _ _ hheard
      · exact .pure hheard
  refine (mute_ask (.stream messages) text).bind fun deltas text' htext' => ?_
  subst htext'
  refine (hfeed deltas t _ ht).bind fun fed text hfed => ?_
  refine (mute_ask .streamed text).bind fun calls text' htext' => ?_
  subst htext'
  refine (mute_loadCancel _).bind fun cancelled text' htext' => ?_
  subst htext'
  split
  · exact .pure hfed
  · exact .pure hfed

theorem writes_agentTap {t : AgentTap SentenceSplitter} {text : Bytes}
    (h : Pushed t.tap.splitter text) (delta : Bytes) :
    Writes (fun heard text => Pushed heard.2.tap.splitter text) text
      (llmAgentTap P.splitting t delta) := by
  unfold llmAgentTap
  split
  · split
    · exact (writes_delta h delta).bind fun heard _ h => .pure h
    · refine (writes_delta h [0x20]).bind fun spaced _ h => ?_
      split
      · exact (writes_delta h delta).bind fun heard _ h => .pure h
      · exact .pure h
  · exact (writes_delta h delta).bind fun heard _ h => .pure h

theorem mute_call (available : List AgentTool) (voice : Voice) (call : Call) :
    Mute (llmAgentCall P available voice call) := by
  unfold llmAgentCall
  split
  · exact mute_pure _
  split
  · unfold connSetVoice
    dsimp only
    split
    · exact mute_pure _
    split
    · exact mute_pure _
    · exact mute_bind (mute_perform (.setVoice _ _) (by simp)) fun _ =>
        mute_bind (mute_send trivial) fun _ => mute_pure _
  · exact mute_bind (mute_bind (mute_ask .sleep) fun off => mute_pure _) fun _ => mute_pure _
  · exact mute_bind (mute_ask (.call _ _ _)) fun _ => mute_pure _

theorem mute_runCalls (params : Params) (available : List AgentTool) (calls : List Call)
    (voice : Voice) : Mute (runCalls P params available voice calls) := by
  induction calls generalizing voice with
  | nil => exact mute_pure _
  | cons call calls ih =>
    refine mute_bind (mute_ask .clock) fun start => mute_bind (mute_send trivial) fun _ => ?_
    refine mute_bind (mute_call available voice call) fun called => ?_
    refine mute_bind (mute_ask .clock) fun stop => ?_
    split
    · exact mute_bind (mute_send trivial) fun _ => mute_bind (ih _) fun _ => mute_pure _
    · refine mute_bind (mute_send trivial) fun _ => mute_bind mute_loadCancel fun cancelled => ?_
      split
      · exact mute_pure _
      · exact mute_bind (mute_ask .lastError) fun _ => mute_bind (ih _) fun _ => mute_pure _

theorem writes_rounds (params : Params) (available : List AgentTool) (n : ℕ)
    {tap : StreamTap SentenceSplitter} {text : Bytes} (h : Pushed tap.splitter text)
    (messages : List Message) (answer : Bytes) :
    Writes (fun ended text => Pushed ended.2.2.splitter text) text
      (rounds P.splitting params available n tap messages answer) := by
  induction n generalizing tap text messages answer with
  | zero => exact .pure h
  | succ n ih =>
    refine (writes_stream (J := fun t text => Pushed t.tap.splitter text)
      (fun t delta text ht => writes_agentTap ht delta) h messages).bind fun streamed text h => ?_
    split
    · exact .pure h
    dsimp only
    split
    · exact .pure h
    refine (mute_runCalls params available _ _ text).bind fun called text' htext => ?_
    subst htext
    split
    · exact .pure h
    · refine ih ?_ _ _
      exact h

theorem writes_agentRun (client : Settings) {tap : StreamTap SentenceSplitter} {text : Bytes}
    (h : Pushed tap.splitter text) (messages : List Message) :
    Writes (fun ended text => Pushed ended.2.2.splitter text) text
      (llmAgentRun P.splitting client tap messages) := by
  refine (mute_ask .gather text).bind fun gathered text' htext => ?_
  subst htext
  split
  · exact .pure h
  refine (mute_ask (.setParams _) _).bind fun set text' htext => ?_
  subst htext
  split
  · exact writes_rounds client.llm _ _ h messages []
  · exact .pure h

/-! ### One answer -/

/-- Once the model has answered, the tail is all that is left to say. -/
theorem writes_respond (job : AnswerJob) (client : Settings) :
    Writes (fun _ _ => True) [] (respond P.splitting job client) := by
  have hend : ∀ streamed : Bool × Bytes × StreamTap SentenceSplitter, Mute (F := F) (do
      let cancelled ← loadCancel
      if !streamed.1 && !cancelled then do
        let message ← ask .lastError
        connError message
      else if streamed.1 && streamed.2.1.isEmpty then
        connError (ascii "[LLM] The model answered nothing")
      else pure ()
      pure streamed.2.2.voice.effect) := fun streamed => by
    refine mute_bind mute_loadCancel fun cancelled => ?_
    split
    · exact mute_bind (mute_ask .lastError) fun message =>
        mute_bind (mute_error message) fun _ => mute_pure _
    split
    · exact mute_bind (mute_error _) fun _ => mute_pure _
    · exact mute_pure _
  have hrest : ∀ (streamed : Bool × Bytes × StreamTap SentenceSplitter) (text : Bytes),
      Pushed streamed.2.2.splitter text → Keeps (F := F) text (do
      let tail := P.splitting.splitFlush streamed.2.2.splitter
      if streamed.1 = true ∧ tail.text ≠ [] then do
        let _ ← connSpeak P.splitting tail streamed.2.2.voice
        pure ()
      else pure ()
      let cancelled ← loadCancel
      if !streamed.1 && !cancelled then do
        let message ← ask .lastError
        connError message
      else if streamed.1 && streamed.2.1.isEmpty then
        connError (ascii "[LLM] The model answered nothing")
      else pure ()
      pure streamed.2.2.voice.effect) := fun streamed text h => by
    by_cases htail : streamed.1 = true ∧
        (P.splitting.splitFlush streamed.2.2.splitter).text ≠ []
    · dsimp only
      rw [if_pos htail]
      exact keeps_bind (keeps_speak h.flush _) fun _ => hend streamed text
    · dsimp only
      rw [if_neg htail]
      exact hend streamed text
  unfold respond
  by_cases hmode : client.mode = ascii "agentic"
  · dsimp only
    rw [if_pos hmode]
    exact (writes_agentRun client pushed_nil _).bind fun streamed text h =>
      (hrest streamed text h).mono fun _ _ _ => trivial
  · dsimp only
    rw [if_neg hmode]
    refine Watched.bind (Q := fun ended text => Pushed ended.2.2.splitter text)
      ((writes_stream (J := fun tap text => Pushed tap.splitter text)
        (fun t delta text ht => writes_delta ht delta) pushed_nil _).bind fun _ _ h => .pure h)
      fun streamed text h => (hrest streamed text h).mono fun _ _ _ => trivial

theorem writes_compose (job : AnswerJob) (client : Settings) :
    Writes (fun _ _ => True) [] (compose P.splitting job client) := by
  refine (mute_loadCancel []).bind fun cancelled text htext => ?_
  subst htext
  split
  · exact .pure trivial
  split
  · split
    · exact .pure trivial
    · exact (keeps_speak (.inr ⟨rfl, rfl⟩) _).bind fun _ _ _ => .pure trivial
  split
  · exact (mute_error _ _).bind fun _ _ _ => .pure trivial
  refine (mute_ask (.endpoint client.llm) _).bind fun ready text htext => ?_
  subst htext
  split
  · exact writes_respond job client
  · exact (mute_bind (mute_ask .lastError) (fun message =>
      mute_bind (mute_error message) fun _ => mute_pure _) []).mono fun _ _ _ => trivial

theorem mute_echo (effect : Bytes) : Mute (F := F) (connEcho effect) := by
  unfold connEcho
  split
  · refine mute_bind (mute_perform (.load .answerReleased) (by simp)) fun released => ?_
    split
    · refine mute_bind mute_loadCancel fun cancelled => ?_
      split
      · exact mute_pure _
      · exact mute_bind (mute_ask .jarvisTail) fun tail => mute_send trivial
    · exact mute_pure _
  · exact mute_pure _

/-- **`conn_answer`** starts a text of its own. -/
theorem writes_answer (job : AnswerJob) (text : Bytes) :
    Writes (fun _ _ => True) text (connAnswer P.splitting job) := by
  refine (mute_perform (.load .stop) (by simp) text).bind fun stop text' _ => ?_
  split
  · exact (mute_release _ _ text').mono fun _ _ _ => trivial
  refine (mute_perform (.storeCancel false) (by simp) text').bind fun _ text' _ => ?_
  refine (mute_perform (.load .client) (by simp) text').bind fun client text' _ => ?_
  refine (mute_perform (.publish _ _) (by simp) text').bind fun _ text' _ => ?_
  refine Watched.bind (Q := fun _ text' => text' = ([] : Bytes))
    (.perform (fun _ _ _ heq => by simp at heq) fun _ => rfl) fun _ text' htext => ?_
  subst htext
  refine (writes_compose job client).bind fun effect text _ => ?_
  refine (mute_bind (mute_echo effect) (fun _ => ?_) text).mono fun _ _ _ => trivial
  refine mute_bind (mute_perform (.storeSpeaking false) (by simp)) fun _ => ?_
  refine mute_bind mute_loadCancel fun cancelled => ?_
  refine mute_bind (mute_send ?_) fun _ => mute_release _ _
  split <;> trivial

theorem writes_responder (text : Bytes) :
    Writes (fun _ _ => True) text (connResponder P.splitting) := by
  refine (mute_perform .popAnswer (by simp) text).bind fun job text' _ => ?_
  cases job with
  | none => exact .pure trivial
  | some job => exact (writes_answer job text').bind fun _ _ _ => .pure trivial

end Answers

/-! ### Every run -/

/-- Only the responder writes or speaks, and it is fit for its monitor. -/
def penFit (P : Setup F V S) : Fit (connection P.splitting) (pen F) where
  start _ := []
  begins _ _ := True
  starts _ := trivial
  bodies role text _ := by
    have hfree : role ≠ .responder → ∀ (text : Bytes) (a : Act F), (pen F).ok role text a :=
      fun hrole _ _ _ _ heq => absurd heq hrole
    cases role with
    | responder => exact (writes_responder text).mono fun _ _ _ _ => trivial
    | reader => exact (Watched.of_free (hfree (by decide)) text _).mono fun _ _ _ _ => trivial
    | recognizer => exact (Watched.of_free (hfree (by decide)) text _).mono fun _ _ _ _ => trivial
    | writer => exact (Watched.of_free (hfree (by decide)) text _).mono fun _ _ _ _ => trivial

/-- Only a send logs a frame. -/
theorem logs_no_frame {role : Role} {a : Act F} {m : Memory F V} {r : a.Result}
    (ha : ∀ f, a ≠ .send f) : a.logs role m r = [] ∨
      ∃ e : Entry F, a.logs role m r = [e] ∧ ∀ role f, e ≠ .frame role f := by
  cases a with
  | send f => exact absurd rfl (ha f)
  | ask query =>
    cases hw : query.work with
    | none => exact .inl (by simp [Act.logs, hw])
    | some w => exact .inr ⟨.work w m.cancel, by simp [Act.logs, hw], by simp⟩
  | callback report => exact .inr ⟨_, rfl, by simp⟩
  | pushAnswer job => exact .inr ⟨_, rfl, by simp⟩
  | popAnswer =>
    cases r with
    | none => exact .inl rfl
    | some job => exact .inr ⟨_, rfl, by simp⟩
  | stopped => exact .inr ⟨_, rfl, by simp⟩
  | _ => exact .inl rfl

/-- One entry more. -/
theorem SpokenEnds.snoc {log : List (Entry F)} (h : SpokenEnds log) {e : Entry F}
    (he : ∀ role unit textEnd, e = .frame role (.spoken unit textEnd) →
      Behind (writtenText log) unit textEnd) : SpokenEnds (log ++ [e]) := by
  intro before role unit textEnd after hlog
  rcases split_snoc hlog with ⟨-, rfl, heq⟩ | ⟨after', -, hbefore⟩
  · exact he role unit textEnd heq.symm
  · exact h before role unit textEnd after' hbefore

/-- What the monitor keeps is the text of the log. -/
theorem tied_pen (P : Setup F V S) : Tied (penFit P) fun (texts : Role → Bytes) m =>
    texts .responder = writtenText m.log ∧ SpokenEnds m.log where
  start := ⟨rfl, fun before _ _ _ after hlog => by simp [connection, Memory.new] at hlog⟩
  act := by
    rintro c hc texts role a x r m next hprog hok ⟨htext, hspoken⟩ hexec
    have hlog := log_exec hexec
    by_cases hsend : ∃ f, a = .send f
    · obtain ⟨f, rfl⟩ := hsend
      have hgrown : m.log = c.mem.log ++ [.frame role f] := hlog
      rw [hgrown, writtenText_snoc]
      by_cases hrole : role = .responder
      · subst hrole
        refine ⟨by rw [← htext]; exact Function.update_self .., hspoken.snoc ?_⟩
        intro role' unit textEnd heq
        obtain ⟨-, rfl⟩ := Entry.frame.inj heq
        rw [← htext]
        exact hok unit textEnd rfl rfl
      · -- The others send frames of no answer.
        have hbeside : ¬f.OfAnswer := fun hf =>
          hrole ((allowed_of_reaches hc hprog).frames.answer hf)
        rw [Function.update_of_ne (Ne.symm hrole), htext]
        refine ⟨?_, hspoken.snoc fun role' unit textEnd heq => ?_⟩
        · cases f <;> first | exact absurd trivial hbeside | rfl
        · obtain ⟨-, rfl⟩ := Entry.frame.inj heq
          exact absurd trivial hbeside
    · have hnone : ∀ f, a ≠ .send f := fun f heq => hsend ⟨f, heq⟩
      have hwrite : Function.update texts role ((pen F).next (texts role) a r) .responder =
          texts .responder := by
        have hsame : (pen F).next (texts role) a r = texts role := by
          cases a <;> first | exact absurd rfl (hnone _) | rfl
        rw [hsame, Function.update_eq_self]
      rw [hwrite, hlog]
      rcases logs_no_frame hnone with hnil | ⟨e, hone, he⟩
      · rw [hnil, List.append_nil]
        exact ⟨htext, hspoken⟩
      · rw [hone, writtenText_snoc]
        refine ⟨?_, hspoken.snoc fun role' unit textEnd heq => absurd heq (he _ _)⟩
        cases e with
        | frame role' f => exact absurd rfl (he role' f)
        | _ => exact htext

/-- **Where the units end.**  In a stream of deltas the ends are those of the sentences (`Ends`); and
in every order of the threads of a connection, a unit that is spoken ends within the text that the
client had been sent. -/
theorem units_end {P : Setup F V S} {c : Config Role (Act F) Act.Result (Memory F V)}
    (h : Reaches (connection P.splitting) c) :
    (∀ deltas, Ends deltas) ∧ SpokenEnds c.mem.log := by
  obtain ⟨texts, ⟨-, hspoken⟩, -⟩ := (tied_pen P).holds h
  exact ⟨ends_of_stream, hspoken⟩

/-! ### A run -/

/-- A world whose endpoint writes one sentence and more. -/
def writingWorld (incoming : Incoming ℕ) : (a : Act ℕ) → a.Input
  | .ask (.stream _) => [ascii "Hi. Y", ascii "es"]
  | a => plainWorld incoming a

/-- A turn of one sample, which silence makes final, and its answer. -/
def writingRun : List (Role × ((a : Act ℕ) → a.Input)) :=
  steps .reader (.audio [] [1, 0]) 16 ++ steps .recognizer .other 6 ++ steps .responder .other 8 ++
    steps .reader (.audio [] [0, 0]) 11 ++ List.replicate 30 (.responder, writingWorld .other)

theorem writingRun_isSome : (play (connection (plainSetup (ascii "conversation")).splitting)
    (connection (plainSetup (ascii "conversation")).splitting).start writingRun).isSome = true := by
  decide +kernel

theorem units_end_writing :
    (∀ deltas, Ends deltas) ∧ SpokenEnds ((play _ _ writingRun).get writingRun_isSome).mem.log ∧
      (((play _ _ writingRun).get writingRun_isSome).mem.log.any fun
        | .frame _ (.spoken _ _) => true
        | _ => false) = true := by
  obtain ⟨hends, hspoken⟩ := units_end (P := plainSetup (ascii "conversation"))
    (Reaches.start.play (Option.some_get writingRun_isSome).symm)
  exact ⟨hends, hspoken, by decide +kernel⟩

end Conversation
end S2S
