/-
# What an answer is made of

`compose`, everything between `response.created` and the close of an answer, for
any monitor of the responder: whatever a unit that is spoken and a voice that is
set leave as it was, the answer leaves as it was (`Composes.compose`), the stream
of the endpoint, the rounds of the agent and its calls included.  Likewise for
the synthesis of one unit (`Sounds.bridge`).
-/

import S2S.Conversation.Threads
import S2S.Thread.Monitor

namespace S2S
namespace Conversation

open Json Llm Agent Thread

variable {F V S : Type}

/-- A question that an answer asks. -/
def Query.OfAnswer : Query F → Prop
  | .read => False
  | .transport _ => False
  | .transcribe _ => False
  | _ => True

/-- A frame that an answer sends besides its sound and its voice. -/
def Frame.Silent : Frame F → Prop
  | .error _ => True
  | .textDelta _ => True
  | .toolStarted _ => True
  | .toolDone _ _ _ _ => True
  | _ => False

section Sounds

variable (M : Monitor Role (Act F) Act.Result) (role : Role) (I : M.State → Prop)

/-- A state that the synthesis of a unit leaves as it was. -/
structure Sounds : Prop where
  load : M.Keeps role I (.load .cancel)
  ask : ∀ query : Query F, query.OfAnswer → M.Keeps role I (.ask query)
  spoken : ∀ text textEnd, M.Keeps role I (.send (.spoken text textEnd))
  audio : ∀ pcm, M.Keeps role I (.send (.audio pcm))

namespace Sounds

variable {M role I} (h : Sounds M role I)
include h

theorem tap (unit : SentenceUnit) (voice : Voice) (samples : ℕ) (pcm : List F) :
    M.Holds role I (speakTap unit voice samples pcm) := by
  have hrest : ∀ pcm : List F, M.Holds role I (do
      connSend (.audio pcm)
      let cancelled ← loadCancel
      pure !cancelled) := fun pcm =>
    (h.audio pcm).holds.bind fun _ => h.load.holds.bind fun _ => Monitor.holds_pure _
  have heffect : M.Holds role I (do
      let pcm ← if voice.effect = ascii "jarvis" then Conversation.ask (.jarvis pcm) else pure pcm
      connSend (.audio pcm)
      let cancelled ← loadCancel
      pure !cancelled) := by
    split
    · exact (h.ask (.jarvis pcm) trivial).holds.bind fun pcm => hrest pcm
    · exact hrest pcm
  unfold speakTap
  by_cases hfirst : samples = 0 ∧ pcm ≠ []
  · rw [if_pos hfirst]
    exact (h.spoken _ _).holds.bind fun _ => heffect
  · rw [if_neg hfirst]
    exact heffect

theorem chunks (unit : SentenceUnit) (voice : Voice) (chunks : List (List F)) (samples : ℕ) :
    M.Holds role I (ttsBridgeChunks unit voice samples chunks) := by
  induction chunks generalizing samples with
  | nil => exact Monitor.holds_pure ()
  | cons pcm chunks ih =>
    refine h.load.holds.bind fun cancelled => ?_
    split
    · exact Monitor.holds_pure ()
    refine (h.tap unit voice samples pcm).bind fun go => ?_
    split
    · exact ih _
    · exact Monitor.holds_pure ()

/-- **The synthesis of a unit.** -/
theorem bridge (P : Setup F V S) (unit : SentenceUnit) (voice : Voice) :
    M.Holds role I (ttsBridgeSpeak P unit voice) := by
  unfold ttsBridgeSpeak
  split
  · exact Monitor.holds_pure false
  refine h.load.holds.bind fun cancelled => ?_
  split
  · exact Monitor.holds_pure false
  generalize (if voice.voice = [] then P.defaultVoice else voice.voice) = named
  split
  · exact Monitor.holds_pure false
  exact (h.ask (.synthesize _) trivial).holds.bind fun chunks =>
    (h.chunks unit voice chunks 0).bind fun _ => (h.ask .synthesized trivial).holds

end Sounds

end Sounds

section Composes

variable (P : Setup F V S) (M : Monitor Role (Act F) Act.Result) (I : M.State → Prop)

/-- A state that the responder leaves as it was, whatever a unit, a voice, a question or a silent
frame of an answer comes next. -/
structure Composes : Prop where
  load : M.Keeps .responder I (.load .cancel)
  ask : ∀ query : Query F, query.OfAnswer → M.Keeps .responder I (.ask query)
  tell : ∀ f : Frame F, f.Silent → M.Keeps .responder I (.send f)
  speak : ∀ unit voice, M.Holds .responder I (connSpeak P unit voice)
  setVoice : ∀ voice arguments, M.Holds .responder I (connSetVoice P voice arguments)

namespace Composes

variable {P M I} (h : Composes P M I)
include h

theorem error (message : Bytes) : M.Holds .responder I (connError message : Program F Unit) :=
  (h.tell (.error message) trivial).holds

theorem lastError : M.Holds .responder I (do
    let message ← Conversation.ask .lastError
    connError message : Program F Unit) :=
  (h.ask .lastError trivial).holds.bind fun message => h.error message

/-! ### The stream and the agent -/

theorem units (voice : Voice) (units : List SentenceUnit) :
    M.Holds .responder I (speakUnits P voice units) := by
  induction units with
  | nil => exact Monitor.holds_pure true
  | cons unit units ih =>
    refine (h.speak unit voice).bind fun spoke => ?_
    split
    · exact ih
    · exact Monitor.holds_pure false

theorem delta (tap : StreamTap S) (delta : Bytes) : M.Holds .responder I (onDelta P tap delta) := by
  refine (h.tell (.textDelta delta) trivial).holds.bind fun _ =>
    (h.units _ _).bind fun spoke => ?_
  split
  · exact h.load.holds.bind fun _ => Monitor.holds_pure _
  · exact Monitor.holds_pure _

theorem stream {T : Type} {onText : T → Bytes → Program F (Bool × T)}
    (htext : ∀ t delta, M.Holds .responder I (onText t delta)) (t : T) (messages : List Message) :
    M.Holds .responder I (llmClientStream onText t messages) := by
  have hfeed : ∀ (deltas : List Bytes) (t : T), M.Holds .responder I (feed onText t deltas) := by
    intro deltas
    induction deltas with
    | nil => exact fun t => Monitor.holds_pure _
    | cons delta deltas ih =>
      refine fun t => (htext t _).bind fun heard => ?_
      split
      · exact ih _
      · exact Monitor.holds_pure _
  refine (h.ask (.stream messages) trivial).holds.bind fun deltas =>
    (hfeed deltas t).bind fun fed => (h.ask .streamed trivial).holds.bind fun calls =>
      h.load.holds.bind fun cancelled => ?_
  split
  · exact Monitor.holds_pure _
  · exact Monitor.holds_pure _

theorem agentTap (t : AgentTap S) (delta : Bytes) :
    M.Holds .responder I (llmAgentTap P t delta) := by
  unfold llmAgentTap
  split
  · split
    · exact (h.delta _ _).bind fun _ => Monitor.holds_pure _
    · refine (h.delta _ _).bind fun spaced => ?_
      split
      · exact (h.delta _ _).bind fun _ => Monitor.holds_pure _
      · exact Monitor.holds_pure _
  · exact (h.delta _ _).bind fun _ => Monitor.holds_pure _

theorem call (available : List AgentTool) (voice : Voice) (call : Call) :
    M.Holds .responder I (llmAgentCall P available voice call) := by
  unfold llmAgentCall
  split
  · exact Monitor.holds_pure _
  split
  · exact h.setVoice voice _
  · exact ((h.ask .sleep trivial).holds.bind fun _ => Monitor.holds_pure _).bind fun _ =>
      Monitor.holds_pure _
  · exact (h.ask (.call _ _ _) trivial).holds.bind fun _ => Monitor.holds_pure _

theorem runCalls (params : Params) (available : List AgentTool) (calls : List Call)
    (voice : Voice) :
    M.Holds .responder I (Conversation.runCalls P params available voice calls) := by
  induction calls generalizing voice with
  | nil => exact Monitor.holds_pure _
  | cons call calls ih =>
    refine (h.ask .clock trivial).holds.bind fun start =>
      (h.tell (.toolStarted _) trivial).holds.bind fun _ =>
        (h.call available voice call).bind fun called =>
          (h.ask .clock trivial).holds.bind fun stop => ?_
    split
    · exact (h.tell (.toolDone _ _ _ _) trivial).holds.bind fun _ =>
        (ih _).bind fun _ => Monitor.holds_pure _
    · refine (h.tell (.toolDone _ _ _ _) trivial).holds.bind fun _ =>
        h.load.holds.bind fun cancelled => ?_
      split
      · exact Monitor.holds_pure _
      · exact (h.ask .lastError trivial).holds.bind fun _ =>
          (ih _).bind fun _ => Monitor.holds_pure _

theorem rounds (params : Params) (available : List AgentTool) (n : ℕ) (tap : StreamTap S)
    (messages : List Message) (text : Bytes) :
    M.Holds .responder I (Conversation.rounds P params available n tap messages text) := by
  induction n generalizing tap messages text with
  | zero => exact Monitor.holds_pure _
  | succ n ih =>
    refine (h.stream h.agentTap _ _).bind fun streamed => ?_
    split
    · exact Monitor.holds_pure _
    dsimp only
    split
    · exact Monitor.holds_pure _
    refine (h.runCalls params available _ _).bind fun called => ?_
    split
    · exact Monitor.holds_pure _
    · exact ih _ _ _

/-- **`llm_agent_run`.** -/
theorem agentRun (client : Settings) (tap : StreamTap S) (messages : List Message) :
    M.Holds .responder I (llmAgentRun P client tap messages) := by
  refine (h.ask .gather trivial).holds.bind fun gathered => ?_
  split
  · exact Monitor.holds_pure _
  refine (h.ask (.setParams _) trivial).holds.bind fun set => ?_
  split
  · exact h.rounds _ _ _ _ _ _
  · exact Monitor.holds_pure _

/-! ### The answer -/

theorem respond (job : AnswerJob) (client : Settings) :
    M.Holds .responder I (Conversation.respond P job client) := by
  have hend : ∀ streamed : Bool × Bytes × StreamTap S, M.Holds .responder I (do
      let cancelled ← loadCancel
      if !streamed.1 && !cancelled then do
        let message ← Conversation.ask .lastError
        connError message
      else if streamed.1 && streamed.2.1.isEmpty then
        connError (ascii "[LLM] The model answered nothing")
      else pure ()
      pure streamed.2.2.voice.effect) := fun streamed => by
    refine h.load.holds.bind fun cancelled => ?_
    split
    · exact h.lastError.bind fun _ => Monitor.holds_pure _
    split
    · exact (h.error _).bind fun _ => Monitor.holds_pure _
    · exact Monitor.holds_pure _
  have hrest : ∀ streamed : Bool × Bytes × StreamTap S, M.Holds .responder I (do
      let tail := P.splitFlush streamed.2.2.splitter
      if streamed.1 = true ∧ tail.text ≠ [] then do
        let _ ← connSpeak P tail streamed.2.2.voice
        pure ()
      else pure ()
      let cancelled ← loadCancel
      if !streamed.1 && !cancelled then do
        let message ← Conversation.ask .lastError
        connError message
      else if streamed.1 && streamed.2.1.isEmpty then
        connError (ascii "[LLM] The model answered nothing")
      else pure ()
      pure streamed.2.2.voice.effect) := fun streamed => by
    by_cases htail : streamed.1 = true ∧ (P.splitFlush streamed.2.2.splitter).text ≠ []
    · dsimp only
      rw [if_pos htail]
      exact (h.speak _ _).bind fun _ => hend streamed
    · dsimp only
      rw [if_neg htail]
      exact hend streamed
  unfold Conversation.respond
  by_cases hmode : client.mode = ascii "agentic"
  · dsimp only
    rw [if_pos hmode]
    exact (h.agentRun client _ _).bind fun streamed => hrest streamed
  · dsimp only
    rw [if_neg hmode]
    exact ((h.stream h.delta _ _).bind fun _ => Monitor.holds_pure _).bind fun streamed =>
      hrest streamed

/-- **An answer**, between its `response.created` and its close. -/
theorem compose (job : AnswerJob) (client : Settings) :
    M.Holds .responder I (Conversation.compose P job client) := by
  refine h.load.holds.bind fun cancelled => ?_
  split
  · exact Monitor.holds_pure _
  split
  · split
    · exact Monitor.holds_pure _
    · exact (h.speak _ _).bind fun _ => Monitor.holds_pure _
  split
  · exact (h.error _).bind fun _ => Monitor.holds_pure _
  refine (h.ask (.endpoint client.llm) trivial).holds.bind fun ready => ?_
  split
  · exact h.respond job client
  · exact h.lastError.bind fun _ => Monitor.holds_pure _

end Composes

end Composes

end Conversation
end S2S
