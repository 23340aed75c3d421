/-
# The numbers of an update

A number of an update is filtered twice: by the range it is read with
(`rt_json_count` and the others), which tells the client of one it refuses, and
by the test `conn_apply_patch` takes it with, which is there for the fallback of
a number that is absent and tells nobody.  `NumberField` pairs the two for every
number but the seeds.  `honoured_iff` says when a number that is sent is in
force or answered with an error: when it passes the test as well, or happens to
be the default.
-/

import S2S.Update.Frame

namespace S2S
namespace Update

open Json Llm Mcp Http

/-! ### The fields -/

/-- The numbers of `rt_session_patch`, the seeds apart, in the order they are read. -/
inductive NumberField
  | llmTimeoutSec | maxRounds | toolTimeoutSec
  | temperature | topP | topK | minP | maxTokens | presencePenalty | frequencyPenalty
  | ttsMinChars | ttsCharsPerSecond | ttsMarginSeconds
  | ttsTemperature | ttsTopK | ttsTopP | ttsRepetitionPenalty
  | ttsSubtalkerTemperature | ttsSubtalkerTopK | ttsSubtalkerTopP | ttsMaxNewTokens
  | vadNegThreshold | vadThreshold | minSpeechMs | bargeInMs | minSilenceMs
  | minSpeechContinuationMs | speechPadMs
  | turnThreshold | incompleteDelayMs | turnMaxWaitMs | reopenGraceMs
  deriving DecidableEq

/-- How a field is read: the objects it is in, its name, its range and whether it is an `int`, and
what it is read as when it is absent. -/
structure Reading where
  path : List Bytes
  key : Bytes
  lo : ℚ
  hi : ℚ
  whole : Bool
  fallback : ℚ

namespace Reading

def real (path : List Bytes) (key : String) (fallback : ℚ) : Reading :=
  ⟨path, ascii key, -rtMaxReal, rtMaxReal, false, fallback⟩

def float (path : List Bytes) (key : String) (lo hi : ℚ) : Reading :=
  ⟨path, ascii key, lo, hi, false, -1⟩

def count (path : List Bytes) (key : String) : Reading := ⟨path, ascii key, 0, rtMaxCount, true, -1⟩

def ms (path : List Bytes) (key : String) : Reading := ⟨path, ascii key, 0, rtMaxMs, true, -1⟩

end Reading

namespace NumberField

def reading : NumberField → Reading
  | llmTimeoutSec => .count [] "llm_timeout_sec"
  | maxRounds => .count [] "max_rounds"
  | toolTimeoutSec => .count [] "tool_timeout_sec"
  | temperature => .real [ascii "sampling"] "temperature" (-1)
  | topP => .real [ascii "sampling"] "top_p" (-1)
  | topK => .count [ascii "sampling"] "top_k"
  | minP => .real [ascii "sampling"] "min_p" (-1)
  | maxTokens => .count [ascii "sampling"] "max_tokens"
  | presencePenalty => .real [ascii "sampling"] "presence_penalty" (-100)
  | frequencyPenalty => .real [ascii "sampling"] "frequency_penalty" (-100)
  | ttsMinChars => .count [ascii "tts"] "min_chars"
  | ttsCharsPerSecond => .float [ascii "tts"] "chars_per_second" 1 1000
  | ttsMarginSeconds => .float [ascii "tts"] "margin_seconds" 0 (rtMaxMs / 1000)
  | ttsTemperature => .real [ascii "tts", ascii "sampling"] "temperature" (-1)
  | ttsTopK => .count [ascii "tts", ascii "sampling"] "top_k"
  | ttsTopP => .real [ascii "tts", ascii "sampling"] "top_p" (-1)
  | ttsRepetitionPenalty => .real [ascii "tts", ascii "sampling"] "repetition_penalty" (-1)
  | ttsSubtalkerTemperature => .real [ascii "tts", ascii "sampling"] "subtalker_temperature" (-1)
  | ttsSubtalkerTopK => .count [ascii "tts", ascii "sampling"] "subtalker_top_k"
  | ttsSubtalkerTopP => .real [ascii "tts", ascii "sampling"] "subtalker_top_p" (-1)
  | ttsMaxNewTokens => .count [ascii "tts", ascii "sampling"] "max_new_tokens"
  | vadNegThreshold => .float [ascii "vad"] "neg_threshold" 0 1
  | vadThreshold => .float [ascii "vad"] "threshold" 0 1
  | minSpeechMs => .ms [ascii "vad"] "min_speech_ms"
  | bargeInMs => .ms [ascii "vad"] "barge_in_ms"
  | minSilenceMs => .ms [ascii "vad"] "min_silence_ms"
  | minSpeechContinuationMs => .ms [ascii "vad"] "min_speech_continuation_ms"
  | speechPadMs => .ms [ascii "vad"] "speech_pad_ms"
  | turnThreshold => .float [ascii "turn"] "threshold" 0 1
  | incompleteDelayMs => .ms [ascii "turn"] "incomplete_delay_ms"
  | turnMaxWaitMs => .ms [ascii "turn"] "max_wait_ms"
  | reopenGraceMs => .ms [ascii "turn"] "reopen_grace_ms"

/-- The test `conn_apply_patch` takes a field with. -/
def passes : NumberField → CFloat → Bool
  | llmTimeoutSec, x | maxRounds, x | toolTimeoutSec, x => x.ge 1
  | presencePenalty, x | frequencyPenalty, x => x.gt (-3)
  | ttsCharsPerSecond, x => x.gt 0
  | _, x => x.ge 0

/-- A field of the patch. -/
def ofPatch (p : Patch) : NumberField → CFloat
  | llmTimeoutSec => .fin p.llmTimeoutSec
  | maxRounds => .fin p.maxRounds
  | toolTimeoutSec => .fin p.toolTimeoutSec
  | temperature => p.temperature
  | topP => p.topP
  | topK => .fin p.topK
  | minP => p.minP
  | maxTokens => .fin p.maxTokens
  | presencePenalty => p.presencePenalty
  | frequencyPenalty => p.frequencyPenalty
  | ttsMinChars => .fin p.ttsMinChars
  | ttsCharsPerSecond => p.ttsCharsPerSecond
  | ttsMarginSeconds => p.ttsMarginSeconds
  | ttsTemperature => p.ttsTemperature
  | ttsTopK => .fin p.ttsTopK
  | ttsTopP => p.ttsTopP
  | ttsRepetitionPenalty => p.ttsRepetitionPenalty
  | ttsSubtalkerTemperature => p.ttsSubtalkerTemperature
  | ttsSubtalkerTopK => .fin p.ttsSubtalkerTopK
  | ttsSubtalkerTopP => p.ttsSubtalkerTopP
  | ttsMaxNewTokens => .fin p.ttsMaxNewTokens
  | vadNegThreshold => p.vadNegThreshold
  | vadThreshold => p.vadThreshold
  | minSpeechMs => .fin p.minSpeechMs
  | bargeInMs => .fin p.bargeInMs
  | minSilenceMs => .fin p.minSilenceMs
  | minSpeechContinuationMs => .fin p.minSpeechContinuationMs
  | speechPadMs => .fin p.speechPadMs
  | turnThreshold => p.turnThreshold
  | incompleteDelayMs => .fin p.incompleteDelayMs
  | turnMaxWaitMs => .fin p.turnMaxWaitMs
  | reopenGraceMs => .fin p.reopenGraceMs

/-- What is in force on a connection. -/
def inForce (conn : Connection) : NumberField → CFloat
  | llmTimeoutSec => .fin conn.client.llm.timeoutSec
  | maxRounds => .fin conn.client.maxRounds
  | toolTimeoutSec => .fin conn.client.llm.toolTimeoutSec
  | temperature => conn.client.llm.sampling.temperature
  | topP => conn.client.llm.sampling.topP
  | topK => .fin conn.client.llm.sampling.topK
  | minP => conn.client.llm.sampling.minP
  | maxTokens => .fin conn.client.llm.sampling.maxTokens
  | presencePenalty => conn.client.llm.sampling.presencePenalty
  | frequencyPenalty => conn.client.llm.sampling.frequencyPenalty
  | ttsMinChars => .fin conn.client.tts.guards.minChars
  | ttsCharsPerSecond => conn.client.tts.guards.charsPerSecond
  | ttsMarginSeconds => conn.client.tts.guards.marginSeconds
  | ttsTemperature => conn.client.tts.sampling.temperature
  | ttsTopK => .fin conn.client.tts.sampling.topK
  | ttsTopP => conn.client.tts.sampling.topP
  | ttsRepetitionPenalty => conn.client.tts.sampling.repetitionPenalty
  | ttsSubtalkerTemperature => conn.client.tts.sampling.subtalkerTemperature
  | ttsSubtalkerTopK => .fin conn.client.tts.sampling.subtalkerTopK
  | ttsSubtalkerTopP => conn.client.tts.sampling.subtalkerTopP
  | ttsMaxNewTokens => .fin conn.client.tts.sampling.maxNewTokens
  | vadNegThreshold => conn.params.vadNegThreshold
  | vadThreshold => conn.params.vadThreshold
  | minSpeechMs => .fin conn.params.minSpeechMs
  | bargeInMs => .fin conn.params.bargeInMs
  | minSilenceMs => .fin conn.params.minSilenceMs
  | minSpeechContinuationMs => .fin conn.params.minSpeechContinuationMs
  | speechPadMs => .fin conn.params.speechPadMs
  | turnThreshold => conn.params.turnThreshold
  | incompleteDelayMs => .fin conn.params.incompleteDelayMs
  | turnMaxWaitMs => .fin conn.params.turnMaxWaitMs
  | reopenGraceMs => .fin conn.params.reopenGraceMs

/-- What the update sends for a field, nothing for a field that is absent or `null`. -/
def sent (fields : Option Value) (f : NumberField) : Option Value :=
  (objGet (f.reading.path.foldl objGet fields) f.reading.key).filter fun v => v ≠ .null

/-- A number in the type of the field. -/
def convert (f : NumberField) (q : ℚ) : CFloat :=
  .fin (if f.reading.whole then (truncate q : ℚ) else nearestFloat q)

/-- A field as the update is read, after what was refused before it. -/
def readAt (fields : Option Value) (f : NumberField) (invalid : Bytes) : Option ℚ × Bytes :=
  rtJsonValue (f.reading.path.foldl objGet fields) f.reading.key f.reading.lo f.reading.hi invalid

/-- What is read of a field goes into the patch. -/
theorem ofPatch_rtPatch (root : Value) (f : NumberField) : ∃ invalid,
    f.ofPatch (rtPatch root) =
      cond f.reading.whole
        (.fin ((((f.readAt (fieldsOf root) invalid).1.map truncate).getD (-1) : ℤ) : ℚ))
        (.fin (((f.readAt (fieldsOf root) invalid).1.map nearestFloat).getD f.reading.fallback)) := by
  cases f <;> exact ⟨_, rfl⟩

/-- All of them. -/
def all : List NumberField :=
  [llmTimeoutSec, maxRounds, toolTimeoutSec, temperature, topP, topK, minP, maxTokens,
    presencePenalty, frequencyPenalty, ttsMinChars, ttsCharsPerSecond, ttsMarginSeconds,
    ttsTemperature, ttsTopK, ttsTopP, ttsRepetitionPenalty, ttsSubtalkerTemperature,
    ttsSubtalkerTopK, ttsSubtalkerTopP, ttsMaxNewTokens, vadNegThreshold, vadThreshold,
    minSpeechMs, bargeInMs, minSilenceMs, minSpeechContinuationMs, speechPadMs, turnThreshold,
    incompleteDelayMs, turnMaxWaitMs, reopenGraceMs]

theorem mem_all (f : NumberField) : f ∈ all := by
  cases f <;> decide

/-- **The numbers are read one after the other.** -/
theorem invalid_rtPatch (root : Value) : (rtPatch root).invalid
    = all.foldl (fun invalid f => (f.readAt (fieldsOf root) invalid).2) [] := rfl

/-- A number within its range, of what is sent. -/
def number (fields : Option Value) (f : NumberField) : Option ℚ :=
  (f.sent fields).bind (numberIn f.reading.lo f.reading.hi)

/-- What is sent for a field is refused. -/
def RefusedIn (fields : Option Value) (f : NumberField) : Prop :=
  ∃ v, f.sent fields = some v ∧ numberIn f.reading.lo f.reading.hi v = none

theorem readAt_eq (fields : Option Value) (f : NumberField) (invalid : Bytes) :
    (f.readAt fields invalid).1 = f.number fields ∧
      ((f.readAt fields invalid).2 ≠ [] ↔ invalid ≠ [] ∨ f.RefusedIn fields) := by
  have hkey : f.reading.key ≠ [] := by cases f <;> decide
  unfold readAt rtJsonValue number RefusedIn sent
  cases objGet (f.reading.path.foldl objGet fields) f.reading.key with
  | none => simp
  | some v =>
    by_cases hnull : v = .null
    · subst hnull
      simp [Option.filter]
    · have hkeep : (some v).filter (fun v => v ≠ .null) = some v := by simp [Option.filter, hnull]
      rw [hkeep]
      split
      · next heq => exact absurd heq (by simp)
      · next heq => exact absurd (Option.some.inj heq) hnull
      · next value hvalue heq =>
        obtain rfl := Option.some.inj heq
        cases hin : numberIn f.reading.lo f.reading.hi v with
        | some q => simp [hin]
        | none =>
          rw [Option.bind_some]
          refine ⟨hin.symm, ?_⟩
          dsimp only
          split_ifs with hempty
          · simp [hkey, hin]
          · simp [hempty]

theorem ofPatch_eq (root : Value) (f : NumberField) : f.ofPatch (rtPatch root)
    = ((f.number (fieldsOf root)).map f.convert).getD (.fin f.reading.fallback) := by
  obtain ⟨invalid, h⟩ := f.ofPatch_rtPatch root
  rw [h, (f.readAt_eq (fieldsOf root) invalid).1]
  have hfallback : f.reading.whole = true → f.reading.fallback = -1 := by
    cases f <;> decide
  cases hwhole : f.reading.whole with
  | true => cases f.number (fieldsOf root) <;> simp [convert, hwhole, hfallback hwhole]
  | false => cases f.number (fieldsOf root) <;> simp [convert, hwhole]

/-- **An update names a number it refuses.** -/
theorem invalid_ne_nil_iff (root : Value) :
    (rtPatch root).invalid ≠ [] ↔ ∃ f : NumberField, f.RefusedIn (fieldsOf root) := by
  have hfold : ∀ (l : List NumberField) (invalid : Bytes),
      l.foldl (fun invalid f => (f.readAt (fieldsOf root) invalid).2) invalid ≠ [] ↔
        invalid ≠ [] ∨ ∃ f ∈ l, f.RefusedIn (fieldsOf root) := by
    intro l
    induction l with
    | nil => simp
    | cons f l ih =>
      intro invalid
      rw [List.foldl_cons, ih, (f.readAt_eq (fieldsOf root) invalid).2, or_assoc]
      simp
  rw [invalid_rtPatch, hfold]
  simp [mem_all]

/-! ### Taking -/

/-- The default of the server. -/
def default (setup : ConversationSetup) (f : NumberField) : CFloat :=
  f.inForce { client := setup.defaults }

theorem fin_countOr (least default count : ℤ) : CFloat.fin (countOr least default count : ℚ)
    = if (CFloat.fin count).ge least then .fin count else .fin default := by
  unfold countOr CFloat.ge
  by_cases h : least ≤ count
  · rw [if_pos h, if_pos (decide_eq_true (by exact_mod_cast h))]
  · rw [if_neg h, if_neg (by simpa using h)]

/-- **A number is taken when it passes**, and the default of the server otherwise. -/
theorem inForce_connApplyPatch (setup : ConversationSetup) (opens : Bool) (patch : Patch)
    (conn : Connection) (f : NumberField) :
    f.inForce (connApplyPatch setup opens patch conn).conn
      = if f.passes (f.ofPatch patch) then f.ofPatch patch else f.default setup := by
  obtain ⟨hrounds, htool, htimeout, hsampling, htts, hparams⟩ :=
    connApplyPatch_settings setup opens patch conn
  cases f <;>
    simp only [inForce, hrounds, htool, htimeout, hsampling, htts, hparams, default, passes,
      ofPatch] <;>
    first
    | rfl
    | exact fin_countOr ..

/-- What is in force after an update: the number that was sent, when it is in its range and passes,
and the default otherwise. -/
theorem inForce_connUpdate (setup : ConversationSetup) (opens : Bool) (root : Value)
    (conn : Connection) (f : NumberField) : f.inForce (connUpdate setup opens root conn).1 =
      match f.number (fieldsOf root) with
      | some q => if f.passes (f.convert q) then f.convert q else f.default setup
      | none => f.default setup := by
  have hfallback : f.passes (.fin f.reading.fallback) = false := by
    cases f <;> decide +kernel
  refine (f.inForce_connApplyPatch setup opens (rtPatch root) conn).trans ?_
  rw [f.ofPatch_eq]
  cases f.number (fieldsOf root) with
  | some q => rfl
  | none => exact if_neg (by rw [Option.map_none, Option.getD_none, hfallback]; simp)

/-- The fields whose range lets through what their test drops. -/
def loose : List NumberField :=
  [llmTimeoutSec, maxRounds, toolTimeoutSec, temperature, topP, minP, presencePenalty,
    frequencyPenalty, ttsTemperature, ttsTopP, ttsRepetitionPenalty, ttsSubtalkerTemperature,
    ttsSubtalkerTopP]

/-- **Of the other fields a number in its range passes.** -/
theorem passes_convert {f : NumberField} (hf : f ∉ loose) {q : ℚ} (hlo : f.reading.lo ≤ q) :
    f.passes (f.convert q) = true := by
  have hwhole : ∀ q : ℚ, 0 ≤ q → (CFloat.fin (truncate q : ℚ)).ge 0 = true := by
    intro q hq
    rw [truncate, if_pos hq]
    exact decide_eq_true (by exact_mod_cast Int.floor_nonneg.2 hq)
  have hreal : ∀ q : ℚ, 0 ≤ q → (CFloat.fin (nearestFloat q)).ge 0 = true := fun q hq =>
    decide_eq_true (nearest_nonneg hq)
  have hrate : ∀ q : ℚ, 1 ≤ q → (CFloat.fin (nearestFloat q)).gt 0 = true := fun q hq =>
    decide_eq_true (nearest_pos (by decide) (by decide) hq)
  cases f <;> first
    | exact absurd (by decide) hf
    | exact hwhole q hlo
    | exact hreal q hlo
    | exact hrate q hlo

/-- **What a number that is sent is meant to come to**: it is in force, in the type of its field, or
the client is told of an error. -/
def Honoured (setup : ConversationSetup) (opens : Bool) (frame : Bytes) (conn : Connection)
    (f : NumberField) : Prop :=
  ∀ root, rtParse frame = some root → ∀ v, f.sent (fieldsOf root) = some v →
    (∃ text, v = .num text ∧
      f.inForce (connUpdate setup opens root conn).1 = f.convert (numOf text)) ∨
    Told (connUpdate setup opens root conn).2

/-- **When it does**: the number passes the test of its field too, or is the default of the server, or
the update is refused something. -/
theorem honoured_iff (setup : ConversationSetup) (opens : Bool) (frame : Bytes) (conn : Connection)
    (f : NumberField) : f.Honoured setup opens frame conn ↔
      ∀ root, rtParse frame = some root → ∀ text, f.sent (fieldsOf root) = some (.num text) →
        f.passes (f.convert (numOf text)) = true ∨ f.default setup = f.convert (numOf text) ∨
          (∃ g : NumberField, g.RefusedIn (fieldsOf root)) ∨ Refused setup (rtPatch root) := by
  refine forall₂_congr fun root _ => ?_
  rw [told_connUpdate, invalid_ne_nil_iff]
  constructor
  · intro h text hsent
    rcases h _ hsent with ⟨text', htext, hforce⟩ | htold
    · obtain rfl := Value.num.inj htext
      by_cases hrange : f.reading.lo ≤ numOf text ∧ numOf text ≤ f.reading.hi
      · have hnumber : f.number (fieldsOf root) = some (numOf text) := by
          rw [number, hsent]
          exact if_pos hrange
        rw [inForce_connUpdate, hnumber] at hforce
        dsimp only at hforce
        split_ifs at hforce with hpasses
        · exact .inl hpasses
        · exact .inr (.inl hforce)
      · exact .inr (.inr (.inl ⟨f, _, hsent, if_neg hrange⟩))
    · exact .inr (.inr htold)
  · intro h v hsent
    cases hin : numberIn f.reading.lo f.reading.hi v with
    | none => exact .inr (.inl ⟨f, v, hsent, hin⟩)
    | some q =>
      obtain ⟨text, rfl⟩ : ∃ text, v = .num text := by
        cases v with
        | num text => exact ⟨text, rfl⟩
        | _ => simp [numberIn] at hin
      have hq : q = numOf text := by
        unfold numberIn at hin
        dsimp only at hin
        split_ifs at hin
        exact (Option.some.inj hin).symm
      have hforce : f.inForce (connUpdate setup opens root conn).1 =
          if f.passes (f.convert (numOf text)) then f.convert (numOf text) else f.default setup := by
        rw [inForce_connUpdate, number, hsent, Option.bind_some, hin, hq]
      rcases h text hsent with hpasses | hdefault | htold
      · exact .inl ⟨text, rfl, hforce.trans (if_pos hpasses)⟩
      · refine .inl ⟨text, rfl, hforce.trans ?_⟩
        split_ifs
        · rfl
        · exact hdefault
      · exact .inr htold

/-- An update that asks for no rounds at all. -/
def noRounds : Bytes :=
  ascii "\x7b\"type\":\"session.update\",\"session\":\x7b\"max_rounds\":0\x7d\x7d"

/-- The session has ten, and the client is not told. -/
theorem noRounds_keeps_ten : ¬∀ (setup : ConversationSetup) (opens : Bool) (frame : Bytes)
    (conn : Connection) (f : NumberField), f.Honoured setup opens frame conn := by
  intro h
  have hroot : rtParse noRounds = some (.obj [(ascii "type", .str (ascii "session.update")),
      (ascii "session", .obj [(ascii "max_rounds", .num (ascii "0"))])]) := by decide +kernel
  rcases h {} false noRounds { client := {} } maxRounds _ hroot (.num (ascii "0"))
    (by decide +kernel) with ⟨text, htext, hforce⟩ | htold
  · obtain rfl := Value.num.inj htext
    exact absurd hforce (by decide +kernel)
  · rcases (told_connUpdate _ _ _ _).1 htold with hinvalid | hrefused
    · exact absurd (show _ = [] by decide +kernel) hinvalid
    · exact absurd hrefused (by unfold Refused; decide +kernel)

end NumberField

end Update
end S2S
