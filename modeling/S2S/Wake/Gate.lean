/-
# The wake gate

`wake_words`, `wake_heard`, `conn_admit` and `conn_sleep` of
`src/s2s-conversation.cpp`, with the session updates that change the gate
(`connApplyPatch`).  Each of them holds `client_mutex` from its first read to
its last write, so a run of them is a sequence (`Call`, `gate`).

The gate remembers two things: whether the assistant is awake, and the turn it
let through last, which goes on being let through.
-/

import Mathlib.Data.List.Infix
import S2S.Update.Patch

namespace S2S
namespace Wake

open Json Update

/-! ### Words -/

/-- A letter or a digit, or a byte past ASCII. -/
def isWordByte (c : UInt8) : Bool :=
  decide (0x80 ≤ c) || (decide (0x30 ≤ c) && decide (c ≤ 0x39)) ||
    (decide (0x41 ≤ c) && decide (c ≤ 0x5A)) || (decide (0x61 ≤ c) && decide (c ≤ 0x7A))

/-- `tolower`. -/
def toLower (c : UInt8) : UInt8 := if 0x41 ≤ c ∧ c ≤ 0x5A then c + 0x20 else c

/-- The loop of `wake_words`, `word` what the word at hand has so far. -/
def wakeWordsFrom (word : Bytes) : Bytes → List Bytes
  | [] => if word = [] then [] else [word]
  | c :: text =>
    if isWordByte c then wakeWordsFrom (word ++ [toLower c]) text
    else if word = [] then wakeWordsFrom [] text
    else word :: wakeWordsFrom [] text

/-- `wake_words`. -/
def wakeWords (text : Bytes) : List Bytes := wakeWordsFrom [] text

/-- `wake_heard`: the words of a phrase make the whole text, or stand in it in a row. -/
def wakeHeard (text : Bytes) (phrases : List Bytes) (alone : Bool) : Bool :=
  phrases.any fun phrase =>
    wakeWords phrase ≠ [] &&
      if alone then wakeWords text = wakeWords phrase
      else (wakeWords text).tails.any (wakeWords phrase).isPrefixOf

/-! ### The gate -/

/-- What the gate reads and writes of a `Connection`. -/
structure Gate extends Connection where
  admittedTurn : ℤ := -1

/-- The gate of a connection that was just opened. -/
def Gate.new (setup : ConversationSetup) : Gate where
  client := setup.defaults

/-- Outside loopback the gate counts. -/
def Gate.Guards (g : Gate) : Prop := g.client.mode ≠ ascii "loopback"

instance (g : Gate) : Decidable g.Guards := inferInstanceAs (Decidable (_ ≠ _))

/-- The mode in force. -/
def Gate.mode (g : Gate) : Bytes := g.client.wake.mode

/-- A wake phrase under the mode in force; off knows none. -/
def Gate.hearsWake (g : Gate) (transcript : Bytes) : Bool :=
  g.mode ≠ ascii "off" && wakeHeard transcript g.client.wake.phrases (g.mode = ascii "alone")

/-- A sleep phrase, with the gate on. -/
def Gate.hearsSleep (g : Gate) (transcript : Bytes) : Bool :=
  g.mode ≠ ascii "off" && wakeHeard transcript g.client.wake.sleepPhrases false

/-- The first half of `conn_admit`: the gate a turn leaves when it gets through. -/
def letThrough (g : Gate) (turnId : ℕ) (transcript : Bytes) : Option Gate :=
  if turnId = g.admittedTurn then some g
  else if g.awake then some { g with admittedTurn := turnId }
  else if g.hearsWake transcript then some { g with awake := true, admittedTurn := turnId }
  else none

/-- The second half: a turn that got through may put the assistant to sleep after its answer. -/
def dozeOff (g : Gate) (transcript : Bytes) : Gate :=
  if g.awake && g.hearsSleep transcript then { g with awake := false } else g

/-- `conn_admit`: whether a turn reaches the model, and the gate after it. -/
def connAdmit (g : Gate) (turnId : ℕ) (transcript : Bytes) : Bool × Gate :=
  if g.client.mode = ascii "loopback" then (true, g)
  else
    match letThrough g turnId transcript with
    | none => (false, g)
    | some g => (true, dozeOff g transcript)

/-- `conn_sleep`. -/
def connSleep (g : Gate) : Bytes × Gate :=
  (if g.mode = ascii "off" then ascii "Asleep for the rest of the conversation"
    else ascii "Asleep until the user says a wake phrase", { g with awake := false })

/-- A session update. -/
def update (setup : ConversationSetup) (opens : Bool) (patch : Patch) (g : Gate) : Gate :=
  { g with toConnection := (connApplyPatch setup opens patch g.toConnection).conn }

/-! ### What each step does -/

section Steps

variable {g g' : Gate} {turnId : ℕ} {transcript : Bytes}

@[simp] theorem dozeOff_client : (dozeOff g transcript).client = g.client := by
  unfold dozeOff
  split_ifs <;> rfl

@[simp] theorem dozeOff_admittedTurn : (dozeOff g transcript).admittedTurn = g.admittedTurn := by
  unfold dozeOff
  split_ifs <;> rfl

theorem dozeOff_awake : (dozeOff g transcript).awake = (g.awake && !g.hearsSleep transcript) := by
  unfold dozeOff
  cases hawake : g.awake <;> cases hsleep : g.hearsSleep transcript <;> simp [hawake]

/-- What gets through is the turn let through last, which the gate keeps otherwise as it was. -/
theorem letThrough_some (h : letThrough g turnId transcript = some g') :
    g'.admittedTurn = turnId ∧ g'.client = g.client ∧ (g.awake = true → g'.awake = true) := by
  unfold letThrough at h
  split_ifs at h with hsame hawake hwake <;> obtain rfl := Option.some.inj h
  · exact ⟨hsame.symm, rfl, id⟩
  · exact ⟨rfl, rfl, id⟩
  · exact ⟨rfl, rfl, fun _ => rfl⟩

theorem letThrough_same (h : turnId = g.admittedTurn) (transcript : Bytes) :
    letThrough g turnId transcript = some g := by rw [letThrough, if_pos h]

/-- In loopback the gate stays as it is. -/
theorem connAdmit_loopback (h : ¬g.Guards) : connAdmit g turnId transcript = (true, g) := by
  rw [connAdmit, if_pos (not_not.1 h)]

theorem connAdmit_none (h : g.Guards) (hnone : letThrough g turnId transcript = none) :
    connAdmit g turnId transcript = (false, g) := by
  rw [connAdmit, if_neg h, hnone]

theorem connAdmit_some (h : g.Guards) (hsome : letThrough g turnId transcript = some g') :
    connAdmit g turnId transcript = (true, dozeOff g' transcript) := by
  rw [connAdmit, if_neg h, hsome]

/-- The turn the gate let through last is let through. -/
theorem connAdmit_same (h : turnId = g.admittedTurn) : (connAdmit g turnId transcript).1 = true := by
  by_cases hguards : g.Guards
  · rw [connAdmit_some hguards (letThrough_same h transcript)]
  · rw [connAdmit_loopback hguards]

/-- Awake, the gate lets every turn through. -/
theorem connAdmit_awake (h : g.awake = true) : (connAdmit g turnId transcript).1 = true := by
  by_cases hguards : g.Guards
  · cases hthrough : letThrough g turnId transcript with
    | some g' => rw [connAdmit_some hguards hthrough]
    | none =>
      unfold letThrough at hthrough
      rw [if_pos h] at hthrough
      split_ifs at hthrough
  · rw [connAdmit_loopback hguards]

/-- **Asleep, another turn gets through by a wake phrase of its own**, and not without. -/
theorem connAdmit_asleep (hguards : g.Guards) (h : g.awake = false) (hother : turnId ≠ g.admittedTurn) :
    (connAdmit g turnId transcript).1 = g.hearsWake transcript := by
  unfold connAdmit letThrough
  rw [if_neg hguards, if_neg hother, if_neg (by simp [h])]
  cases g.hearsWake transcript <;> rfl

/-- A turn that is not let through leaves the gate as it is. -/
theorem connAdmit_refused (h : (connAdmit g turnId transcript).1 = false) :
    (connAdmit g turnId transcript).2 = g := by
  by_cases hguards : g.Guards
  · cases hthrough : letThrough g turnId transcript with
    | none => rw [connAdmit_none hguards hthrough]
    | some g' =>
      rw [connAdmit_some hguards hthrough] at h
      simp at h
  · rw [connAdmit_loopback hguards]

/-- **A turn that gets through is the one let through last.** -/
theorem connAdmit_admitted (hguards : g.Guards) (h : (connAdmit g turnId transcript).1 = true) :
    (connAdmit g turnId transcript).2.admittedTurn = turnId := by
  cases hthrough : letThrough g turnId transcript with
  | none =>
    rw [connAdmit_none hguards hthrough] at h
    simp at h
  | some g' => rw [connAdmit_some hguards hthrough, dozeOff_admittedTurn, (letThrough_some hthrough).1]

/-- A turn with a sleep phrase, with the gate on, leaves the assistant asleep. -/
theorem connAdmit_sleeps (hguards : g.Guards) (h : (connAdmit g turnId transcript).1 = true)
    (hsleep : g.hearsSleep transcript = true) :
    (connAdmit g turnId transcript).2.awake = false := by
  cases hthrough : letThrough g turnId transcript with
  | none =>
    rw [connAdmit_none hguards hthrough] at h
    simp at h
  | some g' =>
    have hsleep' : g'.hearsSleep transcript = true := by
      unfold Gate.hearsSleep Gate.mode at hsleep ⊢
      rwa [(letThrough_some hthrough).2.1]
    rw [connAdmit_some hguards hthrough, dozeOff_awake, hsleep', Bool.not_true, Bool.and_false]

/-- Asleep, the gate is not woken by the turn it let through last. -/
theorem connAdmit_same_asleep (h : turnId = g.admittedTurn) (hasleep : g.awake = false) :
    (connAdmit g turnId transcript).2 = g := by
  by_cases hguards : g.Guards
  · rw [connAdmit_some hguards (letThrough_same h transcript), dozeOff, hasleep, Bool.false_and,
      if_neg (by simp)]
  · rw [connAdmit_loopback hguards]

/-- With the gate off, a turn leaves the assistant awake. -/
theorem connAdmit_off (hoff : g.mode = ascii "off") (hawake : g.awake = true) :
    (connAdmit g turnId transcript).2.awake = true := by
  by_cases hguards : g.Guards
  · cases hthrough : letThrough g turnId transcript with
    | none => rw [connAdmit_none hguards hthrough, hawake]
    | some g' =>
      obtain ⟨-, hclient, hkeeps⟩ := letThrough_some hthrough
      have hnever : g'.hearsSleep transcript = false := by
        unfold Gate.hearsSleep Gate.mode at *
        rw [hclient, hoff]
        simp
      rw [connAdmit_some hguards hthrough, dozeOff_awake, hnever, hkeeps hawake]
      rfl
  · rw [connAdmit_loopback hguards, hawake]

/-- **A session update wakes the assistant when it turns the gate off, puts it to sleep when it
names another mode, and leaves it alone otherwise.** -/
theorem update_awake (setup : ConversationSetup) (opens : Bool) (patch : Patch) (g : Gate) :
    (update setup opens patch g).awake =
      if (update setup opens patch g).mode = g.mode then g.awake
      else decide ((update setup opens patch g).mode = ascii "off") := by
  show (takeAwake g.mode (update setup opens patch g).mode g.awake).1 = _
  unfold takeAwake
  split_ifs <;> rfl

end Steps

end Wake
end S2S
