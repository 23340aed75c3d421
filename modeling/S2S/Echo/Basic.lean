/-
# The canceller of a connection

What a connection of `src/s2s-conversation.cpp` does with the microphone and the
reference the client played: the frame of `RT_CLIENT_AUDIO_APPEND`,
`conn_cancel_echo`, and the part of `conn_apply_patch` that starts a canceller.

The canceller itself (`lv_process`) is a parameter: it keeps what it likes,
gives a cleaned hop, or fails.  The counters of the log are left out.
-/

import S2S.Resample.Basic
import S2S.Update.Patch

namespace S2S
namespace Echo

open Json Resample

/-- `rt_session_patch`. -/
abbrev Patch := Update.Patch

/-- `lv_process` on hops of `lv_hop` samples, with what a canceller keeps; a text where it fails. -/
structure Canceller (F A : Type) where
  hop : ℕ
  hop_pos : 0 < hop
  process : A → List F → List F → A × Except Bytes (List F)

/-- What a connection keeps of its echo. -/
structure Connection (F A : Type) where
  echo : Bytes := ascii "client"
  aec : Option A := none
  micResample : AudioResampleStream F
  refResample : AudioResampleStream F
  aecMic : List F := []
  aecRef : List F := []
  aecFailing : Bool := false

/-- `S2S_INPUT_RATE`. -/
def inputRate : ℕ := 24000

/-- `S2S_MODEL_RATE`. -/
def modelRate : ℕ := 16000

section Model
variable {F A : Type} [Zero F] [Add F] [Mul F] (tap : ℕ → ℕ → ℕ → ℕ → F) (c : Canceller F A)

/-- `conn_open`. -/
def connOpen : Except Fault (Connection F A) := do
  let micResample ← audioResampleStreamInit tap inputRate modelRate
  let refResample ← audioResampleStreamInit tap inputRate modelRate
  return { micResample, refResample }

/-- The method of an update: named, and not the one in use. -/
def Changes (patch : Patch) (conn : Connection F A) : Prop :=
  patch.echo ≠ [] ∧ patch.echo ≠ conn.echo

instance (patch : Patch) (conn : Connection F A) : Decidable (Changes patch conn) :=
  inferInstanceAs (Decidable (_ ∧ _))

/-- `conn_apply_patch`, the canceller.  `opened` is what `lv_state_new` gives. -/
def connApplyEcho (opened : Option A) (patch : Patch) (conn : Connection F A) :
    Except Fault (Connection F A) :=
  if Changes patch conn then do
    let aec := if patch.echo = ascii "server" ∨ patch.echo = ascii "both" then opened else none
    let micResample ← audioResampleStreamInit tap inputRate modelRate
    let refResample ← audioResampleStreamInit tap inputRate modelRate
    return { echo := patch.echo, aec, micResample, refResample }
  else .ok conn

/-- The loop of `conn_cancel_echo`: where it is, what the canceller keeps, what is clean so far,
the hops handed to it and the errors sent. -/
structure Cancelling (F A : Type) where
  done : ℕ := 0
  aec : A
  failing : Bool
  pcm : List F := []
  hops : List (List F × List F) := []
  errors : List Bytes := []

/-- One hop, handed to `lv_process`: a failure leaves the zeros of `resize`, and is told once. -/
def cancelHop (mic ref : List F) (p : Cancelling F A) : Cancelling F A :=
  let out := c.process p.aec mic ref
  { done := p.done + c.hop
    aec := out.1
    hops := p.hops ++ [(mic, ref)]
    failing := match out.2 with
      | .ok _ => false
      | .error _ => true
    pcm := p.pcm ++ match out.2 with
      | .ok clean => clean
      | .error _ => List.replicate c.hop 0
    errors := p.errors ++ match out.2 with
      | .ok _ => []
      | .error text => if p.failing then [] else [text] }

/-- The loop of `conn_cancel_echo` over what waits. -/
def cancelFrom (mic ref : List F) : ℕ → Cancelling F A → Except Fault (Cancelling F A)
  | 0, p => .ok p
  | fuel + 1, p =>
    if p.done + c.hop ≤ mic.length then
      if p.done + c.hop ≤ ref.length then
        cancelFrom mic ref fuel
          (cancelHop c ((mic.drop p.done).take c.hop) ((ref.drop p.done).take c.hop) p)
      else .error .outside
    else .ok p

/-- What a frame gives: the microphone and, under a canceller, the reference at the rate of the
models, and what the loop did with them. -/
structure Report (F : Type) where
  resampled : List F
  reference : Option (List F)
  pcm : List F
  hops : List (List F × List F) := []
  errors : List Bytes := []

/-- `conn_cancel_echo`. -/
def connCancelEcho (aec : A) (pcm ref : List F) (conn : Connection F A) :
    Except Fault (Connection F A × Report F) := do
  let aecMic := conn.aecMic ++ pcm
  let aecRef := conn.aecRef ++ ref
  let p ← cancelFrom c aecMic aecRef (aecMic.length + 1) { aec, failing := conn.aecFailing }
  return ({ conn with
      aec := some p.aec
      aecMic := aecMic.drop p.done
      aecRef := aecRef.drop p.done
      aecFailing := p.failing },
    { resampled := pcm, reference := some ref, pcm := p.pcm, hops := p.hops, errors := p.errors })

/-- A frame without reference is a frame where nothing played. -/
def playedPcm (audio reference : List F) : List F :=
  if reference.length = audio.length then reference else List.replicate audio.length 0

/-- `conn_frame`, `RT_CLIENT_AUDIO_APPEND`, up to the session. -/
def connAppend (audio reference : List F) (conn : Connection F A) :
    Except Fault (Connection F A × Report F) := do
  let (micResample, resampled) ← audioResampleStreamPush conn.micResample audio
  let conn := { conn with micResample }
  match conn.aec with
  | none => return (conn, { resampled, reference := none, pcm := resampled })
  | some aec =>
    let (refResample, reference) ←
      audioResampleStreamPush conn.refResample (playedPcm audio reference)
    connCancelEcho c aec resampled reference { conn with refResample }

/-- The frames that touch the canceller. -/
inductive Event (F A : Type)
  | update (opened : Option A) (patch : Patch)
  | append (audio reference : List F)

/-- A frame of the client. -/
def connFrame (conn : Connection F A) : Event F A → Except Fault (Connection F A × Option (Report F))
  | .update opened patch => do
    let conn ← connApplyEcho tap opened patch conn
    return (conn, none)
  | .append audio reference => do
    let (conn, report) ← connAppend c audio reference conn
    return (conn, some report)

end Model

end Echo
end S2S
