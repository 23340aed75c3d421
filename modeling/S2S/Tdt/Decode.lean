/-
# The greedy loop of the recognizer

`parakeet_tdt_decode` of `src/tdt-decoder.h`: a joint step reads one encoder
frame and names a token and how many frames to skip, a token is told and fed to
the prediction network, a blank moves on.  What the two networks answer and what
the caller makes of a piece come from outside (`Oracle`).

`reads` and `moves` are not in the source: the frames that the joint steps read,
and the steps that went through to the end of the loop body.

The counters are `int`s, and so is the frame: a sum past the largest one ends the
decoding (`orOverflow`), since C++ leaves open what it comes to.

A frame is left at a blank, at a token with a duration, and at the latest at the
token that fills the counter, so every frame costs a bounded number of steps
(`decode_ends`).  Nothing bounds a duration, though, and the frame it leads to may
be past the last `int` (`not_always_ends`).
-/

import Mathlib.Data.List.Basic
import Mathlib.Tactic.Ring
import S2S.Json.Text

namespace S2S
namespace Tdt

open Json

/-! ### Pieces -/

/-- `SpDetok`. -/
structure SpDetok where
  pieces : List (Bytes × Bool)

/-- The loop of `sp_detok_append` over a piece: `SP_SPACE_MARKER` is a space, none at the start. -/
def appendPiece (text : Bytes) : Bytes → Bytes
  | 0xE2 :: 0x96 :: 0x81 :: piece => appendPiece (if text ≠ [] then text ++ [0x20] else text) piece
  | b :: piece => appendPiece (text ++ [b]) piece
  | [] => text

/-- `sp_detok_append`: nothing for an id outside the table, which throws. -/
def spDetokAppend (sp : SpDetok) (id : ℤ) (text : Bytes) : Option Bytes :=
  if id < 0 then none
  else (sp.pieces[id.toNat]?).map fun piece => if piece.2 then text else appendPiece text piece.1

/-! ### The loop -/

/-- What the loop reads of `ParakeetDecoderWeights`.  No duration is negative. -/
structure DecoderWeights where
  blankId : ℤ
  maxSymbols : ℤ
  durations : List (Fin (2 ^ 31))

/-- What comes from outside, by the number of the call: whether a run of the prediction network went
through; the token and the duration of a joint step, none where it failed; what the caller answers
to a piece. -/
structure Oracle (w : DecoderWeights) where
  predict : ℕ → Bool
  joint : ℕ → Option (ℤ × Fin w.durations.length)
  onToken : ℕ → Bytes → Bool

/-- How a decoding ends: `PK_STATUS_OK`, `PK_STATUS_CANCELLED`, with an exception, or at a sum that
is no `int`. -/
inductive Status
  | ok
  | cancelled
  | thrown
  | overflow
  deriving DecidableEq

/-- A step that went through: the frame it read, the token unless it was a blank, the duration that
was named, and the frame it left the loop on. -/
structure Move where
  frame : ℕ
  token : Option ℤ
  duration : ℕ
  next : ℕ
  deriving DecidableEq

/-- The variables of the loop. -/
structure Greedy where
  frame : ℕ := 0
  symbols : ℕ := 0
  text : Bytes := []
  nTokens : ℕ := 0
  reads : List ℕ := []
  moves : List Move := []

/-- `stats.n_steps`. -/
def Greedy.nSteps (s : Greedy) : ℕ := s.reads.length

variable (w : DecoderWeights) (sp : SpDetok) (o : Oracle w)

/-- A sum as an `int`. -/
def asInt (n : ℕ) : Option ℕ := if n < 2 ^ 31 then some n else none

/-- The end of the loop body, for a token: its duration, and one frame more where the counter is
full. -/
def Greedy.advance (s : Greedy) (token : ℤ) (duration : ℕ) : Option Greedy := do
  let nTokens ← asInt (s.nTokens + 1)
  let symbols ← asInt (s.symbols + 1)
  let frame ← asInt (s.frame + duration)
  let forced := duration = 0 ∧ w.maxSymbols ≤ symbols
  let next ← asInt (frame + if forced then 1 else 0)
  return { s with
    frame := next, symbols := if forced then 0 else symbols, nTokens := nTokens
    moves := s.moves ++ [⟨s.frame, some token, duration, next⟩] }

/-- The end of the loop body, for a blank, which always moves on. -/
def Greedy.skip (s : Greedy) (duration : ℕ) : Option Greedy := do
  let next ← asInt (s.frame + if 0 < duration then duration else 1)
  return { s with frame := next, symbols := 0, moves := s.moves ++ [⟨s.frame, none, duration, next⟩] }

/-- Where a step leaves the loop, unless a sum in it is no `int`. -/
def orOverflow (s : Greedy) : Option Greedy → Greedy × Option Status
  | some s' => (s', none)
  | none => (s, some .overflow)

/-- The body of the loop, and how the decoding ends, if it does. -/
def body (s : Greedy) : Greedy × Option Status :=
  if asInt (s.nSteps + 1) = none then (s, some .overflow)
  else
    let read := { s with reads := s.reads ++ [s.frame] }
    match o.joint s.nSteps with
    | none => (read, some .thrown)
    | some (token, id) =>
      if token = w.blankId then orOverflow read (read.skip w.durations[id])
      else match spDetokAppend sp token s.text with
        | none => (read, some .thrown)
        | some text =>
          let told := { read with text := text }
          if !o.onToken s.nTokens (text.drop s.text.length) then (told, some .cancelled)
          else if !o.predict (s.nTokens + 1) then (told, some .thrown)
          else orOverflow told (told.advance w token w.durations[id])

/-- The loop, for as many rounds. -/
def loop (nFrames : ℤ) : ℕ → Greedy → Greedy × Option Status
  | 0, s => (s, none)
  | rounds + 1, s =>
    if nFrames ≤ s.frame then (s, some .ok)
    else match body w sp o s with
      | (s, some status) => (s, some status)
      | (s, none) => loop nFrames rounds s

/-- `parakeet_tdt_decode`: the prediction network starts on the blank. -/
def parakeetTdtDecode (nFrames : ℤ) (rounds : ℕ) : Greedy × Option Status :=
  if o.predict 0 then loop w sp o nFrames rounds {} else ({}, some .thrown)

/-! ### What is counted -/

/-- The tokens at a frame since the loop arrived on it. -/
def tokensAt (moves : List Move) (frame : ℕ) : ℕ :=
  (moves.reverse.takeWhile fun m => m.frame = frame && m.token.isSome).length

theorem tokensAt_snoc (moves : List Move) (m : Move) (frame : ℕ) :
    tokensAt (moves ++ [m]) frame =
      if m.frame = frame ∧ m.token.isSome then tokensAt moves frame + 1 else 0 := by
  rw [tokensAt, List.reverse_append, List.reverse_singleton, List.singleton_append,
    List.takeWhile_cons]
  by_cases h : m.frame = frame ∧ m.token.isSome
  · rw [if_pos (by simpa using h), if_pos h, List.length_cons]
    rfl
  · rw [if_neg (by simpa using h), if_neg h, List.length_nil]

@[simp] theorem tokensAt_nil (frame : ℕ) : tokensAt [] frame = 0 := rfl

/-- The steps that a frame may cost. -/
def DecoderWeights.perFrame : ℕ := max 1 w.maxSymbols.toNat

/-- **How far the loop is**, with `n` frames: the frames behind it cost at most so many steps each,
and the one it stands on as many as the tokens there, which the counter counts and has not filled. -/
structure Going (n : ℕ) (s : Greedy) : Prop where
  steps : s.nSteps ≤ min s.frame n * w.perFrame + tokensAt s.moves s.frame
  within : n ≤ s.frame → tokensAt s.moves s.frame = 0
  counted : tokensAt s.moves s.frame ≤ s.symbols
  room : 0 < tokensAt s.moves s.frame → (s.symbols : ℤ) < w.maxSymbols
  named : s.nTokens ≤ s.nSteps
  told : s.symbols ≤ s.nTokens
  reads : ∀ frame ∈ s.reads, frame < n

variable {w sp o} {n : ℕ} {s s' : Greedy}

theorem going_start : Going w n {} where
  steps := Nat.zero_le _
  within _ := rfl
  counted := le_rfl
  room h := absurd h (lt_irrefl 0)
  named := le_rfl
  told := le_rfl
  reads := by simp

/-- There is a step left for the frame the loop stands on. -/
theorem Going.room_left (h : Going w n s) : tokensAt s.moves s.frame < w.perFrame := by
  have hcounted := h.counted
  have hroom := h.room
  unfold DecoderWeights.perFrame
  omega

theorem Going.steps_lt (h : Going w n s) (hframe : s.frame < n) :
    s.nSteps < n * w.perFrame := by
  have hsteps := h.steps
  have hleft := h.room_left
  have hmul : (s.frame + 1) * w.perFrame ≤ n * w.perFrame := Nat.mul_le_mul_right _ hframe
  rw [min_eq_left hframe.le] at hsteps
  rw [Nat.add_mul, Nat.one_mul] at hmul
  omega

/-- A step that leaves its frame. -/
theorem Going.move (h : Going w n s) (hframe : s.frame < n) {m : Move}
    (hsteps : s'.nSteps = s.nSteps + 1) (hreads : ∀ frame ∈ s'.reads, frame < n)
    (hmoves : s'.moves = s.moves ++ [m]) (hm : m.frame = s.frame) (hlt : s.frame < s'.frame)
    (hnamed : s'.nTokens ≤ s.nTokens + 1) (htold : s'.symbols ≤ s'.nTokens) : Going w n s' := by
  have hgone : tokensAt s'.moves s'.frame = 0 := by
    rw [hmoves, tokensAt_snoc, if_neg]
    rintro ⟨heq, -⟩
    omega
  have hleft := h.room_left
  have hbefore := h.steps
  have hmul : (s.frame + 1) * w.perFrame ≤ min s'.frame n * w.perFrame :=
    Nat.mul_le_mul_right _ (le_min hlt hframe)
  have hsame := h.named
  rw [min_eq_left hframe.le] at hbefore
  rw [Nat.add_mul, Nat.one_mul] at hmul
  refine ⟨?_, fun _ => hgone, by omega, fun hpos => absurd hpos (by omega), by omega, htold,
    hreads⟩
  rw [hgone, hsteps]
  omega

/-- A step that stays on its frame: one token more. -/
theorem Going.stay (h : Going w n s) (hframe : s.frame < n) {m : Move}
    (hsteps : s'.nSteps = s.nSteps + 1) (hreads : ∀ frame ∈ s'.reads, frame < n)
    (hmoves : s'.moves = s.moves ++ [m]) (hm : m.frame = s.frame) (htoken : m.token.isSome)
    (hstay : s'.frame = s.frame) (hsymbols : s'.symbols = s.symbols + 1)
    (hnamed : s'.nTokens = s.nTokens + 1) (hroom : (s'.symbols : ℤ) < w.maxSymbols) :
    Going w n s' := by
  have hmore : tokensAt s'.moves s'.frame = tokensAt s.moves s.frame + 1 := by
    rw [hmoves, tokensAt_snoc, hstay, if_pos ⟨hm, htoken⟩]
  have hbefore := h.steps
  have hcounted := h.counted
  have hsame := h.named
  have htold := h.told
  refine ⟨?_, fun hge => ?_, by omega, fun _ => hroom, by omega, by omega, hreads⟩
  · rw [hmore, hstay, hsteps]
    omega
  · rw [hstay] at hge
    omega

/-- A state that has read the frame it stands on, and may have told a piece. -/
def Greedy.reading (s : Greedy) (text : Bytes) : Greedy :=
  { s with reads := s.reads ++ [s.frame], text := text }

theorem asInt_eq_some {n m : ℕ} : asInt n = some m ↔ n < 2 ^ 31 ∧ n = m := by
  unfold asInt
  split_ifs with h
  · rw [Option.some_inj, and_iff_right h]
  · exact ⟨nofun, fun hlt => absurd hlt.1 h⟩

/-- **A blank leaves its frame**, and the counter is clear. -/
theorem skip_eq_some {duration : ℕ} : s.skip duration = some s' ↔
    s.frame + max 1 duration < 2 ^ 31 ∧
      s' = { s with
        frame := s.frame + max 1 duration, symbols := 0
        moves := s.moves ++ [⟨s.frame, none, duration, s.frame + max 1 duration⟩] } := by
  have hmax : (if 0 < duration then duration else 1) = max 1 duration := by split_ifs <;> omega
  simp only [Greedy.skip, hmax, Option.bind_eq_bind, Option.bind_eq_some_iff, asInt_eq_some]
  constructor
  · rintro ⟨next, ⟨hlt, rfl⟩, heq⟩
    exact ⟨hlt, (Option.some.inj heq).symm⟩
  · rintro ⟨hlt, rfl⟩
    exact ⟨_, ⟨hlt, rfl⟩, rfl⟩

/-- What the counter is when a token is counted: full, or not. -/
def Filled (w : DecoderWeights) (s : Greedy) (duration : ℕ) : Prop :=
  duration = 0 ∧ w.maxSymbols ≤ ((s.symbols + 1 : ℕ) : ℤ)

instance (s : Greedy) (duration : ℕ) : Decidable (Filled w s duration) :=
  inferInstanceAs (Decidable (_ ∧ _))

/-- **A token counts**, and moves the frame by its duration, or by one where it fills the counter. -/
theorem advance_eq_some {token : ℤ} {duration : ℕ} : s.advance w token duration = some s' ↔
    (s.nTokens + 1 < 2 ^ 31 ∧ s.symbols + 1 < 2 ^ 31 ∧
        s.frame + duration + (if Filled w s duration then 1 else 0) < 2 ^ 31) ∧
      s' = { s with
        frame := s.frame + duration + if Filled w s duration then 1 else 0
        symbols := if Filled w s duration then 0 else s.symbols + 1
        nTokens := s.nTokens + 1
        moves := s.moves ++ [⟨s.frame, some token, duration,
          s.frame + duration + if Filled w s duration then 1 else 0⟩] } := by
  simp only [Greedy.advance, Option.bind_eq_bind, Option.bind_eq_some_iff, asInt_eq_some, Filled]
  constructor
  · rintro ⟨_, ⟨htokens, rfl⟩, _, ⟨hsymbols, rfl⟩, _, ⟨-, rfl⟩, _, ⟨hlt, rfl⟩, heq⟩
    exact ⟨⟨htokens, hsymbols, hlt⟩, (Option.some.inj heq).symm⟩
  · rintro ⟨⟨htokens, hsymbols, hlt⟩, rfl⟩
    exact ⟨_, ⟨htokens, rfl⟩, _, ⟨hsymbols, rfl⟩, _, ⟨by omega, rfl⟩, _, ⟨hlt, rfl⟩, rfl⟩

/-- **What one round can do**: end, at an overflow maybe, skip a blank, or take a token. -/
theorem body_cases (w : DecoderWeights) (sp : SpDetok) (o : Oracle w) (s : Greedy) :
    (2 ^ 31 ≤ s.nSteps + 1 ∧ body w sp o s = (s, some .overflow)) ∨
      (∃ text status, status ≠ .overflow ∧ body w sp o s = (s.reading text, some status)) ∨
      (∃ id, o.joint s.nSteps = some (w.blankId, id) ∧
        body w sp o s =
          orOverflow (s.reading s.text) ((s.reading s.text).skip (w.durations.get id))) ∨
      ∃ token id text, o.joint s.nSteps = some (token, id) ∧ token ≠ w.blankId ∧
        body w sp o s =
          orOverflow (s.reading text) ((s.reading text).advance w token (w.durations.get id)) := by
  unfold body
  by_cases hsteps : s.nSteps + 1 < 2 ^ 31
  swap
  · exact .inl ⟨not_lt.1 hsteps, if_pos (if_neg hsteps)⟩
  have hcount : asInt (s.nSteps + 1) ≠ none := by
    rw [asInt, if_pos hsteps]
    exact nofun
  rw [if_neg hcount]
  right
  dsimp only
  cases o.joint s.nSteps with
  | none => exact .inl ⟨s.text, .thrown, by decide, rfl⟩
  | some move =>
    obtain ⟨token, id⟩ := move
    dsimp only
    by_cases hblank : token = w.blankId
    · rw [if_pos hblank]
      exact .inr (.inl ⟨id, by rw [hblank], rfl⟩)
    rw [if_neg hblank]
    cases spDetokAppend sp token s.text with
    | none => exact .inl ⟨s.text, .thrown, by decide, rfl⟩
    | some text =>
      dsimp only
      split
      · exact .inl ⟨text, .cancelled, by decide, rfl⟩
      split
      · exact .inl ⟨text, .thrown, by decide, rfl⟩
      · exact .inr (.inr ⟨token, id, text, rfl, hblank, rfl⟩)

/-- A blank took the loop on. -/
theorem Going.skip (h : Going w n s) (hframe : s.frame < n) {text : Bytes} {duration : ℕ}
    (hreads : ∀ frame ∈ (s.reading text).reads, frame < n)
    (hskip : (s.reading text).skip duration = some s') : Going w n s' := by
  obtain ⟨-, rfl⟩ := skip_eq_some.1 hskip
  have hlt : s.frame < s.frame + max 1 duration := by omega
  exact h.move hframe (by simp [Greedy.nSteps, Greedy.reading]) hreads rfl rfl hlt
    (Nat.le_succ _) (Nat.zero_le _)

/-- A token took the loop on, or the counter counts it and is not full. -/
theorem Going.advance (h : Going w n s) (hframe : s.frame < n) {text : Bytes} {token : ℤ}
    {duration : ℕ} (hreads : ∀ frame ∈ (s.reading text).reads, frame < n)
    (hadvance : (s.reading text).advance w token duration = some s') : Going w n s' := by
  obtain ⟨-, rfl⟩ := advance_eq_some.1 hadvance
  have hsteps : (s.reading text).nSteps = s.nSteps + 1 := by simp [Greedy.nSteps, Greedy.reading]
  have hcount : (if Filled w (s.reading text) duration then 0 else s.symbols + 1) ≤
      s.nTokens + 1 := by
    have htold := h.told
    split_ifs <;> omega
  by_cases hmoves : s.frame < s.frame + duration + if Filled w (s.reading text) duration then 1 else 0
  · exact h.move hframe hsteps hreads rfl rfl hmoves le_rfl hcount
  · have hzero : duration = 0 := by omega
    have hfull : ¬Filled w (s.reading text) duration := fun hfull => by
      rw [if_pos hfull] at hmoves
      omega
    refine h.stay hframe hsteps hreads rfl rfl rfl ?_ (if_neg hfull) rfl ?_
    · show s.frame + duration + _ = s.frame
      rw [if_neg hfull, hzero]
      rfl
    · show ((if Filled w (s.reading text) duration then 0 else s.symbols + 1 : ℕ) : ℤ) < _
      rw [if_neg hfull]
      exact not_le.1 fun hle => hfull ⟨hzero, hle⟩

/-- **One round of the loop**: it reads a frame, which may cost the step, and goes on or ends. -/
theorem Going.body (h : Going w n s) (hframe : s.frame < n) :
    (Tdt.body w sp o s).1.nSteps ≤ s.nSteps + 1 ∧
      (∀ frame ∈ (Tdt.body w sp o s).1.reads, frame < n) ∧
      ((Tdt.body w sp o s).2 = none →
        Going w n (Tdt.body w sp o s).1 ∧ (Tdt.body w sp o s).1.nSteps = s.nSteps + 1) := by
  have hreads : ∀ text, ∀ frame ∈ (s.reading text).reads, frame < n := fun text => by
    simpa [Greedy.reading, or_imp, forall_and] using ⟨h.reads, hframe⟩
  have hsteps : ∀ text, (s.reading text).nSteps = s.nSteps + 1 := fun text => by
    simp [Greedy.nSteps, Greedy.reading]
  rcases body_cases w sp o s with
    ⟨-, heq⟩ | ⟨text, status, -, heq⟩ | ⟨id, -, heq⟩ | ⟨token, id, text, -, -, heq⟩ <;> rw [heq]
  · exact ⟨Nat.le_succ _, h.reads, by simp⟩
  · exact ⟨(hsteps text).le, hreads text, by simp⟩
  · cases hskip : (s.reading s.text).skip (w.durations.get id) with
    | none => exact ⟨(hsteps s.text).le, hreads s.text, by simp [orOverflow]⟩
    | some s' =>
      have hgoing := h.skip hframe (hreads s.text) hskip
      obtain ⟨-, rfl⟩ := skip_eq_some.1 hskip
      exact ⟨(hsteps s.text).le, hreads s.text, fun _ => ⟨hgoing, hsteps s.text⟩⟩
  · cases hadvance : (s.reading text).advance w token (w.durations.get id) with
    | none => exact ⟨(hsteps text).le, hreads text, by simp [orOverflow]⟩
    | some s' =>
      have hgoing := h.advance hframe (hreads text) hadvance
      obtain ⟨-, rfl⟩ := advance_eq_some.1 hadvance
      exact ⟨(hsteps text).le, hreads text, fun _ => ⟨hgoing, hsteps text⟩⟩

/-- **The loop ends**, as soon as it may take more rounds than the frames cost. -/
theorem loop_ends (h : Going w n s) {nFrames : ℤ} (hn : nFrames.toNat = n) {rounds : ℕ}
    (hrounds : n * w.perFrame < rounds + s.nSteps) :
    (∃ status, (loop w sp o nFrames rounds s).2 = some status) ∧
      (loop w sp o nFrames rounds s).1.nSteps ≤ n * w.perFrame ∧
      ∀ frame ∈ (loop w sp o nFrames rounds s).1.reads, frame < n := by
  induction rounds generalizing s with
  | zero =>
    have hsteps := h.steps
    rcases Nat.lt_or_ge s.frame n with hlt | hge
    · have := h.steps_lt hlt
      omega
    · rw [h.within hge, min_eq_right hge] at hsteps
      omega
  | succ rounds ih =>
    rw [loop]
    by_cases hend : nFrames ≤ s.frame
    · have hge : n ≤ s.frame := by omega
      have hsteps := h.steps
      rw [h.within hge, min_eq_right hge] at hsteps
      rw [if_pos hend]
      exact ⟨⟨.ok, rfl⟩, hsteps, h.reads⟩
    · have hlt : s.frame < n := by omega
      have hleft := h.steps_lt hlt
      obtain ⟨hsteps, hreads, hgoes⟩ := @Going.body w sp o n s h hlt
      rw [if_neg hend]
      rcases heq : body w sp o s with ⟨s', _ | status⟩
      · rw [heq] at hgoes
        obtain ⟨hgoing, hmore⟩ := hgoes rfl
        exact ih hgoing (by simp only at hmore; omega)
      · rw [heq] at hsteps hreads
        exact ⟨⟨status, rfl⟩, by simp only at hsteps ⊢; omega, hreads⟩

/-! ### What an int can hold -/

/-- **The frames and the steps fit an `int`**: the last frame and any duration, and `max_symbols`
steps for each frame. -/
structure Fits (w : DecoderWeights) (nFrames : ℤ) : Prop where
  frames : nFrames < 2 ^ 31
  durations : ∀ duration ∈ w.durations, nFrames + duration.val ≤ 2 ^ 31
  steps : nFrames.toNat * w.perFrame < 2 ^ 31

/-- **No round overflows** where everything fits. -/
theorem Going.not_overflow {nFrames : ℤ} (h : Going w nFrames.toNat s) (hfits : Fits w nFrames)
    (hframe : s.frame < nFrames.toNat) : (Tdt.body w sp o s).2 ≠ some .overflow := by
  have hsteps := h.steps_lt hframe
  have hmost := hfits.steps
  have hframes := hfits.frames
  have hnamed := h.named
  have htold := h.told
  rcases body_cases w sp o s with
    ⟨hfull, heq⟩ | ⟨text, status, hstatus, heq⟩ | ⟨id, -, heq⟩ | ⟨token, id, text, -, -, heq⟩ <;>
    rw [heq]
  · omega
  · exact fun h => hstatus (Option.some.inj h)
  · have hduration := hfits.durations _ (List.get_mem w.durations id)
    rw [skip_eq_some.2 ⟨?_, rfl⟩]
    · exact nofun
    · show s.frame + max 1 _ < 2 ^ 31
      omega
  · have hduration := hfits.durations _ (List.get_mem w.durations id)
    rw [advance_eq_some.2 ⟨⟨?_, ?_, ?_⟩, rfl⟩]
    · exact nofun
    · show s.nTokens + 1 < 2 ^ 31
      omega
    · show s.symbols + 1 < 2 ^ 31
      omega
    · show s.frame + (w.durations.get id).val + _ < 2 ^ 31
      split_ifs with hfilled
      · have hzero := hfilled.1
        omega
      · omega

/-- **No decoding overflows** where everything fits. -/
theorem loop_not_overflow {nFrames : ℤ} (h : Going w nFrames.toNat s) (hfits : Fits w nFrames)
    (rounds : ℕ) : (loop w sp o nFrames rounds s).2 ≠ some .overflow := by
  induction rounds generalizing s with
  | zero => exact nofun
  | succ rounds ih =>
    rw [loop]
    by_cases hend : nFrames ≤ s.frame
    · rw [if_pos hend]
      exact nofun
    · have hlt : s.frame < nFrames.toNat := by omega
      have hbody := @Going.not_overflow w sp o s nFrames h hfits hlt
      obtain ⟨-, -, hgoes⟩ := @Going.body w sp o _ s h hlt
      rw [if_neg hend]
      rcases heq : body w sp o s with ⟨s', _ | status⟩
      · rw [heq] at hgoes
        exact ih (hgoes rfl).1
      · rw [heq] at hbody
        exact hbody

variable (w sp o)

/-- **The decoding ends.**  Whatever the networks answer, it takes no more joint steps than
`max_symbols` for each frame, at least one, and every step reads one of the frames; more rounds
than that change nothing.  Where the frames and the steps fit an `int`, no sum of it overflows. -/
theorem decode_ends (nFrames : ℤ) (rounds : ℕ)
    (hrounds : nFrames.toNat * max 1 w.maxSymbols.toNat < rounds) :
    (∃ status, (parakeetTdtDecode w sp o nFrames rounds).2 = some status ∧
        (Fits w nFrames → status ≠ .overflow)) ∧
      (parakeetTdtDecode w sp o nFrames rounds).1.nSteps ≤
        nFrames.toNat * max 1 w.maxSymbols.toNat ∧
      ∀ frame ∈ (parakeetTdtDecode w sp o nFrames rounds).1.reads, (frame : ℤ) < nFrames := by
  unfold parakeetTdtDecode
  split
  · obtain ⟨⟨status, hends⟩, hsteps, hreads⟩ := @loop_ends w sp o nFrames.toNat _ going_start
      nFrames rfl rounds hrounds
    refine ⟨⟨status, hends, fun hfits heq => ?_⟩, hsteps, fun frame hframe => ?_⟩
    · exact loop_not_overflow going_start hfits rounds (heq ▸ hends)
    · have := hreads frame hframe
      omega
  · exact ⟨⟨.thrown, rfl, fun _ => by decide⟩, Nat.zero_le _, by simp⟩

/-- Weights with two tokens for a frame. -/
def twoTokens : DecoderWeights := ⟨0, 2, [0, 1]⟩

/-- The duration that stays on a frame is one of theirs. -/
theorem stays_lt : 0 < twoTokens.durations.length := by decide

/-- Networks that go on with one token of duration zero. -/
def babble : Oracle twoTokens where
  predict _ := true
  joint _ := some (1, ⟨0, stays_lt⟩)
  onToken _ _ := true

/-- They are stopped after two steps on each frame. -/
theorem decode_ends_babble :
    (∃ status, (parakeetTdtDecode twoTokens ⟨[([0x61], false), ([0x62], false)]⟩ babble 3 7).2 =
        some status ∧ status ≠ .overflow) ∧
      (parakeetTdtDecode twoTokens ⟨[([0x61], false), ([0x62], false)]⟩ babble 3 7).1.nSteps ≤ 6 ∧
      ∀ frame ∈ (parakeetTdtDecode twoTokens ⟨[([0x61], false), ([0x62], false)]⟩ babble 3 7).1.reads,
        (frame : ℤ) < 3 := by
  obtain ⟨⟨status, hends, hfits⟩, hsteps, hreads⟩ := decode_ends twoTokens
    ⟨[([0x61], false), ([0x62], false)]⟩ babble 3 7 (by decide)
  have hdurations : ∀ duration ∈ twoTokens.durations, 3 + (duration.val : ℤ) ≤ 2 ^ 31 := by
    simp [twoTokens]
  exact ⟨⟨status, hends, hfits ⟨by decide, hdurations, by decide⟩⟩, hsteps, hreads⟩

/-- Weights with a duration that a second frame has no room for. -/
def longJump : DecoderWeights := ⟨0, 2, [1, 2147483647]⟩

/-- Networks that name two blanks, one frame apart. -/
def leap : Oracle longJump where
  predict _ := true
  joint step := some (0, if step = 0 then ⟨0, by decide⟩ else ⟨1, by decide⟩)
  onToken _ _ := true

/-- **A frame past the last `int`.**  The second blank leads from the second frame past it, after
however many rounds. -/
theorem not_always_ends :
    ¬∀ (w : DecoderWeights) (sp : SpDetok) (o : Oracle w) (nFrames : ℤ), ∃ rounds status,
      (parakeetTdtDecode w sp o nFrames rounds).2 = some status ∧ status ≠ .overflow := by
  intro h
  obtain ⟨rounds, status, hends, hstatus⟩ := h longJump ⟨[]⟩ leap 2
  rcases rounds with _ | _ | rounds
  · cases hends
  · cases hends
  · have hover : (parakeetTdtDecode longJump ⟨[]⟩ leap 2 (rounds + 2)).2 = some .overflow := rfl
    rw [hover] at hends
    exact hstatus (Option.some.inj hends).symm

end Tdt
end S2S
