/-
# What the delays read

The ring of the voice effect holds the end of the stream since the last reset
(`Follows`): a reset empties it, a sample goes in, and nothing else of the effect
touches it.  So a read whose delay is at most the echo delay takes four samples of
that stream, a few places apart, however often the position has wrapped; and it
does not reach past the tail (`jarvisTaps_stream`).
-/

import S2S.Jarvis.Effect

namespace S2S
namespace Jarvis

open Llm Models

variable (p : Platform)

/-! ### Runs -/

/-- A call that changes the effect. -/
inductive Call
  | reset
  | process (pcm : List CFloat)

/-- What it does. -/
def Call.apply (fx : JarvisFx) : Call → JarvisFx
  | .reset => jarvisFxReset p fx
  | .process pcm => (jarvisFxProcess p fx pcm).2

/-- What it makes of the stream. -/
def Call.feed (xs : List CFloat) : Call → List CFloat
  | .reset => []
  | .process pcm => xs ++ pcm

/-- The effect after some calls. -/
def runCalls (fx : JarvisFx) (calls : List Call) : JarvisFx := calls.foldl (Call.apply p) fx

/-- The samples since the last reset. -/
def streamOf (calls : List Call) : List CFloat := calls.foldl Call.feed []

/-! ### What is meant -/

/-- **A read in range takes four samples of the stream**: the one a place nearer than the delay,
the one at it, and those one and two places further, in whole places. -/
def ReadsStream (fx : JarvisFx) (xs : List CFloat) : Prop :=
  ∀ e d : ℚ, fx.echoDelay = .fin e → 1 ≤ d → d ≤ e →
    jarvisTaps p fx (.fin d) =
      { xm1 := back (.fin 0) xs (⌊d⌋₊ + 2)
        x0 := back (.fin 0) xs (⌊d⌋₊ + 1)
        x1 := back (.fin 0) xs ⌊d⌋₊
        x2 := back (.fin 0) xs (⌊d⌋₊ - 1) }

/-- **A read in range reaches less far back** than so many samples. -/
def ReachesWithin (fx : JarvisFx) (n : ℕ) : Prop :=
  ∀ e d : ℚ, fx.echoDelay = .fin e → 1 ≤ d → d ≤ e → ⌊d⌋₊ + 2 < n

/-! ### The invariant -/

/-- The ring holds the end of the stream. -/
def Follows (fx : JarvisFx) (xs : List CFloat) : Prop :=
  ∃ bits, Sized bits fx.ring fx.mask fx.echoDelay ∧ DelayLine bits fx.ring fx.pos (.fin 0) xs

theorem follows_reset (fx : JarvisFx) : Follows (jarvisFxReset p fx) [] := by
  obtain ⟨bits, h⟩ := fx.sized
  have hring : (jarvisFxReset p fx).ring = List.replicate (2 ^ bits) (CFloat.fin 0) := by
    rw [← h.length_ring]
    rfl
  refine ⟨bits, ⟨h.bits_lt, ?_, h.mask_eq, h.covers⟩, ?_⟩
  · rw [hring, List.length_replicate]
  · rw [hring]
    exact DelayLine.start h.bits_lt.le (CFloat.fin 0)

theorem follows_write {fx : JarvisFx} {xs : List CFloat} (h : Follows fx xs) (x : CFloat) :
    Follows (jarvisWrite fx x) (xs ++ [x]) := by
  obtain ⟨bits, hsized, hline⟩ := h
  have hpush := hline.push x
  rw [← hsized.mask_eq] at hpush
  refine ⟨bits, ⟨hsized.bits_lt, ?_, hsized.mask_eq, hsized.covers⟩, hpush⟩
  exact hpush.length_ring

/-- Only the ring, its mask, the position and the echo delay matter. -/
theorem Follows.congr {fx fx' : JarvisFx} {xs : List CFloat} (h : Follows fx xs)
    (hring : fx'.ring = fx.ring) (hmask : fx'.mask = fx.mask) (hpos : fx'.pos = fx.pos)
    (hecho : fx'.echoDelay = fx.echoDelay) : Follows fx' xs := by
  unfold Follows
  rw [hring, hmask, hpos, hecho]
  exact h

theorem follows_sample {fx : JarvisFx} {xs : List CFloat} (h : Follows fx xs) (x : CFloat) :
    Follows (jarvisSample p fx x).2 (xs ++ [x]) :=
  (follows_write h x).congr rfl rfl rfl rfl

theorem follows_samples {fx : JarvisFx} {xs : List CFloat} (h : Follows fx xs) (pcm : List CFloat) :
    Follows (jarvisSamples p fx pcm).2 (xs ++ pcm) := by
  induction pcm generalizing fx xs with
  | nil => exact (List.append_nil xs).symm ▸ h
  | cons x pcm ih =>
    rw [List.append_cons]
    exact ih (follows_sample p h x)

theorem follows_call {fx : JarvisFx} {xs : List CFloat} (h : Follows fx xs) (call : Call) :
    Follows (call.apply p fx) (call.feed xs) := by
  cases call with
  | reset => exact follows_reset p fx
  | process pcm => exact (follows_samples p h pcm).congr rfl rfl rfl rfl

theorem follows_calls {fx : JarvisFx} {xs : List CFloat} (h : Follows fx xs) (calls : List Call) :
    Follows (runCalls p fx calls) (calls.foldl Call.feed xs) := by
  induction calls generalizing fx xs with
  | nil => exact h
  | cons call calls ih => exact ih (follows_call p h call)

/-! ### Reads -/

theorem tap_eq {fx : JarvisFx} {xs : List CFloat} {bits : ℕ}
    (hsized : Sized bits fx.ring fx.mask fx.echoDelay)
    (hline : DelayLine bits fx.ring fx.pos (.fin 0) xs) {d : ℕ} (hd : d < 2 ^ bits) :
    fx.tap (fx.pos - 1 - BitVec.ofNat 32 d) = back (.fin 0) xs d := by
  have hread := hline.read hd
  rw [← hsized.mask_eq, List.getElem?_eq_getElem (slot_lt_ring fx _)] at hread
  exact Option.some.inj hread

/-- The integer part of a delay. -/
theorem unsigned_floorf {d : ℚ} (hd : 0 ≤ d) (hlt : d < 2 ^ 32) :
    p.unsigned 32 (floorf (.fin d)) = BitVec.ofNat 32 ⌊d⌋₊ := by
  have hfloor : (0 : ℚ) ≤ (⌊d⌋ : ℤ) := by exact_mod_cast Int.floor_nonneg.2 hd
  rw [floorf, unsigned_fin p hfloor ((Int.floor_le d).trans_lt hlt), ← Int.floor_toNat,
    Int.floor_intCast, Int.floor_toNat]

theorem reads_of_follows {fx : JarvisFx} {xs : List CFloat} (h : Follows fx xs) :
    ReadsStream p fx xs := by
  intro e d he hd hde
  obtain ⟨bits, hsized, hline⟩ := h
  have hcovers := hsized.covers e he (by linarith)
  have hpow : 2 ^ bits ≤ 2 ^ 31 := Nat.pow_le_pow_right two_pos (Nat.le_of_lt_succ hsized.bits_lt)
  have hfloor : ⌊d⌋₊ ≤ ⌊e⌋₊ := Nat.floor_mono hde
  have hlt : d < 2 ^ 32 := by
    have hnext := Nat.lt_floor_add_one d
    have hsmall : ((⌊d⌋₊ + 1 : ℕ) : ℚ) ≤ (2 ^ 31 : ℕ) := by exact_mod_cast (by omega)
    push_cast at hsmall
    linarith
  obtain ⟨k, hk⟩ : ∃ k, ⌊d⌋₊ = k + 1 :=
    Nat.exists_eq_succ_of_ne_zero (Nat.floor_pos.2 hd).ne'
  have htap : ∀ n : ℕ, n ≤ ⌊d⌋₊ + 2 → ∀ i : BitVec 32, i = fx.pos - 1 - BitVec.ofNat 32 n →
      fx.tap i = back (.fin 0) xs n := by
    intro n hn i hi
    rw [hi]
    exact tap_eq hsized hline (by omega)
  rw [jarvisTaps, unsigned_floorf p (by linarith) hlt, Taps.mk.injEq]
  refine ⟨htap _ le_rfl _ ?_, htap _ (by omega) _ ?_, htap _ (by omega) _ ?_,
    htap _ (by omega) _ ?_⟩
  · rw [BitVec.ofNat_add]
    bv_omega
  · rw [BitVec.ofNat_add]
    bv_omega
  · bv_omega
  · rw [hk, Nat.add_sub_cancel, BitVec.ofNat_add]
    bv_omega

/-! ### The tail -/

theorem tail_toNat {fx : JarvisFx} {e : ℚ} (he : fx.echoDelay = .fin e) (hnonneg : 0 ≤ e) :
    (jarvisFxTail p fx).toNat = ⌈e⌉₊ + 2 := by
  obtain ⟨bits, hsized⟩ := fx.sized
  have hcovers := hsized.covers e he hnonneg
  have hpow : 2 ^ bits ≤ 2 ^ 31 := Nat.pow_le_pow_right two_pos (Nat.le_of_lt_succ hsized.bits_lt)
  have hceil : ⌈e⌉₊ ≤ ⌊e⌋₊ + 1 := Nat.ceil_le_floor_add_one e
  have hcast : ((⌈e⌉ : ℤ) : ℚ) = (⌈e⌉₊ : ℕ) := by
    exact_mod_cast (Int.natCast_ceil_eq_ceil hnonneg).symm
  have hlt : ((⌈e⌉₊ : ℕ) : ℚ) < 2 ^ 64 := by
    exact_mod_cast (by omega : ⌈e⌉₊ < 2 ^ 64)
  rw [jarvisFxTail, he, ceilf, hcast, unsigned_fin p (Nat.cast_nonneg _) hlt, Nat.floor_natCast,
    BitVec.toNat_add, BitVec.toNat_ofNat]
  have htwo : (2 : BitVec 64).toNat = 2 := rfl
  rw [htwo]
  omega

/-- One sample past the tail, no read reaches before it. -/
theorem reaches_tail (fx : JarvisFx) (n : ℕ) :
    ReachesWithin fx ((jarvisFxTail p fx).toNat + n + 1) := by
  intro e d he hd hde
  rw [tail_toNat p he (by linarith)]
  have hfloor : ⌊d⌋₊ ≤ ⌊e⌋₊ := Nat.floor_mono hde
  have hceil : ⌊e⌋₊ ≤ ⌈e⌉₊ := Nat.floor_le_ceil e
  omega

/-- What is read of a stream is read of its end, as far as a read reaches. -/
theorem ReadsStream.of_append {fx : JarvisFx} {xs ys : List CFloat} (h : ReadsStream p fx (xs ++ ys))
    (hreaches : ReachesWithin fx ys.length) : ReadsStream p fx ys := by
  intro e d he hd hde
  have hfar := hreaches e d he hd hde
  rw [h e d he hd hde, back_append _ _ hfar, back_append _ _ (by omega), back_append _ _ (by omega),
    back_append _ _ (by omega)]

theorem echoDelay_samples (fx : JarvisFx) (pcm : List CFloat) :
    (jarvisSamples p fx pcm).2.echoDelay = fx.echoDelay := by
  induction pcm generalizing fx with
  | nil => rfl
  | cons x pcm ih => exact ih (jarvisSample p fx x).2

theorem echoDelay_calls (fx : JarvisFx) (calls : List Call) :
    (runCalls p fx calls).echoDelay = fx.echoDelay := by
  induction calls generalizing fx with
  | nil => rfl
  | cons call calls ih =>
    have hcall : (call.apply p fx).echoDelay = fx.echoDelay := by
      cases call with
      | reset => rfl
      | process pcm => exact echoDelay_samples p fx pcm
    exact (ih (call.apply p fx)).trans hcall

/-! ### From the start -/

theorem jarvisFxNew_eq {rate : Int32} {fx : JarvisFx} (h : jarvisFxNew p rate = some fx) :
    ∃ blank, fx = jarvisFxReset p blank ∧ fx.echoDelay = echoDelayAt rate := by
  unfold jarvisFxNew at h
  split at h
  · exact absurd h (by simp)
  · exact ⟨_, (Option.some.inj h).symm, (congrArg JarvisFx.echoDelay (Option.some.inj h)).symm⟩

/-- There is an effect for every rate that is not below zero. -/
theorem jarvisFxNew_isSome {rate : Int32} (hrate : 0 ≤ rate.toInt) :
    ∃ fx, jarvisFxNew p rate = some fx := by
  obtain ⟨e, he, -, hnonneg⟩ := echoDelayAt_eq rate
  obtain ⟨hneed, hle⟩ := slotsNeeded_toNat p he (hnonneg hrate)
  obtain ⟨size, hsize⟩ := @ringSize_isSome (slotsNeeded p rate) (by omega) 32 0 (by norm_num)
    (by norm_num)
  unfold jarvisFxNew
  split
  · rename_i hnone
    exact absurd (hsize.symm.trans hnone) (by simp)
  · exact ⟨_, rfl⟩

/-- **What the delays read**, for an effect of any sample rate, after any calls and any of the
samples of the next one: four samples of the stream since the last reset; and once the tail has
gone in, only what came with it and after it. -/
theorem jarvisTaps_stream (rate : Int32) :
    (0 ≤ rate.toInt → ∃ fx, jarvisFxNew p rate = some fx) ∧
    ∀ fx ∈ jarvisFxNew p rate, fx.echoDelay = echoDelayAt rate ∧
      ∀ (calls : List Call) (pcm : List CFloat) (x : CFloat),
        let during := (jarvisSamples p (runCalls p fx calls) pcm).2
        let reading := jarvisWrite during x
        let xs := streamOf calls ++ pcm
        ReadsStream p during xs ∧ ReadsStream p reading (xs ++ [x]) ∧
        ∀ before later : List CFloat,
          xs = before ++ List.replicate (jarvisFxTail p fx).toNat (.fin 0) ++ later →
            ReachesWithin reading ((jarvisFxTail p fx).toNat + later.length + 1) ∧
            ReadsStream p reading
              (List.replicate (jarvisFxTail p fx).toNat (.fin 0) ++ later ++ [x]) := by
  refine ⟨jarvisFxNew_isSome p, fun fx hfx => ?_⟩
  obtain ⟨blank, hblank, hecho⟩ := jarvisFxNew_eq p hfx
  refine ⟨hecho, fun calls pcm x => ?_⟩
  have hstart : Follows fx [] := hblank ▸ follows_reset p blank
  have hduring := follows_samples p (follows_calls p hstart calls) pcm
  have hreading := reads_of_follows p (follows_write hduring x)
  refine ⟨reads_of_follows p hduring, hreading, fun before later hxs => ?_⟩
  have hdelay : (jarvisWrite (jarvisSamples p (runCalls p fx calls) pcm).2 x).echoDelay
      = fx.echoDelay :=
    (echoDelay_samples p _ pcm).trans (echoDelay_calls p fx calls)
  have hreaches : ReachesWithin (jarvisWrite (jarvisSamples p (runCalls p fx calls) pcm).2 x)
      ((jarvisFxTail p fx).toNat + later.length + 1) := by
    unfold ReachesWithin
    rw [hdelay]
    exact reaches_tail p fx later.length
  refine ⟨hreaches, @ReadsStream.of_append p _ before _ ?_ ?_⟩
  · have hsplit : streamOf calls ++ pcm ++ [x] = before ++
        (List.replicate (jarvisFxTail p fx).toNat (.fin 0) ++ later ++ [x]) := by
      rw [hxs]
      simp only [List.append_assoc]
    rw [← hsplit]
    exact hreading
  · simpa [add_assoc] using hreaches

end Jarvis
end S2S
