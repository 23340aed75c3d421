/-
# The voice effect

`src/jarvis-fx.cpp`: the dry voice, a leak of it, an echo 50.39 ms late and a
chorus of two copies read through delays that sweep.  Every delay reads one ring,
a power of two long, past the echo delay and the taps of a read.

The functions of the C library, and what a conversion gives of a number it is not
defined for, are those of a `Platform`, any one.
-/

import S2S.Arithmetic
import S2S.DelayLine

namespace S2S
namespace Jarvis

open Llm Models Update

/-- What the code takes from the platform. -/
structure Platform where
  pow : CDouble → CDouble → CDouble
  cos : CDouble → CDouble
  sin : CDouble → CDouble
  sqrt : CDouble → CDouble
  powf : CFloat → CFloat → CFloat
  cosf : CFloat → CFloat
  sinf : CFloat → CFloat
  sqrtf : CFloat → CFloat
  undefinedUnsigned : (w : ℕ) → CFloat → BitVec w

/-- A conversion to an unsigned integer. -/
def Platform.unsigned (p : Platform) (w : ℕ) (x : CFloat) : BitVec w :=
  (toUnsigned w x).getD (p.undefinedUnsigned w x)

theorem unsigned_fin (p : Platform) {w : ℕ} {x : ℚ} (hx : 0 ≤ x) (hlt : x < 2 ^ w) :
    p.unsigned w (.fin x) = BitVec.ofNat w ⌊x⌋₊ := by
  rw [Platform.unsigned, toUnsigned_fin hx hlt, Option.getD_some, ← Int.natCast_floor_eq_floor hx,
    BitVec.ofInt_natCast]

/-! ### Parameters -/

/-- `M_PI`. -/
def mPi : CDouble := 3.14159265358979323846

/-- `JARVIS_ECHO_MS`. -/
def jarvisEchoMs : CFloat := 50.39

/-- `jarvis_shelf`. -/
structure JarvisShelf where
  f0 : CFloat
  gainDb : CFloat
  high : Bool

/-- `jarvis_path_params`. -/
structure JarvisPathParams where
  gainDb : CFloat
  lo : JarvisShelf
  hi : JarvisShelf

/-- `JARVIS_LEAK`. -/
def jarvisLeak : JarvisPathParams where
  gainDb := -13.10
  lo := ⟨426.0, -1.81, false⟩
  hi := ⟨5417.0, 6.97, true⟩

/-- `JARVIS_ECHO`. -/
def jarvisEcho : JarvisPathParams where
  gainDb := -1.60
  lo := ⟨100.0, 0.00, false⟩
  hi := ⟨10391.0, -3.49, true⟩

/-- `JARVIS_CHORUS`. -/
def jarvisChorus : JarvisPathParams where
  gainDb := -0.57
  lo := ⟨217.0, -4.12, false⟩
  hi := ⟨3617.0, 2.94, true⟩

/-- `jarvis_voice_params`. -/
structure JarvisVoiceParams where
  share : CFloat
  centerMs : CFloat
  depthMs : CFloat
  rateHz : CFloat
  phase : CFloat

/-- `JARVIS_VOICES`. -/
def jarvisVoices : List JarvisVoiceParams :=
  [⟨0.33, 35.4, 1.0, 0.55, 0.0⟩, ⟨0.67, 33.2, 0.9, 0.90, 1.5707963⟩]

/-! ### Filters -/

/-- `jarvis_biquad`. -/
structure JarvisBiquad where
  b0 : CFloat := 1.0
  b1 : CFloat := 0.0
  b2 : CFloat := 0.0
  a1 : CFloat := 0.0
  a2 : CFloat := 0.0
  z1 : CFloat := 0.0
  z2 : CFloat := 0.0

/-- `jarvis_biquad::run`. -/
def JarvisBiquad.run (q : JarvisBiquad) (x : CFloat) : CFloat × JarvisBiquad :=
  let y := q.b0 * x + q.z1
  (y, { q with z1 := q.b1 * x - q.a1 * y + q.z2, z2 := q.b2 * x - q.a2 * y })

/-- `jarvis_shelf_init`. -/
def jarvisShelfInit (p : Platform) (shelf : JarvisShelf) (sampleRate : CFloat) : JarvisBiquad :=
  let a := p.pow 10.0 (widen shelf.gainDb / 40.0)
  let w := 2.0 * mPi * widen shelf.f0 / widen sampleRate
  let c := p.cos w
  let sq := p.sqrt (2.0 * a) * p.sin w
  let s : CDouble := if shelf.high then 1.0 else -1.0
  let b0 := a * ((a + 1.0) + s * (a - 1.0) * c + sq)
  let b1 := -2.0 * s * a * ((a - 1.0) + s * (a + 1.0) * c)
  let b2 := a * ((a + 1.0) + s * (a - 1.0) * c - sq)
  let a0 := (a + 1.0) - s * (a - 1.0) * c + sq
  let a1 := 2.0 * s * ((a - 1.0) - s * (a + 1.0) * c)
  let a2 := (a + 1.0) - s * (a - 1.0) * c - sq
  { b0 := narrow (b0 / a0), b1 := narrow (b1 / a0), b2 := narrow (b2 / a0)
    a1 := narrow (a1 / a0), a2 := narrow (a2 / a0) }

/-- `jarvis_path`. -/
structure JarvisPath where
  gain : CFloat := 1.0
  lo : JarvisBiquad := {}
  hi : JarvisBiquad := {}

/-- `jarvis_path::run`. -/
def JarvisPath.run (path : JarvisPath) (x : CFloat) : CFloat × JarvisPath :=
  let (low, lo) := path.lo.run x
  let (high, hi) := path.hi.run low
  (path.gain * high, { path with lo := lo, hi := hi })

/-- `jarvis_path_init`. -/
def jarvisPathInit (p : Platform) (params : JarvisPathParams) (sampleRate : CFloat) : JarvisPath where
  gain := p.powf 10.0 (params.gainDb / 20.0)
  lo := jarvisShelfInit p params.lo sampleRate
  hi := jarvisShelfInit p params.hi sampleRate

/-- `jarvis_voice`. -/
structure JarvisVoice where
  amp : CFloat := 0.0
  center : CFloat := 0.0
  depth : CFloat := 0.0
  c : CFloat := 1.0
  s : CFloat := 0.0
  wc : CFloat := 1.0
  ws : CFloat := 0.0

/-- A voice of `jarvis_fx_reset`. -/
def jarvisVoiceInit (p : Platform) (sampleRate : CFloat) (params : JarvisVoiceParams) : JarvisVoice :=
  let ms := sampleRate / 1000.0
  let w := 2.0 * mPi * widen params.rateHz / widen sampleRate
  { amp := p.sqrtf params.share, center := params.centerMs * ms, depth := params.depthMs * ms
    c := p.cosf params.phase, s := p.sinf params.phase
    wc := narrow (p.cos w), ws := narrow (p.sin w) }

/-- The LFO of a voice turns. -/
def JarvisVoice.turn (v : JarvisVoice) : JarvisVoice :=
  { v with c := v.c * v.wc - v.s * v.ws, s := v.s * v.wc + v.c * v.ws }

/-- The LFO of a voice, back on the unit circle. -/
def JarvisVoice.settle (p : Platform) (v : JarvisVoice) : JarvisVoice :=
  let r := 1.0 / p.sqrtf (v.c * v.c + v.s * v.s)
  { v with c := v.c * r, s := v.s * r }

/-! ### The ring -/

/-- The ring is a power of two past the echo delay and the interpolation taps, and the mask is that
of the ring. -/
structure Sized (bits : ℕ) (ring : List CFloat) (mask : BitVec 32) (echoDelay : CFloat) : Prop where
  bits_lt : bits < 32
  length_ring : ring.length = 2 ^ bits
  mask_eq : mask = lowMask 32 bits
  covers : ∀ e, echoDelay = .fin e → 0 ≤ e → ⌊e⌋₊ + 8 ≤ 2 ^ bits

/-- `jarvis_fx`. -/
structure JarvisFx where
  sampleRate : CFloat
  ring : List CFloat
  mask : BitVec 32
  pos : BitVec 32
  echoDelay : CFloat
  leak : JarvisPath
  echo : JarvisPath
  chorus : JarvisPath
  voices : List JarvisVoice
  sized : ∃ bits, Sized bits ring mask echoDelay

theorem slot_lt_ring (fx : JarvisFx) (i : BitVec 32) : slot fx.mask i < fx.ring.length := by
  obtain ⟨bits, h⟩ := fx.sized
  rw [h.mask_eq, h.length_ring]
  exact slot_lt h.bits_lt.le i

theorem sized_set (fx : JarvisFx) (i : ℕ) (x : CFloat) :
    ∃ bits, Sized bits (fx.ring.set i x) fx.mask fx.echoDelay := by
  obtain ⟨bits, h⟩ := fx.sized
  exact ⟨bits, h.bits_lt, by rw [List.length_set, h.length_ring], h.mask_eq, h.covers⟩

theorem sized_fill (fx : JarvisFx) (x : CFloat) :
    ∃ bits, Sized bits (List.replicate fx.ring.length x) fx.mask fx.echoDelay := by
  obtain ⟨bits, h⟩ := fx.sized
  exact ⟨bits, h.bits_lt, by rw [List.length_replicate, h.length_ring], h.mask_eq, h.covers⟩

/-- `fx->ring[i & fx->mask]`. -/
def JarvisFx.tap (fx : JarvisFx) (i : BitVec 32) : CFloat :=
  fx.ring.get ⟨slot fx.mask i, slot_lt_ring fx i⟩

/-! ### The size of the ring -/

/-- `fx->echo_delay`, at a sample rate. -/
def echoDelayAt (rate : Int32) : CFloat := jarvisEchoMs * cfloatOf rate.toInt / 1000.0

/-- The loop that sizes the ring: none when it never ends, for a size past the last power of two. -/
def ringSize (need : BitVec 32) : ℕ → BitVec 32 → Option (BitVec 32)
  | 0, _ => none
  | left + 1, size => if size < need then ringSize need left (size <<< 1) else some size

/-- The echo delay of any rate is in range, and not below zero for a rate that is not. -/
theorem echoDelayAt_eq (rate : Int32) :
    ∃ e, echoDelayAt rate = .fin e ∧ e ≤ 2 ^ 28 ∧ (0 ≤ rate.toInt → 0 ≤ e) := by
  have hrate : |(rate.toInt : ℚ)| ≤ 2 ^ 31 := by
    have hlo := Int32.le_toInt rate
    have hhi := Int32.toInt_lt rate
    have habs : |rate.toInt| ≤ 2 ^ 31 := abs_le.2 ⟨by omega, by omega⟩
    exact_mod_cast habs
  obtain ⟨hms, hmsLe⟩ := cfloatOf_eq_fin (q := (50.39 : ℚ)) 6 (by norm_num)
    (by norm_num [abs_of_pos])
  obtain ⟨hsample, hsampleLe⟩ := cfloatOf_eq_fin 31 (by norm_num) hrate
  set ms := nearestFloat 50.39
  set sample := nearestFloat rate.toInt
  have hproductLe : |ms * sample| ≤ 2 ^ 37 := by
    calc |ms * sample| = |ms| * |sample| := abs_mul _ _
      _ ≤ 2 ^ 6 * 2 ^ 31 := by gcongr
      _ = 2 ^ 37 := by norm_num
  obtain ⟨hproduct, hproductLe⟩ := cfloatOf_eq_fin 37 (by norm_num) hproductLe
  set product := nearestFloat (ms * sample)
  have hthousand : (1000.0 : CFloat) = .fin 1000 := by
    have hwhole : (1000.0 : ℚ) = (1000 : ℕ) := by norm_num
    have hkept : nearestFloat (1000.0 : ℚ) = 1000 := by
      rw [hwhole]
      exact_mod_cast nearest_natCast (by norm_num) (by norm_num)
    have hfin := (cfloatOf_eq_fin (q := (1000.0 : ℚ)) 10 (by norm_num) (by norm_num [abs_of_pos])).1
    rw [hkept] at hfin
    exact hfin
  have hquotientLe : |product / 1000| ≤ 2 ^ 28 := by
    rw [abs_div, abs_of_pos (by norm_num : (0 : ℚ) < 1000), div_le_iff₀ (by norm_num)]
    exact hproductLe.trans (by norm_num)
  obtain ⟨hquotient, hquotientLe⟩ := cfloatOf_eq_fin 28 (by norm_num) hquotientLe
  refine ⟨nearestFloat (product / 1000), ?_, (abs_le.1 hquotientLe).2, fun hnonneg => ?_⟩
  · have hecho : jarvisEchoMs = .fin ms := hms
    rw [echoDelayAt, hecho, hsample, mul_fin, hproduct, hthousand, div_fin _ (by norm_num), hquotient]
  · have hms0 : 0 ≤ ms := nearest_nonneg (by norm_num)
    have hsample0 : 0 ≤ sample := nearest_nonneg (by exact_mod_cast hnonneg)
    have hproduct0 : 0 ≤ product := nearest_nonneg (mul_nonneg hms0 hsample0)
    exact nearest_nonneg (div_nonneg hproduct0 (by norm_num))

theorem doubled (done : ℕ) :
    BitVec.ofNat 32 (2 ^ done) <<< 1 = BitVec.ofNat 32 (2 ^ (done + 1)) := by
  apply BitVec.eq_of_toNat_eq
  rw [BitVec.toNat_shiftLeft, BitVec.toNat_ofNat, BitVec.toNat_ofNat, Nat.shiftLeft_eq,
    Nat.mod_mul_mod, pow_one, ← pow_succ]

/-- A ring of the size found is a power of two, of the size needed at least. -/
theorem ringSize_eq {need size : BitVec 32} {left done : ℕ} (hleft : done + left = 32)
    (h : ringSize need left (BitVec.ofNat 32 (2 ^ done)) = some size) :
    ∃ bits < 32, size = BitVec.ofNat 32 (2 ^ bits) ∧ need ≤ size := by
  induction left generalizing done with
  | zero => exact absurd h (by simp [ringSize])
  | succ left ih =>
    rw [ringSize] at h
    by_cases hlt : BitVec.ofNat 32 (2 ^ done) < need
    · rw [if_pos hlt] at h
      rw [doubled] at h
      exact ih (by omega) h
    · rw [if_neg hlt] at h
      have hsize := Option.some.inj h
      exact ⟨done, by omega, hsize.symm, hsize ▸ BitVec.not_lt.1 hlt⟩

/-- The loop ends for a size up to the last power of two. -/
theorem ringSize_isSome {need : BitVec 32} (hneed : need.toNat ≤ 2 ^ 31) {left done : ℕ}
    (hleft : done + left = 32) (hpos : 0 < left) :
    ∃ size, ringSize need left (BitVec.ofNat 32 (2 ^ done)) = some size := by
  induction left generalizing done with
  | zero => omega
  | succ left ih =>
    rw [ringSize, doubled]
    by_cases hlt : BitVec.ofNat 32 (2 ^ done) < need
    · rw [if_pos hlt]
      refine ih (by omega) (Nat.pos_of_ne_zero fun hlast => ?_)
      -- the last size tried is the last power of two
      have hlastDone : done = 31 := by omega
      subst hlastDone
      have := BitVec.lt_def.1 hlt
      rw [BitVec.toNat_ofNat] at this
      omega
    · exact ⟨_, if_neg hlt⟩

/-- `(uint32_t) fx->echo_delay + 8`. -/
def slotsNeeded (p : Platform) (rate : Int32) : BitVec 32 := p.unsigned 32 (echoDelayAt rate) + 8

theorem slotsNeeded_toNat (p : Platform) {rate : Int32} {e : ℚ} (he : echoDelayAt rate = .fin e)
    (hnonneg : 0 ≤ e) : (slotsNeeded p rate).toNat = ⌊e⌋₊ + 8 ∧ ⌊e⌋₊ + 8 ≤ 2 ^ 31 := by
  obtain ⟨e', he', hbound, -⟩ := echoDelayAt_eq rate
  obtain rfl : e = e' := CFloat.fin.inj (he.symm.trans he')
  have hfloor : ⌊e⌋₊ ≤ 2 ^ 28 := Nat.floor_le_of_le (by exact_mod_cast hbound)
  refine ⟨?_, by omega⟩
  rw [slotsNeeded, he, unsigned_fin p hnonneg (hbound.trans_lt (by norm_num)), BitVec.toNat_add,
    BitVec.toNat_ofNat]
  exact (Nat.mod_eq_of_lt (by
    rw [Nat.mod_eq_of_lt (by omega)]
    change ⌊e⌋₊ + 8 < 2 ^ 32
    omega)).trans (by rw [Nat.mod_eq_of_lt (by omega)]; rfl)

theorem sized_ringSize {p : Platform} {rate : Int32} {size : BitVec 32}
    (h : ringSize (slotsNeeded p rate) 32 1 = some size) :
    ∃ bits, Sized bits (List.replicate size.toNat (.fin 0)) (size - 1) (echoDelayAt rate) := by
  obtain ⟨bits, hbits, rfl, hneed⟩ := @ringSize_eq _ _ 32 0 (by norm_num) h
  have hpow : 2 ^ bits < 2 ^ 32 := Nat.pow_lt_pow_right (by norm_num) hbits
  have hsize : (BitVec.ofNat 32 (2 ^ bits)).toNat = 2 ^ bits := by
    rw [BitVec.toNat_ofNat, Nat.mod_eq_of_lt hpow]
  refine ⟨bits, hbits, by rw [List.length_replicate, hsize], ?_, fun e he hnonneg => ?_⟩
  · have hpos := Nat.two_pow_pos bits
    apply BitVec.eq_of_toNat_eq
    rw [lowMask, BitVec.toNat_ofNat, BitVec.toNat_sub, hsize]
    change (2 ^ 32 - 1 + 2 ^ bits) % 2 ^ 32 = _
    omega
  · have hle := BitVec.le_def.1 hneed
    rw [hsize, (slotsNeeded_toNat p he hnonneg).1] at hle
    exact hle

/-! ### The effect -/

section

variable (p : Platform)

/-- `jarvis_fx_reset`. -/
def jarvisFxReset (fx : JarvisFx) : JarvisFx :=
  { fx with
    ring := List.replicate fx.ring.length (.fin 0)
    pos := 0
    leak := jarvisPathInit p jarvisLeak fx.sampleRate
    echo := jarvisPathInit p jarvisEcho fx.sampleRate
    chorus := jarvisPathInit p jarvisChorus fx.sampleRate
    voices := jarvisVoices.map (jarvisVoiceInit p fx.sampleRate)
    sized := sized_fill fx (.fin 0) }

/-- `jarvis_fx_new`, none when it never returns. -/
def jarvisFxNew (rate : Int32) : Option JarvisFx :=
  match h : ringSize (slotsNeeded p rate) 32 1 with
  | none => none
  | some size => some (jarvisFxReset p
      { sampleRate := cfloatOf rate.toInt
        ring := List.replicate size.toNat (.fin 0)
        mask := size - 1
        pos := 0
        echoDelay := echoDelayAt rate
        leak := {}
        echo := {}
        chorus := {}
        voices := [{}, {}]
        sized := sized_ringSize h })

/-- The samples that `jarvis_read` takes. -/
structure Taps where
  xm1 : CFloat
  x0 : CFloat
  x1 : CFloat
  x2 : CFloat

/-- The four of them, for a delay. -/
def jarvisTaps (fx : JarvisFx) (delay : CFloat) : Taps :=
  let i := fx.pos - p.unsigned 32 (floorf delay) - 2
  ⟨fx.tap (i - 1), fx.tap i, fx.tap (i + 1), fx.tap (i + 2)⟩

/-- `jarvis_read`. -/
def jarvisRead (fx : JarvisFx) (delay : CFloat) : CFloat :=
  let fd := floorf delay
  let t := 1.0 - (delay - fd)
  let ⟨xm1, x0, x1, x2⟩ := jarvisTaps p fx delay
  let c1 := 0.5 * (x1 - xm1)
  let c2 := xm1 - 2.5 * x0 + 2.0 * x1 - 0.5 * x2
  let c3 := 0.5 * (x2 - xm1) + 1.5 * (x0 - x1)
  ((c3 * t + c2) * t + c1) * t + x0

/-- A sample goes into the ring. -/
def jarvisWrite (fx : JarvisFx) (x : CFloat) : JarvisFx :=
  { fx with
    ring := fx.ring.set (slot fx.mask fx.pos) x
    pos := fx.pos + 1
    sized := sized_set fx _ x }

/-- The loop over the voices, from what they gave so far. -/
def runVoices (fx : JarvisFx) : List JarvisVoice → CFloat → CFloat × List JarvisVoice
  | [], ch => (ch, [])
  | v :: voices, ch =>
    let (ch, voices) := runVoices fx voices (ch + v.amp * jarvisRead p fx (v.center + v.depth * v.s))
    (ch, v.turn :: voices)

/-- The body of the loop of `jarvis_fx_process`. -/
def jarvisSample (fx : JarvisFx) (x : CFloat) : CFloat × JarvisFx :=
  let fx := jarvisWrite fx x
  let (ch, voices) := runVoices p fx fx.voices 0.0
  let (leaked, leak) := fx.leak.run x
  let (echoed, echo) := fx.echo.run (jarvisRead p fx fx.echoDelay)
  let (sung, chorus) := fx.chorus.run ch
  (x + leaked + echoed + sung,
    { fx with voices := voices, leak := leak, echo := echo, chorus := chorus })

/-- The loop. -/
def jarvisSamples (fx : JarvisFx) : List CFloat → List CFloat × JarvisFx
  | [] => ([], fx)
  | x :: pcm =>
    let (y, fx) := jarvisSample p fx x
    let (out, fx) := jarvisSamples fx pcm
    (y :: out, fx)

/-- `jarvis_fx_process`. -/
def jarvisFxProcess (fx : JarvisFx) (pcm : List CFloat) : List CFloat × JarvisFx :=
  let (out, fx) := jarvisSamples p fx pcm
  (out, { fx with voices := fx.voices.map (JarvisVoice.settle p) })

/-- `jarvis_fx_tail`. -/
def jarvisFxTail (fx : JarvisFx) : BitVec 64 := p.unsigned 64 (ceilf fx.echoDelay) + 2

end

end Jarvis
end S2S
