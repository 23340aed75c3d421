/-
# Samples in text frames

`rt_pcm16_to_float` and `rt_float_to_pcm16_base64` of `src/realtime-proto.h`: a
sample of the protocol is a `float` between -1 and 1 on both sides and 16 bits in
little endian on its way.  It is scaled by 32767 and loses its fraction, and is
divided by 32768 on the other side.

So a sample comes back within two of those units (`pcm16_round_trip`).  The
arithmetic is that of `float`, and a NaN has no conversion.
-/

import S2S.Arithmetic
import S2S.Realtime.Base64

namespace S2S
namespace Realtime

open Json Llm Models Update

/-! ### The code -/

/-- A value held between -1 and 1. -/
def clampUnit (value : CFloat) : CFloat :=
  if cfloatLt (.fin 1) value then .fin 1
  else if cfloatLt value (.fin (-1)) then .fin (-1) else value

/-- The sample of `rt_float_to_pcm16_base64`. -/
def pcm16Of (value : CFloat) : Option (BitVec 16) := toSigned 16 (clampUnit value * .fin 32767)

/-- Its two bytes. -/
def pcm16Bytes (sample : BitVec 16) : Bytes :=
  [⟨(sample &&& 0xFF).setWidth 8⟩, ⟨((sample >>> 8) &&& 0xFF).setWidth 8⟩]

/-- `rt_float_to_pcm16_base64`. -/
def rtFloatToPcm16Base64 (pcm : List CFloat) : Option Bytes :=
  (pcm.mapM pcm16Of).map fun samples => rtBase64Encode (samples.flatMap pcm16Bytes)

/-- The sample of two bytes. -/
def sampleOf (low high : UInt8) : BitVec 16 :=
  low.toBitVec.setWidth 16 ||| high.toBitVec.setWidth 16 <<< 8

/-- `rt_pcm16_to_float`. -/
def rtPcm16ToFloat : Bytes → List CFloat
  | low :: high :: bytes =>
    cfloatOf (sampleOf low high).toInt / .fin 32768 :: rtPcm16ToFloat bytes
  | _ => []

/-! ### Bytes -/

theorem sampleOf_bytes (sample : BitVec 16) :
    ∃ low high, pcm16Bytes sample = [low, high] ∧ sampleOf low high = sample := by
  refine ⟨_, _, rfl, BitVec.eq_of_getLsbD_eq fun i hi => ?_⟩
  have hmask : ∀ j < 8, (0xFF : BitVec 16).getLsbD j = true := by decide
  by_cases hlow : i < 8
  · simp only [sampleOf, BitVec.getLsbD_or, BitVec.getLsbD_setWidth, BitVec.getLsbD_and,
      BitVec.getLsbD_shiftLeft, hi, hlow, hmask i hlow, decide_true, Bool.and_true, Bool.true_and,
      Bool.not_true, Bool.false_and, Bool.and_false, Bool.or_false]
  · have hshift : 8 + (i - 8) = i := by omega
    have hrest : i - 8 < 8 := by omega
    have hnear : i - 8 < 16 := by omega
    simp only [sampleOf, BitVec.getLsbD_or, BitVec.getLsbD_setWidth, BitVec.getLsbD_and,
      BitVec.getLsbD_shiftLeft, BitVec.getLsbD_ushiftRight, hi, hlow, hrest, hnear, hshift,
      hmask (i - 8) hrest, decide_true, decide_false, Bool.and_true, Bool.true_and, Bool.not_false,
      Bool.false_and, Bool.false_or]

theorem rtPcm16ToFloat_bytes (samples : List (BitVec 16)) :
    rtPcm16ToFloat (samples.flatMap pcm16Bytes) =
      samples.map fun sample => cfloatOf sample.toInt / .fin 32768 := by
  induction samples with
  | nil => rfl
  | cons sample samples ih =>
    obtain ⟨low, high, hbytes, hsample⟩ := sampleOf_bytes sample
    rw [List.flatMap_cons, hbytes, List.map_cons, ← ih, ← hsample]
    rfl

/-- A text that nothing happened to. -/
theorem rtBase64Decode_encode (data : Bytes) : rtBase64Decode (rtBase64Encode data) = data := by
  have hstart : ({} : Decoding).Live [] 0 0 := ⟨rfl, rfl, by decide⟩
  rw [rtBase64Decode, foldl_step]
  exact feed_encode data hstart

/-! ### Numbers -/

/-- **A sample is read as it is.** -/
theorem read_sample (sample : BitVec 16) :
    cfloatOf sample.toInt / .fin 32768 = .fin (sample.toInt / 32768) := by
  have hlo : -32768 ≤ sample.toInt := BitVec.le_toInt sample
  have hhi : sample.toInt < 32768 := BitVec.toInt_lt
  have habs : |(sample.toInt : ℚ)| ≤ 32768 := by
    rw [abs_le]
    exact ⟨by exact_mod_cast hlo, by exact_mod_cast hhi.le⟩
  have hbits : |sample.toInt| < 2 ^ 24 := by
    rw [abs_lt]
    omega
  have hwhole : cfloatOf sample.toInt = .fin sample.toInt := by
    have hdyadic := cfloatOf_dyadic (e := 0) (by norm_num) hbits (by
      rw [zpow_zero, mul_one]
      exact habs.trans (by norm_num))
    rwa [zpow_zero, mul_one] at hdyadic
  have hpart : (sample.toInt : ℚ) / 32768 = sample.toInt * 2 ^ (-15 : ℤ) := by
    rw [zpow_neg, div_eq_mul_inv]
    norm_num
  have hsmall : |(sample.toInt : ℚ) * 2 ^ (-15 : ℤ)| ≤ 2 ^ 20 := by
    rw [← hpart, abs_div, abs_of_pos (by norm_num : (0 : ℚ) < 32768), div_le_iff₀ (by norm_num)]
    exact habs.trans (by norm_num)
  rw [hwhole, div_fin _ (by norm_num), hpart, cfloatOf_dyadic (by norm_num) hbits hsmall]

/-- The number a sample stands for, none for a NaN. -/
def unitValue : CFloat → Option ℚ
  | .fin x => some (max (-1) (min 1 x))
  | .inf negative => some (if negative then -1 else 1)
  | .nan => none

theorem clampUnit_eq {value : CFloat} {v : ℚ} (h : unitValue value = some v) :
    clampUnit value = .fin v ∧ |v| ≤ 1 := by
  cases value with
  | nan => cases h
  | inf negative =>
    cases h
    cases negative <;> simp [clampUnit, cfloatLt]
  | fin x =>
    cases h
    constructor
    · unfold clampUnit cfloatLt
      by_cases hhigh : 1 < x
      · simp [hhigh, min_eq_left hhigh.le]
      · by_cases hlow : x < -1
        · simp [hhigh, hlow, min_eq_right (not_lt.1 hhigh), max_eq_left hlow.le]
        · simp [hhigh, hlow, min_eq_right (not_lt.1 hhigh), max_eq_right (not_lt.1 hlow)]
    · rw [abs_le]
      exact ⟨le_max_left _ _, max_le (by norm_num) (min_le_left _ _)⟩

/-- What is scaled is rounded by less than a thousandth. -/
theorem abs_nearestFloat_sub_le {x : ℚ} (hx : |x| ≤ 32767) :
    |nearestFloat x - x| ≤ 1 / 2 ^ 10 := by
  by_cases hzero : x = 0
  · rw [hzero, nearestFloat, nearest_zero, sub_zero, abs_zero]
    positivity
  have hlog : Int.log 2 |x| < 15 := by
    refine (Int.lt_zpow_iff_log_lt (by norm_num) (abs_pos.2 hzero)).1 (hx.trans_lt ?_)
    norm_num
  have hunit : max (Int.log 2 |x| - ((24 : ℕ) - 1)) (-149) ≤ -9 := by omega
  have hpower : (2 : ℚ) ^ max (Int.log 2 |x| - ((24 : ℕ) - 1)) (-149) ≤ 2 ^ (-9 : ℤ) :=
    zpow_le_zpow_right₀ one_le_two hunit
  calc |nearestFloat x - x| ≤ 2 ^ max (Int.log 2 |x| - ((24 : ℕ) - 1)) (-149) / 2 :=
        abs_nearest_sub_le 24 (-149) x
    _ ≤ 2 ^ (-9 : ℤ) / 2 := by gcongr
    _ = 1 / 2 ^ 10 := by norm_num [zpow_neg]

/-- **A sample is written within a unit of what it is scaled to.** -/
theorem write_sample {value : CFloat} {v : ℚ} (h : unitValue value = some v) :
    ∃ sample, pcm16Of value = some sample ∧ |(sample.toInt : ℚ) - 32767 * v| < 1 + 1 / 2 ^ 10 ∧
      |(sample.toInt : ℚ)| ≤ 32767 ∧ (v = 0 → sample.toInt = 0) := by
  obtain ⟨hclamp, hv⟩ := clampUnit_eq h
  have hscaled : |v * 32767| ≤ 32767 := by
    rw [abs_mul, abs_of_pos (by norm_num : (0 : ℚ) < 32767)]
    linarith
  obtain ⟨hround, -⟩ := cfloatOf_eq_fin 20 (by norm_num)
    (hscaled.trans (by norm_num : (32767 : ℚ) ≤ 2 ^ 20))
  set y := nearestFloat (v * 32767) with hy
  have hclose : |y - v * 32767| ≤ 1 / 2 ^ 10 := abs_nearestFloat_sub_le hscaled
  obtain ⟨hcut, hle⟩ := truncate_spec y
  have hyabs : |y| < 32768 := by
    rw [abs_le] at hclose hscaled
    rw [abs_lt]
    constructor <;> linarith
  have hwhole : |truncate y| ≤ 32767 := by
    have hlt : (|truncate y| : ℚ) < 32768 := hle.trans_lt hyabs
    have hint : |truncate y| < 32768 := by exact_mod_cast hlt
    omega
  obtain ⟨hlow, hhigh⟩ := abs_le.1 hwhole
  have hback : (BitVec.ofInt 16 (truncate y)).toInt = truncate y :=
    BitVec.toInt_ofInt_eq_self (by decide) (by omega) (by omega)
  refine ⟨BitVec.ofInt 16 (truncate y), ?_, ?_, ?_, ?_⟩
  · obtain ⟨hfrom, hto⟩ := abs_lt.1 hyabs
    rw [pcm16Of, hclamp, mul_fin, hround, toSigned, if_pos]
    constructor <;> norm_num <;> linarith
  · rw [hback]
    calc |(truncate y : ℚ) - 32767 * v| = |(truncate y - y) + (y - v * 32767)| := by
          congr 1
          ring
      _ ≤ |(truncate y : ℚ) - y| + |y - v * 32767| := abs_add_le _ _
      _ < 1 + 1 / 2 ^ 10 := add_lt_add_of_lt_of_le hcut hclose
  · rw [hback]
    exact_mod_cast hwhole
  · rintro rfl
    rw [hback, hy, zero_mul, nearestFloat, nearest_zero]
    decide

/-! ### The way there and back -/

/-- What becomes of a sample on its way: it stays within two units and a bit of what it was held to,
below one, and silence stays silent. -/
def Survives (sent received : CFloat) : Prop :=
  ∃ v r, unitValue sent = some v ∧ received = .fin r ∧ |r - v| < 2 / 2 ^ 15 + 1 / 2 ^ 25 ∧ |r| < 1 ∧
    (v = 0 → r = 0)

theorem survives_sample {value : CFloat} (h : value ≠ .nan) :
    ∃ sample, pcm16Of value = some sample ∧
      Survives value (cfloatOf sample.toInt / .fin 32768) := by
  obtain ⟨v, hv⟩ : ∃ v, unitValue value = some v := by
    cases value with
    | nan => exact absurd rfl h
    | inf negative => exact ⟨_, rfl⟩
    | fin x => exact ⟨_, rfl⟩
  obtain ⟨-, hunit⟩ := clampUnit_eq hv
  obtain ⟨sample, hsample, hclose, hbound, hsilent⟩ := write_sample hv
  refine ⟨sample, hsample, v, sample.toInt / 32768, hv, read_sample sample, ?_, ?_, ?_⟩
  · obtain ⟨hlow, hhigh⟩ := abs_le.1 hunit
    obtain ⟨hfrom, hto⟩ := abs_lt.1 hclose
    rw [abs_lt]
    constructor <;> linarith
  · rw [abs_div, abs_of_pos (by norm_num : (0 : ℚ) < 32768), div_lt_one (by norm_num)]
    linarith
  · intro hzero
    rw [hsilent hzero, Int.cast_zero, zero_div]

/-- **Samples come back**: where none is a NaN the text is written, and it is read as so many
samples, each of them what the one at its place survives as. -/
theorem pcm16_round_trip {pcm : List CFloat} (h : CFloat.nan ∉ pcm) :
    ∃ text, rtFloatToPcm16Base64 pcm = some text ∧
      List.Forall₂ Survives pcm (rtPcm16ToFloat (rtBase64Decode text)) := by
  have hwritten : ∃ samples, pcm.mapM pcm16Of = some samples ∧ List.Forall₂ Survives pcm
      (samples.map fun sample => cfloatOf sample.toInt / .fin 32768) := by
    induction pcm with
    | nil => exact ⟨[], rfl, .nil⟩
    | cons value pcm ih =>
      obtain ⟨hvalue, hrest⟩ := not_or.1 (mt List.mem_cons.2 h)
      obtain ⟨sample, hsample, hsurvives⟩ := survives_sample (Ne.symm hvalue)
      obtain ⟨samples, hsamples, hall⟩ := ih hrest
      exact ⟨sample :: samples, by simp [hsample, hsamples], .cons hsurvives hall⟩
  obtain ⟨samples, hsamples, hall⟩ := hwritten
  refine ⟨rtBase64Encode (samples.flatMap pcm16Bytes), ?_, ?_⟩
  · rw [rtFloatToPcm16Base64, hsamples]
    rfl
  · rw [rtBase64Decode_encode, rtPcm16ToFloat_bytes]
    exact hall

/-- Silence, and more than there is room for. -/
theorem pcm16_round_trip_loud : ∃ text,
    rtFloatToPcm16Base64 [.fin 0, .fin 2, .inf true] = some text ∧
      List.Forall₂ Survives [.fin 0, .fin 2, .inf true] (rtPcm16ToFloat (rtBase64Decode text)) :=
  pcm16_round_trip (by decide)

end Realtime
end S2S
