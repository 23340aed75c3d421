/-
# How many samples the resampler writes

`target` is counted in `double`.  Two roundings move it by little (`close`): it
stays below what the windows of the padded buffer give (`target_le_total`) and
above what the windows of the input alone give (`windows_le_target`), for every
input of an `int` length.  It is the ceiling itself while the product has 53 bits
(`targetLength_exact`).
-/

import S2S.Resample.Basic
import S2S.Windows
import Mathlib.Data.Nat.Cast.Field
import Mathlib.Tactic.Linarith
import Mathlib.Tactic.FieldSimp
import Mathlib.Tactic.Positivity

namespace S2S
namespace Resample

/-- The width of the kernel is a sample at least. -/
theorem filterWidth_pos {orig newf : ℕ} (ho : 0 < orig) (hf : 0 < newf) :
    0 < filterWidth orig newf := by
  have hroll : 0 < rolloff := toDouble_pos (by norm_num)
  have hmin : (0 : ℚ) < (if orig < newf then orig else newf : ℕ) := by
    split_ifs <;> positivity
  have hbase := toDouble_pos (mul_pos hmin hroll)
  have hsix : (0 : ℚ) < (lpfw * orig : ℕ) := by
    unfold lpfw
    positivity
  have hquot := toDouble_pos (div_pos (toDouble_pos hsix) hbase)
  unfold filterWidth
  exact Int.lt_toNat.2 (Int.ceil_pos.2 hquot)

/-- The rates without their common factor. -/
structure Reduced (srIn srOut orig newf : ℕ) : Prop where
  orig_pos : 0 < orig
  newf_pos : 0 < newf
  ratio : (srOut : ℚ) / srIn = newf / orig

theorem reduced {srIn srOut : ℕ} (hin : 0 < srIn) (hout : 0 < srOut) :
    Reduced srIn srOut (srIn / Nat.gcd srIn srOut) (srOut / Nat.gcd srIn srOut) := by
  have hgcd : 0 < Nat.gcd srIn srOut := Nat.gcd_pos_of_pos_left _ hin
  have hgq : (Nat.gcd srIn srOut : ℚ) ≠ 0 := by exact_mod_cast hgcd.ne'
  refine ⟨Nat.div_gcd_pos_of_pos_left _ hin, Nat.div_gcd_pos_of_pos_right _ hout, ?_⟩
  rw [Nat.cast_div (Nat.gcd_dvd_right _ _) hgq, Nat.cast_div (Nat.gcd_dvd_left _ _) hgq,
    div_div_div_cancel_right₀ hgq]

variable {n srIn srOut orig newf : ℕ}

theorem Reduced.exact_eq (hred : Reduced srIn srOut orig newf) :
    ((srOut * n : ℕ) : ℚ) / srIn = newf / orig * n := by
  rw [← hred.ratio]
  push_cast
  ring

/-- **Two roundings move the length by one part in 2⁵¹ at most.** -/
theorem close (hn : 0 < n) (hin : 0 < srIn) (hout : 0 < srOut) :
    let exact : ℚ := (srOut * n : ℕ) / srIn
    |toDouble (toDouble (srOut * n : ℕ) / srIn) - exact| ≤ exact / 2 ^ 51 := by
  intro exact
  have hprod : (0 : ℚ) < (srOut * n : ℕ) := by positivity
  have hinq : (0 : ℚ) < srIn := by exact_mod_cast hin
  have hexact : 0 < exact := div_pos hprod hinq
  have hround := toDouble_pos hprod
  obtain ⟨hlo, hhi⟩ := abs_le.1 (abs_toDouble_sub_le hprod)
  obtain ⟨hlo', hhi'⟩ := abs_le.1 (abs_toDouble_sub_le (div_pos hround hinq))
  have hquotLo : exact - exact / 2 ^ 53 ≤ toDouble (srOut * n : ℕ) / srIn := by
    have : exact - exact / 2 ^ 53 = ((srOut * n : ℕ) - (srOut * n : ℕ) / 2 ^ 53) / srIn := by
      simp only [exact]
      ring
    rw [this]
    gcongr
    linarith
  have hquotHi : toDouble (srOut * n : ℕ) / srIn ≤ exact + exact / 2 ^ 53 := by
    have : exact + exact / 2 ^ 53 = ((srOut * n : ℕ) + (srOut * n : ℕ) / 2 ^ 53) / srIn := by
      simp only [exact]
      ring
    rw [this]
    gcongr
    linarith
  rw [abs_le]
  constructor <;> linarith

theorem targetLength_pos (hn : 0 < n) (hin : 0 < srIn) (hout : 0 < srOut) :
    0 < targetLength n srIn srOut := by
  have hinq : (0 : ℚ) < srIn := by exact_mod_cast hin
  exact Int.ceil_pos.2 (toDouble_pos (div_pos (toDouble_pos (by positivity)) hinq))

/-- The part of an output an `int` of inputs can be off by. -/
theorem exact_part (hred : Reduced srIn srOut orig newf) (hn : n ≤ intMax) :
    ((srOut * n : ℕ) : ℚ) / srIn / 2 ^ 51 ≤ newf / orig := by
  have hnq : (n : ℚ) ≤ 2 ^ 51 := by
    have : n ≤ 2 ^ 51 := le_trans hn (by unfold intMax; norm_num)
    exact_mod_cast this
  rw [hred.exact_eq, mul_div_assoc]
  exact mul_le_of_le_one_right (by positivity) ((div_le_one (by norm_num)).2 hnq)

/-- **The padded buffer has a window for every sample of the output.** -/
theorem target_le_total (hred : Reduced srIn srOut orig newf) (hn : 0 < n) (hmax : n ≤ intMax)
    (hin : 0 < srIn) (hout : 0 < srOut) :
    targetLength n srIn srOut ≤ ((n / orig + 1) * newf : ℕ) := by
  have ho : (0 : ℚ) < orig := by exact_mod_cast hred.orig_pos
  have hclose := (abs_le.1 (close hn hin hout)).2
  have hpart := exact_part hred hmax
  rw [hred.exact_eq] at hclose hpart
  have hwindows : ((n : ℚ) + 1) / orig ≤ (n / orig + 1 : ℕ) := by
    rw [div_le_iff₀ ho]
    have := Nat.lt_div_mul_add (a := n) hred.orig_pos
    exact_mod_cast (by rw [Nat.succ_mul]; omega : n + 1 ≤ (n / orig + 1) * orig)
  refine Int.ceil_le.2 ?_
  calc toDouble (toDouble (srOut * n : ℕ) / srIn)
      ≤ newf / orig * n + newf / orig := by linarith
    _ = (n + 1) / orig * newf := by ring
    _ ≤ (n / orig + 1 : ℕ) * newf := by gcongr
    _ = (((n / orig + 1) * newf : ℕ) : ℤ) := by push_cast; rfl

/-- **What the windows of the input give is part of the output.** -/
theorem windows_le_target (hred : Reduced srIn srOut orig newf) (hn : 0 < n) (hmax : n ≤ intMax)
    (hin : 0 < srIn) (hout : 0 < srOut) {width : ℕ} (hw : 0 < width) :
    (windowCount (2 * width + orig) orig (width + n) * newf : ℕ) ≤ targetLength n srIn srOut := by
  have ho : (0 : ℚ) < orig := by exact_mod_cast hred.orig_pos
  rcases Nat.eq_zero_or_pos (windowCount (2 * width + orig) orig (width + n)) with h | h
  · rw [h]
    have := targetLength_pos hn hin hout
    omega
  · have hlast := (lt_windowCount_iff hred.orig_pos).1 (Nat.sub_lt h one_pos)
    have hcount : windowCount (2 * width + orig) orig (width + n) * orig + 1 ≤ n := by
      have hmul := Nat.succ_mul (windowCount (2 * width + orig) orig (width + n) - 1) orig
      rw [Nat.succ_eq_add_one, Nat.sub_add_cancel h] at hmul
      omega
    have hcountq : (windowCount (2 * width + orig) orig (width + n) : ℚ) ≤ (n - 1) / orig := by
      rw [le_div_iff₀ ho, le_sub_iff_add_le]
      exact_mod_cast hcount
    have hclose := (abs_le.1 (close hn hin hout)).1
    have hpart := exact_part hred hmax
    rw [hred.exact_eq] at hclose hpart
    have hbelow : ((windowCount (2 * width + orig) orig (width + n) * newf : ℕ) : ℚ) ≤
        toDouble (toDouble (srOut * n : ℕ) / srIn) := by
      calc ((windowCount (2 * width + orig) orig (width + n) * newf : ℕ) : ℚ)
          ≤ (n - 1) / orig * newf := by push_cast; gcongr
        _ = newf / orig * n - newf / orig := by ring
        _ ≤ toDouble (toDouble (srOut * n : ℕ) / srIn) := by linarith
    have hceil := le_trans hbelow (Int.le_ceil (toDouble (toDouble (srOut * n : ℕ) / srIn)))
    unfold targetLength
    exact_mod_cast hceil

/-- **The length is the ceiling** while the product has 53 bits. -/
theorem targetLength_exact (hin : 0 < srIn) (hprod : srOut * n < 2 ^ 53) :
    targetLength n srIn srOut = ⌈((srOut * n : ℕ) : ℚ) / srIn⌉ := by
  unfold targetLength
  rw [toDouble_natCast hprod]
  exact ceil_toDouble_div hin hprod

end Resample
end S2S
