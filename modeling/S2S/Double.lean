/-
# Numbers of 53 bits

A `double` keeps 53 significant bits: the result of an operation is the exact
one rounded to the nearest such number, the even one of two as near
(`toDouble`).  The numbers here are positive and far from both ends of the range
of exponents, so an exponent is any integer and there is no infinity.

What is used of it is how far rounding goes (`abs_toDouble_sub_le`), the whole
numbers it keeps (`toDouble_natCast`) and when the ceiling of a rounded quotient
is the ceiling of the quotient (`ceil_toDouble_div`).
-/

import Mathlib.Data.Int.Log
import Mathlib.Data.Rat.Floor
import Mathlib.Tactic.FieldSimp
import Mathlib.Tactic.Linarith
import Mathlib.Tactic.Positivity

namespace S2S

/-- The nearest integer, the even one of two as near. -/
def roundEven (x : ℚ) : ℤ :=
  if x - ⌊x⌋ < 1 / 2 then ⌊x⌋
  else if 1 / 2 < x - ⌊x⌋ then ⌊x⌋ + 1
  else if ⌊x⌋ % 2 = 0 then ⌊x⌋ else ⌊x⌋ + 1

theorem abs_roundEven_sub_le (x : ℚ) : |(roundEven x : ℚ) - x| ≤ 1 / 2 := by
  have hlo := Int.floor_le x
  have hhi := Int.lt_floor_add_one x
  unfold roundEven
  rw [abs_le]
  split_ifs <;> push_cast <;> constructor <;> linarith

@[simp] theorem roundEven_intCast (n : ℤ) : roundEven n = n := by
  simp [roundEven]

/-- The last of the 53 bits of a number. -/
def ulp (x : ℚ) : ℚ := (2 : ℚ) ^ (Int.log 2 x - 52)

theorem ulp_pos (x : ℚ) : 0 < ulp x := by
  exact zpow_pos two_pos _

theorem ulp_le {x : ℚ} (hx : 0 < x) : ulp x ≤ x / 2 ^ 52 := by
  have hlog : (2 : ℚ) ^ Int.log 2 x ≤ x := by
    exact_mod_cast Int.zpow_log_le_self (b := 2) (by norm_num) hx
  have hulp : ulp x = (2 : ℚ) ^ Int.log 2 x / 2 ^ 52 := by
    unfold ulp
    rw [zpow_sub₀ two_ne_zero]
    norm_num
  rw [hulp]
  gcongr

/-- **The nearest number of 53 bits.** -/
def toDouble (x : ℚ) : ℚ := roundEven (x / ulp x) * ulp x

/-- **Rounding moves a number by one part in 2⁵³ at most.** -/
theorem abs_toDouble_sub_le {x : ℚ} (hx : 0 < x) : |toDouble x - x| ≤ x / 2 ^ 53 := by
  have hpos := ulp_pos x
  have hround := abs_roundEven_sub_le (x / ulp x)
  have hsplit : toDouble x - x = (roundEven (x / ulp x) - x / ulp x) * ulp x := by
    unfold toDouble
    field_simp
  calc |toDouble x - x| = |(roundEven (x / ulp x) : ℚ) - x / ulp x| * ulp x := by
        rw [hsplit, abs_mul, abs_of_pos hpos]
    _ ≤ 1 / 2 * (x / 2 ^ 52) := by
        have := ulp_le hx
        gcongr
    _ = x / 2 ^ 53 := by ring

theorem toDouble_pos {x : ℚ} (hx : 0 < x) : 0 < toDouble x := by
  have h := (abs_le.1 (abs_toDouble_sub_le hx)).1
  have : x / 2 ^ 53 < x := div_lt_self hx (by norm_num)
  linarith

/-- **A whole number below 2⁵³ is kept.** -/
theorem toDouble_natCast {n : ℕ} (hn : n < 2 ^ 53) : toDouble n = n := by
  have hlog : Nat.log 2 n ≤ 52 := Nat.lt_succ_iff.1 (Nat.log_lt_of_lt_pow' (by norm_num) hn)
  have hulp : ulp n = ((2 ^ (52 - Nat.log 2 n) : ℤ) : ℚ)⁻¹ := by
    have hexp : (Nat.log 2 n : ℤ) - 52 = -((52 - Nat.log 2 n : ℕ) : ℤ) := by omega
    unfold ulp
    rw [Int.log_natCast, hexp, zpow_neg, zpow_natCast]
    push_cast
    rfl
  have hquot : (n : ℚ) / ulp n = ((n * 2 ^ (52 - Nat.log 2 n) : ℤ) : ℚ) := by
    rw [hulp, div_inv_eq_mul]
    push_cast
    rfl
  unfold toDouble
  rw [hquot, roundEven_intCast, ← hquot, div_mul_cancel₀ _ (ulp_pos _).ne']

/-- **The ceiling of a rounded quotient** of whole numbers is that of the
quotient while the dividend has 53 bits: what is not whole is at least a part in
the divisor away from a whole number, and rounding moves it by less. -/
theorem ceil_toDouble_div {p s : ℕ} (hs : 0 < s) (hp : p < 2 ^ 53) :
    ⌈toDouble ((p : ℚ) / s)⌉ = ⌈(p : ℚ) / s⌉ := by
  have hsq : (0 : ℚ) < s := by exact_mod_cast hs
  have hpq : (p : ℚ) < 2 ^ 53 := by exact_mod_cast hp
  by_cases hdvd : s ∣ p
  · obtain ⟨q, rfl⟩ := hdvd
    have hq : q < 2 ^ 53 := lt_of_le_of_lt (Nat.le_mul_of_pos_left q hs) hp
    have hquot : ((s * q : ℕ) : ℚ) / s = q := by
      push_cast
      field_simp
    rw [hquot, toDouble_natCast hq]
  · have hdiv : (p : ℚ) = s * (p / s : ℕ) + (p % s : ℕ) := by
      exact_mod_cast (Nat.div_add_mod p s).symm
    have hlo : (1 : ℚ) ≤ (p % s : ℕ) := by
      exact_mod_cast Nat.one_le_iff_ne_zero.2 fun h => hdvd (Nat.dvd_of_mod_eq_zero h)
    have hhi : ((p % s : ℕ) : ℚ) + 1 ≤ s := by
      exact_mod_cast Nat.mod_lt p hs
    have hpos : (0 : ℚ) < (p : ℚ) / s := by
      have : (0 : ℚ) < p := by
        have : (0 : ℚ) ≤ s * (p / s : ℕ) := by positivity
        linarith
      positivity
    have hsmall : (p : ℚ) / s / 2 ^ 53 < 1 / s := by
      rw [div_div, div_lt_div_iff₀ (by positivity) hsq]
      nlinarith
    have hquot : (p : ℚ) / s = (p / s : ℕ) + (p % s : ℕ) / (s : ℚ) := by
      rw [hdiv]
      field_simp
    have hbelow : 1 / (s : ℚ) ≤ (p % s : ℕ) / (s : ℚ) := by gcongr
    have habove : ((p % s : ℕ) : ℚ) / s + 1 / s ≤ 1 := by
      rw [← add_div]
      exact div_le_one_of_le₀ hhi hsq.le
    obtain ⟨hfrom, hto⟩ := abs_le.1 (abs_toDouble_sub_le hpos)
    have hceil : ∀ x : ℚ, ((p / s : ℕ) : ℚ) < x → x ≤ (p / s : ℕ) + 1 →
        ⌈x⌉ = ((p / s : ℕ) : ℤ) + 1 := by
      intro x hx hx'
      rw [Int.ceil_eq_iff, Int.cast_add, Int.cast_natCast, Int.cast_one]
      constructor <;> linarith
    rw [hceil _ (by linarith) (by linarith), hceil _ (by linarith) (by linarith)]

/-! ### Formats -/

/-- The nearest number of so many bits, the last of them worth `2 ^ least` at least. -/
def nearest (bits : ℕ) (least : ℤ) (x : ℚ) : ℚ :=
  let unit := (2 : ℚ) ^ max (Int.log 2 |x| - (bits - 1)) least
  roundEven (x / unit) * unit

/-- The nearest `double`. -/
def nearestDouble (x : ℚ) : ℚ := nearest 53 (-1074) x

/-- The nearest `float`. -/
def nearestFloat (x : ℚ) : ℚ := nearest 24 (-149) x

theorem floor_le_roundEven (x : ℚ) : ⌊x⌋ ≤ roundEven x := by
  unfold roundEven
  split_ifs <;> omega

theorem nearest_nonneg {bits : ℕ} {least : ℤ} {x : ℚ} (hx : 0 ≤ x) : 0 ≤ nearest bits least x := by
  have hunit : (0 : ℚ) < 2 ^ max (Int.log 2 |x| - (bits - 1)) least := zpow_pos two_pos _
  have hfloor : 0 ≤ ⌊x / 2 ^ max (Int.log 2 |x| - (bits - 1)) least⌋ := Int.floor_nonneg.2 (by positivity)
  have hround : (0 : ℚ) ≤ roundEven (x / 2 ^ max (Int.log 2 |x| - (bits - 1)) least) := by
    exact_mod_cast hfloor.trans (floor_le_roundEven _)
  exact mul_nonneg hround hunit.le

/-- What is one or more does not round to zero. -/
theorem nearest_pos {bits : ℕ} {least : ℤ} {x : ℚ} (hbits : 1 ≤ bits) (hleast : least ≤ 0)
    (hx : 1 ≤ x) : 0 < nearest bits least x := by
  set unit := (2 : ℚ) ^ max (Int.log 2 |x| - (bits - 1)) least with hunit
  have hpos : 0 < unit := zpow_pos two_pos _
  have habs : |x| = x := abs_of_nonneg (by linarith)
  have hlog : 0 ≤ Int.log 2 |x| := by
    rw [habs, ← Int.log_one_right (R := ℚ) 2]
    exact Int.log_mono_right one_pos hx
  have hle : unit ≤ x := by
    calc unit ≤ (2 : ℚ) ^ Int.log 2 |x| := by
          refine zpow_le_zpow_right₀ one_le_two (max_le ?_ (hleast.trans hlog))
          have : (1 : ℤ) ≤ bits := by exact_mod_cast hbits
          omega
      _ ≤ x := by
          rw [habs]
          exact_mod_cast Int.zpow_log_le_self (b := 2) (by norm_num) (by linarith : 0 < x)
  have hfloor : 1 ≤ ⌊x / unit⌋ := Int.le_floor.2 (by
    rw [Int.cast_one, le_div_iff₀ hpos, one_mul]
    exact hle)
  have hround : (1 : ℚ) ≤ roundEven (x / unit) := by
    exact_mod_cast hfloor.trans (floor_le_roundEven _)
  exact mul_pos (by linarith) hpos

theorem roundEven_le {x : ℚ} {n : ℤ} (h : x ≤ n) : roundEven x ≤ n := by
  rcases h.eq_or_lt with rfl | hlt
  · rw [roundEven_intCast]
  · have hfloor : ⌊x⌋ < n := Int.floor_lt.2 hlt
    unfold roundEven
    split_ifs <;> omega

theorem nearest_zero (bits : ℕ) (least : ℤ) : nearest bits least 0 = 0 := by
  have hround : roundEven 0 = 0 := by exact_mod_cast roundEven_intCast 0
  simp [nearest, hround]

/-- **Rounding passes no power of two.** -/
theorem abs_nearest_le {bits : ℕ} {least n : ℤ} {x : ℚ} (hbits : 1 ≤ bits) (hleast : least ≤ n)
    (hx : |x| ≤ 2 ^ n) : |nearest bits least x| ≤ 2 ^ n := by
  by_cases hzero : x = 0
  · rw [hzero, nearest_zero, abs_zero]
    exact (zpow_pos two_pos n).le
  set e := max (Int.log 2 |x| - (bits - 1)) least with he
  have hlog : Int.log 2 |x| ≤ n := by
    have hle : ((2 : ℕ) : ℚ) ^ Int.log 2 |x| ≤ 2 ^ n :=
      (Int.zpow_log_le_self (by norm_num) (abs_pos.2 hzero)).trans hx
    rw [Nat.cast_ofNat] at hle
    exact (zpow_le_zpow_iff_right₀ (by norm_num : (1 : ℚ) < 2)).1 hle
  have hen : e ≤ n := by
    have : (1 : ℤ) ≤ bits := by exact_mod_cast hbits
    omega
  have hunit : (0 : ℚ) < 2 ^ e := zpow_pos two_pos _
  -- the power of two is a whole number of units
  have hwhole : (2 : ℚ) ^ n = ((2 ^ (n - e).toNat : ℤ) : ℚ) * 2 ^ e := by
    have hsplit : n = ((n - e).toNat : ℤ) + e := by omega
    conv_lhs => rw [hsplit, zpow_add₀ two_ne_zero, zpow_natCast]
    push_cast
    rfl
  obtain ⟨hlo, hhi⟩ := abs_le.1 hx
  rw [hwhole] at hlo hhi ⊢
  have hround : |(roundEven (x / 2 ^ e) : ℚ)| ≤ ((2 ^ (n - e).toNat : ℤ) : ℚ) := by
    rw [abs_le]
    constructor
    · have hbelow : -(2 ^ (n - e).toNat : ℤ) ≤ ⌊x / 2 ^ e⌋ := Int.le_floor.2 (by
        rw [Int.cast_neg, le_div_iff₀ hunit, neg_mul]
        exact hlo)
      exact_mod_cast hbelow.trans (floor_le_roundEven _)
    · exact_mod_cast roundEven_le (by
        rw [div_le_iff₀ hunit]
        exact hhi)
  calc |nearest bits least x| = |(roundEven (x / 2 ^ e) : ℚ)| * 2 ^ e := by
        rw [nearest, ← he, abs_mul, abs_of_pos hunit]
    _ ≤ _ := mul_le_mul_of_nonneg_right hround hunit.le

/-- **A whole number of so many bits is kept.** -/
theorem nearest_natCast {bits : ℕ} {least : ℤ} {n : ℕ} (hleast : least ≤ 0) (hn : n < 2 ^ bits) :
    nearest bits least n = n := by
  by_cases hzero : n = 0
  · rw [hzero, Nat.cast_zero, nearest_zero]
  set e := max (Int.log 2 |(n : ℚ)| - (bits - 1)) least with he
  have hexp : e ≤ 0 := by
    have hlog : Nat.log 2 n < bits := Nat.log_lt_of_lt_pow hzero hn
    rw [he, abs_of_nonneg (Nat.cast_nonneg n), Int.log_natCast]
    omega
  have hunit : (2 : ℚ) ^ e = ((2 ^ (-e).toNat : ℤ) : ℚ)⁻¹ := by
    have hneg : e = -((-e).toNat : ℤ) := by omega
    conv_lhs => rw [hneg, zpow_neg, zpow_natCast]
    push_cast
    rfl
  have hquot : (n : ℚ) / 2 ^ e = ((n * 2 ^ (-e).toNat : ℤ) : ℚ) := by
    rw [hunit, div_inv_eq_mul]
    push_cast
    rfl
  rw [nearest, ← he, hquot, roundEven_intCast, ← hquot, div_mul_cancel₀ _ (zpow_pos two_pos e).ne']

end S2S
