/-
# Arithmetic of `float` and `double`

An operation on finite numbers gives the exact result rounded to its format, an
infinity past the largest number; the other cases are those of IEEE 754, with
one zero.  A `double` has the same kinds of values as a `float` and rounds to 53
bits; widening is exact, narrowing rounds once more.

A conversion to an integer drops the fraction, and is defined where what is left
is in the range of the integer.
-/

import S2S.Models.Strtof
import S2S.Update.Frame

namespace S2S

open Llm Models Update

/-! ### Operations -/

/-- `x + y`, in a format. -/
def addIn (round : ℚ → CFloat) : CFloat → CFloat → CFloat
  | .nan, _ => .nan
  | _, .nan => .nan
  | .inf a, .inf b => if a = b then .inf a else .nan
  | .inf a, .fin _ => .inf a
  | .fin _, .inf b => .inf b
  | .fin x, .fin y => round (x + y)

/-- `x * y`, in a format. -/
def mulIn (round : ℚ → CFloat) : CFloat → CFloat → CFloat
  | .nan, _ => .nan
  | _, .nan => .nan
  | .inf a, .inf b => .inf (a != b)
  | .inf a, .fin y => if y = 0 then .nan else .inf (a != decide (y < 0))
  | .fin x, .inf b => if x = 0 then .nan else .inf (decide (x < 0) != b)
  | .fin x, .fin y => round (x * y)

/-- `x / y`, in a format. -/
def divIn (round : ℚ → CFloat) : CFloat → CFloat → CFloat
  | .nan, _ => .nan
  | _, .nan => .nan
  | .inf _, .inf _ => .nan
  | .inf a, .fin y => .inf (a != decide (y < 0))
  | .fin _, .inf _ => .fin 0
  | .fin x, .fin y =>
    if y = 0 then if x = 0 then .nan else .inf (decide (x < 0))
    else round (x / y)

/-- `floorf`. -/
def floorf : CFloat → CFloat
  | .fin x => .fin ⌊x⌋
  | x => x

/-- `ceilf`. -/
def ceilf : CFloat → CFloat
  | .fin x => .fin ⌈x⌉
  | x => x

/-- A conversion to an unsigned integer, none for a number it is not defined for. -/
def toUnsigned (w : ℕ) : CFloat → Option (BitVec w)
  | .fin x => if -1 < x ∧ x < 2 ^ w then some (BitVec.ofInt w (truncate x)) else none
  | _ => none

/-- A conversion to a signed integer, none for a number it is not defined for. -/
def toSigned (w : ℕ) : CFloat → Option (BitVec w)
  | .fin x =>
    if -2 ^ (w - 1) - 1 < x ∧ x < 2 ^ (w - 1) then some (BitVec.ofInt w (truncate x)) else none
  | _ => none

/-! ### `float` -/

instance : Add CFloat := ⟨addIn cfloatOf⟩
instance : Sub CFloat := ⟨fun x y => addIn cfloatOf x (cfloatNeg y)⟩
instance : Mul CFloat := ⟨mulIn cfloatOf⟩
instance : Div CFloat := ⟨divIn cfloatOf⟩
instance : Neg CFloat := ⟨cfloatNeg⟩

/-- A literal `float`. -/
instance : OfScientific CFloat := ⟨fun mantissa negative exponent =>
  cfloatOf (OfScientific.ofScientific mantissa negative exponent)⟩

/-! ### `double` -/

/-- A C `double`. -/
structure CDouble where
  value : CFloat
  deriving DecidableEq, Repr

/-- The nearest `double`, and an infinity past the largest one. -/
def cdoubleOf (q : ℚ) : CFloat :=
  if (2 : ℚ) ^ 1024 ≤ |nearestDouble q| then .inf (decide (q < 0)) else .fin (nearestDouble q)

instance : Add CDouble := ⟨fun x y => ⟨addIn cdoubleOf x.value y.value⟩⟩
instance : Sub CDouble := ⟨fun x y => ⟨addIn cdoubleOf x.value (cfloatNeg y.value)⟩⟩
instance : Mul CDouble := ⟨fun x y => ⟨mulIn cdoubleOf x.value y.value⟩⟩
instance : Div CDouble := ⟨fun x y => ⟨divIn cdoubleOf x.value y.value⟩⟩
instance : Neg CDouble := ⟨fun x => ⟨cfloatNeg x.value⟩⟩

/-- A literal `double`. -/
instance : OfScientific CDouble := ⟨fun mantissa negative exponent =>
  ⟨cdoubleOf (OfScientific.ofScientific mantissa negative exponent)⟩⟩

/-- Widening. -/
def widen (x : CFloat) : CDouble := ⟨x⟩

/-- Narrowing. -/
def narrow (x : CDouble) : CFloat :=
  match x.value with
  | .fin q => cfloatOf q
  | other => other

/-! ### Bounds -/

/-- Rounding moves a number by half of its last bit at most. -/
theorem abs_nearest_sub_le (bits : ℕ) (least : ℤ) (x : ℚ) :
    |nearest bits least x - x| ≤ 2 ^ max (Int.log 2 |x| - (bits - 1)) least / 2 := by
  have hunit : (0 : ℚ) < 2 ^ max (Int.log 2 |x| - (bits - 1)) least := zpow_pos two_pos _
  set unit : ℚ := 2 ^ max (Int.log 2 |x| - (bits - 1)) least with hu
  have hsplit : nearest bits least x - x = (roundEven (x / unit) - x / unit) * unit := by
    rw [sub_mul, div_mul_cancel₀ _ hunit.ne', nearest, ← hu]
  rw [hsplit, abs_mul, abs_of_pos hunit]
  calc |(roundEven (x / unit) : ℚ) - x / unit| * unit ≤ 1 / 2 * unit :=
        mul_le_mul_of_nonneg_right (abs_roundEven_sub_le _) hunit.le
    _ = unit / 2 := by ring

/-- **A multiple of a power of two that has so few bits is kept.** -/
theorem nearest_dyadic {bits : ℕ} {least e m : ℤ} (hleast : least ≤ e) (hm : |m| < 2 ^ bits) :
    nearest bits least (m * 2 ^ e) = m * 2 ^ e := by
  by_cases hzero : m = 0
  · rw [hzero, Int.cast_zero, zero_mul, nearest_zero]
  have hpos : (0 : ℚ) < 2 ^ e := zpow_pos two_pos e
  have habs : |(m : ℚ) * 2 ^ e| = |(m : ℚ)| * 2 ^ e := by rw [abs_mul, abs_of_pos hpos]
  have hlog : Int.log 2 |(m : ℚ) * 2 ^ e| < bits + e := by
    have hsome : 0 < |(m : ℚ)| := abs_pos.2 (Int.cast_ne_zero.2 hzero)
    rw [habs]
    refine (Int.lt_zpow_iff_log_lt (by norm_num) (mul_pos hsome hpos)).1 ?_
    rw [Nat.cast_ofNat, zpow_add₀ two_ne_zero, zpow_natCast]
    refine mul_lt_mul_of_pos_right ?_ hpos
    exact_mod_cast hm
  set k := max (Int.log 2 |(m : ℚ) * 2 ^ e| - (bits - 1)) least with hk
  have hke : k ≤ e := by omega
  have hquot : (m : ℚ) * 2 ^ e / 2 ^ k = ((m * 2 ^ (e - k).toNat : ℤ) : ℚ) := by
    have hdiff : e - k = ((e - k).toNat : ℤ) := by omega
    rw [mul_div_assoc, ← zpow_sub₀ two_ne_zero, hdiff, zpow_natCast]
    push_cast
    rw [Int.toNat_natCast]
  rw [nearest, ← hk, hquot, roundEven_intCast, ← hquot,
    div_mul_cancel₀ _ (zpow_pos two_pos k).ne']

/-- A power of two bounds what rounds to a `float`, which is then finite. -/
theorem cfloatOf_eq_fin {q : ℚ} (n : ℕ) (hn : n < 128) (hq : |q| ≤ 2 ^ n) :
    cfloatOf q = .fin (nearestFloat q) ∧ |nearestFloat q| ≤ 2 ^ n := by
  have hle : |nearestFloat q| ≤ 2 ^ n := by
    have hbound : |nearestFloat q| ≤ (2 : ℚ) ^ (n : ℤ) :=
      abs_nearest_le (by norm_num) (by omega) (by rw [zpow_natCast]; exact hq)
    rwa [zpow_natCast] at hbound
  have hlt : |nearestFloat q| < 2 ^ 128 := hle.trans_lt (pow_lt_pow_right₀ one_lt_two hn)
  exact ⟨by rw [cfloatOf, if_neg hlt.not_ge], hle⟩

/-- Such a number is a `float`. -/
theorem cfloatOf_dyadic {e m : ℤ} (hleast : -149 ≤ e) (hm : |m| < 2 ^ 24)
    (hbound : |(m : ℚ) * 2 ^ e| ≤ 2 ^ 20) : cfloatOf (m * 2 ^ e) = .fin (m * 2 ^ e) := by
  rw [(cfloatOf_eq_fin 20 (by norm_num) hbound).1, nearestFloat, nearest_dyadic hleast hm]

theorem mul_fin (x y : ℚ) : CFloat.fin x * CFloat.fin y = cfloatOf (x * y) := by
  change mulIn cfloatOf (.fin x) (.fin y) = _
  rw [mulIn]

theorem div_fin (x : ℚ) {y : ℚ} (hy : y ≠ 0) :
    CFloat.fin x / CFloat.fin y = cfloatOf (x / y) := by
  change divIn cfloatOf (.fin x) (.fin y) = _
  rw [divIn, if_neg hy]

/-- Dropping the fraction takes a number towards zero, by less than one. -/
theorem truncate_spec (y : ℚ) : |(truncate y : ℚ) - y| < 1 ∧ |(truncate y : ℚ)| ≤ |y| := by
  unfold truncate
  split_ifs with hy
  · have hle := Int.floor_le y
    have hlt := Int.lt_floor_add_one y
    have hfloor : (0 : ℚ) ≤ ⌊y⌋ := by exact_mod_cast Int.floor_nonneg.2 hy
    rw [abs_lt, abs_of_nonneg hfloor, abs_of_nonneg hy]
    exact ⟨⟨by linarith, by linarith⟩, hle⟩
  · have hneg : y < 0 := not_le.1 hy
    have hle := Int.le_ceil y
    have hlt := Int.ceil_lt_add_one y
    have hceil : (⌈y⌉ : ℚ) ≤ 0 := by exact_mod_cast Int.ceil_le.2 (by exact_mod_cast hneg.le)
    rw [abs_lt, abs_of_nonpos hceil, abs_of_neg hneg]
    exact ⟨⟨by linarith, by linarith⟩, by linarith⟩

/-- A number in range is converted to its floor. -/
theorem toUnsigned_fin {w : ℕ} {x : ℚ} (hx : 0 ≤ x) (hlt : x < 2 ^ w) :
    toUnsigned w (.fin x) = some (BitVec.ofInt w ⌊x⌋) := by
  rw [toUnsigned, if_pos ⟨by linarith, hlt⟩, truncate, if_pos hx]

end S2S
