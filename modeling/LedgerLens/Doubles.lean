import Mathlib.Algebra.Order.Field.Power
import Mathlib.Algebra.Order.Floor.Ring
import Mathlib.Data.Int.Log
import Mathlib.Data.Rat.Floor

/-!
# Rounding to doubles

Rationals rounded to the nearest integer and to the nearest double, ties to even.
-/
namespace Doubles

/-- To the nearest integer, halves to the even one. -/
def roundHalfEven (x : ℚ) : ℤ :=
  let below := ⌊x⌋
  if x - below < 1 / 2 then below
  else if 1 / 2 < x - below then below + 1
  else if below % 2 = 0 then below else below + 1

/-- The nearest double, ties to the even significand. Nothing is too large for one here. -/
def toDouble (x : ℚ) : ℚ :=
  let unit : ℚ := 2 ^ max (Int.log 2 |x| - 52) (-1074)
  roundHalfEven (x / unit) * unit

theorem roundHalfEven_intCast (z : ℤ) : roundHalfEven z = z := by
  simp [roundHalfEven]

theorem toDouble_eq_self {x : ℚ} {m k : ℤ} (hx : x = m * 2 ^ k) (hm : |m| < 2 ^ 53)
    (hk : -1074 ≤ k) : toDouble x = x := by
  by_cases hzero : x = 0
  · rw [hzero]
    simpa [toDouble] using roundHalfEven_intCast 0
  · have hsize : |x| < ((2 : ℕ) : ℚ) ^ (53 + k) := by
      rw [hx, abs_mul, abs_of_pos (zpow_pos (two_pos (α := ℚ)) k), Nat.cast_ofNat,
        zpow_add₀ two_ne_zero]
      apply mul_lt_mul_of_pos_right _ (zpow_pos two_pos k)
      exact_mod_cast hm
    have hlog : Int.log 2 |x| < 53 + k :=
      (Int.lt_zpow_iff_log_lt one_lt_two (abs_pos.mpr hzero)).mp hsize
    obtain ⟨n, hn⟩ := Int.le.dest (show max (Int.log 2 |x| - 52) (-1074) ≤ k by omega)
    rw [toDouble]
    generalize max (Int.log 2 |x| - 52) (-1074) = unit at hn
    have hne : (2 : ℚ) ^ unit ≠ 0 := zpow_ne_zero _ two_ne_zero
    have hquot : x / 2 ^ unit = ((m * 2 ^ n : ℤ) : ℚ) := by
      rw [hx, ← hn, zpow_add₀ two_ne_zero, zpow_natCast]
      push_cast
      field_simp
    rw [hquot, roundHalfEven_intCast, ← hquot, div_mul_cancel₀ _ hne]

theorem toDouble_intCast {z : ℤ} (hz : |z| < 2 ^ 53) : toDouble z = z :=
  toDouble_eq_self (by rw [zpow_zero, mul_one]) hz (by decide)

end Doubles
