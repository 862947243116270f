import Mathlib.Algebra.Order.Field.Power
import Mathlib.Algebra.Order.Floor.Ring
import Mathlib.Data.Int.Log
import Mathlib.Data.Rat.Floor
import Mathlib.Tactic.FieldSimp
import Mathlib.Tactic.Positivity
import Mathlib.Tactic.Ring

/-!
# Numbers to so many significant digits

A number that is printed with `n` significant digits is rounded to a multiple of the place value of
the last of them (`lastPlace`), to the nearest one, and to the even one of two that are as near. A
number that has no more digits than that is not changed (`round_of_digits`).
-/

namespace Decimal

/-- The nearest whole number, the even one of two that are as near. -/
def roundHalfEven (q : ℚ) : ℤ :=
  if Int.fract q < 1 / 2 ∨ Int.fract q = 1 / 2 ∧ ⌊q⌋ % 2 = 0 then ⌊q⌋ else ⌊q⌋ + 1

/-- The place value of the last of `n` significant digits. -/
def lastPlace (n : ℕ) (q : ℚ) : ℚ := 10 ^ (Int.log 10 |q| + 1 - n)

/-- The nearest number with `n` significant digits. -/
def round (n : ℕ) (q : ℚ) : ℚ := roundHalfEven (q / lastPlace n q) * lastPlace n q

@[simp] theorem roundHalfEven_intCast (z : ℤ) : roundHalfEven z = z := by
  simp [roundHalfEven]

/-- The last place is worth something. -/
theorem lastPlace_pos (n : ℕ) (q : ℚ) : 0 < lastPlace n q := by
  unfold lastPlace
  positivity

/-- A whole number of last places is not rounded. -/
theorem round_of_eq_mul {n : ℕ} {q : ℚ} {z : ℤ} (h : q = z * lastPlace n q) : round n q = q := by
  have hdiv : q / lastPlace n q = z := (div_eq_iff (lastPlace_pos n q).ne').mpr h
  unfold round
  rw [hdiv, roundHalfEven_intCast, ← h]

/-- **A number that has at most `n` significant digits** is not rounded to `n` of them. -/
theorem round_of_digits {n : ℕ} {m k : ℤ} (h : |m| < 10 ^ n) :
    round n (m * 10 ^ k : ℚ) = m * 10 ^ k := by
  rcases eq_or_ne m 0 with rfl | hm
  · exact round_of_eq_mul (z := 0) (by simp)
  · have hm' : (m : ℚ) ≠ 0 := Int.cast_ne_zero.mpr hm
    have hpos : (0 : ℚ) < |(m : ℚ) * 10 ^ k| := abs_pos.mpr (mul_ne_zero hm' (by positivity))
    -- the first digit is at most `n - 1` places before the last one of `m`
    have hlt : |(m : ℚ) * 10 ^ k| < 10 ^ (n + k) := by
      rw [abs_mul, abs_of_pos (by positivity : (0 : ℚ) < 10 ^ k), zpow_add₀ (by norm_num)]
      refine mul_lt_mul_of_pos_right ?_ (by positivity)
      exact_mod_cast h
    have hlog : Int.log 10 |(m : ℚ) * 10 ^ k| < n + k :=
      (Int.lt_zpow_iff_log_lt (by norm_num) hpos).mp (by exact_mod_cast hlt)
    obtain ⟨j, hj⟩ : ∃ j : ℕ, k = Int.log 10 |(m : ℚ) * 10 ^ k| + 1 - n + j :=
      ⟨(k - (Int.log 10 |(m : ℚ) * 10 ^ k| + 1 - n)).toNat, by omega⟩
    refine round_of_eq_mul (z := m * 10 ^ j) ?_
    unfold lastPlace
    push_cast
    rw [mul_assoc, ← zpow_natCast, ← zpow_add₀ (by norm_num), add_comm (j : ℤ), ← hj]

end Decimal
