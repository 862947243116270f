import Mathlib.Data.Nat.Log
import Mathlib.Tactic.Common
import Mathlib.Tactic.NormNum

/-!
# Whole numbers as doubles

A double has 53 binary digits. A whole number with more of them is rounded to the nearest multiple
of a power of two, `ulp`, and to the even one of two that are as near. Numbers up to 2^53 are kept
(`round_eq_self`). A double becomes a `long` by saturation (`toLong`).
-/

namespace Double

/-- The distance of the doubles around a whole number, at least one. -/
def ulp (n : ℤ) : ℤ := 2 ^ (n.natAbs.log2 - 52)

/-- The nearest double. -/
def round (n : ℤ) : ℤ :=
  let q := n / ulp n
  let r := n % ulp n
  if 2 * r < ulp n ∨ 2 * r = ulp n ∧ q % 2 = 0 then q * ulp n else (q + 1) * ulp n

/-- A double that is a whole number, cast to a `long`. -/
def toLong (n : ℤ) : ℤ := max (-2 ^ 63) (min n (2 ^ 63 - 1))

/-- The distance to the next double is positive. -/
theorem ulp_pos (n : ℤ) : 0 < ulp n := by
  unfold ulp
  positivity

/-- A multiple of the distance is not rounded. -/
theorem round_of_dvd {n : ℤ} (h : ulp n ∣ n) : round n = n := by
  have hzero : n % ulp n = 0 := Int.emod_eq_zero_of_dvd h
  unfold round
  dsimp only
  rw [hzero, if_pos (Or.inl (by simpa using ulp_pos n)), Int.ediv_mul_cancel h]

/-- Small numbers are not rounded. -/
theorem round_eq_self {n : ℤ} (h : n.natAbs ≤ 2 ^ 53) : round n = n := by
  refine round_of_dvd ?_
  rcases Nat.lt_or_eq_of_le h with hlt | heq
  · have hlog : n.natAbs.log2 - 52 = 0 := by
      by_cases hzero : n.natAbs = 0
      · rw [hzero]
        rfl
      · have := (Nat.log2_lt hzero).mpr hlt
        omega
    unfold ulp
    rw [hlog, pow_zero]
    exact one_dvd n
  · have hlog : n.natAbs.log2 - 52 = 1 := by
      rw [heq, Nat.log2_two_pow]
    unfold ulp
    rw [hlog, ← Int.dvd_natAbs, heq]
    exact ⟨2 ^ 52, by norm_num⟩

/-- Above 2^53 the doubles are the even numbers. -/
theorem ulp_eq_two {n : ℤ} (h : 2 ^ 53 ≤ n) (hlt : n < 2 ^ 54) : ulp n = 2 := by
  have hlog : n.natAbs.log2 = 53 :=
    (Nat.log2_eq_iff (by omega)).mpr ⟨by omega, by omega⟩
  unfold ulp
  rw [hlog]
  norm_num

/-- The conversion saturates at the largest `long`. -/
theorem toLong_le (n : ℤ) : toLong n ≤ 2 ^ 63 - 1 :=
  max_le (by norm_num) (min_le_right _ _)

/-- A whole number that is a `long` is converted to itself. -/
theorem toLong_eq_self {n : ℤ} (h : -2 ^ 63 ≤ n) (h' : n ≤ 2 ^ 63 - 1) : toLong n = n := by
  unfold toLong
  rw [min_eq_left h', max_eq_right h]

end Double
