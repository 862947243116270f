import OpenGeoBase.Repo.Naming
import Mathlib.Tactic.IntervalCases

/-!
# The names of points at the front end

`Utils` of the front end rounds coordinates to decimals, with a correction for the errors of
doubles, and names points. A coordinate is printed with two decimals and a sign, and its text is cut
at the decimal point: the name of a point has the whole degrees of both coordinates, and then a pair
of digits for each level.

On the 0.01-degree grid the text is that of the repository's names (`toStringsForNDNname_grid`).

The coordinates are exact decimals.
-/

namespace OpenGeoBase

open Text

/-- `Utils.Format` -/
inductive Format where
  | LAT_LONG
  | LONG_LAT
  deriving DecidableEq

/-- `Utils.floor10`. -/
def Utils.floor10 (number : ℚ) (decimal : ℕ) : ℚ :=
  ⌊(number + 1 / 10 ^ 6) * 10 ^ decimal⌋ / 10 ^ decimal

/-- `Utils.ceil10`. -/
def Utils.ceil10 (number : ℚ) (decimal : ℕ) : ℚ :=
  ⌈(number - 1 / 10 ^ 6) * 10 ^ decimal⌉ / 10 ^ decimal

/-- `String.format` with two decimals, rounded half up, and with zeros behind the sign up to a
`width`. -/
def formatDecimals (width : ℕ) (number : ℚ) : Str :=
  let hundredths := ⌊|number| * 100 + 1 / 2⌋.toNat
  let digits := toDecimal (hundredths / 100) ++ '.' :: padLeft '0' 2 (toDecimal (hundredths % 100))
  if number < 0 then '-' :: padLeft '0' (width - 1) digits else padLeft '0' width digits

namespace Utils

/-- The whole degrees with their sign, and the first two decimals. -/
def toStringsForNDNname (number : ℚ) : List Str :=
  let res := if number < 0 then formatDecimals 7 number else formatDecimals 6 number
  let parts := res.splitOn '.'
  let decimals := parts.getD 1 []
  [parts.getD 0 [], decimals.take 1, (decimals.drop 1).take 1]

/-- The name of a point, for a precision up to 2. -/
def spatialPointToNDNNname (latitude longitude : ℚ) (needSign_lat needSign_lng : Bool)
    (precision : ℕ) (format : Format) : Str :=
  let latitudeString := toStringsForNDNname latitude
  let longitudeString := toStringsForNDNname longitude
  let lat := sign needSign_lat ++ latitudeString.getD 0 []
  let lng := sign needSign_lng ++ longitudeString.getD 0 []
  (match format with
    | .LAT_LONG => '/' :: lat ++ '/' :: lng
    | .LONG_LAT => '/' :: lng ++ '/' :: lat) ++
  (List.range' 1 precision).flatMap fun i => '/' ::
    match format with
    | .LAT_LONG => latitudeString.getD i [] ++ longitudeString.getD i []
    | .LONG_LAT => longitudeString.getD i [] ++ latitudeString.getD i []

/-! ### Points of the grid -/

/-- Coordinates with the decimals asked for are not changed by the corrections. -/
theorem floor_correct {d : ℕ} (hd : d ≤ 5) (k : ℤ) :
    ⌊((k : ℚ) / 10 ^ d + 1 / 10 ^ 6) * 10 ^ d⌋ = k := by
  have hpow : (10 : ℚ) ^ d ≤ 10 ^ 5 := pow_le_pow_right₀ (by norm_num) hd
  have hpos : (0 : ℚ) < 10 ^ d := by positivity
  rw [add_mul, div_mul_cancel₀ _ hpos.ne', Int.floor_eq_iff]
  constructor
  · have hnonneg : (0 : ℚ) ≤ 1 / 10 ^ 6 * 10 ^ d := by positivity
    linarith
  · linarith

/-- Rounding down leaves a point of the grid where it is. -/
theorem floor10_grid {d : ℕ} (hd : d ≤ 5) (k : ℤ) : floor10 ((k : ℚ) / 10 ^ d) d = k / 10 ^ d := by
  rw [floor10, floor_correct hd]

/-- Rounding up is rounding the opposite down. -/
theorem ceil10_eq_neg (q : ℚ) (d : ℕ) : ceil10 q d = -floor10 (-q) d := by
  have hneg : (q - 1 / 10 ^ 6) * 10 ^ d = -((-q + 1 / 10 ^ 6) * 10 ^ d) := by ring
  rw [ceil10, floor10, hneg, Int.ceil_neg]
  push_cast
  ring

theorem ceil10_grid {d : ℕ} (hd : d ≤ 5) (k : ℤ) : ceil10 ((k : ℚ) / 10 ^ d) d = k / 10 ^ d := by
  rw [ceil10_eq_neg, ← neg_div, ← Int.cast_neg, floor10_grid hd, Int.cast_neg, neg_div, neg_neg]

/-- Padding goes in front of the first part. -/
theorem padLeft_append (c : Char) (w : ℕ) (s t : Str) :
    padLeft c (w + t.length) (s ++ t) = padLeft c w s ++ t := by
  unfold padLeft
  rw [List.length_append, Nat.add_sub_add_right, List.append_assoc]

/-- The two digits of a number below a hundred. -/
theorem padLeft_two {n : ℕ} (h : n < 100) :
    padLeft '0' 2 (toDecimal n) = [(n / 10).digitChar, (n % 10).digitChar] := by
  interval_cases n <;> decide

/-- The hundredths of a point of the grid are not rounded. -/
theorem floor_abs_hundredths (i : ℤ) : ⌊|(i : ℚ) / 100| * 100 + 1 / 2⌋.toNat = i.natAbs := by
  have habs : |(i : ℚ) / 100| * 100 = ((i.natAbs : ℤ) : ℚ) := by
    rw [abs_div, ← Int.cast_abs, Int.abs_eq_natAbs]
    norm_num
  have hfloor : ⌊((i.natAbs : ℤ) : ℚ) + 1 / 2⌋ = i.natAbs := by
    rw [Int.floor_eq_iff]
    constructor <;> norm_num
  rw [habs, hfloor, Int.toNat_natCast]

/-- A hundredth is written with its degrees, the point and two digits. -/
theorem formatDecimals_grid (i : ℤ) :
    (if (i : ℚ) / 100 < 0 then formatDecimals 7 (i / 100) else formatDecimals 6 (i / 100)) =
      axisName i ++ '.' :: [tenths i, hundredths i] := by
  have hpad : padLeft '0' 6 (toDecimal (i.natAbs / 100) ++
      '.' :: padLeft '0' 2 (toDecimal (i.natAbs % 100))) =
        padLeft '0' 3 (toDecimal (i.natAbs / 100)) ++ '.' :: [tenths i, hundredths i] := by
    have hdigits : padLeft '0' 2 (toDecimal (i.natAbs % 100)) = [tenths i, hundredths i] := by
      rw [padLeft_two (Nat.mod_lt _ (by decide))]
      have htens : i.natAbs % 100 / 10 = i.natAbs / 10 % 10 := by omega
      have hunits : i.natAbs % 100 % 10 = i.natAbs % 10 := by omega
      rw [htens, hunits]
      rfl
    rw [hdigits]
    exact padLeft_append '0' 3 _ ('.' :: [tenths i, hundredths i])
  unfold formatDecimals axisName sign
  simp only [grid_lt_zero_iff, floor_abs_hundredths]
  by_cases hi : i < 0
  · simp only [hi, decide_true, ↓reduceIte]
    rw [hpad]
    rfl
  · simp only [hi, decide_false, Bool.false_eq_true, ↓reduceIte]
    exact hpad

/-- There is no point in the degrees of a name. -/
theorem point_not_mem_axisName (i : ℤ) : '.' ∉ axisName i := by
  intro h
  rcases List.mem_append.mp h with h | h
  · unfold sign at h
    split at h
    · exact absurd h (by decide)
    · exact absurd h List.not_mem_nil
  · exact absurd (isDigits_axis i '.' h) (by decide)

/-- There is no point in the digits behind the degrees. -/
theorem point_not_mem_digits (i : ℤ) : '.' ∉ [tenths i, hundredths i] := by
  have hdigit : ∀ {n : ℕ}, n < 10 → n.digitChar ≠ '.' := fun {n} hn => by
    interval_cases n <;> decide
  rw [List.mem_pair, not_or]
  exact ⟨(hdigit (by omega)).symm, (hdigit (by omega)).symm⟩

/-- The strings of a coordinate on the 0.01-degree grid. -/
theorem toStringsForNDNname_grid (i : ℤ) :
    toStringsForNDNname ((i : ℚ) / 100) = [axisName i, [tenths i], [hundredths i]] := by
  have hsplit : (axisName i ++ '.' :: [tenths i, hundredths i]).splitOn '.' =
      [axisName i, [tenths i, hundredths i]] := by
    have hjoin : axisName i ++ '.' :: [tenths i, hundredths i] =
        ['.'].intercalate [axisName i, [tenths i, hundredths i]] := by
      simp [List.intercalate]
    rw [hjoin]
    refine List.splitOn_intercalate '.' (fun part hpart => ?_) (List.cons_ne_nil _ _)
    rcases List.mem_pair.mp hpart with rfl | rfl
    · exact point_not_mem_axisName i
    · exact point_not_mem_digits i
  unfold toStringsForNDNname
  rw [formatDecimals_grid]
  dsimp only
  rw [hsplit]
  rfl

end Utils

end OpenGeoBase
