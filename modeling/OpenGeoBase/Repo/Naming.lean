import OpenGeoBase.Lib.Text
import Mathlib.Data.List.GetD
import Mathlib.Tactic.FieldSimp
import Mathlib.Tactic.Linarith
import Mathlib.Tactic.Ring

/-!
# Names of tiles

The repository covers the plane with tiles of three sizes: 0.01 degrees (level
2), 0.1 degrees (level 1) and 1 degree (level 0). A tile is known by its name, a
slash-separated path that starts with the integral parts of its longitude and
latitude and goes on with one pair of decimal digits for each level:
`calculateLATLONName`. The name of the tile one level up is the same path without
the last component, and the code recomputes it by splitting the name at the
slashes (`name10Of`, `name100Of`).

Coordinates are exact rationals; the code's doubles are taken without rounding.

The facts the rest of the development uses are that a level-2 name is a path of
four slash-free components (`isTileName_calculateLATLONName`), so that names of
different levels never coincide, and the spelled-out form of the name of a point
on the 0.01-degree grid (`toStringsForNDNname_grid`).
-/

namespace OpenGeoBase

open Text

/-- A pair `(x, y)` of longitude and latitude. -/
abbrev Coord := ℚ × ℚ

/-- `input` rounded down to a multiple of `10 ^ -precision`. -/
def floor10 (input : ℚ) (precision : ℕ) : ℚ := ⌊input * 10 ^ precision⌋ / 10 ^ precision

/-- The conversion of a double to an integer, and the integral part of `std::modf`:
rounding towards zero. -/
def trunc (q : ℚ) : ℤ := if 0 ≤ q then ⌊q⌋ else ⌈q⌉

/-- The integral part and the first two decimals of a coordinate, without its sign. -/
def toStringsForNDNname (coord : ℚ) : List Str :=
  let intpart : ℚ := trunc coord
  let fractpart := floor10 (coord - intpart + 1 / 10 ^ 10) 2
  [toDecimalInt (trunc |intpart|),
    toDecimalInt (trunc |fractpart * 10|),
    toDecimalInt (trunc |fractpart * 100| - 10 * trunc |fractpart * 10|)]

/-- The name of the tile of `(x, y)` with `precision` pairs of decimals. -/
def calculateLATLONName (x y : ℚ) (precision : ℕ) : Str :=
  let xString := toStringsForNDNname x
  let yString := toStringsForNDNname y
  '/' :: (sign (x < 0) ++ padLeft '0' 3 (xString.getD 0 [])) ++
    ('/' :: (sign (y < 0) ++ padLeft '0' 3 (yString.getD 0 []))) ++
    (List.range' 1 precision).flatMap fun i => '/' :: (xString.getD i [] ++ yString.getD i [])

/-- The pieces of a tile name, with a leading slash supplied where it is missing. -/
def componentNameVector (tileName : Str) : List Str :=
  splitPath (if tileName.head? = some '/' then tileName else '/' :: tileName)

/-- The name of the level-0 tile around a tile. -/
def name100Of (tileName : Str) : Str :=
  let c := componentNameVector tileName
  path [c.getD 1 [], c.getD 2 []]

/-- The name of the level-1 tile around a tile. -/
def name10Of (tileName : Str) : Str :=
  let c := componentNameVector tileName
  path [c.getD 1 [], c.getD 2 [], c.getD 3 []]

/-- The placeholder for the names of finer levels in a document of a coarser one. -/
def xx : Str := "xx".toList

/-! ### Names as paths -/

/-- A name of `n` slash-free components behind their slashes. -/
def IsPath (n : ℕ) (s : Str) : Prop := ∃ cs : List Str, cs.length = n ∧ (∀ c ∈ cs, SlashFree c) ∧
  s = path cs

/-- The shape of a level-2 tile name. -/
abbrev IsTileName (s : Str) : Prop := IsPath 4 s

/-- Paths of different lengths are different names. -/
theorem IsPath.ne {m n : ℕ} {s t : Str} (hs : IsPath m s) (ht : IsPath n t) (h : m ≠ n) :
    s ≠ t := by
  obtain ⟨cs, hcs, hc, rfl⟩ := hs
  obtain ⟨ds, hds, hd, rfl⟩ := ht
  intro heq
  rw [path_injective hc hd heq, hds] at hcs
  exact h hcs.symm

/-- Splitting a path gives its components back, behind an empty one. -/
theorem componentNameVector_path {c : Str} {cs : List Str} (h : ∀ d ∈ c :: cs, SlashFree d) :
    componentNameVector (path (c :: cs)) = [] :: c :: cs := by
  unfold componentNameVector
  rw [if_pos (by simp [path]), splitPath_path h]

/-- No component of a name has a slash. -/
theorem slashFree_component (s : Str) (i : ℕ) :
    SlashFree ((componentNameVector s).getD i []) := by
  rcases Nat.lt_or_ge i (componentNameVector s).length with hi | hi
  · rw [List.getD_eq_getElem _ _ hi]
    exact slashFree_of_mem_splitPath (List.getElem_mem hi)
  · rw [List.getD_eq_default _ _ hi]
    exact List.not_mem_nil

/-- The name of the tile of level 1 has three components. -/
theorem isPath_name10Of (s : Str) : IsPath 3 (name10Of s) := by
  refine ⟨_, rfl, fun c hc => ?_, rfl⟩
  simp only [List.mem_cons, List.not_mem_nil, or_false] at hc
  rcases hc with rfl | rfl | rfl <;> exact slashFree_component s _

theorem isPath_name100Of (s : Str) : IsPath 2 (name100Of s) := by
  refine ⟨_, rfl, fun c hc => ?_, rfl⟩
  simp only [List.mem_cons, List.not_mem_nil, or_false] at hc
  rcases hc with rfl | rfl <;> exact slashFree_component s _

/-- The level-1 name consists of the first three components. -/
theorem name10Of_path {a b c : Str} {cs : List Str}
    (h : ∀ d ∈ a :: b :: c :: cs, SlashFree d) :
    name10Of (path (a :: b :: c :: cs)) = path [a, b, c] := by
  unfold name10Of
  rw [componentNameVector_path h]
  rfl

theorem name100Of_path {a b : Str} {cs : List Str} (h : ∀ d ∈ a :: b :: cs, SlashFree d) :
    name100Of (path (a :: b :: cs)) = path [a, b] := by
  unfold name100Of
  rw [componentNameVector_path h]
  rfl

/-- The level-0 tile of a tile is that of its level-1 tile. -/
theorem name100Of_name10Of (s : Str) : name100Of (name10Of s) = name100Of s := by
  unfold name10Of
  rw [name100Of_path]
  · rfl
  · intro c hc
    simp only [List.mem_cons, List.not_mem_nil, or_false] at hc
    rcases hc with rfl | rfl | rfl <;> exact slashFree_component s _

theorem name100Of_comp_name10Of : name100Of ∘ name10Of = name100Of := funext name100Of_name10Of

/-! ### The components of a tile name -/

/-- A number that is not negative is written as its digits. -/
theorem toDecimalInt_natCast (n : ℕ) : toDecimalInt (n : ℤ) = toDecimal n := by
  simp [toDecimalInt]

/-- An integer is written without slashes. -/
theorem slashFree_toDecimalInt (z : ℤ) : SlashFree (toDecimalInt z) := by
  unfold toDecimalInt
  split
  · intro h
    rcases List.mem_cons.mp h with h | h
    · exact absurd h (by decide)
    · exact (isDigits_toDecimal _).slashFree h
  · exact (isDigits_toDecimal _).slashFree

theorem slashFree_append {s t : Str} (hs : SlashFree s) (ht : SlashFree t) :
    SlashFree (s ++ t) := fun h => (List.mem_append.mp h).elim hs ht

theorem slashFree_sign (neg : Bool) : SlashFree (sign neg) := by
  cases neg <;> decide

theorem slashFree_padLeft {s : Str} (hs : SlashFree s) (w : ℕ) :
    SlashFree (padLeft '0' w s) := by
  refine slashFree_append (fun h => ?_) hs
  exact absurd (List.eq_of_mem_replicate h) (by decide)

/-- The name with all its decimals, as a path. -/
theorem calculateLATLONName_two (x y : ℚ) :
    calculateLATLONName x y 2 =
      path [sign (x < 0) ++ padLeft '0' 3 ((toStringsForNDNname x).getD 0 []),
        sign (y < 0) ++ padLeft '0' 3 ((toStringsForNDNname y).getD 0 []),
        (toStringsForNDNname x).getD 1 [] ++ (toStringsForNDNname y).getD 1 [],
        (toStringsForNDNname x).getD 2 [] ++ (toStringsForNDNname y).getD 2 []] := by
  simp [calculateLATLONName, path, List.range']

/-- The name with some of its decimals. -/
theorem isPath_calculateLATLONName (x y : ℚ) (precision : ℕ) :
    IsPath (precision + 2) (calculateLATLONName x y precision) := by
  -- signs, digits and padding have no slash
  have h : ∀ (z : ℚ) (i : ℕ), SlashFree ((toStringsForNDNname z).getD i []) := by
    intro z i
    match i with
    | 0 | 1 | 2 => exact slashFree_toDecimalInt _
    | i + 3 => exact List.not_mem_nil
  refine ⟨(sign (x < 0) ++ padLeft '0' 3 ((toStringsForNDNname x).getD 0 [])) ::
    (sign (y < 0) ++ padLeft '0' 3 ((toStringsForNDNname y).getD 0 [])) ::
      (List.range' 1 precision).map fun i =>
        (toStringsForNDNname x).getD i [] ++ (toStringsForNDNname y).getD i [], ?_, ?_, ?_⟩
  · rw [List.length_cons, List.length_cons, List.length_map, List.length_range']
  · intro c hc
    rcases List.mem_cons.mp hc with rfl | hc
    · exact slashFree_append (slashFree_sign _) (slashFree_padLeft (h x 0) 3)
    rcases List.mem_cons.mp hc with rfl | hc
    · exact slashFree_append (slashFree_sign _) (slashFree_padLeft (h y 0) 3)
    · obtain ⟨i, -, rfl⟩ := List.mem_map.mp hc
      exact slashFree_append (h x i) (h y i)
  · simp [calculateLATLONName, path, List.flatMap_map]

/-- Every name the code makes of a point is a tile name. -/
theorem isTileName_calculateLATLONName (x y : ℚ) : IsTileName (calculateLATLONName x y 2) :=
  isPath_calculateLATLONName x y 2

/-! ### Names of grid corners -/

/-- The cast of a positive quotient is the integer division. -/
theorem trunc_natCast_div (m d : ℕ) : trunc ((m : ℚ) / d) = ((m / d : ℕ) : ℤ) := by
  have h : (0 : ℚ) ≤ (m : ℚ) / d := by positivity
  rw [trunc, if_pos h]
  have := Rat.floor_intCast_div_natCast (m : ℤ) d
  push_cast at this ⊢
  exact this

theorem trunc_natCast (m : ℕ) : trunc (m : ℚ) = m := by
  simpa using trunc_natCast_div m 1

/-- The cast rounds towards zero, so it commutes with the sign. -/
theorem trunc_neg (q : ℚ) : trunc (-q) = -trunc q := by
  unfold trunc
  rcases lt_trichotomy q 0 with h | rfl | h
  · rw [if_pos (by linarith), if_neg (by linarith), Int.floor_neg]
  · simp
  · rw [if_neg (by linarith), if_pos (by linarith), Int.ceil_neg]

/-- The hundredths are read without loss, for the addend is less than one of them. -/
theorem floor10_hundredths (k : ℤ) : floor10 ((k : ℚ) / 100 + 1 / 10 ^ 10) 2 = k / 100 := by
  have h : ⌊((k : ℚ) / 100 + 1 / 10 ^ 10) * 10 ^ 2⌋ = k := by
    rw [Int.floor_eq_iff]
    constructor <;> linarith
  rw [floor10, h]
  norm_num

/-- The strings of a coordinate, from its integral part and its hundredths. -/
theorem toStringsForNDNname_eq {q : ℚ} {k : ℤ} (h : q - trunc q = k / 100) :
    toStringsForNDNname q = [toDecimal (trunc q).natAbs, toDecimal (k.natAbs / 10),
      toDecimal (k.natAbs % 10)] := by
  have habs : ∀ z : ℤ, |(z : ℚ)| = (z.natAbs : ℚ) := fun z => by
    rw [← Int.cast_abs, Int.abs_eq_natAbs, Int.cast_natCast]
  -- the digits are those of the absolute value
  have hten : trunc |(k : ℚ) / 100 * 10| = ((k.natAbs / 10 : ℕ) : ℤ) := by
    rw [← trunc_natCast_div, show (k : ℚ) / 100 * 10 = k / 10 by ring, abs_div, habs]
    norm_num
  have hhundred : trunc |(k : ℚ) / 100 * 100| = (k.natAbs : ℤ) := by
    rw [← trunc_natCast, show (k : ℚ) / 100 * 100 = k by ring, habs]
  unfold toStringsForNDNname
  simp only
  rw [h, floor10_hundredths, hten, hhundred, habs, trunc_natCast, toDecimalInt_natCast,
    toDecimalInt_natCast]
  congr 3
  rw [← toDecimalInt_natCast]
  congr 1
  omega

/-- The strings of a coordinate on the 0.01-degree grid. -/
theorem toStringsForNDNname_grid (i : ℤ) :
    toStringsForNDNname ((i : ℚ) / 100) =
      [toDecimal (i.natAbs / 100), toDecimal (i.natAbs / 10 % 10), toDecimal (i.natAbs % 10)] := by
  have hdiv : ∀ m : ℕ, (m : ℚ) / 100 - ((m / 100 : ℕ) : ℚ) = ((m % 100 : ℕ) : ℚ) / 100 := by
    intro m
    have hm := Nat.div_add_mod m 100
    have hq : (100 : ℚ) * ((m / 100 : ℕ) : ℚ) + ((m % 100 : ℕ) : ℚ) = m := by exact_mod_cast hm
    linarith
  have hnat : ∀ m : ℕ, trunc ((m : ℚ) / 100) = ((m / 100 : ℕ) : ℤ) := fun m => by
    simpa using trunc_natCast_div m 100
  have htenths : ∀ m : ℕ, m % 100 / 10 = m / 10 % 10 := fun m => by omega
  have hunits : ∀ m : ℕ, m % 100 % 10 = m % 10 := fun m => by omega
  -- a coordinate and its negative have the same digits, as truncation is towards 0
  obtain ⟨m, rfl | rfl⟩ := Int.eq_nat_or_neg i
  · have h : ((m : ℤ) : ℚ) / 100 - trunc (((m : ℤ) : ℚ) / 100) = ((m % 100 : ℕ) : ℤ) / 100 := by
      rw [Int.cast_natCast, hnat, Int.cast_natCast, hdiv, Int.cast_natCast]
    rw [toStringsForNDNname_eq h, Int.cast_natCast, hnat, Int.natAbs_natCast, Int.natAbs_natCast,
      Int.natAbs_natCast, htenths, hunits]
  · have hcast : ((-(m : ℤ) : ℤ) : ℚ) / 100 = -((m : ℚ) / 100) := by
      rw [Int.cast_neg, Int.cast_natCast, neg_div]
    have h : ((-(m : ℤ) : ℤ) : ℚ) / 100 - trunc (((-(m : ℤ) : ℤ) : ℚ) / 100) =
        ((-((m % 100 : ℕ) : ℤ) : ℤ) : ℚ) / 100 := by
      rw [hcast, trunc_neg, hnat, Int.cast_neg, Int.cast_neg, Int.cast_natCast, Int.cast_natCast,
        neg_div, ← hdiv m]
      ring
    rw [toStringsForNDNname_eq h, hcast, trunc_neg, hnat, Int.natAbs_neg, Int.natAbs_neg,
      Int.natAbs_neg, Int.natAbs_natCast, Int.natAbs_natCast, Int.natAbs_natCast, htenths, hunits]
/-- The first component of a name along one axis: the sign and the whole degrees. -/
def axisName (i : ℤ) : Str := sign (i < 0) ++ padLeft '0' 3 (toDecimal (i.natAbs / 100))

/-- The tenths digit of a grid coordinate. -/
def tenths (i : ℤ) : Char := (i.natAbs / 10 % 10).digitChar

/-- The hundredths digit of a grid coordinate. -/
def hundredths (i : ℤ) : Char := (i.natAbs % 10).digitChar

/-- Hundredths have the sign of their number. -/
theorem grid_lt_zero_iff (k : ℤ) : (k : ℚ) / 100 < 0 ↔ k < 0 := by
  rw [div_lt_iff₀ (by norm_num), zero_mul, Int.cast_lt_zero]

/-- The first component of a hundredth is its sign and its degrees. -/
theorem axisName_grid (k : ℤ) :
    sign ((k : ℚ) / 100 < 0) ++ padLeft '0' 3 ((toStringsForNDNname ((k : ℚ) / 100)).getD 0 []) =
      axisName k := by
  have hneg : decide ((k : ℚ) / 100 < 0) = decide (k < 0) :=
    decide_eq_decide.mpr (grid_lt_zero_iff k)
  rw [toStringsForNDNname_grid, hneg]
  rfl

/-- The name of the level-2 tile with a corner on the 0.01-degree grid, spelled out. -/
theorem calculateLATLONName_grid (i j : ℤ) :
    calculateLATLONName ((i : ℚ) / 100) ((j : ℚ) / 100) 2 =
      path [axisName i, axisName j, [tenths i, tenths j], [hundredths i, hundredths j]] := by
  have hten : ∀ k : ℤ, toDecimal (k.natAbs / 10 % 10) = [tenths k] := fun k =>
    toDecimal_of_lt_ten (by omega)
  have hhundred : ∀ k : ℤ, toDecimal (k.natAbs % 10) = [hundredths k] := fun k =>
    toDecimal_of_lt_ten (by omega)
  rw [calculateLATLONName_two, axisName_grid, axisName_grid, toStringsForNDNname_grid,
    toStringsForNDNname_grid, hten, hten, hhundred, hhundred]
  rfl

/-- The name of the level-0 tile. -/
theorem calculateLATLONName_grid_zero (i j : ℤ) :
    calculateLATLONName ((i : ℚ) / 100) ((j : ℚ) / 100) 0 = path [axisName i, axisName j] := by
  rw [← axisName_grid i, ← axisName_grid j]
  simp [calculateLATLONName, path]

/-- Behind the sign the first component consists of digits. -/
theorem isDigits_axis (i : ℤ) : IsDigits (padLeft '0' 3 (toDecimal (i.natAbs / 100))) :=
  (isDigits_toDecimal _).padLeft 3

theorem slashFree_axisName (i : ℤ) : SlashFree (axisName i) :=
  slashFree_append (slashFree_sign _) (isDigits_axis i).slashFree

/-- The first component tells the sign and the whole degrees. -/
theorem axisName_injective {i j : ℤ} (h : axisName i = axisName j) :
    (i < 0 ↔ j < 0) ∧ i.natAbs / 100 = j.natAbs / 100 := by
  have hval : ∀ {i j : ℤ}, padLeft '0' 3 (toDecimal (i.natAbs / 100)) =
      padLeft '0' 3 (toDecimal (j.natAbs / 100)) → i.natAbs / 100 = j.natAbs / 100 := by
    intro i j heq
    have h' := congrArg digitsValue heq
    rwa [digitsValue_padLeft, digitsValue_padLeft, digitsValue_toDecimal,
      digitsValue_toDecimal] at h'
  -- no digit is a minus sign
  have hminus : ∀ {i j : ℤ}, '-' :: padLeft '0' 3 (toDecimal (i.natAbs / 100)) ≠
      padLeft '0' 3 (toDecimal (j.natAbs / 100)) := by
    intro i j heq
    have hd := isDigits_axis j '-' (heq ▸ List.mem_cons_self)
    exact absurd hd (by decide)
  unfold axisName sign at h
  by_cases hi : i < 0 <;> by_cases hj : j < 0
  · simp only [hi, hj, decide_true, ↓reduceIte, List.cons_append, List.nil_append,
      List.cons.injEq, true_and] at h
    exact ⟨by simp [hi, hj], hval h⟩
  · simp only [hi, hj, decide_true, decide_false, Bool.false_eq_true, ↓reduceIte,
      List.cons_append, List.nil_append] at h
    exact absurd h hminus
  · simp only [hi, hj, decide_true, decide_false, Bool.false_eq_true, ↓reduceIte,
      List.cons_append, List.nil_append] at h
    exact absurd h.symm hminus
  · simp only [hi, hj, decide_false, Bool.false_eq_true, ↓reduceIte, List.nil_append] at h
    exact ⟨by simp [hi, hj], hval h⟩

/-- A digit tells its number. -/
theorem digitChar_injective {m n : ℕ} (hm : m < 10) (hn : n < 10)
    (h : m.digitChar = n.digitChar) : m = n := by
  rw [← digitsValue_digitChar hm, h, digitsValue_digitChar hn]

/-- A component of two digits has no slash. -/
theorem slashFree_digitChar_pair {m n : ℕ} (hm : m < 10) (hn : n < 10) :
    SlashFree [m.digitChar, n.digitChar] := by
  have hd : ∀ {k : ℕ}, k < 10 → IsDigits [k.digitChar] := fun {k} hk => by
    rw [← toDecimal_of_lt_ten hk]
    exact isDigits_toDecimal k
  exact ((hd hm).append (hd hn)).slashFree

/-- None of the four components of a tile name has a slash. -/
theorem slashFree_gridName (i j : ℤ) :
    ∀ c ∈ [axisName i, axisName j, [tenths i, tenths j], [hundredths i, hundredths j]],
      SlashFree c := by
  intro c hc
  simp only [List.mem_cons, List.not_mem_nil, or_false] at hc
  rcases hc with rfl | rfl | rfl | rfl
  · exact slashFree_axisName i
  · exact slashFree_axisName j
  · exact slashFree_digitChar_pair (by omega) (by omega)
  · exact slashFree_digitChar_pair (by omega) (by omega)

/-- A name is that of one corner only. -/
theorem calculateLATLONName_injective {i j i' j' : ℤ}
    (h : calculateLATLONName ((i : ℚ) / 100) ((j : ℚ) / 100) 2 =
      calculateLATLONName ((i' : ℚ) / 100) ((j' : ℚ) / 100) 2) : i = i' ∧ j = j' := by
  rw [calculateLATLONName_grid, calculateLATLONName_grid] at h
  have hc := path_injective (slashFree_gridName i j) (slashFree_gridName i' j') h
  simp only [List.cons.injEq, and_true] at hc
  obtain ⟨hx, hy, ⟨hxt, hyt⟩, hxh, hyh⟩ := hc
  -- sign, whole degrees and two digits determine the hundredths
  have key : ∀ {k k' : ℤ}, axisName k = axisName k' → tenths k = tenths k' →
      hundredths k = hundredths k' → k = k' := by
    intro k k' ha ht hh
    obtain ⟨hsign, hwhole⟩ := axisName_injective ha
    have htens := digitChar_injective (by omega) (by omega) ht
    have hunits := digitChar_injective (by omega) (by omega) hh
    have habs : k.natAbs = k'.natAbs := by omega
    by_cases hk : k < 0
    · have hk' := hsign.mp hk
      omega
    · have hk' := mt hsign.mpr hk
      omega
  exact ⟨key hx hxt hxh, key hy hyt hyh⟩

end OpenGeoBase
