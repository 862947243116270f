import OpenGeoBase.Fes.QueryRepoMap
import OpenGeoBase.Fes.Utils
import OpenGeoBase.Repo.GeometryIndex

/-!
# The repositories of a query

A front end sends a query to the repositories one of whose rectangles meets the envelope of the
query, rounded outwards to tenths of a degree. A rectangle is read off a name: it lies to the
north east of the coordinate that the name spells.

The coordinates of a tile are rounded towards zero when they are cut to tenths or degrees. A
positive tile lies in the square that its shorter names stand for, but a negative one lies to the
south west of it. For tenths the rounding of the envelope makes up for this. For degrees it does
not: `repoIntersect_iff` says that a repository that stores a point of the envelope is found if and
only if the point has a longer name, or its degree is reached on both axes, or the square of some
other point happens to be met.

The coordinates are exact decimals.
-/

namespace OpenGeoBase

open Text

/-! ### The query -/

/-- `Envelope`. -/
structure Envelope where
  xMin : ℚ
  yMin : ℚ
  xMax : ℚ
  yMax : ℚ

/-- The member of a map that is a map itself, if it is not `null`; a value of another type is
`none`. -/
def Value.getMap (name : Str) (v : Value) : Option (Option Value) :=
  match v.member? name with
  | none => some none
  | some .null => some none
  | some (.object ms) => some (some (.object ms))
  | some _ => none

/-- The geometry engine. -/
structure GeometryEngine where
  /-- The envelope of a geometry in GeoJSON, or of the text `null`; an exception is `none`. -/
  queryEnvelope : Option Value → Option Envelope

/-- Where a query is sent: to all repositories, or to those of an envelope. -/
inductive Target where
  | flooding
  | envelope (boxEnvelope : Envelope)

/-- The part of `ExecutionTaskQuery.repoIntersect` that looks for the envelope; an exception is
`none`. -/
def GeometryEngine.target (engine : GeometryEngine) (executionParamsContent : Value) :
    Option Target := do
  let geometry ←
    match executionParamsContent.member? "$and".toList with
    | none => executionParamsContent.getMap "geometry".toList
    | some .null => executionParamsContent.getMap "geometry".toList
    | some (.array []) => executionParamsContent.getMap "geometry".toList
    | some (.array (.object ms :: _)) => (Value.object ms).getMap "geometry".toList
    | some _ => none
  match geometry with
  | none => pure .flooding
  | some geometry => do
    match ← geometry.getMap "$geoIntersects".toList with
    | none => pure .flooding
    | some operation => do
      let geom ← operation.getMap "$geometry".toList
      (engine.queryEnvelope geom).map .envelope

/-- The bounds of a search along one axis. -/
def searchBounds (min max : ℚ) : ℚ × ℚ :=
  let start := Utils.floor10 min 1
  let stop := Utils.ceil10 max 1
  (start, if start = stop then stop + 1 else stop)

/-- The rectangle of a search; an illegal argument is `none`. -/
def searchRectangle (boxEnvelope : Envelope) : Option Rectangle :=
  let (startLng, stopLng) := searchBounds boxEnvelope.xMin boxEnvelope.xMax
  let (startLat, stopLat) := searchBounds boxEnvelope.yMin boxEnvelope.yMax
  exactGeometries.rectangleGeographic startLng startLat stopLng stopLat

/-- `Rectangle.intersects`, edges included. -/
def Rectangle.intersects (r s : Rectangle) : Bool :=
  r.x1 ≤ s.x2 && s.x1 ≤ r.x2 && r.y1 ≤ s.y2 && s.y1 ≤ r.y2

/-- `ExecutionTaskQuery.repoIntersect`: is the repository in the result? An exception is `none`. -/
def repoIntersect (engine : GeometryEngine) (m : NDNQueryRepoMap exactGeometries)
    (executionParamsContent : Value) : Option (Str → Bool) := do
  match ← engine.target executionParamsContent with
  | .flooding => pure fun repoName => (m.rtreeMap repoName).isSome
  | .envelope boxEnvelope => do
    let query ← searchRectangle boxEnvelope
    pure fun repoName =>
      match m.rtreeMap repoName with
      | none => false
      | some rtree => 0 < (rtree.filter (Rectangle.intersects query)).length

/-! ### The index -/

/-- The levels of the names. -/
inductive Level where
  | degree
  | tenth
  | hundredth
  deriving DecidableEq

/-- The name of the tile of a point, cut to a level. -/
def Level.nameOf (p : Coord) : Level → Str
  | hundredth => calculateLATLONName (floor10 p.1 2) (floor10 p.2 2) 2
  | tenth => name10Of (calculateLATLONName (floor10 p.1 2) (floor10 p.2 2) 2)
  | degree => name100Of (calculateLATLONName (floor10 p.1 2) (floor10 p.2 2) 2)

/-- The index of a repository that stores the points: for each the name of its tile at some level,
and no other names. -/
def IsIndexOf (names : List Str) (points : List Coord) : Prop :=
  (∀ p ∈ points, ∃ level : Level, level.nameOf p ∈ names) ∧
    ∀ name ∈ names, ∃ p ∈ points, ∃ level : Level, name = level.nameOf p

/-- The point lies in the envelope. -/
def Envelope.Contains (e : Envelope) (p : Coord) : Prop :=
  e.xMin ≤ p.1 ∧ p.1 ≤ e.xMax ∧ e.yMin ≤ p.2 ∧ p.2 ≤ e.yMax

/-- The coordinate that a name spells at a level: the hundredths are rounded down, the rest towards
zero. -/
def Level.corner (c : ℚ) : Level → ℚ
  | hundredth => floor10 c 2
  | tenth => trunc (floor10 c 2 * 10) / 10
  | degree => trunc (floor10 c 2)

/-- The side of the square of a name. -/
def Level.size : Level → ℚ
  | hundredth => 1 / 100
  | tenth => 1 / 10
  | degree => 1

/-- The square of a name meets the rectangle of the search. -/
def Level.Meets (level : Level) (p : Coord) (e : Envelope) : Prop :=
  ((searchBounds e.xMin e.xMax).1 ≤ level.corner p.1 + level.size ∧
    level.corner p.1 ≤ (searchBounds e.xMin e.xMax).2) ∧
  (searchBounds e.yMin e.yMax).1 ≤ level.corner p.2 + level.size ∧
    level.corner p.2 ≤ (searchBounds e.yMin e.yMax).2

/-- The search from `min` to `max` goes as far as the degree of the coordinate. -/
def DegreeReached (c min max : ℚ) : Prop :=
  0 ≤ c ∨ (trunc (floor10 c 2) : ℚ) ≤ (searchBounds min max).2

/-- A point of the envelope has a name of tenths or hundredths in the index, or one of degrees that
are reached; or a point outside of the envelope has one whose square is met. -/
def Routed (names : List Str) (points : List Coord) (e : Envelope) : Prop :=
  (∃ p ∈ points, e.Contains p ∧ ∃ level : Level, level.nameOf p ∈ names ∧
    (level = .degree → DegreeReached p.1 e.xMin e.xMax ∧ DegreeReached p.2 e.yMin e.yMax)) ∨
  (∃ p ∈ points, ¬e.Contains p ∧ ∃ level : Level, level.nameOf p ∈ names ∧ level.Meets p e)

/-! ### Names are read back -/

section Names

/-- A sign and an absolute value that has been cut, rounded towards zero. -/
theorem signed_natAbs_div (i : ℤ) (d : ℕ) :
    signed (i < 0) ((i.natAbs / d : ℕ) : ℚ) = trunc ((i : ℚ) / d) := by
  obtain ⟨m, rfl | rfl⟩ := Int.eq_nat_or_neg i
  · have hneg : ¬(m : ℤ) < 0 := by omega
    rw [Int.natAbs_natCast, Int.cast_natCast, trunc_natCast_div, decide_eq_false hneg]
    exact (Int.cast_natCast _).symm
  · rw [Int.natAbs_neg, Int.natAbs_natCast, Int.cast_neg, Int.cast_natCast, neg_div, trunc_neg,
      trunc_natCast_div, Int.cast_neg, Int.cast_natCast]
    by_cases hm : m = 0
    · subst hm
      simp [signed]
    · have hneg : -(m : ℤ) < 0 := by omega
      rw [decide_eq_true hneg]
      rfl

/-- An integer is its sign and its absolute value. -/
theorem signed_natAbs (i : ℤ) : signed (i < 0) (i.natAbs : ℚ) = i := by
  rw [Nat.cast_natAbs, Int.cast_abs]
  by_cases hneg : i < 0
  · rw [decide_eq_true hneg, abs_of_neg (Int.cast_lt_zero.mpr hneg)]
    exact neg_neg _
  · rw [decide_eq_false hneg, abs_of_nonneg (Int.cast_nonneg (not_lt.mp hneg))]
    rfl

/-- The sign is put on before or after a division. -/
theorem signed_div (neg : Bool) (q d : ℚ) : signed neg (q / d) = signed neg q / d := by
  cases neg
  · rfl
  · exact (neg_div d q).symm

/-- A degree name is read as the whole degrees of its cell. -/
theorem parseDouble_degree (i : ℤ) :
    parseDouble (axisName i) = some (trunc ((i : ℚ) / 100) : ℚ) := by
  have hne : padLeft '0' 3 (toDecimal (i.natAbs / 100)) ≠ [] :=
    List.append_ne_nil_of_right_ne_nil _ (toDecimal_ne_nil _)
  unfold axisName
  rw [parseDouble_whole _ (isDigits_axis i) hne, digitsValue_padLeft, digitsValue_toDecimal,
    signed_natAbs_div]
  rfl

/-- A degree name with one digit more is read as the tenths of its cell. -/
theorem parseDouble_tenth (i : ℤ) :
    parseDouble (axisName i ++ ['.', tenths i]) = some ((trunc ((i : ℚ) / 10) : ℚ) / 10) := by
  have hne : padLeft '0' 3 (toDecimal (i.natAbs / 100)) ≠ [] :=
    List.append_ne_nil_of_right_ne_nil _ (toDecimal_ne_nil _)
  have hlt : i.natAbs / 10 % 10 < 10 := Nat.mod_lt _ (by norm_num)
  have hdigits : IsDigits [tenths i] := by
    rw [tenths, ← toDecimal_of_lt_ten hlt]
    exact isDigits_toDecimal _
  have hvalue : digitsValue (padLeft '0' 3 (toDecimal (i.natAbs / 100)) ++ [tenths i]) =
      i.natAbs / 10 := by
    rw [digitsValue_append, digitsValue_padLeft, digitsValue_toDecimal, tenths,
      digitsValue_digitChar hlt, List.length_singleton]
    omega
  unfold axisName
  rw [List.append_assoc, parseDouble_fraction _ (isDigits_axis i) hne hdigits, hvalue, signed_div,
    signed_natAbs_div, List.length_singleton, pow_one]
  rfl

/-- A degree name with two digits more is read as the hundredths. -/
theorem parseDouble_hundredth (i : ℤ) :
    parseDouble (axisName i ++ ['.', tenths i, hundredths i]) = some ((i : ℚ) / 100) := by
  have hne : padLeft '0' 3 (toDecimal (i.natAbs / 100)) ≠ [] :=
    List.append_ne_nil_of_right_ne_nil _ (toDecimal_ne_nil _)
  have hten : i.natAbs / 10 % 10 < 10 := Nat.mod_lt _ (by norm_num)
  have hone : i.natAbs % 10 < 10 := Nat.mod_lt _ (by norm_num)
  -- the two digits after the point, each a decimal of one figure
  have hdigits : IsDigits [tenths i, hundredths i] := by
    change IsDigits ([tenths i] ++ [hundredths i])
    rw [tenths, hundredths, ← toDecimal_of_lt_ten hten, ← toDecimal_of_lt_ten hone]
    exact (isDigits_toDecimal _).append (isDigits_toDecimal _)
  -- hundreds, tenths and units together are the number the name was printed from
  have hvalue : digitsValue (padLeft '0' 3 (toDecimal (i.natAbs / 100)) ++
      [tenths i, hundredths i]) = i.natAbs := by
    change digitsValue (_ ++ ([tenths i] ++ [hundredths i])) = _
    rw [digitsValue_append, digitsValue_padLeft, digitsValue_toDecimal, digitsValue_append,
      tenths, digitsValue_digitChar hten, hundredths, digitsValue_digitChar hone]
    simp only [List.length_append, List.length_singleton]
    omega
  unfold axisName
  rw [List.append_assoc, parseDouble_fraction _ (isDigits_axis i) hne hdigits, hvalue, signed_div,
    signed_natAbs]
  norm_num

section Corners

variable {geo : Geometries} {before : Corners geo} {s lon lat : Str} {swLon swLat : geo.Double}
  (hslash : ['/'] <+: s)
include hslash

/-- A name of one level gives a square of one degree. -/
theorem corners_degree (hsplit : splitSlash s = [[], lon, lat])
    (hlon : geo.parseDouble lon = some swLon) (hlat : geo.parseDouble lat = some swLat) :
    corners s before = some (.square swLon swLat 1) := by
  unfold corners
  dsimp only
  rw [if_pos hslash, hsplit]
  dsimp only
  rw [hlon, hlat]
  rfl

/-- A name of two levels gives a square of a tenth of a degree. -/
theorem corners_tenth {x y : Char} (hsplit : splitSlash s = [[], lon, lat, [x, y]])
    (hlon : geo.parseDouble (lon ++ ['.', x]) = some swLon)
    (hlat : geo.parseDouble (lat ++ ['.', y]) = some swLat) :
    corners s before = some (.square swLon swLat (1 / 10)) := by
  unfold corners
  dsimp only
  rw [if_pos hslash, hsplit]
  simp [hlon, hlat]

/-- A name of three levels gives a square of a hundredth. -/
theorem corners_hundredth {x y u v : Char}
    (hsplit : splitSlash s = [[], lon, lat, [x, y], [u, v]])
    (hlon : geo.parseDouble (lon ++ ['.', x, u]) = some swLon)
    (hlat : geo.parseDouble (lat ++ ['.', y, v]) = some swLat) :
    corners s before = some (.square swLon swLat (1 / 100)) := by
  unfold corners
  dsimp only
  rw [if_pos hslash, hsplit]
  simp [hlon, hlat]

end Corners

/-- The corners of the name of a tile at a level. -/
theorem corners_nameOf (level : Level) (p : Coord) (before : Corners exactGeometries) :
    corners (level.nameOf p) before =
    some (.square (level.corner p.1) (level.corner p.2) level.size) := by
  let i := ⌊p.1 * 10 ^ 2⌋
  let j := ⌊p.2 * 10 ^ 2⌋
  -- every level cuts the corner that was rounded down to hundredths
  have hgrid : ∀ c : ℚ, floor10 c 2 = (⌊c * 10 ^ 2⌋ : ℚ) / 100 := by
    intro c
    unfold floor10
    norm_num
  have hname : calculateLATLONName (floor10 p.1 2) (floor10 p.2 2) 2 =
      path [axisName i, axisName j, [tenths i, tenths j], [hundredths i, hundredths j]] := by
    rw [hgrid, hgrid, calculateLATLONName_grid]
  have hfree := slashFree_gridName i j
  have hstart : ∀ cs : List Str, cs ≠ [] → ['/'] <+: path cs := by
    intro cs hcs
    cases cs with
    | nil => exact absurd rfl hcs
    | cons c cs => exact ⟨_, rfl⟩
  have hten : ∀ k : ℤ, (k : ℚ) / 100 * 10 = k / 10 := fun k => by ring
  -- the three lengths of a name are the three cases of `corners`
  cases level with
  | hundredth =>
    have hsplit : splitSlash (path [axisName i, axisName j, [tenths i, tenths j],
        [hundredths i, hundredths j]]) = [[], axisName i, axisName j, [tenths i, tenths j],
        [hundredths i, hundredths j]] :=
      @splitSlash_path [axisName i, axisName j, [tenths i, tenths j]] _ hfree
        (List.cons_ne_nil _ _)
    unfold Level.nameOf Level.corner Level.size
    dsimp only
    rw [hname, hgrid, hgrid]
    exact corners_hundredth (hstart _ (List.cons_ne_nil _ _)) hsplit (parseDouble_hundredth i)
      (parseDouble_hundredth j)
  | tenth =>
    have hthree : ∀ d ∈ [axisName i, axisName j, [tenths i, tenths j]], SlashFree d :=
      fun d hd => hfree d (List.mem_append_left [[hundredths i, hundredths j]] hd)
    have hsplit : splitSlash (path [axisName i, axisName j, [tenths i, tenths j]]) =
        [[], axisName i, axisName j, [tenths i, tenths j]] :=
      @splitSlash_path [axisName i, axisName j] _ hthree (List.cons_ne_nil _ _)
    unfold Level.nameOf Level.corner Level.size
    dsimp only
    rw [hname, name10Of_path hfree, hgrid, hgrid, hten, hten]
    exact corners_tenth (hstart _ (List.cons_ne_nil _ _)) hsplit (parseDouble_tenth i)
      (parseDouble_tenth j)
  | degree =>
    have htwo : ∀ d ∈ [axisName i, axisName j], SlashFree d :=
      fun d hd => hfree d (List.mem_append_left [[tenths i, tenths j], _] hd)
    have hne : axisName j ≠ [] :=
      List.append_ne_nil_of_right_ne_nil _
        (List.append_ne_nil_of_right_ne_nil _ (toDecimal_ne_nil _))
    have hsplit : splitSlash (path [axisName i, axisName j]) = [[], axisName i, axisName j] :=
      @splitSlash_path [axisName i] _ htwo hne
    unfold Level.nameOf Level.corner Level.size
    dsimp only
    rw [hname, name100Of_path hfree, hgrid, hgrid]
    exact corners_degree (hstart _ (List.cons_ne_nil _ _)) hsplit (parseDouble_degree i)
      (parseDouble_degree j)

/-- The rectangle of a name. -/
def Level.rectangle (p : Coord) (level : Level) : Rectangle :=
  ⟨level.corner p.1, level.corner p.2, level.corner p.1 + level.size,
    level.corner p.2 + level.size⟩

/-- No tile is empty. -/
theorem Level.size_pos (level : Level) : 0 < level.size := by
  cases level <;> norm_num [Level.size]

/-- A name has one rectangle. -/
theorem Level.rectangle_congr {level level' : Level} {p p' : Coord}
    (h : level.nameOf p = level'.nameOf p') : level.rectangle p = level'.rectangle p' := by
  have hcorners := corners_nameOf level p zeroCorners
  rw [h, corners_nameOf level' p'] at hcorners
  have heq := Option.some.inj hcorners
  have hlon := congrArg Corners.swLon heq
  have hlat := congrArg Corners.swLat heq
  have hlon' := congrArg Corners.neLon heq
  have hlat' := congrArg Corners.neLat heq
  exact (Rectangle.mk.injEq ..).mpr ⟨hlon.symm, hlat.symm, hlon'.symm, hlat'.symm⟩

/-- The R-tree of an index has the rectangles of its names. -/
theorem rectangles_names {points : List Coord} : ∀ {names : List Str},
    (∀ name ∈ names, ∃ p ∈ points, ∃ level : Level, name = level.nameOf p) →
    ∀ before : Corners exactGeometries, ∃ rtree : List Rectangle,
      rectangles (names.map .string) before = some rtree ∧
      ∀ rectangle, rectangle ∈ rtree ↔ ∃ p ∈ points, ∃ level : Level,
        level.nameOf p ∈ names ∧ rectangle = level.rectangle p := by
  intro names
  -- the corners carry over from name to name, so the induction is for every `before`
  induction names with
  | nil => exact fun _ _ => ⟨[], rfl, by simp⟩
  | cons name names ih =>
    intro h before
    obtain ⟨p, hp, level, rfl⟩ := h name List.mem_cons_self
    obtain ⟨rtree, hrtree, hmem⟩ := ih (fun name hname => h name (List.mem_cons_of_mem _ hname))
      (.square (level.corner p.1) (level.corner p.2) level.size)
    refine ⟨level.rectangle p :: rtree, ?_, fun rectangle => ?_⟩
    · have hrectangle : exactGeometries.rectangleGeographic (level.corner p.1) (level.corner p.2)
          (level.corner p.1 + level.size) (level.corner p.2 + level.size) =
          some (level.rectangle p) :=
        if_pos ⟨le_add_of_nonneg_right level.size_pos.le, le_add_of_nonneg_right level.size_pos.le⟩
      rw [List.map_cons, rectangles]
      change (do
        let c ← corners (level.nameOf p) before
        let rectangle ← exactGeometries.rectangleGeographic c.swLon c.swLat c.neLon c.neLat
        let rtree ← rectangles (names.map .string) c
        pure (rectangle :: rtree)) = _
      rw [corners_nameOf]
      change (do
        let rectangle ← exactGeometries.rectangleGeographic (level.corner p.1) (level.corner p.2)
          (level.corner p.1 + level.size) (level.corner p.2 + level.size)
        let rtree ← rectangles (names.map .string)
          (.square (level.corner p.1) (level.corner p.2) level.size)
        pure (rectangle :: rtree)) = _
      rw [hrectangle, hrtree]
      rfl
    · rw [List.mem_cons, hmem]
      constructor
      · rintro (rfl | ⟨p', hp', level', hname, heq⟩)
        · exact ⟨p, hp, level, List.mem_cons_self, rfl⟩
        · exact ⟨p', hp', level', List.mem_cons_of_mem _ hname, heq⟩
      · rintro ⟨p', hp', level', hname, heq⟩
        rcases List.mem_cons.mp hname with hname | hname
        · exact .inl (heq.trans (Level.rectangle_congr hname))
        · exact .inr ⟨p', hp', level', hname, heq⟩

end Names

/-! ### Bounds along an axis -/

/-- The cast rounds towards zero, so it never goes below the floor. -/
theorem floor_le_trunc (q : ℚ) : ⌊q⌋ ≤ trunc q := by
  unfold trunc
  split
  · exact le_rfl
  · exact Int.floor_le_ceil q

/-- The cast never goes above the ceiling. -/
theorem trunc_le_ceil (q : ℚ) : trunc q ≤ ⌈q⌉ := by
  unfold trunc
  split
  · exact Int.floor_le_ceil q
  · exact le_rfl

/-- The code's `floor10` with two decimals is the floor of the hundredths. -/
theorem floor10_two (c : ℚ) : floor10 c 2 = (⌊c * 100⌋ : ℚ) / 100 := by
  unfold floor10
  norm_num

section Axis

variable {c min max : ℚ}

/-- The search begins at the tenth below the envelope. -/
theorem searchBounds_fst : (searchBounds min max).1 = (⌊(min + 1 / 10 ^ 6) * 10⌋ : ℚ) / 10 := by
  unfold searchBounds Utils.floor10
  norm_num

/-- The search ends at the tenth above the envelope or behind it. -/
theorem ceil_le_searchBounds_snd :
    (⌈(max - 1 / 10 ^ 6) * 10⌉ : ℚ) / 10 ≤ (searchBounds min max).2 := by
  have hceil : Utils.ceil10 max 1 = (⌈(max - 1 / 10 ^ 6) * 10⌉ : ℚ) / 10 := by
    unfold Utils.ceil10
    norm_num
  rw [← hceil]
  unfold searchBounds
  dsimp only
  split
  · exact le_add_of_nonneg_right zero_le_one
  · exact le_rfl

/-- The bounds of a search are in order. -/
theorem searchBounds_le (h : min < max) : (searchBounds min max).1 ≤ (searchBounds min max).2 := by
  refine le_trans ?_ ceil_le_searchBounds_snd
  rw [searchBounds_fst]
  -- both are tenths, and not a whole one apart in the wrong order
  have hlt : ⌊(min + 1 / 10 ^ 6) * 10⌋ < ⌈(max - 1 / 10 ^ 6) * 10⌉ + 1 := by
    have hfloor := Int.floor_le ((min + 1 / 10 ^ 6) * 10)
    have hceil := Int.le_ceil ((max - 1 / 10 ^ 6) * 10)
    have hcast : (⌊(min + 1 / 10 ^ 6) * 10⌋ : ℚ) < (⌈(max - 1 / 10 ^ 6) * 10⌉ : ℚ) + 1 := by
      norm_num at hfloor hceil ⊢
      linarith
    exact_mod_cast hcast
  have hle : (⌊(min + 1 / 10 ^ 6) * 10⌋ : ℚ) ≤ (⌈(max - 1 / 10 ^ 6) * 10⌉ : ℚ) := by
    exact_mod_cast Int.lt_add_one_iff.mp hlt
  linarith

/-- A search for a coordinate starts before the square of its name ends. -/
theorem searchBounds_fst_le (level : Level) (h : min ≤ c) :
    (searchBounds min max).1 ≤ level.corner c + level.size := by
  let i := ⌊c * 100⌋
  let n := ⌊(min + 1 / 10 ^ 6) * 10⌋
  -- the start is a whole tenth and not above the point, so it is at most the next hundredth
  have hn : 10 * n ≤ i + 1 := by
    have hfloor : (n : ℚ) ≤ (min + 1 / 10 ^ 6) * 10 := Int.floor_le _
    have hi : c * 100 < i + 1 := Int.lt_floor_add_one _
    have hlt : 10 * n < i + 1 + 1 := by
      have hcast : 10 * (n : ℚ) < (i : ℚ) + 1 + 1 := by
        norm_num at hfloor ⊢
        linarith
      exact_mod_cast hcast
    omega
  have hstart : (n : ℚ) / 10 ≤ (i + 1) / 100 := by
    have hcast : 10 * (n : ℚ) ≤ i + 1 := by exact_mod_cast hn
    linarith
  rw [searchBounds_fst]
  refine hstart.trans ?_
  -- rounding towards 0 gives up less than one tile
  have hcut : ∀ d : ℕ, 0 < d → (i : ℚ) + 1 ≤ (trunc ((i : ℚ) / d) + 1) * d := by
    intro d hd
    have hlt : (i : ℚ) / d < trunc ((i : ℚ) / d) + 1 := by
      refine (Int.lt_floor_add_one ((i : ℚ) / d)).trans_le ?_
      exact_mod_cast Int.add_le_add_right (floor_le_trunc ((i : ℚ) / d)) 1
    rw [div_lt_iff₀ (by exact_mod_cast hd)] at hlt
    have hint : i < (trunc ((i : ℚ) / d) + 1) * d := by exact_mod_cast hlt
    exact_mod_cast hint
  cases level with
  | hundredth =>
    change _ ≤ floor10 c 2 + 1 / 100
    rw [floor10_two]
    exact le_of_eq (add_div (i : ℚ) 1 100)
  | tenth =>
    change _ ≤ (trunc (floor10 c 2 * 10) : ℚ) / 10 + 1 / 10
    have hten := hcut 10 (by norm_num)
    rw [floor10_two, show (⌊c * 100⌋ : ℚ) / 100 * 10 = (i : ℚ) / (10 : ℕ) by
      push_cast
      ring]
    push_cast at hten ⊢
    linarith
  | degree =>
    change _ ≤ (trunc (floor10 c 2) : ℚ) + 1
    have hhundred := hcut 100 (by norm_num)
    rw [floor10_two, show (⌊c * 100⌋ : ℚ) / 100 = (i : ℚ) / (100 : ℕ) by push_cast; rfl]
    push_cast at hhundred ⊢
    linarith

/-- A search for a coordinate stops behind the corner of its name, for the degrees if they are
reached. -/
theorem corner_le_searchBounds_snd (level : Level) (h : c ≤ max) :
    level.corner c ≤ (searchBounds min max).2 ↔ (level = .degree → DegreeReached c min max) := by
  let i := ⌊c * 100⌋
  let m := ⌈(max - 1 / 10 ^ 6) * 10⌉
  -- the end is a whole tenth and not below the hundredth of the point
  have hm : i ≤ 10 * m := by
    have hceil : (max - 1 / 10 ^ 6) * 10 ≤ (m : ℚ) := Int.le_ceil _
    have hi : (i : ℚ) ≤ c * 100 := Int.floor_le _
    have hlt : i < 10 * m + 1 := by
      have hcast : (i : ℚ) < 10 * m + 1 := by
        norm_num at hceil ⊢
        linarith
      exact_mod_cast hcast
    omega
  have hstop : (i : ℚ) / 100 ≤ (searchBounds min max).2 := by
    refine le_trans ?_ ceil_le_searchBounds_snd
    have hcast : (i : ℚ) ≤ 10 * m := by exact_mod_cast hm
    change (i : ℚ) / 100 ≤ (m : ℚ) / 10
    linarith
  -- only the corner of a degree can be rounded up past the end
  cases level with
  | hundredth =>
    refine iff_of_true ?_ (fun h => absurd h (by decide))
    change floor10 c 2 ≤ _
    rw [floor10_two]
    exact hstop
  | tenth =>
    refine iff_of_true ?_ (fun h => absurd h (by decide))
    refine le_trans ?_ ceil_le_searchBounds_snd
    change (trunc (floor10 c 2 * 10) : ℚ) / 10 ≤ (m : ℚ) / 10
    have htrunc : trunc (floor10 c 2 * 10) ≤ m := by
      refine (trunc_le_ceil _).trans (Int.ceil_le.mpr ?_)
      have hcast : (i : ℚ) ≤ 10 * m := by exact_mod_cast hm
      rw [floor10_two]
      change (i : ℚ) / 100 * 10 ≤ m
      linarith
    have hcast : (trunc (floor10 c 2 * 10) : ℚ) ≤ m := by exact_mod_cast htrunc
    linarith
  | degree =>
    refine ⟨fun hreached _ => .inr hreached, fun hreached => ?_⟩
    rcases hreached rfl with hpos | hreached
    · -- what is not negative is rounded down
      refine le_trans ?_ hstop
      have hi : (0 : ℚ) ≤ (⌊c * 100⌋ : ℚ) / 100 := by
        have hfloor : 0 ≤ ⌊c * 100⌋ := Int.floor_nonneg.mpr (by linarith)
        have hcast : (0 : ℚ) ≤ (⌊c * 100⌋ : ℚ) := by exact_mod_cast hfloor
        linarith
      change (trunc (floor10 c 2) : ℚ) ≤ _
      rw [floor10_two, trunc, if_pos hi]
      exact Int.floor_le _
    · exact hreached

end Axis

/-! ### The repositories that are found -/

/-- The square of a name meets the search if the rectangles of both do. -/
theorem meets_iff {level : Level} {p : Coord} {e : Envelope} {query : Rectangle}
    (hquery : searchRectangle e = some query) :
    query.intersects (level.rectangle p) = true ↔ level.Meets p e := by
  unfold searchRectangle at hquery
  dsimp only at hquery
  change (if _ then _ else _) = some query at hquery
  split at hquery
  · obtain rfl := Option.some.inj hquery
    unfold Rectangle.intersects Level.Meets Level.rectangle
    simp only [Bool.and_eq_true, decide_eq_true_eq]
    tauto
  · exact absurd hquery (by simp)

/-- Along both axes, the names of a point of the envelope are met but for degrees that are not
reached. -/
theorem meets_of_contains {level : Level} {p : Coord} {e : Envelope} (h : e.Contains p) :
    level.Meets p e ↔ (level = .degree →
      DegreeReached p.1 e.xMin e.xMax ∧ DegreeReached p.2 e.yMin e.yMax) := by
  obtain ⟨hxMin, hxMax, hyMin, hyMax⟩ := h
  unfold Level.Meets
  rw [and_iff_right (searchBounds_fst_le level hxMin),
    and_iff_right (searchBounds_fst_le level hyMin), corner_le_searchBounds_snd level hxMax,
    corner_le_searchBounds_snd level hyMax, imp_and]

/-- An envelope with an inside has a search rectangle. -/
theorem searchRectangle_isSome {e : Envelope} (hx : e.xMin < e.xMax) (hy : e.yMin < e.yMax) :
    ∃ query, searchRectangle e = some query :=
  ⟨_, if_pos ⟨searchBounds_le hx, searchBounds_le hy⟩⟩

/-- What is returned for an envelope are the R-trees its search rectangle meets. -/
theorem repoIntersect_envelope {engine : GeometryEngine} {executionParamsContent : Value}
    {e : Envelope} (htarget : engine.target executionParamsContent = some (.envelope e))
    {query : Rectangle} (hquery : searchRectangle e = some query)
    (m : NDNQueryRepoMap exactGeometries) : repoIntersect engine m executionParamsContent =
      some fun repoName =>
        match m.rtreeMap repoName with
        | none => false
        | some rtree => 0 < (rtree.filter (Rectangle.intersects query)).length := by
  unfold repoIntersect
  rw [htarget]
  change (searchRectangle e).bind _ = _
  rw [hquery]
  rfl

/-- **When a repository is found.** A repository that stores a point of the envelope is in the
result if and only if the query is routed to it. -/
theorem repoIntersect_iff {engine : GeometryEngine} {executionParamsContent : Value}
    {e : Envelope} (htarget : engine.target executionParamsContent = some (.envelope e))
    (hx : e.xMin < e.xMax) (hy : e.yMin < e.yMax) {points : List Coord} {names : List Str}
    (hindex : IsIndexOf names points) (repoName : Str) (m : NDNQueryRepoMap exactGeometries) :
    ∃ result, repoIntersect engine (m.updateRtree repoName (some (names.map .string))).2
        executionParamsContent = some result ∧
      (result repoName = true ↔ Routed names points e) := by
  obtain ⟨query, hquery⟩ := searchRectangle_isSome hx hy
  obtain ⟨rtree, hrtree, hmem⟩ := rectangles_names hindex.2 zeroCorners
  have hupdate : (m.updateRtree repoName (some (names.map .string))).2.rtreeMap repoName =
      some rtree := by
    unfold NDNQueryRepoMap.updateRtree
    dsimp only [Option.bind_some]
    rw [hrtree]
    exact Function.update_self _ _ _
  refine ⟨_, repoIntersect_envelope htarget hquery _, ?_⟩
  rw [hupdate]
  dsimp only
  rw [decide_eq_true_eq, List.length_pos_iff_exists_mem]
  unfold Routed
  constructor
  · rintro ⟨rectangle, hrectangle⟩
    obtain ⟨hrectangle, hmeets⟩ := List.mem_filter.mp hrectangle
    obtain ⟨p, hp, level, hname, rfl⟩ := (hmem rectangle).mp hrectangle
    have hmeets := (meets_iff hquery).mp hmeets
    -- `Routed` tells the two apart: a point of the query itself, or only its tile
    by_cases hcontains : e.Contains p
    · exact .inl ⟨p, hp, hcontains, level, hname, (meets_of_contains hcontains).mp hmeets⟩
    · exact .inr ⟨p, hp, hcontains, level, hname, hmeets⟩
  · intro hrouted
    obtain ⟨p, hp, level, hname, hmeets⟩ : ∃ p ∈ points, ∃ level : Level,
        level.nameOf p ∈ names ∧ level.Meets p e := by
      -- for a point of the query, meeting the query says no more than having been reached
      rcases hrouted with ⟨p, hp, hcontains, level, hname, hreached⟩ |
          ⟨p, hp, _, level, hname, hmeets⟩
      · exact ⟨p, hp, level, hname, (meets_of_contains hcontains).mpr hreached⟩
      · exact ⟨p, hp, level, hname, hmeets⟩
    exact ⟨level.rectangle p, List.mem_filter.mpr
      ⟨(hmem _).mpr ⟨p, hp, level, hname, rfl⟩, (meets_iff hquery).mpr hmeets⟩⟩

/-- An engine that reads the envelope off the corners of a polygon. -/
def boxEngine : GeometryEngine where
  queryEnvelope geom := do
    let rings ← (← (← geom).member? "coordinates".toList).at? 0
    let swCorner ← rings.at? 0
    let neCorner ← rings.at? 2
    let xMin ← (← swCorner.at? 0).getDouble?
    let yMin ← (← swCorner.at? 1).getDouble?
    let xMax ← (← neCorner.at? 0).getDouble?
    let yMax ← (← neCorner.at? 1).getDouble?
    pure ⟨xMin, yMin, xMax, yMax⟩

/-- A query for the objects in a box. -/
def boxQuery (e : Envelope) : Value :=
  let position (x y : ℚ) : Value := .array [.number x, .number y]
  .object [("geometry".toList, .object [("$geoIntersects".toList, .object [("$geometry".toList,
    .object [("type".toList, .string "Polygon".toList),
      ("coordinates".toList, .array [.array [position e.xMin e.yMin, position e.xMax e.yMin,
        position e.xMax e.yMax, position e.xMin e.yMax, position e.xMin e.yMin]])])])])]

/-- A box in the west of London, half a degree west of Greenwich. -/
def westLondon : Envelope := ⟨-55 / 100, 5145 / 100, -45 / 100, 5155 / 100⟩

theorem target_westLondon :
    boxEngine.target (boxQuery westLondon) = some (.envelope westLondon) := rfl

/-- The same box, and a point in it that has a name of tenths. -/
theorem repoIntersect_iff_westLondon :
    ∃ result, repoIntersect boxEngine ((NDNQueryRepoMap.empty.updateRtree "/repo/r".toList
        (some (["/-000/051/55".toList].map .string))).2) (boxQuery westLondon) = some result ∧
      (result "/repo/r".toList = true ↔
        Routed ["/-000/051/55".toList] [(-1 / 2, 103 / 2)] westLondon) := by
  have hname : "/-000/051/55".toList = Level.tenth.nameOf (-1 / 2, 103 / 2) := by decide +kernel
  refine repoIntersect_iff target_westLondon (by decide +kernel) (by decide +kernel) ⟨?_, ?_⟩ _ _
  · intro p hp
    obtain rfl := List.mem_singleton.mp hp
    exact ⟨.tenth, hname ▸ List.mem_singleton_self _⟩
  · intro name hn
    obtain rfl := List.mem_singleton.mp hn
    exact ⟨_, List.mem_singleton_self _, .tenth, hname⟩

/-- The point is not found by its name of degrees. -/
theorem repository_not_found :
    IsIndexOf ["/-000/051".toList] [(-1 / 2, 103 / 2)] ∧ westLondon.Contains (-1 / 2, 103 / 2) ∧
      (repoIntersect boxEngine ((NDNQueryRepoMap.empty.updateRtree "/repo/r".toList
        (some (["/-000/051".toList].map .string))).2) (boxQuery westLondon)).map
        (fun result => result "/repo/r".toList) = some false := by
  have hname : "/-000/051".toList = Level.degree.nameOf (-1 / 2, 103 / 2) := by decide +kernel
  refine ⟨⟨?_, ?_⟩, by unfold Envelope.Contains; decide +kernel, by decide +kernel⟩
  · intro p hp
    obtain rfl := List.mem_singleton.mp hp
    exact ⟨.degree, hname ▸ List.mem_singleton_self _⟩
  · intro name hn
    obtain rfl := List.mem_singleton.mp hn
    exact ⟨_, List.mem_singleton_self _, .degree, hname⟩

end OpenGeoBase
