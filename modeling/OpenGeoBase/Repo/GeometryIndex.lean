import OpenGeoBase.Repo.Json
import OpenGeoBase.Repo.Naming

/-!
# The tiles of an object

`MongoStorage::calculateGeometryIndex` turns the geometry of a GeoJSON object into
the coordinate pairs that `shardIndexer` names tiles after. A point is rounded down
to the 0.01-degree grid. The points of a multipoint are rounded down to whole
degrees, and a polygon is cut into cells of one degree.

An access to ill-formed JSON that fails is `none`. Doubles are exact, and the
conversions to `int` do not overflow. The intersection test of the geometry library
is a parameter, given the outer ring of the polygon and the corners of a box.
-/

namespace OpenGeoBase

open Text

/-- The lexicographic order of `std::pair<double, double>`. -/
def Coord.lt (p q : Coord) : Prop := p.1 < q.1 ∨ (p.1 = q.1 ∧ p.2 < q.2)

instance (p q : Coord) : Decidable (Coord.lt p q) :=
  inferInstanceAs (Decidable (p.1 < q.1 ∨ (p.1 = q.1 ∧ p.2 < q.2)))

/-- Insertion into a `std::set<std::pair<double, double>>`, read as its sorted contents. -/
def coordSetInsert (p : Coord) : List Coord → List Coord
  | [] => [p]
  | q :: qs =>
    if p = q then q :: qs
    else if Coord.lt p q then p :: q :: qs
    else q :: coordSetInsert p qs

/-- The coordinate set of a single position: its corner on the 0.01-degree grid. -/
def pointIndex (x y : ℚ) : List Coord := coordSetInsert (floor10 x 2, floor10 y 2) []

/-- A position: the first two numbers of an array. -/
def Value.position? (v : Value) : Option Coord := do
  let x ← (← v.at? 0).getDouble?
  let y ← (← v.at? 1).getDouble?
  pure (x, y)

/-- `MongoStorage::calculatePointIndex`. -/
def calculatePointIndex (coordinates : Value) : Option (List Coord) := do
  let (x, y) ← coordinates.position?
  pure (pointIndex x y)

/-- The loop of `calculateMultiPointIndex`. -/
def multiPointLoop : List Value → List Coord → Option (List Coord)
  | [], coordSet => some coordSet
  | v :: vs, coordSet => do
    let (x, y) ← v.position?
    multiPointLoop vs (coordSetInsert (⌊x⌋, ⌊y⌋) coordSet)

/-- `MongoStorage::calculateMultiPointIndex`. -/
def calculateMultiPointIndex (coordinates : Value) : Option (List Coord) := do
  let positions ← coordinates.elements?
  multiPointLoop positions []

/-- The smallest positive normal double, where the search for the maxima starts. -/
def dblMin : ℚ := 1 / 2 ^ 1022

/-- The bounds of a polygon so far, and its outer ring. The minima start at the largest
double, here `none`. -/
structure PolygonBounds where
  min_x : Option ℤ
  min_y : Option ℤ
  max_x : ℚ
  max_y : ℚ
  outer : List Coord

/-- A new minimum, rounded down. -/
def lowerBound (x : ℚ) : Option ℤ → Option ℤ
  | none => some ⌊x⌋
  | some m => if x < m then some ⌊x⌋ else some m

/-- A new maximum, rounded up. -/
def upperBound (x m : ℚ) : ℚ := if x > m then ⌈x⌉ else m

/-- The loop over the outer ring in `calculatePolygonIndex`. -/
def polygonBoundsLoop : List Value → PolygonBounds → Option PolygonBounds
  | [], b => some b
  | v :: vs, b => do
    let (x, y) ← v.position?
    polygonBoundsLoop vs ⟨lowerBound x b.min_x, lowerBound y b.min_y, upperBound x b.max_x,
      upperBound y b.max_y, b.outer ++ [(x, y)]⟩

/-- The values of `i` in `for (int i = lo; i < hi; i++)`. -/
def intRange (lo : ℤ) (hi : ℚ) : List ℤ := (List.range (⌈hi⌉ - lo).toNat).map fun k : ℕ => lo + k

/-- The cells a polygon meets, out of those in its bounds. -/
def polygonCells (intersects : List Coord → Coord → Coord → Bool) (outer : List Coord)
    (cells : List (ℤ × ℤ)) (coordSet : List Coord) : List Coord :=
  cells.foldl (fun coordSet c =>
    if intersects outer (c.1, c.2) (c.1 + 1, c.2 + 1) then coordSetInsert (c.1, c.2) coordSet
    else coordSet) coordSet

/-- `MongoStorage::calculatePolygonIndex`. The conversion of the largest double to `int`,
for an empty ring, is undefined. -/
def calculatePolygonIndex (intersects : List Coord → Coord → Coord → Bool)
    (coordinates : Value) : Option (List Coord) := do
  let positions ← (← coordinates.at? 0).elements?
  let b ← polygonBoundsLoop positions ⟨none, none, dblMin, dblMin, []⟩
  let min_x ← b.min_x
  let min_y ← b.min_y
  let cells := (intRange min_x b.max_x).flatMap fun i =>
    (intRange min_y b.max_y).map fun j => (i, j)
  pure (polygonCells intersects b.outer cells [])

/-- `MongoStorage::calculateGeometryIndex`. -/
def calculateGeometryIndex (intersects : List Coord → Coord → Coord → Bool) (json_data : Value) :
    Option (List Coord) := do
  let geometry ← json_data.member? "geometry".toList
  let geometry_type ← (← geometry.member? "type".toList).getString?
  -- only looked into where the type calls for it
  let coordinates := (geometry.member? "coordinates".toList).getD .null
  if iequals geometry_type "Point".toList then calculatePointIndex coordinates
  else if iequals geometry_type "MultiPoint".toList then calculateMultiPointIndex coordinates
  else if iequals geometry_type "Polygon".toList then calculatePolygonIndex intersects coordinates
  else pure []

/-! ### GeoJSON objects -/

/-- A GeoJSON object. -/
def feature (geometry_type : String) (coordinates : Value) : Value :=
  .object [("geometry".toList,
    .object [("type".toList, .string geometry_type.toList), ("coordinates".toList, coordinates)])]

/-- A position in GeoJSON. -/
def Coord.toJson (c : Coord) : Value := .array [.number c.1, .number c.2]

/-! ### What the loops compute -/

/-- The set gains the coordinate and keeps the others. -/
theorem mem_coordSetInsert {p q : Coord} {s : List Coord} :
    q ∈ coordSetInsert p s ↔ q = p ∨ q ∈ s := by
  induction s with
  | nil => simp [coordSetInsert]
  | cons r s ih =>
    unfold coordSetInsert
    split
    · next h => simp [h]
    · split
      · simp
      · simp only [List.mem_cons, ih]
        tauto

/-- The positions an array lists. -/
def Value.positions? (v : Value) : Option (List Coord) := do
  (← v.elements?).mapM Value.position?

/-- The loop over a MultiPoint gathers the degrees of its points. -/
theorem mem_multiPointLoop {vs : List Value} {ps s : List Coord}
    (h : vs.mapM Value.position? = some ps) :
    ∃ r, multiPointLoop vs s = some r ∧
      ∀ q, q ∈ r ↔ q ∈ s ∨ ∃ p ∈ ps, q = (((⌊p.1⌋ : ℤ) : ℚ), ((⌊p.2⌋ : ℤ) : ℚ)) := by
  -- the set read so far is the accumulator, so the induction is for every `s`
  induction vs generalizing ps s with
  | nil =>
    obtain rfl : ps = [] := by simpa using h.symm
    exact ⟨s, rfl, by simp⟩
  | cons v vs ih =>
    rw [List.mapM_cons] at h
    cases hv : v.position? with
    | none => simp [hv] at h
    | some p =>
      cases hvs : vs.mapM Value.position? with
      | none => simp [hv, hvs] at h
      | some ps' =>
        obtain rfl : ps = p :: ps' := by simpa [hv, hvs] using h.symm
        obtain ⟨r, hr, hmem⟩ := ih (s := coordSetInsert (⌊p.1⌋, ⌊p.2⌋) s) hvs
        refine ⟨r, ?_, fun q => ?_⟩
        · unfold multiPointLoop
          rw [hv]
          exact hr
        · rw [hmem, mem_coordSetInsert]
          simp only [List.mem_cons, exists_eq_or_imp]
          tauto

/-- The counter of a loop runs from its start to below the bound. -/
theorem mem_intRange {lo i : ℤ} {hi : ℚ} : i ∈ intRange lo hi ↔ lo ≤ i ∧ (i : ℚ) < hi := by
  unfold intRange
  rw [← Int.lt_ceil]
  simp only [List.mem_map, List.mem_range]
  constructor
  · rintro ⟨k, hk, rfl⟩
    omega
  · rintro ⟨h₁, h₂⟩
    exact ⟨(i - lo).toNat, by omega, by omega⟩

/-- The cells of a polygon are those the test lets through. -/
theorem mem_polygonCells {intersects : List Coord → Coord → Coord → Bool} {outer s : List Coord}
    {cells : List (ℤ × ℤ)} {q : Coord} :
    q ∈ polygonCells intersects outer cells s ↔ q ∈ s ∨ ∃ c ∈ cells,
      intersects outer (c.1, c.2) (c.1 + 1, c.2 + 1) = true ∧ q = ((c.1 : ℚ), (c.2 : ℚ)) := by
  unfold polygonCells
  induction cells generalizing s with
  | nil => simp
  | cons c cells ih =>
    rw [List.foldl_cons, ih]
    simp only [List.mem_cons, exists_eq_or_imp]
    split
    · next h =>
      rw [mem_coordSetInsert]
      simp only [h, true_and]
      tauto
    · next h => simp [h]

/-- What the search for the bounds of the coordinates `xs` along one axis makes of a minimum
`lo` and a maximum `hi`. -/
structure AxisBounds (lo lo' : Option ℤ) (hi hi' : ℚ) (xs : List ℚ) : Prop where
  isSome : lo.isSome ∨ xs ≠ [] → lo'.isSome
  le_lower : ∀ m ∈ lo', ∀ m₀ ∈ lo, m ≤ m₀
  le_floor : ∀ m ∈ lo', ∀ x ∈ xs, m ≤ ⌊x⌋
  lt_upper : ∀ i : ℤ, (i : ℚ) < hi' ↔ (i : ℚ) < hi ∨ ∃ x ∈ xs, (i : ℚ) < x

/-- Without further values the bounds stay. -/
theorem AxisBounds.nil (lo : Option ℤ) (hi : ℚ) : AxisBounds lo lo hi hi [] where
  isSome h := by simpa using h
  le_lower m hm m₀ hm₀ := by
    rw [Option.mem_def] at hm hm₀
    exact (Option.some.inj (hm.symm.trans hm₀)).le
  le_floor := by simp
  lt_upper := by simp

/-- A whole number stays below the new maximum if it is below the old one or below `x`. -/
theorem lt_upperBound {x m : ℚ} {i : ℤ} :
    (i : ℚ) < upperBound x m ↔ (i : ℚ) < m ∨ (i : ℚ) < x := by
  unfold upperBound
  split
  · next h =>
    rw [Int.cast_lt, Int.lt_ceil]
    exact ⟨Or.inr, fun h' => h'.elim (fun h' => h'.trans h) id⟩
  · next h => exact ⟨Or.inl, fun h' => h'.elim id fun h' => h'.trans_le (not_lt.mp h)⟩

/-- Each further value moves the bounds as the code does. -/
theorem AxisBounds.cons {x : ℚ} {lo lo' : Option ℤ} {hi hi' : ℚ} {xs : List ℚ}
    (h : AxisBounds (lowerBound x lo) lo' (upperBound x hi) hi' xs) :
    AxisBounds lo lo' hi hi' (x :: xs) := by
  -- the minimum after this coordinate
  have hlower : ∃ m₁ ∈ lowerBound x lo, m₁ ≤ ⌊x⌋ ∧ ∀ m₀ ∈ lo, m₁ ≤ m₀ := by
    cases lo with
    | none => exact ⟨⌊x⌋, rfl, le_rfl, by simp⟩
    | some m₀ =>
      by_cases hlt : x < m₀
      · refine ⟨⌊x⌋, if_pos hlt, le_rfl, fun m hm => ?_⟩
        obtain rfl : m₀ = m := by simpa using hm
        exact (Int.cast_lt.mp ((Int.floor_le x).trans_lt hlt)).le
      · refine ⟨m₀, if_neg hlt, Int.le_floor.mpr (not_lt.mp hlt), fun m hm => ?_⟩
        obtain rfl : m₀ = m := by simpa using hm
        exact le_rfl
  obtain ⟨m₁, hm₁, hfloor, hold⟩ := hlower
  refine ⟨fun _ => h.isSome (Or.inl ?_), fun m hm m₀ hm₀ => ?_, fun m hm z hz => ?_, fun i => ?_⟩
  · rw [Option.mem_def.mp hm₁]
    rfl
  · exact (h.le_lower m hm m₁ hm₁).trans (hold m₀ hm₀)
  · rcases List.mem_cons.mp hz with rfl | hz
    · exact (h.le_lower m hm m₁ hm₁).trans hfloor
    · exact h.le_floor m hm z hz
  · rw [h.lt_upper, lt_upperBound, or_assoc]
    simp only [List.mem_cons, exists_eq_or_imp]

/-- The loop over a ring collects its points and bounds both coordinates. -/
theorem polygonBoundsLoop_spec {vs : List Value} {ps : List Coord} {b : PolygonBounds}
    (h : vs.mapM Value.position? = some ps) :
    ∃ b', polygonBoundsLoop vs b = some b' ∧ b'.outer = b.outer ++ ps ∧
      AxisBounds b.min_x b'.min_x b.max_x b'.max_x (ps.map Prod.fst) ∧
      AxisBounds b.min_y b'.min_y b.max_y b'.max_y (ps.map Prod.snd) := by
  -- the bounds read so far are the accumulator, so the induction is for every `b`
  induction vs generalizing ps b with
  | nil =>
    obtain rfl : ps = [] := by simpa using h.symm
    exact ⟨b, rfl, by simp, AxisBounds.nil _ _, AxisBounds.nil _ _⟩
  | cons v vs ih =>
    rw [List.mapM_cons] at h
    cases hv : v.position? with
    | none => simp [hv] at h
    | some p =>
      cases hvs : vs.mapM Value.position? with
      | none => simp [hv, hvs] at h
      | some ps' =>
        obtain rfl : ps = p :: ps' := by simpa [hv, hvs] using h.symm
        obtain ⟨b', hb', houter, hx, hy⟩ := ih (b := ⟨lowerBound p.1 b.min_x,
          lowerBound p.2 b.min_y, upperBound p.1 b.max_x, upperBound p.2 b.max_y,
          b.outer ++ [(p.1, p.2)]⟩) hvs
        refine ⟨b', ?_, ?_, hx.cons, hy.cons⟩
        · unfold polygonBoundsLoop
          rw [hv]
          exact hb'
        · rw [houter]
          simp

/-- No positive integer is below the smallest positive double. -/
theorem intCast_lt_dblMin {i : ℤ} : (i : ℚ) < dblMin ↔ i ≤ 0 := by
  have hpos : 0 < dblMin := by
    unfold dblMin
    positivity
  have hone : dblMin < 1 := by
    unfold dblMin
    rw [div_lt_one (by positivity)]
    exact one_lt_pow₀ (by norm_num) (by norm_num)
  constructor
  · intro h
    have h1 : (i : ℚ) < ((1 : ℤ) : ℚ) := by
      push_cast
      exact h.trans hone
    have h2 := Int.cast_lt.mp h1
    omega
  · intro h
    have h0 : (i : ℚ) ≤ 0 := by exact_mod_cast h
    exact h0.trans_lt hpos

/-- The loops visit the cells from the least coordinates up, on either axis as long as the
cell begins below some coordinate of the ring, or not above zero. -/
theorem calculatePolygonIndex_spec (intersects : List Coord → Coord → Coord → Bool)
    {coordinates ring : Value} {ps : List Coord} (hring : coordinates.at? 0 = some ring)
    (hps : ring.positions? = some ps) (hne : ps ≠ []) :
    ∃ r mx my, calculatePolygonIndex intersects coordinates = some r ∧
      (∀ p ∈ ps, mx ≤ ⌊p.1⌋) ∧ (∀ p ∈ ps, my ≤ ⌊p.2⌋) ∧
      ∀ q, q ∈ r ↔ ∃ i j : ℤ, mx ≤ i ∧ (i ≤ 0 ∨ ∃ p ∈ ps, (i : ℚ) < p.1) ∧
        my ≤ j ∧ (j ≤ 0 ∨ ∃ p ∈ ps, (j : ℚ) < p.2) ∧
        intersects ps (i, j) (i + 1, j + 1) = true ∧ q = ((i : ℚ), (j : ℚ)) := by
  unfold Value.positions? at hps
  cases hvs : ring.elements? with
  | none => simp [hvs] at hps
  | some vs =>
    have hmap : vs.mapM Value.position? = some ps := by simpa [hvs] using hps
    obtain ⟨b, hb, houter, hx, hy⟩ := polygonBoundsLoop_spec
      (b := ⟨none, none, dblMin, dblMin, []⟩) hmap
    -- the ring has a point, so the minima, which start empty, are set
    obtain ⟨mx, hmx⟩ := Option.isSome_iff_exists.mp (hx.isSome (Or.inr (by simpa using hne)))
    obtain ⟨my, hmy⟩ := Option.isSome_iff_exists.mp (hy.isSome (Or.inr (by simpa using hne)))
    refine ⟨polygonCells intersects b.outer ((intRange mx b.max_x).flatMap fun i =>
      (intRange my b.max_y).map fun j => (i, j)) [], mx, my, ?_,
      fun p hp => hx.le_floor mx hmx p.1 (List.mem_map_of_mem hp),
      fun p hp => hy.le_floor my hmy p.2 (List.mem_map_of_mem hp), fun q => ?_⟩
    · unfold calculatePolygonIndex
      simp only [hring, hvs, hb, hmx, hmy, Option.bind_eq_bind, Option.bind_some, Option.pure_def]
    · rw [mem_polygonCells, houter, List.nil_append]
      simp only [List.not_mem_nil, false_or, List.mem_flatMap, List.mem_map, mem_intRange,
        hx.lt_upper, hy.lt_upper, intCast_lt_dblMin, Prod.exists]
      constructor
      · rintro ⟨i, j, ⟨i', hi, j', hj, heq⟩, hint, hq⟩
        obtain ⟨rfl, rfl⟩ := Prod.mk.inj heq
        exact ⟨i', j', hi.1, by simpa using hi.2, hj.1, by simpa using hj.2, hint, hq⟩
      · rintro ⟨i, j, hi, hi', hj, hj', hint, hq⟩
        exact ⟨i, j, ⟨i, ⟨hi, by simpa using hi'⟩, j, ⟨hj, by simpa using hj'⟩, rfl⟩, hint, hq⟩

end OpenGeoBase
