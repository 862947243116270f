import OpenGeoBase.Lib.Polygon
import OpenGeoBase.Repo.GeometryIndex
import Mathlib.Algebra.Order.Archimedean.Real.Basic
import Mathlib.Data.Rat.Cast.Order

/-!
# Do the tiles of an object cover it?

The pairs `calculateGeometryIndex` returns name level-2 tiles, squares of 0.01
degrees. A point is always in its tile. A multipoint and a polygon are cut into
cells of one degree, but the pair of a cell still names the 0.01-degree tile in its
south-west corner, so they are covered just as far as they lie in such corners; and
for a polygon the loop over the cells stops short of the cell that begins at its
largest coordinate (`geometry_covered_iff`).

The coordinates of a geometry are exact decimals, its points are real.
-/

namespace OpenGeoBase

open Text EvenOdd

/-! ### Geometries -/

/-- A decimal position as a point of the plane. -/
def Coord.toPt (c : Coord) : Pt := ((c.1 : ℝ), (c.2 : ℝ))

/-- The rings of a polygon: closed, of four positions at least, the holes within the
outer ring. -/
structure GeoPolygon where
  outer : List Coord
  holes : List (List Coord)
  outer_length : 4 ≤ outer.length
  outer_closed : Closed outer
  holes_inside : ∀ h ∈ holes, ∀ v ∈ h, v.toPt ∈ region (outer.map Coord.toPt)

/-- The geometries the index knows. -/
inductive Geometry where
  | point (p : Coord)
  | multiPoint (ps : List Coord)
  | polygon (P : GeoPolygon)

/-- The vertices of a polygon and the points of its interior. -/
def GeoPolygon.points (P : GeoPolygon) : Set Pt :=
  {q | (∃ ring ∈ P.outer :: P.holes, ∃ v ∈ ring, q = v.toPt) ∨
    (q ∈ inside (P.outer.map Coord.toPt) ∧ ∀ h ∈ P.holes, q ∉ region (h.map Coord.toPt))}

/-- The points of a geometry. -/
def Geometry.points : Geometry → Set Pt
  | point p => {p.toPt}
  | multiPoint ps => {q | ∃ p ∈ ps, q = p.toPt}
  | polygon P => P.points

/-- The object has this geometry, in GeoJSON. -/
def Value.HasGeometry (json_data : Value) (g : Geometry) : Prop :=
  ∃ geometry coordinates geometry_type,
    json_data.member? "geometry".toList = some geometry ∧
    geometry.member? "type".toList = some (.string geometry_type) ∧
    geometry.member? "coordinates".toList = some coordinates ∧
    match g with
    | .point p => geometry_type = "Point".toList ∧ coordinates.position? = some p
    | .multiPoint ps => geometry_type = "MultiPoint".toList ∧ coordinates.positions? = some ps
    | .polygon P => geometry_type = "Polygon".toList ∧
        ∃ rings, coordinates.elements? = some rings ∧
          rings.mapM Value.positions? = some (P.outer :: P.holes)

/-- The point lies in the closed square of the level-2 tile called `name`. -/
def InTile (name : Str) (q : Pt) : Prop :=
  ∃ i j : ℤ, name = calculateLATLONName ((i : ℚ) / 100) ((j : ℚ) / 100) 2 ∧
    (i : ℝ) / 100 ≤ q.1 ∧ q.1 ≤ (i + 1) / 100 ∧ (j : ℝ) / 100 ≤ q.2 ∧ q.2 ≤ (j + 1) / 100

/-- The intersection test is exact: it finds a common point if there is one. -/
def ExactIntersects (intersects : List Coord → Coord → Coord → Bool) : Prop :=
  ∀ ring lo hi, intersects ring lo hi = true ↔
    ∃ q ∈ region (ring.map Coord.toPt), (lo.1 : ℝ) ≤ q.1 ∧ q.1 ≤ hi.1 ∧
      (lo.2 : ℝ) ≤ q.2 ∧ q.2 ≤ hi.2

/-- Every point of the geometry lies in the tile of some pair. -/
def CoveredBy (g : Geometry) (coordSet : List Coord) : Prop :=
  ∀ q ∈ g.points, ∃ c ∈ coordSet, InTile (calculateLATLONName c.1 c.2 2) q

/-! ### The condition -/

/-- The point lies within 0.01 degrees of the south-west corner of its one-degree cell. -/
def NearCorner (q : Pt) : Prop := q.1 ≤ ⌊q.1⌋ + 1 / 100 ∧ q.2 ≤ ⌊q.2⌋ + 1 / 100

/-- The loops over the cells get as far as the cell of the point: on either axis a vertex
lies beyond the edge of the cell, or that is not positive. -/
def CellReached (outer : List Coord) (q : Pt) : Prop :=
  (⌊q.1⌋ ≤ 0 ∨ ∃ v ∈ outer, (⌊q.1⌋ : ℚ) < v.1) ∧ (⌊q.2⌋ ≤ 0 ∨ ∃ v ∈ outer, (⌊q.2⌋ : ℚ) < v.2)

/-- When the tiles cover a geometry. -/
def Geometry.Coverable : Geometry → Prop
  | point _ => True
  | multiPoint ps => ∀ p ∈ ps, NearCorner p.toPt
  | polygon P => ∀ q ∈ P.points, NearCorner q ∧ CellReached P.outer q

/-! ### Tiles and cells -/

/-- A point is in the tile of the hundredths around it, borders included. -/
theorem inTile_grid {i j : ℤ} {q : Pt} :
    InTile (calculateLATLONName ((i : ℚ) / 100) ((j : ℚ) / 100) 2) q ↔
      (i : ℝ) / 100 ≤ q.1 ∧ q.1 ≤ (i + 1) / 100 ∧ (j : ℝ) / 100 ≤ q.2 ∧
        q.2 ≤ (j + 1) / 100 := by
  constructor
  · rintro ⟨i', j', hname, h⟩
    obtain ⟨rfl, rfl⟩ := calculateLATLONName_injective hname
    exact h
  · exact fun h => ⟨i, j, rfl, h⟩

/-- A pair on the grid of whole degrees names the tile in the corner of its cell. -/
theorem inTile_cell {m n : ℤ} {q : Pt} :
    InTile (calculateLATLONName (m : ℚ) (n : ℚ) 2) q ↔
      m = ⌊q.1⌋ ∧ n = ⌊q.2⌋ ∧ NearCorner q := by
  -- a cell is named after its corner, a point of the grid of hundredths
  have hgrid : calculateLATLONName (m : ℚ) (n : ℚ) 2 =
      calculateLATLONName (((100 * m : ℤ) : ℚ) / 100) (((100 * n : ℤ) : ℚ) / 100) 2 := by
    push_cast
    rw [mul_div_cancel_left₀ _ (by norm_num), mul_div_cancel_left₀ _ (by norm_num)]
  rw [hgrid, inTile_grid]
  push_cast
  unfold NearCorner
  constructor
  · rintro ⟨h₁, h₂, h₃, h₄⟩
    -- a point less than a hundredth above a whole degree has that degree as its floor
    obtain rfl : m = ⌊q.1⌋ := by
      rw [eq_comm, Int.floor_eq_iff]
      constructor <;> linarith
    obtain rfl : n = ⌊q.2⌋ := by
      rw [eq_comm, Int.floor_eq_iff]
      constructor <;> linarith
    exact ⟨rfl, rfl, by linarith, by linarith⟩
  · rintro ⟨rfl, rfl, h₁, h₂⟩
    have hx := Int.floor_le q.1
    have hy := Int.floor_le q.2
    exact ⟨by linarith, by linarith, by linarith, by linarith⟩

/-- A point lies in the tile of its corner on the 0.01-degree grid. -/
theorem inTile_floor10 (p : Coord) :
    InTile (calculateLATLONName (floor10 p.1 2) (floor10 p.2 2) 2) p.toPt := by
  -- the floor of the hundredths is at most the value, and the next one is above it
  have key : ∀ x : ℚ, ((⌊x * 10 ^ 2⌋ : ℤ) : ℝ) / 100 ≤ x ∧
      (x : ℝ) ≤ (((⌊x * 10 ^ 2⌋ : ℤ) : ℝ) + 1) / 100 := by
    intro x
    have hx : (x : ℝ) = ((x * 10 ^ 2 : ℚ) : ℝ) / 100 := by
      push_cast
      ring
    rw [hx]
    generalize x * 10 ^ 2 = z
    have h₁ : ((⌊z⌋ : ℤ) : ℝ) ≤ (z : ℝ) := by exact_mod_cast Int.floor_le z
    have h₂ : (z : ℝ) ≤ ((⌊z⌋ : ℤ) : ℝ) + 1 := by exact_mod_cast (Int.lt_floor_add_one z).le
    exact ⟨by linarith, by linarith⟩
  have hfloor : ∀ x : ℚ, floor10 x 2 = ((⌊x * 10 ^ 2⌋ : ℤ) : ℚ) / 100 := fun x => by
    unfold floor10
    norm_num
  rw [hfloor, hfloor, inTile_grid]
  exact ⟨(key p.1).1, (key p.1).2, (key p.2).1, (key p.2).2⟩

/-- The real coordinates have the floors of the exact ones. -/
theorem floor_toPt (p : Coord) : ⌊p.toPt.1⌋ = ⌊p.1⌋ ∧ ⌊p.toPt.2⌋ = ⌊p.2⌋ :=
  ⟨Rat.floor_cast p.1, Rat.floor_cast p.2⟩

/-! ### The three cases -/

/-- A point is covered by its own tile. -/
theorem coveredBy_point {p : Coord} : CoveredBy (.point p) (pointIndex p.1 p.2) := by
  rintro q rfl
  exact ⟨_, mem_coordSetInsert.mpr (Or.inl rfl), inTile_floor10 p⟩

/-- Points truncated to degrees are covered where they are near the corner of one. -/
theorem coveredBy_multiPoint {ps r : List Coord}
    (hr : ∀ q, q ∈ r ↔ ∃ p ∈ ps, q = (((⌊p.1⌋ : ℤ) : ℚ), ((⌊p.2⌋ : ℤ) : ℚ))) :
    CoveredBy (.multiPoint ps) r ↔ ∀ p ∈ ps, NearCorner p.toPt := by
  constructor
  · intro h p hp
    obtain ⟨c, hc, htile⟩ := h p.toPt ⟨p, hp, rfl⟩
    obtain ⟨p', -, rfl⟩ := (hr c).mp hc
    exact (inTile_cell.mp htile).2.2
  · rintro h q ⟨p, hp, rfl⟩
    obtain ⟨hx, hy⟩ := floor_toPt p
    exact ⟨_, (hr _).mpr ⟨p, hp, rfl⟩, inTile_cell.mpr ⟨hx.symm, hy.symm, h p hp⟩⟩

/-- The points of a polygon belong to its outer ring. -/
theorem GeoPolygon.points_subset (P : GeoPolygon) :
    P.points ⊆ region (P.outer.map Coord.toPt) := by
  have hlen : 2 ≤ (P.outer.map Coord.toPt).length := by
    rw [List.length_map]
    exact le_trans (by omega) P.outer_length
  rintro q (⟨ring, hring, v, hv, rfl⟩ | ⟨hq, -⟩)
  · rcases List.mem_cons.mp hring with rfl | hring
    · exact Or.inl (mem_boundary_of_vertex hlen (List.mem_map_of_mem hv))
    · exact P.holes_inside ring hring v hv
  · exact Or.inr hq

/-- The ring of a polygon is closed in real coordinates, too. -/
theorem GeoPolygon.closed_map (P : GeoPolygon) : Closed (P.outer.map Coord.toPt) := by
  have h : P.outer.head? = P.outer.getLast? := P.outer_closed
  unfold Closed
  rw [List.head?_map, List.getLast?_map, h]

/-- No point of a polygon lies to the left of the cells, or below them. -/
theorem GeoPolygon.le_floor (P : GeoPolygon) {q : Pt} (hq : q ∈ P.points) {mx my : ℤ}
    (hx : ∀ p ∈ P.outer, mx ≤ ⌊p.1⌋) (hy : ∀ p ∈ P.outer, my ≤ ⌊p.2⌋) :
    mx ≤ ⌊q.1⌋ ∧ my ≤ ⌊q.2⌋ := by
  have hregion := P.points_subset hq
  constructor
  -- a point of the region has a vertex to the west of it, and one to the south
  · obtain ⟨v, hv, hle⟩ := exists_fst_le_of_mem_region P.closed_map hregion
    obtain ⟨p, hp, rfl⟩ := List.mem_map.mp hv
    calc
      mx ≤ ⌊p.1⌋ := hx p hp
      _ = ⌊p.toPt.1⌋ := (floor_toPt p).1.symm
      _ ≤ ⌊q.1⌋ := Int.floor_le_floor hle
  · obtain ⟨v, hv, hle⟩ := exists_snd_le_of_mem_region hregion
    obtain ⟨p, hp, rfl⟩ := List.mem_map.mp hv
    calc
      my ≤ ⌊p.2⌋ := hy p hp
      _ = ⌊p.toPt.2⌋ := (floor_toPt p).2.symm
      _ ≤ ⌊q.2⌋ := Int.floor_le_floor hle

/-- A polygon is covered by the degrees it meets if they are all looked at. -/
theorem coveredBy_polygon {intersects : List Coord → Coord → Coord → Bool}
    (hexact : ExactIntersects intersects) {P : GeoPolygon} {r : List Coord} {mx my : ℤ}
    (hx : ∀ p ∈ P.outer, mx ≤ ⌊p.1⌋) (hy : ∀ p ∈ P.outer, my ≤ ⌊p.2⌋)
    (hr : ∀ q, q ∈ r ↔ ∃ i j : ℤ, mx ≤ i ∧ (i ≤ 0 ∨ ∃ p ∈ P.outer, (i : ℚ) < p.1) ∧
      my ≤ j ∧ (j ≤ 0 ∨ ∃ p ∈ P.outer, (j : ℚ) < p.2) ∧
      intersects P.outer (i, j) (i + 1, j + 1) = true ∧ q = ((i : ℚ), (j : ℚ))) :
    CoveredBy (.polygon P) r ↔ ∀ q ∈ P.points, NearCorner q ∧ CellReached P.outer q := by
  constructor
  · intro h q hq
    obtain ⟨c, hc, htile⟩ := h q hq
    obtain ⟨i, j, -, hi, -, hj, -, rfl⟩ := (hr c).mp hc
    obtain ⟨rfl, rfl, hnear⟩ := inTile_cell.mp htile
    exact ⟨hnear, hi, hj⟩
  · intro h q hq
    obtain ⟨hnear, hi, hj⟩ := h q hq
    obtain ⟨hmx, hmy⟩ := P.le_floor hq hx hy
    -- the point itself shows that the ring meets its cell
    have hint : intersects P.outer ((⌊q.1⌋ : ℚ), (⌊q.2⌋ : ℚ)) ((⌊q.1⌋ : ℚ) + 1, (⌊q.2⌋ : ℚ) + 1) =
        true := by
      refine (hexact _ _ _).mpr ⟨q, P.points_subset hq, ?_⟩
      push_cast
      exact ⟨Int.floor_le q.1, (Int.lt_floor_add_one q.1).le, Int.floor_le q.2,
        (Int.lt_floor_add_one q.2).le⟩
    exact ⟨_, (hr _).mpr ⟨⌊q.1⌋, ⌊q.2⌋, hmx, hi, hmy, hj, hint, rfl⟩,
      inTile_cell.mpr ⟨rfl, rfl, hnear⟩⟩

/-- A list with a first result has a first element. -/
theorem exists_cons_of_mapM_eq {α β : Type} {f : α → Option β} {l : List α} {b : β} {bs : List β}
    (h : l.mapM f = some (b :: bs)) : ∃ a l', l = a :: l' ∧ f a = some b := by
  cases l with
  | nil => simp at h
  | cons a l =>
    refine ⟨a, l, rfl, ?_⟩
    rw [List.mapM_cons] at h
    cases ha : f a with
    | none => simp [ha] at h
    | some b' =>
      cases hl : l.mapM f with
      | none => simp [ha, hl] at h
      | some bs' =>
        obtain ⟨rfl, -⟩ : b' = b ∧ bs' = bs := by simpa [ha, hl] using h
        rfl

/-- The index of an object with a geometry goes by the type of that. -/
theorem calculateGeometryIndex_eq {intersects : List Coord → Coord → Coord → Bool}
    {json_data geometry coordinates : Value} {geometry_type : Str}
    (hgeo : json_data.member? "geometry".toList = some geometry)
    (htype : geometry.member? "type".toList = some (.string geometry_type))
    (hcoord : geometry.member? "coordinates".toList = some coordinates) :
    calculateGeometryIndex intersects json_data =
      if iequals geometry_type "Point".toList then calculatePointIndex coordinates
      else if iequals geometry_type "MultiPoint".toList then calculateMultiPointIndex coordinates
      else if iequals geometry_type "Polygon".toList then
        calculatePolygonIndex intersects coordinates
      else some [] := by
  unfold calculateGeometryIndex
  rw [hgeo]
  simp only [Option.bind_eq_bind, Option.bind_some]
  rw [htype, hcoord]
  rfl

/-- The tiles the code computes for a point. -/
theorem calculateGeometryIndex_point {intersects : List Coord → Coord → Coord → Bool}
    {json_data : Value} {p : Coord} (hg : json_data.HasGeometry (.point p)) :
    calculateGeometryIndex intersects json_data = some (pointIndex p.1 p.2) := by
  obtain ⟨geometry, coordinates, geometry_type, hgeo, htype, hcoord, rfl, hp⟩ := hg
  rw [calculateGeometryIndex_eq hgeo htype hcoord, if_pos (by decide)]
  unfold calculatePointIndex
  rw [hp]
  rfl

/-- **Coverage of a geometry, exactly.** The index of a GeoJSON object is defined, and its
tiles cover the geometry if and only if it is a point, or every point of it lies within 0.01
degrees of the corner of its one-degree cell and, for a polygon, the loops reach that cell. -/
theorem geometry_covered_iff {intersects : List Coord → Coord → Coord → Bool}
    (hexact : ExactIntersects intersects) {json_data : Value} {g : Geometry}
    (hg : json_data.HasGeometry g) :
    (∃ coordSet, calculateGeometryIndex intersects json_data = some coordSet ∧
      CoveredBy g coordSet) ↔ g.Coverable := by
  cases g with
  | point p =>
    rw [calculateGeometryIndex_point hg]
    exact ⟨fun _ => trivial, fun _ => ⟨_, rfl, coveredBy_point⟩⟩
  -- a multipoint is indexed by the corners of its cells, not by the tiles of its points
  | multiPoint ps =>
    obtain ⟨geometry, coordinates, geometry_type, hgeo, htype, hcoord, rfl, hps⟩ := hg
    rw [calculateGeometryIndex_eq hgeo htype hcoord]
    unfold Value.positions? at hps
    cases hvs : coordinates.elements? with
    | none => simp [hvs] at hps
    | some vs =>
      obtain ⟨r, hr, hmem⟩ := mem_multiPointLoop (s := []) (by simpa [hvs] using hps)
      have hr' : calculateMultiPointIndex coordinates = some r := by
        unfold calculateMultiPointIndex
        rw [hvs]
        exact hr
      rw [if_neg (by decide), if_pos (by decide), hr']
      have hiff : CoveredBy (.multiPoint ps) r ↔ ∀ p ∈ ps, NearCorner p.toPt :=
        coveredBy_multiPoint fun q => by simpa using hmem q
      exact ⟨fun ⟨_, heq, hc⟩ => hiff.mp (Option.some.inj heq ▸ hc),
        fun h => ⟨r, rfl, hiff.mpr h⟩⟩
  | polygon P =>
    obtain ⟨geometry, coordinates, geometry_type, hgeo, htype, hcoord, rfl, rings, hrings, hmap⟩ :=
      hg
    rw [calculateGeometryIndex_eq hgeo htype hcoord]
    -- only the outer ring is read
    obtain ⟨ring, rings', rfl, hring⟩ := exists_cons_of_mapM_eq hmap
    have hat : coordinates.at? 0 = some ring := by
      unfold Value.at?
      rw [hrings]
      rfl
    have hne : P.outer ≠ [] := fun h => by
      have hlen := P.outer_length
      rw [h] at hlen
      exact absurd hlen (by decide)
    obtain ⟨r, mx, my, hr, hx, hy, hmem⟩ := calculatePolygonIndex_spec intersects hat hring hne
    rw [if_neg (by decide), if_neg (by decide), if_pos (by decide), hr]
    have hiff := coveredBy_polygon hexact hx hy hmem
    exact ⟨fun ⟨_, heq, hc⟩ => hiff.mp (Option.some.inj heq ▸ hc), fun h => ⟨r, rfl, hiff.mpr h⟩⟩

section Examples

/-- A feature with a point has the geometry of this point. -/
theorem hasGeometry_point (p : Coord) : (feature "Point" p.toJson).HasGeometry (.point p) :=
  ⟨_, _, _, rfl, rfl, rfl, rfl, rfl⟩

open Classical in
/-- The exact intersection test. -/
noncomputable def exactIntersects (ring : List Coord) (lo hi : Coord) : Bool :=
  decide (∃ q ∈ region (ring.map Coord.toPt), (lo.1 : ℝ) ≤ q.1 ∧ q.1 ≤ hi.1 ∧
    (lo.2 : ℝ) ≤ q.2 ∧ q.2 ≤ hi.2)

/-- The exact test of intersection is exact. -/
theorem exactIntersects_exact : ExactIntersects exactIntersects := by
  intro ring lo hi
  simp only [exactIntersects, decide_eq_true_eq]

/-- A square of half a hundredth of a degree. -/
def smallSquare : GeoPolygon where
  outer := [(0, 0), (1 / 200, 0), (1 / 200, 1 / 200), (0, 1 / 200), (0, 0)]
  holes := []
  outer_length := by decide
  outer_closed := rfl
  holes_inside := by simp

theorem geometry_covered_iff_smallSquare :
    (∃ coordSet, calculateGeometryIndex exactIntersects
        (feature "Polygon" (.array [.array (smallSquare.outer.map Coord.toJson)])) =
          some coordSet ∧ CoveredBy (.polygon smallSquare) coordSet) ↔
      (Geometry.polygon smallSquare).Coverable :=
  geometry_covered_iff exactIntersects_exact
    ⟨_, _, _, rfl, rfl, rfl, rfl, _, rfl, rfl⟩

/-- A multipoint in the middle of a cell is indexed in the corner of it. -/
theorem multiPoint_not_covered :
    ∃ json_data g, json_data.HasGeometry g ∧ ∀ intersects, ¬∃ coordSet,
      calculateGeometryIndex intersects json_data = some coordSet ∧ CoveredBy g coordSet := by
  let p : Coord := (1234 / 100, 4180 / 100)
  refine ⟨feature "MultiPoint" (.array [p.toJson]), .multiPoint [p],
    ⟨_, _, _, rfl, rfl, rfl, rfl, rfl⟩, ?_⟩
  rintro intersects ⟨coordSet, hindex, hcovered⟩
  have hcell : calculateGeometryIndex intersects (feature "MultiPoint" (.array [p.toJson])) =
      some [(((⌊p.1⌋ : ℤ) : ℚ), ((⌊p.2⌋ : ℤ) : ℚ))] := rfl
  obtain rfl := Option.some.inj (hcell.symm.trans hindex)
  obtain ⟨c, hc, htile⟩ := hcovered p.toPt ⟨p, List.mem_singleton_self p, rfl⟩
  obtain rfl := List.mem_singleton.mp hc
  have hnear := (inTile_cell.mp htile).2.2.1
  have hfloor : ⌊p.1⌋ = 12 := by decide +kernel
  rw [(floor_toPt p).1, hfloor] at hnear
  norm_num [p, Coord.toPt] at hnear

end Examples

end OpenGeoBase
