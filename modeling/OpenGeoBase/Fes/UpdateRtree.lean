import OpenGeoBase.Fes.RepoIntersect

/-!
# `updateRtree`

The front end reads a rectangle off each of the names that a repository advertises. What it reads
off the name of a tile is the tile: the sign, the whole degrees and the two decimals, which the
repository has taken apart, come together again as the corner they were taken from
(`updateRtree_tileName`).

The rectangles of a repository are removed before the new names are read, and a name that cannot be
read ends the update with an exception. The update is all or nothing if and only if each name of
the list is `Readable`, or there was nothing to lose (`updatesOrKeeps_iff`).
-/

namespace OpenGeoBase

open Text

/-! ### What `updateRtree` does -/

namespace NDNQueryRepoMap

variable {geo : Geometries} {prefixes : Option (List Value)} {names : List Value}
  {rtree : List geo.Rectangle} (m : NDNQueryRepoMap geo) {repoName : Str}

/-- The rectangles of a list that can be read to its end take the place of those before. -/
theorem updateRtree_of_rectangles (h : rectangles names zeroCorners = some rtree) :
    m.updateRtree repoName (some names) =
      (.ok (), { m with rtreeMap := Function.update m.rtreeMap repoName (some rtree) }) := by
  unfold updateRtree
  rw [Option.bind_some, h]
  dsimp only
  rw [Function.update_idem]

/-- Otherwise the rectangles before are gone. -/
theorem updateRtree_of_none (h : (prefixes.bind fun names =>
      rectangles names (zeroCorners : Corners geo)) = none) :
    m.updateRtree repoName prefixes = (.error .runtimeException,
      { m with rtreeMap := Function.update m.rtreeMap repoName none }) := by
  unfold updateRtree
  rw [h]

end NDNQueryRepoMap

/-! ### The tile of a name -/

/-- Exact numbers, and some way to make rectangles of them. -/
def exactCoordinates {R : Type} (rectangleGeographic : ℚ → ℚ → ℚ → ℚ → Option R) : Geometries where
  Double := ℚ
  literal := id
  plus := (· + ·)
  parseDouble := Text.parseDouble
  Rectangle := R
  rectangleGeographic := rectangleGeographic

/-- The point lies in the cell of 0.01 degrees to the north east of `(i / 100, j / 100)`. -/
def InCell (i j : ℤ) (p : Coord) : Prop :=
  ((i : ℚ) / 100 ≤ p.1 ∧ p.1 < (i : ℚ) / 100 + 1 / 100) ∧
    (j : ℚ) / 100 ≤ p.2 ∧ p.2 < (j : ℚ) / 100 + 1 / 100

section TileName

/-- The name of the tile around a point. -/
def tileName (p : Coord) : Str := calculateLATLONName (floor10 p.1 2) (floor10 p.2 2) 2

/-- A point is in the cell of its hundredths. -/
theorem inCell_iff {i j : ℤ} {p : Coord} : InCell i j p ↔ ⌊p.1 * 100⌋ = i ∧ ⌊p.2 * 100⌋ = j := by
  have haxis : ∀ (k : ℤ) (c : ℚ), (k : ℚ) / 100 ≤ c ∧ c < (k : ℚ) / 100 + 1 / 100 ↔
      ⌊c * 100⌋ = k := by
    intro k c
    rw [Int.floor_eq_iff]
    constructor
    · rintro ⟨hle, hlt⟩
      constructor <;> linarith
    · rintro ⟨hle, hlt⟩
      constructor <;> linarith
  unfold InCell
  rw [haxis, haxis]

/-- Points have one name if they have one cell, and only then. -/
theorem tileName_eq_iff {p q : Coord} :
    tileName p = tileName q ↔ ∃ i j, InCell i j p ∧ InCell i j q := by
  unfold tileName
  simp only [floor10_two, inCell_iff]
  constructor
  · intro h
    obtain ⟨hx, hy⟩ := calculateLATLONName_injective h
    exact ⟨_, _, ⟨rfl, rfl⟩, hx.symm, hy.symm⟩
  · rintro ⟨i, j, ⟨rfl, rfl⟩, hx, hy⟩
    rw [hx, hy]

/-- The corners of a name are the point that the name was made of, and 0.01 degrees more. -/
theorem corners_tileName {R : Type} {rectangleGeographic : ℚ → ℚ → ℚ → ℚ → Option R} (p : Coord)
    (before : Corners (exactCoordinates rectangleGeographic)) :
    corners (tileName p) before =
      some (.square ((⌊p.1 * 100⌋ : ℚ) / 100) ((⌊p.2 * 100⌋ : ℚ) / 100) (1 / 100)) := by
  have hname : tileName p = path [axisName ⌊p.1 * 100⌋, axisName ⌊p.2 * 100⌋,
      [tenths ⌊p.1 * 100⌋, tenths ⌊p.2 * 100⌋],
      [hundredths ⌊p.1 * 100⌋, hundredths ⌊p.2 * 100⌋]] := by
    unfold tileName
    rw [floor10_two, floor10_two, calculateLATLONName_grid]
  have hsplit := @splitSlash_path [axisName ⌊p.1 * 100⌋, axisName ⌊p.2 * 100⌋,
    [tenths ⌊p.1 * 100⌋, tenths ⌊p.2 * 100⌋]] [hundredths ⌊p.1 * 100⌋, hundredths ⌊p.2 * 100⌋]
    (slashFree_gridName _ _) (List.cons_ne_nil _ _)
  rw [hname]
  exact corners_hundredth ⟨_, rfl⟩ hsplit (parseDouble_hundredth _) (parseDouble_hundredth _)

/-- **A tile is read off its name.** The R-tree of the repository holds the rectangle between the
corners of the cell of the point, for points in any of the four quadrants; and two points have the
same name if and only if they lie in the same cell. -/
theorem updateRtree_tileName {R : Type} {rectangleGeographic : ℚ → ℚ → ℚ → ℚ → Option R}
    (m : NDNQueryRepoMap (exactCoordinates rectangleGeographic)) (repoName : Str) (x y : ℚ)
    {cell : R} (hcell : rectangleGeographic (⌊x * 100⌋ / 100) (⌊y * 100⌋ / 100)
      (⌊x * 100⌋ / 100 + 1 / 100) (⌊y * 100⌋ / 100 + 1 / 100) = some cell) :
    m.updateRtree repoName (some [.string (calculateLATLONName (floor10 x 2) (floor10 y 2) 2)]) =
      (.ok (), { m with rtreeMap := Function.update m.rtreeMap repoName (some [cell]) }) ∧
    ∀ x' y', calculateLATLONName (floor10 x 2) (floor10 y 2) 2 =
      calculateLATLONName (floor10 x' 2) (floor10 y' 2) 2 ↔
      ∃ i j, InCell i j (x, y) ∧ InCell i j (x', y') := by
  refine ⟨?_, fun x' y' => @tileName_eq_iff (x, y) (x', y')⟩
  -- one name, whose corners make one rectangle
  have hrectangles : @rectangles (exactCoordinates rectangleGeographic)
      [.string (calculateLATLONName (floor10 x 2) (floor10 y 2) 2)] zeroCorners = some [cell] := by
    have hcorners := @corners_tileName R rectangleGeographic (x, y) zeroCorners
    unfold tileName at hcorners
    unfold rectangles
    rw [Value.getString?, Option.bind_eq_bind, Option.bind_some, hcorners, Option.bind_eq_bind,
      Option.bind_some]
    change (rectangleGeographic _ _ _ _ >>= _) = _
    dsimp only [Corners.square, exactCoordinates, id]
    rw [hcell]
    rfl
  exact m.updateRtree_of_rectangles hrectangles

end TileName

/-- A point just south west of the origin: both whole parts are zero, with a minus sign. -/
theorem updateRtree_tileName_southWest :
    let rectangleGeographic : ℚ → ℚ → ℚ → ℚ → Option Rectangle := fun lon1 lat1 lon2 lat2 =>
      if lon1 ≤ lon2 ∧ lat1 ≤ lat2 then some ⟨lon1, lat1, lon2, lat2⟩ else none
    let m : NDNQueryRepoMap (exactCoordinates rectangleGeographic) := .empty
    m.updateRtree "/repo/1".toList
        (some [.string (calculateLATLONName (floor10 (-1 / 200) 2) (floor10 (-1 / 4) 2) 2)]) =
      (.ok (), { m with
        rtreeMap := Function.update m.rtreeMap "/repo/1".toList
          (some [(⟨-1 / 100, -1 / 4, 0, -6 / 25⟩ : Rectangle)]) }) ∧
    ∀ x' y', calculateLATLONName (floor10 (-1 / 200) 2) (floor10 (-1 / 4) 2) 2 =
      calculateLATLONName (floor10 x' 2) (floor10 y' 2) 2 ↔
      ∃ i j, InCell i j (-1 / 200, -1 / 4) ∧ InCell i j (x', y') := by
  intro rectangleGeographic m
  refine updateRtree_tileName m _ (-1 / 200) (-1 / 4) ?_
  have hx : ⌊(-1 / 200 : ℚ) * 100⌋ = -1 := by norm_num
  have hy : ⌊(-1 / 4 : ℚ) * 100⌋ = -25 := by norm_num
  rw [hx, hy]
  norm_num [rectangleGeographic]

/-! ### All or nothing -/

section Readable

variable {geo : Geometries}

/-- There is a rectangle between the corners. -/
def Corners.Accepted (c : Corners geo) : Prop :=
  (geo.rectangleGeographic c.swLon c.swLat c.neLon c.neLat).isSome

variable (geo)

/-- A name of whole degrees, tenths or hundredths has the numbers of two coordinates, with a square
to the north east of them. A name with another number of components is not looked at. -/
def Readable (prefixString : Str) : Prop :=
  let prefixString :=
    if ['/'] <+: prefixString then prefixString else '/' :: prefixString
  match splitSlash prefixString with
  | [_, lon, lat, x :: y :: _, u :: v :: _] => ∃ swLon swLat,
    geo.parseDouble (lon ++ ['.', x, u]) = some swLon ∧
    geo.parseDouble (lat ++ ['.', y, v]) = some swLat ∧
    (Corners.square swLon swLat (1 / 100) : Corners geo).Accepted
  | [_, lon, lat, x :: y :: _] => ∃ swLon swLat,
    geo.parseDouble (lon ++ ['.', x]) = some swLon ∧
    geo.parseDouble (lat ++ ['.', y]) = some swLat ∧
    (Corners.square swLon swLat (1 / 10) : Corners geo).Accepted
  | [_, lon, lat] => ∃ swLon swLat,
    geo.parseDouble lon = some swLon ∧ geo.parseDouble lat = some swLat ∧
    (Corners.square swLon swLat 1 : Corners geo).Accepted
  | [_, _, _, _] | [_, _, _, _, _] => False
  | _ => True

variable {geo}

/-- A readable name has corners that are accepted, if those before it are. -/
theorem readable_iff {prefixString : Str} {before : Corners geo} (hbefore : before.Accepted) :
    Readable geo prefixString ↔ ∃ c, corners prefixString before = some c ∧ c.Accepted := by
  unfold Readable corners
  dsimp only
  generalize splitSlash (if ['/'] <+: prefixString then prefixString else '/' :: prefixString) =
    components
  have hother : True ↔ ∃ c, some before = some c ∧ c.Accepted :=
    iff_of_true trivial ⟨before, rfl, hbefore⟩
  -- a name of another length has the corners of the name before
  rcases components with _ | ⟨a, _ | ⟨lon, _ | ⟨lat, _ | ⟨tens, _ | ⟨units, _ | ⟨d, rest⟩⟩⟩⟩⟩⟩
  · exact hother
  · exact hother
  · exact hother
  · simp [Option.bind_eq_some_iff]
  · rcases tens with _ | ⟨x, _ | ⟨y, tens⟩⟩ <;>
      simp [Option.bind_eq_some_iff]
  · rcases tens with _ | ⟨x, _ | ⟨y, tens⟩⟩ <;> rcases units with _ | ⟨u, _ | ⟨v, units⟩⟩ <;>
      simp [Option.bind_eq_some_iff]
  · simpa using hbefore

/-- A list can be read to its end if all its values are readable names. -/
theorem exists_rectangles_iff {names : List Value} {before : Corners geo}
    (hbefore : before.Accepted) :
    (∃ rtree, rectangles names before = some rtree) ↔
      ∀ value ∈ names, ∃ s, value = .string s ∧ Readable geo s := by
  -- over the names; the corners of the one before are kept for a name that sets none
  induction names generalizing before with
  | nil => exact iff_of_true ⟨[], rfl⟩ fun value hvalue => absurd hvalue List.not_mem_nil
  | cons value names ih =>
    simp only [rectangles, Option.bind_eq_bind, Option.bind_eq_some_iff, List.forall_mem_cons]
    constructor
    · rintro ⟨rtree, s, hs, c, hc, rectangle, hrectangle, rest, hrest, -⟩
      have haccepted : c.Accepted := Option.isSome_of_eq_some hrectangle
      refine ⟨⟨s, ?_, (readable_iff hbefore).mpr ⟨c, hc, haccepted⟩⟩,
        (ih haccepted).mp ⟨rest, hrest⟩⟩
      cases value <;> simp_all [Value.getString?]
    · rintro ⟨⟨s, rfl, hs⟩, hnames⟩
      obtain ⟨c, hc, haccepted⟩ := (readable_iff hbefore).mp hs
      obtain ⟨rectangle, hrectangle⟩ := Option.isSome_iff_exists.mp haccepted
      obtain ⟨rest, hrest⟩ := (ih haccepted).mpr hnames
      exact ⟨_, s, rfl, c, hc, rectangle, hrectangle, rest, hrest, rfl⟩

/-- There is one rectangle for each name. -/
theorem length_rectangles {names : List Value} {before : Corners geo}
    {rtree : List geo.Rectangle} (h : rectangles names before = some rtree) :
    rtree.length = names.length := by
  induction names generalizing before rtree with
  | nil =>
    obtain rfl := Option.some.inj h
    rfl
  | cons value names ih =>
    simp only [rectangles, Option.bind_eq_bind, Option.bind_eq_some_iff] at h
    obtain ⟨s, -, c, -, rectangle, -, rest, hrest, hrtree⟩ := h
    obtain rfl := Option.some.inj hrtree
    rw [List.length_cons, List.length_cons, ih hrest]

variable (m : NDNQueryRepoMap geo) (repoName : Str) (prefixes : Option (List Value))

/-- The update ends, and the repository has one rectangle for each name of the list; or it fails
with an exception, and the repository has the rectangles it had. The other repositories have theirs
in both cases. -/
def UpdatesOrKeeps : Prop :=
  ((m.updateRtree repoName prefixes).1 = .ok () ∧
      (∃ names rtree, prefixes = some names ∧ rectangles names zeroCorners = some rtree ∧
        (m.updateRtree repoName prefixes).2.rtreeMap repoName = some rtree ∧
        rtree.length = names.length) ∨
    (∃ thrown, (m.updateRtree repoName prefixes).1 = .error thrown) ∧
      (m.updateRtree repoName prefixes).2.rtreeMap repoName = m.rtreeMap repoName) ∧
  ∀ other ≠ repoName, (m.updateRtree repoName prefixes).2.rtreeMap other = m.rtreeMap other

variable {m repoName prefixes}

/-- Where the list cannot be read to its end, what is kept is nothing. -/
theorem updatesOrKeeps_iff_of_none (h : (prefixes.bind fun names =>
      rectangles names (zeroCorners : Corners geo)) = none) :
    UpdatesOrKeeps m repoName prefixes ↔ m.rtreeMap repoName = none := by
  unfold UpdatesOrKeeps
  rw [m.updateRtree_of_none h]
  dsimp only
  rw [Function.update_self]
  constructor
  · rintro ⟨⟨hok, -⟩ | ⟨-, hkept⟩, -⟩
    · exact absurd hok (by simp)
    · exact hkept.symm
  · intro hnone
    refine ⟨Or.inr ⟨⟨_, rfl⟩, hnone.symm⟩, fun other hother => ?_⟩
    exact Function.update_of_ne hother _ _

/-- **The update is all or nothing**, exactly for a list that is there and whose names are readable,
and for a repository that has no rectangles yet. -/
theorem updatesOrKeeps_iff (hzero : (zeroCorners : Corners geo).Accepted) :
    UpdatesOrKeeps m repoName prefixes ↔
      (∃ names, prefixes = some names ∧ ∀ value ∈ names, ∃ s, value = .string s ∧ Readable geo s) ∨
        m.rtreeMap repoName = none := by
  cases hread : prefixes.bind fun names => rectangles names (zeroCorners : Corners geo) with
  | some rtree =>
    obtain ⟨names, rfl, hrtree⟩ := Option.bind_eq_some_iff.mp hread
    refine iff_of_true ?_ (Or.inl ⟨names, rfl, (exists_rectangles_iff hzero).mp ⟨rtree, hrtree⟩⟩)
    unfold UpdatesOrKeeps
    rw [m.updateRtree_of_rectangles hrtree]
    refine ⟨Or.inl ⟨rfl, names, rtree, rfl, hrtree, ?_, length_rectangles hrtree⟩, ?_⟩
    · exact Function.update_self _ _ _
    · intro other hother
      exact Function.update_of_ne hother _ _
  | none =>
    -- the list does not parse, and the old R-tree is already out of the map
    have hunread : ¬∃ names, prefixes = some names ∧
        ∀ value ∈ names, ∃ s, value = .string s ∧ Readable geo s := by
      rintro ⟨names, rfl, hnames⟩
      obtain ⟨rtree, hrtree⟩ := (exists_rectangles_iff hzero).mpr hnames
      rw [Option.bind_some, hrtree] at hread
      exact absurd hread (Option.some_ne_none rtree)
    rw [updatesOrKeeps_iff_of_none hread, or_iff_right hunread]

end Readable

/-- With exact numbers there is a rectangle at the origin. -/
theorem accepted_zeroCorners : (zeroCorners : Corners exactGeometries).Accepted := by
  unfold Corners.Accepted
  decide

/-- A list with a name of each level takes the place of the rectangles before. -/
theorem updatesOrKeeps_three_levels :
    let m : NDNQueryRepoMap exactGeometries := ⟨fun _ => none, fun _ =>
      some [(⟨12, 41, 13, 42⟩ : Rectangle)]⟩
    UpdatesOrKeeps m "/repo/1".toList (some [.string "/012/041".toList,
      .string "/013/041/38".toList, .string "/-013/-041/38/40".toList]) := by
  intro m
  have hread : (rectangles [.string "/012/041".toList, .string "/013/041/38".toList,
      .string "/-013/-041/38/40".toList] (zeroCorners : Corners exactGeometries)).isSome =
        true := by
    decide +kernel
  exact (updatesOrKeeps_iff accepted_zeroCorners).mpr (Or.inl ⟨_, rfl,
    (exists_rectangles_iff accepted_zeroCorners).mp (Option.isSome_iff_exists.mp hread)⟩)

/-- One name without a number, and the rectangles of the repository are gone. -/
theorem updateRtree_bad_name :
    let m : NDNQueryRepoMap exactGeometries := ⟨fun _ => none, fun _ =>
      some [(⟨12, 41, 13, 42⟩ : Rectangle)]⟩
    ¬UpdatesOrKeeps m "/repo/1".toList
      (some [.string "/012/041".toList, .string "/012/x".toList]) := by
  intro m h
  have hread : ((some [.string "/012/041".toList, .string "/012/x".toList] :
      Option (List Value)).bind fun names =>
      rectangles names (zeroCorners : Corners exactGeometries)) = none := by
    decide +kernel
  exact absurd ((updatesOrKeeps_iff_of_none hread).mp h) (Option.some_ne_none _)

end OpenGeoBase
