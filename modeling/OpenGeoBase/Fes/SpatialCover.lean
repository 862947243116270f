import OpenGeoBase.Fes.SpatialDegrees

/-!
# The tessellation of a box covers it

Each name denotes a cell, the one that the repository has under this name. On the fast path these
are all degrees of the box, if the loops over them end (`tasselateBox100x100_covers_iff`). In the
tree each degree has a leaf, and as no leaf knows its level its name is that of the degree, however
small the leaf is. So the box is covered as soon as the degrees are children of the root. Otherwise
the box is aligned with a row or a column of degrees, and the root is named alone, by its first
degree (`tesselateBox_covers_iff`).
-/

namespace OpenGeoBase

open Text Counting JavaInt

namespace SpatialTesseler

open SpatialNode SpatialPoint

/-! ### Points and their degrees -/

/-- The points of the cell of a level with this south west corner, in hundredths of a degree. -/
def cellPoints (level : ℕ) (lat lon : ℤ) : Set SpatialPoint :=
  {p | ((lat : ℚ) / 100 ≤ p.latitude ∧ p.latitude < ((lat + side level : ℤ) : ℚ) / 100) ∧
    (lon : ℚ) / 100 ≤ p.longitude ∧ p.longitude < ((lon + side level : ℤ) : ℚ) / 100}

/-- One of the names is, at the repository, that of a cell around the point. -/
def CoveredBy (names : List Str) (p : SpatialPoint) : Prop :=
  ∃ level ≤ 2, ∃ lat lon : ℤ, (side level ∣ lat ∧ side level ∣ lon) ∧
    calculateLATLONName ((lon : ℚ) / 100) ((lat : ℚ) / 100) level ∈ names ∧
      p ∈ cellPoints level lat lon

/-- The names cover the inside of the box. -/
def Covers (names : List Str) (sw ne : SpatialPoint) : Prop :=
  ∀ p ∈ interior sw ne, CoveredBy names p

variable {names : List Str} {p : SpatialPoint} {y x : ℤ}

/-- A cell of the first level holds the points of one degree. -/
theorem mem_cellPoints_zero : p ∈ cellPoints 0 (100 * y) (100 * x) ↔
    ⌊p.latitude⌋ = y ∧ ⌊p.longitude⌋ = x := by
  have hnext : ∀ z : ℤ, ((100 * z + side 0 : ℤ) : ℚ) / 100 = z + 1 := by
    intro z
    rw [hundred_add_side, cast_hundred]
    push_cast
    rfl
  unfold cellPoints
  rw [Set.mem_ofPred_eq, cast_hundred, cast_hundred, hnext, hnext, Int.floor_eq_iff,
    Int.floor_eq_iff]

theorem calculateLATLONName_degree (y x : ℤ) :
    calculateLATLONName (((100 * x : ℤ) : ℚ) / 100) (((100 * y : ℤ) : ℚ) / 100) 0 =
      degreeName y x := calculateLATLONName_grid_zero _ _

/-- The name of its degree covers a point. -/
theorem coveredBy_of_degree (h : degreeName ⌊p.latitude⌋ ⌊p.longitude⌋ ∈ names) :
    CoveredBy names p := by
  refine ⟨0, Nat.zero_le 2, 100 * ⌊p.latitude⌋, 100 * ⌊p.longitude⌋,
    ⟨dvd_mul_right _ _, dvd_mul_right _ _⟩, ?_, mem_cellPoints_zero.mpr ⟨rfl, rfl⟩⟩
  rw [calculateLATLONName_degree]
  exact h

/-- **The name of a degree covers that degree only.** -/
theorem coveredBy_degreeName_iff :
    CoveredBy [degreeName y x] p ↔ ⌊p.latitude⌋ = y ∧ ⌊p.longitude⌋ = x := by
  constructor
  · rintro ⟨level, -, lat, lon, ⟨⟨y', rfl⟩, ⟨x', rfl⟩⟩, hname, hp⟩
    have heq := List.mem_singleton.mp hname
    -- the number of components tells the level, and then the axes are told apart
    have hlevel : level = 0 := by
      by_contra hne
      exact (isPath_calculateLATLONName _ _ level).ne (isPath_degreeName y x) (by omega) heq
    subst hlevel
    change calculateLATLONName (((100 * x' : ℤ) : ℚ) / 100) (((100 * y' : ℤ) : ℚ) / 100) 0 =
      degreeName y x at heq
    rw [calculateLATLONName_degree] at heq
    obtain ⟨rfl, rfl⟩ := degreeName_injective heq
    exact mem_cellPoints_zero.mp hp
  · rintro ⟨rfl, rfl⟩
    exact coveredBy_of_degree (List.mem_singleton.mpr rfl)

/-! ### Coordinates with five decimals -/

/-- The coordinate has so many decimals, or fewer. -/
def HasDecimals (d : ℕ) (q : ℚ) : Prop := ∃ m : ℤ, q = m / 10 ^ d

variable {q : ℚ}

/-- The correction does not reach the next degree. -/
theorem HasDecimals.floorDegree (h : HasDecimals 5 q) : floorDegree q = ⌊q⌋ := by
  obtain ⟨m, rfl⟩ := h
  have hlt : (m : ℚ) / 10 ^ 5 < ⌊(m : ℚ) / 10 ^ 5⌋ + 1 := Int.lt_floor_add_one _
  rw [div_lt_iff₀ (by norm_num)] at hlt
  -- the next degree is a whole step of five decimals away, ten times the correction
  have hnext : m + 1 ≤ (⌊(m : ℚ) / 10 ^ 5⌋ + 1) * 10 ^ 5 := by
    rw [Int.add_one_le_iff]
    exact_mod_cast hlt
  have hnext' : (m : ℚ) + 1 ≤ (⌊(m : ℚ) / 10 ^ 5⌋ + 1) * 10 ^ 5 := by exact_mod_cast hnext
  have hle : (⌊(m : ℚ) / 10 ^ 5⌋ : ℚ) ≤ (m : ℚ) / 10 ^ 5 := Int.floor_le _
  unfold SpatialTesseler.floorDegree
  rw [Int.floor_eq_iff]
  constructor <;> linarith

/-- With five decimals the rounding up of the code is the ceiling. -/
theorem HasDecimals.ceilDegree (h : HasDecimals 5 q) : ceilDegree q = ⌈q⌉ := by
  have hneg : HasDecimals 5 (-q) := by
    obtain ⟨m, rfl⟩ := h
    refine ⟨-m, ?_⟩
    rw [Int.cast_neg, neg_div]
  have hfloor := hneg.floorDegree
  unfold SpatialTesseler.floorDegree at hfloor
  unfold SpatialTesseler.ceilDegree
  have hsub : q - 1 / 10 ^ 6 = -(-q + 1 / 10 ^ 6) := by ring
  rw [hsub, Int.ceil_neg, hfloor, Int.floor_neg, neg_neg]

/-- Both coordinates of a corner have five decimals or fewer. -/
structure FiveDecimals (p : SpatialPoint) : Prop where
  latitude : HasDecimals 5 p.latitude
  longitude : HasDecimals 5 p.longitude

/-- The degree of a coordinate between two others is one that the loops go over. -/
theorem floor_between {a b : ℚ} (ha : HasDecimals 5 a) (hb : HasDecimals 5 b) (haq : a < q)
    (hqb : q < b) : floorDegree a ≤ ⌊q⌋ ∧ ⌊q⌋ < ceilDegree b := by
  rw [ha.floorDegree, hb.ceilDegree]
  exact ⟨Int.floor_mono haq.le, Int.lt_ceil.mpr ((Int.floor_le q).trans_lt hqb)⟩

/-- Two different coordinates of five decimals have a degree between them. -/
theorem floorDegree_lt_ceilDegree {a b : ℚ} (ha : HasDecimals 5 a) (hb : HasDecimals 5 b)
    (h : a < b) : floorDegree a < ceilDegree b := by
  obtain ⟨q, haq, hqb⟩ := exists_between h
  have hbetween := floor_between ha hb haq hqb
  omega

/-- A coordinate that is not negative lies in such a degree. -/
theorem HasDecimals.floorDegree_nonneg (h : HasDecimals 5 q) (hq : 0 ≤ q) :
    0 ≤ SpatialTesseler.floorDegree q := by
  rw [h.floorDegree]
  exact Int.floor_nonneg.mpr hq

/-! ### The names of both paths -/

variable {sw ne : SpatialPoint} {k : ℤ}

/-- The loop of the fast path between two coordinates. -/
theorem forLoop_through {q r : ℚ} (hstart : 0 ≤ floorDegree q)
    (hle : floorDegree q < ceilDegree r) :
    forLoop (saturate (floorDegree q)) (saturate (ceilDegree r) + 1) 1 =
      if ceilDegree r < 2 ^ 31 - 1 then some (steps (floorDegree q) (ceilDegree r + 1) 1)
      else none := by
  split
  · next hlt =>
    have hfits : Fits (floorDegree q) := ⟨by omega, by omega⟩
    have hfits' : Fits (ceilDegree r) := ⟨by omega, by omega⟩
    rw [saturate_eq_self hfits, saturate_eq_self hfits']
    exact forLoop_eq_steps Int.one_pos hfits ⟨by omega, by omega⟩ (one_dvd _) (one_dvd _)
  · next hge =>
    -- no `int` is beyond the bound, which is the last of them
    have hstop : saturate (ceilDegree r) = 2 ^ 31 - 1 := by
      unfold saturate
      omega
    rw [hstop]
    refine forLoop_endless (one_dvd _) (fits_saturate _) (one_dvd _) (one_dvd _) fun z hz _ => ?_
    unfold Fits at hz
    omega

/-- **The fast path covers the box** if and only if its loops end: it names all degrees of the box
then, and more. -/
theorem tasselateBox100x100_covers_iff (hbox : IsBox sw ne) (hsw : FiveDecimals sw)
    (hne : FiveDecimals ne) (hlat : 0 ≤ sw.latitude) (hlon : 0 ≤ sw.longitude) :
    (∃ names, tasselateBox100x100 sw ne = some names ∧ Covers names sw ne) ↔
      ceilDegree ne.latitude < 2 ^ 31 - 1 ∧ ceilDegree ne.longitude < 2 ^ 31 - 1 := by
  have hrows := forLoop_through (hsw.latitude.floorDegree_nonneg hlat)
    (floorDegree_lt_ceilDegree hsw.latitude hne.latitude hbox.1)
  have hcolumns := forLoop_through (hsw.longitude.floorDegree_nonneg hlon)
    (floorDegree_lt_ceilDegree hsw.longitude hne.longitude hbox.2)
  have hone : (0 : ℤ) < 1 := Int.one_pos
  unfold tasselateBox100x100
  simp only [floor10_zero, ceil10_zero, trunc_intCast, hrows, hcolumns]
  by_cases hlat' : ceilDegree ne.latitude < 2 ^ 31 - 1
  · by_cases hlon' : ceilDegree ne.longitude < 2 ^ 31 - 1
    -- both loops end: the degree of a point is among the steps
    · refine iff_of_true ?_ ⟨hlat', hlon'⟩
      rw [if_pos hlat', if_pos hlon', nested_some, Option.map_some]
      refine ⟨_, rfl, fun p hp => coveredBy_of_degree ?_⟩
      have hy := floor_between hsw.latitude hne.latitude hp.1.1 hp.1.2
      have hx := floor_between hsw.longitude hne.longitude hp.2.1 hp.2.2
      rw [← spatialPointToNDNNname_degree]
      refine List.mem_map.mpr ⟨(⌊p.latitude⌋, ⌊p.longitude⌋), ?_, rfl⟩
      simp only [List.mem_flatMap, List.mem_map, mem_steps hone]
      exact ⟨⌊p.latitude⌋, ⟨hy.1, by omega, one_dvd _⟩, ⌊p.longitude⌋,
        ⟨hx.1, by omega, one_dvd _⟩, rfl⟩
    · -- the inner loop never ends, and is entered
      refine iff_of_false ?_ fun h => hlon' h.2
      have hentered : steps (floorDegree sw.latitude) (ceilDegree ne.latitude + 1) 1 ≠ [] := by
        have hlt := floorDegree_lt_ceilDegree hsw.latitude hne.latitude hbox.1
        rw [steps_eq hone, if_pos (by omega)]
        exact List.cons_ne_nil _ _
      rw [if_pos hlat', if_neg hlon', nested_endless hentered]
      rintro ⟨names, hnames, -⟩
      exact absurd hnames.symm (Option.some_ne_none names)
  -- the outer loop never ends
  · refine iff_of_false ?_ fun h => hlat' h.1
    rw [if_neg hlat', nested_none]
    rintro ⟨names, hnames, -⟩
    exact absurd hnames.symm (Option.some_ne_none names)

/-- A node whose subtree stays in a degree is named after it. -/
theorem spatialNodeToNDNName_degreeTree {node : SpatialNode} {level : ℕ}
    (h : DegreeTree (100 * y, 100 * x) level node) (hy : 0 ≤ y) (hx : 0 ≤ x) :
    Utils.spatialNodeToNDNName node .LONG_LAT = degreeName y x := by
  cases h with
  | node cell _ hlat hlon hcell _ =>
    rw [spatialNodeToNDNName_grid hcell.southWest hcell.northEst, hcell.level_eq]
    unfold nodeComponents
    rw [cornerName_of_inDegree hlat hy, cornerName_of_inDegree hlon hx]
    rfl

/-- **Each degree has a leaf** with its name, if the degrees are found. -/
theorem degreeName_mem_leafNames (h : Divided sw ne) (hlow : Low sw) (hends : RootEnds sw ne)
    (hdegree : (100 * y, 100 * x) ∈ degrees sw ne) (hy : 0 ≤ y) (hx : 0 ≤ x) :
    degreeName y x ∈ leafNames (treeRoot sw ne k) := by
  have htree := isDegrees_treeRoot h hlow hends k
  obtain ⟨i, hi⟩ := List.getElem?_of_mem hdegree
  obtain ⟨child, hchild⟩ := exists_getElem?_of_length_eq htree.length.symm hi
  -- any leaf of the degree will do
  obtain ⟨leaf, hleaf⟩ := List.exists_mem_of_ne_nil _ (getLeaves_ne_nil child)
  obtain ⟨finer, -, hfiner⟩ := (htree.tree i _ _ hi hchild).of_mem_getLeaves hleaf
  refine List.mem_map.mpr ⟨leaf, ?_, spatialNodeToNDNName_degreeTree hfiner hy hx⟩
  exact mem_getLeaves_of_child (List.mem_of_getElem? hchild) hleaf

/-- The root alone is named by its first degree. -/
theorem leafNames_ofCorners (hy : 0 ≤ floorDegree sw.latitude)
    (hx : 0 ≤ floorDegree sw.longitude) :
    leafNames (.ofCorners sw ne 0) =
      [degreeName (floorDegree sw.latitude) (floorDegree sw.longitude)] := by
  unfold leafNames
  rw [getLeaves_of_nil rfl, List.map_singleton,
    spatialNodeToNDNName_grid ofCorners_zero.1 ofCorners_zero.2]
  have hcorner : ∀ {a b : ℤ}, 0 ≤ a → cornerName (100 * a) b = axisName (100 * a) := by
    intro a b ha
    have hneg : ¬100 * a < 0 := by omega
    unfold cornerName corner
    simp only [hneg, false_and, decide_false, ↓reduceIte]
    rfl
  unfold nodeComponents
  rw [hcorner hy, hcorner hx]
  rfl

/-! ### The cover -/

/-- A range with room for two degrees has points beyond the first one. -/
theorem exists_floor_ne {a b : ℚ} (ha : HasDecimals 5 a) (hb : HasDecimals 5 b) (hab : a < b)
    (h : ceilDegree b - floorDegree a ≠ 1) : ∃ q, (a < q ∧ q < b) ∧ ⌊q⌋ ≠ floorDegree a := by
  have hlt := floorDegree_lt_ceilDegree ha hb hab
  rw [ha.floorDegree, hb.ceilDegree] at *
  -- a point between the end of the first degree and the bound
  have hnext : ((⌊a⌋ + 1 : ℤ) : ℚ) < b := Int.lt_ceil.mp (by omega)
  obtain ⟨q, hlow, hhigh⟩ := exists_between (max_lt hab hnext)
  rw [max_lt_iff] at hlow
  refine ⟨q, ⟨hlow.1, hhigh⟩, fun heq => ?_⟩
  have hfloor : ⌊a⌋ + 1 ≤ ⌊q⌋ := Int.le_floor.mpr hlow.2.le
  omega

/-- The box lies in the first degree if there is no other. -/
theorem forall_first_degree_iff (hbox : IsBox sw ne) (hsw : FiveDecimals sw)
    (hne : FiveDecimals ne) :
    (∀ p ∈ interior sw ne,
      ⌊p.latitude⌋ = floorDegree sw.latitude ∧ ⌊p.longitude⌋ = floorDegree sw.longitude) ↔
      rows sw ne = 1 ∧ columns sw ne = 1 := by
  -- a point inside, for the coordinate that is not looked at
  obtain ⟨lat, hlat⟩ := exists_between hbox.1
  obtain ⟨lon, hlon⟩ := exists_between hbox.2
  unfold rows columns
  constructor
  · intro h
    constructor
    · -- or there would be degrees to the north
      by_contra hmany
      obtain ⟨q, hq, hfloor⟩ := exists_floor_ne hsw.latitude hne.latitude hbox.1 hmany
      exact hfloor (h ⟨q, lon⟩ ⟨hq, hlon⟩).1
    · -- or there would be degrees to the east
      by_contra hmany
      obtain ⟨q, hq, hfloor⟩ := exists_floor_ne hsw.longitude hne.longitude hbox.2 hmany
      exact hfloor (h ⟨lat, q⟩ ⟨hlat, hq⟩).2
  · rintro ⟨hrows, hcolumns⟩ p hp
    have hy := floor_between hsw.latitude hne.latitude hp.1.1 hp.1.2
    have hx := floor_between hsw.longitude hne.longitude hp.2.1 hp.2.2
    omega

/-- The call returns names, and they cover the box. -/
def TesselationCovers (sw ne : SpatialPoint) (k : ℤ) : Prop :=
  ∃ names, tesselateBox sw ne k = some names ∧ Covers names sw ne

/-- The names of the tree. -/
theorem leafNames_cover_iff (hbox : IsBox sw ne) (hsw : FiveDecimals sw) (hne : FiveDecimals ne)
    (hlat : 0 ≤ sw.latitude) (hlon : 0 ≤ sw.longitude) (hlow : Low sw)
    (hends : RootEnds sw ne) :
    Covers (leafNames (treeRoot sw ne k)) sw ne ↔
      rows sw ne = 1 ∧ columns sw ne = 1 ∨ Divided sw ne := by
  have hy := hsw.latitude.floorDegree_nonneg hlat
  have hx := hsw.longitude.floorDegree_nonneg hlon
  by_cases h : Divided sw ne
  · -- all degrees are named
    refine iff_of_true (fun p hp => coveredBy_of_degree ?_) (Or.inr h)
    have hy' := floor_between hsw.latitude hne.latitude hp.1.1 hp.1.2
    have hx' := floor_between hsw.longitude hne.longitude hp.2.1 hp.2.2
    exact degreeName_mem_leafNames h hlow hends (mem_degrees.mpr ⟨_, _, rfl, hy', hx'⟩)
      (hy.trans hy'.1) (hx.trans hx'.1)
  · -- the only name is that of the first degree
    rw [treeRoot_of_not_divided hlow hends h, leafNames_ofCorners hy hx, or_iff_left h,
      ← forall_first_degree_iff hbox hsw hne]
    exact forall₂_congr fun p _ => coveredBy_degreeName_iff

/-- **The box is covered** if and only if it takes the fast path, and the loops of that end, or the
loops over its degrees end and it lies in a single degree or is divided. -/
theorem tesselateBox_covers_iff (hlat : 0 ≤ sw.latitude) (hlon : 0 ≤ sw.longitude)
    (hbox : IsBox sw ne) (hsw : FiveDecimals sw) (hne : FiveDecimals ne) :
    TesselationCovers sw ne k ↔
      if k ≤ wrap (width sw ne * height sw ne) then
        ceilDegree ne.latitude < 2 ^ 31 - 1 ∧ ceilDegree ne.longitude < 2 ^ 31 - 1
      else RootEnds sw ne ∧ (rows sw ne = 1 ∧ columns sw ne = 1 ∨ Divided sw ne) := by
  -- from 0 on the corners are far from the lower end of the ints
  have hlow : Low sw := by
    have hy := hsw.latitude.floorDegree_nonneg hlat
    have hx := hsw.longitude.floorDegree_nonneg hlon
    exact ⟨by omega, by omega⟩
  unfold TesselationCovers tesselateBox
  split
  · exact tasselateBox100x100_covers_iff hbox hsw hne hlat hlon
  -- the tree is built, or the loop over the degrees never ends
  · by_cases hends : RootEnds sw ne
    · rw [tree_of_ends hlow hends, and_iff_right hends,
        ← leafNames_cover_iff hbox hsw hne hlat hlon hlow hends (k := k)]
      simp only [Option.map_some, Option.some.injEq, exists_eq_left']
    · rw [tree_of_endless hlow hends]
      refine iff_of_false ?_ fun h => hends h.1
      rintro ⟨names, hnames, -⟩
      exact absurd hnames.symm (Option.some_ne_none names)

/-- Tenths have five decimals. -/
theorem fiveDecimals_tenth (m n : ℤ) : FiveDecimals ⟨m / 10, n / 10⟩ := by
  have htenth : ∀ m : ℤ, HasDecimals 5 ((m : ℚ) / 10) := by
    intro m
    refine ⟨m * 10 ^ 4, ?_⟩
    push_cast
    ring
  exact ⟨htenth m, htenth n⟩

/-- A box over parts of six degrees. -/
theorem tesselateBox_covers_six :
    TesselationCovers ⟨((415 : ℤ) : ℚ) / 10, ((123 : ℤ) : ℚ) / 10⟩
      ⟨((427 : ℤ) : ℚ) / 10, ((145 : ℤ) : ℚ) / 10⟩ 30 := by
  have hfraction : ∀ {m : ℤ}, ¬10 ∣ m → ∀ n : ℤ, (m : ℚ) / 10 ≠ n := by
    rintro m hm n hn
    rw [div_eq_iff (by norm_num)] at hn
    exact hm ⟨n, by exact_mod_cast hn.trans (mul_comm _ _)⟩
  refine (tesselateBox_covers_iff (by norm_num) (by norm_num) ⟨by norm_num, by norm_num⟩
    (fiveDecimals_tenth _ _) (fiveDecimals_tenth _ _)).mpr ?_
  rw [if_neg (by decide +kernel)]
  refine ⟨by decide +kernel, Or.inr ⟨⟨by decide +kernel, by decide +kernel⟩, ?_, ?_⟩⟩
  · rintro ⟨n, hn, -⟩
    exact hfraction (by decide) n hn
  · rintro ⟨n, hn, -⟩
    exact hfraction (by decide) n hn

/-- A box over three degrees, from the lower to the upper edge of their row: two of them are
missing. -/
theorem tesselateBox_uncovered : ¬TesselationCovers ⟨0, 3 / 10⟩ ⟨1, 27 / 10⟩ 10 := by
  rintro ⟨names, hnames, hcovers⟩
  have haligned : ¬Divided ⟨0, 3 / 10⟩ ⟨1, 27 / 10⟩ := fun h =>
    h.2.1 ⟨0, by norm_num, by norm_num⟩
  have hlow : Low ⟨0, 3 / 10⟩ := ⟨by decide +kernel, by decide +kernel⟩
  have hends : RootEnds ⟨0, 3 / 10⟩ ⟨1, 27 / 10⟩ := by decide +kernel
  unfold tesselateBox at hnames
  rw [if_neg (by decide +kernel), tree_of_ends hlow hends, Option.map_some,
    treeRoot_of_not_divided hlow hends haligned,
    leafNames_ofCorners (by decide +kernel) (by decide +kernel)] at hnames
  obtain rfl := Option.some.inj hnames
  have hp := hcovers ⟨1 / 2, 3 / 2⟩ (by norm_num [SpatialPoint.interior])
  rw [coveredBy_degreeName_iff] at hp
  exact absurd hp.2 (by decide +kernel)

end SpatialTesseler

end OpenGeoBase
