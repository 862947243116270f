import OpenGeoBase.Fes.SpatialDivision

/-!
# The names of the leaves

The names of the leaves of a tree are meant to be those of cells: as many, with as many components
as the cells are small, and for degrees those of the fast path (`LeavesNamed`).

But no node of the tree knows its level, so that all names have two components, whatever the leaf
is. They are right if no degree has been divided. And south or west of the origin a name is that of
the corner across the cell, which is a corner of the next one too, so that the fast path has other
names there (`spatialNodeToNDNName_eq_degreeName_iff`). Where neither is the case, and the loops
over the degrees end, all is well (`namesLeaves_iff`).
-/

namespace OpenGeoBase

open Text Counting JavaInt

namespace SpatialNode

/-- The node is as high and as wide as the cells of a level. -/
def HasSide (node : SpatialNode) (level : ℕ) : Prop :=
  node.northEst = ⟨node.southWest.latitude + 1 / 10 ^ level,
    node.southWest.longitude + 1 / 10 ^ level⟩

/-- The node has its corners at whole degrees. -/
def AtDegrees (node : SpatialNode) : Prop :=
  ∃ a b c d : ℤ, node.southWest = .grid (100 * a) (100 * c) ∧
    node.northEst = .grid (100 * b) (100 * d)

end SpatialNode

namespace SpatialTesseler

open SpatialNode

variable {sw ne : SpatialPoint} {k : ℤ} {node : SpatialNode} {level : ℕ} {cell : ℤ × ℤ} {y x : ℤ}

/-- What the names are for: different leaves have different names, each with the resolution of its
leaf, and a degree has the name that it has on the fast path. -/
structure LeavesNamed (root : SpatialNode) : Prop where
  distinct : (leafNames root).Nodup
  resolution : ∀ leaf ∈ root.getLeaves, ∀ level ≤ 2, leaf.HasSide level →
    IsPath (level + 2) (Utils.spatialNodeToNDNName leaf .LONG_LAT)
  degree : ∀ leaf ∈ root.getLeaves, ∀ y x : ℤ, leaf.southWest = ⟨y, x⟩ →
    leaf.northEst = ⟨y + 1, x + 1⟩ →
      Utils.spatialNodeToNDNName leaf .LONG_LAT =
        Utils.spatialPointToNDNNname y x false false 0 .LONG_LAT

/-- There is a tree, and the names that are returned name its leaves. -/
def NamesLeaves (sw ne : SpatialPoint) (k : ℤ) : Prop :=
  ∃ root, tree sw ne k = some root ∧ tesselateBox sw ne k = some (leafNames root) ∧
    LeavesNamed root

/-! ### Names of two components -/

/-- A node that occupies a cell has its side. -/
theorem hasSide_of_hasCell (hlevel : level ≤ 2) (h : node.HasCell level cell) :
    node.HasSide level := by
  have hside := side_mul_div hlevel 1
  rw [mul_one, Int.cast_one] at hside
  unfold HasSide
  rw [h.northEst, h.southWest]
  unfold SpatialPoint.grid
  push_cast
  rw [add_div, add_div, hside]

/-- A node on the grid that takes itself for a cell of level 0. -/
theorem isPath_two {a b c d : ℤ} (hsw : node.southWest = .grid a c)
    (hne : node.northEst = .grid b d) (hlevel : node.level = 0) :
    IsPath 2 (Utils.spatialNodeToNDNName node .LONG_LAT) := by
  rw [spatialNodeToNDNName_grid hsw hne, hlevel]
  exact ⟨_, length_nodeComponents 0, slashFree_nodeComponents 0, rfl⟩

/-- Two components are right for a node at whole degrees, which can only be a cell of level 0. -/
theorem AtDegrees.level_eq_zero (h : node.AtDegrees) (hside : node.HasSide level) : level = 0 := by
  obtain ⟨a, b, c, d, hsw, hne⟩ := h
  unfold HasSide at hside
  rw [hsw, hne, grid_hundred, grid_hundred] at hside
  have hone : ((b - a : ℤ) : ℚ) = 1 / 10 ^ level := by
    have hlat := congrArg SpatialPoint.latitude hside
    push_cast
    dsimp only at hlat
    linarith
  by_contra hne
  -- no whole number of degrees is a tenth or a hundredth
  have hlt : (1 : ℚ) / 10 ^ level < 1 :=
    (div_lt_one (by positivity)).mpr (one_lt_pow₀ (by norm_num) hne)
  have hpos : (0 : ℚ) < 1 / 10 ^ level := by positivity
  rw [← hone] at hlt hpos
  have hlt' : b - a < 1 := by exact_mod_cast hlt
  have hpos' : 0 < b - a := by exact_mod_cast hpos
  omega

/-! ### Names of degrees -/

/-- Only from 0 on is a degree named by its south-west corner. -/
theorem cornerName_degree_iff (z : ℤ) :
    cornerName (100 * z) (100 * z + side 0) = axisName (100 * z) ↔ 0 ≤ z := by
  constructor
  · intro h
    by_contra hz
    -- south or west of 0 the digits are those of the corner across
    have hneg : 100 * z < 0 := by omega
    unfold cornerName corner at h
    rw [hundred_add_side, if_pos hneg] at h
    rcases eq_or_ne z (-1) with rfl | hne
    · -- the corner across is at 0, and only the sign is of this degree
      exact absurd h (by decide)
    · -- the corner across is negative and that of the next degree
      have hsign : ¬(100 * z < 0 ∧ 0 ≤ 100 * (z + 1)) := by omega
      rw [decide_eq_false hsign] at h
      have heq := axisName_hundred_injective (y := z + 1) h
      omega
  · exact cornerName_of_inDegree (.self (dvd_mul_right 100 z))

/-- **A degree has the name of the fast path** if and only if it lies north east of the origin. -/
theorem spatialNodeToNDNName_eq_degreeName_iff (h : node.HasCell 0 (100 * y, 100 * x)) :
    Utils.spatialNodeToNDNName node .LONG_LAT = degreeName y x ↔ 0 ≤ y ∧ 0 ≤ x := by
  rw [spatialNodeToNDNName_grid h.southWest h.northEst, h.level_eq, ← cornerName_degree_iff,
    ← cornerName_degree_iff]
  constructor
  · intro heq
    have hcomponents :=
      path_injective (slashFree_nodeComponents 0) (slashFree_degreeName y x) heq
    simp only [nodeComponents, List.range'_zero, List.map_nil, List.cons.injEq,
      and_true] at hcomponents
    exact ⟨hcomponents.2, hcomponents.1⟩
  · rintro ⟨hy, hx⟩
    unfold nodeComponents
    rw [hy, hx]
    rfl

/-! ### The root alone -/

/-- The root is a degree itself if it is the only one. -/
theorem hasCell_ofCorners (hrows : rows sw ne = 1) (hcolumns : columns sw ne = 1) :
    (SpatialNode.ofCorners sw ne 0).HasCell 0
      (100 * floorDegree sw.latitude, 100 * floorDegree sw.longitude) := by
  unfold rows at hrows
  unfold columns at hcolumns
  rw [sub_eq_iff_eq_add'] at hrows hcolumns
  refine ⟨ofCorners_zero.1, ?_, rfl⟩
  rw [ofCorners_zero.2, hrows, hcolumns, hundred_add_side, hundred_add_side]

/-- When the root is a leaf itself, and its name is that of a tile. -/
theorem leavesNamed_ofCorners :
    LeavesNamed (.ofCorners sw ne 0) ↔ (rows sw ne = 1 ∧ columns sw ne = 1 →
      0 ≤ floorDegree sw.latitude ∧ 0 ≤ floorDegree sw.longitude) := by
  have hleaves : (SpatialNode.ofCorners sw ne 0).getLeaves = [SpatialNode.ofCorners sw ne 0] :=
    getLeaves_of_nil rfl
  have hsw : (SpatialNode.ofCorners sw ne 0).southWest =
      ⟨floorDegree sw.latitude, floorDegree sw.longitude⟩ := by
    rw [ofCorners_zero.1, grid_hundred]
  have hne : (SpatialNode.ofCorners sw ne 0).northEst =
      ⟨ceilDegree ne.latitude, ceilDegree ne.longitude⟩ := by
    rw [ofCorners_zero.2, grid_hundred]
  constructor
  · -- the root is a degree, so its name is asked for
    rintro hnames ⟨hrows, hcolumns⟩
    have hcell := hasCell_ofCorners hrows hcolumns
    rw [← spatialNodeToNDNName_eq_degreeName_iff hcell, ← spatialPointToNDNNname_degree]
    refine hnames.degree _ (hleaves ▸ List.mem_singleton_self _) _ _ hsw ?_
    unfold rows at hrows
    unfold columns at hcolumns
    rw [sub_eq_iff_eq_add'] at hrows hcolumns
    rw [hne, hrows, hcolumns]
    push_cast
    rfl
  -- one leaf: its name is in the list once, and of no level below the degree
  · intro hnorthEast
    refine ⟨?_, ?_, ?_⟩
    · unfold leafNames
      rw [hleaves]
      exact List.nodup_singleton _
    · intro leaf hleaf level _ hside
      rw [hleaves, List.mem_singleton] at hleaf
      subst hleaf
      obtain rfl := AtDegrees.level_eq_zero ⟨_, _, _, _, ofCorners_zero⟩ hside
      exact isPath_two ofCorners_zero.1 ofCorners_zero.2 rfl
    · intro leaf hleaf y x hy hx
      rw [hleaves, List.mem_singleton] at hleaf
      subst hleaf
      rw [hsw, SpatialPoint.mk.injEq, Int.cast_inj, Int.cast_inj] at hy
      obtain ⟨rfl, rfl⟩ := hy
      rw [hne, SpatialPoint.mk.injEq] at hx
      have hrows : rows sw ne = 1 := by
        unfold rows
        rw [sub_eq_iff_eq_add']
        exact_mod_cast hx.1
      have hcolumns : columns sw ne = 1 := by
        unfold columns
        rw [sub_eq_iff_eq_add']
        exact_mod_cast hx.2
      rw [spatialPointToNDNNname_degree,
        spatialNodeToNDNName_eq_degreeName_iff (hasCell_ofCorners hrows hcolumns)]
      exact hnorthEast ⟨hrows, hcolumns⟩

/-! ### Degrees that stay whole -/

/-- The degrees are different. -/
theorem nodup_degrees (sw ne : SpatialPoint) : (degrees sw ne).Nodup := by
  have hstep : (100 : ℤ) ≠ 0 := by decide
  unfold degrees
  exact (nodup_steps hstep).product (nodup_steps hstep)

namespace IsWhole

variable {n : ℕ} {root leaf : SpatialNode} {degree : ℤ × ℤ}

/-- The leaves of a whole root are its children. -/
theorem getLeaves (h : IsWhole sw ne n root) (hdivided : Divided sw ne) :
    root.getLeaves = root.children := by
  have hne : root.children ≠ [] := by
    have hpos : 0 < rows sw ne * columns sw ne := mul_pos hdivided.rows_pos.1 hdivided.rows_pos.2
    rw [← hdivided.length_degrees, ← h.length] at hpos
    exact List.ne_nil_of_length_pos (by omega)
  have hself : root.children.flatMap SpatialNode.getLeaves = root.children.flatMap fun c => [c] :=
    List.flatMap_congr fun child hchild => getLeaves_of_nil (h.flat child hchild)
  rw [getLeaves_of_ne_nil hne, hself, List.flatMap_singleton']

/-- The leaf of a degree. -/
theorem hasCell (h : IsWhole sw ne n root) {i : ℕ} (hdegree : (degrees sw ne)[i]? = some degree) :
    ∃ leaf, root.children[i]? = some leaf ∧ leaf.HasCell 0 degree := by
  obtain ⟨full, hchild, -⟩ := h.child i degree hdegree
  have hcell := hasCell_degreeNode (List.mem_of_getElem? hdegree)
  exact ⟨_, hchild, hcell.southWest, hcell.northEst, hcell.level_eq⟩

/-- Each leaf is a degree. -/
theorem hasCell_of_mem (h : IsWhole sw ne n root) (hleaf : leaf ∈ root.children) :
    ∃ y x, (100 * y, 100 * x) ∈ degrees sw ne ∧ leaf.HasCell 0 (100 * y, 100 * x) := by
  obtain ⟨i, hi⟩ := List.getElem?_of_mem hleaf
  obtain ⟨degree, hdegree⟩ := exists_getElem?_of_length_eq h.length hi
  obtain ⟨leaf', hleaf', hcell⟩ := h.hasCell hdegree
  obtain rfl := Option.some.inj (hi.symm.trans hleaf')
  have hmem := List.mem_of_getElem? hdegree
  obtain ⟨y, x, rfl, -, -⟩ := mem_degrees.mp hmem
  exact ⟨y, x, hmem, hcell⟩

/-- The names of the leaves, north east of the origin. -/
theorem names (h : IsWhole sw ne n root) (hy : 0 ≤ floorDegree sw.latitude)
    (hx : 0 ≤ floorDegree sw.longitude) :
    (root.children.map fun leaf => Utils.spatialNodeToNDNName leaf .LONG_LAT) =
      (degrees sw ne).map fun degree => degreeName (degree.1 / 100) (degree.2 / 100) := by
  -- leaf by leaf: the tree has them in the order of the degrees
  refine List.ext_getElem? fun i => ?_
  rw [List.getElem?_map, List.getElem?_map]
  cases hdegree : (degrees sw ne)[i]? with
  | none =>
    have hle := List.getElem?_eq_none_iff.mp hdegree
    rw [List.getElem?_eq_none_iff.mpr (h.length.trans_le hle)]
    rfl
  | some degree =>
    obtain ⟨leaf, hleaf, hcell⟩ := h.hasCell hdegree
    obtain ⟨y, x, rfl, hy', hx'⟩ := mem_degrees.mp (List.mem_of_getElem? hdegree)
    have hhundred : ∀ z : ℤ, 100 * z / 100 = z := fun z =>
      Int.mul_ediv_cancel_left z (by decide)
    rw [hleaf, Option.map_some, Option.map_some, hhundred, hhundred]
    exact congrArg some ((spatialNodeToNDNName_eq_degreeName_iff hcell).mpr
      ⟨hy.trans hy'.1, hx.trans hx'.1⟩)

end IsWhole

/-- Different degrees have different names. -/
theorem nodup_degreeName :
    ((degrees sw ne).map fun degree => degreeName (degree.1 / 100) (degree.2 / 100)).Nodup := by
  refine (nodup_degrees sw ne).map_on fun degree hdegree degree' hdegree' heq => ?_
  obtain ⟨y, x, rfl, -, -⟩ := mem_degrees.mp hdegree
  obtain ⟨y', x', rfl, -, -⟩ := mem_degrees.mp hdegree'
  have hname := degreeName_injective heq
  ext
  · dsimp only at hname ⊢
    omega
  · dsimp only at hname ⊢
    omega

/-- A root of whole degrees names its leaves right from 0 on in both directions. -/
theorem leavesNamed_of_whole (hdivided : Divided sw ne) {n : ℕ} {root : SpatialNode}
    (htree : IsWhole sw ne n root) :
    LeavesNamed root ↔ 0 ≤ floorDegree sw.latitude ∧ 0 ≤ floorDegree sw.longitude := by
  have hleaves := htree.getLeaves hdivided
  constructor
  · -- the degree at the south west corner
    intro hnames
    have hdegree : (100 * floorDegree sw.latitude, 100 * floorDegree sw.longitude) ∈
        degrees sw ne := by
      have hpos := hdivided.rows_pos
      unfold rows columns at hpos
      exact mem_degrees.mpr ⟨_, _, rfl, ⟨le_rfl, by omega⟩, le_rfl, by omega⟩
    obtain ⟨i, hi⟩ := List.getElem?_of_mem hdegree
    obtain ⟨leaf, hleaf, hcell⟩ := htree.hasCell hi
    rw [← spatialNodeToNDNName_eq_degreeName_iff hcell, ← spatialPointToNDNNname_degree]
    refine hnames.degree leaf (hleaves ▸ List.mem_of_getElem? hleaf) _ _ ?_ ?_
    · rw [hcell.southWest, grid_hundred]
    · rw [hcell.northEst, hundred_add_side, hundred_add_side, grid_hundred]
      push_cast
      rfl
  -- north east of 0 every leaf has the name of its degree, and the degrees are distinct
  · rintro ⟨hy, hx⟩
    refine ⟨?_, ?_, ?_⟩
    · unfold leafNames
      rw [hleaves, htree.names hy hx]
      exact nodup_degreeName
    · intro leaf hleaf level _ hside
      obtain ⟨y, x, -, hcell⟩ := htree.hasCell_of_mem (hleaves ▸ hleaf)
      have hne := hcell.northEst
      rw [hundred_add_side, hundred_add_side] at hne
      obtain rfl := AtDegrees.level_eq_zero ⟨_, _, _, _, hcell.southWest, hne⟩ hside
      exact isPath_two hcell.southWest hcell.northEst hcell.level_eq
    · intro leaf hleaf y x hsw _
      obtain ⟨y', x', hdegree, hcell⟩ := htree.hasCell_of_mem (hleaves ▸ hleaf)
      obtain ⟨_, _, heq, hy', hx'⟩ := mem_degrees.mp hdegree
      rw [hcell.southWest, grid_hundred, SpatialPoint.mk.injEq, Int.cast_inj, Int.cast_inj] at hsw
      obtain ⟨rfl, rfl⟩ := hsw
      rw [Prod.mk.injEq] at heq
      rw [spatialPointToNDNNname_degree, spatialNodeToNDNName_eq_degreeName_iff hcell]
      omega

/-! ### A degree that is divided -/

/-- A root with a divided degree names some leaf wrongly. -/
theorem not_leavesNamed_of_parts {i : ℕ} {degrees : List (ℤ × ℤ)} {root : SpatialNode}
    (htree : IsDegrees degrees root) (hparts : HasParts i root) : ¬LeavesNamed root := by
  intro hnames
  obtain ⟨child, hchild, hne⟩ := hparts
  have hchild' : root.children[i]? = some child := by
    obtain ⟨child', hchild', heq⟩ := Option.bind_eq_some_iff.mp hchild
    exact hchild'.trans heq
  obtain ⟨degree, hi⟩ := exists_getElem?_of_length_eq htree.length hchild'
  have hdegree := htree.tree i degree child hi hchild'
  obtain ⟨part, hpart⟩ := List.exists_mem_of_ne_nil _ hne
  obtain ⟨leaf, hleaf⟩ := List.exists_mem_of_ne_nil _ (getLeaves_ne_nil part)
  have hmem : leaf ∈ root.getLeaves :=
    mem_getLeaves_of_child (List.mem_of_getElem? hchild') (mem_getLeaves_of_child hpart hleaf)
  obtain ⟨level, hfiner, hcells⟩ := (hdegree.children hpart).of_mem_getLeaves hleaf
  cases hcells with
  | node cell hlevel _ _ hcell _ =>
    -- a name with more than two components, and one with two
    have hresolution := hnames.resolution leaf hmem level hlevel (hasSide_of_hasCell hlevel hcell)
    have htwo := isPath_two hcell.southWest hcell.northEst hcell.level_eq
    exact hresolution.ne htwo (by omega) rfl

/-- The names of the tree, where there is one. -/
theorem leavesNamed_treeRoot (hlow : Low sw) (hends : RootEnds sw ne) :
    LeavesNamed (treeRoot sw ne k) ↔
      (Divided sw ne ∨ rows sw ne = 1 ∧ columns sw ne = 1 →
        0 ≤ floorDegree sw.latitude ∧ 0 ≤ floorDegree sw.longitude) ∧
      (Divided sw ne → ∀ degree ∈ degrees sw ne, StaysWhole sw ne k degree) := by
  by_cases hdivided : Divided sw ne
  · by_cases hwhole : ∀ degree ∈ degrees sw ne, StaysWhole sw ne k degree
    · rw [leavesNamed_of_whole hdivided (isWhole_treeRoot hdivided hlow hends hwhole)]
      exact ⟨fun h => ⟨fun _ => h, fun _ => hwhole⟩, fun h => h.1 (Or.inl hdivided)⟩
    · have hnot : ¬LeavesNamed (treeRoot sw ne k) := by
        push Not at hwhole
        obtain ⟨degree, hdegree, hnot⟩ := hwhole
        obtain ⟨i, hparts⟩ := hasParts_treeRoot hdivided hlow hends hdegree hnot
        exact not_leavesNamed_of_parts (isDegrees_treeRoot hdivided hlow hends k) hparts
      exact iff_of_false hnot fun h => hwhole (h.2 hdivided)
  · rw [treeRoot_of_not_divided hlow hends hdivided, leavesNamed_ofCorners]
    tauto

/-- **The leaves are named right** if and only if the loops over the degrees end, the first degree
lies north east of the origin, where degrees are leaves at all, and each degree stays whole. -/
theorem namesLeaves_iff (hlow : Low sw) (hpath : wrap (width sw ne * height sw ne) < k) :
    NamesLeaves sw ne k ↔
      RootEnds sw ne ∧
      (Divided sw ne ∨ rows sw ne = 1 ∧ columns sw ne = 1 →
        0 ≤ floorDegree sw.latitude ∧ 0 ≤ floorDegree sw.longitude) ∧
      (Divided sw ne → ∀ degree ∈ degrees sw ne, StaysWhole sw ne k degree) := by
  unfold NamesLeaves
  rw [tesselateBox_of_tree hpath]
  by_cases hends : RootEnds sw ne
  · rw [and_iff_right hends, ← leavesNamed_treeRoot hlow hends, tree_of_ends hlow hends]
    constructor
    · rintro ⟨root, hroot, -, hnames⟩
      obtain rfl := Option.some.inj hroot
      exact hnames
    · exact fun hnames => ⟨_, rfl, rfl, hnames⟩
  · rw [tree_of_endless hlow hends]
    refine iff_of_false ?_ fun h => hends h.1
    rintro ⟨root, hroot, -⟩
    exact absurd hroot.symm (Option.some_ne_none root)

/-- A box of four whole degrees. -/
theorem namesLeaves_four : NamesLeaves ⟨1, 1⟩ ⟨3, 3⟩ 10 := by
  have hlow : Low ⟨1, 1⟩ := ⟨by decide +kernel, by decide +kernel⟩
  have hfull : ∀ degree ∈ degrees ⟨1, 1⟩ ⟨3, 3⟩,
      (degreeNode ⟨1, 1⟩ ⟨3, 3⟩ degree).isFull = true := by
    decide +kernel
  refine (namesLeaves_iff hlow (by decide +kernel)).mpr
    ⟨by decide +kernel, fun _ => ?_, fun _ degree hdegree => ?_⟩
  · exact ⟨by decide +kernel, by decide +kernel⟩
  · exact Or.inl (Or.inr (hfull degree hdegree))

/-- A box over four tenths of a degree, which is divided: all four of them have the name of the
degree. -/
theorem not_namesLeaves_tenths : ¬NamesLeaves ⟨1 / 4, 1 / 4⟩ ⟨7 / 20, 7 / 20⟩ 4 := by
  rintro ⟨root, hroot, -, hnames⟩
  have hsame : ((tree ⟨1 / 4, 1 / 4⟩ ⟨7 / 20, 7 / 20⟩ 4).map fun root =>
      decide (leafNames root).Nodup) = some false := by
    decide +kernel
  rw [hroot, Option.map_some, Option.some.injEq] at hsame
  exact of_decide_eq_false hsame hnames.distinct

end SpatialTesseler

end OpenGeoBase
