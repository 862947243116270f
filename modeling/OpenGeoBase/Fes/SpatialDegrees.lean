import OpenGeoBase.Fes.SpatialTesseler

/-!
# The degrees of a tessellation

The children of the root are cells of one degree, all that the loops go over, or none: a cell is as
high as the box only if the box fills one row of degrees exactly, and then all cells are
(`found_degrees`). What the recursion does afterwards stays below these children. In the tree of a
degree all nodes are cells of the grid inside it, one level finer with each step down
(`DegreeTree`), and this survives the recursion (`survives_isDegrees`). The cells of such a node are
between corners that are `int`s, so that the loops over them end, and the recursion returns
(`returns_tree`).

No node below the root knows its level, so each leaf has a name of two components.
-/

namespace OpenGeoBase

open Text AtomicCalls Counting JavaInt

/-! ### Cells inside a degree -/

/-- A range of the grid of a level inside a degree, from their starts, in hundredths. -/
structure InDegree (degree : ℤ) (level : ℕ) (start : ℤ) : Prop where
  dvd : SpatialNode.side level ∣ start
  le : degree ≤ start
  stop_le : start + SpatialNode.side level ≤ degree + 100

/-- A degree begins with its own first cell. -/
theorem InDegree.self {degree : ℤ} (h : 100 ∣ degree) : InDegree degree 0 degree :=
  ⟨h, le_rfl, le_rfl⟩

/-- A side is ten of the next level. -/
theorem SpatialNode.side_succ {level : ℕ} (h : level + 1 ≤ 2) :
    SpatialNode.side level = 10 * SpatialNode.side (level + 1) := by
  have hexp : 2 - level = 2 - (level + 1) + 1 := by omega
  rw [side, side, hexp, pow_succ, mul_comm]

theorem SpatialNode.side_pos (level : ℕ) : 0 < SpatialNode.side level := by
  unfold side
  positivity

/-- The next degree. -/
theorem SpatialNode.hundred_add_side (z : ℤ) : 100 * z + SpatialNode.side 0 = 100 * (z + 1) :=
  (mul_add_one 100 z).symm

/-- The loops of the next level stay inside the degree. -/
theorem InDegree.of_mem_steps {degree start x : ℤ} {level : ℕ} (h : InDegree degree level start)
    (hlevel : level + 1 ≤ 2)
    (hx : x ∈ steps start (start + SpatialNode.side level) (SpatialNode.side (level + 1))) :
    InDegree degree (level + 1) x := by
  have hside := SpatialNode.side_succ hlevel
  have hpos := SpatialNode.side_pos (level + 1)
  obtain ⟨hle, hlt, q, hq⟩ := (mem_steps hpos).mp hx
  obtain ⟨r, hr⟩ := h.dvd
  have hstop := h.stop_le
  have hlow := h.le
  have hx' : x = start + SpatialNode.side (level + 1) * q := by omega
  -- the tenth part of the range is its last one
  have hq10 : q < 10 := by
    refine lt_of_mul_lt_mul_left ?_ hpos.le
    omega
  have hend : SpatialNode.side (level + 1) * q + SpatialNode.side (level + 1) ≤
      SpatialNode.side level := by
    rw [hside, mul_comm 10, ← mul_add_one]
    exact mul_le_mul_of_nonneg_left (by omega) hpos.le
  refine ⟨?_, hlow.trans hle, by omega⟩
  rw [hx', hr, hside, mul_comm 10, mul_assoc, ← mul_add]
  exact dvd_mul_right _ _

/-- All hundredths of the degree are `int`s. -/
structure DegreeFits (degree : ℤ × ℤ) : Prop where
  latitude : Fits degree.1 ∧ Fits (degree.1 + 100)
  longitude : Fits degree.2 ∧ Fits (degree.2 + 100)

/-- Inside a degree the ends of a range are on the grid of the next level. -/
theorem InDegree.onGrid {degree start : ℤ} {level : ℕ} (h : InDegree degree level start)
    (hlevel : level + 1 ≤ 2) (hfits : Fits degree ∧ Fits (degree + 100)) :
    SpatialTesseler.OnGrid (level + 1) start ∧
      SpatialTesseler.OnGrid (level + 1) (start + SpatialNode.side level) := by
  have hside := SpatialNode.side_succ hlevel
  have hpos := SpatialNode.side_pos level
  have hdvd : SpatialNode.side (level + 1) ∣ SpatialNode.side level := ⟨10, by rw [hside, mul_comm]⟩
  obtain ⟨⟨hlow, -⟩, -, hhigh⟩ := hfits
  have hle := h.le
  have hstop := h.stop_le
  exact ⟨⟨hdvd.trans h.dvd, ⟨by omega, by omega⟩⟩,
    ⟨dvd_add (hdvd.trans h.dvd) hdvd, ⟨by omega, by omega⟩⟩⟩

namespace SpatialNode

/-- The node has the corners of the cell of a level, and takes itself for a cell of level 0. -/
structure HasCell (node : SpatialNode) (level : ℕ) (cell : ℤ × ℤ) : Prop where
  southWest : node.southWest = .grid cell.1 cell.2
  northEst : node.northEst = .grid (cell.1 + side level) (cell.2 + side level)
  level_eq : node.level = 0

/-- The tree of a degree, from its south west corner. -/
inductive DegreeTree (degree : ℤ × ℤ) : ℕ → SpatialNode → Prop where
  | node {level : ℕ} {node : SpatialNode} (cell : ℤ × ℤ) (hlevel : level ≤ 2)
      (hlat : InDegree degree.1 level cell.1) (hlon : InDegree degree.2 level cell.2)
      (hcell : node.HasCell level cell)
      (hchildren : ∀ child ∈ node.children, DegreeTree degree (level + 1) child) :
      DegreeTree degree level node

namespace DegreeTree

variable {degree : ℤ × ℤ} {level : ℕ} {root node child : SpatialNode} {path : List ℕ}

/-- The children of a node within a degree are within it. -/
theorem children (h : DegreeTree degree level node) (hchild : child ∈ node.children) :
    DegreeTree degree (level + 1) child := by
  cases h with
  | node _ _ _ _ _ hchildren => exact hchildren child hchild

/-- Other children may be put in. -/
theorem of_children (h : DegreeTree degree level node) (full : Bool) {nodes : List SpatialNode}
    (hnodes : ∀ child ∈ nodes, DegreeTree degree (level + 1) child) :
    DegreeTree degree level { node with children := nodes, isFull := full } := by
  cases h with
  | node cell hlevel hlat hlon hcell _ =>
    exact .node cell hlevel hlat hlon ⟨hcell.southWest, hcell.northEst, hcell.level_eq⟩ hnodes

/-- The cell of a node does not depend on how it came to its father. -/
theorem of_father (h : DegreeTree degree level node) (father : Bool) :
    DegreeTree degree level { node with father } := by
  cases h with
  | node cell hlevel hlat hlon hcell hchildren =>
    exact .node cell hlevel hlat hlon ⟨hcell.southWest, hcell.northEst, hcell.level_eq⟩ hchildren

/-- Every node below a node within a degree is within it. -/
theorem at? (h : DegreeTree degree level root) (hnode : root.at? path = some node) :
    DegreeTree degree (level + path.length) node := by
  induction path generalizing root level with
  | nil =>
    obtain rfl := Option.some.inj hnode
    exact h
  | cons i path ih =>
    obtain ⟨child, hchild, hbelow⟩ := Option.bind_eq_some_iff.mp hnode
    have htree := ih (h.children (List.mem_of_getElem? hchild)) hbelow
    rwa [List.length_cons, Nat.add_comm path.length, ← Nat.add_assoc]

/-- A node may be changed into another of its level. -/
theorem update {f : SpatialNode → SpatialNode} (h : DegreeTree degree level root)
    (hf : ∀ node, DegreeTree degree (level + path.length) node →
      DegreeTree degree (level + path.length) (f node)) :
    DegreeTree degree level (root.update f path) := by
  -- along the path: one level deeper with each step
  induction path generalizing root level with
  | nil => exact hf root h
  | cons i path ih =>
    refine h.of_children root.isFull fun child hchild => ?_
    obtain ⟨j, hj⟩ := List.getElem?_of_mem hchild
    rw [List.getElem?_modify] at hj
    obtain ⟨old, hold, rfl⟩ := Option.map_eq_some_iff.mp hj
    have htree := h.children (List.mem_of_getElem? hold)
    split
    · -- the child on the path
      refine ih htree fun node hnode => ?_
      rw [List.length_cons, Nat.add_comm path.length, ← Nat.add_assoc] at hf
      exact hf node hnode
    · exact htree

/-- Adding a child within the degree leaves a tree in its degree. -/
theorem appendChild (h : DegreeTree degree level node)
    (hchild : DegreeTree degree (level + 1) child) :
    DegreeTree degree level (node.appendChild child) := by
  refine h.of_children node.isFull fun other hother => ?_
  rcases List.mem_append.mp hother with hother | hother
  · exact h.children hother
  · obtain rfl := List.mem_singleton.mp hother
    exact hchild.of_father true

/-- Cutting the children off leaves a tree in its degree. -/
theorem aggregate (h : DegreeTree degree level node) : DegreeTree degree level node.aggregate := by
  unfold SpatialNode.aggregate
  split
  · exact h.of_children true fun child hchild => absurd hchild List.not_mem_nil
  · exact h

theorem sortChildren (h : DegreeTree degree level node) :
    DegreeTree degree level node.sortChildren :=
  h.of_children node.isFull fun _ hchild =>
    h.children ((perm_sortChildren node).mem_iff.mp hchild)

/-- The leaves are cells of this level or a finer one. -/
theorem of_mem_getLeaves {leaf : SpatialNode} (h : DegreeTree degree level root)
    (hleaf : leaf ∈ root.getLeaves) : ∃ finer, level ≤ finer ∧ DegreeTree degree finer leaf := by
  -- over the tree: a leaf of a child is of a finer level
  induction root using induct generalizing level with
  | node root ih =>
    by_cases hnil : root.children = []
    · rw [getLeaves_of_nil hnil] at hleaf
      obtain rfl := List.mem_singleton.mp hleaf
      exact ⟨level, le_rfl, h⟩
    · rw [getLeaves_of_ne_nil hnil] at hleaf
      obtain ⟨child, hchild, hbelow⟩ := List.mem_flatMap.mp hleaf
      obtain ⟨finer, hle, htree⟩ := ih child hchild (h.children hchild) hbelow
      exact ⟨finer, Nat.le_of_succ_le hle, htree⟩

end DegreeTree

end SpatialNode

namespace SpatialTesseler

open SpatialNode

/-! ### The trees survive the recursion -/

section Survives

variable {sw ne : SpatialPoint} {k : ℤ} {level : ℕ} {cell : ℤ × ℤ} {head root : SpatialNode}

/-- The node of a cell of the grid, whether it meets the box or not. -/
theorem hasCell_cellNode (hlevel : level ≤ 2) (hlat : side level ∣ cell.1)
    (hlon : side level ∣ cell.2) : (cellNode sw ne level cell).2.HasCell level cell := by
  have hcorners := ofPoint_grid hlevel hlat hlon
  unfold cellNode computeIntersection
  split
  all_goals exact ⟨hcorners.1, hcorners.2, rfl⟩

/-- The node of a cell within a degree is a tree within it. -/
theorem degreeTree_cellNode {degree : ℤ × ℤ} (hlevel : level ≤ 2)
    (hlat : InDegree degree.1 level cell.1) (hlon : InDegree degree.2 level cell.2) :
    DegreeTree degree level (cellNode sw ne level cell).2 := by
  refine .node cell hlevel hlat hlon ?_ fun child hchild => ?_
  · exact hasCell_cellNode hlevel hlat.dvd hlon.dvd
  rw [children_cellNode] at hchild
  exact absurd hchild List.not_mem_nil

/-- The loops over the cells of a node in a degree end, and the cells are in the degree. -/
theorem cells_degreeTree {degree : ℤ × ℤ} (hfits : DegreeFits degree)
    (hhead : DegreeTree degree level head) (hlevel : level + 1 ≤ 2) :
    ∃ corners, cells (level + 1) head = some corners ∧ ∀ cell ∈ corners,
      InDegree degree.1 (level + 1) cell.1 ∧ InDegree degree.2 (level + 1) cell.2 := by
  cases hhead with
  | node corner _ hlat hlon hhas _ =>
    have hlat' := hlat.onGrid hlevel hfits.latitude
    have hlon' := hlon.onGrid hlevel hfits.longitude
    refine ⟨_, cells_grid hlevel hhas.southWest hhas.northEst hlat'.1 hlat'.2 hlon'.1 hlon'.2, ?_⟩
    intro cell hcell
    obtain ⟨y, hy, hcell⟩ := List.mem_flatMap.mp hcell
    obtain ⟨x, hx, rfl⟩ := List.mem_map.mp hcell
    exact ⟨hlat.of_mem_steps hlevel hy, hlon.of_mem_steps hlevel hx⟩

/-- Lists of the same length have the same positions. -/
theorem exists_getElem?_of_length_eq {α β : Type} {xs : List α} {ys : List β} {x : α} {i : ℕ}
    (hlength : xs.length = ys.length) (hx : xs[i]? = some x) : ∃ y, ys[i]? = some y := by
  have hlt : i < ys.length := by
    rw [← hlength]
    exact (List.getElem?_eq_some_iff.mp hx).1
  exact ⟨_, List.getElem?_eq_getElem hlt⟩

/-- The children of the root are the trees of these degrees, in this order. -/
structure IsDegrees (degrees : List (ℤ × ℤ)) (root : SpatialNode) : Prop where
  fits : ∀ degree ∈ degrees, DegreeFits degree
  length : root.children.length = degrees.length
  tree : ∀ (i : ℕ) degree child, degrees[i]? = some degree → root.children[i]? = some child →
    DegreeTree degree 0 child

/-- To change the tree of one degree leaves the others. -/
theorem IsDegrees.update {degrees : List (ℤ × ℤ)} {f : SpatialNode → SpatialNode} {i : ℕ}
    {path : List ℕ} (h : IsDegrees degrees root)
    (hf : ∀ degree node, degrees[i]? = some degree → DegreeTree degree path.length node →
      DegreeTree degree path.length (f node)) : IsDegrees degrees (root.update f (i :: path)) where
  fits := h.fits
  length := (List.length_modify ..).trans h.length
  tree j degree child hdegree hchild := by
    change (root.children.modify i (SpatialNode.update f path))[j]? = some child at hchild
    rw [List.getElem?_modify] at hchild
    obtain ⟨old, hold, rfl⟩ := Option.map_eq_some_iff.mp hchild
    have htree := h.tree j degree old hdegree hold
    -- the update stays within the child it starts at
    split
    · next hij =>
      subst hij
      refine htree.update fun node hnode => ?_
      rw [Nat.zero_add] at hnode ⊢
      exact hf degree node hdegree hnode
    · exact htree

/-- A node below the root is one of the tree of its degree. -/
theorem IsDegrees.at? {degrees : List (ℤ × ℤ)} {i : ℕ} {path : List ℕ}
    (h : IsDegrees degrees root) (hhead : root.at? (i :: path) = some head) :
    ∃ degree, degrees[i]? = some degree ∧ DegreeTree degree path.length head := by
  obtain ⟨child, hchild, hbelow⟩ := Option.bind_eq_some_iff.mp hhead
  obtain ⟨degree, hdegree⟩ := exists_getElem?_of_length_eq h.length hchild
  have htree := (h.tree i degree child hdegree hchild).at? hbelow
  rw [Nat.zero_add] at htree
  exact ⟨degree, hdegree, htree⟩

/-- The loops over the cells of a node below the root end. -/
theorem IsDegrees.cells_ne_none {degrees : List (ℤ × ℤ)} {i : ℕ} {path : List ℕ}
    (h : IsDegrees degrees root) (hlevel : (i :: path).length ≤ 2)
    (hhead : root.at? (i :: path) = some head) : cells (i :: path).length head ≠ none := by
  obtain ⟨degree, hdegree, htree⟩ := h.at? hhead
  obtain ⟨corners, hcorners, -⟩ :=
    cells_degreeTree (h.fits degree (List.mem_of_getElem? hdegree)) htree hlevel
  rw [List.length_cons, hcorners]
  exact Option.some_ne_none corners

/-- **The degrees survive** what is done below the root. -/
theorem survives_isDegrees (degrees : List (ℤ × ℤ)) (i : ℕ) (path : List ℕ) :
    Survives sw ne k (IsDegrees degrees) (i :: path) where
  append q root head corners cell hlevel hroot hhead hcorners hcell _ s hs _ := by
    -- `head` was read from an earlier root, in which its degree had this tree too
    obtain ⟨degree, hdegree, htree⟩ := hroot.at? hhead
    obtain ⟨corners', hcorners', hcells⟩ :=
      cells_degreeTree (hroot.fits degree (List.mem_of_getElem? hdegree)) htree hlevel
    obtain rfl := Option.some.inj (hcorners'.symm.trans hcorners)
    refine hs.update fun other node hother hnode => hnode.appendChild ?_
    obtain rfl := Option.some.inj (hdegree.symm.trans hother)
    exact degreeTree_cellNode hlevel (hcells cell hcell).1 (hcells cell hcell).2
  aggregate q s hs := hs.update fun _ _ _ hnode => hnode.aggregate
  sort q s hs := hs.update fun _ _ _ hnode => hnode.sortChildren

end Survives

/-! ### All degrees of the box, or none -/

section Degrees

variable {sw ne : SpatialPoint} {k : ℤ} {degree : ℤ × ℤ}

/-- The box reaches from the lower to the upper edge of one row of degrees. -/
def OneRow (sw ne : SpatialPoint) : Prop := ∃ n : ℤ, sw.latitude = n ∧ ne.latitude = n + 1

/-- The box reaches from the left to the right edge of one column of degrees. -/
def OneColumn (sw ne : SpatialPoint) : Prop := ∃ n : ℤ, sw.longitude = n ∧ ne.longitude = n + 1

/-- Rounding down keeps whole degrees. -/
theorem floorDegree_intCast (n : ℤ) : floorDegree n = n := by
  unfold floorDegree
  rw [Int.floor_eq_iff]
  constructor <;> norm_num

theorem ceilDegree_intCast (n : ℤ) : ceilDegree n = n := by
  unfold ceilDegree
  rw [Int.ceil_eq_iff]
  constructor <;> norm_num

/-- A degree that the loops go over has an end inside the range of the box, or the box has one in
it, unless the ranges are the same. -/
theorem degree_in_range_iff {a b : ℚ} {y : ℤ} (hlow : floorDegree a ≤ y)
    (hhigh : y < ceilDegree b) :
    ((a < y ∧ (y : ℚ) < b ∨ y < a ∧ a < y + 1) ∨
        (a < y + 1 ∧ (y : ℚ) + 1 < b ∨ y < b ∧ b < y + 1)) ↔
      ¬∃ n : ℤ, a = n ∧ b = n + 1 := by
  have hay : a < y + 1 := by
    have hlt := Int.floor_le_iff.mp hlow
    linarith
  have hyb : (y : ℚ) < b := by
    have hlt := Int.lt_ceil.mp hhigh
    linarith
  rcases lt_or_ge a b with hab | hba
  · rw [end_in_range_iff (lt_add_one (y : ℚ)) hab, and_iff_right hyb, and_iff_right hay]
    refine not_congr ⟨fun h => ⟨y, h.1.symm, h.2.symm⟩, ?_⟩
    rintro ⟨n, rfl, rfl⟩
    -- there is one degree between the bounds
    have hceil : ceilDegree ((n : ℚ) + 1) = n + 1 := by
      have hcast := ceilDegree_intCast (n + 1)
      push_cast at hcast
      exact hcast
    rw [floorDegree_intCast] at hlow
    rw [hceil] at hhigh
    obtain rfl : y = n := by omega
    exact ⟨rfl, rfl⟩
  · -- the ends of the box are in the wrong order, both inside the degree
    refine iff_of_true (Or.inl (Or.inr ⟨hyb.trans_le hba, hay⟩)) ?_
    rintro ⟨n, rfl, rfl⟩
    exact absurd hba (not_le.mpr (lt_add_one _))

variable (sw ne) in
/-- The child of the root for a degree. -/
def degreeNode (degree : ℤ × ℤ) : SpatialNode :=
  { (cellNode sw ne 0 degree).2 with father := true }

/-- A corner at whole degrees. -/
theorem grid_hundred (y x : ℤ) : SpatialPoint.grid (100 * y) (100 * x) = ⟨y, x⟩ := by
  unfold SpatialPoint.grid
  push_cast
  congr 1
  all_goals ring

/-- The node of a degree occupies its cell. -/
theorem hasCell_degreeNode (hdegree : degree ∈ degrees sw ne) :
    (degreeNode sw ne degree).HasCell 0 degree := by
  obtain ⟨y, x, rfl, -, -⟩ := mem_degrees.mp hdegree
  have hcell : (cellNode sw ne 0 (100 * y, 100 * x)).2.HasCell 0 (100 * y, 100 * x) :=
    hasCell_cellNode (Nat.zero_le 2) (dvd_mul_right 100 y) (dvd_mul_right 100 x)
  exact ⟨hcell.southWest, hcell.northEst, hcell.level_eq⟩

/-- **A degree is found unless the box is aligned** with its row or its column. -/
theorem cellNode_zero_iff (hdegree : degree ∈ degrees sw ne) :
    (cellNode sw ne 0 degree).1 = true ↔ ¬OneRow sw ne ∧ ¬OneColumn sw ne := by
  obtain ⟨y, x, rfl, hy, hx⟩ := mem_degrees.mp hdegree
  have hcorners := ofPoint_grid (Nat.zero_le 2) (dvd_mul_right 100 y) (dvd_mul_right 100 x)
  rw [hundred_add_side, hundred_add_side, grid_hundred y x, grid_hundred] at hcorners
  have hintersects : (cellNode sw ne 0 (100 * y, 100 * x)).1 =
      (ofPoint ⟨y, x⟩ 0).intersects sw ne := by
    unfold cellNode computeIntersection
    rw [grid_hundred]
    cases (ofPoint ⟨y, x⟩ 0).intersects sw ne <;> rfl
  rw [hintersects]
  unfold intersects
  -- one axis each
  simp only [Bool.and_eq_true, Bool.or_eq_true, valueInRange_iff, hcorners.1, hcorners.2]
  push_cast
  rw [degree_in_range_iff hx.1 hx.2, degree_in_range_iff hy.1 hy.2, and_comm]
  rfl

/-- In a box of more than one row and column every degree is found. -/
theorem found_degrees (h : ¬OneRow sw ne ∧ ¬OneColumn sw ne) :
    found sw ne 0 (degrees sw ne) = (degrees sw ne).map (degreeNode sw ne) := by
  unfold found
  rw [List.filter_eq_self.mpr fun degree hdegree => (cellNode_zero_iff hdegree).mpr h]
  rfl

/-- In a box of one row or one column no degree is found. -/
theorem found_degrees_of_aligned (h : OneRow sw ne ∨ OneColumn sw ne) :
    found sw ne 0 (degrees sw ne) = [] := by
  unfold found
  rw [List.map_eq_nil_iff, List.filter_eq_nil_iff]
  intro degree hdegree
  rw [cellNode_zero_iff hdegree]
  tauto

/-- The loops go over degrees, with which the box is not aligned. -/
def Divided (sw ne : SpatialPoint) : Prop :=
  (¬NoDegrees sw.latitude ne.latitude ∧ ¬NoDegrees sw.longitude ne.longitude) ∧
    ¬OneRow sw ne ∧ ¬OneColumn sw ne

/-! ### The tree -/

variable (sw ne) in
/-- The root with the degrees that are found. -/
def degreesFound : SpatialNode :=
  appendAll (found sw ne 0 (degrees sw ne)) (.ofCorners sw ne 0)

variable (sw ne k) in
/-- The root at the end of the recursion. -/
def treeRoot : SpatialNode := ((tesselateNode sw ne k 3 []).run (.ofCorners sw ne 0)).2

/-- The recursion, from the degrees on. -/
theorem run_tesselateNode_root {corners : List (ℤ × ℤ)}
    (h : cells 0 (.ofCorners sw ne 0) = some corners) :
    (tesselateNode sw ne k 3 []).run (.ofCorners sw ne 0) =
      (visitChildren k (tesselateNode sw ne k 2) 0 []
        (List.range (found sw ne 0 corners).length)).run
          (appendAll (found sw ne 0 corners) (.ofCorners sw ne 0)) := by
  -- the nodes that are found have no children yet, so they stay in their order
  have hflat : ∀ child ∈ (appendAll (found sw ne 0 corners) (.ofCorners sw ne 0)).children,
      child.children = [] := fun child hchild => children_of_mem_found hchild
  have hsort := sortChildren_of_flat hflat
  unfold tesselateNode
  rw [Prog.run_bind, Prog.run_query]
  dsimp only [at?_nil]
  rw [Option.bind_some, Nat.sub_self, h]
  dsimp only
  rw [Prog.run_bind, run_appendCells_zero]
  dsimp only
  rw [if_pos rfl, Prog.run_bind, Prog.run_modify]
  dsimp only
  rw [update_nil, hsort]
  rfl

/-- What is returned are the names of the leaves, on the path of the tree. -/
theorem tesselateBox_of_tree (hpath : wrap (width sw ne * height sw ne) < k) :
    tesselateBox sw ne k = (tree sw ne k).map leafNames := if_neg (not_le.mpr hpath)

/-- A call that returns hands out the root it has built. -/
theorem tree_of_returns (h : ((tesselateNode sw ne k 3 []).run (.ofCorners sw ne 0)).1 = true) :
    tree sw ne k = some (treeRoot sw ne k) := if_pos h

/-- **A box that is not divided** has no degree that is found. -/
theorem found_of_not_divided (hlow : Low sw) (hends : RootEnds sw ne) (h : ¬Divided sw ne) :
    ∃ corners, cells 0 (.ofCorners sw ne 0) = some corners ∧ found sw ne 0 corners = [] := by
  by_cases hnone : NoDegrees sw.latitude ne.latitude ∨ NoDegrees sw.longitude ne.longitude
  · exact ⟨[], cells_zero_of_noDegrees hlow hends hnone, rfl⟩
  · rw [not_or] at hnone
    have haligned : OneRow sw ne ∨ OneColumn sw ne := by
      by_contra hnot
      exact h ⟨hnone, not_or.mp hnot⟩
    have hlat := hends.resolve_left hnone.1
    have hlon := hlat.2.resolve_left hnone.2
    exact ⟨_, cells_zero hlow hlat.1 hlon, found_degrees_of_aligned haligned⟩

/-- The root remains alone then. -/
theorem run_of_not_divided (hlow : Low sw) (hends : RootEnds sw ne) (h : ¬Divided sw ne) :
    (tesselateNode sw ne k 3 []).run (.ofCorners sw ne 0) = (true, .ofCorners sw ne 0) := by
  obtain ⟨corners, hcorners, hnone⟩ := found_of_not_divided hlow hends h
  rw [run_tesselateNode_root hcorners, hnone]
  rfl

/-- The degrees of a box that is divided are in the range of an `int`. -/
theorem Divided.le (h : Divided sw ne) (hends : RootEnds sw ne) :
    ceilDegree ne.latitude ≤ 21474836 ∧ ceilDegree ne.longitude ≤ 21474836 :=
  have hlat := hends.resolve_left h.1.1
  ⟨hlat.1, hlat.2.resolve_left h.1.2⟩

/-- The loops of a divided box visit the degrees. -/
theorem Divided.cells_zero (h : Divided sw ne) (hlow : Low sw) (hends : RootEnds sw ne) :
    cells 0 (.ofCorners sw ne 0) = some (degrees sw ne) :=
  SpatialTesseler.cells_zero hlow (h.le hends).1 (h.le hends).2

/-- A divided box has rows and columns of degrees. -/
theorem Divided.rows_pos (h : Divided sw ne) : 0 < rows sw ne ∧ 0 < columns sw ne := by
  obtain ⟨⟨hlat, hlon⟩, -⟩ := h
  unfold NoDegrees at hlat hlon
  unfold rows columns
  omega

/-- After the first level the children of the root are the degrees. -/
theorem isDegrees_degreesFound (h : Divided sw ne) (hlow : Low sw) (hends : RootEnds sw ne) :
    IsDegrees (degrees sw ne) (degreesFound sw ne) := by
  have hle := h.le hends
  have hlat := hlow.latitude
  have hlon := hlow.longitude
  -- every degree of the box is found, in the order of the loops
  have hchildren : (degreesFound sw ne).children = (degrees sw ne).map (degreeNode sw ne) :=
    found_degrees h.2
  refine ⟨fun degree hdegree => ?_, by rw [hchildren, List.length_map],
    fun i degree child hdegree hchild => ?_⟩
  · obtain ⟨y, x, rfl, hy, hx⟩ := mem_degrees.mp hdegree
    constructor
    all_goals
      unfold Fits
      dsimp only
      omega
  · rw [hchildren, List.getElem?_map, hdegree] at hchild
    obtain rfl := Option.some.inj hchild
    obtain ⟨y, x, rfl, -, -⟩ := mem_degrees.mp (List.mem_of_getElem? hdegree)
    exact (degreeTree_cellNode (Nat.zero_le 2) (.self (dvd_mul_right 100 y))
      (.self (dvd_mul_right 100 x))).of_father true

/-- The call for a degree returns. -/
theorem returns_child {degrees : List (ℤ × ℤ)} {root : SpatialNode} {i : ℕ}
    (h : IsDegrees degrees root) (hsome : (root.at? [i]).isSome = true) :
    ((tesselateNode sw ne k 2 [i]).run root).1 = true := by
  refine (survives_isDegrees degrees i []).returns (fun q root head hlevel hroot hhead => ?_) rfl
    (Nat.le_succ 1) h hsome
  exact hroot.cells_ne_none hlevel hhead

/-- **The recursion returns** if the loops over the degrees end. -/
theorem returns_of_ends (hlow : Low sw) (hends : RootEnds sw ne) :
    ((tesselateNode sw ne k 3 []).run (.ofCorners sw ne 0)).1 = true := by
  by_cases h : Divided sw ne
  · rw [run_tesselateNode_root (h.cells_zero hlow hends)]
    refine returns_visitChildren (I := IsDegrees (degrees sw ne)) (fun i => ?_)
      (fun i _ s hs hsome => returns_child hs hsome) (isDegrees_degreesFound h hlow hends)
    exact (survives_isDegrees _ i []).keeps rfl
  · rw [run_of_not_divided hlow hends h]

/-- A call whose loops at the root end returns the tree. -/
theorem tree_of_ends (hlow : Low sw) (hends : RootEnds sw ne) :
    tree sw ne k = some (treeRoot sw ne k) := tree_of_returns (returns_of_ends hlow hends)

/-- A call whose loops at the root never end gets no further. -/
theorem run_of_endless (hlow : Low sw) (h : ¬RootEnds sw ne) :
    (tesselateNode sw ne k 3 []).run (.ofCorners sw ne 0) = (false, .ofCorners sw ne 0) := by
  unfold tesselateNode
  rw [Prog.run_bind, Prog.run_query]
  dsimp only [at?_nil]
  rw [Option.bind_some, Nat.sub_self, cells_zero_endless hlow h]
  rfl

theorem tree_of_endless (hlow : Low sw) (h : ¬RootEnds sw ne) : tree sw ne k = none := by
  unfold tree
  rw [run_of_endless hlow h]
  rfl

/-- A box that is not divided stays a single node. -/
theorem treeRoot_of_not_divided (hlow : Low sw) (hends : RootEnds sw ne) (h : ¬Divided sw ne) :
    treeRoot sw ne k = .ofCorners sw ne 0 := by
  unfold treeRoot
  rw [run_of_not_divided hlow hends h]

/-- The tree is what the visits make of the degrees. -/
theorem treeRoot_eq (h : Divided sw ne) (hlow : Low sw) (hends : RootEnds sw ne) :
    treeRoot sw ne k = ((visitChildren k (tesselateNode sw ne k 2) 0 []
      (List.range (degreesFound sw ne).children.length)).run (degreesFound sw ne)).2 := by
  unfold treeRoot
  rw [run_tesselateNode_root (h.cells_zero hlow hends)]
  rfl

/-- **The tree is one of the degrees**, divided or not. -/
theorem isDegrees_treeRoot (h : Divided sw ne) (hlow : Low sw) (hends : RootEnds sw ne) (k : ℤ) :
    IsDegrees (degrees sw ne) (treeRoot sw ne k) := by
  rw [treeRoot_eq h hlow hends]
  refine (keeps_visitChildren (fun i _ => ?_) _ (isDegrees_degreesFound h hlow hends)).run
  exact (survives_isDegrees _ i []).keeps rfl

end Degrees

/-! ### The names of degrees -/

section Names

variable {sw ne : SpatialPoint} {y x : ℤ}

/-- The name of a degree at the repository. -/
def degreeName (y x : ℤ) : Str := path [axisName (100 * x), axisName (100 * y)]

/-- The components of a degree's name hold no slash. -/
theorem slashFree_degreeName (y x : ℤ) :
    ∀ component ∈ [axisName (100 * x), axisName (100 * y)], SlashFree component := by
  intro component h
  rcases List.mem_pair.mp h with rfl | rfl
  · exact slashFree_axisName _
  · exact slashFree_axisName _

theorem isPath_degreeName (y x : ℤ) : IsPath 2 (degreeName y x) :=
  ⟨_, rfl, slashFree_degreeName y x, rfl⟩

theorem axisName_hundred_injective {y z : ℤ} (h : axisName (100 * y) = axisName (100 * z)) :
    y = z := by
  obtain ⟨hsign, hwhole⟩ := axisName_injective h
  omega

theorem degreeName_injective {y' x' : ℤ} (h : degreeName y x = degreeName y' x') :
    y = y' ∧ x = x' := by
  have hcomponents := path_injective (slashFree_degreeName y x) (slashFree_degreeName y' x') h
  simp only [List.cons.injEq, and_true] at hcomponents
  exact ⟨axisName_hundred_injective hcomponents.2, axisName_hundred_injective hcomponents.1⟩

/-- Whole degrees, in the hundredths of the names. -/
theorem cast_hundred (z : ℤ) : ((100 * z : ℤ) : ℚ) / 100 = z := by
  push_cast
  exact mul_div_cancel_left₀ _ (by norm_num)

/-- The fast path names a degree as the repository does, whatever its signs. -/
theorem spatialPointToNDNNname_degree (y x : ℤ) :
    Utils.spatialPointToNDNNname y x false false 0 .LONG_LAT = degreeName y x := by
  have hy := Utils.toStringsForNDNname_grid (100 * y)
  have hx := Utils.toStringsForNDNname_grid (100 * x)
  rw [cast_hundred] at hy hx
  unfold Utils.spatialPointToNDNNname degreeName
  rw [hy, hx]
  simp [path, sign]

/-- North east of the equator and the meridian, all cells of a degree have its whole degrees. -/
theorem cornerName_of_inDegree {z start : ℤ} {level : ℕ} (h : InDegree (100 * z) level start)
    (hz : 0 ≤ z) : cornerName start (start + side level) = axisName (100 * z) := by
  have hle := h.le
  have hstop := h.stop_le
  have hpos := side_pos level
  have hstart : ¬start < 0 := by omega
  have hz' : ¬100 * z < 0 := by omega
  have hwhole : start.natAbs / 100 = (100 * z).natAbs / 100 := by omega
  unfold cornerName corner axisName
  simp only [hstart, hz', hwhole, false_and, decide_false, ↓reduceIte]
  rfl

end Names

end SpatialTesseler

end OpenGeoBase
