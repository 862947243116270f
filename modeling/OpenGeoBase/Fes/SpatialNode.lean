import OpenGeoBase.Fes.Utils
import Mathlib.Data.List.Sort

/-!
# Nodes of the box tessellation

A `SpatialNode` is a rectangle with the nodes it has been divided into. A node is kept if its
rectangle and the box have interior points in common, and it is full if the box contains it.

The test for this compares the ends of the two ranges on each axis, strictly. Of two ranges that
have points in common an end of one lies inside the other, unless both have the same ends
(`end_in_range_iff`): a node that is as high or as wide as the box is not found to meet it
(`overlapExact_iff`).

A node is named by a corner, the one that is nearest to the origin, with as many decimals as its
level says. The repository names the tile by its south west corner, so the names agree where these
are the same, north east of the origin (`spatialNodeToNDNName_eq_iff`). The constructor of the
tessellation does not set the level at all (`level_ofPoint`).
-/

namespace OpenGeoBase

open Text

structure SpatialPoint where
  latitude : ℚ
  longitude : ℚ
  deriving DecidableEq

namespace SpatialPoint

/-- The point of the 0.01-degree grid. -/
def grid (latitude longitude : ℤ) : SpatialPoint := ⟨latitude / 100, longitude / 100⟩

def adjustCoordToDecimalNumber (point : SpatialPoint) (decimalDigit : ℕ) : SpatialPoint where
  latitude := Utils.ceil10 point.latitude decimalDigit
  longitude := Utils.floor10 point.longitude decimalDigit

end SpatialPoint

/-- A node of the tree; of its `father` only whether there is one. -/
structure SpatialNode where
  southWest : SpatialPoint
  northEst : SpatialPoint
  isFull : Bool
  children : List SpatialNode
  father : Bool
  level : ℕ

namespace SpatialNode

/-- The constructor with two corners. The level is compared with 2 before it is set, so the node is
not full. -/
def ofCorners (sw ne : SpatialPoint) (lvl : ℕ) : SpatialNode where
  southWest := ⟨Utils.floor10 sw.latitude lvl, Utils.floor10 sw.longitude lvl⟩
  northEst := ⟨Utils.ceil10 ne.latitude lvl, Utils.ceil10 ne.longitude lvl⟩
  isFull := false
  children := []
  father := false
  level := lvl

/-- The constructor with one corner, for a level up to 2. The field `level` is not set. -/
def ofPoint (sw : SpatialPoint) (level : ℕ) : SpatialNode where
  southWest := sw.adjustCoordToDecimalNumber level
  northEst := SpatialPoint.adjustCoordToDecimalNumber
    ⟨sw.latitude + 10 ^ (2 - level) / 100, sw.longitude + 10 ^ (2 - level) / 100⟩ level
  isFull := level = 2
  children := []
  father := false
  level := 0

def aggregate (node : SpatialNode) : SpatialNode :=
  if node.father then { node with children := [], isFull := true } else node

/-- The children, sorted by the number of their own children. -/
def sortChildren (node : SpatialNode) : SpatialNode :=
  { node with
    children := node.children.insertionSort fun o1 o2 => o1.children.length ≤ o2.children.length }

def appendChild (head node : SpatialNode) : SpatialNode :=
  { head with children := head.children ++ [{ node with father := true }] }

def valueInRange (value min max : ℚ) : Bool := min < value && value < max

def intersects (node : SpatialNode) (sw ne : SpatialPoint) : Bool :=
  let xOverlap := valueInRange node.southWest.longitude sw.longitude ne.longitude ||
    valueInRange sw.longitude node.southWest.longitude node.northEst.longitude
  let x2Overlap := valueInRange node.northEst.longitude sw.longitude ne.longitude ||
    valueInRange ne.longitude node.southWest.longitude node.northEst.longitude
  let yOverlap := valueInRange node.southWest.latitude sw.latitude ne.latitude ||
    valueInRange sw.latitude node.southWest.latitude node.northEst.latitude
  let y2Overlap := valueInRange node.northEst.latitude sw.latitude ne.latitude ||
    valueInRange ne.latitude node.southWest.latitude node.northEst.latitude
  (xOverlap || x2Overlap) && (yOverlap || y2Overlap)

/-- `computeIntersection`: its result, and the node with `isFull` set. -/
def computeIntersection (node : SpatialNode) (sw ne : SpatialPoint) : Bool × SpatialNode :=
  if node.intersects sw ne = false then (false, { node with isFull := false })
  else (true, { node with
    isFull := !(node.southWest.latitude < sw.latitude) && !(node.southWest.longitude < sw.longitude)
      && !(ne.latitude < node.northEst.latitude) && !(ne.longitude < node.northEst.longitude) })

mutual

def getLeaves : SpatialNode → List SpatialNode
  | ⟨southWest, northEst, isFull, [], father, level⟩ =>
    [⟨southWest, northEst, isFull, [], father, level⟩]
  | ⟨_, _, _, child :: children, _, _⟩ => leavesOfAll (child :: children)

/-- The loop of `getLeaves`. -/
def leavesOfAll : List SpatialNode → List SpatialNode
  | [] => []
  | node :: children => getLeaves node ++ leavesOfAll children

end

end SpatialNode

/-- `Utils.spatialNodeToNDNName`. The corner of the node, which is moved here, is not used after
that. -/
def Utils.spatialNodeToNDNName (node : SpatialNode) (format : Format) : Str :=
  let (latitude, needSign_lat) :=
    if node.southWest.latitude < 0 then
      (node.northEst.latitude, decide (0 ≤ node.northEst.latitude))
    else (node.southWest.latitude, false)
  let (longitude, needSign_lng) :=
    if node.southWest.longitude < 0 then
      (node.northEst.longitude, decide (0 ≤ node.northEst.longitude))
    else (node.southWest.longitude, false)
  spatialPointToNDNNname latitude longitude needSign_lat needSign_lng node.level format

/-! ### The overlap test -/

section Ranges

variable {α : Type} [LinearOrder α] {a b c d : α}

/-- **An end of one range lies inside the other** if and only if the ranges have points in common
and are not the same. -/
theorem end_in_range_iff (hab : a < b) (hcd : c < d) :
    ((c < a ∧ a < d ∨ a < c ∧ c < b) ∨ (c < b ∧ b < d ∨ a < d ∧ d < b)) ↔
      a < d ∧ c < b ∧ ¬(a = c ∧ b = d) := by
  constructor
  · rintro ((⟨hca, had⟩ | ⟨hac, hcb⟩) | (⟨hcb, hbd⟩ | ⟨had, hdb⟩))
    · exact ⟨had, hca.trans hab, fun h => hca.ne' h.1⟩
    · exact ⟨hac.trans hcd, hcb, fun h => hac.ne h.1⟩
    · exact ⟨hab.trans hbd, hcb, fun h => hbd.ne h.2⟩
    · exact ⟨had, hcd.trans hdb, fun h => hdb.ne' h.2⟩
  -- ranges that overlap and differ: one end of one lies strictly in the other
  · rintro ⟨had, hcb, hne⟩
    rcases lt_trichotomy a c with hac | rfl | hca
    · exact Or.inl (Or.inr ⟨hac, hcb⟩)
    · -- the ranges begin together, so the shorter one ends inside the other
      rcases lt_trichotomy b d with hbd | rfl | hdb
      · exact Or.inr (Or.inl ⟨hcb, hbd⟩)
      · exact absurd ⟨rfl, rfl⟩ hne
      · exact Or.inr (Or.inr ⟨had, hdb⟩)
    · exact Or.inl (Or.inl ⟨hca, had⟩)

/-- Two ranges have a point in common inside if each begins before the other ends. -/
theorem exists_between_iff [DenselyOrdered α] (hab : a < b) (hcd : c < d) :
    (∃ t, (a < t ∧ t < b) ∧ c < t ∧ t < d) ↔ a < d ∧ c < b := by
  constructor
  · rintro ⟨t, ⟨hat, htb⟩, hct, htd⟩
    exact ⟨hat.trans htd, hct.trans htb⟩
  · rintro ⟨had, hcb⟩
    obtain ⟨t, hlow, hhigh⟩ := exists_between (max_lt (lt_min hab had) (lt_min hcb hcd))
    rw [max_lt_iff] at hlow
    rw [lt_min_iff] at hhigh
    exact ⟨t, ⟨hlow.1, hhigh.1⟩, hlow.2, hhigh.2⟩

end Ranges

namespace SpatialPoint

/-- The points inside the rectangle with these corners. -/
def interior (sw ne : SpatialPoint) : Set SpatialPoint :=
  {p | (sw.latitude < p.latitude ∧ p.latitude < ne.latitude) ∧
    sw.longitude < p.longitude ∧ p.longitude < ne.longitude}

/-- The rectangle with these corners. -/
def rectangle (sw ne : SpatialPoint) : Set SpatialPoint :=
  {p | (sw.latitude ≤ p.latitude ∧ p.latitude ≤ ne.latitude) ∧
    sw.longitude ≤ p.longitude ∧ p.longitude ≤ ne.longitude}

/-- The corners are those of a rectangle that has points inside. -/
def IsBox (sw ne : SpatialPoint) : Prop :=
  sw.latitude < ne.latitude ∧ sw.longitude < ne.longitude

end SpatialPoint

namespace SpatialNode

open SpatialPoint

variable {node : SpatialNode} {sw ne : SpatialPoint}

/-- The node and the box end at the same latitudes. -/
def SameHeight (node : SpatialNode) (sw ne : SpatialPoint) : Prop :=
  node.southWest.latitude = sw.latitude ∧ node.northEst.latitude = ne.latitude

/-- The node and the box end at the same longitudes. -/
def SameWidth (node : SpatialNode) (sw ne : SpatialPoint) : Prop :=
  node.southWest.longitude = sw.longitude ∧ node.northEst.longitude = ne.longitude

/-- What the overlap test is for: it finds the nodes that have points inside the box, and
`computeIntersection` tells which of these the box contains. -/
def OverlapExact (node : SpatialNode) (sw ne : SpatialPoint) : Prop :=
  (node.intersects sw ne = true ↔
    (interior node.southWest node.northEst ∩ interior sw ne).Nonempty) ∧
  ((node.computeIntersection sw ne).1 = true →
    ((node.computeIntersection sw ne).2.isFull = true ↔
      rectangle node.southWest node.northEst ⊆ rectangle sw ne))

/-- The ends of a range are not in it. -/
theorem valueInRange_iff {value min max : ℚ} :
    valueInRange value min max = true ↔ min < value ∧ value < max := by
  unfold valueInRange
  rw [Bool.and_eq_true, decide_eq_true_iff, decide_eq_true_iff]

/-- What the overlap test says. -/
theorem intersects_iff (hnode : IsBox node.southWest node.northEst) (hbox : IsBox sw ne) :
    node.intersects sw ne = true ↔
      ((node.southWest.longitude < ne.longitude ∧ sw.longitude < node.northEst.longitude) ∧
        node.southWest.latitude < ne.latitude ∧ sw.latitude < node.northEst.latitude) ∧
      ¬node.SameHeight sw ne ∧ ¬node.SameWidth sw ne := by
  unfold intersects
  simp only [Bool.and_eq_true, Bool.or_eq_true, valueInRange_iff]
  rw [end_in_range_iff hnode.2 hbox.2, end_in_range_iff hnode.1 hbox.1]
  unfold SameHeight SameWidth
  tauto

/-- The rectangles have points inside in common. -/
theorem interior_inter_nonempty_iff (hnode : IsBox node.southWest node.northEst)
    (hbox : IsBox sw ne) :
    (interior node.southWest node.northEst ∩ interior sw ne).Nonempty ↔
      (node.southWest.longitude < ne.longitude ∧ sw.longitude < node.northEst.longitude) ∧
        node.southWest.latitude < ne.latitude ∧ sw.latitude < node.northEst.latitude := by
  rw [← exists_between_iff hnode.1 hbox.1, ← exists_between_iff hnode.2 hbox.2]
  constructor
  · rintro ⟨p, ⟨hlat, hlng⟩, hlat', hlng'⟩
    exact ⟨⟨_, hlng, hlng'⟩, _, hlat, hlat'⟩
  · rintro ⟨⟨lng, hlng, hlng'⟩, lat, hlat, hlat'⟩
    exact ⟨⟨lat, lng⟩, ⟨hlat, hlng⟩, hlat', hlng'⟩

/-- Containment of rectangles, corner by corner. -/
theorem rectangle_subset_iff (hnode : IsBox node.southWest node.northEst) :
    rectangle node.southWest node.northEst ⊆ rectangle sw ne ↔
      (sw.latitude ≤ node.southWest.latitude ∧ sw.longitude ≤ node.southWest.longitude) ∧
        node.northEst.latitude ≤ ne.latitude ∧ node.northEst.longitude ≤ ne.longitude := by
  constructor
  · intro h
    have hsw := h (a := node.southWest) ⟨⟨le_rfl, hnode.1.le⟩, le_rfl, hnode.2.le⟩
    have hne := h (a := node.northEst) ⟨⟨hnode.1.le, le_rfl⟩, hnode.2.le, le_rfl⟩
    exact ⟨⟨hsw.1.1, hsw.2.1⟩, hne.1.2, hne.2.2⟩
  · rintro ⟨⟨hlat, hlng⟩, hlat', hlng'⟩ p ⟨⟨hp, hp'⟩, hq, hq'⟩
    exact ⟨⟨hlat.trans hp, hp'.trans hlat'⟩, hlng.trans hq, hq'.trans hlng'⟩

/-- A node that meets the box is full if and only if the box contains it. -/
theorem isFull_computeIntersection (hnode : IsBox node.southWest node.northEst)
    (h : (node.computeIntersection sw ne).1 = true) :
    (node.computeIntersection sw ne).2.isFull = true ↔
      rectangle node.southWest node.northEst ⊆ rectangle sw ne := by
  rw [rectangle_subset_iff hnode]
  unfold computeIntersection at h ⊢
  split
  · next hnot =>
    rw [if_pos hnot] at h
    exact absurd h (by simp)
  · simp only [Bool.and_eq_true, Bool.not_eq_true', decide_eq_false_iff_not, not_lt, and_assoc]

/-- **The overlap test is exact** if and only if the node is neither as high nor as wide as the box,
or lies apart from it on the other axis. -/
theorem overlapExact_iff (hnode : IsBox node.southWest node.northEst) (hbox : IsBox sw ne) :
    node.OverlapExact sw ne ↔
      (node.SameHeight sw ne →
        ne.longitude ≤ node.southWest.longitude ∨ node.northEst.longitude ≤ sw.longitude) ∧
      (node.SameWidth sw ne →
        ne.latitude ≤ node.southWest.latitude ∨ node.northEst.latitude ≤ sw.latitude) := by
  -- a node that is as high as the box meets its latitudes, one that is as wide its longitudes
  have hheight : node.SameHeight sw ne →
      node.southWest.latitude < ne.latitude ∧ sw.latitude < node.northEst.latitude := by
    rintro ⟨hsw, hne⟩
    exact ⟨hsw.trans_lt hbox.1, hbox.1.trans_eq hne.symm⟩
  have hwidth : node.SameWidth sw ne →
      node.southWest.longitude < ne.longitude ∧ sw.longitude < node.northEst.longitude := by
    rintro ⟨hsw, hne⟩
    exact ⟨hsw.trans_lt hbox.2, hbox.2.trans_eq hne.symm⟩
  unfold OverlapExact
  rw [intersects_iff hnode hbox, interior_inter_nonempty_iff hnode hbox,
    and_iff_left (isFull_computeIntersection hnode)]
  constructor
  · intro h
    constructor
    · intro hsame
      by_contra hmeet
      rw [not_or, not_le, not_le] at hmeet
      exact (h.mpr ⟨hmeet, hheight hsame⟩).2.1 hsame
    · intro hsame
      by_contra hmeet
      rw [not_or, not_le, not_le] at hmeet
      exact (h.mpr ⟨hwidth hsame, hmeet⟩).2.2 hsame
  · rintro ⟨hsameHeight, hsameWidth⟩
    refine ⟨And.left, fun hmeet => ⟨hmeet, fun hsame => ?_, fun hsame => ?_⟩⟩
    · rcases hsameHeight hsame with hapart | hapart
      · exact hapart.not_gt hmeet.1.1
      · exact hapart.not_gt hmeet.1.2
    · rcases hsameWidth hsame with hapart | hapart
      · exact hapart.not_gt hmeet.2.1
      · exact hapart.not_gt hmeet.2.2

/-- A cell of one degree, and a box that begins and ends inside it. -/
theorem overlapExact_iff_inside :
    (ofPoint ⟨0, 0⟩ 0).OverlapExact ⟨1 / 4, 1 / 4⟩ ⟨3 / 4, 1 / 2⟩ := by
  have hnode : IsBox (ofPoint ⟨0, 0⟩ 0).southWest (ofPoint ⟨0, 0⟩ 0).northEst :=
    ⟨by decide +kernel, by decide +kernel⟩
  refine (overlapExact_iff hnode ⟨by decide +kernel, by decide +kernel⟩).mpr ⟨fun hsame => ?_,
    fun hsame => ?_⟩
  · exact absurd hsame.1 (by decide +kernel)
  · exact absurd hsame.1 (by decide +kernel)

/-- A cell that the box goes through from its lower to its upper edge. -/
theorem aligned_not_found : ¬(ofPoint ⟨0, 1⟩ 0).OverlapExact ⟨0, 1 / 2⟩ ⟨1, 5 / 2⟩ := by
  rintro ⟨hiff, -⟩
  have hsw : (ofPoint ⟨0, 1⟩ 0).southWest = ⟨0, 1⟩ := by decide +kernel
  have hne : (ofPoint ⟨0, 1⟩ 0).northEst = ⟨1, 2⟩ := by decide +kernel
  have hmeet : (interior ⟨0, 1⟩ ⟨1, 2⟩ ∩ interior ⟨0, 1 / 2⟩ ⟨1, 5 / 2⟩).Nonempty := by
    refine ⟨⟨1 / 2, 3 / 2⟩, ?_, ?_⟩ <;> norm_num [SpatialPoint.interior]
  rw [hsw, hne] at hiff
  exact absurd (hiff.mpr hmeet) (by decide +kernel)

end SpatialNode

/-! ### Cells of the grid -/

namespace SpatialNode

open SpatialPoint

/-- The side of the cells of a level, in hundredths of a degree. -/
def side (level : ℕ) : ℤ := 10 ^ (2 - level)

/-- Sides in hundredths are fractions of a degree. -/
theorem side_mul_div {level : ℕ} (hlevel : level ≤ 2) (q : ℤ) :
    ((side level * q : ℤ) : ℚ) / 100 = q / 10 ^ level := by
  have hhundred : (100 : ℚ) = 10 ^ (2 - level) * 10 ^ level := by
    rw [← pow_add, Nat.sub_add_cancel hlevel]
    norm_num
  rw [hhundred, side]
  push_cast
  rw [mul_div_mul_left _ _ (by positivity)]

/-- A point of the grid of a level, in degrees. -/
theorem grid_eq {level : ℕ} (hlevel : level ≤ 2) (q r : ℤ) :
    grid (side level * q) (side level * r) = ⟨(q : ℚ) / 10 ^ level, (r : ℚ) / 10 ^ level⟩ := by
  rw [grid, side_mul_div hlevel, side_mul_div hlevel]

/-- The corners of the node that the tessellation makes of a point of the grid. -/
theorem ofPoint_grid {level : ℕ} (hlevel : level ≤ 2) {lat lon : ℤ} (hlat : side level ∣ lat)
    (hlon : side level ∣ lon) :
    (ofPoint (grid lat lon) level).southWest = grid lat lon ∧
      (ofPoint (grid lat lon) level).northEst = grid (lat + side level) (lon + side level) := by
  -- a point on the grid of the level is rounded to itself
  have hadjust : ∀ q r : ℤ, (grid (side level * q) (side level * r)).adjustCoordToDecimalNumber
      level = grid (side level * q) (side level * r) := by
    intro q r
    have hd : level ≤ 5 := by omega
    rw [grid_eq hlevel, adjustCoordToDecimalNumber, Utils.ceil10_grid hd, Utils.floor10_grid hd]
  obtain ⟨q, rfl⟩ := hlat
  obtain ⟨r, rfl⟩ := hlon
  have hnext : (⟨(grid (side level * q) (side level * r)).latitude + 10 ^ (2 - level) / 100,
      (grid (side level * q) (side level * r)).longitude + 10 ^ (2 - level) / 100⟩ : SpatialPoint) =
        grid (side level * (q + 1)) (side level * (r + 1)) := by
    unfold grid side
    congr 1
    all_goals
      push_cast
      ring
  refine ⟨hadjust q r, ?_⟩
  rw [ofPoint]
  dsimp only
  rw [hnext, hadjust, mul_add, mul_add, mul_one]

end SpatialNode

/-! ### The names of nodes -/

/-- The coordinate that is named, of the two ends of a range. -/
def corner (a b : ℤ) : ℤ := if a < 0 then b else a

/-- The first component of the name of a node, along one axis. -/
def cornerName (a b : ℤ) : Str := sign (a < 0 ∧ 0 ≤ b) ++ axisName (corner a b)

/-- The strings of a coordinate of the grid. -/
def gridString (k : ℤ) (i : ℕ) : Str := [axisName k, [tenths k], [hundredths k]].getD i []

/-- The components of the name of a node on the 0.01-degree grid. -/
def nodeComponents (a b c d : ℤ) (level : ℕ) : List Str :=
  cornerName c d :: cornerName a b ::
    (List.range' 1 level).map fun i => gridString (corner c d) i ++ gridString (corner a b) i

section Names

variable {node : SpatialNode} {a b c d : ℤ}

/-- The name of a node on the grid has these components. -/
theorem spatialNodeToNDNName_grid
    (hsw : node.southWest = .grid a c) (hne : node.northEst = .grid b d) :
    Utils.spatialNodeToNDNName node .LONG_LAT = path (nodeComponents a b c d node.level) := by
  have hnonneg : ∀ k : ℤ, 0 ≤ (k : ℚ) / 100 ↔ 0 ≤ k := fun k => by
    rw [le_div_iff₀ (by norm_num), zero_mul, Int.cast_nonneg_iff]
  -- on an axis where the cell begins below 0 the name is that of its other end
  have haxis : ∀ a b : ℤ, (if (a : ℚ) / 100 < 0 then ((b : ℚ) / 100, decide (0 ≤ (b : ℚ) / 100))
      else ((a : ℚ) / 100, false)) = ((corner a b : ℚ) / 100, decide (a < 0 ∧ 0 ≤ b)) := by
    intro a b
    unfold corner
    by_cases ha : a < 0
    · simp [grid_lt_zero_iff, hnonneg, ha]
    · simp [grid_lt_zero_iff, ha]
  unfold Utils.spatialNodeToNDNName
  rw [hsw, hne]
  unfold SpatialPoint.grid
  dsimp only
  rw [haxis, haxis]
  dsimp only
  unfold Utils.spatialPointToNDNNname nodeComponents
  rw [Utils.toStringsForNDNname_grid, Utils.toStringsForNDNname_grid]
  simp [path, List.flatMap_map, cornerName, gridString]

/-- None of the digits of a name is a slash. -/
theorem slashFree_gridString (k : ℤ) (i : ℕ) : SlashFree (gridString k i) := by
  have hdigit : ∀ {n : ℕ}, n < 10 → SlashFree [n.digitChar] := fun {n} hn => by
    rw [← toDecimal_of_lt_ten hn]
    exact (isDigits_toDecimal n).slashFree
  match i with
  | 0 => exact slashFree_axisName k
  | 1 => exact hdigit (by omega)
  | 2 => exact hdigit (by omega)
  | i + 3 => exact List.not_mem_nil

/-- None of the components of a node's name has a slash. -/
theorem slashFree_nodeComponents (level : ℕ) :
    ∀ component ∈ nodeComponents a b c d level, SlashFree component := by
  have hcorner : ∀ a b : ℤ, SlashFree (cornerName a b) := fun a b =>
    slashFree_append (slashFree_sign _) (slashFree_axisName _)
  intro component h
  rcases List.mem_cons.mp h with rfl | h
  · exact hcorner c d
  rcases List.mem_cons.mp h with rfl | h
  · exact hcorner a b
  · obtain ⟨i, -, rfl⟩ := List.mem_map.mp h
    exact slashFree_append (slashFree_gridString _ _) (slashFree_gridString _ _)

theorem length_nodeComponents (level : ℕ) : (nodeComponents a b c d level).length = level + 2 := by
  simp [nodeComponents]

/-- The node has the corners of the 0.01-degree cell, in hundredths from its south west corner. -/
def SpatialNode.IsCell (node : SpatialNode) (x y : ℤ) : Prop :=
  node.southWest = .grid y x ∧ node.northEst = .grid (y + 1) (x + 1)

/-- South or west of the origin the corner that is named is the one across the cell. -/
theorem hundredths_corner_ne {k : ℤ} (h : k < 0) :
    hundredths (corner k (k + 1)) ≠ hundredths k := by
  intro heq
  rw [corner, if_pos h] at heq
  have hdigit := digitChar_injective (by omega) (by omega) heq
  omega

/-- **The front end and the repository name a cell alike** if and only if it lies north east of the
origin and the node knows its level. -/
theorem spatialNodeToNDNName_eq_iff {x y : ℤ} (hcell : node.IsCell x y) :
    Utils.spatialNodeToNDNName node .LONG_LAT =
        calculateLATLONName ((x : ℚ) / 100) ((y : ℚ) / 100) 2 ↔
      0 ≤ x ∧ 0 ≤ y ∧ node.level = 2 := by
  rw [spatialNodeToNDNName_grid hcell.1 hcell.2, calculateLATLONName_grid]
  constructor
  · intro h
    have hcomponents := path_injective (slashFree_nodeComponents _) (slashFree_gridName x y) h
    -- a name of another level has another number of components
    have hlevel : node.level = 2 := by
      have hlength := congrArg List.length hcomponents
      rw [length_nodeComponents] at hlength
      exact Nat.add_right_cancel hlength
    rw [hlevel] at hcomponents
    -- the last component has the digits of the corner, which south west of 0 is another one
    have hlast : [hundredths (corner x (x + 1)), hundredths (corner y (y + 1))] =
        [hundredths x, hundredths y] := congrArg (fun cs : List Str => cs.getD 3 []) hcomponents
    simp only [List.cons.injEq, and_true] at hlast
    refine ⟨?_, ?_, hlevel⟩
    · by_contra hx
      exact hundredths_corner_ne (not_le.mp hx) hlast.1
    · by_contra hy
      exact hundredths_corner_ne (not_le.mp hy) hlast.2
  · rintro ⟨hx, hy, hlevel⟩
    have hcorner : ∀ {k : ℤ}, 0 ≤ k → corner k (k + 1) = k := fun hk => if_neg (not_lt.mpr hk)
    have hname : ∀ {k : ℤ}, 0 ≤ k → cornerName k (k + 1) = axisName k := fun {k} hk => by
      simp [cornerName, hcorner hk, not_lt.mpr hk, sign]
    rw [hlevel]
    unfold nodeComponents
    rw [hcorner hx, hcorner hy, hname hx, hname hy]
    rfl

end Names

/-- A node of the cell that knows its level. -/
theorem isCell_ofCorners (x y : ℤ) :
    (SpatialNode.ofCorners (.grid y x) (.grid (y + 1) (x + 1)) 2).IsCell x y := by
  have hgrid : ∀ q r : ℤ, SpatialPoint.grid q r = ⟨(q : ℚ) / 10 ^ 2, (r : ℚ) / 10 ^ 2⟩ := by
    intro q r
    unfold SpatialPoint.grid
    norm_num
  have hd : 2 ≤ 5 := by decide
  unfold SpatialNode.IsCell SpatialNode.ofCorners
  rw [hgrid, hgrid, Utils.floor10_grid hd, Utils.floor10_grid hd, Utils.ceil10_grid hd,
    Utils.ceil10_grid hd]
  exact ⟨rfl, rfl⟩

/-- The node that the tessellation makes of the cell, which does not know its level. -/
theorem isCell_ofPoint (x y : ℤ) : (SpatialNode.ofPoint (.grid y x) 2).IsCell x y ∧
    (SpatialNode.ofPoint (.grid y x) 2).level = 0 :=
  ⟨SpatialNode.ofPoint_grid le_rfl (one_dvd y) (one_dvd x), rfl⟩

theorem spatialNodeToNDNName_eq_north_east :
    Utils.spatialNodeToNDNName (.ofCorners (.grid 4188 1245) (.grid 4189 1246) 2) .LONG_LAT =
      calculateLATLONName (((1245 : ℤ) : ℚ) / 100) (((4188 : ℤ) : ℚ) / 100) 2 :=
  (spatialNodeToNDNName_eq_iff (isCell_ofCorners 1245 4188)).mpr ⟨by decide, by decide, rfl⟩

/-- The cell next to the meridian, to the west. -/
theorem spatialNodeToNDNName_west :
    Utils.spatialNodeToNDNName (.ofCorners (.grid 4188 (-1)) (.grid 4189 0) 2) .LONG_LAT ≠
      calculateLATLONName (((-1 : ℤ) : ℚ) / 100) (((4188 : ℤ) : ℚ) / 100) 2 := by
  decide +kernel

end OpenGeoBase
