import OpenGeoBase.Fes.SpatialTree
import OpenGeoBase.Lib.JavaInt
import OpenGeoBase.Lib.Prog

/-!
# Tessellation of a box

A box is covered with cells of one degree, or if there would be fewer than `k` of them with a tree:
the cells of one degree that meet the box, and in each that is not inside the box the cells of a
tenth of a degree, and so on for hundredths, as long as the root has fewer than `k` leaves. A node
whose children do not all find room gives them up.

The tree is changed in place while its root is asked for the number of its leaves, so the recursion
is a program over the root, and a node is known by its path from there. What holds of the root
before a call survives it if each of the changes keeps it (`Survives.keeps`).

The coordinates are exact decimals, and the counters of the loops are `int`s. The loops over the
degrees end unless the box goes on beyond the last degree of which all hundredths are `int`s
(`RootEnds`, `cells_zero`); where they do the loops inside a degree end too, and so does the
recursion (`Survives.returns`).
-/

namespace OpenGeoBase

open Text AtomicCalls Counting JavaInt

namespace SpatialTesseler

/-! ### The code -/

/-- The south west corners of the cells that `tesselateBox` goes through, in hundredths of a
degree; `none` when one of its loops never ends. -/
def cells (level : ℕ) (head : SpatialNode) : Option (List (ℤ × ℤ)) :=
  let step := SpatialNode.side level
  let startLat := saturate (trunc (Utils.floor10 (head.southWest.latitude * 100) level))
  let startLng := saturate (trunc (Utils.floor10 (head.southWest.longitude * 100) level))
  let stopLat := saturate (trunc (Utils.ceil10 (head.northEst.latitude * 100) level))
  let stopLng := saturate (trunc (Utils.ceil10 (head.northEst.longitude * 100) level))
  nested (forLoop startLat stopLat step) (forLoop startLng stopLng step)

section Recursion

variable (worldSW worldNE : SpatialPoint) (k : ℤ)

/-- The node of a cell, and whether it meets the box. -/
def cellNode (level : ℕ) (cell : ℤ × ℤ) : Bool × SpatialNode :=
  (SpatialNode.ofPoint (.grid cell.1 cell.2) level).computeIntersection worldSW worldNE

/-- The loops over the cells; `false` when the method returns from within. -/
def appendCells (level : ℕ) (path : List ℕ) : List (ℤ × ℤ) → Prog SpatialNode Bool
  | [] => pure true
  | cell :: cells => do
    if (cellNode worldSW worldNE level cell).1 then
      let leaves ← Prog.query fun superNode : SpatialNode => superNode.getLeaves.length
      -- at level 0 the number of the leaves does not matter
      if level = 0 ∨ (leaves : ℤ) < k then
        Prog.modify (SpatialNode.update
          (SpatialNode.appendChild · (cellNode worldSW worldNE level cell).2) path)
        appendCells level path cells
      else
        -- the cells before this one are given up too
        Prog.modify (SpatialNode.update SpatialNode.aggregate path)
        pure false
    else appendCells level path cells

/-- The body of the loop over the children, for the one at a position; `false` when the call that it
makes does not return. -/
def visitChild (recurse : List ℕ → Prog SpatialNode Bool) (level : ℕ) (path : List ℕ) (i : ℕ) :
    Prog SpatialNode Bool := do
  let node ← Prog.query (SpatialNode.at? (path ++ [i]))
  if level + 1 < 3 ∧ node.any fun node => !node.isFull then
    let leaves ← Prog.query fun superNode : SpatialNode => superNode.getLeaves.length
    if (leaves : ℤ) < k then recurse (path ++ [i]) else pure true
  else pure true

/-- The loop over the children at these positions. -/
def visitChildren (recurse : List ℕ → Prog SpatialNode Bool) (level : ℕ) (path : List ℕ) :
    List ℕ → Prog SpatialNode Bool
  | [] => pure true
  | i :: positions => do
    let returned ← visitChild k recurse level path i
    if returned then visitChildren recurse level path positions else pure false

/-- `tesselateBox` on the node at a path, with so many of the three levels to go; `false` when it
does not return. What it does to the tree in a loop that never ends is left out. -/
def tesselateNode : ℕ → List ℕ → Prog SpatialNode Bool
  -- no call gets here, for there are three levels only
  | 0, _ => pure false
  | levels + 1, path => do
    -- the code counts the levels upwards
    let level := 2 - levels
    let head ← Prog.query (SpatialNode.at? path)
    match head.bind (cells level) with
    | none => pure false
    | some cells =>
      let goesOn ← appendCells worldSW worldNE k level path cells
      if goesOn then
        -- `getChildren` sorts the list that the loop goes through
        Prog.modify (SpatialNode.update SpatialNode.sortChildren path)
        let children ← Prog.query fun superNode =>
          ((superNode.at? path).map fun head => head.children.length).getD 0
        visitChildren k (tesselateNode levels) level path (List.range children)
      else pure true

end Recursion

section Box

variable (sw ne : SpatialPoint) (k : ℤ)

def height : ℤ := saturate (trunc (Utils.ceil10 ne.latitude 0 - Utils.floor10 sw.latitude 0))

def width : ℤ := saturate (trunc (Utils.ceil10 ne.longitude 0 - Utils.floor10 sw.longitude 0))

/-- `none` when one of the loops never ends. -/
def tasselateBox100x100 : Option (List Str) :=
  let startLat := saturate (trunc (Utils.floor10 sw.latitude 0))
  let startLng := saturate (trunc (Utils.floor10 sw.longitude 0))
  let stopLat := saturate (trunc (Utils.ceil10 ne.latitude 0))
  let stopLng := saturate (trunc (Utils.ceil10 ne.longitude 0))
  -- these loops include their last bound, unlike those of the tree
  (nested (forLoop startLat (stopLat + 1) 1) (forLoop startLng (stopLng + 1) 1)).map fun degrees =>
    degrees.map fun degree =>
      Utils.spatialPointToNDNNname degree.1 degree.2 false false 0 .LONG_LAT

/-- The tree of `tesselateBox`; `none` when the recursion does not return. -/
def tree : Option SpatialNode :=
  let (returned, head) := (tesselateNode sw ne k 3 []).run (.ofCorners sw ne 0)
  if returned then some head else none

/-- The names of the leaves. -/
def leafNames (head : SpatialNode) : List Str :=
  head.getLeaves.map fun node => Utils.spatialNodeToNDNName node .LONG_LAT

/-- The names that are returned; `none` when the call does not return. -/
def tesselateBox : Option (List Str) :=
  if wrap (width sw ne * height sw ne) ≥ k then tasselateBox100x100 sw ne
  else (tree sw ne k).map leafNames

end Box

/-! ### What the recursion keeps -/

section Keeps

variable {sw ne : SpatialPoint} {k : ℤ} {I : SpatialNode → Prop} {levels level : ℕ}
  {path : List ℕ} {root : SpatialNode}

/-- A property of the root survives what the recursion may do to the node at a path and below it:
append a cell of that node which meets the box, if there is room for a leaf, aggregate, and sort. -/
structure Survives (sw ne : SpatialPoint) (k : ℤ) (I : SpatialNode → Prop) (path : List ℕ) :
    Prop where
  append : ∀ q root head corners cell, (path ++ q).length ≤ 2 → I root →
    root.at? (path ++ q) = some head → cells (path ++ q).length head = some corners →
    cell ∈ corners → (cellNode sw ne (path ++ q).length cell).1 = true → ∀ s, I s →
    ((path ++ q).length = 0 ∨ (s.getLeaves.length : ℤ) < k) →
    I (s.update (SpatialNode.appendChild · (cellNode sw ne (path ++ q).length cell).2) (path ++ q))
  aggregate : ∀ q s, I s → I (s.update SpatialNode.aggregate (path ++ q))
  sort : ∀ q s, I s → I (s.update SpatialNode.sortChildren (path ++ q))

/-- An invariant that survives the steps at a node survives those at its children. -/
theorem Survives.below (h : Survives sw ne k I path) (i : ℕ) :
    Survives sw ne k I (path ++ [i]) where
  append q := by
    rw [List.append_assoc]
    exact h.append ([i] ++ q)
  aggregate q := by
    rw [List.append_assoc]
    exact h.aggregate ([i] ++ q)
  sort q := by
    rw [List.append_assoc]
    exact h.sort ([i] ++ q)

/-- What is kept by every change at the path and below it survives. -/
theorem survives_of_update (h : ∀ f q s, I s → I (SpatialNode.update f (path ++ q) s)) :
    Survives sw ne k I path where
  append q _ _ _ _ _ _ _ _ _ _ s hs _ := h _ q s hs
  aggregate q s hs := h _ q s hs
  sort q s hs := h _ q s hs

/-- The loop over the cells keeps what the two steps in it keep. -/
theorem keeps_appendCells {cells : List (ℤ × ℤ)}
    (happend : ∀ cell ∈ cells, (cellNode sw ne level cell).1 = true → ∀ s, I s →
      (level = 0 ∨ (s.getLeaves.length : ℤ) < k) →
      I (s.update (SpatialNode.appendChild · (cellNode sw ne level cell).2) path))
    (haggregate : ∀ s, I s → I (s.update SpatialNode.aggregate path)) :
    Prog.Keeps I (appendCells sw ne k level path cells) := by
  -- over the cells: each one is left out, appended, or ends the loop with an aggregation
  induction cells with
  | nil => exact fun s hs => hs
  | cons cell cells ih =>
    have hrest := ih fun cell hcell => happend cell (List.mem_cons_of_mem _ hcell)
    intro s hs
    unfold appendCells
    split
    · next hfound =>
      refine Prog.always_query_bind.mpr ⟨hs, ?_⟩
      split
      · next hroom =>
        exact Prog.always_modify_bind.mpr
          ⟨hs, hrest _ (happend cell List.mem_cons_self hfound s hs hroom)⟩
      · exact Prog.always_modify_bind.mpr ⟨hs, haggregate s hs⟩
    · exact hrest s hs

/-- What survives is kept while the cells of a node are appended. -/
theorem Survives.keeps_cells (h : Survives sw ne k I path) {head : SpatialNode}
    {corners : List (ℤ × ℤ)} (hlevel : path.length ≤ 2) {s : SpatialNode} (hs : I s)
    (hhead : s.at? path = some head) (hcorners : cells path.length head = some corners) :
    Prog.Keeps I (appendCells sw ne k path.length path corners) := by
  have happend := h.append []
  have haggregate := h.aggregate []
  rw [List.append_nil] at happend haggregate
  exact keeps_appendCells (fun cell hcell => happend s head corners cell hlevel hs hhead hcorners
    hcell) haggregate

/-- The visit of a child keeps what the recursive call keeps. -/
theorem keeps_visitChild {recurse : List ℕ → Prog SpatialNode Bool} {i : ℕ}
    (h : Prog.Keeps I (recurse (path ++ [i]))) :
    Prog.Keeps I (visitChild k recurse level path i) := by
  intro s hs
  unfold visitChild
  refine Prog.always_query_bind.mpr ⟨hs, ?_⟩
  split
  · refine Prog.always_query_bind.mpr ⟨hs, ?_⟩
    split
    · exact h s hs
    · exact hs
  · exact hs

/-- The loop over the children keeps what its recursive calls keep. -/
theorem keeps_visitChildren {recurse : List ℕ → Prog SpatialNode Bool} {positions : List ℕ}
    (h : ∀ i ∈ positions, Prog.Keeps I (recurse (path ++ [i]))) :
    Prog.Keeps I (visitChildren k recurse level path positions) := by
  induction positions with
  | nil => exact fun s hs => hs
  | cons i positions ih =>
    have hrest := ih fun j hj => h j (List.mem_cons_of_mem i hj)
    unfold visitChildren
    refine (keeps_visitChild (h i List.mem_cons_self)).bind fun returned => ?_
    split
    · exact hrest
    · exact fun s hs => hs

/-- **The invariant rule of the recursion.** -/
theorem Survives.keeps (h : Survives sw ne k I path) (hlevels : levels + path.length = 3) :
    Prog.Keeps I (tesselateNode sw ne k levels path) := by
  -- on the levels to go, for all paths, since each child has a path of its own
  induction levels generalizing path with
  | zero => exact fun s hs => hs
  | succ levels ih =>
    have hlevel : 2 - levels = path.length := by omega
    intro s hs
    unfold tesselateNode
    rw [hlevel]
    refine Prog.always_query_bind.mpr ⟨hs, ?_⟩
    cases hcorners : (s.at? path).bind (cells path.length) with
    | none => exact hs
    | some corners =>
      obtain ⟨head, hhead, hcells⟩ := Option.bind_eq_some_iff.mp hcorners
      have hsort := h.sort []
      rw [List.append_nil] at hsort
      refine (h.keeps_cells (by omega) hs hhead hcells).bind (fun goesOn => ?_) s hs
      -- from here on the node may have changed, of which the rest asks nothing
      intro s hs
      split
      · refine Prog.always_modify_bind.mpr ⟨hs, Prog.always_query_bind.mpr ⟨hsort s hs, ?_⟩⟩
        refine keeps_visitChildren (fun i _ => ih (h.below i) ?_) _ (hsort s hs)
        rw [List.length_append, List.length_singleton]
        omega
      · exact hs

/-! ### The recursion returns -/

/-- A visit returns if the call that it makes does. -/
theorem returns_visitChild {recurse : List ℕ → Prog SpatialNode Bool} {i : ℕ}
    (h : level + 1 < 3 → ∀ s, I s → (s.at? (path ++ [i])).isSome = true →
      ((recurse (path ++ [i])).run s).1 = true) {s : SpatialNode} (hs : I s) :
    ((visitChild k recurse level path i).run s).1 = true := by
  unfold visitChild
  rw [Prog.run_bind, Prog.run_query]
  dsimp only
  split
  · next hvisit =>
    -- the node is there, or it would not have been found to be divisible
    have hsome : (s.at? (path ++ [i])).isSome = true := by
      obtain ⟨node, hnode, -⟩ := (Option.any_eq_true _ _).mp hvisit.2
      rw [hnode]
      rfl
    rw [Prog.run_bind, Prog.run_query]
    dsimp only
    split
    · exact h hvisit.1 s hs hsome
    · rfl
  · rfl

/-- This loop returns if every recursive call in it does. -/
theorem returns_visitChildren {recurse : List ℕ → Prog SpatialNode Bool} {positions : List ℕ}
    (hkeeps : ∀ i, Prog.Keeps I (recurse (path ++ [i])))
    (h : ∀ i, level + 1 < 3 → ∀ s, I s → (s.at? (path ++ [i])).isSome = true →
      ((recurse (path ++ [i])).run s).1 = true) {s : SpatialNode} (hs : I s) :
    ((visitChildren k recurse level path positions).run s).1 = true := by
  induction positions generalizing s with
  | nil => rfl
  | cons i positions ih =>
    unfold visitChildren
    rw [Prog.run_bind, returns_visitChild (h i) hs, if_pos rfl]
    exact ih (keeps_visitChild (hkeeps i) s hs).run

/-- **The recursion comes to an end** if the loops over the cells of the nodes that it gets to do.
The levels are what decreases. -/
theorem Survives.returns (h : Survives sw ne k I path)
    (hends : ∀ q root head, (path ++ q).length ≤ 2 → I root → root.at? (path ++ q) = some head →
      cells (path ++ q).length head ≠ none)
    (hlevels : levels + path.length = 3) (hlevel : path.length ≤ 2) {s : SpatialNode} (hs : I s)
    (hnode : (s.at? path).isSome = true) :
    ((tesselateNode sw ne k levels path).run s).1 = true := by
  -- over the levels left; `path` is where the node of this level is in the tree
  induction levels generalizing path s with
  | zero => omega
  | succ levels ih =>
    have hlevel' : 2 - levels = path.length := by omega
    obtain ⟨head, hhead⟩ := Option.isSome_iff_exists.mp hnode
    have hcells := hends [] s head
    rw [List.append_nil] at hcells
    obtain ⟨corners, hcorners⟩ := Option.ne_none_iff_exists'.mp (hcells hlevel hs hhead)
    -- what survives the cells also survives the sorting of the children
    have hsort := h.sort []
    rw [List.append_nil] at hsort
    have hs' := (h.keeps_cells hlevel hs hhead hcorners s hs).run
    unfold tesselateNode
    rw [hlevel', Prog.run_bind, Prog.run_query, hhead, Option.bind_some, hcorners]
    dsimp only
    rw [Prog.run_bind]
    split
    · rw [Prog.run_bind, Prog.run_modify, Prog.run_bind, Prog.run_query]
      dsimp only
      refine returns_visitChildren (I := I) (fun i => ?_) (fun i hdeep s hs hsome => ?_)
        (hsort _ hs')
      · refine (h.below i).keeps ?_
        rw [List.length_append, List.length_singleton]
        omega
      · refine ih (h.below i) (fun q => ?_) ?_ ?_ hs hsome
        · rw [List.append_assoc]
          exact hends ([i] ++ q)
        all_goals
          rw [List.length_append, List.length_singleton]
          omega
    · rfl

end Keeps

/-! ### Cells of the grid -/

section Grid

variable {a b c d : ℤ} {level : ℕ} {head : SpatialNode}

/-- Truncation keeps integers. -/
theorem trunc_intCast (z : ℤ) : trunc (z : ℚ) = z := by
  unfold trunc
  split
  · exact Int.floor_intCast z
  · exact Int.ceil_intCast z

/-- The loops over the cells of a node whose corners are on the grid. -/
theorem cells_eq (hlevel : level ≤ 2) (hsw : head.southWest = .grid a c)
    (hne : head.northEst = .grid b d) :
    cells level head = nested (forLoop (saturate a) (saturate b) (SpatialNode.side level))
      (forLoop (saturate c) (saturate d) (SpatialNode.side level)) := by
  -- a whole number of hundredths has no part for the rounding to take off
  have hscale : ∀ z : ℤ, (z : ℚ) / 100 * 100 = ((z * 10 ^ level : ℤ) : ℚ) / 10 ^ level := by
    intro z
    push_cast
    rw [mul_div_cancel_right₀ _ (by positivity)]
    exact div_mul_cancel₀ _ (by norm_num)
  have hwhole : ∀ z : ℤ, ((z * 10 ^ level : ℤ) : ℚ) / 10 ^ level = z := by
    intro z
    push_cast
    exact mul_div_cancel_right₀ _ (by positivity)
  have hd : level ≤ 5 := by omega
  have hfloor : ∀ z : ℤ, trunc (Utils.floor10 ((z : ℚ) / 100 * 100) level) = z := by
    intro z
    rw [hscale, Utils.floor10_grid hd, hwhole, trunc_intCast]
  have hceil : ∀ z : ℤ, trunc (Utils.ceil10 ((z : ℚ) / 100 * 100) level) = z := by
    intro z
    rw [hscale, Utils.ceil10_grid hd, hwhole, trunc_intCast]
  unfold cells
  rw [hsw, hne]
  unfold SpatialPoint.grid
  simp only [hfloor, hceil]

/-- The coordinate, in hundredths, is one of the grid of a level, and an `int`. -/
structure OnGrid (level : ℕ) (z : ℤ) : Prop where
  dvd : SpatialNode.side level ∣ z
  fits : Fits z

/-- The cells of a node whose corners are `int`s. -/
theorem cells_grid (hlevel : level ≤ 2) (hsw : head.southWest = .grid a c)
    (hne : head.northEst = .grid b d) (ha : OnGrid level a) (hb : OnGrid level b)
    (hc : OnGrid level c) (hd : OnGrid level d) :
    cells level head = some ((steps a b (SpatialNode.side level)).flatMap fun lat =>
      (steps c d (SpatialNode.side level)).map fun lon => (lat, lon)) := by
  have hside : 0 < SpatialNode.side level := by
    unfold SpatialNode.side
    positivity
  rw [cells_eq hlevel hsw hne, saturate_eq_self ha.fits, saturate_eq_self hb.fits,
    saturate_eq_self hc.fits, saturate_eq_self hd.fits,
    forLoop_eq_steps hside ha.fits hb.fits ha.dvd hb.dvd,
    forLoop_eq_steps hside hc.fits hd.fits hc.dvd hd.dvd, nested_some]

end Grid

/-! ### The degrees of a box -/

section Degrees

variable {sw ne : SpatialPoint} {q r : ℚ} {degree : ℤ × ℤ}

/-- The degree at or below a coordinate, with the correction. -/
def floorDegree (q : ℚ) : ℤ := ⌊q + 1 / 10 ^ 6⌋

/-- The degree at or above a coordinate, with the correction. -/
def ceilDegree (q : ℚ) : ℤ := ⌈q - 1 / 10 ^ 6⌉

/-- Without decimals `floor10` rounds to degrees. -/
theorem floor10_zero (q : ℚ) : Utils.floor10 q 0 = floorDegree q := by
  unfold Utils.floor10 floorDegree
  norm_num

theorem ceil10_zero (q : ℚ) : Utils.ceil10 q 0 = ceilDegree q := by
  unfold Utils.ceil10 ceilDegree
  norm_num

/-- The root of the tree has its corners at degrees. -/
theorem ofCorners_zero :
    (SpatialNode.ofCorners sw ne 0).southWest =
        .grid (100 * floorDegree sw.latitude) (100 * floorDegree sw.longitude) ∧
      (SpatialNode.ofCorners sw ne 0).northEst =
        .grid (100 * ceilDegree ne.latitude) (100 * ceilDegree ne.longitude) := by
  unfold SpatialNode.ofCorners SpatialPoint.grid
  rw [floor10_zero, floor10_zero, ceil10_zero, ceil10_zero]
  push_cast
  constructor
  all_goals
    congr 1
    all_goals ring

/-- The rows of degrees that the box has a part of. -/
def rows (sw ne : SpatialPoint) : ℤ := ceilDegree ne.latitude - floorDegree sw.latitude

/-- The columns of degrees. -/
def columns (sw ne : SpatialPoint) : ℤ := ceilDegree ne.longitude - floorDegree sw.longitude

variable (sw ne) in
/-- The degrees of the box, by their south west corners. -/
def degrees : List (ℤ × ℤ) :=
  (steps (100 * floorDegree sw.latitude) (100 * ceilDegree ne.latitude) 100).flatMap fun lat =>
    (steps (100 * floorDegree sw.longitude) (100 * ceilDegree ne.longitude) 100).map fun lon =>
      (lat, lon)

/-- The degrees between the corners of the box. -/
theorem mem_degrees :
    degree ∈ degrees sw ne ↔
      ∃ y x, degree = (100 * y, 100 * x) ∧
        (floorDegree sw.latitude ≤ y ∧ y < ceilDegree ne.latitude) ∧
        floorDegree sw.longitude ≤ x ∧ x < ceilDegree ne.longitude := by
  have hpos : (0 : ℤ) < 100 := by norm_num
  unfold degrees
  simp only [List.mem_flatMap, List.mem_map, mem_steps_mul hpos]
  constructor
  · rintro ⟨_, ⟨y, rfl, hy⟩, _, ⟨x, rfl, hx⟩, rfl⟩
    exact ⟨y, x, rfl, hy, hx⟩
  · rintro ⟨y, x, rfl, hy, hx⟩
    exact ⟨_, ⟨y, rfl, hy⟩, _, ⟨x, rfl, hx⟩, rfl⟩

/-- The number of degrees is that of rows times that of columns. -/
theorem length_degrees : (degrees sw ne).length = (rows sw ne).toNat * (columns sw ne).toNat := by
  unfold degrees rows columns
  rw [List.length_flatMap]
  simp only [List.length_map, length_steps (by norm_num : (0 : ℤ) < 100)]
  rw [List.map_const', List.sum_replicate_nat, length_steps (by norm_num)]

/-! ### The loops over the degrees -/

/-- The loop between two coordinates goes over no degree: there is none, or they begin where no
hundredth of a degree is an `int`. -/
def NoDegrees (q r : ℚ) : Prop := ceilDegree r ≤ floorDegree q ∨ 21474837 ≤ floorDegree q

instance (q r : ℚ) : Decidable (NoDegrees q r) := inferInstanceAs (Decidable (_ ∨ _))

/-- The loops over the degrees of a box end: a range of degrees that a loop goes over does not go on
beyond the last hundredth of a degree that is an `int`. -/
def RootEnds (sw ne : SpatialPoint) : Prop :=
  NoDegrees sw.latitude ne.latitude ∨ ceilDegree ne.latitude ≤ 21474836 ∧
    (NoDegrees sw.longitude ne.longitude ∨ ceilDegree ne.longitude ≤ 21474836)

instance (sw ne : SpatialPoint) : Decidable (RootEnds sw ne) := inferInstanceAs (Decidable (_ ∨ _))

/-- The box does not begin below the first degree of which all hundredths are `int`s. -/
structure Low (sw : SpatialPoint) : Prop where
  latitude : -21474836 ≤ floorDegree sw.latitude
  longitude : -21474836 ≤ floorDegree sw.longitude

/-- The loop over the degrees between two coordinates. -/
def degreeLoop (q r : ℚ) : Option (List ℤ) :=
  forLoop (saturate (100 * floorDegree q)) (saturate (100 * ceilDegree r)) 100

/-- At the root the loops run over the two directions one in the other. -/
theorem cells_zero_eq :
    cells 0 (.ofCorners sw ne 0) = nested (degreeLoop sw.latitude ne.latitude)
      (degreeLoop sw.longitude ne.longitude) :=
  cells_eq (Nat.zero_le 2) ofCorners_zero.1 ofCorners_zero.2

/-- A loop whose condition fails at once visits nothing. -/
theorem degreeLoop_of_noDegrees (h : NoDegrees q r) : degreeLoop q r = some [] := by
  refine forLoop_of_le ?_
  unfold saturate
  rcases h with h | h <;> omega

/-- A loop within the Java ints visits every whole degree once. -/
theorem degreeLoop_of_le (hlow : -21474836 ≤ floorDegree q) (h : ceilDegree r ≤ 21474836) :
    degreeLoop q r = some (steps (100 * floorDegree q) (100 * ceilDegree r) 100) := by
  by_cases hnone : ceilDegree r ≤ floorDegree q
  · rw [degreeLoop_of_noDegrees (Or.inl hnone), steps_eq (by norm_num), if_neg (by omega)]
  · have hstart : Fits (100 * floorDegree q) := ⟨by omega, by omega⟩
    have hstop : Fits (100 * ceilDegree r) := ⟨by omega, by omega⟩
    unfold degreeLoop
    rw [saturate_eq_self hstart, saturate_eq_self hstop]
    exact forLoop_eq_steps (by norm_num) hstart hstop (dvd_mul_right _ _) (dvd_mul_right _ _)

/-- Beyond the last degree the bound is the last `int`, which is odd, and the counter is always a
multiple of four. -/
theorem degreeLoop_endless (hlow : -21474836 ≤ floorDegree q) (hsome : ¬NoDegrees q r)
    (h : 21474836 < ceilDegree r) : degreeLoop q r = none := by
  unfold NoDegrees at hsome
  rw [not_or, not_le, not_le] at hsome
  have hstart : Fits (100 * floorDegree q) := ⟨by omega, by omega⟩
  have hstop : saturate (100 * ceilDegree r) = 2 ^ 31 - 1 := by
    unfold saturate
    omega
  unfold degreeLoop
  rw [saturate_eq_self hstart, hstop]
  refine forLoop_endless (g := 4) (by norm_num) hstart ?_ (by norm_num) fun z hz hdvd => ?_
  · exact Dvd.dvd.mul_right (by norm_num) _
  · unfold Fits at hz
    omega

/-- **The cells of one degree**, where the loops end. -/
theorem cells_zero (hlow : Low sw) (hlat : ceilDegree ne.latitude ≤ 21474836)
    (hlon : ceilDegree ne.longitude ≤ 21474836) :
    cells 0 (.ofCorners sw ne 0) = some (degrees sw ne) := by
  rw [cells_zero_eq, degreeLoop_of_le hlow.latitude hlat, degreeLoop_of_le hlow.longitude hlon,
    nested_some]
  rfl

/-- If one direction has no degrees, no cell is visited. -/
theorem cells_zero_of_noDegrees (hlow : Low sw) (hends : RootEnds sw ne)
    (h : NoDegrees sw.latitude ne.latitude ∨ NoDegrees sw.longitude ne.longitude) :
    cells 0 (.ofCorners sw ne 0) = some [] := by
  rw [cells_zero_eq]
  by_cases hlat : NoDegrees sw.latitude ne.latitude
  · rw [degreeLoop_of_noDegrees hlat, nested_nil]
  · have hle := (hends.resolve_left hlat).1
    rw [degreeLoop_of_noDegrees (h.resolve_left hlat), degreeLoop_of_le hlow.latitude hle]
    exact nested_of_inner_nil (Option.some_ne_none _)

/-- **The loops never end** where the box goes on too far. -/
theorem cells_zero_endless (hlow : Low sw) (h : ¬RootEnds sw ne) :
    cells 0 (.ofCorners sw ne 0) = none := by
  unfold RootEnds at h
  rw [not_or, not_and_or, not_or, not_le, not_le] at h
  obtain ⟨hlat, hbeyond⟩ := h
  rw [cells_zero_eq]
  by_cases hle : ceilDegree ne.latitude ≤ 21474836
  · -- the outer loop is entered, and the inner one goes on for ever
    obtain ⟨hlon, hlon'⟩ := hbeyond.resolve_left (not_lt.mpr hle)
    rw [degreeLoop_of_le hlow.latitude hle, degreeLoop_endless hlow.longitude hlon hlon']
    refine nested_endless ?_
    unfold NoDegrees at hlat
    rw [not_or, not_le] at hlat
    rw [steps_eq (by norm_num), if_pos (by omega)]
    exact List.cons_ne_nil _ _
  -- the outer loop goes on for ever
  · rw [degreeLoop_endless hlow.latitude hlat (not_le.mp hle), nested_none]

end Degrees

/-! ### Cells that are found -/

section Found

variable {sw ne : SpatialPoint} {k : ℤ} {level : ℕ} {cell : ℤ × ℤ}

/-- A new node has no children. -/
theorem children_cellNode : (cellNode sw ne level cell).2.children = [] := by
  unfold cellNode SpatialNode.computeIntersection
  split <;> rfl

variable (sw ne) in
/-- The nodes that the loops append for these cells, if there is room for them. -/
def found (level : ℕ) (cells : List (ℤ × ℤ)) : List SpatialNode :=
  (cells.filter fun cell => (cellNode sw ne level cell).1).map fun cell =>
    { (cellNode sw ne level cell).2 with father := true }

/-- The cells are tried one after the other. -/
theorem found_cons (level : ℕ) (cell : ℤ × ℤ) (cells : List (ℤ × ℤ)) :
    found sw ne level (cell :: cells) =
      if (cellNode sw ne level cell).1 then
        { (cellNode sw ne level cell).2 with father := true } :: found sw ne level cells
      else found sw ne level cells := by
  unfold found
  rw [List.filter_cons]
  split <;> rfl

theorem children_of_mem_found {cells : List (ℤ × ℤ)} {node : SpatialNode}
    (h : node ∈ found sw ne level cells) : node.children = [] := by
  obtain ⟨cell, -, rfl⟩ := List.mem_map.mp h
  exact children_cellNode

/-- The children that are appended to a node. -/
def appendAll (nodes : List SpatialNode) (head : SpatialNode) : SpatialNode :=
  { head with children := head.children ++ nodes }

/-- The degrees are appended without a look at the budget. -/
theorem run_appendCells_zero (cells : List (ℤ × ℤ)) (root : SpatialNode) :
    (appendCells sw ne k 0 [] cells).run root =
      (true, appendAll (found sw ne 0 cells) root) := by
  induction cells generalizing root with
  | nil =>
    cases root
    simp [appendCells, found, appendAll]
  | cons cell cells ih =>
    rw [found_cons]
    unfold appendCells
    split
    · rw [Prog.run_bind, Prog.run_query]
      dsimp only
      rw [if_pos (Or.inl rfl), Prog.run_bind, Prog.run_modify, ih]
      simp [appendAll, SpatialNode.appendChild]
    · exact ih root

end Found

end SpatialTesseler

end OpenGeoBase
