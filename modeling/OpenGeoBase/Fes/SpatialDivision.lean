import OpenGeoBase.Fes.SpatialDegrees

/-!
# Which degrees are divided

A node that is visited gets all the cells that are found in it, or none: if the last of them finds
no room for a leaf the node is aggregated and is a leaf again (`run_appendCells`). Whether there is
room depends on the leaves that the root has then. As long as no degree has been divided these are
the degrees, so it is known beforehand which degree is the first to be divided, if any
(`StaysWhole`): without one the tree remains flat (`isWhole_treeRoot`), and else a degree has parts
in the end (`hasParts_treeRoot`).

There are too many degrees to visit any if the product that was tested had wrapped around.
-/

namespace OpenGeoBase

open AtomicCalls

namespace SpatialTesseler

open SpatialNode

/-! ### A node that is visited -/

section Run

variable {sw ne : SpatialPoint} {k : ℤ} {level levels m : ℕ} {path : List ℕ}
  {root node : SpatialNode}

/-- There is room for so many children of the node: each is appended as long as the root has fewer
than `k` leaves, and the first one of a leaf takes the leaf's place. -/
def RoomFor (k : ℤ) (root node : SpatialNode) (m : ℕ) : Prop :=
  m = 0 ∨ (root.getLeaves.length : ℤ) < k ∧
    (root.getLeaves.length + m : ℤ) ≤ k + if node.children = [] then 1 else 0

instance (k : ℤ) (root node : SpatialNode) (m : ℕ) : Decidable (RoomFor k root node m) :=
  inferInstanceAs (Decidable (_ ∨ _))

/-- The number of the leaves when a child has been appended. -/
theorem leaves_update_appendChild {child : SpatialNode} (hnode : root.at? path = some node)
    (hchild : child.children = []) :
    ((root.update (appendChild · child) path).getLeaves.length : ℤ) =
      root.getLeaves.length + 1 - if node.children = [] then 1 else 0 := by
  have hcount := length_getLeaves_update (f := (appendChild · child)) hnode
  rw [length_getLeaves_appendChild hchild] at hcount
  split at hcount
  · -- the first child takes the place of its father
    next hnil =>
    rw [getLeaves_of_nil hnil, List.length_singleton] at hcount
    rw [if_pos hnil]
    omega
  · next hsome =>
    rw [if_neg hsome]
    omega

/-- There is room for the rest if there was room for all. -/
theorem fits_succ {child : SpatialNode} (hnode : root.at? path = some node)
    (hchild : child.children = []) (hroom : (root.getLeaves.length : ℤ) < k) :
    RoomFor k (root.update (appendChild · child) path) (node.appendChild child) m ↔
      RoomFor k root node (m + 1) := by
  have hsome : (node.appendChild child).children ≠ [] := by simp [appendChild]
  unfold RoomFor
  rw [leaves_update_appendChild hnode hchild, if_neg hsome]
  split <;> omega

/-- Appending a child first or together with the others is the same. -/
theorem appendAll_appendChild (nodes : List SpatialNode) (child head : SpatialNode) :
    appendAll nodes (head.appendChild child) =
      appendAll ({ child with father := true } :: nodes) head := by
  simp [appendAll, appendChild]

/-- What has been appended is lost with the rest. -/
theorem aggregate_appendChild (hfather : node.father = true) (child : SpatialNode) :
    (node.appendChild child).aggregate = node.aggregate := by
  have hfather' : (node.appendChild child).father = true := hfather
  unfold aggregate
  rw [if_pos hfather, if_pos hfather']
  rfl

/-- Appending no children changes nothing. -/
theorem update_appendAll_nil (path : List ℕ) (root : SpatialNode) :
    root.update (appendAll []) path = root := by
  refine update_eq_self fun c _ => ?_
  cases c
  simp [appendAll]

/-- **All cells that are found are appended, or none.** -/
theorem run_appendCells (hlevel : level ≠ 0) (cells : List (ℤ × ℤ))
    (hnode : root.at? path = some node) (hfather : node.father = true) :
    (appendCells sw ne k level path cells).run root =
      if RoomFor k root node (found sw ne level cells).length then
        (true, root.update (appendAll (found sw ne level cells)) path)
      else (false, root.update aggregate path) := by
  induction cells generalizing root node with
  | nil =>
    have hself : root.update (appendAll (found sw ne level [])) path = root :=
      update_appendAll_nil path root
    have hfits : RoomFor k root node (found sw ne level []).length := Or.inl rfl
    rw [if_pos hfits, hself]
    rfl
  | cons cell cells ih =>
    rw [found_cons]
    unfold appendCells
    split
    · rw [Prog.run_bind, Prog.run_query]
      dsimp only
      rw [List.length_cons]
      by_cases hroom : (root.getLeaves.length : ℤ) < k
      · have hnode' : (root.update (appendChild · (cellNode sw ne level cell).2) path).at? path =
            some (node.appendChild (cellNode sw ne level cell).2) := by
          rw [at?_update, hnode]
          rfl
        -- if a later cell finds no room, this one is lost as well
        have hagain : ∀ c, root.at? path = some c →
            (aggregate ∘ (appendChild · (cellNode sw ne level cell).2)) c = aggregate c := by
          intro c hc
          obtain rfl := Option.some.inj (hnode.symm.trans hc)
          exact aggregate_appendChild hfather _
        have hall : appendAll (found sw ne level cells) ∘
            (appendChild · (cellNode sw ne level cell).2) =
              appendAll ({ (cellNode sw ne level cell).2 with father := true } ::
                found sw ne level cells) :=
          funext fun c => appendAll_appendChild _ _ c
        rw [if_pos (Or.inr hroom), Prog.run_bind, Prog.run_modify, ih hnode' hfather,
          update_update, update_update, hall, update_congr hagain]
        exact if_congr (fits_succ hnode children_cellNode hroom) rfl rfl
      · -- no room for this cell, hence none for all
        have hfull : ¬RoomFor k root node ((found sw ne level cells).length + 1) := by
          rintro (hzero | ⟨hlt, -⟩)
          · exact absurd hzero (Nat.succ_ne_zero _)
          · exact hroom hlt
        rw [if_neg hfull, if_neg (not_or.mpr ⟨hlevel, hroom⟩), Prog.run_bind, Prog.run_modify]
        rfl
    · exact ih hnode hfather

variable (sw ne) in
/-- The cells that are found in a node. -/
def parts (level : ℕ) (node : SpatialNode) : List SpatialNode :=
  found sw ne level ((cells level node).getD [])

/-- The visit of a leaf. -/
theorem run_tesselateNode_leaf (hlevel : 2 - levels ≠ 0) (hnode : root.at? path = some node)
    (hends : cells (2 - levels) node ≠ none) (hleaf : node.children = [])
    (hfather : node.father = true) :
    (tesselateNode sw ne k (levels + 1) path).run root =
      if RoomFor k root node (parts sw ne (2 - levels) node).length then
        (visitChildren k (tesselateNode sw ne k levels) (2 - levels) path
          (List.range (parts sw ne (2 - levels) node).length)).run
            (root.update (appendAll (parts sw ne (2 - levels) node)) path)
      else (true, root.update aggregate path) := by
  obtain ⟨corners, hcorners⟩ := Option.ne_none_iff_exists'.mp hends
  have hparts : parts sw ne (2 - levels) node = found sw ne (2 - levels) corners := by
    unfold parts
    rw [hcorners]
    rfl
  have hcells : (appendCells sw ne k (2 - levels) path corners).run root =
      if RoomFor k root node (parts sw ne (2 - levels) node).length then
        (true, root.update (appendAll (parts sw ne (2 - levels) node)) path)
      else (false, root.update aggregate path) := by
    rw [hparts]
    exact run_appendCells hlevel corners hnode hfather
  unfold tesselateNode
  rw [Prog.run_bind, Prog.run_query]
  dsimp only
  rw [hnode, Option.bind_some, hcorners]
  dsimp only
  rw [Prog.run_bind, hcells]
  by_cases hfits : RoomFor k root node (parts sw ne (2 - levels) node).length
  · have hchildren : (appendAll (parts sw ne (2 - levels) node) node).children =
        parts sw ne (2 - levels) node := by
      unfold appendAll
      rw [hleaf, List.nil_append]
    -- the parts have no children yet, so the order stays
    have hsort : ∀ c, root.at? path = some c →
        (sortChildren ∘ appendAll (parts sw ne (2 - levels) node)) c =
          appendAll (parts sw ne (2 - levels) node) c := by
      intro c hc
      obtain rfl := Option.some.inj (hnode.symm.trans hc)
      refine sortChildren_of_flat fun child hchild => ?_
      rw [hchildren] at hchild
      exact children_of_mem_found hchild
    rw [if_pos hfits, if_pos hfits]
    dsimp only
    rw [if_pos rfl, Prog.run_bind, Prog.run_modify]
    dsimp only
    rw [update_update, update_congr hsort, Prog.run_bind, Prog.run_query]
    dsimp only
    rw [at?_update, hnode]
    dsimp only [Option.map_some, Option.getD_some]
    rw [hchildren]
  · rw [if_neg hfits, if_neg hfits]
    rfl

end Run

/-! ### As long as no degree has been divided -/

section Whole

variable {sw ne : SpatialPoint} {k : ℤ} {i n m : ℕ} {root : SpatialNode} {degree : ℤ × ℤ}

/-- There are too many degrees to visit this one, or it lies in the box, or nothing is found in it,
or its parts do not find room with the other degrees. -/
def StaysWhole (sw ne : SpatialPoint) (k : ℤ) (degree : ℤ × ℤ) : Prop :=
  (k ≤ rows sw ne * columns sw ne ∨ (degreeNode sw ne degree).isFull = true) ∨
    parts sw ne 1 (degreeNode sw ne degree) = [] ∨
    k + 1 < rows sw ne * columns sw ne + (parts sw ne 1 (degreeNode sw ne degree)).length

/-- No degree has been divided, and those from a position on have not been visited. -/
structure IsWhole (sw ne : SpatialPoint) (n : ℕ) (root : SpatialNode) : Prop extends
    IsDegrees (degrees sw ne) root where
  child : ∀ (i : ℕ) degree, (degrees sw ne)[i]? = some degree →
    ∃ full, root.children[i]? = some { degreeNode sw ne degree with isFull := full } ∧
      (n ≤ i → full = (degreeNode sw ne degree).isFull)

/-- The degrees are counted by rows and columns. -/
theorem Divided.length_degrees (h : Divided sw ne) :
    ((degrees sw ne).length : ℤ) = rows sw ne * columns sw ne := by
  have hpos := h.rows_pos
  rw [SpatialTesseler.length_degrees]
  push_cast
  rw [Int.toNat_of_nonneg hpos.1.le, Int.toNat_of_nonneg hpos.2.le]

/-- A degree begins without parts. -/
theorem children_degreeNode (degree : ℤ × ℤ) : (degreeNode sw ne degree).children = [] :=
  children_cellNode

/-- A degree has no parts yet, so aggregating it does nothing. -/
theorem aggregate_degreeNode (degree : ℤ × ℤ) (full : Bool) :
    ({ degreeNode sw ne degree with isFull := full } : SpatialNode).aggregate =
      { degreeNode sw ne degree with isFull := true } := by
  have hchildren : (degreeNode sw ne degree).children = [] := children_degreeNode degree
  have hfather : (degreeNode sw ne degree).father = true := rfl
  unfold SpatialNode.aggregate
  dsimp only
  rw [if_pos hfather, hchildren]

namespace IsWhole

/-- No degree of a whole root has parts. -/
theorem flat (h : IsWhole sw ne n root) : ∀ child ∈ root.children, child.children = [] := by
  intro child hchild
  obtain ⟨i, hi⟩ := List.getElem?_of_mem hchild
  obtain ⟨degree, hdegree⟩ := exists_getElem?_of_length_eq h.length hi
  obtain ⟨full, hfull, -⟩ := h.child i degree hdegree
  obtain rfl := Option.some.inj (hi.symm.trans hfull)
  exact children_degreeNode _

/-- The leaves of the root are the degrees. -/
theorem length_getLeaves (h : IsWhole sw ne n root) (hdivided : Divided sw ne) :
    (root.getLeaves.length : ℤ) = rows sw ne * columns sw ne := by
  have hpos : 0 < rows sw ne * columns sw ne := mul_pos hdivided.rows_pos.1 hdivided.rows_pos.2
  rw [← hdivided.length_degrees, length_getLeaves_flat h.flat, h.length]
  rw [← hdivided.length_degrees] at hpos
  omega

theorem succ (h : IsWhole sw ne n root) : IsWhole sw ne (n + 1) root where
  toIsDegrees := h.toIsDegrees
  child i degree hdegree := by
    obtain ⟨full, hchild, hunvisited⟩ := h.child i degree hdegree
    exact ⟨full, hchild, fun hn => hunvisited (Nat.le_of_succ_le hn)⟩

/-- A degree whose parts have found no room is full from then on. -/
theorem aggregate (h : IsWhole sw ne n root) :
    IsWhole sw ne (n + 1) (root.update SpatialNode.aggregate [n]) where
  toIsDegrees := h.toIsDegrees.update fun _ _ _ hnode => hnode.aggregate
  child i degree hdegree := by
    obtain ⟨full, hchild, hunvisited⟩ := h.child i degree hdegree
    change ∃ full, (root.children.modify n SpatialNode.aggregate)[i]? = _ ∧ _
    -- the aggregated degree is full from now on, and has been visited
    by_cases hin : n = i
    · subst hin
      refine ⟨true, ?_, fun hlt => absurd hlt (Nat.not_succ_le_self n)⟩
      rw [List.getElem?_modify_eq, hchild]
      exact congrArg some (aggregate_degreeNode degree full)
    · rw [List.getElem?_modify_ne _ _ hin]
      exact ⟨full, hchild, fun hlt => hunvisited (Nat.le_of_succ_le hlt)⟩

end IsWhole

/-- The first level leaves all degrees whole. -/
theorem isWhole_degreesFound (h : Divided sw ne) (hlow : Low sw) (hends : RootEnds sw ne) :
    IsWhole sw ne 0 (degreesFound sw ne) := by
  have hchildren : (degreesFound sw ne).children = (degrees sw ne).map (degreeNode sw ne) :=
    found_degrees h.2
  refine ⟨isDegrees_degreesFound h hlow hends, fun i degree hdegree => ?_⟩
  refine ⟨(degreeNode sw ne degree).isFull, ?_, fun _ => rfl⟩
  rw [hchildren, List.getElem?_map, hdegree]
  rfl

/-! ### The visits of the degrees -/

/-- A degree has been divided. -/
def HasParts (i : ℕ) (root : SpatialNode) : Prop :=
  ∃ child, root.at? [i] = some child ∧ child.children ≠ []

/-- What is done to the parts leaves them there. -/
theorem survives_hasParts_below (i j : ℕ) : Survives sw ne k (HasParts i) [i, j] := by
  -- an update beneath a part leaves the number of the parts alone
  refine survives_of_update fun f q s => ?_
  rintro ⟨child, hchild, hparts⟩
  refine ⟨child.update f (j :: q), ?_, fun hnil => hparts ?_⟩
  · change (s.update f ([i] ++ j :: q)).at? [i] = _
    rw [at?_update_append, hchild]
    rfl
  · have hlength : (child.update f (j :: q)).children.length = child.children.length :=
      List.length_modify ..
    rw [hnil] at hlength
    exact List.length_eq_zero_iff.mp hlength.symm

/-- What is done to other degrees does not matter. -/
theorem survives_hasParts_other {j : ℕ} (h : j ≠ i) : Survives sw ne k (HasParts i) [j] := by
  refine survives_of_update fun f q s => ?_
  rintro ⟨child, hchild, hparts⟩
  refine ⟨child, ?_, hparts⟩
  rw [List.cons_append, at?_update_of_ne h]
  exact hchild

namespace IsWhole

/-- A degree that was not visited yet is as the first level left it. -/
theorem at?_unvisited (h : IsWhole sw ne i root) (hdegree : (degrees sw ne)[i]? = some degree) :
    root.at? [i] = some (degreeNode sw ne degree) := by
  obtain ⟨full, hchild, hunvisited⟩ := h.child i degree hdegree
  obtain rfl := hunvisited le_rfl
  rw [at?_cons, hchild]
  rfl

/-- A degree that is not full is visited, if there is still room. -/
theorem run_visitChild (h : IsWhole sw ne i root) (hdivided : Divided sw ne)
    (hdegree : (degrees sw ne)[i]? = some degree) :
    (visitChild k (tesselateNode sw ne k 2) 0 [] i).run root =
      if k ≤ rows sw ne * columns sw ne ∨ (degreeNode sw ne degree).isFull = true then (true, root)
      else if RoomFor k root (degreeNode sw ne degree)
          (parts sw ne 1 (degreeNode sw ne degree)).length then
        (visitChildren k (tesselateNode sw ne k 1) 1 [i]
          (List.range (parts sw ne 1 (degreeNode sw ne degree)).length)).run
            (root.update (appendAll (parts sw ne 1 (degreeNode sw ne degree))) [i])
      else (true, root.update SpatialNode.aggregate [i]) := by
  have hnode := h.at?_unvisited hdegree
  have hcells : cells 1 (degreeNode sw ne degree) ≠ none := by
    have hlength : [i].length ≤ 2 := Nat.le_succ 1
    have hends := h.toIsDegrees.cells_ne_none hlength hnode
    rwa [List.length_singleton] at hends
  unfold visitChild
  rw [Prog.run_bind, Prog.run_query]
  dsimp only [List.nil_append]
  -- a full degree is not visited
  by_cases hfull : (degreeNode sw ne degree).isFull = true
  · have hskip : ¬(0 + 1 < 3 ∧ ((root.at? [i]).any fun node => !node.isFull) = true) := by
      simp [hnode, hfull]
    rw [if_neg hskip, if_pos (Or.inr hfull)]
    rfl
  · have hvisit : 0 + 1 < 3 ∧ ((root.at? [i]).any fun node => !node.isFull) = true := by
      simp [hnode, hfull]
    rw [if_pos hvisit, Prog.run_bind, Prog.run_query]
    dsimp only
    rw [h.length_getLeaves hdivided]
    -- nor is any other when the degrees alone have used the leaves up
    by_cases hroom : rows sw ne * columns sw ne < k
    · rw [if_pos hroom, if_neg (not_or.mpr ⟨not_le.mpr hroom, hfull⟩)]
      have hlevel : 2 - 1 ≠ 0 := by decide
      exact run_tesselateNode_leaf hlevel hnode hcells
        (children_degreeNode degree) rfl
    · rw [if_neg hroom, if_pos (Or.inl (not_lt.mp hroom))]
      rfl

/-- There is room for the parts of a degree beside the other degrees. -/
theorem roomFor_iff (h : IsWhole sw ne i root) (hdivided : Divided sw ne)
    (hroom : rows sw ne * columns sw ne < k) (degree : ℤ × ℤ) :
    RoomFor k root (degreeNode sw ne degree) m ↔
      m = 0 ∨ rows sw ne * columns sw ne + m ≤ k + 1 := by
  unfold RoomFor
  rw [h.length_getLeaves hdivided, if_pos (children_degreeNode degree), and_iff_right hroom]

/-- **A degree that stays whole**, visited or not. -/
theorem visitChild (h : IsWhole sw ne i root) (hdivided : Divided sw ne)
    (hdegree : (degrees sw ne)[i]? = some degree) (hwhole : StaysWhole sw ne k degree) :
    IsWhole sw ne (i + 1)
      ((SpatialTesseler.visitChild k (tesselateNode sw ne k 2) 0 [] i).run root).2 := by
  rw [h.run_visitChild hdivided hdegree]
  split
  · exact h.succ
  · next hvisit =>
    rcases hwhole.resolve_left hvisit with hnone | hmany
    · -- the visit finds nothing
      have hempty : RoomFor k root (degreeNode sw ne degree) 0 := Or.inl rfl
      rw [hnone, List.length_nil, if_pos hempty, update_appendAll_nil]
      exact h.succ
    · -- the visit finds too many parts
      have hburst : ¬RoomFor k root (degreeNode sw ne degree)
          (parts sw ne 1 (degreeNode sw ne degree)).length := by
        rw [h.roomFor_iff hdivided (not_le.mp (not_or.mp hvisit).1)]
        omega
      rw [if_neg hburst]
      exact h.aggregate

/-- **A degree that is divided** has parts when the visit is over. -/
theorem hasParts_visitChild (h : IsWhole sw ne i root) (hdivided : Divided sw ne)
    (hdegree : (degrees sw ne)[i]? = some degree) (hwhole : ¬StaysWhole sw ne k degree) :
    HasParts i ((SpatialTesseler.visitChild k (tesselateNode sw ne k 2) 0 [] i).run root).2 := by
  obtain ⟨hvisit, hparts⟩ := not_or.mp hwhole
  rw [not_or, not_lt] at hparts
  obtain ⟨hsome, hroom⟩ := hparts
  have hfits := (h.roomFor_iff hdivided (not_le.mp (not_or.mp hvisit).1) degree).mpr (Or.inr hroom)
  rw [h.run_visitChild hdivided hdegree, if_neg hvisit, if_pos hfits]
  have hstart : HasParts i
      (root.update (appendAll (parts sw ne 1 (degreeNode sw ne degree))) [i]) := by
    refine ⟨appendAll (parts sw ne 1 (degreeNode sw ne degree)) (degreeNode sw ne degree), ?_, ?_⟩
    · rw [at?_update, h.at?_unvisited hdegree]
      rfl
    · unfold appendAll
      rw [children_degreeNode, List.nil_append]
      exact hsome
  -- the parts may be divided further, or aggregated, but they stay
  refine (keeps_visitChildren (fun j _ => ?_) _ hstart).run
  exact (survives_hasParts_below i j).keeps rfl

/-- Each visit returns, so that the next degree is visited after it. -/
theorem run_visitChildren_cons (h : IsWhole sw ne n root) (positions : List ℕ) :
    (SpatialTesseler.visitChildren k (tesselateNode sw ne k 2) 0 [] (n :: positions)).run root =
      (SpatialTesseler.visitChildren k (tesselateNode sw ne k 2) 0 [] positions).run
        ((SpatialTesseler.visitChild k (tesselateNode sw ne k 2) 0 [] n).run root).2 := by
  have hreturns : ((SpatialTesseler.visitChild k (tesselateNode sw ne k 2) 0 [] n).run root).1 =
      true := by
    refine returns_visitChild (I := IsDegrees (degrees sw ne)) (fun _ s hs hsome => ?_)
      h.toIsDegrees
    exact returns_child hs hsome
  rw [SpatialTesseler.visitChildren, Prog.run_bind, hreturns, if_pos rfl]

/-- The visits of degrees that stay whole. -/
theorem visitChildren (h : IsWhole sw ne n root) (hdivided : Divided sw ne)
    (hlength : n + m ≤ (degrees sw ne).length)
    (hwhole : ∀ degree ∈ degrees sw ne, StaysWhole sw ne k degree) :
    IsWhole sw ne (n + m) ((SpatialTesseler.visitChildren k (tesselateNode sw ne k 2) 0 []
      (List.range' n m)).run root).2 := by
  -- over the degrees left; the tree is whole up to the one visited
  induction m generalizing n root with
  | zero => exact h
  | succ m ih =>
    have hdegree : (degrees sw ne)[n]? = some (degrees sw ne)[n] :=
      List.getElem?_eq_getElem (by omega)
    have hnext := h.visitChild hdivided hdegree (hwhole _ (List.mem_of_getElem? hdegree))
    have hrest := ih hnext (by omega)
    rw [List.range'_succ, h.run_visitChildren_cons]
    rwa [Nat.add_assoc, Nat.add_comm 1] at hrest

/-- The first degree that does not stay whole has parts in the end. -/
theorem hasParts_visitChildren (h : IsWhole sw ne n root) (hdivided : Divided sw ne)
    (hlength : n + m ≤ (degrees sw ne).length)
    (hparts : ∃ i degree, (n ≤ i ∧ i < n + m) ∧ (degrees sw ne)[i]? = some degree ∧
      ¬StaysWhole sw ne k degree) :
    ∃ i, HasParts i ((SpatialTesseler.visitChildren k (tesselateNode sw ne k 2) 0 []
      (List.range' n m)).run root).2 := by
  induction m generalizing n root with
  | zero =>
    obtain ⟨i, -, ⟨hle, hlt⟩, -⟩ := hparts
    exact absurd hle (Nat.not_le.mpr hlt)
  | succ m ih =>
    have hdegree : (degrees sw ne)[n]? = some (degrees sw ne)[n] :=
      List.getElem?_eq_getElem (by omega)
    rw [List.range'_succ, h.run_visitChildren_cons]
    by_cases hwhole : StaysWhole sw ne k (degrees sw ne)[n]
    · -- then it is a later degree
      refine ih (h.visitChild hdivided hdegree hwhole) (by omega) ?_
      obtain ⟨i, degree, ⟨hle, hlt⟩, hi, hnot⟩ := hparts
      have hne : n ≠ i := by
        rintro rfl
        exact hnot (Option.some.inj (hdegree.symm.trans hi) ▸ hwhole)
      exact ⟨i, degree, ⟨by omega, by omega⟩, hi, hnot⟩
    · -- the visits of the degrees after this one leave its parts
      have hstart := h.hasParts_visitChild hdivided hdegree hwhole
      refine ⟨n, (keeps_visitChildren (fun j hj => ?_) _ hstart).run⟩
      have hne : j ≠ n := by
        have hle := (List.mem_range'_1.mp hj).1
        omega
      exact (survives_hasParts_other hne).keeps rfl

end IsWhole

/-- **No degree is divided** if all stay whole. -/
theorem isWhole_treeRoot (hdivided : Divided sw ne) (hlow : Low sw) (hends : RootEnds sw ne)
    (hwhole : ∀ degree ∈ degrees sw ne, StaysWhole sw ne k degree) :
    IsWhole sw ne (degrees sw ne).length (treeRoot sw ne k) := by
  have hstart := isWhole_degreesFound hdivided hlow hends
  have hend := hstart.visitChildren hdivided (Nat.zero_add _).le hwhole
  rwa [Nat.zero_add, ← hstart.length, ← List.range_eq_range', ← treeRoot_eq hdivided hlow hends,
    hstart.length] at hend

/-- **A degree is divided** if one does not stay whole. -/
theorem hasParts_treeRoot (hdivided : Divided sw ne) (hlow : Low sw) (hends : RootEnds sw ne)
    (hdegree : degree ∈ degrees sw ne) (hwhole : ¬StaysWhole sw ne k degree) :
    ∃ i, HasParts i (treeRoot sw ne k) := by
  have hstart := isWhole_degreesFound hdivided hlow hends
  obtain ⟨i, hi⟩ := List.getElem?_of_mem hdegree
  have hlt := (List.getElem?_eq_some_iff.mp hi).1
  have hend := hstart.hasParts_visitChildren hdivided (Nat.zero_add _).le
    ⟨i, degree, ⟨Nat.zero_le i, by omega⟩, hi, hwhole⟩
  rwa [← hstart.length, ← List.range_eq_range', ← treeRoot_eq hdivided hlow hends] at hend

end Whole

end SpatialTesseler

end OpenGeoBase
