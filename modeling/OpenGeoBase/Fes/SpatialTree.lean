import OpenGeoBase.Fes.SpatialNode

/-!
# Trees of nodes

A node of a tree that is changed in place is known by its path from the root, the positions in the
lists of children. To change it changes the root, and the root's leaves are counted: they become
more or fewer by as many as those of the node do (`length_getLeaves_update`). So a child more is a
leaf more at most, and a node that gives up its children adds none.
-/

namespace OpenGeoBase

namespace SpatialNode

/-- The node at the end of a path of positions in the lists of children. -/
def at? : List ℕ → SpatialNode → Option SpatialNode
  | [], node => some node
  | i :: path, node => node.children[i]?.bind (at? path)

/-- Changes the node at the end of a path. -/
def update (change : SpatialNode → SpatialNode) : List ℕ → SpatialNode → SpatialNode
  | [], node => change node
  | i :: path, node => { node with children := node.children.modify i (update change path) }

variable {f g : SpatialNode → SpatialNode} {path q : List ℕ} {i j : ℕ}
  {root node child : SpatialNode}

/-- Induction over a tree, with a hypothesis for each of the children. -/
@[elab_as_elim]
theorem induct {motive : SpatialNode → Prop}
    (node : ∀ node, (∀ child ∈ node.children, motive child) → motive node)
    (root : SpatialNode) : motive root :=
  node root fun child _hchild => induct node child
termination_by root
decreasing_by
  have hlt := List.sizeOf_lt_of_mem _hchild
  cases root
  simp only [SpatialNode.mk.sizeOf_spec] at hlt ⊢
  omega

/-! ### Paths -/

@[simp] theorem at?_nil (root : SpatialNode) : at? [] root = some root := rfl

@[simp] theorem at?_cons (i : ℕ) (path : List ℕ) (root : SpatialNode) :
    at? (i :: path) root = root.children[i]?.bind (at? path) := rfl

@[simp] theorem update_nil (f : SpatialNode → SpatialNode) (root : SpatialNode) :
    update f [] root = f root := rfl

/-- A change below a child is a change of this child. -/
theorem update_cons (f : SpatialNode → SpatialNode) (i : ℕ) (path : List ℕ) (root : SpatialNode) :
    update f (i :: path) root =
      { root with children := root.children.modify i (update f path) } := rfl

/-- To change a node makes no difference elsewhere, and where it stands the node is all that
counts. -/
theorem update_congr (h : ∀ node, root.at? path = some node → f node = g node) :
    update f path root = update g path root := by
  -- along the path: only the child it goes through is updated
  induction path generalizing root with
  | nil => exact h root rfl
  | cons i path ih =>
    have hchildren : root.children.modify i (update f path) =
        root.children.modify i (update g path) := by
      refine List.ext_getElem? fun j => ?_
      rw [List.getElem?_modify, List.getElem?_modify]
      cases hchild : root.children[j]? with
      | none => rfl
      | some child =>
        split
        · next hij =>
          subst hij
          refine congrArg some (ih fun node hnode => h node ?_)
          rw [at?_cons, hchild]
          exact hnode
        · rfl
    rw [update_cons, update_cons, hchildren]

/-- Changing nothing changes nothing. -/
theorem update_id (path : List ℕ) (root : SpatialNode) : update id path root = root := by
  induction path generalizing root with
  | nil => rfl
  | cons i path ih =>
    have hid : update id path = id := funext ih
    rw [update_cons, hid, List.modify_id]
    cases root
    rfl

theorem update_eq_self (h : ∀ node, root.at? path = some node → f node = node) :
    update f path root = root :=
  (update_congr h).trans (update_id path root)

/-- Two changes at one place are one. -/
theorem update_update (path : List ℕ) (root : SpatialNode) :
    update f path (update g path root) = update (f ∘ g) path root := by
  induction path generalizing root with
  | nil => rfl
  | cons i path ih =>
    have hcomp : update f path ∘ update g path = update (f ∘ g) path := funext ih
    rw [update_cons, update_cons, update_cons, List.modify_modify_eq, hcomp]

/-- A node with the one that is changed below it. -/
theorem at?_update_append (path q : List ℕ) (root : SpatialNode) :
    (update f (path ++ q) root).at? path = (root.at? path).map (update f q) := by
  induction path generalizing root with
  | nil => rfl
  | cons i path ih =>
    rw [List.cons_append, update_cons, at?_cons, at?_cons, List.getElem?_modify_eq]
    cases root.children[i]? with
    | none => rfl
    | some child => exact ih child

theorem at?_update (path : List ℕ) (root : SpatialNode) :
    (update f path root).at? path = (root.at? path).map f := by
  have h := at?_update_append (f := f) path [] root
  rwa [List.append_nil] at h

/-- Nodes below other children are not changed. -/
theorem at?_update_of_ne (h : i ≠ j) (path q : List ℕ) (root : SpatialNode) :
    (update f (i :: path) root).at? (j :: q) = root.at? (j :: q) := by
  change (root.children.modify i (update f path))[j]?.bind (at? q) = _
  rw [List.getElem?_modify_ne _ _ h]
  rfl

/-! ### Leaves -/

/-- The leaves of several nodes, one after the other. -/
theorem leavesOfAll_eq (nodes : List SpatialNode) :
    leavesOfAll nodes = nodes.flatMap getLeaves := by
  induction nodes with
  | nil => rfl
  | cons node nodes ih => rw [leavesOfAll, ih, List.flatMap_cons]

/-- A node without children is its own leaf. -/
theorem getLeaves_of_nil (h : node.children = []) : node.getLeaves = [node] := by
  cases node
  obtain rfl := h
  rfl

/-- The leaves of a node with children are theirs. -/
theorem getLeaves_of_ne_nil (h : node.children ≠ []) :
    node.getLeaves = node.children.flatMap getLeaves := by
  obtain ⟨_, _, _, children, _, _⟩ := node
  cases children with
  | nil => exact absurd rfl h
  | cons child children => rw [getLeaves, leavesOfAll_eq]

/-- A leaf below a child is a leaf of the node. -/
theorem mem_getLeaves_of_child {leaf : SpatialNode} (hchild : child ∈ node.children)
    (hleaf : leaf ∈ child.getLeaves) : leaf ∈ node.getLeaves := by
  rw [getLeaves_of_ne_nil (List.ne_nil_of_mem hchild)]
  exact List.mem_flatMap.mpr ⟨child, hchild, hleaf⟩

/-- Every node has a leaf. -/
theorem getLeaves_ne_nil (node : SpatialNode) : node.getLeaves ≠ [] := by
  induction node using induct with
  | node node ih =>
    by_cases h : node.children = []
    · rw [getLeaves_of_nil h]
      exact List.cons_ne_nil _ _
    · obtain ⟨child, hchild⟩ := List.exists_mem_of_ne_nil _ h
      obtain ⟨leaf, hleaf⟩ := List.exists_mem_of_ne_nil _ (ih child hchild)
      exact List.ne_nil_of_mem (mem_getLeaves_of_child hchild hleaf)

theorem length_getLeaves_pos (node : SpatialNode) : 0 < node.getLeaves.length :=
  List.length_pos_of_ne_nil (getLeaves_ne_nil node)

/-- The number of the leaves, from those of the children. -/
theorem length_getLeaves (h : node.children ≠ []) :
    node.getLeaves.length = (node.children.map fun child => child.getLeaves.length).sum := by
  rw [getLeaves_of_ne_nil h, List.length_flatMap]

/-- A node is added or removed in a sum where it is changed in the list. -/
theorem sum_modify (weight : SpatialNode → ℕ) {nodes : List SpatialNode}
    (h : nodes[i]? = some node) :
    ((nodes.modify i f).map weight).sum + weight node =
      (nodes.map weight).sum + weight (f node) := by
  -- over the list; stated as two sums, as weights are naturals
  induction nodes generalizing i with
  | nil => exact absurd h (by simp)
  | cons first nodes ih =>
    cases i with
    | zero =>
      obtain rfl := Option.some.inj h
      rw [List.modify_zero_cons, List.map_cons, List.map_cons, List.sum_cons, List.sum_cons]
      omega
    | succ i =>
      have hrest := ih h
      rw [List.modify_succ_cons, List.map_cons, List.map_cons, List.sum_cons, List.sum_cons]
      omega

/-- **Leaves become more or fewer** by as many as below the node that is changed. -/
theorem length_getLeaves_update (h : root.at? path = some node) :
    (update f path root).getLeaves.length + node.getLeaves.length =
      root.getLeaves.length + (f node).getLeaves.length := by
  -- along the path: the leaves of the other children stay
  induction path generalizing root with
  | nil =>
    obtain rfl := Option.some.inj h
    exact Nat.add_comm _ _
  | cons i path ih =>
    obtain ⟨child, hchild, hnode⟩ := Option.bind_eq_some_iff.mp h
    have hne : root.children ≠ [] := by
      intro hnil
      rw [hnil] at hchild
      exact absurd hchild (by simp)
    have hne' : (update f (i :: path) root).children ≠ [] := by
      intro hnil
      exact hne (List.length_eq_zero_iff.mp ((List.length_modify ..).symm.trans
        (List.length_eq_zero_iff.mpr hnil)))
    have hsum := sum_modify (f := update f path) (fun child => child.getLeaves.length) hchild
    have hbelow := ih hnode
    rw [length_getLeaves hne, length_getLeaves hne']
    change ((root.children.modify i (update f path)).map _).sum + _ = _
    omega

/-- A change adds to the tree what it adds to the node. -/
theorem length_getLeaves_update_le {n : ℕ}
    (h : ∀ node, (f node).getLeaves.length ≤ node.getLeaves.length + n) (path : List ℕ)
    (root : SpatialNode) :
    (update f path root).getLeaves.length ≤ root.getLeaves.length + n := by
  -- an update at a path that leads nowhere changes nothing
  cases hnode : root.at? path with
  | none =>
    have hnone : ∀ node, root.at? path = some node → f node = node := fun node h =>
      absurd (hnode.symm.trans h) (Option.some_ne_none node).symm
    rw [update_eq_self hnone]
    exact Nat.le_add_right _ _
  | some node =>
    have hcount := length_getLeaves_update (f := f) hnode
    have hle := h node
    omega

/-- A tree whose children have no children. -/
theorem length_getLeaves_flat (h : ∀ child ∈ node.children, child.children = []) :
    node.getLeaves.length = max 1 node.children.length := by
  -- a node without children is a leaf itself
  by_cases hnil : node.children = []
  · rw [getLeaves_of_nil hnil, hnil]
    rfl
  · have hone : node.children.map (fun child => child.getLeaves.length) =
        node.children.map fun _ => 1 :=
      List.map_congr_left fun child hchild => by rw [getLeaves_of_nil (h child hchild)]; rfl
    have hpos := List.length_pos_of_ne_nil hnil
    rw [length_getLeaves hnil, hone, List.map_const', List.sum_replicate_nat, mul_one]
    omega

/-! ### The methods that change a node -/

/-- A child more is a leaf more, if the node was none. -/
theorem length_getLeaves_appendChild (hleaf : child.children = []) :
    (node.appendChild child).getLeaves.length =
      if node.children = [] then 1 else node.getLeaves.length + 1 := by
  have hne : (node.appendChild child).children ≠ [] := by simp [appendChild]
  have hone : ({ child with father := true } : SpatialNode).getLeaves.length = 1 := by
    have hnil : ({ child with father := true } : SpatialNode).children = [] := hleaf
    rw [getLeaves_of_nil hnil, List.length_singleton]
  rw [length_getLeaves hne]
  unfold appendChild
  rw [List.map_append, List.sum_append, List.map_singleton, List.sum_singleton, hone]
  -- the first child takes the place of the node among the leaves
  split
  · next hnil => rw [hnil, List.map_nil, List.sum_nil]
  · next hsome => rw [length_getLeaves hsome]

/-- Appending adds one leaf at most. -/
theorem length_getLeaves_appendChild_le (hleaf : child.children = []) (node : SpatialNode) :
    (node.appendChild child).getLeaves.length ≤ node.getLeaves.length + 1 := by
  have hpos := length_getLeaves_pos node
  rw [length_getLeaves_appendChild hleaf]
  split
  · omega
  · exact le_rfl

/-- Aggregating a node adds no leaf. -/
theorem length_getLeaves_aggregate_le (node : SpatialNode) :
    node.aggregate.getLeaves.length ≤ node.getLeaves.length := by
  unfold aggregate
  split
  · rw [getLeaves_of_nil rfl, List.length_singleton]
    exact length_getLeaves_pos node
  · exact le_rfl

theorem perm_sortChildren (node : SpatialNode) : node.sortChildren.children.Perm node.children :=
  List.perm_insertionSort _ _

/-- Leaves are not sorted. -/
theorem sortChildren_of_flat (h : ∀ child ∈ node.children, child.children = []) :
    node.sortChildren = node := by
  have hsorted : node.children.insertionSort
      (fun o1 o2 => o1.children.length ≤ o2.children.length) = node.children := by
    refine List.Pairwise.insertionSort_eq (List.pairwise_of_forall_mem_list fun a ha b hb => ?_)
    rw [h a ha, h b hb]
  unfold sortChildren
  rw [hsorted]
  cases node
  rfl

/-- Sorting the children keeps the number of leaves. -/
theorem length_getLeaves_sortChildren (node : SpatialNode) :
    node.sortChildren.getLeaves.length = node.getLeaves.length := by
  have hperm := perm_sortChildren node
  by_cases h : node.children = []
  · rw [getLeaves_of_nil h, getLeaves_of_nil (List.perm_nil.mp (h ▸ hperm))]
    rfl
  · have h' : node.sortChildren.children ≠ [] := fun hnil => h (List.nil_perm.mp (hnil ▸ hperm))
    rw [length_getLeaves h, length_getLeaves h']
    exact (hperm.map _).sum_eq

end SpatialNode

end OpenGeoBase
