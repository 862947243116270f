import OpenGeoBase.Fes.SpatialDegrees

/-!
# The budget of a tessellation

The tree of a box is to have at most `k` leaves on the whole way of the recursion, which is to come
to an end. Below the degrees this is so: a child more is a leaf more at most, and no child comes
without a look at the number of leaves (`survives_withinBudget`).

The degrees themselves come without such a look. That they find room was tested beforehand, on a
product of two `int`s, which may have wrapped around; and the loops over them never end if the box
goes on too far. Where neither is the case the budget is kept (`keepsBudget_iff`).
-/

namespace OpenGeoBase

open Text AtomicCalls JavaInt

namespace SpatialTesseler

open SpatialNode

variable {sw ne : SpatialPoint} {k : ℤ} {cell : ℤ × ℤ} {root : SpatialNode}

/-- The tree has at most `k` leaves. -/
def WithinBudget (k : ℤ) (superNode : SpatialNode) : Prop := (superNode.getLeaves.length : ℤ) ≤ k

/-- The recursion returns, the root never has more than `k` leaves, and no more names are
returned. -/
structure KeepsBudget (sw ne : SpatialPoint) (k : ℤ) : Prop where
  returns : ∃ superNode,
    (tesselateNode sw ne k 3 []).Reaches (.ofCorners sw ne 0) (.ret true) superNode
  leaves : ∀ rest superNode,
    (tesselateNode sw ne k 3 []).Reaches (.ofCorners sw ne 0) rest superNode →
      WithinBudget k superNode
  names : ∃ names, tesselateBox sw ne k = some names ∧ (names.length : ℤ) ≤ k

/-- There is room for the degrees that are found. -/
theorem always_appendCells_zero (hk : 1 ≤ k) {cells : List (ℤ × ℤ)}
    (hflat : ∀ child ∈ root.children, child.children = [])
    (hroom : ((root.children.length + (found sw ne 0 cells).length : ℕ) : ℤ) ≤ k) :
    (appendCells sw ne k 0 [] cells).Always (WithinBudget k) root := by
  have hnow : WithinBudget k root := by
    unfold WithinBudget
    rw [length_getLeaves_flat hflat]
    omega
  -- over the cells: each node found becomes one more leaf, and the bound counts those still to come
  induction cells generalizing root with
  | nil => exact hnow
  | cons cell cells ih =>
    rw [found_cons] at hroom
    unfold appendCells
    split
    · next hfound =>
      rw [if_pos hfound, List.length_cons] at hroom
      refine Prog.always_query_bind.mpr ⟨hnow, ?_⟩
      -- at level 0 the code appends without looking at `k`
      rw [if_pos (Or.inl rfl)]
      refine Prog.always_modify_bind.mpr ⟨hnow, ?_⟩
      have hflat' : ∀ child ∈ (root.appendChild (cellNode sw ne 0 cell).2).children,
          child.children = [] := by
        intro child hchild
        rcases List.mem_append.mp hchild with hchild | hchild
        · exact hflat child hchild
        · obtain rfl := List.mem_singleton.mp hchild
          exact children_cellNode
      have hlength : (root.appendChild (cellNode sw ne 0 cell).2).children.length =
          root.children.length + 1 := List.length_append
      have hnext : WithinBudget k (root.appendChild (cellNode sw ne 0 cell).2) := by
        unfold WithinBudget
        rw [length_getLeaves_flat hflat', hlength]
        omega
      have hroom' : (((root.appendChild (cellNode sw ne 0 cell).2).children.length +
          (found sw ne 0 cells).length : ℕ) : ℤ) ≤ k := by
        rw [hlength]
        omega
      exact ih hflat' hroom' hnext
    · next hfound =>
      rw [if_neg hfound] at hroom
      exact ih hflat hroom hnow

/-- Below the degrees each child is counted before it is appended. -/
theorem survives_withinBudget {path : List ℕ} (hpath : path ≠ []) :
    Survives sw ne k (WithinBudget k) path where
  append q _ _ _ cell _ _ _ _ _ _ s _ hroom := by
    have hbelow : (path ++ q).length ≠ 0 := by
      rw [List.length_append]
      have hpos := List.length_pos_of_ne_nil hpath
      omega
    -- so the number was looked at just before
    have hlt := hroom.resolve_left hbelow
    have hleaf : (cellNode sw ne (path ++ q).length cell).2.children = [] := children_cellNode
    have hle := length_getLeaves_update_le (length_getLeaves_appendChild_le hleaf) (path ++ q) s
    unfold WithinBudget
    omega
  aggregate q s hs := by
    have hle := length_getLeaves_update_le (n := 0) length_getLeaves_aggregate_le (path ++ q) s
    unfold WithinBudget at hs ⊢
    omega
  sort q s hs := by
    have hle := length_getLeaves_update_le (n := 0)
      (fun node => (length_getLeaves_sortChildren node).le) (path ++ q) s
    unfold WithinBudget at hs ⊢
    omega

/-- The root before the loops. -/
theorem flat_ofCorners : ∀ child ∈ (SpatialNode.ofCorners sw ne 0).children, child.children = [] :=
  fun _ hchild => absurd hchild List.not_mem_nil

/-- **The budget is kept** if there is room for the degrees that are found. -/
theorem always_tesselateNode (hk : 1 ≤ k) {corners : List (ℤ × ℤ)}
    (hcorners : cells 0 (.ofCorners sw ne 0) = some corners)
    (hroom : ((found sw ne 0 corners).length : ℤ) ≤ k) :
    (tesselateNode sw ne k 3 []).Always (WithinBudget k) (.ofCorners sw ne 0) := by
  have hdegrees : (appendCells sw ne k 0 [] corners).Always (WithinBudget k)
      (.ofCorners sw ne 0) := by
    refine always_appendCells_zero hk flat_ofCorners ?_
    have hnone : (SpatialNode.ofCorners sw ne 0).children.length = 0 := rfl
    omega
  unfold tesselateNode
  refine Prog.always_query_bind.mpr ⟨hdegrees.now, ?_⟩
  rw [at?_nil, Option.bind_some, Nat.sub_self, hcorners]
  refine Prog.always_bind.mpr ⟨hdegrees, ?_⟩
  have hbudget := hdegrees.run
  rw [run_appendCells_zero] at hbudget ⊢
  have hsorted : WithinBudget k
      (appendAll (found sw ne 0 corners) (.ofCorners sw ne 0)).sortChildren := by
    unfold WithinBudget
    rw [length_getLeaves_sortChildren]
    exact hbudget
  refine Prog.always_modify_bind.mpr ⟨hbudget, Prog.always_query_bind.mpr ⟨hsorted, ?_⟩⟩
  -- below a degree the budget is an invariant
  refine keeps_visitChildren (fun i _ => ?_) _ hsorted
  exact (survives_withinBudget (by simp)).keeps rfl

/-- The degrees have to find room, for they are appended without a look. -/
theorem length_found_le_of_always {corners : List (ℤ × ℤ)}
    (hcorners : cells 0 (.ofCorners sw ne 0) = some corners)
    (h : (tesselateNode sw ne k 3 []).Always (WithinBudget k) (.ofCorners sw ne 0)) :
    ((found sw ne 0 corners).length : ℤ) ≤ k := by
  unfold tesselateNode at h
  have hcells := (Prog.always_query_bind.mp h).2
  rw [at?_nil, Option.bind_some, Nat.sub_self, hcorners] at hcells
  have hbudget := (Prog.always_bind.mp hcells).1.run
  rw [run_appendCells_zero] at hbudget
  have hflat : ∀ child ∈ (appendAll (found sw ne 0 corners) (.ofCorners sw ne 0)).children,
      child.children = [] := fun child hchild => children_of_mem_found hchild
  unfold WithinBudget at hbudget
  rw [length_getLeaves_flat hflat] at hbudget
  have hlength : (appendAll (found sw ne 0 corners) (.ofCorners sw ne 0)).children.length =
      (found sw ne 0 corners).length := rfl
  omega

/-- With the loops over the degrees at an end, the budget is a matter of what they find. -/
theorem keepsBudget_iff_found (hlow : Low sw) (hk : 1 ≤ k)
    (hpath : wrap (width sw ne * height sw ne) < k) (hends : RootEnds sw ne)
    {corners : List (ℤ × ℤ)} (hcorners : cells 0 (.ofCorners sw ne 0) = some corners) :
    KeepsBudget sw ne k ↔ ((found sw ne 0 corners).length : ℤ) ≤ k := by
  constructor
  · intro h
    exact length_found_le_of_always hcorners (Prog.always_iff.mpr h.leaves)
  · intro hroom
    -- with room for what is found at level 0 the deeper levels check the number of leaves
    have halways := always_tesselateNode hk hcorners hroom
    have hreturns := returns_of_ends (k := k) hlow hends
    have hreaches := Prog.reaches_ret (tesselateNode sw ne k 3 []) (.ofCorners sw ne 0)
    rw [hreturns] at hreaches
    refine ⟨⟨_, hreaches⟩, Prog.always_iff.mp halways, leafNames (treeRoot sw ne k), ?_, ?_⟩
    · rw [tesselateBox_of_tree hpath, tree_of_ends hlow hends]
      rfl
    · unfold leafNames
      rw [List.length_map]
      exact halways.run

/-- **The budget is kept** if and only if the loops over the degrees end, and a box that is divided
has no more than `k` degrees. -/
theorem keepsBudget_iff (hlow : Low sw) (hk : 1 ≤ k)
    (hpath : wrap (width sw ne * height sw ne) < k) :
    KeepsBudget sw ne k ↔
      RootEnds sw ne ∧ (Divided sw ne → rows sw ne * columns sw ne ≤ k) := by
  by_cases hends : RootEnds sw ne
  · rw [and_iff_right hends]
    by_cases h : Divided sw ne
    -- every degree of the box is found, and their number is the area
    · have hfound : ((found sw ne 0 (degrees sw ne)).length : ℤ) =
          rows sw ne * columns sw ne := by
        have hpos := h.rows_pos
        rw [found_degrees h.2, List.length_map, length_degrees]
        push_cast
        rw [Int.toNat_of_nonneg hpos.1.le, Int.toNat_of_nonneg hpos.2.le]
      rw [keepsBudget_iff_found hlow hk hpath hends (h.cells_zero hlow hends), hfound]
      exact ⟨fun hle _ => hle, fun hle => hle h⟩
    · -- nothing is found
      refine iff_of_true ?_ fun hdivided => absurd hdivided h
      obtain ⟨corners, hcorners, hnone⟩ := found_of_not_divided hlow hends h
      rw [keepsBudget_iff_found hlow hk hpath hends hcorners, hnone]
      exact (by omega : (0 : ℤ) ≤ k)
  -- the loop over the degrees never ends, so there are no names
  · refine iff_of_false (fun h => ?_) fun h => hends h.1
    obtain ⟨names, hnames, -⟩ := h.names
    rw [tesselateBox_of_tree hpath, tree_of_endless hlow hends] at hnames
    exact absurd hnames.symm (Option.some_ne_none names)

/-- A box over parts of six degrees. -/
theorem keepsBudget_six : KeepsBudget ⟨83 / 2, 123 / 10⟩ ⟨427 / 10, 29 / 2⟩ 30 :=
  (keepsBudget_iff ⟨by decide +kernel, by decide +kernel⟩ (by decide) (by decide +kernel)).mpr
    ⟨by decide +kernel, fun _ => by decide +kernel⟩

/-- A box inside the last degree of which there are hundredths among the `int`s, but not all: its
loop never ends. -/
theorem not_keepsBudget_endless :
    ¬KeepsBudget ⟨85899345 / 4, 1 / 4⟩ ⟨85899347 / 4, 3 / 4⟩ 2 := by
  intro h
  obtain ⟨names, hnames, -⟩ := h.names
  rw [tesselateBox_of_tree (by decide +kernel), tree_of_endless
    ⟨by decide +kernel, by decide +kernel⟩ (by decide +kernel)] at hnames
  exact absurd hnames.symm (Option.some_ne_none names)

end SpatialTesseler

end OpenGeoBase
