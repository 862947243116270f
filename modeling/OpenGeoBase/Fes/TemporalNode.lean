import OpenGeoBase.Lib.Grid
import Mathlib.Data.List.Forall2
import Mathlib.Data.List.MinMax
import Mathlib.Data.Nat.Log
import Mathlib.Tactic.IntervalCases

/-!
# Nodes of the temporal tessellation

A `TemporalNode` is an interval of minutes with the nodes it has been divided into. The hash map of
these is never changed once the tessellation has filled it, so the children of a node are listed
here as the map goes through them.
-/

namespace OpenGeoBase

/-- `TimeContained` -/
inductive TimeContained where
  | before
  | between
  | after
  deriving DecidableEq

/-- The minutes from `startTime` up to `stopTime`, and the nodes they are divided into. -/
structure TemporalNode where
  startTime : ℤ
  stopTime : ℤ
  isFull : Bool
  childs : List TemporalNode

namespace TemporalNode

/-- A number stored in a `long`. -/
def long (n : ℤ) : ℤ := n.bmod (2 ^ 64)

/-- `checkIsFull`, for a node that has a father. -/
def checkIsFull (startTime stopTime : ℤ) : Bool :=
  stopTime - startTime = 1 ∨ stopTime - startTime = 10 ∨ stopTime - startTime = 100 ∨
    stopTime - startTime = 1000 ∨ stopTime - startTime = 10000

/-- The node that `appendChild` makes. -/
def child (start stop : ℤ) : TemporalNode :=
  { startTime := start, stopTime := stop, isFull := checkIsFull start stop, childs := [] }

def isValid (node : TemporalNode) : Bool := !(node.stopTime - node.startTime = 0)

/-- `childs.put`, under the key that is made of the two ends of the node. -/
def put (childs : List TemporalNode) (node : TemporalNode) : List TemporalNode :=
  childs.filter (fun other =>
    other.startTime ≠ node.startTime ∨ other.stopTime ≠ node.stopTime) ++ [node]

def nodeContains (node : TemporalNode) (timeMinutes : ℤ) : TimeContained :=
  if timeMinutes < node.startTime then .before
  else if node.stopTime < timeMinutes then .after
  else .between

/-! ### Lists of nodes -/

def getFullCoveredChilds (node : TemporalNode) : List TemporalNode :=
  node.childs.filter fun child => child.isFull

def getPartialCoveredChilds (node : TemporalNode) : List TemporalNode :=
  node.childs.filter fun child => !child.isFull

mutual

def getLeafList : TemporalNode → List TemporalNode
  | ⟨_, _, _, childs⟩ => childs.filter (fun child => child.isFull) ++ leafListOfPartial childs

/-- The loop of `getLeafList`. -/
def leafListOfPartial : List TemporalNode → List TemporalNode
  | [] => []
  | node :: childs =>
    if node.isFull then leafListOfPartial childs
    else getLeafList node ++ leafListOfPartial childs

end

def getPartialCoveredNodesAtLevel (head : TemporalNode) : ℕ → List TemporalNode
  | 0 => head.getPartialCoveredChilds
  | level + 1 => head.childs.flatMap fun node => node.getPartialCoveredNodesAtLevel level

/-! ### Aggregation -/

/-- The length to which an interval is rounded. -/
def aggregateBase (length : ℤ) : ℤ :=
  let base := length
  let base := if 1 < base ∧ base < 10 then 10 else base
  let base := if 10 < base ∧ base < 100 then 100 else base
  let base := if 100 < base ∧ base < 1000 then 1000 else base
  if 1000 < base ∧ base < 10000 then 10000 else base

def aggregate (node : TemporalNode) : TemporalNode :=
  let base := aggregateBase (node.stopTime - node.startTime)
  { startTime :=
      if node.startTime.tmod base ≠ 0 then node.startTime - node.startTime.tmod base
      else node.startTime
    stopTime :=
      if node.stopTime.tmod base ≠ 0 then
        long (node.stopTime - node.stopTime.tmod base + base)
      else node.stopTime
    isFull := true
    childs := [] }

/-- The place of the node that comes first when the nodes are sorted by the number of their
children. The largest number is first, and the sort is stable. -/
def bestCovered (nodes : List TemporalNode) : ℕ :=
  nodes.findIdx fun node => nodes.all fun other => other.childs.length ≤ node.childs.length

/-- Changes what is the `i`-th of some things, of which each element of a list has a number. -/
def updateNth {α : Type} (number : α → ℕ) (change : ℕ → α → α) : ℕ → List α → List α
  | _, [] => []
  | i, x :: xs =>
    if i < number x then change i x :: xs else x :: updateNth number change (i - number x) xs

/-- Aggregates the `i`-th of the nodes of a level that are not full. -/
def aggregateNth : ℕ → ℕ → List TemporalNode → List TemporalNode
  | 0, i, childs =>
    updateNth (fun node => if node.isFull then 0 else 1) (fun _ node => node.aggregate) i childs
  | level + 1, i, childs =>
    updateNth (fun node => (node.getPartialCoveredNodesAtLevel level).length)
      (fun i node => { node with childs := aggregateNth level i node.childs }) i childs

/-- The head after an aggregation; `none` if there is no node to aggregate. -/
def aggregateNodeBestCoveredAtLevel (head : TemporalNode) (level : ℕ) : Option TemporalNode :=
  let nodes := head.getPartialCoveredNodesAtLevel level
  if nodes.isEmpty then none
  else some { head with childs := aggregateNth level (bestCovered nodes) head.childs }

/-! ### Decimal tiles -/

/-- The node is a decimal tile: one, ten, … or ten thousand minutes, from a multiple of that. -/
def IsTile (node : TemporalNode) : Prop :=
  ∃ j ≤ 4, node.stopTime = node.startTime + 10 ^ j ∧ (10 : ℤ) ^ j ∣ node.startTime

/-- The node lies in a tile, and one of its ends is an end of the tile. -/
structure Anchored (limit : ℤ) (node : TemporalNode) : Prop where
  nonneg : 0 ≤ node.startTime
  lt : node.startTime < node.stopTime
  le : node.stopTime ≤ limit
  anchor : ∃ j ≤ 4, node.stopTime - node.startTime ≤ 10 ^ j ∧
    ((10 : ℤ) ^ j ∣ node.startTime ∨ (10 : ℤ) ^ j ∣ node.stopTime)

section Tiles

variable {length limit : ℤ} {node : TemporalNode}

/-- A time within 63 bits is not wrapped. -/
theorem long_eq_self {n : ℤ} (h : 0 ≤ n) (hlt : n < 2 ^ 63) : long n = n := by
  unfold long
  refine Int.bmod_eq_of_le ?_ ?_
  all_goals omega

/-- A length up to ten thousand is rounded to the first power of ten that is not less. -/
theorem aggregateBase_eq (hpos : 0 < length) (hle : length ≤ 10000) :
    ∃ j ≤ 4, aggregateBase length = 10 ^ j ∧ length ≤ 10 ^ j ∧
      ∀ i : ℕ, length ≤ 10 ^ i → j ≤ i := by
  have hmin : ∀ {j : ℕ}, (10 : ℤ) ^ j < length → ∀ i : ℕ, length ≤ 10 ^ i → j + 1 ≤ i := by
    intro j hlow i hi
    exact (pow_lt_pow_iff_right₀ (by norm_num : (1 : ℤ) < 10)).mp (hlow.trans_le hi)
  -- one of the five comparisons of the code holds first
  have hcases : length ≤ 10 ^ 0 ∨ 10 ^ 0 < length ∧ length ≤ 10 ^ 1 ∨
      10 ^ 1 < length ∧ length ≤ 10 ^ 2 ∨ 10 ^ 2 < length ∧ length ≤ 10 ^ 3 ∨
        10 ^ 3 < length ∧ length ≤ 10 ^ 4 := by omega
  rcases hcases with h | ⟨hlow, h⟩ | ⟨hlow, h⟩ | ⟨hlow, h⟩ | ⟨hlow, h⟩
  · exact ⟨0, by norm_num, by unfold aggregateBase; grind, h, fun i _ => Nat.zero_le i⟩
  · exact ⟨1, by norm_num, by unfold aggregateBase; grind, h, hmin hlow⟩
  · exact ⟨2, by norm_num, by unfold aggregateBase; grind, h, hmin hlow⟩
  · exact ⟨3, by norm_num, by unfold aggregateBase; grind, h, hmin hlow⟩
  · exact ⟨4, by norm_num, by unfold aggregateBase; grind, h, hmin hlow⟩

/-- An aggregated node is rounded to the grid. -/
theorem aggregate_eq {base : ℤ} (hbase : aggregateBase (node.stopTime - node.startTime) = base)
    (hpos : 0 < base) (hstart : 0 ≤ node.startTime) (hstop : 0 ≤ node.stopTime)
    (hlong : Grid.up base node.stopTime < 2 ^ 63) :
    node.aggregate = ⟨Grid.down base node.startTime, Grid.up base node.stopTime, true, []⟩ := by
  have hup := Grid.up_eq hpos (b := node.stopTime)
  have hle := Grid.le_up hpos node.stopTime
  unfold aggregate
  dsimp only
  rw [hbase, Int.tmod_eq_emod_of_nonneg hstart, Int.tmod_eq_emod_of_nonneg hstop, Grid.down_eq]
  congr 1
  -- an end that is no multiple is rounded up, any other one stays
  split
  · next hne =>
    rw [if_pos hne] at hup
    rw [← hup, long_eq_self (hstop.trans hle) hlong]
  · next heq => rw [hup, if_neg heq]

/-- **Aggregation gives a tile** around the node, if the node has an end of that tile. -/
theorem Anchored.aggregate (h : Anchored limit node) (hdvd : (10 : ℤ) ^ 4 ∣ limit)
    (hlong : limit < 2 ^ 63) :
    node.aggregate.IsTile ∧ Anchored limit node.aggregate ∧ node.aggregate.isFull = true ∧
      node.aggregate.startTime ≤ node.startTime ∧ node.stopTime ≤ node.aggregate.stopTime := by
  obtain ⟨i, hi, hle, hends⟩ := h.anchor
  have hlt := h.lt
  have hnonneg := h.nonneg
  have hlength : node.stopTime - node.startTime ≤ 10000 :=
    hle.trans ((pow_le_pow_right₀ (by norm_num) hi).trans_eq (by norm_num))
  obtain ⟨j, hj, hbase, hlej, hmin⟩ := aggregateBase_eq (sub_pos.mpr hlt) hlength
  have hpos : (0 : ℤ) < 10 ^ j := by positivity
  have hlimit : Grid.up (10 ^ j) node.stopTime ≤ limit :=
    Grid.up_le hpos ((pow_dvd_pow 10 hj).trans hdvd) h.le
  have heq := aggregate_eq hbase hpos hnonneg (hnonneg.trans hlt.le) (hlimit.trans_lt hlong)
  -- the end that is on the wider grid is on the narrower one too
  have hdvdj : (10 : ℤ) ^ j ∣ 10 ^ i := pow_dvd_pow 10 (hmin i hle)
  have hcount := Grid.count_eq_one hpos hlt hlej (hends.imp hdvdj.trans hdvdj.trans)
  have hdiff := Grid.up_sub_down (w := 10 ^ j) (a := node.startTime) (b := node.stopTime)
  rw [hcount, one_mul] at hdiff
  have hdown : (10 : ℤ) ^ j ∣ Grid.down (10 ^ j) node.startTime := Dvd.intro_left _ rfl
  rw [heq]
  refine ⟨⟨j, hj, by dsimp only; omega, hdown⟩, ⟨Grid.down_nonneg hpos hnonneg, ?_, hlimit, j, hj,
    hdiff.le, Or.inl hdown⟩, rfl, Grid.down_le hpos _, Grid.le_up hpos _⟩
  dsimp only
  omega

end Tiles

/-! ### Trees of nodes -/

/-- Each of the minutes from `a` up to `b` lies in one of the nodes. -/
def Covers (nodes : List TemporalNode) (a b : ℤ) : Prop :=
  ∀ t, a ≤ t → t < b → ∃ node ∈ nodes, node.startTime ≤ t ∧ t < node.stopTime

/-- A full node is a tile; another one is covered by its children, and these are sound. -/
inductive Sound (limit : ℤ) : TemporalNode → Prop where
  | tile {node : TemporalNode} (hfull : node.isFull = true) (h : Anchored limit node)
      (htile : node.IsTile) : Sound limit node
  | split {node : TemporalNode} (hfull : node.isFull = false) (h : Anchored limit node)
      (hcovers : Covers node.childs node.startTime node.stopTime)
      (hchilds : ∀ child ∈ node.childs, Sound limit child) : Sound limit node

section Trees

variable {limit a b : ℤ} {node : TemporalNode} {nodes : List TemporalNode}

/-- A sound node is anchored. -/
theorem Sound.anchored (h : Sound limit node) : Anchored limit node := by
  cases h with
  | tile _ h => exact h
  | split _ h => exact h

theorem Sound.isTile (h : Sound limit node) (hfull : node.isFull = true) : node.IsTile := by
  cases h with
  | tile _ _ htile => exact htile
  | split hfull' => exact absurd (hfull.symm.trans hfull') (by simp)

/-! ### Leaves -/

/-- The leaves are the full children, then those of the partial ones. -/
theorem getLeafList_eq (node : TemporalNode) :
    node.getLeafList = node.getFullCoveredChilds ++ leafListOfPartial node.childs := by
  cases node
  rw [getLeafList]
  rfl

/-- A leaf of the partial nodes is a leaf of one of them. -/
theorem mem_leafListOfPartial {leaf : TemporalNode} : leaf ∈ leafListOfPartial nodes ↔
    ∃ node ∈ nodes, node.isFull = false ∧ leaf ∈ node.getLeafList := by
  -- over the children: the full ones are passed by
  induction nodes with
  | nil => simp [leafListOfPartial]
  | cons node nodes ih =>
    unfold leafListOfPartial
    split
    · next hfull =>
      rw [ih]
      simp [hfull]
    · next hfull =>
      rw [List.mem_append, ih]
      simp [hfull]

/-- What is in the list of leaves, one child at a time. -/
theorem mem_getLeafList {leaf : TemporalNode} : leaf ∈ node.getLeafList ↔
    ∃ child ∈ node.childs, child.isFull = true ∧ leaf = child ∨
      child.isFull = false ∧ leaf ∈ child.getLeafList := by
  rw [getLeafList_eq, List.mem_append, mem_leafListOfPartial, getFullCoveredChilds,
    List.mem_filter]
  constructor
  · rintro (⟨hmem, hfull⟩ | ⟨child, hmem, hleaf⟩)
    · exact ⟨leaf, hmem, Or.inl ⟨hfull, rfl⟩⟩
    · exact ⟨child, hmem, Or.inr hleaf⟩
  · rintro ⟨child, hmem, ⟨hfull, rfl⟩ | hleaf⟩
    · exact Or.inl ⟨hmem, hfull⟩
    · exact Or.inr ⟨child, hmem, hleaf⟩

/-- The leaves cover what the children cover. -/
theorem covers_getLeafList_of (hcovers : Covers node.childs a b)
    (h : ∀ child ∈ node.childs, child.isFull = false →
      Covers child.getLeafList child.startTime child.stopTime) :
    Covers node.getLeafList a b := by
  intro t hle hlt
  obtain ⟨child, hmem, hle', hlt'⟩ := hcovers t hle hlt
  cases hfull : child.isFull with
  | true => exact ⟨child, mem_getLeafList.mpr ⟨child, hmem, Or.inl ⟨hfull, rfl⟩⟩, hle', hlt'⟩
  | false =>
    obtain ⟨leaf, hleaf, hin⟩ := h child hmem hfull t hle' hlt'
    exact ⟨leaf, mem_getLeafList.mpr ⟨child, hmem, Or.inr ⟨hfull, hleaf⟩⟩, hin⟩

/-- The leaves of a sound node cover its time. -/
theorem Sound.covers_getLeafList (h : Sound limit node) (hfull : node.isFull = false) :
    Covers node.getLeafList node.startTime node.stopTime := by
  induction h with
  | tile hfull' => exact absurd (hfull'.symm.trans hfull) (by simp)
  | split _ _ hcovers _ ih =>
    exact covers_getLeafList_of hcovers fun child hmem hchild => ih child hmem hchild

/-- **The leaves of sound nodes cover** what these cover. -/
theorem covers_getLeafList (hcovers : Covers node.childs a b)
    (h : ∀ child ∈ node.childs, Sound limit child) : Covers node.getLeafList a b :=
  covers_getLeafList_of hcovers fun child hmem hfull => (h child hmem).covers_getLeafList hfull

/-- The leaves of a sound node are tiles. -/
theorem Sound.isTile_of_mem (h : Sound limit node) (hfull : node.isFull = false)
    {leaf : TemporalNode} (hleaf : leaf ∈ node.getLeafList) : leaf.IsTile := by
  induction h with
  | tile hfull' => exact absurd (hfull'.symm.trans hfull) (by simp)
  | split _ _ _ hchilds ih =>
    obtain ⟨child, hmem, ⟨hchild, rfl⟩ | ⟨hchild, hleaf⟩⟩ := mem_getLeafList.mp hleaf
    · exact (hchilds leaf hmem).isTile hchild
    · exact ih child hmem hchild hleaf

theorem isTile_of_mem_getLeafList (h : ∀ child ∈ node.childs, Sound limit child)
    {leaf : TemporalNode} (hleaf : leaf ∈ node.getLeafList) : leaf.IsTile := by
  obtain ⟨child, hmem, ⟨hchild, rfl⟩ | ⟨hchild, hleaf⟩⟩ := mem_getLeafList.mp hleaf
  · exact (h leaf hmem).isTile hchild
  · exact (h child hmem).isTile_of_mem hchild hleaf

/-- There is a leaf at least for each child. -/
theorem length_childs_le_getLeafList (h : ∀ child ∈ node.childs, Sound limit child) :
    node.childs.length ≤ node.getLeafList.length := by
  have hleaves : ∀ nodes : List TemporalNode, (∀ child ∈ nodes, Sound limit child) →
      nodes.length ≤ (nodes.filter fun child => child.isFull).length +
        (leafListOfPartial nodes).length := by
    intro nodes hsound
    induction nodes with
    | nil => simp
    | cons child nodes ih =>
      have hrest := ih fun child hmem => hsound child (List.mem_cons_of_mem _ hmem)
      have hchild := hsound child List.mem_cons_self
      unfold leafListOfPartial
      cases hfull : child.isFull with
      | true =>
        simp only [List.filter_cons, hfull, if_true, List.length_cons]
        omega
      | false =>
        -- the first minute of the child lies in one of its leaves
        obtain ⟨leaf, hleaf, -⟩ := hchild.covers_getLeafList hfull child.startTime le_rfl
          hchild.anchored.lt
        have hpos := List.length_pos_of_mem hleaf
        simp only [List.filter_cons, hfull, Bool.false_eq_true, if_false, List.length_cons,
          List.length_append]
        omega
  rw [getLeafList_eq, List.length_append]
  exact hleaves node.childs h

/-- If all children are full, they are the leaves. -/
theorem getLeafList_of_partial_eq_nil (h : node.getPartialCoveredChilds = []) :
    node.getLeafList = node.childs ∧ node.getFullCoveredChilds = node.childs := by
  -- without a partial child every child is a full one
  have hfull : ∀ child ∈ node.childs, child.isFull = true := by
    intro child hmem
    by_contra hne
    have hin : child ∈ node.getPartialCoveredChilds :=
      List.mem_filter.mpr ⟨hmem, by simpa using hne⟩
    rw [h] at hin
    exact List.not_mem_nil hin
  have hchilds : node.getFullCoveredChilds = node.childs := List.filter_eq_self.mpr hfull
  have hrest : leafListOfPartial node.childs = [] := by
    refine List.eq_nil_iff_forall_not_mem.mpr fun leaf hleaf => ?_
    obtain ⟨child, hmem, hchild, -⟩ := mem_leafListOfPartial.mp hleaf
    exact absurd ((hfull child hmem).symm.trans hchild) (by simp)
  rw [getLeafList_eq, hchilds, hrest, List.append_nil]
  exact ⟨rfl, rfl⟩

end Trees

/-! ### Changing a node in a tree -/

section Update

variable {α : Type} {number : α → ℕ} {change : ℕ → α → α} {xs : List α}

/-- What the change does to one element, it does to the list. -/
theorem forall₂_updateNth {R : α → α → Prop} (hrefl : ∀ x ∈ xs, R x x)
    (h : ∀ x ∈ xs, ∀ i, R x (change i x)) (i : ℕ) :
    List.Forall₂ R xs (updateNth number change i xs) := by
  -- over the list: the change falls into one place, and the others are related to themselves
  induction xs generalizing i with
  | nil => exact List.Forall₂.nil
  | cons x xs ih =>
    have hrefl' : ∀ y ∈ xs, R y y := fun y hy => hrefl y (List.mem_cons_of_mem x hy)
    unfold updateNth
    split
    · exact List.Forall₂.cons (h x List.mem_cons_self i)
        (List.forall₂_same.mpr hrefl')
    · exact List.Forall₂.cons (hrefl x List.mem_cons_self)
        (ih hrefl' (fun y hy => h y (List.mem_cons_of_mem x hy)) _)

/-- If the change makes the number of its element smaller, the sum gets smaller. -/
theorem sum_updateNth_lt (h : ∀ x ∈ xs, ∀ i < number x, number (change i x) < number x) {i : ℕ}
    (hi : i < (xs.map number).sum) :
    ((updateNth number change i xs).map number).sum < (xs.map number).sum := by
  -- over the list: the changed number goes down, and no other one moves
  induction xs generalizing i with
  | nil => exact absurd hi (Nat.not_lt_zero i)
  | cons x xs ih =>
    rw [List.map_cons, List.sum_cons] at hi ⊢
    unfold updateNth
    split
    · next hlt =>
      have hx := h x List.mem_cons_self i hlt
      rw [List.map_cons, List.sum_cons]
      omega
    · next hge =>
      have hrest : i - number x < (xs.map number).sum := by omega
      have hxs := ih (fun y hy => h y (List.mem_cons_of_mem x hy)) hrest
      rw [List.map_cons, List.sum_cons]
      omega

end Update

section Grow

variable {limit a b : ℤ} {node : TemporalNode} {nodes nodes' : List TemporalNode}

/-- The second node is sound, and the first one lies in it. -/
structure Grows (limit : ℤ) (node node' : TemporalNode) : Prop where
  sound : Sound limit node'
  start_le : node'.startTime ≤ node.startTime
  le_stop : node.stopTime ≤ node'.stopTime

/-- A sound node has grown to itself. -/
theorem Grows.refl (h : Sound limit node) : Grows limit node node := ⟨h, le_rfl, le_rfl⟩

/-- Nodes that grow still cover what they covered. -/
theorem Covers.grow (hcovers : Covers nodes a b) (h : List.Forall₂ (Grows limit) nodes nodes') :
    Covers nodes' a b := by
  intro t hle hlt
  obtain ⟨node, hmem, hle', hlt'⟩ := hcovers t hle hlt
  obtain ⟨i, hi, rfl⟩ := List.getElem_of_mem hmem
  have hi' : i < nodes'.length := by rwa [← h.length_eq]
  have hgrow := h.get hi hi'
  exact ⟨nodes'.get ⟨i, hi'⟩, List.get_mem _ _, hgrow.start_le.trans hle',
    hlt'.trans_le hgrow.le_stop⟩

/-- What the nodes have grown to is sound. -/
theorem sound_of_grow (h : List.Forall₂ (Grows limit) nodes nodes') :
    ∀ node ∈ nodes', Sound limit node := by
  induction h with
  | nil => simp
  | cons hnode _ ih =>
    intro node hmem
    rcases List.mem_cons.mp hmem with rfl | hmem
    · exact hnode.sound
    · exact ih node hmem

variable (hdvd : (10 : ℤ) ^ 4 ∣ limit) (hlong : limit < 2 ^ 63)
include hdvd hlong

/-- An aggregated node is sound, and it has grown. -/
theorem Sound.grows_aggregate (h : Sound limit node) : Grows limit node node.aggregate := by
  obtain ⟨htile, hanchored, hfull, hstart, hstop⟩ := h.anchored.aggregate hdvd hlong
  exact ⟨Sound.tile hfull hanchored htile, hstart, hstop⟩

/-- **Aggregation of one node** in sound nodes keeps them sound; they grow, if they change. -/
theorem grow_aggregateNth (level i : ℕ) (h : ∀ node ∈ nodes, Sound limit node) :
    List.Forall₂ (Grows limit) nodes (aggregateNth level i nodes) := by
  -- over the levels between: only one child of a node changes, and it grows
  induction level generalizing i nodes with
  | zero =>
    exact forall₂_updateNth (fun node hmem => Grows.refl (h node hmem))
      (fun node hmem _ => (h node hmem).grows_aggregate hdvd hlong) i
  | succ level ih =>
    unfold aggregateNth
    refine forall₂_updateNth (fun node hmem => Grows.refl (h node hmem)) ?_ i
    intro node hmem i
    refine ⟨?_, le_rfl, le_rfl⟩
    -- a tile has no children to change, a split node gets them back in order
    cases h node hmem with
    | tile hfull ha htile =>
      exact Sound.tile hfull ⟨ha.nonneg, ha.lt, ha.le, ha.anchor⟩ htile
    | split hfull ha hcovers hchilds =>
      have hgrow := ih i hchilds
      exact Sound.split hfull ⟨ha.nonneg, ha.lt, ha.le, ha.anchor⟩ (hcovers.grow hgrow)
        (sound_of_grow hgrow)

end Grow

/-- The partial children, counted one by one. -/
theorem length_getPartialCoveredChilds (head : TemporalNode) :
    head.getPartialCoveredChilds.length =
      (head.childs.map fun node => if node.isFull then 0 else 1).sum := by
  unfold getPartialCoveredChilds
  induction head.childs with
  | nil => rfl
  | cons node nodes ih =>
    rw [List.map_cons, List.sum_cons, ← ih]
    cases hfull : node.isFull with
    | true => simp [hfull]
    | false => simp [hfull, Nat.add_comm]

/-- **An aggregation leaves one node less** on its level that is not full. -/
theorem length_aggregateNth_lt {head : TemporalNode} {level i : ℕ}
    (hi : i < (head.getPartialCoveredNodesAtLevel level).length) :
    (getPartialCoveredNodesAtLevel { head with childs := aggregateNth level i head.childs }
      level).length < (head.getPartialCoveredNodesAtLevel level).length := by
  -- over the levels: an aggregated node is full and no longer counted
  induction level generalizing head i with
  | zero =>
    unfold getPartialCoveredNodesAtLevel at hi ⊢
    rw [length_getPartialCoveredChilds] at hi ⊢
    rw [length_getPartialCoveredChilds]
    refine sum_updateNth_lt (fun node _ i hlt => ?_) hi
    rw [if_pos (show node.aggregate.isFull = true from rfl)]
    omega
  | succ level ih =>
    unfold getPartialCoveredNodesAtLevel at hi ⊢
    rw [List.length_flatMap] at hi ⊢
    rw [List.length_flatMap]
    exact sum_updateNth_lt (fun node _ i hlt => ih hlt) hi

/-- There is a node with the most children. -/
theorem bestCovered_lt {nodes : List TemporalNode} (h : nodes ≠ []) :
    bestCovered nodes < nodes.length := by
  obtain ⟨best, hbest⟩ : ∃ best, List.argmax (fun node => node.childs.length) nodes = some best :=
    Option.ne_none_iff_exists'.mp (fun hnone => h (List.argmax_eq_none.mp hnone))
  refine List.findIdx_lt_length.mpr ⟨best, List.argmax_mem hbest, ?_⟩
  rw [List.all_eq_true]
  intro other hmem
  exact decide_eq_true
    (List.le_of_mem_argmax (f := fun node : TemporalNode => node.childs.length) hmem hbest)

end TemporalNode

end OpenGeoBase
