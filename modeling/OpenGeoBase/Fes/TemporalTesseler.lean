import OpenGeoBase.Fes.TemporalNode
import OpenGeoBase.Lib.Double
import OpenGeoBase.Lib.Grid

/-!
# The temporal tesseler

`tesselate` divides the interval of its head at the multiples of ten thousand, or of the first
smaller power of ten that has a multiple in it. What is shorter than that at the two ends is
divided further in the same way, down to single minutes. `aggregate` then rounds nodes until there
are at most `k` of them.
-/

namespace OpenGeoBase

namespace TemporalTesseler

open TemporalNode

/-! ### Division -/

/-- `step += Math.pow(10, level)`, a sum of doubles. -/
def plus (step pow : ℤ) : ℤ := Double.toLong (Double.round (Double.round step + pow))

/-- `(long)(step-Math.pow(10, level))` -/
def minus (step pow : ℤ) : ℤ := Double.toLong (Double.round (Double.round step - pow))

/-- A node is appended, if it is valid, and divided further, if it is not full. -/
def append (deeper : TemporalNode → Option TemporalNode) (head : TemporalNode) (start stop : ℤ) :
    Option TemporalNode :=
  let node := child start stop
  if node.isValid then
    (if node.isFull then some node else deeper node).map fun node =>
      { head with childs := put head.childs node }
  else some head

/-- The loop of `tesselate`; `none` when the fuel runs out. -/
def tesselateLoop (deeper : TemporalNode → Option TemporalNode) (pow : ℤ) :
    ℕ → ℤ → ℤ → TemporalNode → Option TemporalNode
  | 0, _, _, _ => none
  | fuel + 1, step, baseTime, head =>
    match head.nodeContains step with
    | .between => (append deeper head baseTime step).bind
        (tesselateLoop deeper pow fuel (plus step pow) step)
    | .after =>
      let prevStep := minus step pow
      if head.nodeContains prevStep = .between then append deeper head prevStep head.stopTime
      else some head
    | .before => tesselateLoop deeper pow fuel (plus step pow) baseTime head

section

variable (order : List TemporalNode → List TemporalNode) (fuel : ℕ)

/-- `tesselate(head, level)`, where `order` is the order in which a hash map goes through its
nodes. On level -1 the start would be divided by zero. -/
def tesselateHead : ℕ → TemporalNode → Option TemporalNode
  | 0, head =>
    (tesselateLoop some 1 fuel (head.startTime.tdiv 1 * 1) head.startTime head).bind fun head =>
      if head.childs.isEmpty then none else some { head with childs := order head.childs }
  | level + 1, head =>
    let pow := 10 ^ (level + 1)
    (tesselateLoop (tesselateHead level) pow fuel (head.startTime.tdiv pow * pow) head.startTime
      head).bind fun head =>
        if head.childs.isEmpty then tesselateHead level head
        else some { head with childs := order head.childs }

/-! ### Aggregation -/

section

variable (k : ℤ)

/-- What is done when there are too many nodes below the head: all of them are aggregated, and a
short head too. -/
def overflow (head : TemporalNode) : List TemporalNode :=
  let head := { head with childs := head.childs.map TemporalNode.aggregate }
  if k < head.childs.length ∧ head.stopTime - head.startTime < 10000 then [head.aggregate]
  else head.childs

/-- What comes after the loop of `aggregate`. -/
def aggregateEnd (head : TemporalNode) : List TemporalNode :=
  if head.getLeafList.length < k then head.getLeafList
  else if k < head.getFullCoveredChilds.length then overflow k head
  else head.getLeafList

/-- The loop of `aggregate`, where the level is one less than the number given here. -/
def aggregateLoop : ℕ → ℕ → TemporalNode → Option (List TemporalNode)
  | 0, _, _ => none
  | _ + 1, 0, head => some (aggregateEnd k head)
  | fuel + 1, level + 1, head =>
    if head.getLeafList.length ≤ k then some head.getLeafList
    else match head.aggregateNodeBestCoveredAtLevel level with
      | some head => aggregateLoop fuel (level + 1) head
      | none => aggregateLoop fuel level head

def aggregate (head : TemporalNode) : Option (List TemporalNode) :=
  if k < head.getFullCoveredChilds.length then some (overflow k head)
  else if head.getLeafList.length ≤ k then some head.getLeafList
  else aggregateLoop k fuel 5 head

end

def tesselate (startMinutes stopMinutes k : ℤ) : Option (List TemporalNode) :=
  let stopMinutes := if startMinutes = stopMinutes then long (stopMinutes + 1) else stopMinutes
  if stopMinutes < startMinutes then some []
  else
    (tesselateHead order fuel 4 ⟨startMinutes, stopMinutes, false, []⟩).bind (aggregate fuel k)

end

/-! ### Division without rounding -/

/-- The child for a piece of the interval of its father. -/
def piece (deeper : ℤ → ℤ → List TemporalNode) (p : ℤ × ℤ) : TemporalNode :=
  ⟨p.1, p.2, checkIsFull p.1 p.2, if checkIsFull p.1 p.2 then [] else deeper p.1 p.2⟩

/-- The children of a head, as whole numbers make them. -/
def tiling (order : List TemporalNode → List TemporalNode) : ℕ → ℤ → ℤ → List TemporalNode
  | 0, a, b => order ((Grid.cells 1 a b).map (piece fun _ _ => []))
  | level + 1, a, b =>
    if Grid.Cut (10 ^ (level + 1)) a b then
      order ((Grid.cells (10 ^ (level + 1)) a b).map (piece (tiling order level)))
    else tiling order level a b

/-- No step from a multiple of the width to the next one is rounded, on the way from `a` to `b`. -/
def Exact (w a b : ℤ) : Prop :=
  (∀ i, a / w ≤ i → i ≤ b / w → plus (i * w) w = (i + 1) * w) ∧
    minus ((b / w + 1) * w) w = b / w * w

/-- No step is rounded in the division of an interval. -/
def Unrounded : ℕ → ℤ → ℤ → Prop
  | 0, a, b => Exact 1 a b
  | level + 1, a, b => Exact (10 ^ (level + 1)) a b ∧
    if Grid.Cut (10 ^ (level + 1)) a b then
      ∀ p ∈ Grid.cells (10 ^ (level + 1)) a b, checkIsFull p.1 p.2 = false →
        Unrounded level p.1 p.2
    else Unrounded level a b

section Division

variable {deeper : TemporalNode → Option TemporalNode} {f : ℤ → ℤ → List TemporalNode}
  {w a b : ℤ} {full : Bool} {childs : List TemporalNode}

/-- A piece is appended. -/
theorem append_eq {p : ℤ × ℤ} (hlt : p.1 < p.2)
    (hdeeper : checkIsFull p.1 p.2 = false →
      deeper (child p.1 p.2) = some ⟨p.1, p.2, false, f p.1 p.2⟩)
    (hnew : ∀ other ∈ childs, other.startTime < p.1) :
    append deeper ⟨a, b, full, childs⟩ p.1 p.2 = some ⟨a, b, full, childs ++ [piece f p]⟩ := by
  -- no child starts where this one does, so nothing is replaced
  have hput : ∀ node : TemporalNode, node.startTime = p.1 → put childs node = childs ++ [node] := by
    intro node hnode
    unfold put
    rw [List.filter_eq_self.mpr]
    intro other hmem
    exact decide_eq_true (Or.inl ((hnew other hmem).trans_eq hnode.symm).ne)
  have hvalid : (child p.1 p.2).isValid = true := by
    have hne : ¬p.2 - p.1 = 0 := by omega
    simp [isValid, child, hne]
  have hisFull : (child p.1 p.2).isFull = checkIsFull p.1 p.2 := rfl
  unfold append piece
  dsimp only
  rw [if_pos hvalid, hisFull]
  -- a full piece is put as it is, another one is tesselated first
  cases hfull : checkIsFull p.1 p.2 with
  | true =>
    rw [if_pos rfl, if_pos rfl, Option.map_some, hput _ rfl, child, hfull]
  | false =>
    rw [if_neg (by simp), if_neg (by simp), hdeeper hfull, Option.map_some, hput _ rfl]

/-- An empty piece is not appended. -/
theorem append_self (deeper : TemporalNode → Option TemporalNode) (head : TemporalNode) (t : ℤ) :
    append deeper head t t = some head := by
  unfold append
  dsimp only
  rw [if_neg (by simp [isValid, child])]

/-- When a time is within a node. -/
theorem nodeContains_between {t : ℤ} (hle : a ≤ t) (hle' : t ≤ b) :
    nodeContains ⟨a, b, full, childs⟩ t = .between := by
  unfold nodeContains
  rw [if_neg (not_lt.mpr hle), if_neg (not_lt.mpr hle')]

theorem nodeContains_before {t : ℤ} (hlt : t < a) :
    nodeContains ⟨a, b, full, childs⟩ t = .before := by
  unfold nodeContains
  rw [if_pos hlt]

theorem nodeContains_after {t : ℤ} (hle : a ≤ t) (hlt : b < t) :
    nodeContains ⟨a, b, full, childs⟩ t = .after := by
  unfold nodeContains
  rw [if_neg (not_lt.mpr hle), if_pos hlt]

section Steps

variable (hw : 0 < w) (hexact : Exact w a b)
include hw hexact

/-- The step that leads behind the interval: what remains up to its end is the last piece. -/
theorem tesselateLoop_last (hcut : Grid.Cut w a b)
    (hdeeper : ∀ p ∈ Grid.cells w a b, checkIsFull p.1 p.2 = false →
      deeper (child p.1 p.2) = some ⟨p.1, p.2, false, f p.1 p.2⟩)
    (hnew : ∀ other ∈ childs, other.startTime < b / w * w) (fuel : ℕ) :
    tesselateLoop deeper w (fuel + 1) ((b / w + 1) * w) (b / w * w) ⟨a, b, full, childs⟩ =
      some ⟨a, b, full, childs ++
        (Grid.cellsFrom w a b (b / w) ((b - 1) / w + 1 - b / w).toNat).map (piece f)⟩ := by
  have hfloor := Int.ediv_mul_le b hw.ne'
  have hceil := Int.lt_ediv_add_one_mul_self b hw
  have hab : a ≤ b := le_trans hcut hfloor
  have hmono : a / w ≤ b / w := Int.ediv_le_ediv hw hab
  unfold tesselateLoop
  rw [nodeContains_after (hab.trans hceil.le) hceil]
  dsimp only
  rw [hexact.2, if_pos (nodeContains_between hcut hfloor)]
  by_cases hend : b / w * w = b
  · -- the last step is the end of the interval
    have hnone : ((b - 1) / w + 1 - b / w).toNat = 0 := by
      have hlast : (b - 1) / w < b / w := by
        rw [Int.ediv_lt_iff_lt_mul hw]
        omega
      omega
    rw [hend, append_self, hnone, Grid.cellsFrom, List.map_nil, List.append_nil]
  -- the end lies behind the last step, and one piece is left up to it
  · have hone : ((b - 1) / w + 1 - b / w).toNat = 1 := by
      have hlast : (b - 1) / w = b / w := by
        rw [Int.ediv_eq_iff_of_pos hw]
        have hring : (b / w + 1) * w = b / w * w + w := by ring
        omega
      omega
    have hcell : Grid.cell w a b (b / w) = (b / w * w, b) := by
      unfold Grid.cell
      rw [max_eq_right hcut, min_eq_left hceil.le]
    have hmem : Grid.cell w a b (b / w) ∈ Grid.cells w a b :=
      (Grid.mem_cells hw).mpr ⟨b / w, by omega, lt_of_le_of_ne hfloor hend, rfl⟩
    rw [hcell] at hmem
    rw [hone, Grid.cellsFrom, Grid.cellsFrom, hcell]
    exact append_eq (p := (b / w * w, b)) (lt_of_le_of_ne hfloor hend) (hdeeper _ hmem) hnew

/-- A step inside the interval appends the piece between the step before and this one. -/
theorem tesselateLoop_round
    (hdeeper : ∀ p ∈ Grid.cells w a b, checkIsFull p.1 p.2 = false →
      deeper (child p.1 p.2) = some ⟨p.1, p.2, false, f p.1 p.2⟩)
    {j : ℤ} (hlt : a / w < j) (hle : j ≤ b / w)
    (hnew : ∀ other ∈ childs, other.startTime < max a ((j - 1) * w)) (fuel : ℕ) :
    tesselateLoop deeper w (fuel + 1) (j * w) (max a ((j - 1) * w)) ⟨a, b, full, childs⟩ =
      tesselateLoop deeper w fuel ((j + 1) * w) (j * w)
        ⟨a, b, full, childs ++ [piece f (max a ((j - 1) * w), j * w)]⟩ := by
  have hafter : a < j * w := (Int.ediv_lt_iff_lt_mul hw).mp hlt
  have hle' : j * w ≤ b := (Int.le_ediv_iff_mul_le hw).mp hle
  have hring : (j - 1) * w = j * w - w := by ring
  have hcell : Grid.cell w a b (j - 1) = (max a ((j - 1) * w), j * w) := by
    unfold Grid.cell
    rw [sub_add_cancel, min_eq_right hle']
  have hmem : Grid.cell w a b (j - 1) ∈ Grid.cells w a b :=
    (Grid.mem_cells hw).mpr ⟨j - 1, by omega, by omega, rfl⟩
  rw [hcell] at hmem
  have happend : append deeper ⟨a, b, full, childs⟩ (max a ((j - 1) * w)) (j * w) = _ :=
    append_eq (p := (max a ((j - 1) * w), j * w)) (max_lt hafter (by omega)) (hdeeper _ hmem) hnew
  rw [tesselateLoop, nodeContains_between hafter.le hle']
  dsimp only
  rw [happend, Option.bind_some, hexact.1 j hlt.le hle]

/-- The loop appends the pieces from the last step on. -/
theorem tesselateLoop_of_cut (hcut : Grid.Cut w a b)
    (hdeeper : ∀ p ∈ Grid.cells w a b, checkIsFull p.1 p.2 = false →
      deeper (child p.1 p.2) = some ⟨p.1, p.2, false, f p.1 p.2⟩)
    {n fuel : ℕ} {j : ℤ} (hj : j + n = b / w + 1) (hlt : a / w < j) (hfuel : n < fuel)
    (hnew : ∀ other ∈ childs, other.startTime < max a ((j - 1) * w)) :
    tesselateLoop deeper w fuel (j * w) (max a ((j - 1) * w)) ⟨a, b, full, childs⟩ =
      some ⟨a, b, full, childs ++
        (Grid.cellsFrom w a b (j - 1) ((b - 1) / w + 1 - (j - 1)).toNat).map (piece f)⟩ := by
  have hafter : a < j * w := (Int.ediv_lt_iff_lt_mul hw).mp hlt
  obtain ⟨fuel, rfl⟩ := Nat.exists_eq_succ_of_ne_zero (Nat.ne_of_gt (Nat.zero_lt_of_lt hfuel))
  -- over the steps left, with the step at `j * w`
  induction n generalizing j fuel childs with
  | zero =>
    obtain rfl : j = b / w + 1 := by simpa using hj
    have hprev : max a ((b / w + 1 - 1) * w) = b / w * w := by
      rw [add_sub_cancel_right]
      exact max_eq_right hcut
    rw [hprev] at hnew ⊢
    rw [add_sub_cancel_right]
    exact tesselateLoop_last hw hexact hcut hdeeper hnew fuel
  | succ n ih =>
    have hle : j * w ≤ b := (Int.le_ediv_iff_mul_le hw).mp (by omega)
    have hring : (j - 1) * w = j * w - w := by ring
    have hbase : max a ((j - 1) * w) < j * w := max_lt hafter (by omega)
    have hcell : Grid.cell w a b (j - 1) = (max a ((j - 1) * w), j * w) := by
      unfold Grid.cell
      rw [sub_add_cancel, min_eq_right hle]
    have hnext : max a ((j + 1 - 1) * w) = j * w := by
      rw [add_sub_cancel_right]
      exact max_eq_right hafter.le
    have hcount : ((b - 1) / w + 1 - (j - 1)).toNat = ((b - 1) / w + 1 - j).toNat + 1 := by
      have hlast : j - 1 ≤ (b - 1) / w := by
        rw [Int.le_ediv_iff_mul_le hw]
        omega
      omega
    -- the child put in this round starts before the next one
    have hnew' : ∀ other ∈ childs ++ [piece f (max a ((j - 1) * w), j * w)],
        other.startTime < max a ((j + 1 - 1) * w) := by
      rw [hnext]
      intro other hother
      rcases List.mem_append.mp hother with hother | hother
      · exact (hnew other hother).trans hbase
      · rw [List.mem_singleton.mp hother]
        exact hbase
    obtain ⟨fuel, rfl⟩ := Nat.exists_eq_succ_of_ne_zero (by omega : fuel ≠ 0)
    have hrest := ih (j := j + 1) (by omega) (by omega) hnew'
      ((Int.ediv_lt_iff_lt_mul hw).mp (by omega)) fuel (by omega)
    rw [hnext, add_sub_cancel_right] at hrest
    rw [tesselateLoop_round hw hexact hdeeper hlt (by omega) hnew, hrest, hcount, Grid.cellsFrom,
      hcell, sub_add_cancel, List.map_cons, List.append_assoc]
    rfl

/-- **The loop of the division** makes a child of each piece if there is a multiple of its step in
the interval, else it makes none. -/
theorem tesselateLoop_eq (hab : a < b)
    (hdeeper : Grid.Cut w a b → ∀ p ∈ Grid.cells w a b, checkIsFull p.1 p.2 = false →
      deeper (child p.1 p.2) = some ⟨p.1, p.2, false, f p.1 p.2⟩)
    {fuel : ℕ} (hfuel : (b - a).toNat + 4 ≤ fuel) :
    tesselateLoop deeper w fuel (a / w * w) a ⟨a, b, full, []⟩ =
      some ⟨a, b, full, if Grid.Cut w a b then (Grid.cells w a b).map (piece f) else []⟩ := by
  have hfloor := Int.ediv_mul_le a hw.ne'
  have hceil := Int.lt_ediv_add_one_mul_self a hw
  have hmono : a / w ≤ b / w := Int.ediv_le_ediv hw hab.le
  have hsteps : b / w - a / w ≤ b - a + 1 := by
    by_contra hgt
    have hmul := mul_le_mul_of_nonneg_left (by omega : 1 ≤ w) (by omega : 0 ≤ b / w - a / w - 1)
    have hring : (b / w - a / w - 1) * w = b / w * w - (a / w + 1) * w := by ring
    have hlast := Int.ediv_mul_le b hw.ne'
    omega
  obtain ⟨fuel, rfl⟩ : ∃ n, fuel = n + 1 := ⟨fuel - 1, by omega⟩
  have hbase : max a ((a / w + 1 - 1) * w) = a := by
    rw [add_sub_cancel_right]
    exact max_eq_left hfloor
  -- the first step leads behind the start, and nothing has been appended by then
  have hfirst : tesselateLoop deeper w (fuel + 1) (a / w * w) a ⟨a, b, full, []⟩ =
      tesselateLoop deeper w fuel ((a / w + 1) * w) a ⟨a, b, full, []⟩ := by
    rw [tesselateLoop]
    rcases lt_or_eq_of_le hfloor with hlt | heq
    · rw [nodeContains_before hlt]
      dsimp only
      rw [hexact.1 _ le_rfl hmono]
    · rw [nodeContains_between heq.ge (heq.trans_le hab.le)]
      dsimp only
      rw [heq, append_self, Option.bind_some, ← hexact.1 _ le_rfl hmono, heq]
  rw [hfirst]
  by_cases hcut : Grid.Cut w a b
  · have hloop : tesselateLoop deeper w fuel ((a / w + 1) * w) (max a ((a / w + 1 - 1) * w))
        ⟨a, b, full, []⟩ = _ :=
      tesselateLoop_of_cut hw hexact hcut (hdeeper hcut) (n := (b / w - a / w).toNat) (by omega)
        (by omega) (by omega) (by simp)
    have hcount : (b - 1) / w + 1 - a / w = Grid.count w a b := by
      unfold Grid.count
      ring
    rw [hbase, add_sub_cancel_right, hcount, List.nil_append] at hloop
    rw [hloop, if_pos hcut]
    rfl
  · -- the first step leads behind the end, and from there back in front of the start
    have hlt : b / w * w < a := not_le.mp hcut
    have heq : b / w = a / w := by
      have hle : b / w ≤ a / w := (Int.le_ediv_iff_mul_le hw).mpr hlt.le
      omega
    have hend := Int.lt_ediv_add_one_mul_self b hw
    obtain ⟨fuel, rfl⟩ : ∃ n, fuel = n + 1 := ⟨fuel - 1, by omega⟩
    rw [tesselateLoop, ← heq, nodeContains_after (by omega) hend]
    dsimp only
    rw [hexact.2, nodeContains_before hlt, if_neg (by simp), if_neg hcut]

end Steps

/-- There is a piece. -/
theorem isEmpty_map_piece (hw : 0 < w) (hab : a < b) :
    ((Grid.cells w a b).map (piece f)).isEmpty = false := by
  obtain ⟨p, hp, -⟩ := Grid.exists_mem_cells hw le_rfl hab
  rw [List.isEmpty_eq_false_iff]
  exact List.ne_nil_of_mem (List.mem_map_of_mem hp)

/-- **The division of a head**, if nothing is rounded, ends and gives the tiling. -/
theorem tesselateHead_eq (order : List TemporalNode → List TemporalNode) {level fuel : ℕ}
    (hstart : 0 ≤ a) (hab : a < b) (h : Unrounded level a b) (hfuel : (b - a).toNat + 4 ≤ fuel) :
    tesselateHead order fuel level ⟨a, b, full, []⟩ =
      some ⟨a, b, full, tiling order level a b⟩ := by
  -- over the levels: a piece that is not full is tesselated one level below
  induction level generalizing a b full with
  | zero =>
    have hcut : Grid.Cut 1 a b := Grid.cut_of_le one_pos (by omega)
    have hloop : tesselateLoop some 1 fuel (a / 1 * 1) a ⟨a, b, full, []⟩ =
        some ⟨a, b, full,
          if Grid.Cut 1 a b then (Grid.cells 1 a b).map (piece fun _ _ => []) else []⟩ := by
      refine tesselateLoop_eq one_pos h hab (fun _ p _ hp => ?_) hfuel
      rw [child, hp]
    unfold tesselateHead
    dsimp only
    rw [Int.tdiv_eq_ediv_of_nonneg hstart, hloop, Option.bind_some, if_pos hcut,
      if_neg (by rw [isEmpty_map_piece one_pos hab]; simp)]
    rfl
  | succ level ih =>
    obtain ⟨hexact, hrest⟩ := h
    have hpos : (0 : ℤ) < 10 ^ (level + 1) := by positivity
    have hdeeper : Grid.Cut (10 ^ (level + 1)) a b → ∀ p ∈ Grid.cells (10 ^ (level + 1)) a b,
        checkIsFull p.1 p.2 = false → tesselateHead order fuel level (child p.1 p.2) =
          some ⟨p.1, p.2, false, tiling order level p.1 p.2⟩ := by
      intro hcut p hp hfull
      obtain ⟨hle, hlt, hle', -⟩ := Grid.of_mem_cells hpos hab hp
      rw [if_pos hcut] at hrest
      rw [child, hfull]
      exact ih (hstart.trans hle) hlt (hrest p hp hfull) (by omega)
    have hloop : tesselateLoop (tesselateHead order fuel level) (10 ^ (level + 1)) fuel
        (a / 10 ^ (level + 1) * 10 ^ (level + 1)) a ⟨a, b, full, []⟩ = _ :=
      tesselateLoop_eq hpos hexact hab hdeeper hfuel
    unfold tesselateHead tiling
    dsimp only
    rw [Int.tdiv_eq_ediv_of_nonneg hstart, hloop, Option.bind_some]
    by_cases hcut : Grid.Cut (10 ^ (level + 1)) a b
    · rw [if_pos hcut, if_pos hcut, if_neg (by rw [isEmpty_map_piece hpos hab]; simp)]
    -- no multiple in the interval: the level puts nothing and the next one is tried
    · rw [if_neg hcut] at hrest
      rw [if_neg hcut, if_neg hcut, if_pos List.isEmpty_nil]
      exact ih hstart hab hrest hfuel

end Division

end TemporalTesseler

end OpenGeoBase
