import OpenGeoBase.Fes.TemporalTesseler

/-!
# What the temporal tesseler returns

`Math.pow` makes the steps of the division sums of doubles. From 2^53 minutes on such a sum can be
rounded, and a step of one minute then leads nowhere: the division does not end
(`tesselate_stuck`). Here is what is returned if no step is rounded (`Unrounded`), as for all
minutes up to 2^53 - 10000 (`unrounded_of_le`).

The children of the head are the pieces of its interval (`sound_tiling`), and aggregation keeps
them sound. If there are more than `k` of them, all are aggregated, and the head too when it is
short. Else the loop goes on until there are at most `k` leaves. That is all that can come out
(`exists_outcome`), so the minutes are covered (`tesselate_covers`) and the bound is kept
(`length_tesselate_le`). All nodes are decimal tiles, but for an aggregated head across the border
of two tiles (`tesselate_isTile_iff`).
-/

namespace OpenGeoBase

namespace TemporalTesseler

open TemporalNode

/-! ### The tiling -/

/-- The level on which the head is divided: there is a multiple of its step in the interval. -/
def gridLevel : ℕ → ℤ → ℤ → ℕ
  | 0, _, _ => 0
  | level + 1, a, b => if Grid.Cut (10 ^ (level + 1)) a b then level + 1 else gridLevel level a b

/-- The number of the children of the head. -/
def childCount (startMinutes stopMinutes : ℤ) : ℤ :=
  Grid.count (10 ^ gridLevel 4 startMinutes stopMinutes) startMinutes stopMinutes

/-- A node is full if its length is a power of ten up to the fourth. -/
theorem checkIsFull_iff {a b : ℤ} : checkIsFull a b = true ↔ ∃ j ≤ 4, b - a = 10 ^ j := by
  unfold checkIsFull
  rw [decide_eq_true_iff]
  -- The source lists the five lengths.
  constructor
  · rintro (h | h | h | h | h)
    · exact ⟨0, by norm_num, h⟩
    · exact ⟨1, by norm_num, h⟩
    · exact ⟨2, by norm_num, h⟩
    · exact ⟨3, by norm_num, h⟩
    · exact ⟨4, by norm_num, h⟩
  · rintro ⟨j, hj, h⟩
    interval_cases j
    all_goals norm_num at h
    all_goals omega

section Tiling

variable {order : List TemporalNode → List TemporalNode}
  (horder : ∀ nodes, (order nodes).Perm nodes) {f : ℤ → ℤ → List TemporalNode} {level : ℕ}
  {limit a b : ℤ}

/-- A piece of a grid that has a multiple in the interval is sound. -/
theorem sound_piece (hlevel : level ≤ 4) (hstart : 0 ≤ a) (hab : a < b) (hlimit : b ≤ limit)
    (hcut : Grid.Cut (10 ^ level) a b) {p : ℤ × ℤ} (hp : p ∈ Grid.cells (10 ^ level) a b)
    (hf : checkIsFull p.1 p.2 = false →
      Covers (f p.1 p.2) p.1 p.2 ∧ ∀ node ∈ f p.1 p.2, Sound limit node) :
    Sound limit (piece f p) := by
  have hpos : (0 : ℤ) < 10 ^ level := by positivity
  obtain ⟨hle, hlt, hle', hlength⟩ := Grid.of_mem_cells hpos hab hp
  have hends := Grid.dvd_of_mem_cells hpos hcut hp
  have hanchored : Anchored limit (piece f p) :=
    ⟨hstart.trans hle, hlt, hle'.trans hlimit, level, hlevel, hlength, hends⟩
  cases hfull : checkIsFull p.1 p.2 with
  | true =>
    refine Sound.tile hfull hanchored ?_
    -- the length divides the width of the grid, so it divides the start as it does the other end
    obtain ⟨j, hj, heq⟩ := checkIsFull_iff.mp hfull
    have hjlevel : j ≤ level :=
      (pow_le_pow_iff_right₀ (by norm_num : (1 : ℤ) < 10)).mp (heq.symm.trans_le hlength)
    have hdvd : (10 : ℤ) ^ j ∣ 10 ^ level := pow_dvd_pow 10 hjlevel
    have hstop : p.2 = p.1 + 10 ^ j := by omega
    refine ⟨j, hj, hstop, ?_⟩
    rcases hends with h | h
    · exact hdvd.trans h
    · have hdvd' := hdvd.trans h
      rw [hstop] at hdvd'
      exact (Int.dvd_add_left dvd_rfl).mp hdvd'
  | false =>
    obtain ⟨hcovers, hsound⟩ := hf hfull
    have hchilds : (piece f p).childs = f p.1 p.2 := by
      unfold piece
      dsimp only
      rw [hfull, if_neg (by simp)]
    refine Sound.split hfull hanchored ?_ ?_
    · rw [hchilds]
      exact hcovers
    · rw [hchilds]
      exact hsound

include horder

/-- The pieces cover the interval, in any order. -/
theorem covers_pieces (f : ℤ → ℤ → List TemporalNode) {w : ℤ} (hw : 0 < w) :
    Covers (order ((Grid.cells w a b).map (piece f))) a b := by
  intro t hle hlt
  obtain ⟨p, hp, hin⟩ := Grid.exists_mem_cells hw hle hlt
  exact ⟨piece f p, (horder _).mem_iff.mpr (List.mem_map_of_mem hp), hin⟩

/-- **The tiling** is sound, covers the interval, and has as many nodes as the grid has cells. -/
theorem sound_tiling (hlevel : level ≤ 4) (hstart : 0 ≤ a) (hab : a < b) (hlimit : b ≤ limit) :
    (∀ node ∈ tiling order level a b, Sound limit node) ∧ Covers (tiling order level a b) a b ∧
      ((tiling order level a b).length : ℤ) = Grid.count (10 ^ gridLevel level a b) a b := by
  have hlength : ∀ {w : ℤ} (f : ℤ → ℤ → List TemporalNode) {a b : ℤ}, 0 < w → a < b →
      ((order ((Grid.cells w a b).map (piece f))).length : ℤ) = Grid.count w a b := by
    intro w f a b hw hab
    rw [(horder _).length_eq, List.length_map, Grid.length_cells hw hab]
  have hmem : ∀ {w : ℤ} {f : ℤ → ℤ → List TemporalNode} {a b : ℤ} {node : TemporalNode},
      node ∈ order ((Grid.cells w a b).map (piece f)) → ∃ p ∈ Grid.cells w a b, piece f p = node :=
    fun hnode => List.mem_map.mp ((horder _).mem_iff.mp hnode)
  induction level generalizing a b with
  | zero =>
    refine ⟨fun node hnode => ?_, covers_pieces horder _ one_pos, hlength _ one_pos hab⟩
    obtain ⟨p, hp, rfl⟩ := hmem hnode
    have hcut : Grid.Cut (10 ^ 0) a b := Grid.cut_of_le (by norm_num) (by omega)
    refine sound_piece (by norm_num) hstart hab hlimit hcut hp (fun hfull => ?_)
    -- all pieces are single minutes
    obtain ⟨-, hlt, -, hle⟩ := Grid.of_mem_cells one_pos hab hp
    have hone : checkIsFull p.1 p.2 = true := checkIsFull_iff.mpr ⟨0, by norm_num, by omega⟩
    exact absurd (hone.symm.trans hfull) (by simp)
  | succ level ih =>
    have hpos : (0 : ℤ) < 10 ^ (level + 1) := by positivity
    unfold tiling gridLevel
    by_cases hcut : Grid.Cut (10 ^ (level + 1)) a b
    · rw [if_pos hcut, if_pos hcut]
      refine ⟨fun node hnode => ?_, covers_pieces horder _ hpos, hlength _ hpos hab⟩
      obtain ⟨p, hp, rfl⟩ := hmem hnode
      obtain ⟨hle, hlt, hle', -⟩ := Grid.of_mem_cells hpos hab hp
      obtain ⟨hsound, hcovers, -⟩ :=
        ih (Nat.le_of_succ_le hlevel) (hstart.trans hle) hlt (hle'.trans hlimit)
      exact sound_piece hlevel hstart hab hlimit hcut hp fun _ => ⟨hcovers, hsound⟩
    · rw [if_neg hcut, if_neg hcut]
      exact ih (Nat.le_of_succ_le hlevel) hstart hab hlimit

end Tiling

/-! ### Aggregation -/

/-- A head over its interval: sound children that cover it. -/
structure Head (limit a b : ℤ) (n : ℕ) (head : TemporalNode) : Prop where
  start_eq : head.startTime = a
  stop_eq : head.stopTime = b
  length_eq : head.childs.length = n
  sound : ∀ node ∈ head.childs, Sound limit node
  covers : Covers head.childs a b

/-- What aggregation can return, for a head with `n` children. -/
inductive Outcome (k a b : ℤ) (n : ℕ) (result : List TemporalNode) : Prop where
  | leaves (hn : n ≤ k) (hlength : result.length ≤ k) (hcovers : Covers result a b)
      (htiles : ∀ node ∈ result, node.IsTile) : Outcome k a b n result
  | head (hn : k < n) (hshort : b - a < 10000)
      (hresult : result = [TemporalNode.aggregate ⟨a, b, false, []⟩]) : Outcome k a b n result
  | childs (hn : k < n) (hlong : 10000 ≤ b - a) (hlength : result.length = n)
      (hcovers : Covers result a b) (htiles : ∀ node ∈ result, node.IsTile) :
      Outcome k a b n result

section Aggregation

variable {limit a b k : ℤ} {n : ℕ} {head : TemporalNode} (hdvd : (10 : ℤ) ^ 4 ∣ limit)
  (hlong : limit < 2 ^ 63)

/-- Few leaves are returned. -/
theorem Head.outcome_leaves (h : Head limit a b n head) (hle : head.getLeafList.length ≤ k) :
    Outcome k a b n head.getLeafList := by
  have hn := length_childs_le_getLeafList h.sound
  rw [h.length_eq] at hn
  exact Outcome.leaves (by omega) hle (covers_getLeafList h.covers h.sound)
    fun _ => isTile_of_mem_getLeafList h.sound

include hdvd hlong

/-- With more leaves than allowed the head itself is the outcome. -/
theorem Head.outcome_overflow (h : Head limit a b n head) (hn : k < n) :
    Outcome k a b n (overflow k head) := by
  -- Every child is aggregated, so it has grown.
  have hgrow : List.Forall₂ (Grows limit) head.childs
      (head.childs.map TemporalNode.aggregate) := by
    rw [List.forall₂_map_right_iff, List.forall₂_same]
    exact fun node hmem => (h.sound node hmem).grows_aggregate hdvd hlong
  unfold overflow
  dsimp only
  rw [h.start_eq, h.stop_eq, List.length_map, h.length_eq]
  -- Few full children in a short time are replaced by the head itself.
  split
  · next hshort => exact Outcome.head hn hshort.2 rfl
  · next hnot =>
    refine Outcome.childs hn (by omega) ?_ (h.covers.grow hgrow) fun node hmem => ?_
    · rw [List.length_map, h.length_eq]
    · obtain ⟨child, hchild, rfl⟩ := List.mem_map.mp hmem
      exact ((h.sound child hchild).anchored.aggregate hdvd hlong).1

/-- The end of the aggregation, when all children are full. -/
theorem Head.outcome_end (h : Head limit a b n head) (hfull : head.getPartialCoveredChilds = []) :
    Outcome k a b n (aggregateEnd k head) := by
  obtain ⟨hleaves, hchilds⟩ := getLeafList_of_partial_eq_nil hfull
  unfold aggregateEnd
  split
  · next hlt => exact h.outcome_leaves hlt.le
  · split
    · next hlt =>
      rw [hchilds, h.length_eq] at hlt
      exact h.outcome_overflow hdvd hlong hlt
    · next hge =>
      refine h.outcome_leaves ?_
      rwa [hleaves, ← hchilds, ← not_lt]

/-- An aggregation keeps the head, with one node less that is not full. -/
theorem Head.aggregateNode (h : Head limit a b n head) {level : ℕ} {head' : TemporalNode}
    (hsome : head.aggregateNodeBestCoveredAtLevel level = some head') :
    Head limit a b n head' ∧ (head'.getPartialCoveredNodesAtLevel level).length <
      (head.getPartialCoveredNodesAtLevel level).length := by
  unfold aggregateNodeBestCoveredAtLevel at hsome
  dsimp only at hsome
  split at hsome
  · exact absurd hsome (by simp)
  · next hne =>
    obtain rfl := Option.some.inj hsome
    have hgrow := grow_aggregateNth hdvd hlong level
      (bestCovered (head.getPartialCoveredNodesAtLevel level)) h.sound
    -- The best covered node is one of the partial nodes, and it is not partial any more.
    have hnonempty : head.getPartialCoveredNodesAtLevel level ≠ [] :=
      fun hnil => hne (List.isEmpty_iff.mpr hnil)
    exact ⟨⟨h.start_eq, h.stop_eq, hgrow.length_eq.symm.trans h.length_eq, sound_of_grow hgrow,
      h.covers.grow hgrow⟩, length_aggregateNth_lt (bestCovered_lt hnonempty)⟩

/-- **The loop of the aggregation ends.** On each level there are fewer and fewer nodes that are
not full, and when it has left the last level all children are. -/
theorem Head.exists_aggregateLoop (h : Head limit a b n head) (level : ℕ)
    (hlast : level = 0 → head.getPartialCoveredChilds = []) :
    ∃ result, (∃ N, ∀ fuel, N ≤ fuel → aggregateLoop k fuel level head = some result) ∧
      Outcome k a b n result := by
  induction level generalizing head with
  | zero =>
    refine ⟨_, ⟨1, fun fuel hfuel => ?_⟩, h.outcome_end hdvd hlong (hlast rfl)⟩
    obtain ⟨fuel, rfl⟩ := Nat.exists_eq_add_of_le' hfuel
    rfl
  | succ level ih =>
    -- the number of the nodes that are not full goes down as long as the level stays
    induction hcount : (head.getPartialCoveredNodesAtLevel level).length
      using Nat.strong_induction_on generalizing head with
    | _ count ihcount =>
      by_cases hle : (head.getLeafList.length : ℤ) ≤ k
      · refine ⟨_, ⟨1, fun fuel hfuel => ?_⟩, h.outcome_leaves hle⟩
        obtain ⟨fuel, rfl⟩ := Nat.exists_eq_add_of_le' hfuel
        rw [aggregateLoop, if_pos hle]
      · cases hbest : head.aggregateNodeBestCoveredAtLevel level with
        | some head' =>
          obtain ⟨hhead, hlt⟩ := h.aggregateNode hdvd hlong hbest
          obtain ⟨result, ⟨N, hN⟩, hresult⟩ :=
            ihcount _ (hcount ▸ hlt) hhead (fun hzero => absurd hzero (Nat.succ_ne_zero level)) rfl
          refine ⟨result, ⟨N + 1, fun fuel hfuel => ?_⟩, hresult⟩
          obtain ⟨fuel, rfl⟩ := Nat.exists_eq_add_of_le' (Nat.le_of_add_left_le hfuel)
          rw [aggregateLoop, if_neg hle, hbest]
          exact hN fuel (by omega)
        | none =>
          have hlast' : level = 0 → head.getPartialCoveredChilds = [] := by
            rintro rfl
            unfold aggregateNodeBestCoveredAtLevel at hbest
            dsimp only at hbest
            split at hbest
            · next hempty => exact List.isEmpty_iff.mp hempty
            · exact absurd hbest (by simp)
          obtain ⟨result, ⟨N, hN⟩, hresult⟩ := ih h hlast'
          refine ⟨result, ⟨N + 1, fun fuel hfuel => ?_⟩, hresult⟩
          obtain ⟨fuel, rfl⟩ := Nat.exists_eq_add_of_le' (Nat.le_of_add_left_le hfuel)
          rw [aggregateLoop, if_neg hle, hbest]
          exact hN fuel (by omega)

/-- **Aggregation ends**, with one of the three outcomes. -/
theorem Head.exists_aggregate (h : Head limit a b n head) :
    ∃ result, (∃ N, ∀ fuel, N ≤ fuel → aggregate fuel k head = some result) ∧
      Outcome k a b n result := by
  -- Too many full children, few enough leaves, or the loop over the levels.
  by_cases hoverflow : k < head.getFullCoveredChilds.length
  · have hn : k < n := by
      have hle : head.getFullCoveredChilds.length ≤ head.childs.length :=
        List.length_filter_le _ _
      rw [h.length_eq] at hle
      omega
    refine ⟨_, ⟨0, fun fuel _ => ?_⟩, h.outcome_overflow hdvd hlong hn⟩
    rw [aggregate, if_pos hoverflow]
  · by_cases hle : (head.getLeafList.length : ℤ) ≤ k
    · refine ⟨_, ⟨0, fun fuel _ => ?_⟩, h.outcome_leaves hle⟩
      rw [aggregate, if_neg hoverflow, if_pos hle]
    · obtain ⟨result, ⟨N, hN⟩, hresult⟩ :=
        h.exists_aggregateLoop (k := k) hdvd hlong 5 (fun hzero => absurd hzero (by norm_num))
      refine ⟨result, ⟨N, fun fuel hfuel => ?_⟩, hresult⟩
      rw [aggregate, if_neg hoverflow, if_neg hle]
      exact hN fuel hfuel

end Aggregation

/-! ### Rounding -/

section Rounding

variable {a b w : ℤ}

/-- Steps that stay below 2^53 are not rounded. -/
theorem exact_of_le (hw : 0 < w) (hstart : 0 ≤ a) (hab : a ≤ b) (hle : b + w ≤ 2 ^ 53) :
    Exact w a b := by
  have hfloor := Int.ediv_mul_le b hw.ne'
  have hfirst : 0 ≤ a / w := Int.ediv_nonneg hstart hw.le
  -- All products are integers below 2^53, which a double holds exactly.
  have hmul : ∀ {i : ℤ}, a / w ≤ i → 0 ≤ i * w := fun hi => mul_nonneg (hfirst.trans hi) hw.le
  constructor
  · intro i hi hi'
    have hlow := hmul hi
    have hhigh : i * w ≤ b := (Int.le_ediv_iff_mul_le hw).mp hi'
    have hring : (i + 1) * w = i * w + w := by ring
    unfold plus
    rw [Double.round_eq_self (n := i * w) (by omega), ← hring,
      Double.round_eq_self (n := (i + 1) * w) (by omega),
      Double.toLong_eq_self (by omega) (by omega)]
  · have hlow := hmul (Int.ediv_le_ediv hw hab)
    have hring : (b / w + 1) * w - w = b / w * w := by ring
    unfold minus
    rw [Double.round_eq_self (n := (b / w + 1) * w) (by omega), hring,
      Double.round_eq_self (n := b / w * w) (by omega),
      Double.toLong_eq_self (by omega) (by omega)]

/-- **No step is rounded** for minutes that are far enough below 2^53. -/
theorem unrounded_of_le {level : ℕ} (hstart : 0 ≤ a) (hab : a < b)
    (hle : b + 10 ^ level ≤ 2 ^ 53) : Unrounded level a b := by
  induction level generalizing a b with
  | zero => exact exact_of_le one_pos hstart hab.le hle
  | succ level ih =>
    have hpos : (0 : ℤ) < 10 ^ (level + 1) := by positivity
    have hpow : (10 : ℤ) ^ level ≤ 10 ^ (level + 1) :=
      pow_le_pow_right₀ (by norm_num) (Nat.le_succ level)
    refine ⟨exact_of_le hpos hstart hab.le hle, ?_⟩
    -- The cells of a level lie within the interval, so the lower levels are as exact.
    split
    · intro p hp _
      obtain ⟨hle₁, hlt, hle₂, -⟩ := Grid.of_mem_cells hpos hab hp
      exact ih (hstart.trans hle₁) hlt (by omega)
    · exact ih hstart hab (by omega)

/-- A multiple of ten thousand that bounds the minutes is a `long`. -/
theorem exists_limit (hab : a < b) (h : Unrounded 4 a b) :
    ∃ limit : ℤ, (10 : ℤ) ^ 4 ∣ limit ∧ limit < 2 ^ 63 ∧ b < limit := by
  have hpos : (0 : ℤ) < 10 ^ 4 := by norm_num
  have hplus : plus (b / 10 ^ 4 * 10 ^ 4) (10 ^ 4) = (b / 10 ^ 4 + 1) * 10 ^ 4 :=
    h.1.1 (b / 10 ^ 4) (Int.ediv_le_ediv hpos hab.le) le_rfl
  have hle := Double.toLong_le (Double.round (Double.round (b / 10 ^ 4 * 10 ^ 4) + 10 ^ 4))
  refine ⟨(b / 10 ^ 4 + 1) * 10 ^ 4, Dvd.intro_left _ rfl, ?_, Int.lt_ediv_add_one_mul_self b hpos⟩
  rw [← hplus, plus]
  omega

end Rounding

/-! ### What is returned -/

section Result

variable {order : List TemporalNode → List TemporalNode}
  (horder : ∀ nodes, (order nodes).Perm nodes) {startMinutes stopMinutes k : ℤ}

/-- The end of the interval is a minute behind the start at least. -/
theorem tesselate_eq (order : List TemporalNode → List TemporalNode) (fuel : ℕ)
    (h₀ : 0 ≤ startMinutes) (hle : startMinutes ≤ stopMinutes)
    (hlong : max stopMinutes (startMinutes + 1) < 2 ^ 63) :
    tesselate order fuel startMinutes stopMinutes k =
      (tesselateHead order fuel 4
        ⟨startMinutes, max stopMinutes (startMinutes + 1), false, []⟩).bind (aggregate fuel k) := by
  have hstop : (if startMinutes = stopMinutes then long (stopMinutes + 1) else stopMinutes) =
      max stopMinutes (startMinutes + 1) := by
    split
    · rw [long_eq_self (by omega) (by omega)]
      omega
    · omega
  unfold tesselate
  dsimp only
  rw [hstop, if_neg (by omega)]

include horder

/-- **What the tesseler returns**, if no step is rounded: it ends, with one of the outcomes. -/
theorem exists_outcome (k : ℤ) (h₀ : 0 ≤ startMinutes) (hle : startMinutes ≤ stopMinutes)
    (h : Unrounded 4 startMinutes (max stopMinutes (startMinutes + 1))) :
    ∃ result, ∃ n : ℕ, (∃ N, ∀ fuel, N ≤ fuel →
        tesselate order fuel startMinutes stopMinutes k = some result) ∧
      n = childCount startMinutes (max stopMinutes (startMinutes + 1)) ∧
      Outcome k startMinutes (max stopMinutes (startMinutes + 1)) n result := by
  have hlt : startMinutes < max stopMinutes (startMinutes + 1) := by omega
  obtain ⟨limit, hdvd, hlong, hlimit⟩ := exists_limit hlt h
  -- The head begins with a sound tiling of the interval, and the aggregation comes to an end.
  obtain ⟨hsound, hcovers, hcount⟩ := sound_tiling horder le_rfl h₀ hlt hlimit.le
  have hhead : Head limit startMinutes (max stopMinutes (startMinutes + 1)) _
      ⟨startMinutes, max stopMinutes (startMinutes + 1), false,
        tiling order 4 startMinutes (max stopMinutes (startMinutes + 1))⟩ :=
    ⟨rfl, rfl, rfl, hsound, hcovers⟩
  obtain ⟨result, ⟨N, hN⟩, houtcome⟩ := hhead.exists_aggregate (k := k) hdvd hlong
  refine ⟨result, _, ⟨max N ((max stopMinutes (startMinutes + 1) - startMinutes).toNat + 4),
    fun fuel hfuel => ?_⟩, hcount, houtcome⟩
  rw [tesselate_eq order fuel h₀ hle (hlimit.trans hlong),
    tesselateHead_eq order h₀ hlt h (le_of_max_le_right hfuel), Option.bind_some]
  exact hN fuel (le_of_max_le_left hfuel)

end Result

/-! ### The head, aggregated -/

section Root

variable {limit a b : ℤ}

/-- A short head is rounded to a grid of which it meets at most two cells. -/
theorem aggregate_head (hdvd : (10 : ℤ) ^ 4 ∣ limit) (hlong : limit < 2 ^ 63) (hstart : 0 ≤ a)
    (hab : a < b) (hlimit : b ≤ limit) (hshort : b - a < 10000) :
    ∃ j ≤ 4, aggregateBase (b - a) = 10 ^ j ∧ b - a ≤ 10 ^ j ∧
      TemporalNode.aggregate ⟨a, b, false, []⟩ =
        ⟨Grid.down (10 ^ j) a, Grid.up (10 ^ j) b, true, []⟩ := by
  obtain ⟨j, hj, hbase, hle, -⟩ := aggregateBase_eq (sub_pos.mpr hab) hshort.le
  have hpos : (0 : ℤ) < 10 ^ j := by positivity
  have hup := Grid.up_le hpos ((pow_dvd_pow 10 hj).trans hdvd) hlimit
  exact ⟨j, hj, hbase, hle,
    aggregate_eq hbase hpos hstart (hstart.trans hab.le) (hup.trans_lt hlong)⟩

/-- Rounded to a grid, a short interval is a tile if and only if it meets a single cell. -/
theorem isTile_rounded_iff {j : ℕ} (hj : j ≤ 4) (hab : a < b) (hle : b - a ≤ 10 ^ j) :
    IsTile ⟨Grid.down (10 ^ j) a, Grid.up (10 ^ j) b, true, []⟩ ↔
      a / 10 ^ j = (b - 1) / 10 ^ j := by
  have hpos : (0 : ℤ) < 10 ^ j := by positivity
  have hdiff := Grid.up_sub_down (w := 10 ^ j) (a := a) (b := b)
  have hmono : a / 10 ^ j ≤ (b - 1) / 10 ^ j := Int.ediv_le_ediv hpos (by omega)
  constructor
  · rintro ⟨i, -, hstop, -⟩
    dsimp only at hstop
    by_contra hne
    -- two cells, but twice a power of ten is none
    have hcount : Grid.count (10 ^ j) a b = 2 := by
      have hlast : (b - 1) / 10 ^ j ≤ (a + 10 ^ j) / 10 ^ j := Int.ediv_le_ediv hpos (by omega)
      rw [Int.add_ediv_of_dvd_right dvd_rfl, Int.ediv_self hpos.ne'] at hlast
      unfold Grid.count
      omega
    rw [hcount, hstop, add_sub_cancel_left] at hdiff
    have hlt : (10 : ℤ) ^ j < 10 ^ i := by omega
    have hsucc : (10 : ℤ) ^ (j + 1) ≤ 10 ^ i :=
      pow_le_pow_right₀ (by norm_num) ((pow_lt_pow_iff_right₀ (by norm_num)).mp hlt)
    rw [pow_succ] at hsucc
    omega
  · intro heq
    have hcount : Grid.count (10 ^ j) a b = 1 := by
      unfold Grid.count
      omega
    rw [hcount, one_mul] at hdiff
    exact ⟨j, hj, by dsimp only; omega, Dvd.intro_left _ rfl⟩

end Root

/-! ### Coverage, bound and tiles -/

section Main

variable {order : List TemporalNode → List TemporalNode}
  (horder : ∀ nodes, (order nodes).Perm nodes) {startMinutes stopMinutes k : ℤ}
include horder

/-- **The tessellation ends and covers the interval**, if no step is rounded. -/
theorem tesselate_covers (h₀ : 0 ≤ startMinutes) (hle : startMinutes ≤ stopMinutes)
    (h : Unrounded 4 startMinutes (max stopMinutes (startMinutes + 1))) :
    ∃ result, (∃ N, ∀ fuel, N ≤ fuel →
        tesselate order fuel startMinutes stopMinutes k = some result) ∧
      Covers result startMinutes (max stopMinutes (startMinutes + 1)) := by
  obtain ⟨result, n, hends, -, houtcome⟩ := exists_outcome horder k h₀ hle h
  refine ⟨result, hends, ?_⟩
  -- The head covers what its rounding up and down covers.
  cases houtcome with
  | leaves _ _ hcovers _ => exact hcovers
  | childs _ _ _ hcovers _ => exact hcovers
  | head _ hshort hresult =>
    have hlt : startMinutes < max stopMinutes (startMinutes + 1) := by omega
    obtain ⟨limit, hdvd, hlong, hlimit⟩ := exists_limit hlt h
    obtain ⟨j, -, -, -, heq⟩ := aggregate_head hdvd hlong h₀ hlt hlimit.le hshort
    have hpos : (0 : ℤ) < 10 ^ j := by positivity
    intro t hle' hlt'
    rw [hresult, heq]
    exact ⟨_, List.mem_singleton_self _, (Grid.down_le hpos _).trans hle',
      hlt'.trans_le (Grid.le_up hpos _)⟩

omit horder in
/-- A quarter of an hour, in five nodes at most. -/
theorem tesselate_covers_quarter : ∃ result, (∃ N, ∀ fuel, N ≤ fuel →
    tesselate id fuel 995 1010 5 = some result) ∧ Covers result 995 (max 1010 (995 + 1)) :=
  tesselate_covers (fun nodes => List.Perm.refl nodes) (by norm_num) (by norm_num)
    (unrounded_of_le (by norm_num) (by norm_num) (by norm_num))

/-- **The tessellation keeps the bound**, if no step is rounded. -/
theorem length_tesselate_le (h₀ : 0 ≤ startMinutes) (hlt : startMinutes < stopMinutes)
    (hk : 1 ≤ k) (h : Unrounded 4 startMinutes stopMinutes) :
    ∃ result, (∃ N, ∀ fuel, N ≤ fuel →
        tesselate order fuel startMinutes stopMinutes k = some result) ∧
      (stopMinutes - startMinutes < 10000 → result.length ≤ k) ∧
        (10000 ≤ stopMinutes - startMinutes →
          result.length ≤ max k ((stopMinutes - startMinutes) / 10000 + 2)) := by
  have hmax : max stopMinutes (startMinutes + 1) = stopMinutes := by omega
  obtain ⟨result, n, hends, hn, houtcome⟩ :=
    exists_outcome horder k h₀ hlt.le (by rwa [hmax])
  rw [hmax] at hn houtcome
  refine ⟨result, hends, ?_⟩
  cases houtcome with
  | leaves _ hlength _ _ => exact ⟨fun _ => hlength, fun _ => hlength.trans (le_max_left _ _)⟩
  | head _ hshort hresult =>
    rw [hresult]
    exact ⟨fun _ => hk, fun hlong => absurd hshort (not_lt.mpr hlong)⟩
  | childs _ hlong hlength _ _ =>
    refine ⟨fun hshort => absurd hshort (not_lt.mpr hlong), fun _ => ?_⟩
    -- a long interval is divided at the multiples of ten thousand
    have hlevel : gridLevel 4 startMinutes stopMinutes = 4 := by
      have hwidth : (10 : ℤ) ^ (3 + 1) ≤ stopMinutes - startMinutes := by
        norm_num
        omega
      unfold gridLevel
      rw [if_pos (Grid.cut_of_le (by norm_num) hwidth)]
    rw [childCount, hlevel] at hn
    rw [hlength, hn]
    exact (Grid.count_le (by norm_num)).trans (le_max_right _ _)

omit horder in
/-- Half an hour, in three nodes at most. -/
theorem length_tesselate_half : ∃ result, (∃ N, ∀ fuel, N ≤ fuel →
    tesselate id fuel 995 1025 3 = some result) ∧
      ((1025 : ℤ) - 995 < 10000 → (result.length : ℤ) ≤ 3) ∧
        (10000 ≤ (1025 : ℤ) - 995 → (result.length : ℤ) ≤ max 3 ((1025 - 995) / 10000 + 2)) :=
  length_tesselate_le (fun nodes => List.Perm.refl nodes) (by norm_num) (by norm_num) (by norm_num)
    (unrounded_of_le (by norm_num) (by norm_num) (by norm_num))

/-- **The tessellation gives decimal tiles** if and only if the head is long, has at most `k`
children, or lies in a single tile of the length to which it is rounded. -/
theorem tesselate_isTile_iff (h₀ : 0 ≤ startMinutes) (hlt : startMinutes < stopMinutes)
    (h : Unrounded 4 startMinutes stopMinutes) :
    ∃ result, (∃ N, ∀ fuel, N ≤ fuel →
        tesselate order fuel startMinutes stopMinutes k = some result) ∧
      ((∀ node ∈ result, node.IsTile) ↔
        10000 ≤ stopMinutes - startMinutes ∨ childCount startMinutes stopMinutes ≤ k ∨
          startMinutes / aggregateBase (stopMinutes - startMinutes) =
            (stopMinutes - 1) / aggregateBase (stopMinutes - startMinutes)) := by
  have hmax : max stopMinutes (startMinutes + 1) = stopMinutes := by omega
  obtain ⟨result, n, hends, hn, houtcome⟩ :=
    exists_outcome horder k h₀ hlt.le (by rwa [hmax])
  rw [hmax] at hn houtcome
  refine ⟨result, hends, ?_⟩
  rw [← hn]
  -- Leaves and children are tiles; the head is one if its two ends round to one tile.
  cases houtcome with
  | leaves hle _ _ htiles => exact iff_of_true htiles (Or.inr (Or.inl hle))
  | childs _ hlong _ _ htiles => exact iff_of_true htiles (Or.inl hlong)
  | head hmany hshort hresult =>
    obtain ⟨limit, hdvd, hlong, hlimit⟩ := exists_limit hlt h
    obtain ⟨j, hj, hbase, hle, heq⟩ := aggregate_head hdvd hlong h₀ hlt hlimit.le hshort
    rw [hresult, heq, hbase, List.forall_mem_singleton, isTile_rounded_iff hj hlt hle]
    exact ⟨fun hquot => Or.inr (Or.inr hquot), fun hcases =>
      (hcases.resolve_left (not_le.mpr hshort)).resolve_left (not_le.mpr hmany)⟩

omit horder in
/-- Six minutes in a single tile. -/
theorem tesselate_isTile_six : ∃ result, (∃ N, ∀ fuel, N ≤ fuel →
    tesselate id fuel 12 18 1 = some result) ∧ ((∀ node ∈ result, node.IsTile) ↔
      10000 ≤ (18 : ℤ) - 12 ∨ childCount 12 18 ≤ 1 ∨
        (12 : ℤ) / aggregateBase (18 - 12) = (18 - 1) / aggregateBase (18 - 12)) :=
  tesselate_isTile_iff (fun nodes => List.Perm.refl nodes) (by norm_num) (by norm_num)
    (unrounded_of_le (by norm_num) (by norm_num) (by norm_num))

end Main

/-- Two minutes across the border of two tiles come back as twenty. -/
theorem tesselate_across : tesselate id 5 19 21 1 = some [⟨10, 30, true, []⟩] ∧
    ¬IsTile ⟨10, 30, true, []⟩ := by
  refine ⟨rfl, ?_⟩
  rintro ⟨j, hj, hstop, -⟩
  dsimp only at hstop
  interval_cases j
  all_goals norm_num at hstop

/-! ### A step that leads nowhere -/

section Stuck

/-- From 2^53 a step of one minute is rounded away. -/
theorem plus_stuck : plus (2 ^ 53) 1 = 2 ^ 53 := by
  have hsum : Double.round (2 ^ 53 + 1) = 2 ^ 53 := by
    unfold Double.round
    rw [Double.ulp_eq_two (by norm_num) (by norm_num)]
    norm_num
  unfold plus
  rw [Double.round_eq_self (n := 2 ^ 53) (by norm_num), hsum,
    Double.toLong_eq_self (by norm_num) (by norm_num)]

/-- The loop over single minutes goes on forever. -/
theorem tesselateLoop_stuck (fuel : ℕ) {childs : List TemporalNode} :
    tesselateLoop some 1 fuel (2 ^ 53) (2 ^ 53) ⟨2 ^ 53, 2 ^ 53 + 1, false, childs⟩ = none := by
  induction fuel with
  | zero => rfl
  | succ fuel ih =>
    rw [tesselateLoop, nodeContains_between le_rfl (by norm_num)]
    dsimp only
    rw [append_self, Option.bind_some, plus_stuck, ih]

/-- Where a step goes from before the start to after the end, the loop appends nothing. -/
theorem tesselateLoop_over {deeper : TemporalNode → Option TemporalNode} {w a b s : ℤ}
    {full : Bool} {childs : List TemporalNode} (hs : s < a) (hab : a ≤ b) (hafter : b < plus s w)
    (hbefore : minus (plus s w) w < a) (fuel : ℕ) :
    tesselateLoop deeper w fuel s a ⟨a, b, full, childs⟩ = none ∨
      tesselateLoop deeper w fuel s a ⟨a, b, full, childs⟩ = some ⟨a, b, full, childs⟩ := by
  rcases fuel with _ | _ | fuel
  · exact Or.inl rfl
  · left
    rw [tesselateLoop, nodeContains_before hs]
    rfl
  · right
    rw [tesselateLoop, nodeContains_before hs]
    dsimp only
    rw [tesselateLoop, nodeContains_after (hab.trans hafter.le) hafter]
    dsimp only
    rw [nodeContains_before hbefore, if_neg (by simp)]

/-- Steps over 2^53 that are not rounded. -/
theorem plus_over {s w : ℤ} (hs : 0 ≤ s) (hle : s ≤ 2 ^ 53) (hover : 2 ^ 53 ≤ s + w)
    (hlt : s + w < 2 ^ 54) (heven : 2 ∣ s + w) :
    plus s w = s + w ∧ minus (s + w) w = s := by
  have hsum : Double.round (s + w) = s + w := by
    refine Double.round_of_dvd ?_
    rwa [Double.ulp_eq_two hover hlt]
  have hself : Double.round s = s := Double.round_eq_self (by omega)
  constructor
  · unfold plus
    rw [hself, hsum, Double.toLong_eq_self (by omega) (by omega)]
  · unfold minus
    rw [hsum, add_sub_cancel_right, hself, Double.toLong_eq_self (by omega) (by omega)]

/-- A level whose steps go over the whole interval leaves it to the next one. -/
theorem tesselateHead_over {order : List TemporalNode → List TemporalNode} {level fuel : ℕ}
    {s : ℤ} (hs : (2 : ℤ) ^ 53 / 10 ^ (level + 1) * 10 ^ (level + 1) = s) (hlt : s < 2 ^ 53)
    (hover : 2 ^ 53 + 1 < s + 10 ^ (level + 1)) (hle : s + 10 ^ (level + 1) < 2 ^ 54)
    (heven : 2 ∣ s + 10 ^ (level + 1)) (hpos : 0 ≤ s)
    (hnone : tesselateHead order fuel level ⟨2 ^ 53, 2 ^ 53 + 1, false, []⟩ = none) :
    tesselateHead order fuel (level + 1) ⟨2 ^ 53, 2 ^ 53 + 1, false, []⟩ = none := by
  obtain ⟨hplus, hminus⟩ := plus_over hpos hlt.le (by omega) hle heven
  -- Rounded to an even number the step overshoots the end, so no node is found on this level
  -- either.
  have hloop : tesselateLoop (tesselateHead order fuel level) (10 ^ (level + 1)) fuel s (2 ^ 53)
      ⟨2 ^ 53, 2 ^ 53 + 1, false, []⟩ = none ∨ _ :=
    tesselateLoop_over hlt (by norm_num : (2 : ℤ) ^ 53 ≤ 2 ^ 53 + 1) (by rwa [hplus])
      (by rwa [hplus, hminus]) fuel
  unfold tesselateHead
  dsimp only
  rw [Int.tdiv_eq_ediv_of_nonneg (by norm_num), hs]
  rcases hloop with h | h
  · rw [h]
    rfl
  · rw [h, Option.bind_some, if_pos List.isEmpty_nil, hnone]

/-- **The division of the minute 2^53 does not end.** -/
theorem tesselate_eq_none (order : List TemporalNode → List TemporalNode) (fuel : ℕ) (k : ℤ) :
    tesselate order fuel (2 ^ 53) (2 ^ 53 + 1) k = none := by
  -- From 2^53 on a step of one minute is rounded away: the loop of level 0 stays where it is, and
  -- every level above comes down to it.
  have h₀ : tesselateHead order fuel 0 ⟨2 ^ 53, 2 ^ 53 + 1, false, []⟩ = none := by
    have hstart : ((2 : ℤ) ^ 53).tdiv 1 * 1 = 2 ^ 53 := by norm_num
    unfold tesselateHead
    dsimp only
    rw [hstart, tesselateLoop_stuck]
    rfl
  have h₁ : tesselateHead order fuel 1 ⟨2 ^ 53, 2 ^ 53 + 1, false, []⟩ = none :=
    tesselateHead_over (s := 9007199254740990) (by norm_num) (by norm_num) (by norm_num)
      (by norm_num) (by norm_num) (by norm_num) h₀
  have h₂ : tesselateHead order fuel 2 ⟨2 ^ 53, 2 ^ 53 + 1, false, []⟩ = none :=
    tesselateHead_over (s := 9007199254740900) (by norm_num) (by norm_num) (by norm_num)
      (by norm_num) (by norm_num) (by norm_num) h₁
  have h₃ : tesselateHead order fuel 3 ⟨2 ^ 53, 2 ^ 53 + 1, false, []⟩ = none :=
    tesselateHead_over (s := 9007199254740000) (by norm_num) (by norm_num) (by norm_num)
      (by norm_num) (by norm_num) (by norm_num) h₂
  have h₄ : tesselateHead order fuel 4 ⟨2 ^ 53, 2 ^ 53 + 1, false, []⟩ = none :=
    tesselateHead_over (s := 9007199254740000) (by norm_num) (by norm_num) (by norm_num)
      (by norm_num) (by norm_num) (by norm_num) h₃
  rw [tesselate_eq order fuel (by norm_num) (by norm_num) (by norm_num), max_self, h₄]
  rfl

/-- No fuel is enough for the minute 2^53. -/
theorem tesselate_stuck :
    ¬∃ fuel result, tesselate id fuel (2 ^ 53) (2 ^ 53 + 1) 1 = some result := by
  rintro ⟨fuel, result, hsome⟩
  rw [tesselate_eq_none] at hsome
  exact absurd hsome (by simp)

/-- There is no list for it, so none of at most two nodes. -/
theorem tesselate_no_list : ¬∃ fuel result,
    tesselate id fuel (2 ^ 53) (2 ^ 53 + 1) 2 = some result ∧ result.length ≤ 2 := by
  rintro ⟨fuel, result, hsome, -⟩
  rw [tesselate_eq_none] at hsome
  exact absurd hsome (by simp)

end Stuck

end TemporalTesseler

end OpenGeoBase
