import OpenGeoBase.Repo.IndexUpdate

/-!
# The tiles of one object

An object that spans several level-2 tiles is to be counted once in each of them
(`CountsEach`). `shardIndexer` goes through the tiles in their order and creates those
that are new, but its branch for a tile that exists ends in a `return`: what is listed
after that tile is not counted. `countsEach_shardIndexer_iff` says that this is the only
way a tile gets lost.

The induction is on the list of tiles. A new tile in front is counted and leaves the
rest of the list where it was (`countsEach_cons_new`); a tile that exists in front is
counted and ends the loop. So the loop counts the tiles up to the first one that exists
(`countsEach_countedTiles`), and these are all of them if that one is the last.

The tiles of an object are listed once each: its coordinate set is kept in order, and lies
on the 0.01-degree grid, where different points have different names (`GridSet.nodup`).
-/

namespace OpenGeoBase

open Text AtomicCalls Collection

/-- Each listed level-2 tile counts one more object in `db'` than in `db`, with a document of its
own if it had none, and the other level-2 tiles count what they did. -/
def CountsEach (ts : List Str) (db db' : Db) : Prop :=
  ∀ n, db'.counters 2 n = if n ∈ ts then Db.bump (db.counters 2 n) else db.counters 2 n

/-- Counting up always shows. -/
theorem bump_ne_self (c : List ℤ) : Db.bump c ≠ c := by
  cases c with
  | nil => simp [Db.bump]
  | cons k c => simp [Db.bump]

/-! ### The tiles are different ones -/

/-- A coordinate set, in order and on the 0.01-degree grid. -/
structure GridSet (s : List Coord) : Prop where
  sorted : s.Pairwise Coord.lt
  grid : ∀ q ∈ s, ∃ i j : ℤ, q = ((i : ℚ) / 100, (j : ℚ) / 100)

/-- The order of the set of coordinates is transitive. -/
theorem Coord.lt_trans {p q r : Coord} (h₁ : Coord.lt p q) (h₂ : Coord.lt q r) :
    Coord.lt p r := by
  rcases h₁ with h₁ | ⟨h₁, h₁'⟩ <;> rcases h₂ with h₂ | ⟨h₂, h₂'⟩
  · exact Or.inl (h₁.trans h₂)
  · exact Or.inl (h₂ ▸ h₁)
  · exact Or.inl (h₁ ▸ h₂)
  · exact Or.inr ⟨h₁.trans h₂, h₁'.trans h₂'⟩

/-- The order of the set is total. -/
theorem Coord.lt_of_not_lt {p q : Coord} (hne : p ≠ q) (h : ¬Coord.lt p q) : Coord.lt q p := by
  rcases lt_trichotomy p.1 q.1 with h₁ | h₁ | h₁
  · exact absurd (Or.inl h₁) h
  · rcases lt_trichotomy p.2 q.2 with h₂ | h₂ | h₂
    · exact absurd (Or.inr ⟨h₁, h₂⟩) h
    · exact absurd (Prod.ext h₁ h₂) hne
    · exact Or.inr ⟨h₁.symm, h₂⟩
  · exact Or.inl h₁

namespace GridSet

variable {s : List Coord}

/-- The empty set lies on the grid. -/
theorem nil : GridSet [] := ⟨List.Pairwise.nil, by simp⟩

/-- A point of the grid may join the set. -/
theorem insert (h : GridSet s) {p : Coord} (hp : ∃ i j : ℤ, p = ((i : ℚ) / 100, (j : ℚ) / 100)) :
    GridSet (coordSetInsert p s) := by
  refine ⟨?_, fun q hq => ?_⟩
  · have hsorted := h.sorted
    clear h
    induction s with
    | nil => exact List.pairwise_singleton _ _
    | cons r s ih =>
      obtain ⟨hr, hs⟩ := List.pairwise_cons.mp hsorted
      unfold coordSetInsert
      -- `std::set`: a tile that is there is not added, another goes to its place in the order
      split
      · exact hsorted
      · next hne =>
        split
        · next hlt =>
          refine List.pairwise_cons.mpr ⟨fun q hq => ?_, hsorted⟩
          rcases List.mem_cons.mp hq with rfl | hq
          · exact hlt
          · exact Coord.lt_trans hlt (hr q hq)
        · next hlt =>
          refine List.pairwise_cons.mpr ⟨fun q hq => ?_, ih hs⟩
          rcases mem_coordSetInsert.mp hq with rfl | hq
          · exact Coord.lt_of_not_lt hne hlt
          · exact hr q hq
  · rcases mem_coordSetInsert.mp hq with rfl | hq
    · exact hp
    · exact h.grid q hq

/-- Whole degrees are on the grid. -/
theorem insert_cell (h : GridSet s) (m n : ℤ) :
    GridSet (coordSetInsert ((m : ℚ), (n : ℚ)) s) := by
  refine h.insert ⟨100 * m, 100 * n, ?_⟩
  push_cast
  rw [mul_div_cancel_left₀ _ (by norm_num), mul_div_cancel_left₀ _ (by norm_num)]

/-- Different points of the grid have different names. -/
theorem nodup (h : GridSet s) : (s.map coordName).Nodup := by
  -- on the grid two points of one name are one point, and the order is strict
  have hne : s.Pairwise fun p q => coordName p ≠ coordName q := by
    refine h.sorted.imp_of_mem fun {p q} hp hq hlt heq => ?_
    obtain ⟨i, j, rfl⟩ := h.grid p hp
    obtain ⟨i', j', rfl⟩ := h.grid q hq
    obtain ⟨rfl, rfl⟩ := calculateLATLONName_injective heq
    rcases hlt with hlt | ⟨-, hlt⟩
    · exact lt_irrefl _ hlt
    · exact lt_irrefl _ hlt
  exact List.pairwise_map.mpr hne

theorem pointIndex (x y : ℚ) : GridSet (pointIndex x y) := by
  refine nil.insert ⟨⌊x * 10 ^ 2⌋, ⌊y * 10 ^ 2⌋, ?_⟩
  unfold floor10
  norm_num

/-- The set the code computes for several points lies on the grid. -/
theorem multiPointLoop {vs : List Value} {r : List Coord} (h : GridSet s)
    (hr : multiPointLoop vs s = some r) : GridSet r := by
  induction vs generalizing s with
  | nil =>
    obtain rfl := Option.some.inj hr
    exact h
  | cons v vs ih =>
    unfold OpenGeoBase.multiPointLoop at hr
    obtain ⟨⟨x, y⟩, -, hr⟩ := Option.bind_eq_some_iff.mp hr
    exact ih (h.insert_cell _ _) hr

/-- The set the code computes for a polygon lies on the grid. -/
theorem polygonCells {intersects : List Coord → Coord → Coord → Bool} {outer : List Coord}
    {cells : List (ℤ × ℤ)} (h : GridSet s) :
    GridSet (polygonCells intersects outer cells s) := by
  unfold OpenGeoBase.polygonCells
  induction cells generalizing s with
  | nil => exact h
  | cons c cells ih =>
    rw [List.foldl_cons]
    split
    · exact ih (h.insert_cell _ _)
    · exact ih h

/-- So the tiles of an object are different ones. -/
theorem calculateGeometryIndex {intersects : List Coord → Coord → Coord → Bool} {v : Value}
    {coordSet : List Coord} (h : calculateGeometryIndex intersects v = some coordSet) :
    GridSet coordSet := by
  unfold OpenGeoBase.calculateGeometryIndex at h
  simp only [Option.bind_eq_bind, Option.bind_eq_some_iff] at h
  obtain ⟨geometry, -, geometry_type, -, type, -, h⟩ := h
  -- the branches of the geometry types; an unknown type has no tiles
  split at h
  · unfold calculatePointIndex at h
    obtain ⟨⟨x, y⟩, -, h⟩ := Option.bind_eq_some_iff.mp h
    obtain rfl := Option.some.inj h
    exact pointIndex x y
  · split at h
    · unfold calculateMultiPointIndex at h
      obtain ⟨positions, -, h⟩ := Option.bind_eq_some_iff.mp h
      exact nil.multiPointLoop h
    · split at h
      · unfold calculatePolygonIndex at h
        simp only [Option.bind_eq_bind, Option.bind_eq_some_iff] at h
        obtain ⟨_, -, _, -, b, -, mx, -, my, -, h⟩ := h
        obtain rfl := Option.some.inj h
        exact nil.polygonCells
      · obtain rfl := Option.some.inj h
        exact nil

end GridSet

section Loop

variable {db db' : Db} {n : Str} {ts : List Str}

/-- A new level-2 tile counts one object, and no other level-2 tile is counted. -/
theorem counters_addTile (h2 : db.tiles 2 n = []) (m : Str) :
    (db.addTile n).counters 2 m =
      if m = n then Db.bump (db.counters 2 m) else db.counters 2 m := by
  have hnil : db.counters 2 n = [] := by simp [Db.counters, h2]
  unfold Db.addTile Db.insertTile
  split
  · simp only [Db.counters_createTile]
    by_cases hm : m = n <;> simp_all [levelName, Db.bump]
  · split <;>
    · simp only [Db.counters_createTile, Db.counters_growTile]
      by_cases hm : m = n <;> simp_all [levelName, Db.bump]

/-- A tile that exists counts one object more, and no other tile is counted. -/
theorem counters_growTile_two (h2 : db.tiles 2 n ≠ []) (m : Str) :
    (db.growTile n 2 false).counters 2 m =
      if m = n then Db.bump (db.counters 2 m) else db.counters 2 m := by
  have hne : db.counters 2 n ≠ [] := by simpa [Db.counters] using h2
  rw [Db.counters_growTile]
  by_cases hm : m = n
  · subst hm
    rw [if_pos ⟨rfl, rfl⟩, if_pos rfl, Db.bump, if_neg hne]
  · rw [if_neg fun h => hm h.2, if_neg hm]

/-- Once a new tile in front is counted, what remains to be counted is the rest. -/
theorem countsEach_cons_new (h2 : db.tiles 2 n = []) (hn : n ∉ ts) :
    CountsEach (n :: ts) db db' ↔ CountsEach ts (db.addTile n) db' := by
  refine forall_congr' fun m => ?_
  rw [counters_addTile h2]
  by_cases hm : m = n
  · subst hm
    rw [if_pos List.mem_cons_self, if_neg hn, if_pos rfl]
  · simp only [List.mem_cons, hm, false_or, if_false]

/-- The tiles an insertion counts: it stops at the first one that exists. -/
def Db.countedTiles (db : Db) : List Str → List Str
  | [] => []
  | t :: ts => if db.tiles 2 t = [] then t :: db.countedTiles ts else [t]

/-- The tiles that are counted were given. -/
theorem countedTiles_subset : db.countedTiles ts ⊆ ts := by
  induction ts with
  | nil => exact List.Subset.refl _
  | cons t ts ih =>
    unfold Db.countedTiles
    split
    · exact List.cons_subset_cons t ih
    · simp

/-- A new tile in front does not change which of the others are new. -/
theorem countedTiles_addTile (hn : n ∉ ts) :
    (db.addTile n).countedTiles ts = db.countedTiles ts := by
  induction ts with
  | nil => rfl
  | cons t ts ih =>
    rw [List.mem_cons, not_or] at hn
    unfold Db.countedTiles
    rw [ih hn.2, tiles_addTile_of_ne _ _ _ le_rfl (Ne.symm hn.1)]

/-- **What the loop counts.** The tiles up to the first one that exists, each exactly once. -/
theorem countsEach_countedTiles {coordSet : List Coord}
    (hnodup : (coordSet.map coordName).Nodup) :
    CountsEach (db.countedTiles (coordSet.map coordName)) db
      ((indexTiles false coordSet).run db).2 := by
  -- over the tiles of the object, as the loop goes through them
  induction coordSet generalizing db with
  | nil => exact fun n => (if_neg List.not_mem_nil).symm
  | cons p coordSet ih =>
    rw [List.map_cons, List.nodup_cons] at hnodup
    obtain ⟨hp, hnodup⟩ := hnodup
    rw [List.map_cons, Db.countedTiles]
    by_cases h2 : db.tiles 2 (coordName p) = []
    · -- a new tile: the loop goes on with the others, which are as new as they were
      rw [if_pos h2, run_indexTiles_new db h2,
        countsEach_cons_new h2 fun hmem => hp (countedTiles_subset hmem),
        ← countedTiles_addTile hp]
      exact ih hnodup
    · -- a tile that exists: the loop is over
      rw [if_neg h2, run_indexTiles_existing db h2]
      intro m
      rw [counters_growTile_two h2]
      simp only [List.mem_singleton]

/-- The counters tell which tiles are counted. -/
theorem CountsEach.iff {us : List Str} (h : CountsEach ts db db') :
    CountsEach us db db' ↔ ∀ n, n ∈ ts ↔ n ∈ us := by
  refine forall_congr' fun n => ?_
  rw [h n]
  by_cases ht : n ∈ ts <;> by_cases hu : n ∈ us
  · simp [ht, hu]
  · simp [ht, hu, bump_ne_self]
  · simp [ht, hu, (bump_ne_self _).symm]
  · simp [ht, hu]

/-- All of them are counted if and only if those before the last one are new. -/
theorem mem_countedTiles_iff (hnodup : ts.Nodup) :
    (∀ n, n ∈ db.countedTiles ts ↔ n ∈ ts) ↔ ∀ n ∈ ts.dropLast, db.tiles 2 n = [] := by
  -- over the names: the loop gets past each one but the last only when it is new
  induction ts with
  | nil => simp [Db.countedTiles]
  | cons t ts ih =>
    obtain ⟨ht, hnodup⟩ := List.nodup_cons.mp hnodup
    have ih := ih hnodup
    unfold Db.countedTiles
    cases ts with
    | nil => split <;> simp [Db.countedTiles]
    | cons u ts =>
      rw [List.dropLast_cons_cons, List.forall_mem_cons, ← ih]
      split
      · next h2 =>
        refine ⟨fun h => ⟨h2, fun n => ⟨fun hn => countedTiles_subset hn, fun hn => ?_⟩⟩,
          fun h n => ?_⟩
        · -- a tile of the rest is not the one in front
          refine (List.mem_cons.mp ((h n).mpr (List.mem_cons_of_mem t hn))).resolve_left ?_
          rintro rfl
          exact ht hn
        · rw [List.mem_cons, h.2 n, ← List.mem_cons]
      · next h2 =>
        refine iff_of_false (fun h => ?_) fun h => h2 h.1
        have hu := (h u).mpr (by simp)
        rw [List.mem_singleton] at hu
        exact ht (by simp [hu])

/-- The loop counts every tile of a list without repetitions if and only if those before the
last one are new. -/
theorem countsEach_indexTiles_iff {coordSet : List Coord}
    (hnodup : (coordSet.map coordName).Nodup) :
    CountsEach (coordSet.map coordName) db ((indexTiles false coordSet).run db).2 ↔
      ∀ p ∈ coordSet.dropLast, db.tiles 2 (coordName p) = [] := by
  rw [(countsEach_countedTiles hnodup).iff, mem_countedTiles_iff hnodup, ← List.map_dropLast,
    List.forall_mem_map]

end Loop

/-- **Every tile of an object is counted**, each exactly once and no other, if and only if
all the listed tiles but the last one are new. -/
theorem countsEach_shardIndexer_iff {threshold : ℤ} {coordSet : List Coord} {db : Db}
    (hnodup : (coordSet.map coordName).Nodup) :
    CountsEach (coordSet.map coordName) db ((shardIndexer threshold coordSet false).run db).2 ↔
      ∀ p ∈ coordSet.dropLast, db.tiles 2 (coordName p) = [] := by
  rw [← countsEach_indexTiles_iff hnodup]
  refine forall_congr' fun n => ?_
  have hframe := (sameIndex_shardIndexer threshold coordSet false db).1
  rw [Db.counters, Db.tiles, hframe]
  rfl

section Examples

/-- Two points in tiles that are both new. -/
theorem countsEach_two_new :
    CountsEach ["/012/041/00/00".toList, "/013/041/00/00".toList] Db.empty
      ((shardIndexer 10 [(12, 41), (13, 41)] false).run Db.empty).2 := by
  have hnames : ([(12, 41), (13, 41)] : List Coord).map coordName =
      ["/012/041/00/00".toList, "/013/041/00/00".toList] := by decide +kernel
  rw [← hnames]
  exact (countsEach_shardIndexer_iff (by decide)).mpr fun _ _ => rfl

/-- The first of two points is in a tile that exists: the tile of the other one is not counted. -/
theorem second_tile_not_counted :
    ∃ (db : Db) (coordSet : List Coord), db.OneDocumentEach ∧
      calculateGeometryIndex (fun _ _ _ => false)
        (feature "MultiPoint" (.array [Coord.toJson (13, 41), Coord.toJson (14, 41)])) =
          some coordSet ∧
      (coordSet.map coordName).Nodup ∧
      ¬CountsEach (coordSet.map coordName) db ((shardIndexer 10 coordSet false).run db).2 := by
  refine ⟨((shardIndexer 10 [(13, 41)] false).run Db.empty).2, [(13, 41), (14, 41)],
    by decide +kernel, rfl, by decide +kernel, fun h => ?_⟩
  have hmissing := h (coordName (14, 41))
  rw [if_pos (by simp)] at hmissing
  exact absurd hmissing (by decide +kernel)

end Examples

end OpenGeoBase
