import OpenGeoBase.Lib.Transition
import OpenGeoBase.Repo.Rebuild

/-!
# Runs of the shard indexer

Point objects come and go, and the index is rebuilt from time to time. A state
holds the database and the bag of points inserted and not yet deleted.

The hierarchy of tiles matches the bag (`TileHierarchy`) as long as every deletion
either leaves another object in its level-2 tile or takes the last level-2 tile out
of its level-0 tile, and no longer than that
(`tileHierarchy_throughout_iff`). Otherwise a level-2 tile goes whose level-0 tile
stays. If its level-1 tile stays too, that keeps its child: nothing ever decreases
a number of children. If the level-1 tile goes, `decreaseCounter` counts the
level-0 tile down twice: once in the call for the level-1 tile, which runs the loop
over the levels below it itself, and once in the loop of the call for the level-2
tile.
-/

namespace OpenGeoBase

open Text AtomicCalls Collection Tally Transition

/-! ### The system -/

/-- The database, and the points inserted and not yet deleted. -/
structure IndexerState where
  db : Db
  live : List Coord

/-- What can happen. -/
inductive IndexerOp where
  | insert (p : Coord)
  | delete (p : Coord)
  | rebuild (sorts : ℕ → ℕ → CounterSort) (bound : ℕ)

namespace IndexerState

/-- Nothing is stored yet. -/
def start : IndexerState := ⟨Db.empty, []⟩

variable (threshold : ℤ)

/-- A point comes in. -/
def insert (p : Coord) (s : IndexerState) : IndexerState where
  db := ((shardIndexer threshold (pointIndex p.1 p.2) false).run s.db).2
  live := p :: s.live

/-- A point goes. -/
def delete (p : Coord) (s : IndexerState) : IndexerState where
  db := ((shardIndexer threshold (pointIndex p.1 p.2) true).run s.db).2
  live := s.live.erase p

/-- The index is rebuilt. -/
def rebuild (sorts : ℕ → ℕ → CounterSort) (bound : ℕ) (s : IndexerState) : IndexerState where
  db := ((rebuildIndex threshold sorts bound).run s.db).2
  live := s.live

end IndexerState

/-- The steps. Only points in the bag are deleted, and a rebuild is over when it has returned. -/
inductive IndexerStep (threshold : ℤ) : IndexerState → IndexerOp → IndexerState → Prop where
  | insert (s : IndexerState) (p : Coord) :
    IndexerStep threshold s (.insert p) (s.insert threshold p)
  | delete (s : IndexerState) (p : Coord) (hp : p ∈ s.live) :
    IndexerStep threshold s (.delete p) (s.delete threshold p)
  | rebuild (s : IndexerState) (sorts : ℕ → ℕ → CounterSort) (bound : ℕ)
      (hret : ((rebuildIndex threshold sorts bound).run s.db).1 = .returned) :
    IndexerStep threshold s (.rebuild sorts bound) (s.rebuild threshold sorts bound)

/-- The indexer of one repository, from the empty database on. -/
def indexer (threshold : ℤ) : System IndexerState IndexerOp where
  init s := s = .start
  step := IndexerStep threshold

section Runs

variable {threshold : ℤ} {h : List (IndexerState × IndexerOp)} {s : IndexerState}

/-- The run of no steps. -/
theorem run_start : Run (indexer threshold) [] .start := .nil rfl

theorem run_insert (hrun : Run (indexer threshold) h s) (p : Coord) :
    Run (indexer threshold) (h ++ [(s, .insert p)]) (s.insert threshold p) :=
  hrun.snoc (IndexerStep.insert s p)

theorem run_delete (hrun : Run (indexer threshold) h s) {p : Coord} (hp : p ∈ s.live) :
    Run (indexer threshold) (h ++ [(s, .delete p)]) (s.delete threshold p) :=
  hrun.snoc (IndexerStep.delete s p hp)

theorem run_rebuild (hrun : Run (indexer threshold) h s) {sorts : ℕ → ℕ → CounterSort}
    {bound : ℕ} (hret : ((rebuildIndex threshold sorts bound).run s.db).1 = .returned) :
    Run (indexer threshold) (h ++ [(s, .rebuild sorts bound)])
      (s.rebuild threshold sorts bound) :=
  hrun.snoc (IndexerStep.rebuild s sorts bound hret)

end Runs

/-- The level-2 tile of a point. -/
def tileOf (p : Coord) : Str := coordName (floor10 p.1 2, floor10 p.2 2)

/-- The level-2 tiles of the points in the bag, one entry for each point. -/
def IndexerState.tiles (s : IndexerState) : List Str := s.live.map tileOf

/-- The tile of a point has a tile name. -/
theorem isTileName_tileOf (p : Coord) : IsTileName (tileOf p) :=
  isTileName_calculateLATLONName _ _

/-- When a point goes the tiles of the others remain. -/
theorem tiles_erase_perm {live : List Coord} {p : Coord} (hp : p ∈ live) :
    ((live.map tileOf).erase (tileOf p)).Perm ((live.erase p).map tileOf) := by
  have h : (live.map tileOf).Perm (tileOf p :: (live.erase p).map tileOf) :=
    (List.perm_cons_erase hp).map tileOf
  have he := h.erase (tileOf p)
  rwa [List.erase_cons_head] at he

/-! ### What a step does to the tiles -/

section Steps

variable (threshold : ℤ) (p : Coord) (db : Db)

/-- The code's insertion is that of the model up to the version. -/
theorem insert_sameIndex :
    Db.SameIndex (db.insertObject (tileOf p))
      ((shardIndexer threshold (pointIndex p.1 p.2) false).run db).2 := by
  have hs := sameIndex_shardIndexer threshold [(floor10 p.1 2, floor10 p.2 2)] false db
  unfold Db.insertObject
  -- a tile that is new, and one that exists
  split
  · next h2 =>
    rw [run_indexTiles_new (p := (floor10 p.1 2, floor10 p.2 2)) db h2] at hs
    exact hs
  · next h2 =>
    rw [run_indexTiles_existing (p := (floor10 p.1 2, floor10 p.2 2)) db h2] at hs
    exact hs

theorem delete_sameIndex :
    Db.SameIndex (db.deleteObject (tileOf p))
      ((shardIndexer threshold (pointIndex p.1 p.2) true).run db).2 := by
  have hs := sameIndex_shardIndexer threshold [(floor10 p.1 2, floor10 p.2 2)] true db
  rw [run_indexTiles_delete] at hs
  exact hs

variable {threshold p db} {s : IndexerState}

/-- The counters stay right when a point is inserted. -/
theorem Counts.insert_point (h : Counts s.tiles s.db) :
    Counts (s.insert threshold p).tiles (s.insert threshold p).db :=
  (h.insert (isTileName_tileOf p)).congr (insert_sameIndex threshold p s.db).1

theorem Children.insert_point (h : Children s.tiles s.db) (hc : Counts s.tiles s.db) :
    Children (s.insert threshold p).tiles (s.insert threshold p).db :=
  (h.insert hc).congr (insert_sameIndex threshold p s.db).1

theorem Counts.delete_point (hp : p ∈ s.live)
    (h : Counts (s.tiles.erase (tileOf p)) (s.db.deleteObject (tileOf p))) :
    Counts (s.delete threshold p).tiles (s.delete threshold p).db :=
  (h.perm (tiles_erase_perm hp)).congr (delete_sameIndex threshold p s.db).1

theorem Children.delete_point (hp : p ∈ s.live)
    (h : Children (s.tiles.erase (tileOf p)) (s.db.deleteObject (tileOf p))) :
    Children (s.delete threshold p).tiles (s.delete threshold p).db :=
  (h.perm (tiles_erase_perm hp)).congr (delete_sameIndex threshold p s.db).1

/-- The tile of a point in use is counted. -/
theorem count_tileOf_pos (hp : p ∈ s.live) : 0 < s.tiles.count (tileOf p) :=
  List.count_pos_iff.mpr (List.mem_map_of_mem hp)

end Steps

/-! ### The hierarchy, read off the documents -/

/-- The number of level-1 documents beneath a level-0 tile. -/
def Db.levelOneBeneath (db : Db) (n : Str) : ℕ :=
  db.fullTileCollection.countP fun d => d.level == 1 && d.name100 == n

/-- The full-tile collection is that of the objects whose level-2 tiles are listed in
`live`: each tile has one document if an object lies in it and none otherwise, a
level-2 tile counts its objects, a level-1 tile the inhabited level-2 tiles beneath
it as counter and as children, a level-0 tile those beneath it as counter and the
level-1 documents beneath it as children. -/
structure TileHierarchy (live : List Str) (db : Db) : Prop where
  level2 : ∀ n, (db.tiles 2 n).map TileDoc.counter =
    if live.count n = 0 then [] else [(live.count n : ℤ)]
  level1 : ∀ n, (db.tiles 1 n).map (fun d => (d.counter, d.children)) =
    if beneath name10Of live.toFinset n = 0 then []
    else [((beneath name10Of live.toFinset n : ℤ), (beneath name10Of live.toFinset n : ℤ))]
  level0 : ∀ n, (db.tiles 0 n).map (fun d => (d.counter, d.children)) =
    if beneath name100Of live.toFinset n = 0 then []
    else [((beneath name100Of live.toFinset n : ℤ), (db.levelOneBeneath n : ℤ))]

section Documents

variable {live : List Str} {db : Db}

/-- Where both numbers are tallies there is one document with both. -/
private theorem map_counter_children {c : List TileDoc} {j k : ℕ}
    (hj : c.map TileDoc.counter = tally j) (hk : c.map TileDoc.children = tally k) :
    c.map (fun d => (d.counter, d.children)) = if j = 0 then [] else [((j : ℤ), (k : ℤ))] := by
  -- the counters say how many documents there are: none or one
  match c, j with
  | [], 0 => rfl
  | [], j + 1 => simp at hj
  | d :: ds, 0 => simp at hj
  | d :: ds, j + 1 =>
    obtain ⟨hd, hds⟩ := List.cons.inj hj
    obtain rfl := List.map_eq_nil_iff.mp hds
    cases k with
    | zero => simp at hk
    | succ k =>
      have hd' : d.children = ((k + 1 : ℕ) : ℤ) := (List.cons.inj hk).1
      rw [if_neg (Nat.succ_ne_zero j), List.map_cons, List.map_nil, hd, hd']

/-- The level-1 documents have different names. -/
private theorem Counts.nodup_level1 (h : Counts live db) :
    ((db.fullTileCollection.filter fun d => d.level == 1).map TileDoc.name10).Nodup := by
  rw [List.nodup_iff_count_le_one]
  intro n
  calc
    _ = (db.tiles 1 n).length := by
      rw [List.count_eq_countP, List.countP_map, List.countP_filter, List.countP_eq_length_filter]
      rfl
    _ ≤ 1 := h.length_tiles_le_one (by omega) n

/-- The level-1 tiles beneath a name are those in use. -/
theorem Counts.levelOneBeneath (h : Counts live db) (n : Str) :
    db.levelOneBeneath n = beneath name100Of (live.toFinset.image name10Of) n := by
  have hset : ((db.fullTileCollection.filter fun d => d.level == 1).map TileDoc.name10).toFinset =
      live.toFinset.image name10Of := by
    ext m
    rw [List.mem_toFinset, ← not_iff_not, ← h.tiles_one_eq_nil_iff, Db.tiles,
      List.filter_eq_nil_iff]
    simp [TileDoc.isTile_iff, TileDoc.key]
    grind
  -- a level-1 document lies beneath the level-0 tile of its own name
  have hname : ∀ d ∈ db.fullTileCollection.filter fun d => d.level == 1,
      d.name100 == n ↔ decide (name100Of d.name10 = n) := by
    intro d hd
    obtain ⟨hd, hl⟩ := List.mem_filter.mp hd
    have hw := h.wellNamed d hd
    unfold TileDoc.WellNamed at hw
    rw [eq_of_beq hl] at hw
    rw [hw.2.1]
    simp
  calc
    db.levelOneBeneath n
    _ = (db.fullTileCollection.filter fun d => d.level == 1).countP (·.name100 == n) := by
      rw [List.countP_filter]
      exact List.countP_congr fun d _ => by simp [and_comm]
    _ = (db.fullTileCollection.filter fun d => d.level == 1).countP
        fun d => decide (name100Of d.name10 = n) := List.countP_congr hname
    _ = beneath name100Of (live.toFinset.image name10Of) n := by
      rw [← hset, beneath_toFinset h.nodup_level1, List.countP_map]
      rfl

/-- Right counters and right children make the hierarchy. -/
theorem Counts.tileHierarchy (h : Counts live db) (hc : Children live db) :
    TileHierarchy live db where
  level2 n := h.level2 n
  level1 n := map_counter_children (h.level1 n) (hc.level1 n)
  level0 n := by
    rw [h.levelOneBeneath]
    exact map_counter_children (h.level0 n) (hc.level0 n)

namespace TileHierarchy

variable (h : TileHierarchy live db)

include h

/-- A level-1 tile has the tiles in use beneath it as its children. -/
theorem childCounts_one (n : Str) :
    db.childCounts 1 n = tally (beneath name10Of live.toFinset n) := by
  have hsnd := congrArg (List.map Prod.snd) (h.level1 n)
  rw [List.map_map] at hsnd
  refine Eq.trans hsnd ?_
  unfold tally
  split <;> rfl

/-- A level-0 tile counts the level-2 tiles in use beneath it. -/
theorem counters_zero (n : Str) :
    db.counters 0 n = tally (beneath name100Of live.toFinset n) := by
  have hfst := congrArg (List.map Prod.fst) (h.level0 n)
  rw [List.map_map] at hfst
  refine Eq.trans hfst ?_
  unfold tally
  split <;> rfl

end TileHierarchy

end Documents

/-! ### The exact condition -/

/-- A deletion that leaves another object in the level-2 tile, or takes the last
inhabited level-2 tile out of its level-0 tile. -/
def KeepsHierarchy (s : IndexerState) : IndexerOp → Prop
  | .delete p => 1 < s.tiles.count (tileOf p) ∨
      beneath name100Of s.tiles.toFinset (name100Of (tileOf p)) = 1
  | _ => True

/-- The counters and the children are those of the bag. -/
private def Indexed (s : IndexerState) : Prop := Counts s.tiles s.db ∧ Children s.tiles s.db

/-- Every step that meets the condition keeps the hierarchy. -/
private theorem Indexed.step {threshold : ℤ} {s s' : IndexerState} {op : IndexerOp}
    (hI : Indexed s) (hok : KeepsHierarchy s op) (hstep : IndexerStep threshold s op s') :
    Indexed s' := by
  obtain ⟨hcounts, hchildren⟩ := hI
  cases hstep with
  | insert p => exact ⟨hcounts.insert_point, hchildren.insert_point hcounts⟩
  | delete p hp =>
    have hpos := count_tileOf_pos hp
    by_cases hk : 1 < s.tiles.count (tileOf p)
    · -- another object stays in the tile
      exact ⟨(hcounts.shrink hk).delete_point hp, (hchildren.shrink hcounts hk).delete_point hp⟩
    · -- the last object of the last tile of its level-0 tile
      have h1 : s.tiles.count (tileOf p) = 1 := by omega
      have h100 := hok.resolve_left hk
      exact ⟨(hcounts.clear h1 h100).delete_point hp,
        (hchildren.clear hcounts h1 h100).delete_point hp⟩
  -- a rebuild changes leaves and cancellations, no counter and no name
  | rebuild sorts bound hret =>
    have hframe := within_rebuildIndex threshold sorts bound s.db
    exact ⟨hcounts.sameCores hframe, hchildren.sameCores hframe⟩

/-- Any other deletion breaks the hierarchy. -/
private theorem Indexed.keepsHierarchy {threshold : ℤ} {s s' : IndexerState} {op : IndexerOp}
    (hI : Indexed s) (hstep : IndexerStep threshold s op s')
    (h : TileHierarchy s'.tiles s'.db) : KeepsHierarchy s op := by
  obtain ⟨hcounts, hchildren⟩ := hI
  cases hstep with
  | insert p => trivial
  | rebuild sorts bound hret => trivial
  | delete p hp =>
    -- a deletion outside the condition leaves a count that is not that of the tiles
    by_contra hbad
    unfold KeepsHierarchy at hbad
    push Not at hbad
    have hpos := count_tileOf_pos hp
    have h1 : s.tiles.count (tileOf p) = 1 := by omega
    have hmem : tileOf p ∈ s.tiles.toFinset := by simpa using mem_of_count_eq_one h1
    have htiles : (s.delete threshold p).tiles.toFinset = (s.tiles.erase (tileOf p)).toFinset :=
      (List.toFinset_eq_of_perm _ _ (tiles_erase_perm hp)).symm
    have hdocs : (s.delete threshold p).db.fullTileCollection =
        (s.db.deleteObject (tileOf p)).fullTileCollection :=
      (delete_sameIndex threshold p s.db).1
    have h10 : 0 < beneath name10Of s.tiles.toFinset (name10Of (tileOf p)) :=
      beneath_pos_iff.mpr (Finset.mem_image_of_mem _ hmem)
    have h100 : 0 < beneath name100Of s.tiles.toFinset (name100Of (tileOf p)) :=
      beneath_pos_iff.mpr (Finset.mem_image_of_mem _ hmem)
    rcases Nat.lt_or_ge 1 (beneath name10Of s.tiles.toFinset (name10Of (tileOf p))) with hs | hs
    · -- the level-1 tile stays, with a child too many
      refine hchildren.not_prune hcounts h1 hs ?_
      rw [← htiles, ← h.childCounts_one, Db.childCounts, Db.childCounts, Db.tiles, Db.tiles, hdocs]
    · -- the level-1 tile goes, and the level-0 tile is counted down twice
      have hcut := hcounts.not_cut h1 (by omega) (by omega)
      have hgot : (s.db.deleteObject (tileOf p)).counters 0 (name100Of (tileOf p)) =
          tally (beneath name100Of (s.tiles.erase (tileOf p)).toFinset
            (name100Of (tileOf p))) := by
        rw [← htiles, ← h.counters_zero, Db.counters, Db.counters, Db.tiles, Db.tiles, hdocs]
      have herase := beneath_erase (b := name100Of (tileOf p)) (f := name100Of) hmem
      rw [← toFinset_erase_of_eq_one h1, if_pos rfl] at herase
      have heq := tally_injective (hgot.symm.trans hcut)
      omega

/-- **The tile hierarchy, exactly.** A run of insertions, deletions and rebuilds
shows the tile hierarchy of its objects in every state if and only if each of its
deletions leaves another object in the level-2 tile or takes the last inhabited
level-2 tile out of its level-0 tile. -/
theorem tileHierarchy_throughout_iff {threshold : ℤ} {h : List (IndexerState × IndexerOp)}
    {s : IndexerState} (hrun : Run (indexer threshold) h s) :
    Throughout (fun s => TileHierarchy s.tiles s.db) h s ↔ Admitted KeepsHierarchy h := by
  refine Run.throughout_iff (I := Indexed) ?_ (fun s hI => hI.1.tileHierarchy hI.2)
    (fun s op s' hI hok hstep => Indexed.step hI hok hstep)
    (fun s op s' hI hstep hP => Indexed.keepsHierarchy hI hstep hP) hrun
  rintro s rfl
  exact ⟨Counts.empty, Children.empty⟩

section Examples

/-- Two points of one level-2 tile come in and the first one goes. -/
theorem tileHierarchy_throughout_same_tile :
    let p : Coord := (12341 / 1000, 4180 / 100)
    let q : Coord := (12349 / 1000, 4180 / 100)
    let s₁ := IndexerState.start.insert 10 p
    let s₂ := s₁.insert 10 q
    Throughout (fun s => TileHierarchy s.tiles s.db)
      [(IndexerState.start, IndexerOp.insert p), (s₁, .insert q), (s₂, .delete p)]
      (s₂.delete 10 p) := by
  intro p q s₁ s₂
  have hrun : Run (indexer 10)
      [(IndexerState.start, IndexerOp.insert p), (s₁, .insert q), (s₂, .delete p)]
      (s₂.delete 10 p) :=
    run_delete (run_insert (run_insert run_start p) q) (by decide +kernel)
  refine (tileHierarchy_throughout_iff hrun).mpr ?_
  have hkeep : KeepsHierarchy s₂ (.delete p) := Or.inl (by decide +kernel)
  simp only [Admitted, List.mem_cons, List.not_mem_nil, or_false, forall_eq_or_imp, forall_eq]
  exact ⟨trivial, trivial, hkeep⟩

/-- Points of two neighbouring tiles come in and the first one goes: the level-1
tile still has two children. -/
theorem tileHierarchy_stale_child :
    ∃ h s, Run (indexer 10) h s ∧ ¬TileHierarchy s.tiles s.db := by
  let p : Coord := (12341 / 1000, 4180 / 100)
  let q : Coord := (12351 / 1000, 4180 / 100)
  let s := ((IndexerState.start.insert 10 p).insert 10 q).delete 10 p
  have hrun : Run (indexer 10) _ s :=
    run_delete (run_insert (run_insert run_start p) q) (by decide +kernel)
  refine ⟨_, s, hrun, fun h => ?_⟩
  -- two children are still counted where one tile is left
  have hdoc : (s.db.tiles 1 "/012/041/38".toList).map (fun d => (d.counter, d.children)) =
      [(1, 2)] := by decide +kernel
  have hone : beneath name10Of s.tiles.toFinset "/012/041/38".toList = 1 := by decide +kernel
  have h1 := h.level1 "/012/041/38".toList
  rw [hdoc, hone] at h1
  exact absurd h1 (by decide)

end Examples

end OpenGeoBase
