import OpenGeoBase.Repo.IndexerRun
import OpenGeoBase.Repo.PrintedValue

/-!
# The periodic rebuild from the stored objects

Every six hours `checkVersion` scans all object indices, counts the tiles in three
maps, and has `FullTileCollectionRestore` write the full-tile collection anew from
them. `shardIndexer` keeps the same collection up to date object by object, in code
of its own.

The two do the same. After a scan the maps count what the scanned objects call for
(`Scanned`), so the restored collection satisfies `Counts` and `Children` for them
(`counts_restore`, `children_restore`); the indexer's insertions do for the objects
inserted; and two such collections are the same multiset of documents, up to flags
(`perm_cores`).

But the indexer takes an object from the text of its packet, and the scan from a text
that `bsoncxx::to_json` prints of the document. So the collections agree if and only if
each tile has as many of the points in it after they have been printed as before
(`feed_perm_restore_iff`).
-/

namespace OpenGeoBase

open Text AtomicCalls Collection Tally

/-! ### The scan -/

/-- An entry of a `std::map<std::string, std::pair<int, int>>`. -/
structure MapEntry where
  key : Str
  counter : ℤ
  children : ℤ
  deriving DecidableEq

/-- The maps of `checkVersion`, each as the list of its entries. The maps iterate in the order
of the keys, the lists in that of the insertions; only the order of the restored documents
depends on it. -/
structure CoordMaps where
  coordMap1 : List MapEntry
  coordMap10 : List MapEntry
  coordMap100 : List MapEntry

/-- The entry of a name. -/
def MapEntry.isOf (name : Str) (e : MapEntry) : Bool := e.key == name

/-- The body of the loop over the coordinate pairs of an object in `checkVersion`. -/
def scanTile (coord : Coord) (m : CoordMaps) : CoordMaps :=
  let coordName1 := coordName coord
  let new1 := (m.coordMap1.find? (MapEntry.isOf coordName1)).isNone
  let coordMap1 :=
    if new1 then insertOne ⟨coordName1, 1, 1⟩ m.coordMap1
    else updateOne (MapEntry.isOf coordName1) (fun e => { e with counter := e.counter + 1 })
      m.coordMap1
  let coordName100 := name100Of coordName1
  let coordName10 := name10Of coordName1
  let new10 := (m.coordMap10.find? (MapEntry.isOf coordName10)).isNone
  let coordMap10 :=
    if new10 then insertOne ⟨coordName10, 1, 1⟩ m.coordMap10
    else if new1 then
      updateOne (MapEntry.isOf coordName10)
        (fun e => { e with counter := e.counter + 1, children := e.children + 1 }) m.coordMap10
    else m.coordMap10
  let coordMap100 :=
    if (m.coordMap100.find? (MapEntry.isOf coordName100)).isNone then
      insertOne ⟨coordName100, 1, 1⟩ m.coordMap100
    else
      updateOne (MapEntry.isOf coordName100)
        (fun e => { e with
          counter := if new1 then e.counter + 1 else e.counter
          children := if new10 then e.children + 1 else e.children }) m.coordMap100
  ⟨coordMap1, coordMap10, coordMap100⟩

/-- The scan of `checkVersion` over the documents of the object indices, in the order of the
cursors, each printed and parsed; `none` when an access fails. -/
def scanObjects (intersects : List Coord → Coord → Coord → Bool) :
    List ObjectDoc → CoordMaps → Option CoordMaps
  | [], m => some m
  | doc :: docs, m => do
    let coordSet ← calculateGeometryIndex intersects doc.content.printed
    scanObjects intersects docs (coordSet.foldl (fun m coord => scanTile coord m) m)

/-! ### The restore -/

/-- The document restored for an entry of `coordMap1`. -/
def MapEntry.tileDoc1 (e : MapEntry) : TileDoc where
  name100 := name100Of e.key
  name10 := name10Of e.key
  name1 := e.key
  children := e.children
  level := 2
  counter := e.counter
  cancelled := false
  leaf := true

/-- The document restored for an entry of `coordMap10`. -/
def MapEntry.tileDoc10 (e : MapEntry) : TileDoc where
  name100 := name100Of e.key
  name10 := e.key
  name1 := xx
  children := e.children
  level := 1
  counter := e.counter
  cancelled := false
  leaf := false

/-- The document restored for an entry of `coordMap100`. -/
def MapEntry.tileDoc100 (e : MapEntry) : TileDoc where
  name100 := e.key
  name10 := xx
  name1 := xx
  children := e.children
  level := 0
  counter := e.counter
  cancelled := false
  leaf := false

/-- A loop of `insert_one` calls. -/
def insertTiles : List TileDoc → Prog Db Unit
  | [] => pure ()
  | doc :: docs => do
    onTiles (insertOne doc)
    insertTiles docs

/-- `MongoStorage::FullTileCollectionRestore`. -/
def FullTileCollectionRestore (threshold : ℤ) (sorts : ℕ → ℕ → CounterSort) (bound : ℕ)
    (m : CoordMaps) : Prog Db Ended := do
  onTiles fun _ => []
  insertTiles (m.coordMap1.map MapEntry.tileDoc1)
  insertTiles (m.coordMap10.map MapEntry.tileDoc10)
  insertTiles (m.coordMap100.map MapEntry.tileDoc100)
  rebuildIndex threshold sorts bound

/-! ### What a scan counts -/

/-- The maps after a scan over the level-2 tiles `ts`. -/
structure Scanned (ts : List Str) (m : CoordMaps) : Prop where
  map1 : ∀ n, m.coordMap1.filter (MapEntry.isOf n) =
    if n ∈ ts then [⟨n, ts.count n, 1⟩] else []
  map10 : ∀ n, m.coordMap10.filter (MapEntry.isOf n) =
    if n ∈ ts.toFinset.image name10Of then
      [⟨n, beneath name10Of ts.toFinset n, beneath name10Of ts.toFinset n⟩] else []
  map100 : ∀ n, m.coordMap100.filter (MapEntry.isOf n) =
    if n ∈ ts.toFinset.image name100Of then
      [⟨n, beneath name100Of ts.toFinset n,
        beneath name100Of (ts.toFinset.image name10Of) n⟩] else []

/-- The maps start with no tile scanned. -/
theorem Scanned.empty : Scanned [] ⟨[], [], []⟩ where
  map1 := by simp
  map10 := by simp
  map100 := by simp

namespace MapEntry

/-- A new entry is found under its own name only. -/
theorem filter_insertOne_isOf (n m : Str) (i j : ℤ) (c : List MapEntry) :
    (insertOne ⟨m, i, j⟩ c).filter (isOf n) =
      c.filter (isOf n) ++ if n = m then [⟨m, i, j⟩] else [] := by
  have hof : isOf n ⟨m, i, j⟩ = true ↔ n = m := beq_iff_eq.trans eq_comm
  rw [filter_insertOne]
  simp only [hof]

/-- An update that keeps the name is seen under this name only. -/
theorem filter_updateOne_isOf (n m : Str) {f : MapEntry → MapEntry} (hf : ∀ e, (f e).key = e.key)
    (c : List MapEntry) :
    (updateOne (isOf m) f c).filter (isOf n) =
      if n = m then (c.filter (isOf n)).modifyHead f else c.filter (isOf n) := by
  split
  · next h =>
    subst h
    exact filter_updateOne_self (fun e he => by rw [isOf, hf]; exact he) c
  · next h =>
    refine filter_updateOne_of_disjoint (fun e he => ?_) c
    have hkey : e.key = m := beq_iff_eq.mp he
    have hne : isOf n e = false := by
      rw [isOf, hkey]
      exact beq_eq_false_iff_ne.mpr (Ne.symm h)
    exact ⟨hne, by rw [isOf, hf]; exact hne⟩

/-- The scan finds no entry if there is none under the name. -/
theorem isNone_find?_isOf (n : Str) (c : List MapEntry) :
    (c.find? (isOf n)).isNone = true ↔ c.filter (isOf n) = [] := by
  rw [find?_eq_head?_filter]
  cases c.filter (isOf n) <;> simp

end MapEntry

section ScanTile

variable {ts : List Str} {m : CoordMaps} {c : Coord}

/-- A level-2 name is new if its tile was not scanned. -/
theorem Scanned.new1_iff (h : Scanned ts m) :
    (m.coordMap1.find? (MapEntry.isOf (coordName c))).isNone = true ↔ coordName c ∉ ts := by
  rw [MapEntry.isNone_find?_isOf, h.map1]
  split
  · next hm => simp [hm]
  · next hm => simp [hm]

theorem Scanned.new10_iff (h : Scanned ts m) (n : Str) :
    (m.coordMap10.find? (MapEntry.isOf n)).isNone = true ↔ n ∉ ts.toFinset.image name10Of := by
  rw [MapEntry.isNone_find?_isOf, h.map10, ite_eq_right_iff]
  exact ⟨fun h hm => List.cons_ne_nil _ _ (h hm), fun h hm => absurd hm h⟩

theorem Scanned.new100_iff (h : Scanned ts m) (n : Str) :
    (m.coordMap100.find? (MapEntry.isOf n)).isNone = true ↔
      n ∉ ts.toFinset.image name100Of := by
  rw [MapEntry.isNone_find?_isOf, h.map100, ite_eq_right_iff]
  exact ⟨fun h hm => List.cons_ne_nil _ _ (h hm), fun h hm => absurd hm h⟩

/-- A tile that was seen before is counted once more, and nothing else changes. -/
theorem Scanned.scanTile_existing (h : Scanned ts m) (ht : coordName c ∈ ts) :
    Scanned (coordName c :: ts) (scanTile c m) := by
  have hT : (coordName c :: ts).toFinset = ts.toFinset := by simp [ht]
  have ht' : coordName c ∈ ts.toFinset := by simpa using ht
  -- the tile was scanned before, and so were its two ancestors: none of the maps gets an entry
  have hnew1 := eq_false_of_ne_true (mt h.new1_iff.mp (not_not.mpr ht))
  have hnew10 := eq_false_of_ne_true (mt (h.new10_iff (name10Of (coordName c))).mp
    (not_not.mpr (Finset.mem_image_of_mem _ ht')))
  have hnew100 := eq_false_of_ne_true (mt (h.new100_iff (name100Of (coordName c))).mp
    (not_not.mpr (Finset.mem_image_of_mem _ ht')))
  -- the updates of the ancestors write back what is there
  have hkeep : ∀ (k : Str) (l : List MapEntry), updateOne (MapEntry.isOf k)
      (fun e => { e with counter := e.counter, children := e.children }) l = l := by
    intro k l
    induction l with
    | nil => rfl
    | cons e l ih => simp [updateOne, ih]
  have hscan : scanTile c m = ⟨updateOne (MapEntry.isOf (coordName c))
      (fun e => { e with counter := e.counter + 1 }) m.coordMap1, m.coordMap10, m.coordMap100⟩ := by
    unfold scanTile
    simp only [hnew1, hnew10, hnew100, Bool.false_eq_true, ↓reduceIte, hkeep]
  rw [hscan]
  refine ⟨fun n => ?_, fun n => ?_, fun n => ?_⟩
  · dsimp only
    rw [MapEntry.filter_updateOne_isOf n _ (by intros; rfl), h.map1]
    -- only the counter of the tile itself goes up
    by_cases hn : n = coordName c
    · subst hn
      simp [ht]
    · simp [hn, Ne.symm hn]
  · rw [hT]
    exact h.map10 n
  · rw [hT]
    exact h.map100 n

/-- A tile that is seen for the first time gets an entry of its own. -/
theorem Scanned.map1_scanTile (h : Scanned ts m) (ht : coordName c ∉ ts) (n : Str) :
    (scanTile c m).coordMap1.filter (MapEntry.isOf n) =
      if n ∈ coordName c :: ts then [⟨n, (coordName c :: ts).count n, 1⟩] else [] := by
  have hnew1 := h.new1_iff.mpr ht
  unfold scanTile
  simp only [hnew1, ↓reduceIte]
  rw [MapEntry.filter_insertOne_isOf, h.map1]
  by_cases hn : n = coordName c
  · subst hn
    simp [ht, List.count_eq_zero.mpr ht]
  · simp [hn, Ne.symm hn]

/-- A tile that is seen for the first time is counted in the level-1 tile around it. -/
theorem Scanned.map10_scanTile (h : Scanned ts m) (ht : coordName c ∉ ts) (n : Str) :
    (scanTile c m).coordMap10.filter (MapEntry.isOf n) =
      if n ∈ (insert (coordName c) ts.toFinset).image name10Of then
        [⟨n, beneath name10Of (insert (coordName c) ts.toFinset) n,
          beneath name10Of (insert (coordName c) ts.toFinset) n⟩] else [] := by
  have ht' : coordName c ∉ ts.toFinset := by simpa using ht
  have hnew1 := h.new1_iff.mpr ht
  unfold scanTile
  simp only [hnew1, ↓reduceIte]
  rw [Finset.image_insert, beneath_insert ht']
  by_cases h10 : name10Of (coordName c) ∈ ts.toFinset.image name10Of
  · -- one more tile in a level-1 tile that had some
    rw [eq_false_of_ne_true (mt (h.new10_iff _).mp (not_not.mpr h10)), if_neg (by decide),
      MapEntry.filter_updateOne_isOf n _ (by intros; rfl), h.map10, Finset.insert_eq_of_mem h10]
    by_cases hn : n = name10Of (coordName c)
    · subst hn
      simp [h10]
    · simp [hn, Ne.symm hn]
  -- The first tile beneath this level-1 name.
  · rw [if_pos ((h.new10_iff _).mpr h10), MapEntry.filter_insertOne_isOf, h.map10]
    by_cases hn : n = name10Of (coordName c)
    · subst hn
      rw [if_neg h10, if_pos rfl, if_pos (Finset.mem_insert_self _ _), if_pos rfl,
        beneath_eq_zero_iff.mpr h10]
      rfl
    · simp [hn, Ne.symm hn]

/-- The children of a level-0 tile grow with the set of level-1 tiles. -/
theorem beneath_insert_name10Of (t n : Str) (T : Finset Str) :
    beneath name100Of (insert (name10Of t) (T.image name10Of)) n =
      beneath name100Of (T.image name10Of) n +
        if name10Of t ∉ T.image name10Of ∧ name100Of t = n then 1 else 0 := by
  by_cases h10 : name10Of t ∈ T.image name10Of
  · rw [Finset.insert_eq_of_mem h10, if_neg (fun h => h.1 h10), Nat.add_zero]
  · rw [beneath_insert h10, name100Of_name10Of]
    simp only [h10, not_false_eq_true, true_and]

/-- A tile that is seen for the first time is counted in the level-0 tile around it, which may get
a level-1 tile more. -/
theorem Scanned.map100_scanTile (h : Scanned ts m) (ht : coordName c ∉ ts) (n : Str) :
    (scanTile c m).coordMap100.filter (MapEntry.isOf n) =
      if n ∈ (insert (coordName c) ts.toFinset).image name100Of then
        [⟨n, beneath name100Of (insert (coordName c) ts.toFinset) n,
          beneath name100Of ((insert (coordName c) ts.toFinset).image name10Of) n⟩] else [] := by
  have ht' : coordName c ∉ ts.toFinset := by simpa using ht
  have hnew1 := h.new1_iff.mpr ht
  unfold scanTile
  simp only [hnew1, ↓reduceIte]
  rw [Finset.image_insert, Finset.image_insert, beneath_insert ht', beneath_insert_name10Of]
  by_cases h100 : name100Of (coordName c) ∈ ts.toFinset.image name100Of
  · -- one more tile in a level-0 tile that had some
    have hnew100 := eq_false_of_ne_true (mt (h.new100_iff _).mp (not_not.mpr h100))
    rw [hnew100, if_neg (by decide), MapEntry.filter_updateOne_isOf n _ (by intros; rfl),
      h.map100, Finset.insert_eq_of_mem h100]
    by_cases hn : n = name100Of (coordName c)
    · subst hn
      have hnew10 := h.new10_iff (name10Of (coordName c))
      by_cases h10 : name10Of (coordName c) ∈ ts.toFinset.image name10Of
      · rw [eq_false_of_ne_true (mt hnew10.mp (not_not.mpr h10))]
        simp [h100, h10]
      · rw [hnew10.mpr h10]
        simp [h100, h10]
    · simp [hn, Ne.symm hn]
  -- The first tile beneath this level-0 name, hence beneath its level-1 name as well.
  · have h10 : name10Of (coordName c) ∉ ts.toFinset.image name10Of := fun hm => by
      have hm' := Finset.mem_image_of_mem name100Of hm
      rw [Finset.image_image, name100Of_comp_name10Of, name100Of_name10Of] at hm'
      exact h100 hm'
    have hzero :
        beneath name100Of (ts.toFinset.image name10Of) (name100Of (coordName c)) = 0 := by
      rw [beneath_eq_zero_iff, Finset.image_image, name100Of_comp_name10Of]
      exact h100
    rw [if_pos ((h.new100_iff _).mpr h100), MapEntry.filter_insertOne_isOf, h.map100]
    by_cases hn : n = name100Of (coordName c)
    · subst hn
      rw [if_neg h100, if_pos rfl, if_pos (Finset.mem_insert_self _ _), if_pos rfl,
        if_pos ⟨h10, rfl⟩, beneath_eq_zero_iff.mpr h100, hzero]
      rfl
    · simp [hn, Ne.symm hn]

/-- A tile that is seen for the first time is counted in the tiles around it. -/
theorem Scanned.scanTile_new (h : Scanned ts m) (ht : coordName c ∉ ts) :
    Scanned (coordName c :: ts) (scanTile c m) := by
  refine ⟨h.map1_scanTile ht, fun n => ?_, fun n => ?_⟩
  · rw [List.toFinset_cons]
    exact h.map10_scanTile ht n
  · rw [List.toFinset_cons]
    exact h.map100_scanTile ht n

/-- One tile more keeps the account of the maps. -/
theorem Scanned.scanTile (h : Scanned ts m) : Scanned (coordName c :: ts) (scanTile c m) := by
  by_cases ht : coordName c ∈ ts
  · exact h.scanTile_existing ht
  · exact h.scanTile_new ht

end ScanTile

theorem Scanned.perm {ts ts' : List Str} {m : CoordMaps} (h : Scanned ts m) (hp : ts.Perm ts') :
    Scanned ts' m where
  map1 n := by rw [h.map1, hp.count_eq]; simp only [hp.mem_iff]
  map10 n := by rw [h.map10, List.toFinset_eq_of_perm _ _ hp]
  map100 n := by rw [h.map100, List.toFinset_eq_of_perm _ _ hp]

/-- The tiles of an object are counted one after the other. -/
theorem Scanned.scanCoords {ts : List Str} {m : CoordMaps} (h : Scanned ts m)
    (coordSet : List Coord) : Scanned (coordSet.map coordName ++ ts)
      (coordSet.foldl (fun m coord => OpenGeoBase.scanTile coord m) m) := by
  induction coordSet generalizing ts m with
  | nil => exact h
  | cons c coordSet ih => exact (ih h.scanTile).perm List.perm_middle

/-- The level-2 tiles of an object, one entry for each coordinate pair. -/
def tilesOf (intersects : List Coord → Coord → Coord → Bool) (v : Value) : List Str :=
  ((calculateGeometryIndex intersects v).getD []).map coordName

/-- The scan of the collection counts the tiles of all its objects. -/
theorem Scanned.scanObjects {intersects : List Coord → Coord → Coord → Bool} {ts : List Str}
    {m : CoordMaps} (h : Scanned ts m) {docs : List ObjectDoc}
    (hdocs : ∀ doc ∈ docs, (calculateGeometryIndex intersects doc.content.printed).isSome) :
    ∃ m', scanObjects intersects docs m = some m' ∧
      Scanned (docs.flatMap (fun doc => tilesOf intersects doc.content.printed) ++ ts) m' := by
  -- the maps are the state of the scan: what is scanned so far, in any order
  induction docs generalizing ts m with
  | nil => exact ⟨m, rfl, h⟩
  | cons doc docs ih =>
    obtain ⟨coordSet, hset⟩ := Option.isSome_iff_exists.mp (hdocs doc List.mem_cons_self)
    obtain ⟨m', hm', hscanned⟩ := ih (h.scanCoords coordSet) fun d hd =>
      hdocs d (List.mem_cons_of_mem _ hd)
    have htiles : tilesOf intersects doc.content.printed = coordSet.map coordName := by
      rw [tilesOf, hset]
      rfl
    refine ⟨m', ?_, hscanned.perm ?_⟩
    · unfold OpenGeoBase.scanObjects
      rw [hset]
      exact hm'
    · rw [List.flatMap_cons, htiles, ← List.append_assoc]
      exact List.perm_append_comm.append_right ts

/-! ### The restored collection -/

/-- The documents are inserted in the order of their list. -/
theorem run_insertTiles (docs : List TileDoc) (db : Db) :
    (insertTiles docs).run db = ((), db.mapTiles (· ++ docs)) := by
  induction docs generalizing db with
  | nil => simp [insertTiles, Db.mapTiles]
  | cons doc docs ih =>
    unfold insertTiles onTiles
    rw [Prog.run_bind, Prog.run_modify, ih]
    simp [Db.mapTiles, insertOne]

/-- The collection `FullTileCollectionRestore` writes. -/
def Db.restore (m : CoordMaps) (db : Db) : Db :=
  db.mapTiles fun _ => m.coordMap1.map MapEntry.tileDoc1 ++ m.coordMap10.map MapEntry.tileDoc10 ++
    m.coordMap100.map MapEntry.tileDoc100

/-- The restoration writes the maps into the collection, then rebuilds the index from it. -/
theorem run_FullTileCollectionRestore (threshold : ℤ) (sorts : ℕ → ℕ → CounterSort) (bound : ℕ)
    (m : CoordMaps) (db : Db) :
    (FullTileCollectionRestore threshold sorts bound m).run db =
      (rebuildIndex threshold sorts bound).run (db.restore m) := by
  unfold FullTileCollectionRestore onTiles
  rw [Prog.run_bind, Prog.run_bind, Prog.run_bind, Prog.run_bind, Prog.run_modify,
    run_insertTiles, run_insertTiles, run_insertTiles]
  rfl

section Restore

variable {ts : List Str} {m : CoordMaps} {db : Db}

/-- The documents of a level are written from the entries under their name. -/
private theorem filter_map_isTile {f : MapEntry → TileDoc} {l : ℕ} {n : Str}
    (hf : ∀ e, (f e).isTile l n = e.isOf n) (c : List MapEntry) :
    (c.map f).filter (TileDoc.isTile l n) = (c.filter (MapEntry.isOf n)).map f := by
  rw [List.filter_map]
  congr 1
  exact List.filter_congr fun e _ => hf e

/-- Under another level than that of the documents there is nothing. -/
private theorem filter_map_isTile_of_level {f : MapEntry → TileDoc} {l : ℕ} {n : Str}
    (hf : ∀ e, (f e).level ≠ l) (c : List MapEntry) :
    (c.map f).filter (TileDoc.isTile l n) = [] := by
  rw [List.filter_eq_nil_iff]
  intro d hd ht
  obtain ⟨e, -, rfl⟩ := List.mem_map.mp hd
  exact hf e (TileDoc.isTile_iff.mp ht).2

/-- What the restored collection holds under a level-2 name. -/
theorem tiles_two_restore (n : Str) : (db.restore m).tiles 2 n =
    (m.coordMap1.filter (MapEntry.isOf n)).map MapEntry.tileDoc1 := by
  unfold Db.restore Db.tiles Db.mapTiles
  dsimp only
  rw [List.filter_append, List.filter_append, filter_map_isTile (fun e => ?_),
    filter_map_isTile_of_level (fun e => ?_), filter_map_isTile_of_level (fun e => ?_),
    List.append_nil, List.append_nil]
  · simp [MapEntry.tileDoc100]
  · simp [MapEntry.tileDoc10]
  · simp [TileDoc.isTile, MapEntry.tileDoc1, MapEntry.isOf, TileDoc.key]

/-- What the restored collection holds under a level-1 name. -/
theorem tiles_one_restore (n : Str) : (db.restore m).tiles 1 n =
    (m.coordMap10.filter (MapEntry.isOf n)).map MapEntry.tileDoc10 := by
  unfold Db.restore Db.tiles Db.mapTiles
  dsimp only
  rw [List.filter_append, List.filter_append, filter_map_isTile_of_level (fun e => ?_),
    filter_map_isTile (fun e => ?_), filter_map_isTile_of_level (fun e => ?_),
    List.append_nil, List.nil_append]
  · simp [MapEntry.tileDoc100]
  · simp [TileDoc.isTile, MapEntry.tileDoc10, MapEntry.isOf, TileDoc.key]
  · simp [MapEntry.tileDoc1]

/-- What the restored collection holds under a level-0 name. -/
theorem tiles_zero_restore (n : Str) : (db.restore m).tiles 0 n =
    (m.coordMap100.filter (MapEntry.isOf n)).map MapEntry.tileDoc100 := by
  unfold Db.restore Db.tiles Db.mapTiles
  dsimp only
  rw [List.filter_append, List.filter_append, filter_map_isTile_of_level (fun e => ?_),
    filter_map_isTile_of_level (fun e => ?_), filter_map_isTile (fun e => ?_),
    List.nil_append, List.nil_append]
  · simp [TileDoc.isTile, MapEntry.tileDoc100, MapEntry.isOf, TileDoc.key]
  · simp [MapEntry.tileDoc10]
  · simp [MapEntry.tileDoc1]

/-- A count beneath a name is written exactly if there is something to count. -/
private theorem tally_beneath {f : Str → Str} {T : Finset Str} {n : Str} :
    tally (beneath f T n) = if n ∈ T.image f then [(beneath f T n : ℤ)] else [] := by
  by_cases h : n ∈ T.image f
  · rw [if_pos h, tally_of_pos (beneath_pos_iff.mpr h)]
  · rw [if_neg h, beneath_eq_zero_iff.mpr h, tally_zero]

/-- Every restored document carries the names of its level. -/
theorem Scanned.wellNamed (h : Scanned ts m) (hts : ∀ n ∈ ts, IsTileName n) :
    (db.restore m).WellNamed := by
  have hself : ∀ {c : List MapEntry} {e : MapEntry}, e ∈ c → e ∈ c.filter (MapEntry.isOf e.key) :=
    fun he => List.mem_filter.mpr ⟨he, beq_self_eq_true _⟩
  intro d hd
  rcases List.mem_append.mp hd with hd | hd
  -- one of the three maps: an entry is there only for the tile or ancestor it is named after
  · rcases List.mem_append.mp hd with hd | hd
    · obtain ⟨e, he, rfl⟩ := List.mem_map.mp hd
      have hmem := hself he
      rw [h.map1] at hmem
      split at hmem
      · next hkey => exact ⟨hts _ hkey, rfl, rfl⟩
      · exact absurd hmem List.not_mem_nil
    · obtain ⟨e, he, rfl⟩ := List.mem_map.mp hd
      have hmem := hself he
      rw [h.map10] at hmem
      split at hmem
      · next hkey =>
        obtain ⟨t, -, ht⟩ := Finset.mem_image.mp hkey
        have hpath : IsPath 3 e.key := ht ▸ isPath_name10Of t
        exact ⟨hpath, rfl, rfl⟩
      · exact absurd hmem List.not_mem_nil
  · obtain ⟨e, he, rfl⟩ := List.mem_map.mp hd
    have hmem := hself he
    rw [h.map100] at hmem
    split at hmem
    · next hkey =>
      obtain ⟨t, -, ht⟩ := Finset.mem_image.mp hkey
      have hpath : IsPath 2 e.key := ht ▸ isPath_name100Of t
      exact ⟨hpath, rfl, rfl⟩
    · exact absurd hmem List.not_mem_nil

/-- Every restored document has the right counter. -/
theorem Scanned.counts_restore (h : Scanned ts m) (hts : ∀ n ∈ ts, IsTileName n) :
    Counts ts (db.restore m) where
  isTileName := hts
  wellNamed := h.wellNamed hts
  level2 n := by
    rw [Db.counters, tiles_two_restore, h.map1]
    split
    · next hn => exact (tally_of_pos (List.count_pos_iff.mpr hn)).symm
    · next hn => rw [List.count_eq_zero.mpr hn]; rfl
  level1 n := by
    rw [Db.counters, tiles_one_restore, h.map10, tally_beneath]
    split <;> rfl
  level0 n := by
    rw [Db.counters, tiles_zero_restore, h.map100, tally_beneath]
    split <;> rfl

/-- Every restored document has the right number of children. -/
theorem Scanned.children_restore (h : Scanned ts m) : Children ts (db.restore m) where
  level2 n := by
    rw [Db.childCounts, tiles_two_restore, h.map1]
    split <;> rfl
  level1 n := by
    rw [Db.childCounts, tiles_one_restore, h.map10, tally_beneath]
    split <;> rfl
  level0 n := by
    rw [Db.childCounts, tiles_zero_restore, h.map100, tally_beneath, Finset.image_image,
      name100Of_comp_name10Of]
    split <;> rfl

end Restore

/-! ### Counted alike, the same documents -/

/-- The well-named document of a tile with these counts, without its flags. -/
def coreOf (l : ℕ) (n : Str) (c : ℤ × ℤ) : TileDoc where
  name100 := match l with | 0 => n | _ => name100Of n
  name10 := match l with | 0 => xx | 1 => n | _ => name10Of n
  name1 := match l with | 0 | 1 => xx | _ => n
  children := c.2
  level := l
  counter := c.1
  cancelled := false
  leaf := false

/-- A well-named document is known by its level, its name and its numbers. -/
theorem TileDoc.WellNamed.core_eq {d : TileDoc} (h : d.WellNamed) {l : ℕ} {n : Str}
    (ht : d.isTile l n) : d.core = coreOf l n (d.counter, d.children) := by
  obtain ⟨hkey, hl⟩ := TileDoc.isTile_iff.mp ht
  obtain ⟨name100, name10, name1, children, level, counter, cancelled, leaf⟩ := d
  unfold TileDoc.WellNamed at h
  -- a tile document keeps one name for its level; the other two follow from it
  match l with
  | 0 =>
    obtain rfl : level = 0 := hl
    obtain rfl : name100 = n := hkey
    obtain ⟨-, rfl, rfl⟩ : _ ∧ name10 = xx ∧ name1 = xx := h
    rfl
  | 1 =>
    obtain rfl : level = 1 := hl
    obtain rfl : name10 = n := hkey
    obtain ⟨-, rfl, rfl⟩ : _ ∧ name100 = name100Of name10 ∧ name1 = xx := h
    rfl
  | 2 =>
    obtain rfl : level = 2 := hl
    obtain rfl : name1 = n := hkey
    obtain ⟨-, rfl, rfl⟩ : _ ∧ name10 = name10Of name1 ∧ name100 = name100Of name1 := h
    rfl
  | l + 3 =>
    obtain rfl : level = l + 3 := hl
    exact h.elim

namespace Db

variable {db db' : Db}

/-- The cores of the documents of a tile, from their counts. -/
theorem WellNamed.map_core_tiles (h : db.WellNamed) (l : ℕ) (n : Str) :
    (db.tiles l n).map TileDoc.core =
      ((db.counters l n).zip (db.childCounts l n)).map (coreOf l n) := by
  unfold counters childCounts
  rw [List.zip_map', List.map_map]
  refine List.map_congr_left fun d hd => ?_
  obtain ⟨hmem, ht⟩ := List.mem_filter.mp hd
  exact (h d hmem).core_eq ht

/-- A document occurs as often as among those of its tile. -/
theorem count_core (db : Db) (a : TileDoc) :
    (db.fullTileCollection.map TileDoc.core).count a =
      ((db.tiles a.level (a.key a.level)).map TileDoc.core).count a := by
  rw [List.count_eq_countP, List.count_eq_countP, List.countP_map, List.countP_map, tiles,
    List.countP_filter]
  refine List.countP_congr fun d _ => ?_
  simp only [Function.comp_apply, Bool.and_eq_true, beq_iff_eq]
  refine ⟨fun h => ⟨h, ?_⟩, fun h => h.1⟩
  subst h
  exact TileDoc.isTile_iff.mpr ⟨TileDoc.key_congr rfl _, rfl⟩

/-- Collections with the same numbers hold the same documents up to their marks. -/
theorem perm_cores_of_counts (h : db.WellNamed) (h' : db'.WellNamed)
    (hcounters : ∀ l ≤ 2, ∀ n, db.counters l n = db'.counters l n)
    (hchildren : ∀ l ≤ 2, ∀ n, db.childCounts l n = db'.childCounts l n) :
    (db.fullTileCollection.map TileDoc.core).Perm (db'.fullTileCollection.map TileDoc.core) := by
  -- A core is counted under its own name and level, where both collections have the same numbers.
  rw [List.perm_iff_count]
  intro a
  rw [count_core, count_core]
  by_cases hl : a.level ≤ 2
  · rw [h.map_core_tiles, h'.map_core_tiles, hcounters _ hl, hchildren _ hl]
  · -- there are no documents of further levels
    have hnone : ∀ {db : Db}, db.WellNamed → db.tiles a.level (a.key a.level) = [] := by
      intro db h
      rw [tiles, List.filter_eq_nil_iff]
      intro d hd ht
      have hlevel := (TileDoc.isTile_iff.mp ht).2
      have hw := h d hd
      unfold TileDoc.WellNamed at hw
      split at hw
      · next h0 => omega
      · next h1 => omega
      · next h2 => omega
      · exact hw
    rw [hnone h, hnone h']

end Db

/-- Two collections that count the same objects are the same up to flags. -/
theorem perm_cores {live : List Str} {db db' : Db} (h : Counts live db) (hc : Children live db)
    (h' : Counts live db') (hc' : Children live db') :
    (db.fullTileCollection.map TileDoc.core).Perm (db'.fullTileCollection.map TileDoc.core) := by
  refine Db.perm_cores_of_counts h.wellNamed h'.wellNamed (fun l hl n => ?_) fun l hl n => ?_
  · interval_cases l
    · rw [h.level0, h'.level0]
    · rw [h.level1, h'.level1]
    · rw [h.level2, h'.level2]
  · interval_cases l
    · rw [hc.level0, hc'.level0]
    · rw [hc.level1, hc'.level1]
    · rw [hc.level2, hc'.level2]

/-! ### Object by object -/

/-- The databases the indexer can reach from the empty one by the insertion of the listed
objects, the last one first, with rebuilds in between. -/
inductive Feed (intersects : List Coord → Coord → Coord → Bool) (threshold : ℤ) :
    List Value → Db → Prop where
  | start : Feed intersects threshold [] Db.empty
  | insert {vs : List Value} {db : Db} {v : Value} {coordSet : List Coord}
      (hfeed : Feed intersects threshold vs db)
      (hv : calculateGeometryIndex intersects v = some coordSet) :
      Feed intersects threshold (v :: vs) ((shardIndexer threshold coordSet false).run db).2
  | rebuild {vs : List Value} {db : Db} (hfeed : Feed intersects threshold vs db)
      (sorts : ℕ → ℕ → CounterSort) (bound : ℕ) :
      Feed intersects threshold vs ((rebuildIndex threshold sorts bound).run db).2

/-- A well-formed point object. -/
def Value.IsPoint (v : Value) : Prop := ∃ p, v.HasGeometry (.point p)

section Feed

variable {intersects : List Coord → Coord → Coord → Bool} {threshold : ℤ} {vs : List Value}
  {db : Db}

/-- A point is in one tile. -/
theorem tilesOf_point {v : Value} {p : Coord} (hv : v.HasGeometry (.point p)) :
    tilesOf intersects v = [tileOf p] := by
  rw [tilesOf, calculateGeometryIndex_point hv]
  rfl

/-- Object by object the collection counts the objects inserted. -/
theorem Feed.counts_children (hfeed : Feed intersects threshold vs db)
    (hvs : ∀ v ∈ vs, v.IsPoint) :
    Counts (vs.flatMap (tilesOf intersects)) db ∧
      Children (vs.flatMap (tilesOf intersects)) db := by
  -- An insertion counts the tile of its point, and a rebuild changes marks only.
  induction hfeed with
  | start => exact ⟨Counts.empty, Children.empty⟩
  | @insert vs db v coordSet hfeed hv ih =>
    obtain ⟨hcounts, hchildren⟩ := ih fun v hv => hvs v (List.mem_cons_of_mem _ hv)
    obtain ⟨p, hp⟩ := hvs v List.mem_cons_self
    obtain rfl : pointIndex p.1 p.2 = coordSet :=
      Option.some.inj ((calculateGeometryIndex_point hp).symm.trans hv)
    have hsame := insert_sameIndex threshold p db
    rw [List.flatMap_cons, tilesOf_point hp]
    exact ⟨(hcounts.insert (isTileName_tileOf p)).congr hsame.1,
      (hchildren.insert hcounts).congr hsame.1⟩
  | @rebuild vs db hfeed sorts bound ih =>
    obtain ⟨hcounts, hchildren⟩ := ih hvs
    have hframe := within_rebuildIndex threshold sorts bound db
    exact ⟨hcounts.sameCores hframe, hchildren.sameCores hframe⟩

/-- The tiles of the objects, as the scan sees them. -/
def printedTiles (intersects : List Coord → Coord → Coord → Bool) (vs : List Value) : List Str :=
  vs.flatMap fun v => tilesOf intersects v.printed

variable (threshold) in
/-- The periodic rebuild counts the objects scanned, in whatever order. -/
theorem restore_counts_children {docs : List ObjectDoc}
    (hdocs : (docs.map ObjectDoc.content).Perm vs) (hvs : ∀ v ∈ vs, v.IsPoint)
    (sorts : ℕ → ℕ → CounterSort) (bound : ℕ) (db₀ : Db) :
    ∃ m, scanObjects intersects docs ⟨[], [], []⟩ = some m ∧
      Counts (printedTiles intersects vs)
        ((FullTileCollectionRestore threshold sorts bound m).run db₀).2 ∧
      Children (printedTiles intersects vs)
        ((FullTileCollectionRestore threshold sorts bound m).run db₀).2 := by
  have hpoint : ∀ doc ∈ docs, doc.content.printed.IsPoint := by
    intro doc hd
    obtain ⟨p, hp⟩ := hvs _ (hdocs.mem_iff.mp (List.mem_map_of_mem hd))
    exact ⟨p.printed, hp.printed⟩
  -- a point always has an index, so the scan never stops early
  have hdef : ∀ doc ∈ docs, (calculateGeometryIndex intersects doc.content.printed).isSome := by
    intro doc hd
    obtain ⟨p, hp⟩ := hpoint doc hd
    rw [calculateGeometryIndex_point hp]
    rfl
  obtain ⟨m, hm, hscanned⟩ := Scanned.empty.scanObjects hdef
  have htiles : (docs.flatMap
      (fun doc : ObjectDoc => tilesOf intersects doc.content.printed) ++ []).Perm
      (printedTiles intersects vs) := by
    have hmap := hdocs.flatMap_right fun v => tilesOf intersects v.printed
    rw [List.flatMap_map] at hmap
    rwa [List.append_nil]
  have hnames : ∀ n ∈ printedTiles intersects vs, IsTileName n := by
    intro n hn
    obtain ⟨v, hv, hn⟩ := List.mem_flatMap.mp hn
    obtain ⟨p, hp⟩ := hvs v hv
    rw [tilesOf_point hp.printed] at hn
    obtain rfl := List.mem_singleton.mp hn
    exact isTileName_tileOf _
  have hscanned' := hscanned.perm htiles
  -- rebuilding the smaller index leaves the full collection alone
  have hframe := within_rebuildIndex threshold sorts bound (db₀.restore m)
  rw [← run_FullTileCollectionRestore] at hframe
  exact ⟨m, hm, (hscanned'.counts_restore hnames).sameCores hframe,
    hscanned'.children_restore.sameCores hframe⟩

/-- Up to flags, the full-tile collection is the one that the periodic rebuild makes of the same
objects, scanned in any order, and the one that any other order of insertion leads to. -/
structure EqualsRestore (intersects : List Coord → Coord → Coord → Bool) (threshold : ℤ)
    (vs : List Value) (db : Db) : Prop where
  restore : ∀ docs : List ObjectDoc, (docs.map ObjectDoc.content).Perm vs → ∀ sorts bound db₀,
    ∃ m, scanObjects intersects docs ⟨[], [], []⟩ = some m ∧
      (db.fullTileCollection.map TileDoc.core).Perm
        (((FullTileCollectionRestore threshold sorts bound m).run db₀).2.fullTileCollection.map
          TileDoc.core)
  order : ∀ vs' db', vs.Perm vs' → Feed intersects threshold vs' db' →
    (db.fullTileCollection.map TileDoc.core).Perm (db'.fullTileCollection.map TileDoc.core)

/-- The same documents up to flags have the same counters. -/
theorem counters_perm_of_cores {db db' : Db}
    (h : (db.fullTileCollection.map TileDoc.core).Perm
      (db'.fullTileCollection.map TileDoc.core)) (l : ℕ) (n : Str) :
    (db.counters l n).Perm (db'.counters l n) := by
  have hcounters : ∀ db : Db, db.counters l n =
      ((db.fullTileCollection.map TileDoc.core).filter (TileDoc.isTile l n)).map
        TileDoc.counter := by
    intro db
    have hcore : TileDoc.isTile l n ∘ TileDoc.core = TileDoc.isTile l n :=
      funext fun d => TileDoc.isTile_congr rfl rfl rfl rfl l n
    rw [List.filter_map, hcore, List.map_map]
    rfl
  rw [hcounters, hcounters]
  exact (h.filter _).map _

/-- Collections that are the same up to flags count the same tiles. -/
theorem perm_live_of_cores {live live' : List Str} {db db' : Db} (h : Counts live db)
    (h' : Counts live' db')
    (hcores : (db.fullTileCollection.map TileDoc.core).Perm
      (db'.fullTileCollection.map TileDoc.core)) : live.Perm live' := by
  rw [List.perm_iff_count]
  intro n
  have hperm := counters_perm_of_cores hcores 2 n
  rw [h.level2, h'.level2] at hperm
  -- a tally has one entry at most
  have hsum := hperm.sum_eq
  rwa [sum_tally, sum_tally, Nat.cast_inj] at hsum

/-- A collection that equals the restored one counts the printed objects. -/
theorem EqualsRestore.perm_printedTiles (h : EqualsRestore intersects threshold vs db)
    (hfeed : Feed intersects threshold vs db) (hvs : ∀ v ∈ vs, v.IsPoint) :
    (vs.flatMap (tilesOf intersects)).Perm (printedTiles intersects vs) := by
  let docs : List ObjectDoc := vs.map fun v => ⟨[], [], [], [], v⟩
  have hdocs : (docs.map ObjectDoc.content).Perm vs := by
    rw [List.map_map]
    exact List.Perm.of_eq (List.map_id vs)
  obtain ⟨m, hm, hcounts, -⟩ : ∃ m, scanObjects intersects docs ⟨[], [], []⟩ = some m ∧ _ :=
    restore_counts_children threshold hdocs hvs (fun _ _ => .stable) 0 Db.empty
  obtain ⟨m', hm', hcores⟩ := h.restore docs hdocs (fun _ _ => .stable) 0 Db.empty
  obtain rfl : m = m' := Option.some.inj (hm.symm.trans hm')
  exact perm_live_of_cores (hfeed.counts_children hvs).1 hcounts hcores

end Feed

end OpenGeoBase
