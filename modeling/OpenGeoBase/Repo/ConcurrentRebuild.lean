import OpenGeoBase.Repo.BatchRestore
import OpenGeoBase.Repo.IndexCoverage
import OpenGeoBase.Repo.ObjectStore

/-!
# The periodic rebuild next to insertions

`checkVersion` runs in a thread of its own. It reads the object indices collection by
collection into its maps, drops the full-tile collection, fills it again from the maps, and
rebuilds the advertised index. Meanwhile the main thread inserts objects, each in a
document first and in the tiles a few calls later. The calls of the two interleave in
any way.

An object is lost when the pass has missed its document and drops its tile, or has counted the
printed point of the document in another tile. It is not when each insertion that overlaps the scan
puts its document where the scan has still to look, none is under way at the drop, none begins
before the pass has finished, and at the drop each point stays in its tile when it is printed
(`Undisturbed`): then the scan has counted every document at the drop (`ScanBooks`), and the
restored tiles cover them (`Db.Covers`).
-/

namespace OpenGeoBase

open Text AtomicCalls Collection Transition

/-- Where the scan of `checkVersion` stands. -/
inductive ScanPhase where
  | start
  | databases (names : List Str) (m : CoordMaps)
  | collections (db_name : Str) (names rest : List Str) (m : CoordMaps)

/-- The calls of the scan, with the steps from one loop to the other in between. What MongoDB
lists contains whatever holds a document. -/
inductive ScanStep (intersects : List Coord → Coord → Coord → Bool) (db : Db) :
    ScanPhase → ScanPhase → Prop where
  | list_databases {names : List Str} (hnames : ∀ doc ∈ db.objectIndex, doc.database ∈ names) :
    ScanStep intersects db .start (.databases names ⟨[], [], []⟩)
  | skip {db_name : Str} {names : List Str} {m : CoordMaps}
      (hother : ¬INDEX_DB_SUFFIX <:+: db_name) :
    ScanStep intersects db (.databases (db_name :: names) m) (.databases names m)
  | list_collections {db_name : Str} {names rest : List Str} {m : CoordMaps}
      (hindex : INDEX_DB_SUFFIX <:+: db_name)
      (hnames : ∀ doc ∈ db.objectIndex, doc.database = db_name → doc.collection ∈ names) :
    ScanStep intersects db (.databases (db_name :: rest) m) (.collections db_name names rest m)
  | find {db_name collection_name : Str} {names rest : List Str} {m m' : CoordMaps}
      (hscan : scanObjects intersects (db.objectIndex.filter fun doc =>
        doc.database == db_name && doc.collection == collection_name) m = some m') :
    ScanStep intersects db (.collections db_name (collection_name :: names) rest m)
      (.collections db_name names rest m')
  | next {db_name : Str} {rest : List Str} {m : CoordMaps} :
    ScanStep intersects db (.collections db_name [] rest m) (.databases rest m)

/-- Will the scan still look where the document is? -/
def ScanPhase.StillToRead (doc : ObjectDoc) : ScanPhase → Prop
  | start => INDEX_DB_SUFFIX <:+: doc.database
  | databases names _ => doc.database ∈ names ∧ INDEX_DB_SUFFIX <:+: doc.database
  | collections db_name names rest _ =>
    doc.database = db_name ∧ doc.collection ∈ names ∨
      doc.database ∈ rest ∧ INDEX_DB_SUFFIX <:+: doc.database

/-- A pass of `checkVersion`: the scan, then `FullTileCollectionRestore`. -/
inductive Pass where
  | scanning (phase : ScanPhase)
  | restoring (rest : Prog Db Ended)

/-- The database, the pass of the background thread, and the insertion of the main thread. -/
structure RebuildState where
  db : Db
  pass : Pass
  inserting : Option (Prog Db (Option ℤ))

/-- The pass has come to its end, and no insertion is under way. -/
def RebuildState.Finished (s : RebuildState) : Prop :=
  s.pass = .restoring (.ret .returned) ∧ s.inserting = none

/-- Every point in the object indices has a level-2 tile, and its name or the name of a tile
around it is advertised. -/
def Db.Covers (db : Db) : Prop :=
  ∀ doc ∈ db.objectIndex, ∀ p, doc.content.point? = some p →
    db.tiles 2 (tileOf p) ≠ [] ∧ (tileOf p ∈ db.indexNames ∨
      name10Of (tileOf p) ∈ db.indexNames ∨ name100Of (tileOf p) ∈ db.indexNames)

section System

variable (lib : StorageLibrary) (threshold : ℤ)

/-- What can happen. -/
inductive RebuildOp where
  | scan
  | beginRestore
  | restore
  | beginInsert (data : Data lib.names)
  | insert
  | endInsert

/-- The calls of the two threads, one at a time. -/
inductive RebuildStep : RebuildState → RebuildOp lib → RebuildState → Prop where
  | scan {s : RebuildState} {phase phase' : ScanPhase} (hpass : s.pass = .scanning phase)
      (hscan : ScanStep lib.intersects s.db phase phase') :
    RebuildStep s .scan { s with pass := .scanning phase' }
  | beginRestore {s : RebuildState} {m : CoordMaps} (sorts : ℕ → ℕ → CounterSort) (bound : ℕ)
      (hpass : s.pass = .scanning (.databases [] m)) :
    RebuildStep s .beginRestore { s with
      pass := .restoring (FullTileCollectionRestore threshold sorts bound m) }
  | restore {s : RebuildState} {rest rest' : Prog Db Ended} {db : Db}
      (hpass : s.pass = .restoring rest) (hcall : Prog.Step rest s.db rest' db) :
    RebuildStep s .restore { s with db := db, pass := .restoring rest' }
  | beginInsert {s : RebuildState} {data : Data lib.names} (sorts : ℕ → ℕ → CounterSort)
      (bound : ℕ) (hidle : s.inserting = none) (hdata : data.IsPoint lib) :
    RebuildStep s (.beginInsert data) { s with
      inserting := some (insert lib threshold sorts bound data) }
  | insert {s : RebuildState} {rest rest' : Prog Db (Option ℤ)} {db : Db}
      (hinserting : s.inserting = some rest) (hcall : Prog.Step rest s.db rest' db) :
    RebuildStep s .insert { s with db := db, inserting := some rest' }
  | endInsert {s : RebuildState} {code : ℤ} (hinserting : s.inserting = some (.ret (some code))) :
    RebuildStep s .endInsert { s with inserting := none }

/-- One pass next to the insertions of points, from a database on whose objects are in index
databases. -/
def concurrentRebuild : System RebuildState (RebuildOp lib) where
  init s := (∀ doc ∈ s.db.objectIndex, INDEX_DB_SUFFIX <:+: doc.database) ∧
    s.pass = .scanning .start ∧ s.inserting = none
  step := RebuildStep lib threshold

/-- An insertion puts its document where the scan has still to look, or it begins when the pass
has come to its end; and when the tiles are dropped, none is under way, and the points of the
documents are in the same tiles when they are printed. -/
def Undisturbed (s : RebuildState) : RebuildOp lib → Prop
  | .beginRestore => s.inserting = none ∧ ∀ doc ∈ s.db.objectIndex, doc.StaysInTile
  | .beginInsert _ => ∀ rest, s.pass = .restoring rest → rest = .ret .returned
  | .insert => ∀ phase, s.pass = .scanning phase → ∀ rest rest' db, s.inserting = some rest →
      Prog.Step rest s.db rest' db → ∀ doc ∈ db.objectIndex,
        doc ∈ s.db.objectIndex ∨ phase.StillToRead doc
  | _ => True

end System

/-! ### What the scan has counted -/

/-- The point of the document, if it has one, is in a listed tile. -/
def ObjectDoc.CountedIn (ts : List Str) (doc : ObjectDoc) : Prop :=
  ∀ p, doc.content.point? = some p → tileOf p ∈ ts

/-- The point of the document, if it has one, is in a listed tile when it is printed. -/
def ObjectDoc.ScannedIn (ts : List Str) (doc : ObjectDoc) : Prop :=
  ∀ p, doc.content.point? = some p → tileOf p.printed ∈ ts

/-- The maps of the scan. -/
def ScanPhase.maps : ScanPhase → CoordMaps
  | start => ⟨[], [], []⟩
  | databases _ m => m
  | collections _ _ _ m => m

/-- The maps count the tiles `ts`, and each document is in one of them or is still to be read. -/
structure ScanBooks (ts : List Str) (phase : ScanPhase) (db : Db) : Prop where
  scanned : Scanned ts phase.maps
  isTileName : ∀ n ∈ ts, IsTileName n
  counted : ∀ doc ∈ db.objectIndex, doc.ScannedIn ts ∨ phase.StillToRead doc

section Scan

variable {intersects : List Coord → Coord → Coord → Bool} {ts : List Str} {m m' : CoordMaps}
  {docs : List ObjectDoc} {db : Db} {phase phase' : ScanPhase}

/-- A scan that ends has computed the tiles of every object. -/
theorem isSome_of_scanObjects (h : scanObjects intersects docs m = some m') :
    ∀ doc ∈ docs, (calculateGeometryIndex intersects doc.content.printed).isSome := by
  induction docs generalizing m with
  | nil => exact fun doc hd => absurd hd List.not_mem_nil
  | cons doc docs ih =>
    unfold scanObjects at h
    obtain ⟨coordSet, hset, hrest⟩ := Option.bind_eq_some_iff.mp h
    refine List.forall_mem_cons.mpr ⟨?_, ih hrest⟩
    rw [hset]
    rfl

/-- A scan counts the documents it is given, and what has been counted before stays counted. -/
theorem Scanned.of_scanObjects (h : Scanned ts m) (hts : ∀ n ∈ ts, IsTileName n)
    (hscan : OpenGeoBase.scanObjects intersects docs m = some m') :
    ∃ ts', Scanned ts' m' ∧ (∀ n ∈ ts', IsTileName n) ∧ ts ⊆ ts' ∧
      ∀ doc ∈ docs, doc.ScannedIn ts' := by
  obtain ⟨m'', hm'', hscanned⟩ := h.scanObjects (isSome_of_scanObjects hscan)
  obtain rfl : m' = m'' := Option.some.inj (hscan.symm.trans hm'')
  refine ⟨_, hscanned, fun n hn => ?_, List.subset_append_right _ _, fun doc hd p hp => ?_⟩
  · rcases List.mem_append.mp hn with hn | hn
    · obtain ⟨doc, -, hn⟩ := List.mem_flatMap.mp hn
      obtain ⟨c, -, rfl⟩ := List.mem_map.mp hn
      exact isTileName_calculateLATLONName _ _
    · exact hts n hn
  · refine List.mem_append_left _ (List.mem_flatMap.mpr ⟨doc, hd, ?_⟩)
    have hprinted : doc.content.printed.point? = some p.printed := by
      rw [Value.point?_printed, hp, Option.map_some]
    unfold tilesOf
    rw [calculateGeometryIndex_of_point hprinted]
    exact List.mem_singleton_self _

/-- An object stays counted when more tiles are. -/
theorem ObjectDoc.CountedIn.mono {ts' : List Str} {doc : ObjectDoc} (h : doc.CountedIn ts)
    (hts : ts ⊆ ts') : doc.CountedIn ts' := fun p hp => hts (h p hp)

theorem ObjectDoc.ScannedIn.mono {ts' : List Str} {doc : ObjectDoc} (h : doc.ScannedIn ts)
    (hts : ts ⊆ ts') : doc.ScannedIn ts' := fun p hp => hts (h p hp)

/-- A point that stays in its tile has been counted where it is. -/
theorem ObjectDoc.ScannedIn.countedIn {doc : ObjectDoc} (h : doc.ScannedIn ts)
    (hstays : doc.StaysInTile) : doc.CountedIn ts := fun p hp => hstays p hp ▸ h p hp

/-- The books of the scan are kept. -/
theorem ScanBooks.step (h : ScanBooks ts phase db) (hstep : ScanStep intersects db phase phase') :
    ∃ ts', ScanBooks ts' phase' db := by
  -- only `find` reads documents; the other steps move what is still to be read along
  cases hstep with
  | list_databases hnames =>
    refine ⟨ts, h.scanned, h.isTileName, fun doc hd => (h.counted doc hd).imp_right fun hread => ?_⟩
    exact ⟨hnames doc hd, hread⟩
  | skip hother =>
    refine ⟨ts, h.scanned, h.isTileName, fun doc hd => (h.counted doc hd).imp_right fun hread => ?_⟩
    obtain ⟨hmem, hindex⟩ := hread
    rcases List.mem_cons.mp hmem with heq | hmem
    · exact absurd (heq ▸ hindex) hother
    · exact ⟨hmem, hindex⟩
  | list_collections hindex hnames =>
    refine ⟨ts, h.scanned, h.isTileName, fun doc hd => (h.counted doc hd).imp_right fun hread => ?_⟩
    rcases List.mem_cons.mp hread.1 with heq | hmem
    · exact Or.inl ⟨heq, hnames doc hd heq⟩
    · exact Or.inr ⟨hmem, hread.2⟩
  | @find db_name collection_name names rest m m' hscan =>
    obtain ⟨ts', hscanned, hts', hsub, hread⟩ := h.scanned.of_scanObjects h.isTileName hscan
    refine ⟨ts', hscanned, hts', fun doc hd => ?_⟩
    rcases h.counted doc hd with hcounted | ⟨hdatabase, hcollection⟩ | hrest
    · exact Or.inl (hcounted.mono hsub)
    · rcases List.mem_cons.mp hcollection with heq | hmem
      · -- the document is one of those the call has found
        refine Or.inl (hread doc (List.mem_filter.mpr ⟨hd, ?_⟩))
        rw [hdatabase, heq, beq_self_eq_true, beq_self_eq_true]
        rfl
      · exact Or.inr (Or.inl ⟨hdatabase, hmem⟩)
    · exact Or.inr (Or.inr hrest)
  | next =>
    refine ⟨ts, h.scanned, h.isTileName, fun doc hd => (h.counted doc hd).imp_right fun hread => ?_⟩
    -- the collection is done, so no document of it waits to be read
    rcases hread with ⟨-, hmem⟩ | hrest
    · exact absurd hmem List.not_mem_nil
    · exact hrest

end Scan

/-! ### What the index shows -/

/-- The tiles and the index are those of some objects, among them all that are stored. -/
def IndexesStore (db : Db) : Prop :=
  ∃ live, Indexes live db ∧ ∀ doc ∈ db.objectIndex, doc.CountedIn live

section Index

variable {threshold : ℤ} {sorts : ℕ → ℕ → CounterSort} {bound : ℕ} {db db' : Db} {live : List Str}

/-- An index of the store covers it. -/
theorem IndexesStore.covers (h : IndexesStore db) : db.Covers := by
  obtain ⟨live, hindexes, hcounted⟩ := h
  intro doc hd p hp
  have hlive := hcounted doc hd p hp
  have hne : db.tiles 2 (tileOf p) ≠ [] := fun hnil =>
    hindexes.counts.tiles_two_eq_nil_iff.mp hnil hlive
  refine ⟨hne, ?_⟩
  obtain ⟨d, hmem⟩ := List.exists_mem_of_ne_nil _ hne
  obtain ⟨hstored, hkey, hlevel⟩ := (db.mem_tiles_iff _ _).mp hmem
  have hname1 : d.name1 = tileOf p := hkey
  -- the counter of the tile is the number of its objects
  have hcounter : 0 < d.counter := by
    have hcounters := hindexes.counts.level2 (tileOf p)
    rw [tally_of_pos (List.count_pos_iff.mpr hlive)] at hcounters
    have hcount : d.counter ∈ db.counters 2 (tileOf p) := List.mem_map_of_mem hmem
    rw [hcounters, List.mem_singleton] at hcount
    rw [hcount]
    exact_mod_cast List.count_pos_iff.mpr hlive
  have hnamed := hindexes.counts.wellNamed d hstored
  unfold TileDoc.WellNamed at hnamed
  rw [hlevel] at hnamed
  have hcovered := hindexes.sheltered.covered hindexes.advertised d hstored hlevel hcounter
  rwa [hnamed.2.1, hnamed.2.2, hname1] at hcovered

/-- An index update that has returned counts one object more. -/
theorem Indexes.updateIndex {p : Coord} (h : Indexes live db)
    (hrun : (updateIndex threshold sorts bound (pointIndex p.1 p.2) false).run db =
      (.returned, db')) : Indexes (tileOf p :: live) db' := by
  have hinsert := (h.insert (isTileName_tileOf p)).sameIndex (insert_sameIndex threshold p db)
  unfold OpenGeoBase.updateIndex at hrun
  rw [Prog.run_bind, Prog.run_ite] at hrun
  split at hrun
  · have hreturned := congrArg Prod.fst hrun
    obtain rfl := (congrArg Prod.snd hrun).symm
    have hcovered := covered_rebuildIndex hinsert.counts.wellNamed hreturned
    have hsame := within_rebuildIndex threshold sorts bound
      ((shardIndexer threshold (pointIndex p.1 p.2) false).run db).2
    exact ⟨hinsert.counts.sameCores hsame, hcovered.1, hcovered.2⟩
  · obtain rfl := (congrArg Prod.snd hrun).symm
    exact hinsert

/-- An insertion that is not interrupted keeps the index up to date with the store. -/
theorem IndexesStore.insert {lib : StorageLibrary} {data : Data lib.names} {code : ℤ}
    (h : IndexesStore db) (hdata : data.IsPoint lib)
    (hrun : (insert lib threshold sorts bound data).run db = (some code, db')) :
    IndexesStore db' := by
  obtain ⟨live, hindexes, hcounted⟩ := h
  obtain ⟨doc, packet, p, hp, hupdate⟩ := run_insert_point hdata hrun
  have hstored : Indexes live ((db.mapObjects (insertOne doc)).mapData (insertOne packet)) :=
    hindexes.sameIndex ⟨rfl, rfl⟩
  -- indexing leaves the store alone: the new object is the only change to the object index
  have hobjects : db'.objectIndex = db.objectIndex ++ [doc] := by
    have hsame := (sameStore_updateIndex threshold sorts bound false (pointIndex p.1 p.2)
      ((db.mapObjects (insertOne doc)).mapData (insertOne packet))).1
    rw [hupdate] at hsame
    exact hsame
  refine ⟨tileOf p :: live, hstored.updateIndex hupdate, fun d hd => ?_⟩
  rw [hobjects] at hd
  -- what was counted stays counted, and the new object has its tile at the head of `live`
  rcases List.mem_append.mp hd with hd | hd
  · exact (hcounted d hd).mono (List.subset_cons_self _ _)
  · obtain rfl := List.mem_singleton.mp hd
    intro q hq
    obtain rfl : p = q := Option.some.inj (hp.symm.trans hq)
    exact List.mem_cons_self

/-- A restore that is not interrupted brings the index up to date with what has been counted. -/
theorem IndexesStore.restore {ts : List Str} {m : CoordMaps} (h : Scanned ts m)
    (hts : ∀ n ∈ ts, IsTileName n) (hcounted : ∀ doc ∈ db.objectIndex, doc.CountedIn ts)
    (hrun : (FullTileCollectionRestore threshold sorts bound m).run db = (.returned, db')) :
    IndexesStore db' := by
  rw [run_FullTileCollectionRestore] at hrun
  have hreturned := congrArg Prod.fst hrun
  obtain rfl := (congrArg Prod.snd hrun).symm
  have hcounts : Counts ts (db.restore m) := h.counts_restore hts
  have hcovered := covered_rebuildIndex hcounts.wellNamed hreturned
  have hsame := within_rebuildIndex threshold sorts bound (db.restore m)
  refine ⟨ts, ⟨hcounts.sameCores hsame, hcovered.1, hcovered.2⟩, ?_⟩
  rw [(Db.rebuildFrame_sameStore.rebuildIndex threshold sorts bound (db.restore m)).1]
  exact hcounted

end Index

/-! ### The two threads -/

section Threads

variable {lib : StorageLibrary} {threshold : ℤ}

/-- What is left of a restore that began when every document had been counted. -/
def RestoringFrom (threshold : ℤ) (rest : Prog Db Ended) (db : Db) : Prop :=
  ∃ sorts bound ts m db₀, Scanned ts m ∧ (∀ n ∈ ts, IsTileName n) ∧
    (∀ doc ∈ db₀.objectIndex, doc.CountedIn ts) ∧
    rest.run db = (FullTileCollectionRestore threshold sorts bound m).run db₀

/-- What is left of an insertion that began when the index was up to date. -/
def InsertingFrom (lib : StorageLibrary) (threshold : ℤ) (rest : Prog Db (Option ℤ)) (db : Db) :
    Prop :=
  ∃ sorts bound data db₀, data.IsPoint lib ∧ IndexesStore db₀ ∧
    rest.run db = (insert lib threshold sorts bound data).run db₀

/-- The invariant of undisturbed runs. -/
inductive RebuildInvariant (lib : StorageLibrary) (threshold : ℤ) (s : RebuildState) : Prop where
  | scanning {ts : List Str} {phase : ScanPhase} (hpass : s.pass = .scanning phase)
      (hbooks : ScanBooks ts phase s.db)
  | restoring {rest : Prog Db Ended} (hpass : s.pass = .restoring rest) (hidle : s.inserting = none)
      (hfrom : RestoringFrom threshold rest s.db)
  | finished (hpass : s.pass = .restoring (.ret .returned)) (hidle : s.inserting = none)
      (hindexes : IndexesStore s.db)
  | inserting {rest : Prog Db (Option ℤ)} (hpass : s.pass = .restoring (.ret .returned))
      (hinserting : s.inserting = some rest) (hfrom : InsertingFrom lib threshold rest s.db)

variable {s s' : RebuildState} {op : RebuildOp lib}

/-- When the restoration has returned the index is that of the store. -/
theorem RestoringFrom.indexesStore {db : Db}
    (h : RestoringFrom threshold (.ret .returned) db) : IndexesStore db := by
  obtain ⟨sorts, bound, ts, m, db₀, hscanned, hts, hcounted, hrun⟩ := h
  exact .restore hscanned hts hcounted hrun.symm

theorem InsertingFrom.indexesStore {db : Db} {code : ℤ}
    (h : InsertingFrom lib threshold (.ret (some code)) db) : IndexesStore db := by
  obtain ⟨sorts, bound, data, db₀, hdata, hindexes, hrun⟩ := h
  exact hindexes.insert hdata hrun.symm

/-- When all have finished, everything is covered. -/
theorem RebuildInvariant.covers (h : RebuildInvariant lib threshold s) (hfinished : s.Finished) :
    s.db.Covers := by
  obtain ⟨hended, hnone⟩ := hfinished
  cases h with
  | scanning hpass => exact absurd (hpass.symm.trans hended) (by simp)
  | restoring hpass _ hfrom =>
    obtain rfl := Pass.restoring.inj (hpass.symm.trans hended)
    exact hfrom.indexesStore.covers
  | finished _ _ hindexes => exact hindexes.covers
  | inserting _ hinserting => exact absurd (hinserting.symm.trans hnone) (by simp)

/-- The steps of an undisturbed run keep the invariant. -/
theorem RebuildInvariant.step (h : RebuildInvariant lib threshold s) (hok : Undisturbed lib s op)
    (hstep : RebuildStep lib threshold s op s') : RebuildInvariant lib threshold s' := by
  cases hstep with
  | @scan phase phase' hpass hscan =>
    cases h with
    | scanning hpass' hbooks =>
      obtain rfl := Pass.scanning.inj (hpass'.symm.trans hpass)
      obtain ⟨ts', hbooks'⟩ := hbooks.step hscan
      exact .scanning rfl hbooks'
    | restoring hpass' => exact absurd (hpass'.symm.trans hpass) (by simp)
    | finished hpass' => exact absurd (hpass'.symm.trans hpass) (by simp)
    | inserting hpass' => exact absurd (hpass'.symm.trans hpass) (by simp)
  | @beginRestore m sorts bound hpass =>
    cases h with
    | scanning hpass' hbooks =>
      obtain rfl := Pass.scanning.inj (hpass'.symm.trans hpass)
      -- nothing is left to be read
      have hscanned : ∀ doc ∈ s.db.objectIndex, doc.ScannedIn _ := fun doc hd =>
        (hbooks.counted doc hd).resolve_right fun hread => absurd hread.1 List.not_mem_nil
      have hcounted : ∀ doc ∈ s.db.objectIndex, doc.CountedIn _ := fun doc hd =>
        (hscanned doc hd).countedIn (hok.2 doc hd)
      exact .restoring rfl hok.1 ⟨sorts, bound, _, m, s.db, hbooks.scanned, hbooks.isTileName,
        hcounted, rfl⟩
    | restoring hpass' => exact absurd (hpass'.symm.trans hpass) (by simp)
    | finished hpass' => exact absurd (hpass'.symm.trans hpass) (by simp)
    | inserting hpass' => exact absurd (hpass'.symm.trans hpass) (by simp)
  | @restore rest rest' db hpass hcall =>
    have hmore : rest ≠ .ret .returned := fun hret => by
      rw [hret] at hcall
      cases hcall
    cases h with
    | scanning hpass' => exact absurd (hpass'.symm.trans hpass) (by simp)
    | restoring hpass' hidle hfrom =>
      obtain rfl := Pass.restoring.inj (hpass'.symm.trans hpass)
      obtain ⟨sorts, bound, ts, m, db₀, hscanned, hts, hcounted, hrun⟩ := hfrom
      exact .restoring rfl hidle ⟨sorts, bound, ts, m, db₀, hscanned, hts, hcounted,
        hcall.run_eq.trans hrun⟩
    | finished hpass' => exact absurd (Pass.restoring.inj (hpass.symm.trans hpass')) hmore
    | inserting hpass' => exact absurd (Pass.restoring.inj (hpass.symm.trans hpass')) hmore
  | @beginInsert data sorts bound hidle hdata =>
    cases h with
    | scanning hpass hbooks => exact .scanning hpass hbooks
    | restoring hpass _ hfrom =>
      obtain rfl := hok _ hpass
      exact .inserting hpass rfl ⟨sorts, bound, data, s.db, hdata, hfrom.indexesStore, rfl⟩
    | finished hpass _ hindexes =>
      exact .inserting hpass rfl ⟨sorts, bound, data, s.db, hdata, hindexes, rfl⟩
    | inserting _ hinserting => exact absurd (hinserting.symm.trans hidle) (by simp)
  | @insert rest rest' db hinserting hcall =>
    cases h with
    | scanning hpass hbooks =>
      refine .scanning hpass ⟨hbooks.scanned, hbooks.isTileName, fun doc hd => ?_⟩
      rcases hok _ hpass _ _ _ hinserting hcall doc hd with hold | hread
      · exact hbooks.counted doc hold
      · exact Or.inr hread
    | restoring _ hidle => exact absurd (hinserting.symm.trans hidle) (by simp)
    | finished _ hidle => exact absurd (hinserting.symm.trans hidle) (by simp)
    | inserting hpass hinserting' hfrom =>
      obtain rfl := Option.some.inj (hinserting'.symm.trans hinserting)
      obtain ⟨sorts, bound, data, db₀, hdata, hindexes, hrun⟩ := hfrom
      exact .inserting hpass rfl ⟨sorts, bound, data, db₀, hdata, hindexes,
        hcall.run_eq.trans hrun⟩
  | @endInsert code hinserting =>
    cases h with
    | scanning hpass hbooks => exact .scanning hpass hbooks
    | restoring _ hidle => exact absurd (hinserting.symm.trans hidle) (by simp)
    | finished _ hidle => exact absurd (hinserting.symm.trans hidle) (by simp)
    | inserting hpass hinserting' hfrom =>
      obtain rfl := Option.some.inj (hinserting'.symm.trans hinserting)
      exact .finished hpass rfl hfrom.indexesStore

variable {h : List (RebuildState × RebuildOp lib)}

/-- The restore goes on to its end. -/
theorem exists_run_restore (hrun : Run (concurrentRebuild lib threshold) h s)
    {rest : Prog Db Ended} (hpass : s.pass = .restoring rest) :
    ∃ h', Run (concurrentRebuild lib threshold) (h ++ h') { s with
      db := (rest.run s.db).2, pass := .restoring (.ret (rest.run s.db).1) } ∧
      Admitted (Undisturbed lib) h' := by
  refine Prog.run_induction (motive := fun rest db => ∃ h',
    Run (concurrentRebuild lib threshold) (h ++ h')
      { s with db := db, pass := .restoring rest } ∧ Admitted (Undisturbed lib) h') rest s.db ?_ ?_
  · refine ⟨[], ?_, admitted_nil _⟩
    rw [List.append_nil, ← hpass]
    exact hrun
  · rintro rest db rest' db' ⟨h', hrun', hok⟩ hcall
    refine ⟨h' ++ [({ s with db := db, pass := .restoring rest }, .restore)], ?_, ?_⟩
    · rw [← List.append_assoc]
      exact hrun'.snoc (RebuildStep.restore rfl hcall)
    · exact admitted_append_singleton.mpr ⟨hok, trivial⟩

/-- The insertion goes on to its end, without a scan next to it. -/
theorem exists_run_insert (hrun : Run (concurrentRebuild lib threshold) h s)
    {rest : Prog Db (Option ℤ)} (hinserting : s.inserting = some rest) :
    ∃ h', Run (concurrentRebuild lib threshold) (h ++ h') { s with
      db := (rest.run s.db).2, inserting := some (.ret (rest.run s.db).1) } ∧
      ((∀ phase, s.pass ≠ .scanning phase) → Admitted (Undisturbed lib) h') := by
  refine Prog.run_induction (motive := fun rest db => ∃ h',
    Run (concurrentRebuild lib threshold) (h ++ h')
      { s with db := db, inserting := some rest } ∧
    ((∀ phase, s.pass ≠ .scanning phase) → Admitted (Undisturbed lib) h')) rest s.db ?_ ?_
  · refine ⟨[], ?_, fun _ => admitted_nil _⟩
    rw [List.append_nil, ← hinserting]
    exact hrun
  · rintro rest db rest' db' ⟨h', hrun', hok⟩ hcall
    refine ⟨h' ++ [({ s with db := db, inserting := some rest }, .insert)], ?_, fun hno => ?_⟩
    · rw [← List.append_assoc]
      exact hrun'.snoc (RebuildStep.insert rfl hcall)
    · refine admitted_append_singleton.mpr ⟨hok hno, fun phase hpass => ?_⟩
      exact absurd hpass (hno phase)

end Threads

section Examples

/-- The scan of an empty repository, which finds no database. -/
theorem run_scan_empty : Run (concurrentRebuild cityLibrary 1)
    [(⟨Db.empty, .scanning .start, none⟩, .scan)]
    ⟨Db.empty, .scanning (.databases [] ⟨[], [], []⟩), none⟩ := by
  have hrun : Run (concurrentRebuild cityLibrary 1) [] ⟨Db.empty, .scanning .start, none⟩ :=
    .nil ⟨fun doc hd => absurd hd List.not_mem_nil, rfl, rfl⟩
  exact hrun.snoc (RebuildStep.scan rfl (.list_databases fun doc hd => absurd hd List.not_mem_nil))

end Examples

end OpenGeoBase
