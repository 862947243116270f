import OpenGeoBase.Repo.ObjectTiles
import OpenGeoBase.Repo.StoredPacket

/-!
# Is an insertion all or nothing?

`MongoStorage::insert` is to add one document, one packet and the counts of the object's
tiles, or else to leave the database as it was (`AllOrNothing`). What can fail before the
two documents are written is harmless: the identifiers in the name, the parse, the reference,
the content (`Data.Accepted`). But the geometry is looked up after that, in the JSON value as it
was parsed: a value without a usable geometry of its own, such as one that wraps its object in a
member "content", fails there with both documents stored.

`allOrNothing_iff` says what else it takes (`Data.Indexable`): the tiles that the loop
counts before it stops are those of the object, and a rebuild that is due comes to an end.

A rebuild does not see the documents (`BesideTiles`), so whether it ends is a matter of
the tiles that are there before the insertion and of the new ones.
-/

namespace OpenGeoBase

open Text AtomicCalls Collection

/-! ### Does an update of the index end? -/

namespace Db

variable (threshold : ℤ) (sorts : ℕ → ℕ → CounterSort)

/-- The tessellation of the tiles comes to an end. -/
def TesselationReturns (db : Db) : Prop :=
  ∃ bound, ((constrainedTesselation threshold sorts bound).run
    (resetFullTileDB.run db).2).1 = .returned

/-- The insertion of the tiles comes to an end: if they are all new and a rebuild is due, the
tessellation does. -/
def IndexingReturns (ts : List Str) (db : Db) : Prop :=
  db.Fresh ts →
    needTesselation threshold (db.addTiles ts).indexCollection.length
      db.indexCollection.length = true →
    (db.addTiles ts).TesselationReturns threshold sorts

end Db

section Ends

variable {threshold : ℤ} {sorts : ℕ → ℕ → CounterSort} {bound : ℕ} {db : Db}

/-- A rebuild returns exactly if its tessellation does. -/
theorem rebuildIndex_returned_iff :
    ((rebuildIndex threshold sorts bound).run db).1 = .returned ↔
      ((constrainedTesselation threshold sorts bound).run
        (resetFullTileDB.run db).2).1 = .returned := by
  unfold rebuildIndex
  rw [Prog.run_bind, Prog.run_bind]
  cases ((constrainedTesselation threshold sorts bound).run (resetFullTileDB.run db).2).1 with
  | returned =>
    dsimp only
    rw [Prog.run_bind, Prog.run_pure]
  | exited => rfl
  | running => rfl

/-- An insertion into the index returns in the end if and only if its rebuild does. -/
theorem exists_updateIndex_returned_iff {coordSet : List Coord} :
    (∃ bound, ((updateIndex threshold sorts bound coordSet false).run db).1 = .returned) ↔
      db.IndexingReturns threshold sorts (coordSet.map coordName) := by
  rcases db.fresh_or_exists (coordSet.map coordName) with hfresh | ⟨pre, t, suf, hts, hpre, ht⟩
  · have hrun : (indexTiles false (coordSet ++ [])).run db =
        (false, db.addTiles (coordSet.map coordName)) := run_indexTiles_fresh hfresh
    rw [List.append_nil] at hrun
    -- all tiles are new: the loop ends, and a rebuild follows if the threshold asks for one
    have hupdate := fun bound =>
      @run_updateIndex_end threshold sorts bound coordSet false db (congrArg Prod.fst hrun)
    rw [hrun] at hupdate
    dsimp only at hupdate
    simp only [hupdate]
    unfold Db.IndexingReturns Db.TesselationReturns
    split
    · next hneed =>
      simp only [rebuildIndex_returned_iff, hfresh, hneed, forall_const]
    · next hneed => exact iff_of_true ⟨0, rfl⟩ fun _ h => absurd h hneed
  · -- the loop stops at a tile that exists, and nothing follows it
    have hrun := run_indexTiles_split hts hpre ht
    refine iff_of_true ⟨0, ?_⟩ fun hfresh => ?_
    · rw [run_updateIndex_left (congrArg Prod.fst hrun)]
    · rw [hts] at hfresh
      rcases ht with ht | ht
      · exact absurd (hfresh.1 t (by simp)) ht
      · exact absurd rfl ((List.nodup_append.mp hfresh.2).2.2 t ht t List.mem_cons_self)

end Ends

/-! ### The documents make no difference to it -/

/-- A map of the database that has nothing to do with its tiles. -/
structure BesideTiles (f : Db → Db) : Prop where
  tiles : ∀ db, (f db).fullTileCollection = db.fullTileCollection
  mapTiles : ∀ g db, (f db).mapTiles g = f (db.mapTiles g)

namespace BesideTiles

variable {f : Db → Db} (hf : BesideTiles f)

include hf

/-- A frame that leaves the tiles commutes with what reads them. -/
theorem countTiles (p : TileDoc → Bool) : (countTiles p).Commutes f :=
  Prog.Commutes.query fun db => by rw [hf.tiles]

theorem findTiles (p : TileDoc → Bool) : (findTiles p).Commutes f :=
  Prog.Commutes.query fun db => by rw [hf.tiles]

theorem onTiles (g : List TileDoc → List TileDoc) : (onTiles g).Commutes f :=
  Prog.Commutes.modify (hf.mapTiles g)

theorem resetFullTileDB : resetFullTileDB.Commutes f :=
  (hf.onTiles _).bind fun _ => hf.onTiles _

/-- The loop of aggregations commutes with a frame that leaves the tiles. -/
theorem aggregateTiles (threshold : ℤ) (i : ℕ) (docs : List TileDoc) (x y : ℤ) :
    (aggregateTiles threshold i docs x y).Commutes f := by
  induction docs generalizing x y with
  | nil => exact Prog.Commutes.pure _
  | cons doc docs ih =>
    refine Prog.Commutes.ite (Prog.Commutes.pure _) (Prog.Commutes.bind ?_ fun _ => ?_)
    · exact (hf.onTiles _).bind fun _ => hf.onTiles _
    · exact Prog.Commutes.ite (Prog.Commutes.pure _) (ih _ _)

theorem tesselateLevel (threshold : ℤ) (sort : CounterSort) (i : ℕ) :
    (tesselateLevel threshold sort i).Commutes f := by
  refine (hf.countTiles _).bind fun y => (hf.countTiles _).bind fun x => ?_
  refine Prog.Commutes.ite ((hf.findTiles _).bind fun docs => ?_) (Prog.Commutes.pure _)
  exact hf.aggregateTiles threshold i _ x y

theorem tesselateLevels (threshold : ℤ) (sorts : ℕ → CounterSort) (is : List ℕ) (nLeaf : ℤ) :
    (tesselateLevels threshold sorts is nLeaf).Commutes f := by
  induction is generalizing nLeaf with
  | nil => exact Prog.Commutes.pure _
  | cons i is ih =>
    refine (hf.tesselateLevel threshold _ i).bind fun ok => ?_
    exact Prog.Commutes.ite ((hf.countTiles _).bind ih) (Prog.Commutes.pure _)

theorem tesselationLoop (threshold : ℤ) (sorts : ℕ → ℕ → CounterSort) (n : ℕ) (nLeaf : ℤ) :
    (tesselationLoop threshold sorts n nLeaf).Commutes f := by
  induction n generalizing nLeaf with
  | zero => exact Prog.Commutes.pure _
  | succ n ih =>
    refine Prog.Commutes.ite ((hf.tesselateLevels _ _ _ _).bind fun r => ?_)
      (Prog.Commutes.pure _)
    cases r with
    | none => exact Prog.Commutes.pure _
    | some nLeaf => exact ih nLeaf

theorem constrainedTesselation (threshold : ℤ) (sorts : ℕ → ℕ → CounterSort) (bound : ℕ) :
    (constrainedTesselation threshold sorts bound).Commutes f :=
  (hf.countTiles _).bind fun nLeaf => hf.tesselationLoop threshold sorts bound nLeaf

/-- Whether it returns depends on the tiles only. -/
theorem tesselationReturns_iff {threshold : ℤ} {sorts : ℕ → ℕ → CounterSort} {db : Db} :
    (f db).TesselationReturns threshold sorts ↔ db.TesselationReturns threshold sorts := by
  refine exists_congr fun bound => ?_
  rw [hf.resetFullTileDB db, hf.constrainedTesselation threshold sorts bound]

end BesideTiles

/-! ### All or nothing -/

section Insert

variable (lib : StorageLibrary)

/-- The tiles of an object, none if it has no usable geometry. -/
def objectTiles (content : Value) : List Str :=
  ((calculateGeometryIndex lib.intersects content).getD []).map coordName

/-- There is one document more, one packet more, and one object more in each tile of the
document. -/
def Data.AddedTo (data : Data lib.names) (db db' : Db) : Prop :=
  ∃ json_data element, lib.parse data.content = some json_data ∧
    indexElement json_data (lib.names.toUri data.name) = some element ∧
    db'.objectIndex = db.objectIndex ++ [data.document lib element] ∧
    db'.dataPackets = db.dataPackets ++ [data.stored lib] ∧
    CountsEach (objectTiles lib element.2) db db'

/-- A result of `insert` on the database: 0 and the object is added, or a failure and the
collections are as they were. -/
def AllOrNothing (data : Data lib.names) (db : Db) (r : Option ℤ × Db) : Prop :=
  (r.1 = some 0 ∧ data.AddedTo lib db r.2) ∨
    (r.1 ≠ some 0 ∧ db.SameStore r.2 ∧ db.SameIndex r.2)

/-- What is to be indexed can be: the value that was parsed has a usable geometry, the tiles
that are counted are those of the content that is stored, and the insertion comes to an end. -/
def Data.Indexable (threshold : ℤ) (sorts : ℕ → ℕ → CounterSort) (data : Data lib.names)
    (db : Db) : Prop :=
  ∀ json_data element, lib.parse data.content = some json_data →
    indexElement json_data (lib.names.toUri data.name) = some element →
    ∃ coordSet, calculateGeometryIndex lib.intersects json_data = some coordSet ∧
      (∀ n, n ∈ db.countedTiles (coordSet.map coordName) ↔ n ∈ objectTiles lib element.2) ∧
      db.IndexingReturns threshold sorts (coordSet.map coordName)

variable {lib} {threshold : ℤ} {sorts : ℕ → ℕ → CounterSort} {bound : ℕ}
  {data : Data lib.names} {element : Str × Value} {db : Db}

/-- The documents of a packet have nothing to do with the tiles. -/
theorem besideTiles_storedIn : BesideTiles (data.storedIn lib element) :=
  ⟨fun _ => rfl, fun _ _ => rfl⟩

/-- The index is updated the same before and after the packet is stored. -/
theorem addTiles_storedIn (ts : List Str) :
    (data.storedIn lib element db).addTiles ts = data.storedIn lib element (db.addTiles ts) := by
  -- over the tiles: the documents stored are no tiles, so the order does not matter
  induction ts generalizing db with
  | nil => rfl
  | cons t ts ih =>
    have hadd : (data.storedIn lib element db).addTile t =
        data.storedIn lib element (db.addTile t) := by
      have htiles : ∀ l n, (data.storedIn lib element db).tiles l n = db.tiles l n := fun _ _ => rfl
      unfold Db.addTile Db.insertTile
      rw [htiles, htiles]
      cases (db.tiles 0 (name100Of t)).head? with
      | none => rfl
      | some d0 =>
        cases (db.tiles 1 (name10Of t)).head? with
        | none => rfl
        | some d1 => rfl
    change ((data.storedIn lib element db).addTile t).addTiles ts = _
    rw [hadd, ih]
    rfl

/-- The documents of a packet do not matter for which tiles are counted. -/
theorem countedTiles_storedIn (ts : List Str) :
    (data.storedIn lib element db).countedTiles ts = db.countedTiles ts := by
  induction ts with
  | nil => rfl
  | cons t ts ih =>
    unfold Db.countedTiles
    rw [ih]
    rfl

/-- The documents of a packet do not matter for whether the insertion ends. -/
theorem indexingReturns_storedIn (ts : List Str) :
    (data.storedIn lib element db).IndexingReturns threshold sorts ts ↔
      db.IndexingReturns threshold sorts ts := by
  unfold Db.IndexingReturns
  rw [addTiles_storedIn, besideTiles_storedIn.tesselationReturns_iff]
  rfl

/-- Once both documents are stored, the database is not what it was. -/
theorem not_sameStore_insert {db' : Db} (h : (data.storedIn lib element db).SameStore db') :
    ¬db.SameStore db' := by
  intro hsame
  have hlength := congrArg List.length (h.1.symm.trans hsame.1)
  change (db.objectIndex ++ [data.document lib element]).length = db.objectIndex.length at hlength
  simp at hlength

/-- What the update of the index counts of an object that is stored. -/
theorem countsEach_update_iff {json_data : Value} {coordSet : List Coord} {ts : List Str}
    (hgeometry : calculateGeometryIndex lib.intersects json_data = some coordSet) :
    CountsEach ts db ((updateIndex threshold sorts bound coordSet false).run
        (data.storedIn lib element db)).2 ↔
      ∀ n, n ∈ db.countedTiles (coordSet.map coordName) ↔ n ∈ ts := by
  have hcounts : CountsEach (db.countedTiles (coordSet.map coordName)) db
      ((updateIndex threshold sorts bound coordSet false).run
        (data.storedIn lib element db)).2 := by
    intro n
    rw [counters_updateIndex, ← @countedTiles_storedIn lib data element db]
    exact countsEach_countedTiles (GridSet.calculateGeometryIndex hgeometry).nodup n
  exact hcounts.iff

/-- Without tiles the call throws and changes nothing. -/
theorem run_callCalculateIndex_none {json_data : Value} {isDeletion : Bool}
    (hgeometry : calculateGeometryIndex lib.intersects json_data = none) :
    (callCalculateIndex lib threshold sorts bound json_data isDeletion).run db = (false, db) := by
  unfold callCalculateIndex calculateIndex
  rw [hgeometry]
  rfl

/-- With tiles computed the call updates the index. -/
theorem run_callCalculateIndex_some {json_data : Value} {coordSet : List Coord} {isDeletion : Bool}
    (hgeometry : calculateGeometryIndex lib.intersects json_data = some coordSet) :
    (callCalculateIndex lib threshold sorts bound json_data isDeletion).run db =
      (((updateIndex threshold sorts bound coordSet isDeletion).run db).1 == .returned,
        ((updateIndex threshold sorts bound coordSet isDeletion).run db).2) := by
  unfold callCalculateIndex calculateIndex
  rw [hgeometry]
  dsimp only [Option.bind_eq_bind, Option.bind_some, Option.pure_def]
  rw [Prog.run_bind, Prog.run_pure]

section Stored

variable {json_data : Value} (hid : calculateDataIdentifier lib data.name ≠ [])
  (htenant : calculateTenantIdentifier lib data.name ≠ [])
  (hparse : lib.parse data.content = some json_data)
  (hindex : indexElement json_data (lib.names.toUri data.name) = some element)

include hid htenant hparse hindex

/-- Both documents are stored when the geometry is looked up: without one, an insertion is
neither all nor nothing. -/
theorem not_allOrNothing_of_no_geometry
    (hgeometry : calculateGeometryIndex lib.intersects json_data = none) :
    ¬AllOrNothing lib data db ((insert lib threshold sorts bound data).run db) := by
  rw [run_insert_accepted hid htenant hparse hindex, run_callCalculateIndex_none hgeometry]
  rintro (⟨hcode, -⟩ | ⟨-, hsame, -⟩)
  · exact absurd hcode (by simp)
  · exact not_sameStore_insert ⟨rfl, rfl⟩ hsame

/-- Of a packet whose documents are stored: the insertion is all or nothing if and only if it
returns and counts the tiles of the object. -/
theorem allOrNothing_stored_iff {coordSet : List Coord}
    (hgeometry : calculateGeometryIndex lib.intersects json_data = some coordSet) :
    AllOrNothing lib data db ((insert lib threshold sorts bound data).run db) ↔
      ((updateIndex threshold sorts bound coordSet false).run
        (data.storedIn lib element db)).1 = .returned ∧
      ∀ n, n ∈ db.countedTiles (coordSet.map coordName) ↔ n ∈ objectTiles lib element.2 := by
  have hstore := sameStore_updateIndex threshold sorts bound false coordSet
    (data.storedIn lib element db)
  have htiles : CountsEach (objectTiles lib element.2) db
      ((updateIndex threshold sorts bound coordSet false).run
        (data.storedIn lib element db)).2 ↔ _ := countsEach_update_iff hgeometry
  -- the store is written before the indexer runs, so only the index can be incomplete
  rw [run_insert_accepted hid htenant hparse hindex, run_callCalculateIndex_some hgeometry,
    ← htiles]
  generalize (updateIndex threshold sorts bound coordSet false).run
    (data.storedIn lib element db) = r at hstore
  constructor
  · rintro (⟨hcode, json', element', hparse', hindex', hobjects, hpackets, hcounts⟩ | ⟨-, hsame, -⟩)
    · obtain rfl := Option.some.inj (hparse.symm.trans hparse')
      obtain rfl := Option.some.inj (hindex.symm.trans hindex')
      refine ⟨?_, hcounts⟩
      by_contra hne
      rw [beq_false_of_ne hne] at hcode
      exact absurd hcode (by simp)
    -- a refusal would have left the store alone, and the packet is in it
    · exact absurd hsame (not_sameStore_insert hstore)
  · rintro ⟨hreturned, hcounts⟩
    refine Or.inl ⟨?_, json_data, element, hparse, hindex, hstore.1, hstore.2, hcounts⟩
    rw [hreturned]
    rfl

omit hid htenant in
/-- An object that is not wrapped: it needs a usable geometry, and all its tiles but the last one
listed are new. -/
theorem indexable_unwrapped_iff (hcontent : json_data.member? "content".toList = none) :
    data.Indexable lib threshold sorts db ↔
      ∃ coordSet, calculateGeometryIndex lib.intersects json_data = some coordSet ∧
        (∀ n ∈ (coordSet.map coordName).dropLast, db.tiles 2 n = []) ∧
        db.IndexingReturns threshold sorts (coordSet.map coordName) := by
  -- without a `content` member the document stored is the one indexed
  have hself : element.2 = json_data := by
    rw [indexElement_content hindex, indexContent, hcontent]
    rfl
  have htiles : ∀ coordSet, calculateGeometryIndex lib.intersects json_data = some coordSet →
      ((∀ n, n ∈ db.countedTiles (coordSet.map coordName) ↔ n ∈ objectTiles lib element.2) ↔
        ∀ n ∈ (coordSet.map coordName).dropLast, db.tiles 2 n = []) := by
    intro coordSet hgeometry
    rw [← mem_countedTiles_iff (GridSet.calculateGeometryIndex hgeometry).nodup, hself,
      objectTiles, hgeometry, Option.getD_some]
  constructor
  · intro h
    obtain ⟨coordSet, hgeometry, hcounted, hreturns⟩ := h json_data element hparse hindex
    exact ⟨coordSet, hgeometry, (htiles coordSet hgeometry).mp hcounted, hreturns⟩
  · rintro ⟨coordSet, hgeometry, hnew, hreturns⟩ json' element' hparse' hindex'
    obtain rfl := Option.some.inj (hparse.symm.trans hparse')
    obtain rfl := Option.some.inj (hindex.symm.trans hindex')
    exact ⟨coordSet, hgeometry, (htiles coordSet hgeometry).mpr hnew, hreturns⟩

end Stored

end Insert

section Examples

/-- The object of the city, wrapped in a member "content", as text. -/
def wrappedText : Str :=
  "\x7b\"content\":".toList ++ cityText ++ "\x7d".toList

/-- Its parsed form. -/
def wrappedJson : Value := .object [("content".toList, cityJson)]

/-- The libraries on the wrapped object. -/
def wrappedLibrary : StorageLibrary where
  names := octetNames
  parse s := if s = wrappedText then some wrappedJson else none
  parseStopWhenDone s := if s = wrappedText then some wrappedJson else none
  regexMatches pattern s := pattern.head? == some '^' && pattern.tail.isPrefixOf s
  intersects _ _ _ := false

/-- The packet of the wrapped object. -/
def wrappedData : Data octetNames where
  name := cityData.name
  content := wrappedText
  wire := [6, 0]

end Examples

end OpenGeoBase
