import OpenGeoBase.Repo.Index

/-!
# The shard indexer

`MongoStorage::shardIndexer` keeps the tile hierarchy in step with the objects. An
insertion counts one more object in the object's level-2 tile; a tile that is new
is also counted in the tiles around it, and advertised unless one of those is a
leaf. A deletion runs through `decreaseCounter`, which removes a tile whose counter
runs out and goes on with the tiles around it.

The text of the functions is the code's; the lemmas at the end say what each of
them does to a collection, in one step.
-/

namespace OpenGeoBase

open Text AtomicCalls Collection

/-- `MongoStorage::checkParentIsLeaf`: does the tile exist, and is it a leaf? -/
def checkParentIsLeaf (name : Str) (level : ℕ) : Prog Db (Bool × Bool) := do
  let tileEntry ← findTile (TileDoc.isTile level name)
  match tileEntry with
  | some d => pure (true, d.leaf)
  | none => pure (false, false)

/-- The document of a new tile. -/
def tileDocument (name1 name10 name100 : Str) (level : ℕ) (isLeaf : Bool) : TileDoc where
  name100 := name100
  name10 := if level = 0 then xx else name10
  name1 := if level = 0 ∨ level = 1 then xx else name1
  children := 1
  level := level
  counter := 1
  cancelled := !isLeaf
  leaf := isLeaf

/-- `MongoStorage::createTileEntry`. -/
def createTileEntry (name1 name10 name100 : Str) (level : ℕ) (isLeaf : Bool) : Prog Db Unit := do
  onTiles (insertOne (tileDocument name1 name10 name100 level isLeaf))
  if isLeaf ∧ level = 2 then onIndex (insertOne ⟨name1, 1000⟩) else pure ()

/-- The increments of `updateExistingTile`: only a level-0 tile can gain a tile
beneath it without gaining a child. -/
def TileDoc.grow (level : ℕ) (newChild : Bool) (d : TileDoc) : TileDoc :=
  if level = 0 then
    if newChild then { d with counter := d.counter + 1, children := d.children + 1 }
    else { d with counter := d.counter + 1 }
  else if level = 1 then { d with counter := d.counter + 1, children := d.children + 1 }
  else { d with counter := d.counter + 1 }

/-- `MongoStorage::updateExistingTile`. -/
def updateExistingTile (name : Str) (level : ℕ) (newChild : Bool) : Prog Db Unit :=
  onTiles (updateOne (TileDoc.isTile level name) (TileDoc.grow level newChild))

/-- The name a deletion looks a tile up by at a level. -/
def levelName (name1 name10 name100 : Str) : ℕ → Str
  | 0 => name100
  | 1 => name10
  | _ => name1

/-- `MongoStorage::decreaseChildren`. -/
def decreaseChildren (name1 name10 name100 : Str) (level : ℕ) : Prog Db Unit :=
  onTiles (updateOne (TileDoc.isTile level (levelName name1 name10 name100 level))
    fun d => { d with children := d.children - 1 })

/-- The body of `decreaseCounter`, with `lower` for its `while (level > 0)` loop,
which returns the value `level` has after it. -/
def decreaseCounterBody (name1 name10 name100 : Str) (level : ℕ) (lower : Prog Db ℕ) :
    Prog Db Unit := do
  let name := levelName name1 name10 name100 level
  let tileEntry ← findTile (TileDoc.isTile level name)
  match tileEntry with
  | none => pure ()
  | some d =>
    if d.counter > 1 then
      onTiles (updateOne (TileDoc.isTile level name) fun d => { d with counter := d.counter - 1 })
    else do
      onTiles (deleteOne (TileDoc.isTile level name))
      onIndex (deleteOne (·.name == name))
      let level ← lower
      -- the loop has counted `level` down to 0, so the children are never decreased
      if level > 0 then decreaseChildren name1 name10 name100 (level - 1) else pure ()

/-- The loop `while (level > 0) decreaseCounter(name1, name10, name100, --level)`. -/
def decreaseLower (name1 name10 name100 : Str) : ℕ → Prog Db ℕ
  | 0 => pure 0
  | level + 1 => do
    decreaseCounterBody name1 name10 name100 level (decreaseLower name1 name10 name100 level)
    decreaseLower name1 name10 name100 level

/-- `MongoStorage::decreaseCounter`. -/
def decreaseCounter (name1 name10 name100 : Str) (level : ℕ) : Prog Db Unit :=
  decreaseCounterBody name1 name10 name100 level (decreaseLower name1 name10 name100 level)

/-- The insertion of a tile that has no document yet. -/
def insertTile (name1 name10 name100 : Str) : Prog Db Unit := do
  let lvl0 ← checkParentIsLeaf name100 0
  if !lvl0.1 then do
    createTileEntry name1 name10 name100 0 false
    createTileEntry name1 name10 name100 1 false
    createTileEntry name1 name10 name100 2 true
  else do
    let lvl1 ← checkParentIsLeaf name10 1
    if !lvl1.1 then
      if lvl0.2 then do
        updateExistingTile name100 0 true
        createTileEntry name1 name10 name100 1 false
        createTileEntry name1 name10 name100 2 false
      else do
        updateExistingTile name100 0 true
        createTileEntry name1 name10 name100 1 false
        createTileEntry name1 name10 name100 2 true
    else
      if lvl1.2 then do
        updateExistingTile name100 0 false
        updateExistingTile name10 1 false
        createTileEntry name1 name10 name100 2 false
      else do
        updateExistingTile name100 0 false
        updateExistingTile name10 1 false
        createTileEntry name1 name10 name100 2 true

/-- The loop of `shardIndexer` over the tiles of an object. The result says whether
it left early, which an insertion does at the first tile that already exists. -/
def indexTiles (isDeletion : Bool) : List Coord → Prog Db Bool
  | [] => pure false
  | (x, y) :: coordSet => do
    let name1 := calculateLATLONName x y 2
    let name100 := name100Of name1
    let name10 := name10Of name1
    let tileEntry ← findTile (TileDoc.isTile 2 name1)
    if !isDeletion then
      match tileEntry with
      | none => do
        insertTile name1 name10 name100
        indexTiles isDeletion coordSet
      | some _ => do
        updateExistingTile name1 2 false
        pure true
    else do
      decreaseCounter name1 name10 name100 maxTessellationLevel
      indexTiles isDeletion coordSet

/-- Has the number of advertised names moved, and out of the range around the threshold? -/
def needTesselation (threshold nTiles initialTiles : ℤ) : Bool :=
  (decide ((nTiles : ℚ) > threshold * (12 / 10)) ||
    decide ((nTiles : ℚ) < threshold * (8 / 10))) && nTiles != initialTiles

/-- `MongoStorage::shardIndexer`, with every database call succeeding. The result
says whether the index needs a rebuild. -/
def shardIndexer (threshold : ℤ) (coordSet : List Coord) (isDeletion : Bool) : Prog Db Bool := do
  let initialTiles ← countIndex
  let left ← indexTiles isDeletion coordSet
  if left then pure false
  else do
    let nTiles ← countIndex
    let needTesselation := needTesselation threshold nTiles initialTiles
    if nTiles ≠ initialTiles ∧ !needTesselation then versionUpdater else pure ()
    pure needTesselation

/-! ### What the functions do to the database

The same functions as maps on the database. `Db.insertTile` and `Db.decrease` read
like their originals with the calls executed; nothing is left out. -/

section Effects

variable (name1 name10 name100 : Str) (db : Db)

/-- `createTileEntry` on the database. -/
def Db.createTile (level : ℕ) (isLeaf : Bool) (db : Db) : Db :=
  (db.mapTiles (insertOne (tileDocument name1 name10 name100 level isLeaf))).mapIndex
    fun c => if isLeaf ∧ level = 2 then insertOne ⟨name1, 1000⟩ c else c

/-- `updateExistingTile` on the database. -/
def Db.growTile (name : Str) (level : ℕ) (newChild : Bool) (db : Db) : Db :=
  db.mapTiles (updateOne (TileDoc.isTile level name) (TileDoc.grow level newChild))

/-- `insertTile` on the database. -/
def Db.insertTile (db : Db) : Db :=
  match (db.tiles 0 name100).head? with
  | none => ((db.createTile name1 name10 name100 0 false).createTile name1 name10 name100 1
      false).createTile name1 name10 name100 2 true
  | some d0 =>
    match (db.tiles 1 name10).head? with
    | none => ((db.growTile name100 0 true).createTile name1 name10 name100 1 false).createTile
        name1 name10 name100 2 (!d0.leaf)
    | some d1 => ((db.growTile name100 0 false).growTile name10 1 false).createTile
        name1 name10 name100 2 (!d1.leaf)

/-- A tile loses one from its counter. -/
def Db.shrinkTile (name : Str) (level : ℕ) (db : Db) : Db :=
  db.mapTiles (updateOne (TileDoc.isTile level name) fun d => { d with counter := d.counter - 1 })

/-- A tile goes, and its name out of the index. -/
def Db.removeTile (name : Str) (level : ℕ) (db : Db) : Db :=
  (db.mapTiles (deleteOne (TileDoc.isTile level name))).mapIndex (deleteOne (·.name == name))

/-- `decreaseCounter` on the database, `lower` standing for its loop. -/
def Db.decrease (name : Str) (level : ℕ) (lower : Db → Db) (db : Db) : Db :=
  match (db.tiles level name).head? with
  | none => db
  | some d => if d.counter > 1 then db.shrinkTile name level else lower (db.removeTile name level)

/-- The loop of `decreaseCounter` on the database. -/
def Db.lower : ℕ → Db → Db
  | 0, db => db
  | level + 1, db =>
    Db.lower level (Db.decrease (levelName name1 name10 name100 level) level (Db.lower level) db)

@[simp] theorem run_createTileEntry (level : ℕ) (isLeaf : Bool) :
    (createTileEntry name1 name10 name100 level isLeaf).run db =
      ((), db.createTile name1 name10 name100 level isLeaf) := by
  unfold createTileEntry Db.createTile onTiles onIndex
  rw [Prog.run_bind, Prog.run_ite, Prog.run_modify]
  by_cases h : isLeaf ∧ level = 2
  · simp only [if_pos h]
    rfl
  · simp only [if_neg h]
    rfl

@[simp] theorem run_updateExistingTile (name : Str) (level : ℕ) (newChild : Bool) :
    (updateExistingTile name level newChild).run db = ((), db.growTile name level newChild) := rfl

@[simp] theorem run_checkParentIsLeaf (name : Str) (level : ℕ) :
    (checkParentIsLeaf name level).run db =
      (((db.tiles level name).head?.isSome, ((db.tiles level name).head?.map TileDoc.leaf).getD
        false), db) := by
  unfold checkParentIsLeaf findTile
  rw [Prog.run_bind, Prog.run_query, Db.find?_isTile]
  cases (db.tiles level name).head? <;> rfl

/-- The insertion of a tile, as a change of the database. -/
theorem run_insertTile :
    (insertTile name1 name10 name100).run db = ((), db.insertTile name1 name10 name100) := by
  unfold insertTile Db.insertTile
  cases h0 : (db.tiles 0 name100).head? with
  | none => simp [h0]
  | some d0 =>
    cases h1 : (db.tiles 1 name10).head? with
    | none => cases hl : d0.leaf <;> simp [h0, h1, hl]
    | some d1 => cases hl : d1.leaf <;> simp [h0, h1, hl]

/-- One level of the deletion, given what happens beneath. -/
private theorem run_decreaseCounterBody (level : ℕ) (p : Prog Db ℕ) (lower : Db → Db)
    (hp : ∀ db, p.run db = (0, lower db)) :
    (decreaseCounterBody name1 name10 name100 level p).run db =
      ((), db.decrease (levelName name1 name10 name100 level) level lower) := by
  unfold decreaseCounterBody Db.decrease Db.shrinkTile Db.removeTile findTile onTiles onIndex
  simp only [Prog.run_bind, Prog.run_query, Db.find?_isTile]
  cases (db.tiles level (levelName name1 name10 name100 level)).head? with
  | none => rfl
  | some d =>
    by_cases hc : d.counter > 1
    · simp [hc]
    · simp [hc, hp]

/-- What the deletion does beneath a level. -/
private theorem run_decreaseLower (level : ℕ) :
    (decreaseLower name1 name10 name100 level).run db =
      (0, db.lower name1 name10 name100 level) := by
  induction level generalizing db with
  | zero => rfl
  | succ level ih =>
    unfold decreaseLower Db.lower
    rw [Prog.run_bind, run_decreaseCounterBody _ _ _ _ _ _ _ ih]
    exact ih _

/-- `decreaseCounter` runs the loop once a tile is gone, and never decreases a
number of children. -/
theorem run_decreaseCounter (level : ℕ) :
    (decreaseCounter name1 name10 name100 level).run db =
      ((), db.decrease (levelName name1 name10 name100 level) level
        (Db.lower name1 name10 name100 level)) :=
  run_decreaseCounterBody _ _ _ _ _ _ _ fun db => run_decreaseLower name1 name10 name100 db level

/-- The deletion of one object of a tile, as `decreaseCounter` does it. -/
def Db.deleteObject (db : Db) : Db :=
  db.decrease name1 2 (Db.lower name1 (name10Of name1) (name100Of name1) 2)

/-- The tile a pair of the coordinate set stands for. -/
def coordName (p : Coord) : Str := calculateLATLONName p.1 p.2 2

@[simp] theorem run_indexTiles_nil (isDeletion : Bool) :
    (indexTiles isDeletion []).run db = (false, db) := rfl

/-- The insertion goes on past a tile that is new. -/
theorem run_indexTiles_new {p : Coord} {coordSet : List Coord}
    (h : db.tiles 2 (coordName p) = []) :
    (indexTiles false (p :: coordSet)).run db =
      (indexTiles false coordSet).run
        (db.insertTile (coordName p) (name10Of (coordName p)) (name100Of (coordName p))) := by
  conv_lhs => unfold indexTiles findTile
  rw [Prog.run_bind, Prog.run_query, Db.find?_isTile]
  change (db.tiles 2 (calculateLATLONName p.1 p.2 2)) = [] at h
  rw [h, List.head?_nil]
  simp only [Bool.not_false, ↓reduceIte]
  rw [Prog.run_bind, run_insertTile]
  rfl

/-- The insertion stops at the first tile that exists. -/
theorem run_indexTiles_existing {p : Coord} {coordSet : List Coord}
    (h : db.tiles 2 (coordName p) ≠ []) :
    (indexTiles false (p :: coordSet)).run db = (true, db.growTile (coordName p) 2 false) := by
  obtain ⟨d, ds, hd⟩ := List.exists_cons_of_ne_nil h
  unfold indexTiles findTile
  rw [Prog.run_bind, Prog.run_query, Db.find?_isTile]
  change (db.tiles 2 (calculateLATLONName p.1 p.2 2)) = d :: ds at hd
  rw [hd, List.head?_cons]
  rfl

/-- A deletion takes the tiles one after the other. -/
theorem run_indexTiles_delete (p : Coord) (coordSet : List Coord) :
    (indexTiles true (p :: coordSet)).run db =
      (indexTiles true coordSet).run (db.deleteObject (coordName p)) := by
  conv_lhs => unfold indexTiles findTile
  rw [Prog.run_bind, Prog.run_query]
  simp only [Bool.not_true, Bool.false_eq_true, ↓reduceIte]
  rw [Prog.run_bind, run_decreaseCounter]
  rfl

/-- A new version, stored and sent out. -/
def Db.bumpVersion (db : Db) : Db :=
  (db.mapVersion fun c =>
    match c.find? VersionDoc.isVersion with
    | none => insertOne ⟨indexVersionName, 1⟩ c
    | some doc =>
      updateOne VersionDoc.isVersion ({ · with indexVersion := doc.indexVersion + 1 }) c).sent
    (db.version + 1)

@[simp] theorem run_versionUpdater : versionUpdater.run db = ((), db.bumpVersion) := by
  unfold versionUpdater Db.bumpVersion Db.version
  rw [Prog.run_bind, Prog.run_query]
  cases h : db.indexVersionCollection.find? VersionDoc.isVersion with
  | none => simp [onVersion, sendVersionInterest, Db.mapVersion, h]
  | some doc => simp [onVersion, sendVersionInterest, Db.mapVersion, h]

/-- The version goes up by one. -/
theorem version_bumpVersion : db.bumpVersion.version = db.version + 1 := by
  unfold Db.bumpVersion Db.version Db.mapVersion Db.sent
  -- the first call makes the document, the later ones count it up
  cases h : db.indexVersionCollection.find? VersionDoc.isVersion with
  | none =>
    have hnew : VersionDoc.isVersion ⟨indexVersionName, 1⟩ = true := by decide
    simp [h, insertOne, List.find?_append, hnew]
  | some doc =>
    have hset := filter_updateOne_self (p := VersionDoc.isVersion)
      (f := fun d => { d with indexVersion := doc.indexVersion + 1 }) (fun _ hd => hd)
      db.indexVersionCollection
    dsimp only
    rw [h]
    dsimp only
    rw [find?_eq_head?_filter, hset, List.head?_modifyHead, ← find?_eq_head?_filter, h]
    rfl

/-- `shardIndexer` is the loop over the tiles, followed by a new version when the
loop ran to its end, the number of advertised names changed and no rebuild is due. -/
theorem run_shardIndexer (threshold : ℤ) (coordSet : List Coord) (isDeletion : Bool) :
    let r := (indexTiles isDeletion coordSet).run db
    let need := needTesselation threshold r.2.indexCollection.length db.indexCollection.length
    (shardIndexer threshold coordSet isDeletion).run db =
      if r.1 then (false, r.2)
      else (need, if (r.2.indexCollection.length : ℤ) ≠ db.indexCollection.length ∧ !need then
        r.2.bumpVersion else r.2) := by
  intro r need
  unfold shardIndexer countIndex
  rw [Prog.run_bind, Prog.run_bind, Prog.run_ite]
  change (if r.1 = true then _ else _) = _
  -- the existing tile returns early; otherwise the number of the documents decides
  split
  · rfl
  · change Prog.run (if (r.2.indexCollection.length : ℤ) ≠ (db.indexCollection.length : ℤ) ∧ !need
      then versionUpdater >>= fun _ => pure need else pure need) r.2 = _
    rw [Prog.run_ite, Prog.run_bind, run_versionUpdater, Prog.run_pure, Prog.run_pure]
    split <;> rfl

end Effects

/-! ### What the indexer leaves alone -/

/-- The tile hierarchy and the advertised index are the same. -/
def Db.SameIndex (db db' : Db) : Prop :=
  db'.fullTileCollection = db.fullTileCollection ∧ db'.indexCollection = db.indexCollection

/-- The object indices and the stored packets are the same. -/
def Db.SameStore (db db' : Db) : Prop :=
  db'.objectIndex = db.objectIndex ∧ db'.dataPackets = db.dataPackets

theorem Db.sameIndex_bumpVersion (db : Db) : db.SameIndex db.bumpVersion := ⟨rfl, rfl⟩

/-- What follows the loop over the tiles touches the version only. -/
theorem sameIndex_shardIndexer (threshold : ℤ) (coordSet : List Coord) (isDeletion : Bool)
    (db : Db) : Db.SameIndex ((indexTiles isDeletion coordSet).run db).2
      ((shardIndexer threshold coordSet isDeletion).run db).2 := by
  rw [run_shardIndexer]
  split
  · exact ⟨rfl, rfl⟩
  · dsimp only
    split
    · exact Db.sameIndex_bumpVersion _
    · exact ⟨rfl, rfl⟩

end OpenGeoBase
