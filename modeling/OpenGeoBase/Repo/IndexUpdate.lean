import OpenGeoBase.Repo.GeometryIndex
import OpenGeoBase.Repo.Rebuild

/-!
# Updates of the index and its version

`calculateIndex` indexes an object, or takes it out of the index, and rebuilds the
index when its size calls for it. Front ends compare version numbers to find out
that the index has changed, so an update that changes the set of advertised names
has to store a new version.

The loop over the tiles of the object only adds names to the index, or only takes
names out of it (`IndexerFrame`), so a change of the set shows in the number of
names, and a loop that runs to its end is followed by a new version or by a rebuild,
which stores one. An insertion, however, leaves `shardIndexer` at the first tile that
exists (`run_indexTiles_fresh`), and what it has advertised until then goes
without a version. `version_calculateIndex_iff` says exactly when that happens.
-/

namespace OpenGeoBase

open Text AtomicCalls Collection

/-- What `MongoStorage::calculateIndex` does with the tiles of an object. -/
def updateIndex (threshold : ℤ) (sorts : ℕ → ℕ → CounterSort) (bound : ℕ)
    (coordSet : List Coord) (isDeletion : Bool) : Prog Db Ended := do
  let need_tesselation ← shardIndexer threshold coordSet isDeletion
  if need_tesselation then rebuildIndex threshold sorts bound else pure .returned

/-- `MongoStorage::calculateIndex`; `none` where it fails on the JSON value. -/
def calculateIndex (intersects : List Coord → Coord → Coord → Bool) (threshold : ℤ)
    (sorts : ℕ → ℕ → CounterSort) (bound : ℕ) (json_data : Value) (isDeletion : Bool) :
    Option (Prog Db Ended) := do
  let coordSet ← calculateGeometryIndex intersects json_data
  pure (updateIndex threshold sorts bound coordSet isDeletion)

/-! ### The frame of the loop over the tiles -/

/-- What a relation must put up with for `indexTiles` to stay within it: any change to the
tile documents, and new names in an insertion or lost ones in a deletion. -/
structure IndexerFrame (isDeletion : Bool) (R : Db → Db → Prop) : Prop where
  refl : ∀ db, R db db
  trans : ∀ {db₁ db₂ db₃}, R db₁ db₂ → R db₂ db₃ → R db₁ db₃
  tiles : ∀ f (db : Db), R db (db.mapTiles f)
  insert : isDeletion = false → ∀ d (db : Db), R db (db.mapIndex (insertOne d))
  delete : isDeletion = true → ∀ p (db : Db), R db (db.mapIndex (deleteOne p))

namespace IndexerFrame

variable {R : Db → Db → Prop} {isDeletion : Bool} (hR : IndexerFrame isDeletion R)

include hR

/-- Returning changes nothing. -/
theorem pure {α : Type} (a : α) : Prog.Within R (Pure.pure a : Prog Db α) :=
  Prog.Within.pure hR.refl a

theorem query {α : Type} (q : Db → α) : Prog.Within R (Prog.query q) :=
  Prog.Within.query hR.refl q

theorem bind {α β : Type} {p : Prog Db α} {g : α → Prog Db β} (hp : Prog.Within R p)
    (hg : ∀ a, Prog.Within R (g a)) : Prog.Within R (p >>= g) :=
  Prog.Within.bind (R := R) hR.trans hp hg

/-- A change of the tiles is within it. -/
theorem onTiles (f : List TileDoc → List TileDoc) : Prog.Within R (onTiles f) :=
  Prog.Within.modify (hR.tiles f)

/-- The search for a leaf above stays within it. -/
theorem checkParentIsLeaf (name : Str) (level : ℕ) :
    Prog.Within R (checkParentIsLeaf name level) := by
  refine hR.bind (hR.query _) fun tileEntry => ?_
  cases tileEntry with
  | none => exact hR.pure _
  | some d => exact hR.pure _

section Insertion

variable (hins : isDeletion = false)

include hins

theorem createTileEntry (name1 name10 name100 : Str) (level : ℕ) (isLeaf : Bool) :
    Prog.Within R (createTileEntry name1 name10 name100 level isLeaf) := by
  refine hR.bind (hR.onTiles _) fun _ => ?_
  exact Prog.Within.ite (Prog.Within.modify (hR.insert hins _)) (hR.pure _)

theorem insertTile (name1 name10 name100 : Str) :
    Prog.Within R (insertTile name1 name10 name100) := by
  have hcreate : ∀ level isLeaf,
      Prog.Within R (OpenGeoBase.createTileEntry name1 name10 name100 level isLeaf) :=
    fun level isLeaf => hR.createTileEntry hins name1 name10 name100 level isLeaf
  have hgrow : ∀ name level newChild,
      Prog.Within R (updateExistingTile name level newChild) := fun _ _ _ => hR.onTiles _
  refine hR.bind (hR.checkParentIsLeaf _ _) fun lvl0 => ?_
  refine Prog.Within.ite ?_ (hR.bind (hR.checkParentIsLeaf _ _) fun lvl1 => ?_)
  -- There is no level-0 tile, so all three are created.
  · exact hR.bind (hcreate _ _) fun _ => hR.bind (hcreate _ _) fun _ => hcreate _ _
  · -- the four cases of an existing level-0 tile
    refine Prog.Within.ite (Prog.Within.ite ?_ ?_) (Prog.Within.ite ?_ ?_)
    · exact hR.bind (hgrow _ _ _) fun _ => hR.bind (hcreate _ _) fun _ => hcreate _ _
    · exact hR.bind (hgrow _ _ _) fun _ => hR.bind (hcreate _ _) fun _ => hcreate _ _
    · exact hR.bind (hgrow _ _ _) fun _ => hR.bind (hgrow _ _ _) fun _ => hcreate _ _
    · exact hR.bind (hgrow _ _ _) fun _ => hR.bind (hgrow _ _ _) fun _ => hcreate _ _

end Insertion

section Deletion

variable (hdel : isDeletion = true)

include hdel

/-- A level of the deletion stays within it if what it does beneath does. -/
theorem decreaseCounterBody (name1 name10 name100 : Str) (level : ℕ) {lower : Prog Db ℕ}
    (hlower : Prog.Within R lower) :
    Prog.Within R (decreaseCounterBody name1 name10 name100 level lower) := by
  refine hR.bind (hR.query _) fun tileEntry => ?_
  cases tileEntry with
  | none => exact hR.pure _
  | some d =>
    refine Prog.Within.ite (hR.onTiles _) (hR.bind (hR.onTiles _) fun _ => ?_)
    refine hR.bind (Prog.Within.modify (hR.delete hdel _)) fun _ => hR.bind hlower fun _ => ?_
    exact Prog.Within.ite (hR.onTiles _) (hR.pure _)

theorem decreaseLower (name1 name10 name100 : Str) (level : ℕ) :
    Prog.Within R (decreaseLower name1 name10 name100 level) := by
  induction level with
  | zero => exact hR.pure _
  | succ level ih =>
    exact hR.bind (hR.decreaseCounterBody hdel name1 name10 name100 level ih) fun _ => ih

theorem decreaseCounter (name1 name10 name100 : Str) (level : ℕ) :
    Prog.Within R (decreaseCounter name1 name10 name100 level) :=
  hR.decreaseCounterBody hdel name1 name10 name100 level
    (hR.decreaseLower hdel name1 name10 name100 level)

end Deletion

/-- The loop over the tiles stays within every relation that puts up with its parts. -/
theorem indexTiles (coordSet : List Coord) : Prog.Within R (indexTiles isDeletion coordSet) := by
  induction coordSet with
  | nil => exact hR.pure _
  | cons p coordSet ih =>
    refine hR.bind (hR.query _) fun tileEntry => ?_
    -- A deletion counts down; an insertion creates the tile, or counts up where it is and stops.
    cases hdel : isDeletion with
    | true =>
      subst hdel
      exact hR.bind (hR.decreaseCounter rfl _ _ _ _) fun _ => ih
    | false =>
      subst hdel
      cases tileEntry with
      | none => exact hR.bind (hR.insertTile rfl _ _ _) fun _ => ih
      | some d => exact hR.bind (hR.onTiles _) fun _ => hR.pure _

end IndexerFrame

/-! ### The names and the version -/

namespace Db

/-- The set of advertised names. -/
def advertisedNames (db : Db) : Finset Str := db.indexNames.toFinset

/-- The same version document. -/
def SameVersion (db db' : Db) : Prop := db'.version = db.version

end Db

/-- The loop over the tiles leaves the version alone. -/
theorem indexerFrame_sameVersion (isDeletion : Bool) : IndexerFrame isDeletion Db.SameVersion where
  refl _ := rfl
  trans h₁ h₂ := Eq.trans h₂ h₁
  tiles _ _ := rfl
  insert _ _ _ := rfl
  delete _ _ _ := rfl

/-- The loop over the tiles takes no name out of the index when it inserts. -/
theorem indexerFrame_grows :
    IndexerFrame false fun db db' => db.indexCollection.Sublist db'.indexCollection where
  refl _ := List.Sublist.refl _
  trans h₁ h₂ := h₁.trans h₂
  tiles _ _ := List.Sublist.refl _
  insert _ d db := List.sublist_append_left db.indexCollection [d]
  delete h := absurd h (by decide)

/-- The loop over the tiles adds no name to the index when it deletes. -/
theorem indexerFrame_shrinks :
    IndexerFrame true fun db db' => db'.indexCollection.Sublist db.indexCollection where
  refl _ := List.Sublist.refl _
  trans h₁ h₂ := h₂.trans h₁
  tiles _ _ := List.Sublist.refl _
  insert h := absurd h (by decide)
  delete _ _ _ := List.eraseP_sublist

/-- So the index is the same if the number of its names is. -/
theorem indexCollection_eq_of_length {isDeletion : Bool} {coordSet : List Coord} {db : Db}
    (h : ((indexTiles isDeletion coordSet).run db).2.indexCollection.length =
      db.indexCollection.length) :
    ((indexTiles isDeletion coordSet).run db).2.indexCollection = db.indexCollection := by
  cases isDeletion with
  | true => exact (indexerFrame_shrinks.indexTiles coordSet db).eq_of_length h
  | false => exact ((indexerFrame_grows.indexTiles coordSet db).eq_of_length h.symm).symm

/-- Marks do not touch the version. -/
theorem Db.flagFrame_sameVersion : FlagFrame Db.SameVersion where
  refl _ := rfl
  trans h₁ h₂ := Eq.trans h₂ h₁
  tiles _ _ _ := rfl

theorem version_buildIndexDB (db : Db) : (buildIndexDB.run db).2.version = db.version + 1 := by
  unfold buildIndexDB
  rw [Prog.run_bind, Prog.run_bind, Prog.run_bind, run_insertIndexNames, run_versionUpdater]
  exact version_bumpVersion _

/-- A rebuild that returns stores a new version. -/
theorem version_rebuildIndex {threshold : ℤ} {sorts : ℕ → ℕ → CounterSort} {bound : ℕ} {db : Db}
    (hret : ((rebuildIndex threshold sorts bound).run db).1 = .returned) :
    ((rebuildIndex threshold sorts bound).run db).2.version = db.version + 1 := by
  have hreset : (resetFullTileDB.run db).2.version = db.version :=
    Db.flagFrame_sameVersion.resetFullTileDB db
  have htess := Db.flagFrame_sameVersion.constrainedTesselation threshold sorts bound
    (resetFullTileDB.run db).2
  unfold rebuildIndex at hret ⊢
  rw [Prog.run_bind, Prog.run_bind] at hret ⊢
  -- the version is written at the very end, by `buildIndexDB`
  cases hended : ((constrainedTesselation threshold sorts bound).run
      (resetFullTileDB.run db).2).1 with
  | returned =>
    dsimp only
    rw [Prog.run_bind, Prog.run_pure]
    calc
      _ = ((constrainedTesselation threshold sorts bound).run
          (resetFullTileDB.run db).2).2.version + 1 := version_buildIndexDB _
      _ = db.version + 1 := by rw [htess, hreset]
  | exited =>
    rw [hended] at hret
    exact absurd hret (by simp)
  | running =>
    rw [hended] at hret
    exact absurd hret (by simp)

section Update

variable {threshold : ℤ} {sorts : ℕ → ℕ → CounterSort} {bound : ℕ} {coordSet : List Coord}
  {isDeletion : Bool} {db : Db}

/-- An update that leaves its loop early is over. -/
theorem run_updateIndex_left (hleft : ((indexTiles isDeletion coordSet).run db).1 = true) :
    (updateIndex threshold sorts bound coordSet isDeletion).run db =
      (.returned, ((indexTiles isDeletion coordSet).run db).2) := by
  unfold updateIndex
  rw [Prog.run_bind, run_shardIndexer, if_pos hleft]
  rfl

/-- Otherwise a rebuild follows, or a new version if the number of names has changed. -/
theorem run_updateIndex_end (hend : ((indexTiles isDeletion coordSet).run db).1 = false) :
    let db₁ := ((indexTiles isDeletion coordSet).run db).2
    let nTiles : ℤ := db₁.indexCollection.length
    let initialTiles : ℤ := db.indexCollection.length
    (updateIndex threshold sorts bound coordSet isDeletion).run db =
      if needTesselation threshold nTiles initialTiles then
        (rebuildIndex threshold sorts bound).run db₁
      else (.returned, if nTiles ≠ initialTiles then db₁.bumpVersion else db₁) := by
  intro db₁ nTiles initialTiles
  unfold updateIndex
  rw [Prog.run_bind, run_shardIndexer, hend, if_neg Bool.false_ne_true, Prog.run_ite]
  -- The version is counted by the rebuild, or alone if the number of tiles has changed.
  by_cases hneed : needTesselation threshold nTiles initialTiles = true
  · rw [if_pos hneed, if_pos hneed, if_neg]
    simp only [not_and, Bool.not_eq_true', Bool.not_eq_false]
    exact fun _ => hneed
  · rw [if_neg hneed, if_neg hneed, Prog.run_pure]
    have hneed' : (!needTesselation threshold nTiles initialTiles) = true := by simp [hneed]
    exact congrArg (Prod.mk _) (if_congr (and_iff_left hneed') rfl rfl)

/-- The counters are those the loop over the tiles leaves. -/
theorem counters_updateIndex (l : ℕ) (m : Str) :
    ((updateIndex threshold sorts bound coordSet isDeletion).run db).2.counters l m =
      ((indexTiles isDeletion coordSet).run db).2.counters l m := by
  have hindexer : ((shardIndexer threshold coordSet isDeletion).run db).2.counters l m =
      ((indexTiles isDeletion coordSet).run db).2.counters l m := by
    unfold Db.counters Db.tiles
    rw [(sameIndex_shardIndexer threshold coordSet isDeletion db).1]
  unfold updateIndex
  rw [Prog.run_bind, Prog.run_ite, ← hindexer]
  split
  · exact (within_rebuildIndex threshold sorts bound _).counters l m
  · rfl

/-- An update whose loop runs to its end stores a new version if it changes the index. -/
theorem version_updateIndex_of_end (hend : ((indexTiles isDeletion coordSet).run db).1 = false)
    (hret : ((updateIndex threshold sorts bound coordSet isDeletion).run db).1 = .returned)
    (hnames : ((updateIndex threshold sorts bound coordSet isDeletion).run db).2.advertisedNames ≠
      db.advertisedNames) :
    db.version < ((updateIndex threshold sorts bound coordSet isDeletion).run db).2.version := by
  have hversion : ((indexTiles isDeletion coordSet).run db).2.version = db.version :=
    (indexerFrame_sameVersion isDeletion).indexTiles coordSet db
  rw [run_updateIndex_end hend] at hret hnames ⊢
  rw [← hversion]
  split at hret
  · next hneed =>
    -- the rebuild stores a version
    rw [if_pos hneed, version_rebuildIndex hret]
    exact Int.lt_succ _
  · next hneed =>
    rw [if_neg hneed] at hnames ⊢
    dsimp only at hnames ⊢
    by_cases hlength : (((indexTiles isDeletion coordSet).run db).2.indexCollection.length : ℤ) =
        db.indexCollection.length
    · -- no name more or less: the index is the same
      rw [if_neg (not_not.mpr hlength)] at hnames
      refine absurd ?_ hnames
      unfold Db.advertisedNames Db.indexNames
      rw [indexCollection_eq_of_length (Int.ofNat.inj hlength)]
    · rw [if_pos hlength, version_bumpVersion]
      exact Int.lt_succ _

end Update

/-! ### Where an insertion stops -/

namespace Db

variable (db : Db)

/-- The insertion of a tile that is new. -/
def addTile (n : Str) : Db := db.insertTile n (name10Of n) (name100Of n)

/-- The insertion of several tiles that are new. -/
def addTiles (pre : List Str) : Db := pre.foldl addTile db

/-- None of the tiles exists, and none is listed twice. -/
def Fresh (pre : List Str) : Prop := (∀ u ∈ pre, db.tiles 2 u = []) ∧ pre.Nodup

/-- Is the document of a tile a leaf? -/
def leafAt (l : ℕ) (m : Str) : Bool := ((db.tiles l m).head?.map TileDoc.leaf).getD false

/-- Once the tiles `pre` are inserted, the level-0 tile around `n` exists. -/
def HasTile100 (pre : List Str) (n : Str) : Prop :=
  db.tiles 0 (name100Of n) ≠ [] ∨ ∃ t ∈ pre, name100Of t = name100Of n

/-- Once the tiles `pre` are inserted, the level-1 tile around `n` exists. -/
def HasTile10 (pre : List Str) (n : Str) : Prop :=
  db.tiles 1 (name10Of n) ≠ [] ∨ ∃ t ∈ pre, name10Of t = name10Of n

/-- A new tile that is inserted after the tiles `pre` is advertised by its own name: it
has no leaf around it. -/
def Announces (pre : List Str) (n : Str) : Prop :=
  db.HasTile100 pre n →
    (db.HasTile10 pre n → db.leafAt 1 (name10Of n) = false) ∧
    (¬db.HasTile10 pre n → db.leafAt 0 (name100Of n) = false)

/-- Every tile that an insertion announces before it comes to the first one that
exists is advertised already. -/
def AnnouncesNothing (ts : List Str) : Prop :=
  ∀ pre t suf, ts = pre ++ t :: suf → db.Fresh pre → db.tiles 2 t ≠ [] ∨ t ∈ pre →
    ∀ pre₁ n pre₂, pre = pre₁ ++ n :: pre₂ → db.Announces pre₁ n → n ∈ db.indexNames

end Db

section AddTile

variable (name1 name10 name100 n m : Str) (l l' : ℕ) (b : Bool) (db : Db)

/-- Creating a tile puts one document under its name. -/
theorem tiles_createTile_ne_nil :
    (db.createTile name1 name10 name100 l b).tiles l' m ≠ [] ↔
      db.tiles l' m ≠ [] ∨ (l' = l ∧ m = levelName name1 name10 name100 l) := by
  rw [Db.tiles_createTile]
  split
  · next h => simp [h]
  · next h => simp [h]

/-- Growing a tile leaves the names that have documents. -/
theorem tiles_growTile_ne_nil : (db.growTile n l b).tiles l' m ≠ [] ↔ db.tiles l' m ≠ [] := by
  rw [Db.tiles_growTile]
  split
  · cases db.tiles l' m <;> simp
  · rfl

/-- A new document that is no leaf makes no tile one. -/
theorem leafAt_createTile (h : l' = l → b = false) :
    (db.createTile name1 name10 name100 l b).leafAt l' m = db.leafAt l' m := by
  unfold Db.leafAt
  rw [Db.tiles_createTile]
  cases db.tiles l' m with
  | nil =>
    split
    · next hl => simp [tileDocument, h hl.1]
    · rfl
  | cons d ds => rfl

/-- Nor does it change the marks. -/
theorem leafAt_growTile : (db.growTile n l b).leafAt l' m = db.leafAt l' m := by
  -- Growing leaves the mark of every document.
  have hleaf : ∀ d : TileDoc, (d.grow l b).leaf = d.leaf := by
    intro d
    unfold TileDoc.grow
    split
    · split <;> rfl
    · split <;> rfl
  unfold Db.leafAt
  rw [Db.tiles_growTile]
  split
  · cases db.tiles l' m with
    | nil => rfl
    | cons d ds => simp [hleaf]
  · rfl

/-- Only a leaf that is created is named in the index. -/
theorem indexNames_createTile :
    (db.createTile name1 name10 name100 l b).indexNames =
      db.indexNames ++ if b ∧ l = 2 then [name1] else [] := by
  unfold Db.createTile Db.indexNames Db.mapIndex Db.mapTiles insertOne
  split
  · simp
  · simp

theorem indexNames_growTile : (db.growTile n l b).indexNames = db.indexNames := rfl

theorem indexNames_bumpVersion : db.bumpVersion.indexNames = db.indexNames := rfl

theorem tiles_bumpVersion : db.bumpVersion.tiles l n = db.tiles l n := rfl

/-- After the insertion of a new tile, it and the tiles around it exist. -/
theorem tiles_addTile {l : ℕ} (hl : l ≤ 2) :
    (db.addTile n).tiles l m ≠ [] ↔
      db.tiles l m ≠ [] ∨ m = levelName n (name10Of n) (name100Of n) l := by
  unfold Db.addTile Db.insertTile
  -- the tile is created with those of its ancestors that are missing, top down
  cases h0 : (db.tiles 0 (name100Of n)).head? with
  | none =>
    simp only [tiles_createTile_ne_nil]
    interval_cases l <;> simp
  | some d0 =>
    have hne0 : m = name100Of n → db.tiles 0 m ≠ [] := by
      rintro rfl hnil
      simp [hnil] at h0
    cases h1 : (db.tiles 1 (name10Of n)).head? with
    | none =>
      simp only [tiles_createTile_ne_nil, tiles_growTile_ne_nil]
      interval_cases l <;> simp [levelName]
      exact hne0
    | some d1 =>
      have hne1 : m = name10Of n → db.tiles 1 m ≠ [] := by
        rintro rfl hnil
        simp [hnil] at h1
      simp only [tiles_createTile_ne_nil, tiles_growTile_ne_nil]
      interval_cases l <;> simp [levelName]
      · exact hne0
      · exact hne1

/-- The insertion of a new tile makes no other tile a leaf. -/
theorem leafAt_addTile {l : ℕ} (hl : l ≤ 1) : (db.addTile n).leafAt l m = db.leafAt l m := by
  have h2 : l ≠ 2 := by omega
  unfold Db.addTile Db.insertTile
  split
  · rw [leafAt_createTile _ _ _ _ _ _ _ _ (by omega), leafAt_createTile _ _ _ _ _ _ _ _ (by simp),
      leafAt_createTile _ _ _ _ _ _ _ _ (by simp)]
  · split
    · rw [leafAt_createTile _ _ _ _ _ _ _ _ (by omega),
        leafAt_createTile _ _ _ _ _ _ _ _ (by simp), leafAt_growTile]
    · rw [leafAt_createTile _ _ _ _ _ _ _ _ (by omega), leafAt_growTile, leafAt_growTile]

/-- A new tile is advertised unless it has a leaf around it. -/
theorem mem_indexNames_addTile :
    m ∈ (db.addTile n).indexNames ↔ m ∈ db.indexNames ∨ (m = n ∧ db.Announces [] n) := by
  unfold Db.addTile Db.insertTile Db.Announces Db.HasTile100 Db.HasTile10 Db.leafAt
  cases db.tiles 0 (name100Of n) with
  | nil => simp [indexNames_createTile]
  | cons d0 ds0 =>
    cases db.tiles 1 (name10Of n) with
    | nil => cases hleaf : d0.leaf <;> simp [indexNames_createTile, indexNames_growTile, hleaf]
    | cons d1 ds1 =>
      cases hleaf : d1.leaf <;> simp [indexNames_createTile, indexNames_growTile, hleaf]

/-- The insertion of a new tile leaves the other tiles alone, the tiles around it apart. -/
theorem tiles_addTile_of_ne {l : ℕ} (hl : l ≤ 2)
    (hm : m ≠ levelName n (name10Of n) (name100Of n) l) :
    (db.addTile n).tiles l m = db.tiles l m := by
  unfold Db.addTile Db.insertTile
  split
  · interval_cases l <;> simp_all [Db.tiles_createTile, levelName]
  · split <;> interval_cases l <;> simp_all [Db.tiles_createTile, Db.tiles_growTile, levelName]

variable {db n} in
/-- Where no leaf is around, the name of a new tile comes at the end of the index. -/
theorem indexNames_addTile (h : db.Announces [] n) :
    (db.addTile n).indexNames = db.indexNames ++ [n] := by
  unfold Db.Announces Db.HasTile100 Db.HasTile10 Db.leafAt at h
  unfold Db.addTile Db.insertTile
  -- A new tile is named unless one of the coarser tiles is a leaf.
  cases h0 : db.tiles 0 (name100Of n) with
  | nil => simp [indexNames_createTile]
  | cons d0 ds0 =>
    cases h1 : db.tiles 1 (name10Of n) with
    | nil =>
      have hleaf : d0.leaf = false := by simpa [h0, h1] using h
      simp [indexNames_createTile, indexNames_growTile, hleaf]
    | cons d1 ds1 =>
      have hleaf : d1.leaf = false := by simpa [h0, h1] using h
      simp [indexNames_createTile, indexNames_growTile, hleaf]

variable (pre : List Str)

/-- Tiles are added one at a time. -/
theorem addTiles_concat : db.addTiles (pre ++ [n]) = (db.addTiles pre).addTile n := by
  unfold Db.addTiles
  rw [List.foldl_append]
  rfl

/-- After an insertion the names of all levels of its tiles have documents. -/
theorem tiles_addTiles {l : ℕ} (hl : l ≤ 2) :
    (db.addTiles pre).tiles l m ≠ [] ↔
      db.tiles l m ≠ [] ∨ ∃ t ∈ pre, levelName t (name10Of t) (name100Of t) l = m := by
  induction pre using List.reverseRecOn with
  | nil => simp [Db.addTiles]
  | append_singleton pre t ih =>
    rw [addTiles_concat, tiles_addTile _ _ _ hl, ih]
    simp only [List.mem_append, List.mem_singleton, or_and_right, exists_or, exists_eq_left,
      or_assoc, eq_comm (a := m)]

theorem leafAt_addTiles {l : ℕ} (hl : l ≤ 1) : (db.addTiles pre).leafAt l m = db.leafAt l m := by
  induction pre using List.reverseRecOn with
  | nil => rfl
  | append_singleton pre t ih => rw [addTiles_concat, leafAt_addTile _ _ _ hl, ih]

/-- A further tile is announced as if it came with the ones before it. -/
theorem announces_addTiles : (db.addTiles pre).Announces [] n ↔ db.Announces pre n := by
  have h100 : (db.addTiles pre).HasTile100 [] n ↔ db.HasTile100 pre n := by
    unfold Db.HasTile100
    rw [tiles_addTiles _ _ _ (by omega)]
    simp [levelName]
  have h10 : (db.addTiles pre).HasTile10 [] n ↔ db.HasTile10 pre n := by
    unfold Db.HasTile10
    rw [tiles_addTiles _ _ _ (by omega)]
    simp [levelName]
  unfold Db.Announces
  rw [h100, h10, leafAt_addTiles _ _ _ (by omega), leafAt_addTiles _ _ _ (by omega)]

/-- What the insertion of several new tiles adds to the index. -/
theorem mem_indexNames_addTiles :
    m ∈ (db.addTiles pre).indexNames ↔
      m ∈ db.indexNames ∨ ∃ pre₁ pre₂, pre = pre₁ ++ m :: pre₂ ∧ db.Announces pre₁ m := by
  -- The last tile is announced by what was there before it.
  induction pre using List.reverseRecOn with
  | nil => simp [Db.addTiles]
  | append_singleton pre t ih =>
    rw [addTiles_concat, mem_indexNames_addTile, announces_addTiles, ih]
    constructor
    · rintro ((h | ⟨pre₁, pre₂, rfl, h⟩) | ⟨rfl, h⟩)
      · exact Or.inl h
      · exact Or.inr ⟨pre₁, pre₂ ++ [t], by simp, h⟩
      · exact Or.inr ⟨pre, [], rfl, h⟩
    · rintro (h | ⟨pre₁, pre₂, heq, h⟩)
      · exact Or.inl (Or.inl h)
      · -- the tile is the last one or an earlier one
        rcases List.eq_nil_or_concat' pre₂ with rfl | ⟨pre₂, u, rfl⟩
        · obtain ⟨rfl, ht⟩ := List.append_inj' heq rfl
          obtain rfl := (List.cons.inj ht).1
          exact Or.inr ⟨rfl, h⟩
        · rw [← List.cons_append, ← List.append_assoc] at heq
          obtain ⟨rfl, -⟩ := List.append_inj' heq rfl
          exact Or.inl (Or.inr ⟨pre₁, pre₂, rfl, h⟩)

/-- Other names keep their documents. -/
theorem tiles_addTiles_of_ne {l : ℕ} (hl : l ≤ 2)
    (hm : ∀ t ∈ pre, m ≠ levelName t (name10Of t) (name100Of t) l) :
    (db.addTiles pre).tiles l m = db.tiles l m := by
  induction pre using List.reverseRecOn with
  | nil => rfl
  | append_singleton pre t ih =>
    rw [addTiles_concat, tiles_addTile_of_ne _ _ _ hl (hm t (by simp)),
      ih fun u hu => hm u (List.mem_append_left _ hu)]

variable {db pre} in
/-- Where no coarser leaf is in the way the index names each tile. -/
theorem indexNames_addTiles (h : ∀ l m, l ≤ 1 → db.leafAt l m = false) :
    (db.addTiles pre).indexNames = db.indexNames ++ pre := by
  induction pre using List.reverseRecOn with
  | nil => simp [Db.addTiles]
  | append_singleton pre t ih =>
    have hann : (db.addTiles pre).Announces [] t := by
      rw [announces_addTiles]
      exact fun _ => ⟨fun _ => h 1 _ le_rfl, fun _ => h 0 _ (Nat.zero_le 1)⟩
    rw [addTiles_concat, indexNames_addTile hann, ih, List.append_assoc]

end AddTile

/-! ### What a deletion takes out of the index -/

section Deletion

variable {name1 name10 name100 n : Str} {names : List Str} {db : Db}

/-- A tile that is removed loses its name. -/
theorem indexNames_removeTile (l : ℕ) :
    (db.removeTile n l).indexNames = db.indexNames.erase n := by
  change (db.indexCollection.eraseP (·.name == n)).map IndexDoc.name = _
  unfold Db.indexNames
  rw [List.erase_eq_eraseP', List.eraseP_map]
  rfl

/-- The names of the tiles around are not in the index, and so it stays as it is. -/
theorem indexNames_lower (h10 : name10 ∉ names) (h100 : name100 ∉ names) {l : ℕ} (hl : l ≤ 2)
    (hdb : db.indexNames = names) :
    (db.lower name1 name10 name100 l).indexNames = names := by
  -- Only names that are not in the index can be removed on the way down.
  induction l generalizing db with
  | zero => exact hdb
  | succ l ih =>
    refine ih (by omega) ?_
    unfold Db.decrease
    split
    · exact hdb
    · split
      · exact hdb
      · refine ih (by omega) ?_
        rw [indexNames_removeTile, hdb, List.erase_of_not_mem]
        rcases Nat.le_one_iff_eq_zero_or_eq_one.mp (Nat.le_of_succ_le_succ hl) with rfl | rfl
        · exact h100
        · exact h10

/-- With its last object, the name of a tile goes. -/
theorem indexNames_deleteObject {d : TileDoc} (hd : (db.tiles 2 n).head? = some d)
    (hcounter : d.counter ≤ 1) (h10 : name10Of n ∉ db.indexNames)
    (h100 : name100Of n ∉ db.indexNames) :
    (db.deleteObject n).indexNames = db.indexNames.erase n := by
  unfold Db.deleteObject Db.decrease
  rw [hd]
  dsimp only
  rw [if_neg (by omega)]
  have hsub : db.indexNames.erase n ⊆ db.indexNames := List.erase_subset
  exact indexNames_lower (fun h => h10 (hsub h)) (fun h => h100 (hsub h)) le_rfl
    (indexNames_removeTile 2)

end Deletion

section Loop

variable {db : Db} {coordSet rest : List Coord}

/-- Tiles that are fresh one after the other stay so behind the first. -/
theorem Db.Fresh.tail {n : Str} {pre : List Str} (h : db.Fresh (n :: pre)) :
    (db.addTile n).Fresh pre := by
  refine ⟨fun u hu => ?_, h.2.of_cons⟩
  by_contra hne
  rcases (tiles_addTile n u db le_rfl).mp hne with hne | rfl
  · exact hne (h.1 u (List.mem_cons_of_mem _ hu))
  · exact (List.nodup_cons.mp h.2).1 hu

/-- An insertion goes through the tiles that are new. -/
theorem run_indexTiles_fresh (h : db.Fresh (coordSet.map coordName)) :
    (indexTiles false (coordSet ++ rest)).run db =
      (indexTiles false rest).run (db.addTiles (coordSet.map coordName)) := by
  induction coordSet generalizing db with
  | nil => rfl
  | cons p coordSet ih =>
    rw [List.cons_append, run_indexTiles_new db (h.1 _ List.mem_cons_self)]
    exact ih h.tail

/-- Either all the tiles are new, or there is a first one that exists. -/
theorem Db.fresh_or_exists (db : Db) (ts : List Str) :
    db.Fresh ts ∨ ∃ pre t suf, ts = pre ++ t :: suf ∧ db.Fresh pre ∧
      (db.tiles 2 t ≠ [] ∨ t ∈ pre) := by
  induction ts using List.reverseRecOn with
  | nil => exact Or.inl ⟨by simp, List.nodup_nil⟩
  | append_singleton ts u ih =>
    -- The first tile that is not fresh stays the first one.
    rcases ih with hfresh | ⟨pre, t, suf, rfl, h⟩
    · by_cases hu : db.tiles 2 u ≠ [] ∨ u ∈ ts
      · exact Or.inr ⟨ts, u, [], rfl, hfresh, hu⟩
      · rw [not_or, not_not] at hu
        refine Or.inl ⟨fun v hv => ?_, ?_⟩
        · rcases List.mem_append.mp hv with hv | hv
          · exact hfresh.1 v hv
          · rw [List.mem_singleton.mp hv]
            exact hu.1
        · exact List.Nodup.append hfresh.2 (List.nodup_singleton u) (by simpa using hu.2)
    · exact Or.inr ⟨pre, t, suf ++ [u], by simp, h⟩

/-- A deletion goes through all the tiles. -/
theorem indexTiles_delete_end (db : Db) (coordSet : List Coord) :
    ((indexTiles true coordSet).run db).1 = false := by
  induction coordSet generalizing db with
  | nil => rfl
  | cons p coordSet ih =>
    rw [run_indexTiles_delete]
    exact ih _

/-- An insertion ends at the first tile that exists. -/
theorem run_indexTiles_split {pre suf : List Str} {t : Str}
    (hts : coordSet.map coordName = pre ++ t :: suf) (hfresh : db.Fresh pre)
    (hexists : db.tiles 2 t ≠ [] ∨ t ∈ pre) :
    (indexTiles false coordSet).run db = (true, (db.addTiles pre).growTile t 2 false) := by
  obtain ⟨cs₁, cs₂, rfl, rfl, hcs₂⟩ := List.map_eq_append_iff.mp hts
  obtain ⟨p, cs₃, rfl, rfl, rfl⟩ := List.map_eq_cons_iff.mp hcs₂
  have htile : (db.addTiles (cs₁.map coordName)).tiles 2 (coordName p) ≠ [] := by
    rw [tiles_addTiles _ _ _ le_rfl]
    exact hexists.imp_right fun hmem => ⟨_, hmem, rfl⟩
  rw [run_indexTiles_fresh hfresh, run_indexTiles_existing _ htile]

/-- What the insertion has announced by then is all that changes the index. -/
theorem advertisedNames_split_iff {pre : List Str} (t : Str) :
    ((db.addTiles pre).growTile t 2 false).advertisedNames = db.advertisedNames ↔
      ∀ pre₁ n pre₂, pre = pre₁ ++ n :: pre₂ → db.Announces pre₁ n → n ∈ db.indexNames := by
  -- the last tile only grows, so what is new was announced by a tile before it
  have hmem : ∀ m, m ∈ ((db.addTiles pre).growTile t 2 false).advertisedNames ↔
      m ∈ db.indexNames ∨ ∃ pre₁ pre₂, pre = pre₁ ++ m :: pre₂ ∧ db.Announces pre₁ m := by
    intro m
    unfold Db.advertisedNames
    rw [List.mem_toFinset, indexNames_growTile, mem_indexNames_addTiles]
  constructor
  · intro h pre₁ n pre₂ hpre hann
    have hn := (hmem n).mpr (Or.inr ⟨pre₁, pre₂, hpre, hann⟩)
    rw [h] at hn
    exact List.mem_toFinset.mp hn
  · intro h
    ext m
    rw [hmem]
    unfold Db.advertisedNames
    rw [List.mem_toFinset, or_iff_left_iff_imp]
    rintro ⟨pre₁, pre₂, hpre, hann⟩
    exact h pre₁ m pre₂ hpre hann

end Loop

/-- **A changed index has a new version** when the object is deleted, and when it is
inserted if and only if what it announces before its first tile that exists is
advertised already. -/
theorem version_calculateIndex_iff {intersects : List Coord → Coord → Coord → Bool}
    {threshold : ℤ} {sorts : ℕ → ℕ → CounterSort} {bound : ℕ} {json_data : Value}
    {isDeletion : Bool} {coordSet : List Coord} {p : Prog Db Ended} {db : Db}
    (hgeometry : calculateGeometryIndex intersects json_data = some coordSet)
    (hcall : calculateIndex intersects threshold sorts bound json_data isDeletion = some p)
    (hret : (p.run db).1 = .returned) :
    ((p.run db).2.advertisedNames ≠ db.advertisedNames → db.version < (p.run db).2.version) ↔
      isDeletion = true ∨ db.AnnouncesNothing (coordSet.map coordName) := by
  obtain rfl : updateIndex threshold sorts bound coordSet isDeletion = p := by
    unfold calculateIndex at hcall
    rw [hgeometry] at hcall
    exact Option.some.inj hcall
  have hend : ((indexTiles isDeletion coordSet).run db).1 = false → _ :=
    fun h => version_updateIndex_of_end h hret
  -- an insertion that comes to a tile that exists leaves the version alone
  have hsplit : ∀ pre t suf, isDeletion = false → coordSet.map coordName = pre ++ t :: suf →
      db.Fresh pre → db.tiles 2 t ≠ [] ∨ t ∈ pre →
      ((((updateIndex threshold sorts bound coordSet isDeletion).run db).2.advertisedNames ≠
        db.advertisedNames → db.version <
          ((updateIndex threshold sorts bound coordSet isDeletion).run db).2.version) ↔
        ∀ pre₁ n pre₂, pre = pre₁ ++ n :: pre₂ → db.Announces pre₁ n → n ∈ db.indexNames) := by
    rintro pre t suf rfl hts hfresh hexists
    have hrun := run_indexTiles_split hts hfresh hexists
    have hversion := (indexerFrame_sameVersion false).indexTiles coordSet db
    rw [run_updateIndex_left (by rw [hrun]), ← advertisedNames_split_iff t]
    unfold Db.SameVersion at hversion
    rw [hrun] at hversion ⊢
    dsimp only at hversion ⊢
    rw [hversion]
    simp
  constructor
  · intro h
    cases hdel : isDeletion with
    | true => exact Or.inl rfl
    | false =>
      right
      intro pre t suf hts hfresh hexists
      exact (hsplit pre t suf hdel hts hfresh hexists).mp h
  · intro h
    cases hdel : isDeletion with
    | true =>
      subst hdel
      exact hend (indexTiles_delete_end db coordSet)
    | false =>
      subst hdel
      have hnothing : db.AnnouncesNothing (coordSet.map coordName) :=
        h.resolve_left Bool.false_ne_true
      rcases db.fresh_or_exists (coordSet.map coordName) with hfresh | hex
      · -- all the tiles are new, the loop runs to its end
        have hrun : ((indexTiles false (coordSet ++ [])).run db).1 = false := by
          rw [run_indexTiles_fresh hfresh]
          rfl
        rw [List.append_nil] at hrun
        exact hend hrun
      · obtain ⟨pre, t, suf, hts, hfresh, hexists⟩ := hex
        exact (hsplit pre t suf rfl hts hfresh hexists).mpr
          (hnothing pre t suf hts hfresh hexists)

section Examples

/-- The shape of the tile hierarchy: one document for each tile name. -/
def Db.OneDocumentEach (db : Db) : Prop :=
  (db.fullTileCollection.map fun d => (d.level, d.key d.level)).Nodup

instance (db : Db) : Decidable db.OneDocumentEach :=
  inferInstanceAs (Decidable (db.fullTileCollection.map fun d => (d.level, d.key d.level)).Nodup)

/-- The database after the insertion of a point. -/
private def storedPoint : Db :=
  ((updateIndex 1 (fun _ _ => .stable) 0 (pointIndex 13 41) false).run Db.empty).2

private def noIntersects (_ : List Coord) (_ _ : Coord) : Bool := false

/-- The deletion of the point empties the index, under a new version. -/
theorem version_calculateIndex_iff_point :
    storedPoint.version < ((updateIndex 1 (fun _ _ => .stable) 0 (pointIndex 13 41) true).run
      storedPoint).2.version := by
  have hgeometry : calculateGeometryIndex noIntersects (feature "Point" (Coord.toJson (13, 41))) =
      some (pointIndex 13 41) := rfl
  have hnames : ((updateIndex 1 (fun _ _ => .stable) 0 (pointIndex 13 41) true).run
      storedPoint).2.advertisedNames ≠ storedPoint.advertisedNames := by decide +kernel
  exact (version_calculateIndex_iff hgeometry rfl (by decide +kernel)).mpr (Or.inl rfl) hnames

/-- The first point of a multipoint is announced, the second one is stored already. -/
theorem insertion_without_version :
    ∃ (db : Db) (json_data : Value) (p : Prog Db Ended), db.OneDocumentEach ∧
      calculateIndex noIntersects 1 (fun _ _ => .stable) 0 json_data false = some p ∧
      (p.run db).1 = .returned ∧ (p.run db).2.advertisedNames ≠ db.advertisedNames ∧
      ¬db.version < (p.run db).2.version := by
  refine ⟨storedPoint,
    feature "MultiPoint" (.array [Coord.toJson (12, 41), Coord.toJson (13, 41)]),
    updateIndex 1 (fun _ _ => .stable) 0 [(12, 41), (13, 41)] false, ?_, rfl, ?_, ?_, ?_⟩
  · decide +kernel
  · decide +kernel
  · decide +kernel
  · decide +kernel

end Examples

end OpenGeoBase
