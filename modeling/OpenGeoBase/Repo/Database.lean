import OpenGeoBase.Lib.Collection
import OpenGeoBase.Lib.Prog
import OpenGeoBase.Repo.Json

/-!
# The repository's database

The collections the repository keeps in MongoDB, as finite lists of documents, and
the calls it makes on them. Every call is one atomic step of an `AtomicCalls.Prog`.

The tiles, the advertised index and its version live in `index_db`. The objects
live in one index database and one data database for each tenant, with one
collection for each data identifier; a document carries the names of its database
and of its collection. The numbers sent out by `SendVersionInterest` are recorded
in the order of sending.
-/

namespace OpenGeoBase

open Text AtomicCalls Collection

/-- A document of the full-tile collection. -/
structure TileDoc where
  name100 : Str
  name10 : Str
  name1 : Str
  children : ℤ
  level : ℕ
  counter : ℤ
  cancelled : Bool
  leaf : Bool
  deriving DecidableEq

namespace TileDoc

/-- The name a tile document is looked up by at a level: `name100`, `name10` or `name1`. -/
def key (d : TileDoc) : ℕ → Str
  | 0 => d.name100
  | 1 => d.name10
  | _ => d.name1

/-- The filter `{name_key: name, level: level}`. -/
def isTile (level : ℕ) (name : Str) (d : TileDoc) : Bool := d.key level == name && d.level == level

end TileDoc

/-- A document of the advertised index. -/
structure IndexDoc where
  name : Str
  counter : ℤ
  deriving DecidableEq

/-- The version document. -/
structure VersionDoc where
  name : Str
  indexVersion : ℤ
  deriving DecidableEq

/-- The name of the version document. -/
def indexVersionName : Str := "INDEX_VERSION".toList

/-- The filter `{name: "INDEX_VERSION"}`. -/
def VersionDoc.isVersion (d : VersionDoc) : Bool := d.name == indexVersionName

/-- A document of an object index. -/
structure ObjectDoc where
  database : Str
  collection : Str
  reference : Str
  name : Str
  content : Value

/-- A stored packet. -/
structure DataDoc where
  database : Str
  collection : Str
  name : Str
  data : Str
  deriving DecidableEq

/-- The state of the database, and the version numbers sent out so far. -/
structure Db where
  fullTileCollection : List TileDoc
  indexCollection : List IndexDoc
  indexVersionCollection : List VersionDoc
  objectIndex : List ObjectDoc
  dataPackets : List DataDoc
  sentVersions : List ℤ

namespace Db

/-- The empty database. -/
def empty : Db := ⟨[], [], [], [], [], []⟩

/-- The documents of a tile. -/
def tiles (db : Db) (level : ℕ) (name : Str) : List TileDoc :=
  db.fullTileCollection.filter (TileDoc.isTile level name)

/-- The advertised names. -/
def indexNames (db : Db) : List Str := db.indexCollection.map IndexDoc.name

/-- The stored index version, `0` before the first update. -/
def version (db : Db) : ℤ :=
  ((db.indexVersionCollection.find? VersionDoc.isVersion).map VersionDoc.indexVersion).getD 0

/-- Rewrite the full-tile collection. -/
def mapTiles (f : List TileDoc → List TileDoc) (db : Db) : Db :=
  { db with fullTileCollection := f db.fullTileCollection }

/-- Rewrite the advertised index. -/
def mapIndex (f : List IndexDoc → List IndexDoc) (db : Db) : Db :=
  { db with indexCollection := f db.indexCollection }

/-- Rewrite the version collection. -/
def mapVersion (f : List VersionDoc → List VersionDoc) (db : Db) : Db :=
  { db with indexVersionCollection := f db.indexVersionCollection }

/-- Rewrite the object indices. -/
def mapObjects (f : List ObjectDoc → List ObjectDoc) (db : Db) : Db :=
  { db with objectIndex := f db.objectIndex }

/-- Rewrite the stored packets. -/
def mapData (f : List DataDoc → List DataDoc) (db : Db) : Db :=
  { db with dataPackets := f db.dataPackets }

/-- A version number goes out. -/
def sent (version : ℤ) (db : Db) : Db :=
  { db with sentVersions := db.sentVersions ++ [version] }

end Db

/-! ### Calls -/

/-- A call that rewrites the full-tile collection. -/
def onTiles (f : List TileDoc → List TileDoc) : Prog Db Unit := .modify (Db.mapTiles f)

/-- A call that rewrites the advertised index. -/
def onIndex (f : List IndexDoc → List IndexDoc) : Prog Db Unit := .modify (Db.mapIndex f)

/-- A call that rewrites the version collection. -/
def onVersion (f : List VersionDoc → List VersionDoc) : Prog Db Unit := .modify (Db.mapVersion f)

/-- A call that rewrites the object indices. -/
def onObjects (f : List ObjectDoc → List ObjectDoc) : Prog Db Unit := .modify (Db.mapObjects f)

/-- A call that rewrites the stored packets. -/
def onData (f : List DataDoc → List DataDoc) : Prog Db Unit := .modify (Db.mapData f)

def findTile (p : TileDoc → Bool) : Prog Db (Option TileDoc) :=
  .query fun db => db.fullTileCollection.find? p

def findTiles (p : TileDoc → Bool) : Prog Db (List TileDoc) :=
  .query fun db => db.fullTileCollection.filter p

def countTiles (p : TileDoc → Bool) : Prog Db ℤ :=
  .query fun db => db.fullTileCollection.countP p

/-- The number of documents of the advertised index. -/
def countIndex : Prog Db ℤ := .query fun db => db.indexCollection.length

/-- `SendVersionInterest`: the version goes out to the front ends. -/
def sendVersionInterest (version : ℤ) : Prog Db Unit := .modify (Db.sent version)

/-! ### Tiles and their documents -/

namespace TileDoc

/-- A document is found by its name on its own level. -/
theorem isTile_iff {level : ℕ} {name : Str} {d : TileDoc} :
    d.isTile level name = true ↔ d.key level = name ∧ d.level = level := by
  simp [isTile]

/-- A document is of one tile only. -/
theorem isTile_unique {d : TileDoc} {l l' : ℕ} {n n' : Str} (h : d.isTile l n)
    (h' : d.isTile l' n') : l = l' ∧ n = n' := by
  obtain ⟨hk, hl⟩ := isTile_iff.mp h
  obtain ⟨hk', hl'⟩ := isTile_iff.mp h'
  obtain rfl : l = l' := hl.symm.trans hl'
  exact ⟨rfl, hk.symm.trans hk'⟩

/-- Only the names and the level of a document decide where it is found. -/
theorem isTile_congr {d e : TileDoc} (h100 : e.name100 = d.name100) (h10 : e.name10 = d.name10)
    (h1 : e.name1 = d.name1) (hl : e.level = d.level) (l : ℕ) (n : Str) :
    e.isTile l n = d.isTile l n := by
  have hk : e.key l = d.key l := by
    unfold key
    split
    · exact h100
    · exact h10
    · exact h1
  simp [isTile, hk, hl]

end TileDoc

namespace Db

variable (db : Db) (l l' : ℕ) (n n' : Str)

/-- The documents under a name are those of the collection with that name and level. -/
theorem mem_tiles_iff {d : TileDoc} :
    d ∈ db.tiles l n ↔ d ∈ db.fullTileCollection ∧ d.key l = n ∧ d.level = l := by
  rw [tiles, List.mem_filter, TileDoc.isTile_iff]

/-- Looking a tile up finds its first document. -/
theorem find?_isTile : db.fullTileCollection.find? (TileDoc.isTile l n) = (db.tiles l n).head? :=
  find?_eq_head?_filter _

@[simp] theorem tiles_empty : empty.tiles l n = [] := rfl

@[simp] theorem tiles_mapIndex (f : List IndexDoc → List IndexDoc) :
    (db.mapIndex f).tiles l n = db.tiles l n := rfl

@[simp] theorem tiles_mapTiles_insertOne (d : TileDoc) :
    (db.mapTiles (insertOne d)).tiles l n =
      db.tiles l n ++ if d.isTile l n then [d] else [] :=
  filter_insertOne d _

/-- Updating a tile changes its first document and no other tile. -/
theorem tiles_mapTiles_updateOne {f : TileDoc → TileDoc}
    (hf : ∀ d l n, (f d).isTile l n = d.isTile l n) :
    (db.mapTiles (updateOne (TileDoc.isTile l' n') f)).tiles l n =
      if l = l' ∧ n = n' then (db.tiles l n).modifyHead f else db.tiles l n := by
  split
  · next h =>
    obtain ⟨rfl, rfl⟩ := h
    exact filter_updateOne_self (fun d hd => by rw [hf]; exact hd) _
  · next h =>
    refine filter_updateOne_of_disjoint (fun d hd => ?_) _
    have hne : d.isTile l n = false :=
      Bool.eq_false_iff.mpr fun h' => h (TileDoc.isTile_unique h' hd)
    exact ⟨hne, by rw [hf, hne]⟩

/-- Deleting a tile removes its first document and none of another tile. -/
theorem tiles_mapTiles_deleteOne :
    (db.mapTiles (deleteOne (TileDoc.isTile l' n'))).tiles l n =
      if l = l' ∧ n = n' then (db.tiles l n).tail else db.tiles l n := by
  split
  · next h =>
    obtain ⟨rfl, rfl⟩ := h
    exact filter_deleteOne_self _
  · next h =>
    exact filter_deleteOne_of_disjoint
      (fun d hd => Bool.eq_false_iff.mpr fun h' => h (TileDoc.isTile_unique h' hd)) _

end Db

end OpenGeoBase
