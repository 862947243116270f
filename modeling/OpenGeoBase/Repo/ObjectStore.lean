import OpenGeoBase.Ndn.Name
import OpenGeoBase.Repo.IndexUpdate
import OpenGeoBase.Repo.IndexerRun
import OpenGeoBase.Repo.PrintedValue

/-!
# The object store

`MongoStorage` keeps an object in three places: its packets in the data database of
its tenant, a document with its content in the index database of the tenant, and
one more in the counter of its level-2 tile. `insert` and `erase` touch all three,
`insertLongData` the first two only.

The counters of the level-2 tiles do not depend on what happens to the tiles above
them, so they agree with the documents as long as each operation moves both by the
same amount: an insertion always does, a deletion when it finds one document under
its name and the point of the document is in the same tile after it has been printed and
parsed, `insertLongData` never (`counters_agree_throughout_iff`).

What the storage uses of other libraries is a parameter, `StorageLibrary`. A JSON
text and the document MongoDB makes of it are taken as the same `Value`.
-/

namespace OpenGeoBase

open Text AtomicCalls Collection Transition

/-- What the storage uses of other libraries. -/
structure StorageLibrary where
  names : NameLibrary
  /-- `rapidjson::Document::Parse`, `none` on a parse error. -/
  parse : Str → Option Value
  /-- The same with `kParseStopWhenDoneFlag`. -/
  parseStopWhenDone : Str → Option Value
  /-- Does the name match the regular expression? -/
  regexMatches : Str → Str → Bool
  /-- `boost::geometry::intersects` of a polygon and a box. -/
  intersects : List Coord → Coord → Coord → Bool

/-! ### base64 -/

def base64_chars : Str :=
  "ABCDEFGHIJKLMNOPQRSTUVWXYZabcdefghijklmnopqrstuvwxyz0123456789+/".toList

/-- The four digits of three octets. -/
def base64_digits (a b c : ℕ) : Str :=
  [a / 4, a % 4 * 16 + b / 16, b % 16 * 4 + c / 64, c % 64].map fun d => base64_chars.getD d '='

def base64_encode : List ℕ → Str
  | [] => []
  | [a] => (base64_digits a 0 0).take 2 ++ ['=', '=']
  | [a, b] => (base64_digits a b 0).take 3 ++ ['=']
  | a :: b :: c :: octets => base64_digits a b c ++ base64_encode octets

/-! ### The operations -/

/-- A data packet: its name, its content, and its encoding on the wire. -/
structure Data (names : NameLibrary) where
  name : names.Name
  content : Str
  wire : List ℕ

/-- The suffix of a data database. -/
def DATA_DB_SUFFIX : Str := "_data".toList

/-- The suffix of an index database. -/
def INDEX_DB_SUFFIX : Str := "_index".toList

section Operations

variable (lib : StorageLibrary)

/-- `MongoStorage::calculateDataIdentifier`, empty for a name that is too short. -/
def calculateDataIdentifier (name : lib.names.Name) : Str :=
  (splitPath (lib.names.toUri name)).getD 3 []

/-- `MongoStorage::calculateTenantIdentifier`. -/
def calculateTenantIdentifier (name : lib.names.Name) : Str :=
  (splitPath (lib.names.toUri name)).getD 4 []

/-- A value that `bsoncxx::from_json` makes a document of. -/
def Value.document? : Value → Option Value
  | .object ms => some (.object ms)
  | .array vs => some (.array vs)
  | _ => none

/-- The reference of an object: the member of that name, or else the name of its packet. -/
def indexReference (json_data : Value) (uri : Str) : Option Str :=
  if json_data.hasMember "reference".toList then
    (json_data.member? "reference".toList).bind Value.getString?
  else some uri

/-- The content of an object: the member of that name, or else the object itself. -/
def indexContent (json_data : Value) : Value :=
  (json_data.member? "content".toList).getD json_data

/-- The reference and the content of an object, as `insert` stores them. -/
def indexElement (json_data : Value) (uri : Str) : Option (Str × Value) := do
  let reference ← indexReference json_data uri
  let content ← (indexContent json_data).document?
  pure (reference, content)

section Indexing

variable (threshold : ℤ) (sorts : ℕ → ℕ → CounterSort) (bound : ℕ)

/-- The call of `calculateIndex`; does it return? -/
def callCalculateIndex (json_data : Value) (isDeletion : Bool) : Prog Db Bool :=
  match calculateIndex lib.intersects threshold sorts bound json_data isDeletion with
  | none => pure false
  | some index => do
    let ended ← index
    pure (ended == .returned)

/-- `MongoStorage::insert`, with every database call succeeding; `none` when it does not return. -/
def insert (data : Data lib.names) : Prog Db (Option ℤ) :=
  let data_id := calculateDataIdentifier lib data.name
  let tenant_id := calculateTenantIdentifier lib data.name
  let uri := lib.names.toUri data.name
  if data_id = [] ∨ tenant_id = [] then pure (some (-1))
  else match lib.parse data.content with
    | none => pure (some (-1))
    | some json_data => match indexElement json_data uri with
      | none => pure none
      | some (reference, content) => do
        onObjects (insertOne ⟨tenant_id ++ INDEX_DB_SUFFIX, data_id, reference, uri, content⟩)
        onData (insertOne ⟨tenant_id ++ DATA_DB_SUFFIX, data_id, uri, base64_encode data.wire⟩)
        let returned ← callCalculateIndex lib threshold sorts bound json_data false
        pure (if returned then some 0 else none)

/-- The filter of `erase` on the object indices: database, collection and name. -/
def isErased (name : lib.names.Name) (doc : ObjectDoc) : Bool :=
  doc.database == calculateTenantIdentifier lib name ++ INDEX_DB_SUFFIX &&
    doc.collection == calculateDataIdentifier lib name &&
      doc.name == eraseAll "/DELETE".toList (lib.names.toUri name)

/-- The call of `calculateIndex` in `erase`, on the content of the document found. The document is
printed and parsed for it. -/
def callOnContent : Option ObjectDoc → Prog Db Bool
  -- no text is parsed to null, which has no member "content"
  | none => pure true
  | some doc => callCalculateIndex lib threshold sorts bound doc.content.printed true

/-- The filter of `erase` on the data databases: database, collection, and a name that
matches that of the object as a regular expression. -/
def isErasedPacket (name prefixName : lib.names.Name) (doc : DataDoc) : Bool :=
  doc.database == calculateTenantIdentifier lib name ++ DATA_DB_SUFFIX &&
    doc.collection == calculateDataIdentifier lib name &&
      lib.regexMatches ('^' :: lib.names.toUri prefixName) doc.name

/-- `MongoStorage::erase`, with every database call succeeding; `none` when it does not
return. -/
def erase (nameOrig : lib.names.Name) : Prog Db (Option Bool) :=
  match lib.names.withoutSegment nameOrig with
  | none => pure none
  | some name =>
    let name_str := eraseAll "/DELETE".toList (lib.names.toUri name)
    let data_id := calculateDataIdentifier lib name
    let tenant_id := calculateTenantIdentifier lib name
    -- the code returns -1 here, which is `true`
    if data_id = [] ∨ tenant_id = [] then pure (some true)
    else do
      let object_to_delete ← Prog.query fun db => db.objectIndex.find? (isErased lib name)
      let returned ← callOnContent lib threshold sorts bound object_to_delete
      if returned then do
        onObjects (deleteMany (isErased lib name))
        match (lib.names.ofUri name_str).bind lib.names.withoutSegment with
        | none => pure none
        | some prefixName => do
          onData (deleteMany (isErasedPacket lib name prefixName))
          pure (some true)
      else pure none

end Indexing

/-- The loop of `insertLongData` over the segments; `false` if one is not a string. -/
def insertSegments (name : lib.names.Name) (tenant_id data_id : Str) :
    ℕ → List Value → Prog Db Bool
  | _, [] => pure true
  | i, segment :: segments =>
    match segment.getString? with
    | none => pure false
    | some data_segment => do
      let tmp_name := lib.names.toUri (name ++ [lib.names.fromSegment i])
      onData (insertOne ⟨tenant_id ++ DATA_DB_SUFFIX, data_id, tmp_name, data_segment⟩)
      insertSegments name tenant_id data_id (i + 1) segments

/-- The object in the `content` of a long object, with its name and the text of the name. -/
def contentJson (data_json : Value) : Option (Value × Str × lib.names.Name) := do
  let data_content ← (← data_json.member? "content".toList).getString?
  let content_json ← lib.parse (replaceAll "\\\"".toList "\"".toList data_content)
  let orig_name ← (← content_json.member? "reference".toList).getString?
  let name ← (lib.names.ofUri orig_name).bind lib.names.withoutSegment
  pure (content_json, orig_name, name)

/-- `MongoStorage::insertLongData`, with every database call succeeding; `none` when it
does not return. It leaves the tiles alone. -/
def insertLongData (data_string : Str) : Prog Db (Option ℤ) :=
  match lib.parseStopWhenDone data_string with
  | none => pure (some (-1))
  | some data_json => match contentJson lib data_json with
    | none => pure none
    | some (content_json, orig_name, name) =>
      let data_id := calculateDataIdentifier lib name
      let tenant_id := calculateTenantIdentifier lib name
      if data_id = [] ∨ tenant_id = [] then pure (some (-1))
      else match (data_json.member? "segments".toList).bind Value.elements? with
        | none => pure none
        | some segments => do
          let stored ← insertSegments lib name tenant_id data_id 0 segments
          match stored, (content_json.member? "content".toList).bind Value.document? with
          | true, some content => do
            onObjects (insertOne
              ⟨tenant_id ++ INDEX_DB_SUFFIX, data_id, orig_name, orig_name, content⟩)
            pure (some 0)
          | _, _ => pure none

end Operations

/-! ### The points of the objects -/

/-- The point of a GeoJSON object. -/
def Value.point? (v : Value) : Option Coord := do
  let geometry ← v.member? "geometry".toList
  let geometry_type ← (← geometry.member? "type".toList).getString?
  let coordinates ← geometry.member? "coordinates".toList
  if geometry_type = "Point".toList then coordinates.position? else none

/-- The point lies in the level-2 tile: the tile is named after the south-west corner of
the square of side 0.01 degrees around the point. -/
def Coord.LiesIn (t : Str) (p : Coord) : Prop :=
  ∃ i j : ℤ, t = calculateLATLONName ((i : ℚ) / 100) ((j : ℚ) / 100) 2 ∧
    (i : ℚ) / 100 ≤ p.1 ∧ p.1 < (i + 1) / 100 ∧ (j : ℚ) / 100 ≤ p.2 ∧ p.2 < (j + 1) / 100

/-- A point lies in one level-2 tile, the one it is indexed under. -/
theorem Coord.liesIn_iff {t : Str} {p : Coord} : p.LiesIn t ↔ tileOf p = t := by
  -- a hundredth of a degree holds the numbers with its floor
  have hfloor : ∀ (x : ℚ) (i : ℤ), ((i : ℚ) / 100 ≤ x ∧ x < (i + 1) / 100) ↔
      ⌊x * 10 ^ 2⌋ = i := by
    intro x i
    rw [Int.floor_eq_iff, div_le_iff₀ (by norm_num), lt_div_iff₀ (by norm_num)]
    norm_num
  have htile : tileOf p = calculateLATLONName (((⌊p.1 * 10 ^ 2⌋ : ℤ) : ℚ) / 100)
      (((⌊p.2 * 10 ^ 2⌋ : ℤ) : ℚ) / 100) 2 := by
    unfold tileOf coordName floor10
    norm_num
  constructor
  · rintro ⟨i, j, rfl, hx₁, hx₂, hy₁, hy₂⟩
    rw [htile, (hfloor p.1 i).mp ⟨hx₁, hx₂⟩, (hfloor p.2 j).mp ⟨hy₁, hy₂⟩]
  · intro h
    obtain ⟨hx₁, hx₂⟩ := (hfloor p.1 _).mpr rfl
    obtain ⟨hy₁, hy₂⟩ := (hfloor p.2 _).mpr rfl
    exact ⟨_, _, h.symm.trans htile, hx₁, hx₂, hy₁, hy₂⟩

instance (t : Str) (p : Coord) : Decidable (p.LiesIn t) := decidable_of_iff _ Coord.liesIn_iff.symm

/-! ### What an index update does to the counters of the level-2 tiles -/

section Counters

variable (db : Db) (n m : Str)

/-- An insertion counts up at the tile of the object only. -/
theorem counters_two_insertObject :
    (db.insertObject n).counters 2 m =
      if m = n then Db.bump (db.counters 2 m) else db.counters 2 m := by
  have hnil : db.counters 2 n = [] ↔ db.tiles 2 n = [] := List.map_eq_nil_iff
  unfold Db.insertObject
  split
  · next hnew =>
    -- one level-2 document is created in each of the four cases
    have hcreate : (db.insertTile n (name10Of n) (name100Of n)).counters 2 m =
        db.counters 2 m ++ if m = n then [1] else [] := by
      unfold Db.insertTile
      split
      · simp [Db.counters_createTile, levelName]
      · split <;> simp [Db.counters_createTile, Db.counters_growTile, levelName]
    rw [hcreate]
    split
    · next hm =>
      rw [hm, hnil.mpr hnew]
      rfl
    · exact List.append_nil _
  · next hold =>
    rw [Db.counters_growTile]
    simp only [true_and]
    split
    · next hm => rw [hm, Db.bump, if_neg (mt hnil.mp hold)]
    · rfl

/-- The loop of `decreaseCounter` works on the levels below the one it starts from. -/
theorem counters_two_lower (name1 name10 name100 : Str) {level : ℕ} (hl : level ≤ 2) :
    (db.lower name1 name10 name100 level).counters 2 m = db.counters 2 m := by
  induction level generalizing db with
  | zero => rfl
  | succ level ih =>
    have hne : ¬(2 = level ∧ m = levelName name1 name10 name100 level) := by omega
    unfold Db.lower
    rw [ih _ (by omega)]
    unfold Db.decrease
    split
    · rfl
    · split
      · rw [Db.counters_shrinkTile, if_neg hne]
      · rw [ih _ (by omega), Db.counters_removeTile, if_neg hne]

variable {db n} in
/-- A deletion counts down at the tile of the object only. -/
theorem counters_two_deleteObject {k : ℕ} (h : db.counters 2 n = tally k) :
    (db.deleteObject n).counters 2 m = if m = n then tally (k - 1) else db.counters 2 m := by
  unfold Db.deleteObject
  -- an absent tile is left alone, the last object removes it, any other one lowers the counter
  match k with
  | 0 =>
    rw [Db.decrease_of_nil h]
    split
    · next hm => rw [hm, h]
    · rfl
  | 1 =>
    rw [Db.decrease_of_one h, counters_two_lower _ _ _ _ _ le_rfl, Db.counters_removeTile]
    simp only [true_and]
    split
    · next hm =>
      rw [hm, h, tail_tally]
      rfl
    · rfl
  | k + 2 =>
    rw [Db.decrease_of_one_lt h (by omega), Db.counters_shrinkTile]
    simp only [true_and]
    split
    · next hm => rw [hm, h, modifyHead_tally (by omega)]
    · rfl

end Counters

/-- The indexer leaves the objects and the packets alone. -/
theorem indexerFrame_sameStore (isDeletion : Bool) : IndexerFrame isDeletion Db.SameStore where
  refl _ := ⟨rfl, rfl⟩
  trans h₁ h₂ := ⟨h₂.1.trans h₁.1, h₂.2.trans h₁.2⟩
  tiles _ _ := ⟨rfl, rfl⟩
  insert _ _ _ := ⟨rfl, rfl⟩
  delete _ _ _ := ⟨rfl, rfl⟩

section Update

variable (threshold : ℤ) (sorts : ℕ → ℕ → CounterSort) (bound : ℕ) (isDeletion : Bool)

/-- An update of the index leaves the objects alone. -/
theorem sameStore_updateIndex (coordSet : List Coord) :
    Prog.Within Db.SameStore (updateIndex threshold sorts bound coordSet isDeletion) := by
  have hR := indexerFrame_sameStore isDeletion
  have hversion : Prog.Within Db.SameStore versionUpdater := by
    intro db
    rw [run_versionUpdater]
    exact ⟨rfl, rfl⟩
  have hindexer : Prog.Within Db.SameStore (shardIndexer threshold coordSet isDeletion) := by
    refine hR.bind (hR.query _) fun _ => hR.bind (hR.indexTiles coordSet) fun left => ?_
    refine Prog.Within.ite (hR.pure _) (hR.bind (hR.query _) fun _ => ?_)
    exact Prog.Within.ite (hR.bind hversion fun _ => hR.pure _) (hR.pure _)
  have hrebuild : Prog.Within Db.SameStore (rebuildIndex threshold sorts bound) :=
    Db.rebuildFrame_sameStore.rebuildIndex threshold sorts bound
  exact hR.bind hindexer fun need => Prog.Within.ite hrebuild (hR.pure _)

/-- So does the call of `calculateIndex`, whatever the object. -/
theorem sameStore_callCalculateIndex (lib : StorageLibrary) (json_data : Value) :
    Prog.Within Db.SameStore
      (callCalculateIndex lib threshold sorts bound json_data isDeletion) := by
  have hR := indexerFrame_sameStore isDeletion
  unfold callCalculateIndex calculateIndex
  cases calculateGeometryIndex lib.intersects json_data with
  | none => exact hR.pure false
  | some coordSet =>
    exact hR.bind (sameStore_updateIndex threshold sorts bound isDeletion coordSet) fun _ =>
      hR.pure _

/-- And so does the call of a deletion, if there is an object. -/
theorem sameStore_callOnContent (lib : StorageLibrary) (doc? : Option ObjectDoc) :
    Prog.Within Db.SameStore (callOnContent lib threshold sorts bound doc?) := by
  cases doc? with
  | none => exact fun db => ⟨rfl, rfl⟩
  | some doc => exact sameStore_callCalculateIndex threshold sorts bound true lib _

/-- To the level-2 counters it is the insertion or deletion of one object. -/
theorem counters_two_updateIndex (p : Coord) (db : Db) (m : Str) :
    ((updateIndex threshold sorts bound (pointIndex p.1 p.2) isDeletion).run db).2.counters 2 m =
      (if isDeletion then db.deleteObject (tileOf p) else db.insertObject (tileOf p)).counters
        2 m := by
  rw [counters_updateIndex]
  have hindexer := (sameIndex_shardIndexer threshold (pointIndex p.1 p.2) isDeletion db).1
  unfold Db.counters Db.tiles
  rw [← hindexer]
  cases isDeletion with
  | true => rw [if_pos rfl, (delete_sameIndex threshold p db).1]
  | false => rw [if_neg Bool.false_ne_true, (insert_sameIndex threshold p db).1]

end Update

/-! ### The store and its runs -/

/-- Does the point of the document lie in the tile? -/
def ObjectDoc.liesIn (t : Str) (doc : ObjectDoc) : Bool :=
  doc.content.point?.any fun p => decide (p.LiesIn t)

/-- The number of documents whose point lies in a tile. -/
def Db.objectsIn (t : Str) (db : Db) : ℕ := db.objectIndex.countP (ObjectDoc.liesIn t)

/-- The counter of a level-2 tile, 0 when there is no document. -/
def Db.counterOf (t : Str) (db : Db) : ℤ := (db.counters 2 t).headD 0

/-- The counters agree with the documents. -/
def Db.CountersAgree (db : Db) : Prop := ∀ t, db.counterOf t = db.objectsIn t

section Store

variable (lib : StorageLibrary) (threshold : ℤ)

/-- A data packet with a well-formed point object: its name has both identifiers, and the
point of the object is the one of the content stored. -/
def Data.IsPoint (data : Data lib.names) : Prop :=
  calculateDataIdentifier lib data.name ≠ [] ∧ calculateTenantIdentifier lib data.name ≠ [] ∧
    ∃ json_data p, lib.parse data.content = some json_data ∧ json_data.point? = some p ∧
      (indexContent json_data).point? = some p

/-- A long object that is a well-formed point object. -/
def IsLongPoint (data_string : Str) : Prop :=
  ∃ data_json content_json orig_name name content p,
    lib.parseStopWhenDone data_string = some data_json ∧
    contentJson lib data_json = some (content_json, orig_name, name) ∧
    calculateDataIdentifier lib name ≠ [] ∧ calculateTenantIdentifier lib name ≠ [] ∧
    content_json.member? "content".toList = some content ∧ content.point? = some p

/-- The operations on the store. -/
inductive StoreOp where
  | insert (data : Data lib.names)
  | insertLongData (data_string : Str)
  | erase (name : lib.names.Name)

/-- The calls that return, on well-formed point objects. Ties are broken in any way. -/
inductive StoreStep : Db → StoreOp lib → Db → Prop where
  | insert {db db' : Db} {data : Data lib.names} {sorts : ℕ → ℕ → CounterSort} {bound : ℕ}
      {code : ℤ} (hdata : data.IsPoint lib)
      (hrun : (insert lib threshold sorts bound data).run db = (some code, db')) :
    StoreStep db (.insert data) db'
  | insertLongData {db db' : Db} {data_string : Str} {code : ℤ}
      (hdata : IsLongPoint lib data_string)
      (hrun : (insertLongData lib data_string).run db = (some code, db')) :
    StoreStep db (.insertLongData data_string) db'
  | erase {db db' : Db} {name : lib.names.Name} {sorts : ℕ → ℕ → CounterSort} {bound : ℕ}
      {res : Bool} (hrun : (erase lib threshold sorts bound name).run db = (some res, db')) :
    StoreStep db (.erase name) db'

/-- The object store of one repository, from the empty database on. -/
def objectStore : System Db (StoreOp lib) where
  init db := db = Db.empty
  step := StoreStep lib threshold

/-- The documents a deletion finds under its name. -/
def erasedBy (nameOrig : lib.names.Name) (db : Db) : List ObjectDoc :=
  match lib.names.withoutSegment nameOrig with
  | none => []
  | some name =>
    if calculateDataIdentifier lib name = [] ∨ calculateTenantIdentifier lib name = [] then []
    else db.objectIndex.filter (isErased lib name)

/-- The point of the document is in the same tile after it has been printed and parsed. -/
def ObjectDoc.StaysInTile (doc : ObjectDoc) : Prop :=
  ∀ p, doc.content.point? = some p → tileOf p.printed = tileOf p

/-- Not a long object, and at most one document to delete, whose point stays in its tile. -/
def KeepsCounters (db : Db) : StoreOp lib → Prop
  | .insert _ => True
  | .insertLongData _ => False
  | .erase name => (erasedBy lib name db).length ≤ 1 ∧
      ∀ doc ∈ erasedBy lib name db, doc.StaysInTile

/-! ### What each operation does -/

variable {lib threshold} {sorts : ℕ → ℕ → CounterSort} {bound : ℕ} {db db' : Db}

/-- The tiles of a document with a point are those of the point. -/
theorem calculateGeometryIndex_of_point {intersects : List Coord → Coord → Coord → Bool}
    {v : Value} {p : Coord} (h : v.point? = some p) :
    calculateGeometryIndex intersects v = some (pointIndex p.1 p.2) := by
  refine calculateGeometryIndex_point ?_
  unfold Value.point? at h
  simp only [Option.bind_eq_bind, Option.bind_eq_some_iff] at h
  obtain ⟨geometry, hgeo, type, htype, geometry_type, hstring, coordinates, hcoord, hpos⟩ := h
  split at hpos
  · next hname =>
    cases type with
    | string s =>
      obtain rfl := Option.some.inj hstring
      exact ⟨geometry, coordinates, s, hgeo, htype, hcoord, hname, hpos⟩
    | _ => exact absurd hstring (by simp [Value.getString?])
  · exact absurd hpos (by simp)

/-- The point of a document that is printed and parsed. -/
theorem Value.point?_printed (v : Value) : v.printed.point? = v.point?.map Coord.printed := by
  unfold Value.point?
  rw [Value.member?_printed]
  -- printing rounds the numbers and keeps members and types where they are
  cases v.member? "geometry".toList with
  | none => rfl
  | some geometry =>
    simp only [Option.map_some, Option.bind_eq_bind, Option.bind_some, Value.member?_printed]
    cases geometry.member? "type".toList with
    | none => rfl
    | some type =>
      simp only [Option.map_some, Option.bind_some, Value.getString?_printed]
      cases type.getString? with
      | none => rfl
      | some geometry_type =>
        cases geometry.member? "coordinates".toList with
        | none => rfl
        | some coordinates =>
          simp only [Option.map_some, Option.bind_some, Value.position?_printed]
          split
          · rfl
          · rfl

/-- So the call of the indexer is an update at this tile. -/
theorem run_callCalculateIndex {json_data : Value} {p : Coord} (h : json_data.point? = some p)
    (isDeletion : Bool) :
    (callCalculateIndex lib threshold sorts bound json_data isDeletion).run db =
      (((updateIndex threshold sorts bound (pointIndex p.1 p.2) isDeletion).run db).1 == .returned,
        ((updateIndex threshold sorts bound (pointIndex p.1 p.2) isDeletion).run db).2) := by
  have hindex : calculateIndex lib.intersects threshold sorts bound json_data isDeletion =
      some (updateIndex threshold sorts bound (pointIndex p.1 p.2) isDeletion) := by
    unfold calculateIndex
    rw [calculateGeometryIndex_of_point h]
    rfl
  unfold callCalculateIndex
  rw [hindex]
  dsimp only
  rw [Prog.run_bind, Prog.run_pure]

/-- A document is the value itself. -/
theorem Value.document?_eq {v w : Value} (h : v.document? = some w) : w = v := by
  cases v with
  | object ms => exact (Option.some.inj h).symm
  | array vs => exact (Option.some.inj h).symm
  | _ => exact absurd h (by simp [Value.document?])

/-- The stored content is cut out of the document of the packet. -/
theorem indexElement_content {json_data content : Value} {uri reference : Str}
    (h : indexElement json_data uri = some (reference, content)) :
    content = indexContent json_data := by
  unfold indexElement at h
  simp only [Option.bind_eq_bind, Option.bind_eq_some_iff] at h
  obtain ⟨_, -, c, hc, hpair⟩ := h
  obtain ⟨-, rfl⟩ := Prod.mk.inj (Option.some.inj hpair)
  exact Value.document?_eq hc

/-- An insertion stores a document and a packet, then updates the index. -/
theorem run_insert_point {data : Data lib.names} {code : ℤ} (hdata : data.IsPoint lib)
    (hrun : (insert lib threshold sorts bound data).run db = (some code, db')) :
    ∃ (doc : ObjectDoc) (packet : DataDoc) (p : Coord), doc.content.point? = some p ∧
      (updateIndex threshold sorts bound (pointIndex p.1 p.2) false).run
        ((db.mapObjects (insertOne doc)).mapData (insertOne packet)) = (.returned, db') := by
  obtain ⟨hid, htenant, json_data, p, hparse, hjson, hcontent⟩ := hdata
  unfold insert at hrun
  dsimp only at hrun
  -- past the checks the two documents are written, then the indexer runs on them
  rw [if_neg (by simp [hid, htenant]), hparse] at hrun
  dsimp only at hrun
  cases hindex : indexElement json_data (lib.names.toUri data.name) with
  | none => simp [hindex] at hrun
  | some element =>
    obtain ⟨reference, content⟩ := element
    rw [hindex] at hrun
    dsimp only at hrun
    rw [Prog.run_bind, Prog.run_bind, Prog.run_bind, Prog.run_pure,
      run_callCalculateIndex hjson] at hrun
    obtain ⟨hcode, hdb⟩ := Prod.mk.inj hrun
    refine ⟨⟨_, _, reference, _, content⟩, _, p, ?_, Prod.ext ?_ hdb⟩
    · rw [indexElement_content hindex]
      exact hcontent
    · split at hcode
      · next hreturned => exact beq_iff_eq.mp hreturned
      · exact absurd hcode (by simp)

/-- An insertion adds a document and counts its point. -/
theorem insert_spec {data : Data lib.names} {code : ℤ} (hdata : data.IsPoint lib)
    (hrun : (insert lib threshold sorts bound data).run db = (some code, db')) :
    ∃ doc p, doc.content.point? = some p ∧ db'.objectIndex = db.objectIndex ++ [doc] ∧
      ∀ m, db'.counters 2 m =
        if m = tileOf p then Db.bump (db.counters 2 m) else db.counters 2 m := by
  obtain ⟨doc, packet, p, hp, hupdate⟩ := run_insert_point hdata hrun
  obtain rfl := (congrArg Prod.snd hupdate).symm
  refine ⟨doc, p, hp, (sameStore_updateIndex _ _ _ _ _ _).1, fun m => ?_⟩
  rw [counters_two_updateIndex, if_neg Bool.false_ne_true, counters_two_insertObject]
  rfl

/-- The segments go to the data database. -/
theorem within_insertSegments (name : lib.names.Name) (tenant_id data_id : Str) (i : ℕ)
    (segments : List Value) :
    Prog.Within (fun db db' => db'.fullTileCollection = db.fullTileCollection ∧
      db'.objectIndex = db.objectIndex)
      (insertSegments lib name tenant_id data_id i segments) := by
  induction segments generalizing i with
  | nil => exact fun _ => ⟨rfl, rfl⟩
  | cons segment segments ih =>
    unfold insertSegments
    cases segment.getString? with
    | none => exact fun _ => ⟨rfl, rfl⟩
    | some data_segment => exact fun db => ih (i + 1) _

/-- A long object adds a document and counts nothing. -/
theorem insertLongData_spec {data_string : Str} {code : ℤ} (hdata : IsLongPoint lib data_string)
    (hrun : (insertLongData lib data_string).run db = (some code, db')) :
    ∃ doc p, doc.content.point? = some p ∧ db'.objectIndex = db.objectIndex ++ [doc] ∧
      db'.fullTileCollection = db.fullTileCollection := by
  obtain ⟨data_json, content_json, orig_name, name, content, p, hparse, hjson, hid, htenant,
    hcontent, hp⟩ := hdata
  -- each branch that reports failure contradicts the code that was returned
  unfold insertLongData at hrun
  rw [hparse] at hrun
  dsimp only at hrun
  rw [hjson] at hrun
  dsimp only at hrun
  rw [if_neg (by simp [hid, htenant]), hcontent, Option.bind_some] at hrun
  generalize (data_json.member? "segments".toList).bind Value.elements? = segments? at hrun
  cases segments? with
  | none => exact absurd (congrArg Prod.fst hrun) (by simp)
  | some segments =>
    dsimp only at hrun
    rw [Prog.run_bind] at hrun
    -- storing the segments touches neither the objects nor the tiles
    have hframe := within_insertSegments name (calculateTenantIdentifier lib name)
      (calculateDataIdentifier lib name) 0 segments db
    generalize (insertSegments lib name (calculateTenantIdentifier lib name)
      (calculateDataIdentifier lib name) 0 segments).run db = r at hrun hframe
    obtain ⟨stored, db₁⟩ := r
    dsimp only at hrun hframe
    cases stored with
    | false => exact absurd (congrArg Prod.fst hrun) (by simp)
    | true =>
      cases hdoc : content.document? with
      | none =>
        rw [hdoc] at hrun
        exact absurd (congrArg Prod.fst hrun) (by simp)
      | some stored_content =>
        rw [hdoc] at hrun
        dsimp only at hrun
        rw [Prog.run_bind, Prog.run_pure] at hrun
        obtain rfl := (congrArg Prod.snd hrun).symm
        refine ⟨⟨calculateTenantIdentifier lib name ++ INDEX_DB_SUFFIX,
          calculateDataIdentifier lib name, orig_name, orig_name, stored_content⟩, p, ?_, ?_,
          hframe.1⟩
        · rw [Value.document?_eq hdoc]
          exact hp
        · exact congrArg (· ++ [_]) hframe.2

/-- The run of a deletion, under a name that has both identifiers. -/
theorem run_erase {nameOrig name : lib.names.Name}
    (hname : lib.names.withoutSegment nameOrig = some name)
    (hid : ¬(calculateDataIdentifier lib name = [] ∨ calculateTenantIdentifier lib name = []))
    {returned : Bool} {db₁ : Db}
    (hindex : (callOnContent lib threshold sorts bound
      (db.objectIndex.find? (isErased lib name))).run db = (returned, db₁)) :
    (erase lib threshold sorts bound nameOrig).run db =
      if returned then
        match (lib.names.ofUri (eraseAll "/DELETE".toList (lib.names.toUri name))).bind
          lib.names.withoutSegment with
        | none => (none, db₁.mapObjects (deleteMany (isErased lib name)))
        | some prefixName => (some true, (db₁.mapObjects (deleteMany (isErased lib name))).mapData
          (deleteMany (isErasedPacket lib name prefixName)))
      else (none, db₁) := by
  unfold erase
  rw [hname]
  dsimp only
  rw [if_neg hid, Prog.run_bind, Prog.run_query, Prog.run_bind, hindex, Prog.run_ite]
  generalize (lib.names.ofUri _).bind lib.names.withoutSegment = prefixName?
  -- the indexer returned, then the documents go; the packets need the name of the prefix too
  split
  · cases prefixName? with
    | none => rfl
    | some prefixName => rfl
  · rfl

/-- A deletion that succeeds has asked the indexer first, and then takes out all documents under the
name. -/
theorem erase_success {nameOrig name : lib.names.Name}
    (hname : lib.names.withoutSegment nameOrig = some name)
    (hid : ¬(calculateDataIdentifier lib name = [] ∨ calculateTenantIdentifier lib name = []))
    {returned res : Bool} {db₁ : Db}
    (hindex : (callOnContent lib threshold sorts bound
      (db.objectIndex.find? (isErased lib name))).run db = (returned, db₁))
    (hrun : (erase lib threshold sorts bound nameOrig).run db = (some res, db')) :
    returned = true ∧
      db'.objectIndex = db₁.objectIndex.filter (fun d => !isErased lib name d) ∧
      db'.fullTileCollection = db₁.fullTileCollection := by
  rw [run_erase hname hid hindex] at hrun
  generalize (lib.names.ofUri _).bind lib.names.withoutSegment = prefixName? at hrun
  split at hrun
  · next hreturned =>
    cases prefixName? with
    | none => exact absurd (congrArg Prod.fst hrun) (by simp)
    | some prefixName =>
      obtain rfl := (congrArg Prod.snd hrun).symm
      exact ⟨hreturned, rfl, rfl⟩
  · exact absurd (congrArg Prod.fst hrun) (by simp)

/-- Where nothing is found, nothing is taken out. -/
theorem filter_not_of_filter_nil {q : ObjectDoc → Bool} {docs : List ObjectDoc}
    (h : docs.filter q = []) : docs.filter (fun d => !q d) = docs := by
  rw [List.filter_eq_self]
  intro d hd
  have hnot := List.filter_eq_nil_iff.mp h d hd
  simpa using hnot

/-- A deletion counts the point of the first document it finds, as it was printed, and takes all of
them out. -/
theorem erase_spec {name : lib.names.Name} {res : Bool}
    (hpoints : ∀ doc ∈ db.objectIndex, ∃ p, doc.content.point? = some p)
    (hrun : (erase lib threshold sorts bound name).run db = (some res, db')) :
    (erasedBy lib name db = [] ∧ db'.objectIndex = db.objectIndex ∧
        db'.fullTileCollection = db.fullTileCollection) ∨
      ∃ q doc docs p, erasedBy lib name db = db.objectIndex.filter q ∧
        erasedBy lib name db = doc :: docs ∧ doc.content.point? = some p ∧
        db'.objectIndex = db.objectIndex.filter (fun d => !q d) ∧
        ∀ m, db'.counters 2 m = (db.deleteObject (tileOf p.printed)).counters 2 m := by
  unfold erasedBy
  cases hname : lib.names.withoutSegment name with
  | none =>
    unfold erase at hrun
    rw [hname] at hrun
    exact absurd (congrArg Prod.fst hrun) (by simp)
  | some prefixed =>
    dsimp only
    by_cases hid : calculateDataIdentifier lib prefixed = [] ∨
        calculateTenantIdentifier lib prefixed = []
    · unfold erase at hrun
      rw [hname] at hrun
      dsimp only at hrun
      rw [if_pos hid] at hrun ⊢
      obtain rfl := congrArg Prod.snd hrun
      exact Or.inl ⟨rfl, rfl, rfl⟩
    · rw [if_neg hid]
      -- `find_one` gives the first of the documents that `delete_many` removes
      have hfirst := find?_eq_head?_filter (p := isErased lib prefixed) db.objectIndex
      cases hfound : db.objectIndex.filter (isErased lib prefixed) with
      | nil =>
        left
        have hindex : (callOnContent lib threshold sorts bound
            (db.objectIndex.find? (isErased lib prefixed))).run db = (true, db) := by
          rw [hfirst, hfound]
          rfl
        obtain ⟨-, hobjects, htiles⟩ := erase_success hname hid hindex hrun
        exact ⟨rfl, hobjects.trans (filter_not_of_filter_nil hfound), htiles⟩
      | cons doc docs =>
        right
        have hmem : doc ∈ db.objectIndex.filter (isErased lib prefixed) := by
          rw [hfound]
          exact List.mem_cons_self
        obtain ⟨p, hp⟩ := hpoints doc (List.mem_filter.mp hmem).1
        refine ⟨isErased lib prefixed, doc, docs, p, hfound.symm, rfl, hp, ?_⟩
        have hindex : (callOnContent lib threshold sorts bound
            (db.objectIndex.find? (isErased lib prefixed))).run db =
              (callCalculateIndex lib threshold sorts bound doc.content.printed true).run db := by
          rw [hfirst, hfound]
          rfl
        -- the index is updated with the point as the document prints it
        have hprinted : doc.content.printed.point? = some p.printed := by
          rw [Value.point?_printed, hp, Option.map_some]
        rw [run_callCalculateIndex hprinted] at hindex
        obtain ⟨-, hobjects, htiles⟩ := erase_success hname hid hindex hrun
        constructor
        · -- the update of the index leaves the documents alone
          rw [hobjects, (sameStore_updateIndex threshold sorts bound true
            (pointIndex p.printed.1 p.printed.2) db).1]
        · intro m
          have hcounters := counters_two_updateIndex threshold sorts bound true p.printed db m
          unfold Db.counters Db.tiles at hcounters ⊢
          rw [htiles]
          exact hcounters

/-! ### The counters along a run -/

/-- The counters of the level-2 tiles show the documents, which are all points. -/
structure StoreCounts (db : Db) : Prop where
  counters : ∀ t, db.counters 2 t = tally (db.objectsIn t)
  points : ∀ doc ∈ db.objectIndex, ∃ p, doc.content.point? = some p

/-- An object with a point lies in one tile. -/
theorem ObjectDoc.liesIn_iff {doc : ObjectDoc} {p : Coord} (h : doc.content.point? = some p)
    (t : Str) : doc.liesIn t = true ↔ t = tileOf p := by
  unfold ObjectDoc.liesIn
  rw [h, Option.any_some, decide_eq_true_iff, Coord.liesIn_iff, eq_comm]

/-- The empty store counts nothing. -/
theorem StoreCounts.empty : StoreCounts Db.empty where
  counters _ := rfl
  points := by simp [Db.empty]

/-- The counter the code reads is the tally. -/
theorem counterOf_tally {t : Str} {k : ℕ} (h : db.counters 2 t = tally k) : db.counterOf t = k := by
  unfold Db.counterOf
  rw [h]
  cases k <;> rfl

theorem StoreCounts.countersAgree (h : StoreCounts db) : db.CountersAgree :=
  fun t => counterOf_tally (h.counters t)

section Added

variable {doc : ObjectDoc} {p : Coord} (hp : doc.content.point? = some p)
  (hobjects : db'.objectIndex = db.objectIndex ++ [doc])

include hp hobjects

/-- A new document is one more in its tile. -/
theorem objectsIn_added (t : Str) :
    db'.objectsIn t = db.objectsIn t + if t = tileOf p then 1 else 0 := by
  unfold Db.objectsIn
  rw [hobjects, List.countP_append, List.countP_singleton]
  congr 1
  exact if_congr (ObjectDoc.liesIn_iff hp t) rfl rfl

/-- If all objects were points and the new one is, they all are. -/
theorem points_added (h : ∀ doc ∈ db.objectIndex, ∃ p, doc.content.point? = some p) :
    ∀ doc ∈ db'.objectIndex, ∃ p, doc.content.point? = some p := by
  intro d hd
  rw [hobjects] at hd
  rcases List.mem_append.mp hd with hd | hd
  · exact h d hd
  · rw [List.mem_singleton.mp hd]
    exact ⟨p, hp⟩

end Added

/-- The documents that stay, by tile. -/
theorem objectsIn_erased {q : ObjectDoc → Bool}
    (hobjects : db'.objectIndex = db.objectIndex.filter fun d => !q d) (t : Str) :
    db.objectsIn t = db'.objectsIn t + (db.objectIndex.filter q).countP (ObjectDoc.liesIn t) := by
  unfold Db.objectsIn
  rw [hobjects, Nat.add_comm]
  exact List.countP_eq_countP_filter_add _ _ _

/-- Every operation within the condition moves counters and documents by the same. -/
theorem StoreCounts.step {op : StoreOp lib} (h : StoreCounts db)
    (hok : KeepsCounters lib db op) (hstep : (objectStore lib threshold).step db op db') :
    StoreCounts db' := by
  cases hstep with
  | insert hdata hrun =>
    obtain ⟨doc, p, hp, hobjects, hcounters⟩ := insert_spec hdata hrun
    refine ⟨fun t => ?_, points_added hp hobjects h.points⟩
    rw [hcounters, h.counters, objectsIn_added hp hobjects]
    split
    · exact bump_tally _
    · rfl
  | insertLongData hdata hrun => exact hok.elim
  | erase hrun =>
    rcases erase_spec h.points hrun with
      ⟨-, hobjects, htiles⟩ | ⟨q, doc, docs, p, hq, hfound, hp, hobjects, hcounters⟩
    · refine ⟨fun t => ?_, fun d hd => h.points d (hobjects ▸ hd)⟩
      have hcount := h.counters t
      unfold Db.counters Db.tiles Db.objectsIn at hcount ⊢
      rw [htiles, hobjects]
      exact hcount
    · -- one document only
      have hone : (doc :: docs).length ≤ 1 := by
        rw [← hfound]
        exact hok.1
      obtain rfl : docs = [] := List.length_eq_zero_iff.mp (by simpa using hone)
      -- it is counted down in its own tile
      have hstays : tileOf p.printed = tileOf p :=
        hok.2 doc (hfound ▸ List.mem_cons_self) p hp
      rw [hstays] at hcounters
      have hgone : ∀ t, db.objectsIn t = db'.objectsIn t + if t = tileOf p then 1 else 0 := by
        intro t
        rw [objectsIn_erased hobjects t, ← hq, hfound, List.countP_singleton]
        congr 1
        exact if_congr (ObjectDoc.liesIn_iff hp t) rfl rfl
      refine ⟨fun t => ?_, fun d hd => ?_⟩
      · rw [hcounters, counters_two_deleteObject _ (h.counters (tileOf p)), h.counters t]
        split
        · next ht =>
          rw [ht, hgone, if_pos rfl, Nat.add_sub_cancel]
        · next ht => rw [hgone t, if_neg ht, Nat.add_zero]
      · rw [hobjects] at hd
        exact h.points d (List.mem_filter.mp hd).1

/-- An operation outside the condition moves them apart. -/
theorem StoreCounts.keepsCounters {op : StoreOp lib} (h : StoreCounts db)
    (hstep : (objectStore lib threshold).step db op db') (hagree : db'.CountersAgree) :
    KeepsCounters lib db op := by
  cases hstep with
  | insert hdata hrun => trivial
  | insertLongData hdata hrun =>
    -- one more document, the same counters
    obtain ⟨doc, p, hp, hobjects, htiles⟩ := insertLongData_spec hdata hrun
    have hsame : db'.counters 2 (tileOf p) = tally (db.objectsIn (tileOf p)) := by
      rw [← h.counters]
      unfold Db.counters Db.tiles
      rw [htiles]
    have hcount := (counterOf_tally hsame).symm.trans (hagree (tileOf p))
    rw [objectsIn_added hp hobjects, if_pos rfl] at hcount
    omega
  | erase hrun =>
    rcases erase_spec h.points hrun with
      ⟨hnone, -, -⟩ | ⟨q, doc, docs, p, hq, hfound, hp, hobjects, hcounters⟩
    · change (erasedBy lib _ db).length ≤ 1 ∧ ∀ doc ∈ erasedBy lib _ db, doc.StaysInTile
      rw [hnone]
      exact ⟨Nat.zero_le 1, fun d hd => absurd hd List.not_mem_nil⟩
    · change (erasedBy lib _ db).length ≤ 1 ∧ ∀ doc ∈ erasedBy lib _ db, doc.StaysInTile
      rw [hfound]
      -- one is counted down, in the tile of the printed point, and all that were found are gone
      have hlost : ∀ t, (if t = tileOf p then 1 else 0) + docs.countP (ObjectDoc.liesIn t) ≤
          if t = tileOf p.printed then 1 else 0 := by
        intro t
        have hcounter : db'.counters 2 t =
            tally (db.objectsIn t - if t = tileOf p.printed then 1 else 0) := by
          rw [hcounters, counters_two_deleteObject _ (h.counters (tileOf p.printed)), h.counters t]
          split
          · next ht => rw [ht]
          · rfl
        have hgone := objectsIn_erased hobjects t
        rw [← hq, hfound, List.countP_cons] at hgone
        have hdoc : (if doc.liesIn t = true then 1 else 0) = if t = tileOf p then 1 else 0 :=
          if_congr (ObjectDoc.liesIn_iff hp t) rfl rfl
        have hcount := (counterOf_tally hcounter).symm.trans (hagree t)
        rw [hdoc] at hgone
        omega
      -- the document itself was in that tile
      have hstays : tileOf p.printed = tileOf p := by
        by_contra hne
        have htile := hlost (tileOf p)
        rw [if_pos rfl, if_neg (Ne.symm hne)] at htile
        omega
      have hnone : docs = [] := by
        cases docs with
        | nil => rfl
        | cons e docs =>
          -- a second one has a tile of its own to be missed in
          have he : e ∈ db.objectIndex := by
            have hmem : e ∈ db.objectIndex.filter q := by
              rw [← hq, hfound]
              simp
            exact (List.mem_filter.mp hmem).1
          obtain ⟨p', hp'⟩ := h.points e he
          have htile := hlost (tileOf p')
          rw [hstays, List.countP_cons, if_pos ((ObjectDoc.liesIn_iff hp' _).mpr rfl)] at htile
          omega
      subst hnone
      refine ⟨le_rfl, fun d hd => ?_⟩
      obtain rfl := List.mem_singleton.mp hd
      intro p₂ hp₂
      obtain rfl := Option.some.inj (hp.symm.trans hp₂)
      exact hstays

end Store

section Examples

/-- A point object, as text. -/
def cityText : Str :=
  "\x7b\"geometry\":\x7b\"type\":\"Point\",\"coordinates\":[12.34,41.8]\x7d\x7d".toList

/-- Its parsed form. -/
def cityJson : Value := feature "Point" (Coord.toJson (1234 / 100, 418 / 10))

/-- The libraries on this object and on names of letters and digits. -/
def cityLibrary : StorageLibrary where
  names := octetNames
  parse s := if s = cityText then some cityJson else none
  parseStopWhenDone s := if s = cityText then some cityJson else none
  regexMatches pattern s := pattern.head? == some '^' && pattern.tail.isPrefixOf s
  intersects _ _ _ := false

/-- The packet of the object, under the name `/OGB/test/cities/user/1`. -/
def cityData : Data cityLibrary.names where
  name := ["OGB", "test", "cities", "user", "1"].map fun c => c.toList.map Char.toNat
  content := cityText
  wire := [6, 0]

private def stableSorts : ℕ → ℕ → CounterSort := fun _ _ => CounterSort.stable

/-- The database after another insertion of the packet. -/
private def withCity (db : Db) : Db := ((insert cityLibrary 1 stableSorts 0 cityData).run db).2

/-- The database after its deletion. -/
private def withoutCity (db : Db) : Db :=
  ((erase cityLibrary 1 stableSorts 0 cityData.name).run db).2

/-- The object of the example is a point. -/
theorem cityData_isPoint : cityData.IsPoint cityLibrary :=
  ⟨by decide, by decide, cityJson, (1234 / 100, 418 / 10), rfl, rfl, rfl⟩

private theorem step_insert_city (db : Db)
    (h : ((insert cityLibrary 1 stableSorts 0 cityData).run db).1 = some 0) :
    (objectStore cityLibrary 1).step db (.insert cityData) (withCity db) :=
  StoreStep.insert cityData_isPoint (Prod.ext h rfl)

private theorem step_erase_city (db : Db)
    (h : ((erase cityLibrary 1 stableSorts 0 cityData.name).run db).1 = some true) :
    (objectStore cityLibrary 1).step db (.erase cityData.name) (withoutCity db) :=
  StoreStep.erase (Prod.ext h rfl)

end Examples

end OpenGeoBase
