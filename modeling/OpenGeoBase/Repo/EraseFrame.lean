import OpenGeoBase.Repo.InsertAtomic

/-!
# What a deletion leaves in place

`MongoStorage::erase` is to remove the packets of one object and to leave the packets and the index
documents of all others where they are (`ErasesOnly`). It removes every packet of the collection
that matches a regular expression, the text of a name behind a `^`. Nothing ends this expression,
so it also matches the packets of an object whose name is longer: the object `…/1` takes `…/12` with
it.

The name in the expression is not always that of the object either. Each `/DELETE` is taken out of
its text, which is then read as a name, and a segment at its end is dropped once more
(`erasePrefix`). The deletion is right if and only if, with this name, the expression matches
exactly the packets of the object among those stored with them, and the rest of the deletion goes
through (`EraseFits`).
-/

namespace OpenGeoBase

open Text AtomicCalls Collection Transition

section Frame

variable (lib : StorageLibrary) (threshold : ℤ) (sorts : ℕ → ℕ → CounterSort)

/-- A packet in the data collection of an object. -/
def InDataCollection (base : lib.names.Name) (packet : DataDoc) : Prop :=
  packet.database = calculateTenantIdentifier lib base ++ DATA_DB_SUFFIX ∧
    packet.collection = calculateDataIdentifier lib base

/-- A packet of an object: it is under the name of the object, or under that of a segment. -/
def IsPacketOf (name base : lib.names.Name) (packet : DataDoc) : Prop :=
  InDataCollection lib base packet ∧ (packet.name = lib.names.toUri name ∨
    ∃ c, lib.names.isSegment c = true ∧ packet.name = lib.names.toUri (base ++ [c]))

/-- An index document of an object. -/
def IsDocumentOf (name base : lib.names.Name) (doc : ObjectDoc) : Prop :=
  doc.database = calculateTenantIdentifier lib base ++ INDEX_DB_SUFFIX ∧
    doc.collection = calculateDataIdentifier lib base ∧
      (doc.name = lib.names.toUri name ∨ doc.name = lib.names.toUri base)

/-- Exactly the packets of the object are gone, and no index document of another one. -/
def ErasesOnly (name base : lib.names.Name) (db db' : Db) : Prop :=
  Without (IsPacketOf lib name base) db.dataPackets db'.dataPackets ∧
    Spares (IsDocumentOf lib name base) db.objectIndex db'.objectIndex

/-- The name whose text `erase` looks for at the beginning of the names of packets. -/
def erasePrefix (base : lib.names.Name) : Option lib.names.Name :=
  (lib.names.ofUri (eraseAll "/DELETE".toList (lib.names.toUri base))).bind
    lib.names.withoutSegment

/-- Taking the tiles of an object out of the index comes to an end: if it makes a rebuild due, the
tessellation does. -/
def Db.DeletionReturns (coordSet : List Coord) (db : Db) : Prop :=
  let db' := ((indexTiles true coordSet).run db).2
  needTesselation threshold db'.indexCollection.length db.indexCollection.length = true →
    db'.TesselationReturns threshold sorts

/-- The index can forget the object: the first document found has a usable geometry, and taking its
tiles out, as they are when the document has been printed, comes to an end. -/
def IndexForgets (base : lib.names.Name) (db : Db) : Prop :=
  ∀ doc, db.objectIndex.find? (isErased lib base) = some doc →
    ∃ coordSet, calculateGeometryIndex lib.intersects doc.content.printed = some coordSet ∧
      db.DeletionReturns threshold sorts coordSet

/-- What a deletion needs to be right. -/
structure EraseFits (name base : lib.names.Name) (db : Db) : Prop where
  dataIdentifier : calculateDataIdentifier lib base ≠ []
  tenantIdentifier : calculateTenantIdentifier lib base ≠ []
  forgets : IndexForgets lib threshold sorts base db
  documents : ∀ doc ∈ db.objectIndex, isErased lib base doc = true → IsDocumentOf lib name base doc
  packets : ∃ prefixName, erasePrefix lib base = some prefixName ∧
    ∀ packet ∈ db.dataPackets, InDataCollection lib base packet →
      (lib.regexMatches ('^' :: lib.names.toUri prefixName) packet.name = true ↔
        IsPacketOf lib name base packet)

end Frame

/-! ### The index forgets -/

section Forgets

variable {lib : StorageLibrary} {threshold : ℤ} {sorts : ℕ → ℕ → CounterSort} {db : Db}

/-- An update of the index for a deletion returns in the end if and only if its rebuild does. -/
theorem exists_updateIndex_deletion_iff {coordSet : List Coord} :
    (∃ bound, ((updateIndex threshold sorts bound coordSet true).run db).1 = .returned) ↔
      db.DeletionReturns threshold sorts coordSet := by
  have hupdate := fun bound => @run_updateIndex_end threshold sorts bound coordSet true db
    (indexTiles_delete_end db coordSet)
  dsimp only at hupdate
  simp only [hupdate]
  unfold Db.DeletionReturns Db.TesselationReturns
  split
  · next hneed =>
    simp only [rebuildIndex_returned_iff, hneed, forall_const]
  · next hneed => exact iff_of_true ⟨0, rfl⟩ fun h => absurd h hneed

/-- The erasure reaches the collections if the index can forget the object. -/
theorem exists_callOnContent_iff {base : lib.names.Name} :
    (∃ bound, ((callOnContent lib threshold sorts bound
      (db.objectIndex.find? (isErased lib base))).run db).1 = true) ↔
        IndexForgets lib threshold sorts base db := by
  unfold IndexForgets
  cases hfind : db.objectIndex.find? (isErased lib base) with
  | none => exact iff_of_true ⟨0, rfl⟩ fun doc hdoc => nomatch hdoc
  | some doc =>
    simp only [Option.some.injEq, forall_eq']
    unfold callOnContent
    dsimp only
    -- a geometry without tiles makes the call throw, any other comes down to the update
    cases hgeometry : calculateGeometryIndex lib.intersects doc.content.printed with
    | none =>
      simp only [run_callCalculateIndex_none hgeometry]
      simp
    | some coordSet =>
      simp only [run_callCalculateIndex_some hgeometry, beq_iff_eq, exists_updateIndex_deletion_iff]
      simp

end Forgets

/-! ### The deletion -/

section Erase

variable {lib : StorageLibrary} {threshold : ℤ} {sorts : ℕ → ℕ → CounterSort} {db : Db}
  {name base : lib.names.Name}

/-- A packet is erased if it is in the collection and the pattern matches its name. -/
theorem isErasedPacket_iff {prefixName : lib.names.Name} {packet : DataDoc} :
    isErasedPacket lib base prefixName packet = true ↔ InDataCollection lib base packet ∧
      lib.regexMatches ('^' :: lib.names.toUri prefixName) packet.name = true := by
  unfold isErasedPacket InDataCollection
  rw [Bool.and_eq_true, Bool.and_eq_true, beq_iff_eq, beq_iff_eq, and_assoc]

/-- The packets that go are those of the object, if the expression matches no other ones. -/
theorem without_packets_iff {prefixName : lib.names.Name} :
    Without (IsPacketOf lib name base) db.dataPackets
        (deleteMany (isErasedPacket lib base prefixName) db.dataPackets) ↔
      ∀ packet ∈ db.dataPackets, InDataCollection lib base packet →
        (lib.regexMatches ('^' :: lib.names.toUri prefixName) packet.name = true ↔
          IsPacketOf lib name base packet) := by
  rw [without_deleteMany_iff]
  refine forall₂_congr fun packet _ => ?_
  rw [isErasedPacket_iff]
  constructor
  · intro h hin
    rw [← h]
    exact (and_iff_right hin).symm
  · intro h
    by_cases hin : InDataCollection lib base packet
    · rw [and_iff_right hin, h hin]
    · exact iff_of_false (fun hmatch => hin hmatch.1) fun hown => hin hown.1

section Run

variable (hname : lib.names.withoutSegment name = some base)
  (hstored : ∃ packet ∈ db.dataPackets, IsPacketOf lib name base packet)

include hstored

/-- A deletion that leaves the packets alone is none. -/
theorem not_erasesOnly_of_packets {db' : Db} (h : db'.dataPackets = db.dataPackets) :
    ¬ErasesOnly lib name base db db' := by
  rintro ⟨hpackets, -⟩
  obtain ⟨packet, hpacket, hown⟩ := hstored
  rw [h] at hpackets
  exact hpackets.of_self hpacket hown

include hname

/-- Without the two identifiers of the name nothing is erased. -/
theorem not_erasesOnly_of_identifier (bound : ℕ)
    (hid : calculateDataIdentifier lib base = [] ∨ calculateTenantIdentifier lib base = []) :
    ¬ErasesOnly lib name base db ((erase lib threshold sorts bound name).run db).2 := by
  refine not_erasesOnly_of_packets hstored ?_
  unfold erase
  rw [hname]
  dsimp only
  rw [if_pos hid]
  rfl

/-- With both identifiers: the index update returns, and what goes is of the object. -/
theorem erasesOnly_erase_iff (bound : ℕ)
    (hid : ¬(calculateDataIdentifier lib base = [] ∨ calculateTenantIdentifier lib base = [])) :
    ErasesOnly lib name base db ((erase lib threshold sorts bound name).run db).2 ↔
      ((callOnContent lib threshold sorts bound
          (db.objectIndex.find? (isErased lib base))).run db).1 = true ∧
        (∀ doc ∈ db.objectIndex, isErased lib base doc = true → IsDocumentOf lib name base doc) ∧
        ∃ prefixName, erasePrefix lib base = some prefixName ∧
          ∀ packet ∈ db.dataPackets, InDataCollection lib base packet →
            (lib.regexMatches ('^' :: lib.names.toUri prefixName) packet.name = true ↔
              IsPacketOf lib name base packet) := by
  have hstore : Db.SameStore db ((callOnContent lib threshold sorts bound
      (db.objectIndex.find? (isErased lib base))).run db).2 :=
    sameStore_callOnContent threshold sorts bound lib _ db
  rw [run_erase hname hid rfl]
  unfold erasePrefix
  generalize (callOnContent lib threshold sorts bound
    (db.objectIndex.find? (isErased lib base))).run db = r at hstore ⊢
  obtain ⟨hobjects, hpackets⟩ := hstore
  by_cases hreturned : r.1 = true
  · rw [if_pos hreturned, and_iff_right hreturned]
    cases (lib.names.ofUri (eraseAll "/DELETE".toList (lib.names.toUri base))).bind
      lib.names.withoutSegment with
    | none =>
      -- the index documents are gone, and there is no name to look for packets with
      refine iff_of_false (not_erasesOnly_of_packets hstored hpackets) ?_
      rintro ⟨-, prefixName, hread, -⟩
      exact nomatch hread
    | some prefixName =>
      simp only [Option.some.injEq, exists_eq_left']
      refine (and_congr ?_ ?_).trans and_comm
      · change Without _ _ (deleteMany _ r.2.dataPackets) ↔ _
        rw [hpackets]
        exact without_packets_iff
      · change Spares _ _ (deleteMany _ r.2.objectIndex) ↔ _
        rw [hobjects]
        exact spares_deleteMany_iff
  · rw [if_neg hreturned]
    exact iff_of_false (not_erasesOnly_of_packets hstored hpackets) fun h => hreturned h.1

/-- **A deletion touches only its own object** if and only if its name fits the store. -/
theorem erase_touches_only_iff :
    (∃ bound, ErasesOnly lib name base db ((erase lib threshold sorts bound name).run db).2) ↔
      EraseFits lib threshold sorts name base db := by
  by_cases hid : calculateDataIdentifier lib base = [] ∨ calculateTenantIdentifier lib base = []
  · refine iff_of_false ?_ fun h => ?_
    · rintro ⟨bound, h⟩
      exact not_erasesOnly_of_identifier hname hstored bound hid h
    · exact hid.elim h.dataIdentifier h.tenantIdentifier
  · simp only [erasesOnly_erase_iff hname hstored _ hid]
    rw [exists_and_right, exists_callOnContent_iff]
    constructor
    · rintro ⟨hforgets, hdocuments, hpackets⟩
      rw [not_or] at hid
      exact ⟨hid.1, hid.2, hforgets, hdocuments, hpackets⟩
    · exact fun h => ⟨h.forgets, h.documents, h.packets⟩

end Run

/-! ### Literal names -/

/-- A name without or with one more component. -/
theorem eq_or_eq_append_of_withoutSegment (hname : lib.names.withoutSegment name = some base) :
    name = base ∨ ∃ c, name = base ++ [c] := by
  unfold NameLibrary.withoutSegment at hname
  obtain ⟨c, hlast, hbase⟩ := Option.map_eq_some_iff.mp hname
  split at hbase
  · refine Or.inr ⟨c, ?_⟩
    rw [← hbase, List.dropLast_append_getLast? c hlast]
  · exact Or.inl hbase

/-- A base name that `erase` takes as it stands: it is read back from its text, has no `/DELETE` in
it and no segment at its end, and the expression made of it matches what begins with it. -/
structure LiteralName (lib : StorageLibrary) (base : lib.names.Name) : Prop where
  ofUri_toUri : lib.names.ofUri (lib.names.toUri base) = some base
  eraseAll_toUri : eraseAll "/DELETE".toList (lib.names.toUri base) = lib.names.toUri base
  withoutSegment : lib.names.withoutSegment base = some base
  isPrefix : ∀ c, lib.names.toUri base <+: lib.names.toUri (base ++ [c])
  regexMatches_iff : ∀ s, lib.regexMatches ('^' :: lib.names.toUri base) s = true ↔
    lib.names.toUri base <+: s

/-- The deletion of an object with a literal name is right if no packet of another object in its
collection begins with that name. -/
theorem eraseFits_iff_of_literalName (hname : lib.names.withoutSegment name = some base)
    (hliteral : LiteralName lib base) : EraseFits lib threshold sorts name base db ↔
      calculateDataIdentifier lib base ≠ [] ∧ calculateTenantIdentifier lib base ≠ [] ∧
        IndexForgets lib threshold sorts base db ∧
          ∀ packet ∈ db.dataPackets, InDataCollection lib base packet →
            lib.names.toUri base <+: packet.name → IsPacketOf lib name base packet := by
  have hread : erasePrefix lib base = some base := by
    unfold erasePrefix
    rw [hliteral.eraseAll_toUri, hliteral.ofUri_toUri, Option.bind_some, hliteral.withoutSegment]
  -- all packets of the object begin with the name
  have hown : ∀ packet, IsPacketOf lib name base packet →
      lib.names.toUri base <+: packet.name := by
    rintro packet ⟨-, heq | ⟨c, -, heq⟩⟩
    · rw [heq]
      obtain rfl | ⟨c, rfl⟩ := eq_or_eq_append_of_withoutSegment hname
      · exact List.prefix_refl _
      · exact hliteral.isPrefix c
    · rw [heq]
      exact hliteral.isPrefix c
  constructor
  · intro h
    obtain ⟨prefixName, heq, hpackets⟩ := h.packets
    obtain rfl := Option.some.inj (hread.symm.trans heq)
    refine ⟨h.dataIdentifier, h.tenantIdentifier, h.forgets, fun packet hpacket hin hbegins => ?_⟩
    exact (hpackets packet hpacket hin).mp ((hliteral.regexMatches_iff _).mpr hbegins)
  · rintro ⟨hid, htenant, hforgets, hothers⟩
    refine ⟨hid, htenant, hforgets, fun doc _ herased => ?_, base, hread, ?_⟩
    · unfold isErased at herased
      rw [hliteral.eraseAll_toUri, Bool.and_eq_true, Bool.and_eq_true, beq_iff_eq, beq_iff_eq,
        beq_iff_eq] at herased
      exact ⟨herased.1.1, herased.1.2, Or.inr herased.2⟩
    · intro packet hpacket hin
      rw [hliteral.regexMatches_iff]
      exact ⟨hothers packet hpacket hin, hown packet⟩

end Erase

section Examples

private def stable : ℕ → ℕ → CounterSort := fun _ _ => CounterSort.stable

/-- A packet of the city under the name `/OGB/test/cities/user/12`. -/
private def longerData : Data cityLibrary.names where
  name := ["OGB", "test", "cities", "user", "12"].map fun c => c.toList.map Char.toNat
  content := cityText
  wire := [6, 0]

/-- The database after an insertion. -/
private def inserted (data : Data cityLibrary.names) (db : Db) : Db :=
  ((insert cityLibrary 1 stable 0 data).run db).2

/-- The name of the example has no segment number. -/
private theorem withoutSegment_cityData :
    cityLibrary.names.withoutSegment cityData.name = some cityData.name := by
  decide

/-- A packet in the collection of the city, as it is stored. -/
private def storedUnder (name : String) : DataDoc where
  database := "user_data".toList
  collection := "cities".toList
  name := name.toList
  data := "BgA=".toList

/-- The packets of the example are in the collection their name gives. -/
private theorem inDataCollection_city (name : String) :
    InDataCollection cityLibrary cityData.name (storedUnder name) := by
  have htenant : "user_data".toList =
      calculateTenantIdentifier cityLibrary cityData.name ++ DATA_DB_SUFFIX := by decide
  have hid : "cities".toList = calculateDataIdentifier cityLibrary cityData.name := by
    decide
  exact ⟨htenant, hid⟩

private theorem isPacketOf_city : IsPacketOf cityLibrary cityData.name cityData.name
    (storedUnder "/OGB/test/cities/user/1") :=
  ⟨inDataCollection_city _, Or.inl (by decide)⟩

/-- No character of the name is special in a pattern. -/
private theorem literalName_city : LiteralName cityLibrary cityData.name where
  ofUri_toUri := by decide
  eraseAll_toUri := by decide
  withoutSegment := withoutSegment_cityData
  isPrefix c := ⟨'/' :: (uriComponent c ++ []), rfl⟩
  regexMatches_iff s := by
    change List.isPrefixOf (cityLibrary.names.toUri cityData.name) s = true ↔ _
    exact List.isPrefixOf_iff_prefix

/-- The only object there is can be deleted. -/
theorem erase_touches_only_iff_city :
    ∃ bound, ErasesOnly cityLibrary cityData.name cityData.name (inserted cityData Db.empty)
      ((erase cityLibrary 1 stable bound cityData.name).run (inserted cityData Db.empty)).2 := by
  -- one packet and one document are in the database
  have hpackets : (inserted cityData Db.empty).dataPackets =
      [storedUnder "/OGB/test/cities/user/1"] := by decide +kernel
  have hindex : indexElement cityJson (cityLibrary.names.toUri cityData.name) =
      some ("/OGB/test/cities/user/1".toList, cityJson) := rfl
  have hobjects : (inserted cityData Db.empty).objectIndex =
      [cityData.document cityLibrary ("/OGB/test/cities/user/1".toList, cityJson)] := by
    unfold inserted
    rw [run_insert_accepted (by decide) (by decide) rfl hindex]
    exact (sameStore_callCalculateIndex 1 stable 0 false cityLibrary cityJson _).1
  refine (erase_touches_only_iff withoutSegment_cityData
    ⟨storedUnder "/OGB/test/cities/user/1", ?_, isPacketOf_city⟩).mpr ?_
  · rw [hpackets]
    exact List.mem_singleton_self _
  · refine (eraseFits_iff_of_literalName withoutSegment_cityData literalName_city).mpr
      ⟨?_, ?_, ?_, ?_⟩
    · decide
    · decide
    · intro doc hdoc
      have hcity : doc.content = cityJson := by
        have hmem := List.mem_of_find?_eq_some hdoc
        rw [hobjects] at hmem
        rw [List.mem_singleton.mp hmem]
        rfl
      rw [hcity]
      exact ⟨_, rfl, fun _ => ⟨0, by decide +kernel⟩⟩
    · rw [hpackets]
      intro packet hpacket _ _
      rw [List.mem_singleton.mp hpacket]
      exact isPacketOf_city

/-- The object with the shorter name takes the packet of the other one with it. -/
theorem erase_takes_longer_name :
    ¬∃ bound, ErasesOnly cityLibrary cityData.name cityData.name
      (inserted longerData (inserted cityData Db.empty))
        ((erase cityLibrary 1 stable bound cityData.name).run
          (inserted longerData (inserted cityData Db.empty))).2 := by
  rintro ⟨bound, h⟩
  have hstored : ∃ packet ∈ (inserted longerData (inserted cityData Db.empty)).dataPackets,
      IsPacketOf cityLibrary cityData.name cityData.name packet := by
    refine ⟨storedUnder "/OGB/test/cities/user/1", ?_, isPacketOf_city⟩
    decide +kernel
  have hlonger : storedUnder "/OGB/test/cities/user/12" ∈
      (inserted longerData (inserted cityData Db.empty)).dataPackets := by
    decide +kernel
  -- the erasure also removes the packet whose name only begins alike
  obtain ⟨-, -, prefixName, hread, hpackets⟩ :=
    (erasesOnly_erase_iff withoutSegment_cityData hstored bound (by decide)).mp h
  have hcity : erasePrefix cityLibrary cityData.name = some cityData.name := by decide
  obtain rfl := Option.some.inj (hcity.symm.trans hread)
  obtain ⟨-, hname | ⟨c, -, hname⟩⟩ :=
    (hpackets _ hlonger (inDataCollection_city _)).mp (by decide)
  · exact absurd hname (by decide)
  · -- the name of a segment goes on with a slash where this one goes on with a digit
    have hslash : (cityLibrary.names.toUri (cityData.name ++ [c]))[23]? = some '/' := rfl
    rw [← hname] at hslash
    exact absurd hslash (by decide)

end Examples

end OpenGeoBase
