import OpenGeoBase.Repo.StoredPacket

/-!
# The storage handle

`RepoStorage` keeps an `Index` of the packets in memory, beside the storage itself. The
deletion of the packets that satisfy an interest goes by the index: it removes what the index
finds, from the index and from the storage, until the index finds nothing more.

The index is filled at the start only, with what `fullEnumerate` enumerates, and the storage
enumerates nothing; `insertData` and the deletion of one name do not touch it. So it is empty
for ever, and agrees with the storage as long as there is no packet in there
(`index_agrees_throughout_iff`).
-/

namespace OpenGeoBase

open Text AtomicCalls Collection Transition

/-- What the index uses of the NDN library. -/
structure IndexLibrary (names : NameLibrary) where
  packets : PacketLibrary names
  /-- The order of names. -/
  lt : names.Name → names.Name → Bool
  /-- `Data::getFullName`, the name with the digest of the packet. -/
  getFullName : Data names → names.Name
  /-- The hash of the key locator, if the signature has one. -/
  keyLocatorHash : Data names → Option (List ℕ)

/-- `Index::Entry`. -/
structure IndexEntry (names : NameLibrary) where
  m_name : names.Name
  m_keyLocatorHash : Option (List ℕ)
  m_id : ℤ

/-- The selectors of an interest, but for the child selector: a number of components is negative
when it is not set, an exclusion `none` when it is empty. -/
structure Selectors (names : NameLibrary) where
  minSuffixComponents : ℤ
  maxSuffixComponents : ℤ
  exclude : Option (names.Component → Bool)
  /-- The hash of the key locator that is asked for. -/
  publisherPublicKeyLocator : Option (List ℕ)

/-- An interest with selectors. -/
structure Interest (names : NameLibrary) extends Selectors names where
  name : names.Name

/-- `matchesSimpleSelectors`; `none` when the entry has no hash to compare. -/
def matchesSimpleSelectors {names : NameLibrary} (interest : Interest names)
    (entry : IndexEntry names) : Option Bool :=
  let fullName := entry.m_name
  let nSuffixComponents := fullName.length - interest.name.length
  if ¬interest.name <+: fullName then some false
  else if 0 ≤ interest.minSuffixComponents ∧
      nSuffixComponents < interest.minSuffixComponents.toNat then some false
  else if 0 ≤ interest.maxSuffixComponents ∧
      interest.maxSuffixComponents.toNat < nSuffixComponents then some false
  else if interest.exclude.any (fun isExcluded =>
      (fullName[interest.name.length]?).any isExcluded) then some false
  else match interest.publisherPublicKeyLocator with
    | none => some true
    | some hash => entry.m_keyLocatorHash.map fun entryHash => entryHash == hash

/-- `Index`, with its entries in the order of their names. -/
structure Index (names : NameLibrary) where
  m_indexContainer : List (IndexEntry names)
  m_maxPackets : ℕ
  m_size : ℕ

/-- `Storage::ItemMeta`. -/
structure ItemMeta (names : NameLibrary) where
  id : ℤ
  fullName : names.Name
  keyLocatorHash : Option (List ℕ)

section Index

variable {names : NameLibrary} (lt : names.Name → names.Name → Bool)

namespace Index

/-- `Index::insert`; `none` when the index is full. -/
def insert (fullName : names.Name) (id : ℤ) (keyLocatorHash : Option (List ℕ))
    (index : Index names) : Option (Index names) :=
  if index.m_maxPackets ≤ index.m_size then none
  else if index.m_indexContainer.any fun e => decide (e.m_name = fullName) then some index
  else
    let before := fun e : IndexEntry names => lt e.m_name fullName
    some { index with
      m_indexContainer := index.m_indexContainer.takeWhile before ++
        ⟨fullName, keyLocatorHash, id⟩ :: index.m_indexContainer.dropWhile before
      m_size := index.m_size + 1 }

/-- `Index::selectChild` on the entries from a position on, the leftmost one being asked for: the
number and the name of the first that satisfies the interest, 0 if there is none. -/
def selectChild (interest : Interest names) : List (IndexEntry names) → Option (ℤ × names.Name)
  | [] => some (0, [])
  | e :: es =>
    if ¬interest.name <+: e.m_name then some (0, [])
    else match matchesSimpleSelectors interest e with
      | none => none
      | some true => some (e.m_id, e.m_name)
      | some false => selectChild interest es

/-- `Index::find`. -/
def find (interest : Interest names) (index : Index names) : Option (ℤ × names.Name) :=
  match index.m_indexContainer.dropWhile fun e => lt e.m_name interest.name with
  | [] => some (0, [])
  | es => selectChild interest es

/-- `Index::erase`. -/
def erase (fullName : names.Name) (index : Index names) : Bool × Index names :=
  if index.m_indexContainer.any fun e => decide (e.m_name = fullName) then
    (true, { index with
      m_indexContainer := index.m_indexContainer.filter fun e => decide (e.m_name ≠ fullName)
      m_size := index.m_size - 1 })
  else (false, index)

end Index

end Index

/-- `RepoStorage`, with the database of its storage. -/
structure RepoStorage (names : NameLibrary) where
  m_index : Index names
  m_storage : Db

/-- `MongoStorage::fullEnumerate`: nothing is enumerated. -/
def fullEnumerate (names : NameLibrary) (_ : Db) : List (ItemMeta names) := []

/-- `MongoStorage::erase` of an identifier: nothing is erased. -/
def eraseId (_ : ℤ) : Prog Db Bool := pure false

section Operations

variable (lib : StorageLibrary) (ndn : IndexLibrary lib.names) (threshold : ℤ)
  (sorts : ℕ → ℕ → CounterSort) (bound : ℕ)

/-- `insertItemToIndex`. -/
def insertItemToIndex (index : Index lib.names) (item : ItemMeta lib.names) :
    Option (Index lib.names) :=
  index.insert ndn.lt item.fullName item.id item.keyLocatorHash

/-- The constructor of `RepoStorage` and its initialization; `none` when the index gets full. -/
def initializeStorage (nMaxPackets : ℕ) (db : Db) : Option (RepoStorage lib.names) := do
  let m_index ← (fullEnumerate lib.names db).foldlM (insertItemToIndex lib ndn)
    ⟨[], nMaxPackets, 0⟩
  pure ⟨m_index, db⟩

/-- `RepoStorage::insertData`; `none` when it does not return. -/
def insertData (data : Data lib.names) : Prog Db (Option Bool) := do
  let id ← insert lib threshold sorts bound data
  pure (id.map fun id => !decide (id ≤ -1))

/-- `RepoStorage::deleteData` of a name. -/
def deleteData (name : lib.names.Name) : Prog Db (Option ℤ) := do
  let result ← erase lib threshold sorts bound name
  pure (result.map fun result => if result then -1 else 1)

/-- The loop of `RepoStorage::deleteData` of an interest, for a number of iterations: the number
returned, and the index. -/
def deleteFound (interest : Interest lib.names) :
    ℕ → Index lib.names → ℤ → Bool → Prog Db (Option (ℤ × Index lib.names))
  | 0, _, _, _ => pure none
  | iterations + 1, index, count, hasError =>
    match index.find ndn.lt interest with
    | none => pure none
    | some (id, fullName) =>
      if id = 0 then pure (some (if hasError then -1 else count, index))
      else do
        let resultDb ← eraseId id
        let (resultIndex, index) := index.erase fullName
        if resultDb && resultIndex then
          deleteFound interest iterations index (count + 1) hasError
        else deleteFound interest iterations index count true

/-- `RepoStorage::deleteData` of an interest: each iteration but the last one takes an entry out
of the index. -/
def deleteInterest (interest : Interest lib.names) (index : Index lib.names) :
    Prog Db (Option (ℤ × Index lib.names)) :=
  deleteFound lib ndn interest (index.m_indexContainer.length + 1) index 0 false

end Operations

/-! ### Runs -/

section Runs

variable (lib : StorageLibrary) (ndn : IndexLibrary lib.names)

/-- The operations of the handle. -/
inductive HandleOp where
  | insertData (data : Data lib.names)
  | deleteData (name : lib.names.Name)
  | deleteInterest (interest : Interest lib.names)

/-- The operations whose calls of the storage succeed. -/
inductive HandleStep (threshold : ℤ) :
    RepoStorage lib.names → HandleOp lib → RepoStorage lib.names → Prop where
  | insertData {s : RepoStorage lib.names} {db' : Db} {data : Data lib.names}
      {sorts : ℕ → ℕ → CounterSort} {bound : ℕ} (hdata : ndn.packets.IsDecoded data)
      (hrun : (insertData lib threshold sorts bound data).run s.m_storage = (some true, db')) :
    HandleStep threshold s (.insertData data) ⟨s.m_index, db'⟩
  | deleteData {s : RepoStorage lib.names} {db' : Db} {name : lib.names.Name}
      {sorts : ℕ → ℕ → CounterSort} {bound : ℕ} {n : ℤ}
      (hrun : (deleteData lib threshold sorts bound name).run s.m_storage = (some n, db')) :
    HandleStep threshold s (.deleteData name) ⟨s.m_index, db'⟩
  | deleteInterest {s : RepoStorage lib.names} {db' : Db} {interest : Interest lib.names} {n : ℤ}
      {m_index : Index lib.names}
      (hrun : (deleteInterest lib ndn interest s.m_index).run s.m_storage =
        (some (n, m_index), db')) :
    HandleStep threshold s (.deleteInterest interest) ⟨m_index, db'⟩

/-- A handle on a database, from its initialization on. -/
def repoStorage (threshold : ℤ) (nMaxPackets : ℕ) (db : Db) :
    System (RepoStorage lib.names) (HandleOp lib) where
  init s := initializeStorage lib ndn nMaxPackets db = some s
  step := HandleStep lib ndn threshold

/-- The packet of a document of a data database. -/
def decodedPacket (doc : DataDoc) : Option (Data lib.names) :=
  ndn.packets.wireDecode (base64_decode doc.data)

/-- The entry of a packet. -/
def entryOf (data : Data lib.names) : IndexEntry lib.names :=
  ⟨ndn.getFullName data, ndn.keyLocatorHash data, 0⟩

/-- Does the packet of the document satisfy the interest? -/
def satisfies (interest : Interest lib.names) (doc : DataDoc) : Bool :=
  (decodedPacket lib ndn doc).any fun data =>
    matchesSimpleSelectors interest (entryOf lib ndn data) == some true

namespace RepoStorage

variable {lib}

/-- The entries of the index are the packets in the storage. -/
def Agrees (s : RepoStorage lib.names) : Prop :=
  ∀ fullName, (∃ e ∈ s.m_index.m_indexContainer, e.m_name = fullName) ↔
    ∃ doc ∈ s.m_storage.dataPackets, ∃ data, decodedPacket lib ndn doc = some data ∧
      ndn.getFullName data = fullName

/-- The deletion of an interest ends, removes the packets that satisfy the interest and no
others, and returns their number. -/
def DeletesSatisfying (s : RepoStorage lib.names) : Prop :=
  ∀ interest, ∃ (m_index : Index lib.names) (db' : Db),
    (deleteInterest lib ndn interest s.m_index).run s.m_storage =
      (some (((s.m_storage.dataPackets.countP (satisfies lib ndn interest) : ℕ) : ℤ), m_index),
        db') ∧
    db'.dataPackets = s.m_storage.dataPackets.filter fun doc => !satisfies lib ndn interest doc

/-- There is no packet in the storage. -/
def HoldsNoPacket (db : Db) : Prop := ∀ doc ∈ db.dataPackets, decodedPacket lib ndn doc = none

end RepoStorage

variable {lib}

/-- Not an insertion. -/
def InsertsNothing (_ : RepoStorage lib.names) : HandleOp lib → Prop
  | .insertData _ => False
  | _ => True

variable {ndn} {threshold : ℤ} {db db' : Db}

open RepoStorage

/-- No packet is put into the storage. -/
def NoNewPacket (db db' : Db) : Prop := db'.dataPackets ⊆ db.dataPackets

/-- Having no packet that was not there is reflexive and transitive. -/
theorem NoNewPacket.refl (db : Db) : NoNewPacket db db := fun _ h => h

theorem NoNewPacket.trans {db₀ : Db} (h : NoNewPacket db₀ db) (h' : NoNewPacket db db') :
    NoNewPacket db₀ db' := fun _ hdoc => h (h' hdoc)

/-- An erasure stores no packet that was not there. -/
theorem noNewPacket_erase (sorts : ℕ → ℕ → CounterSort) (bound : ℕ) (name : lib.names.Name) :
    Prog.Within NoNewPacket (erase lib threshold sorts bound name) := by
  have hpure : ∀ b : Option Bool, Prog.Within NoNewPacket (pure b : Prog Db (Option Bool)) :=
    Prog.Within.pure NoNewPacket.refl
  unfold erase
  cases lib.names.withoutSegment name with
  | none => exact hpure _
  | some prefixed =>
    dsimp only
    refine Prog.Within.ite (hpure _) ?_
    refine Prog.Within.bind (R := NoNewPacket) NoNewPacket.trans
      (Prog.Within.query NoNewPacket.refl _) fun found => ?_
    refine Prog.Within.bind (R := NoNewPacket) NoNewPacket.trans ?_ fun returned => ?_
    -- the index update comes first and stores no packet
    · intro db
      have hsame := sameStore_callOnContent threshold sorts bound lib found db
      exact fun _ hdoc => hsame.2 ▸ hdoc
    · refine Prog.Within.ite ?_ (hpure _)
      refine Prog.Within.bind (R := NoNewPacket) NoNewPacket.trans
        (Prog.Within.modify NoNewPacket.refl) fun _ => ?_
      cases (lib.names.ofUri _).bind lib.names.withoutSegment with
      | none => exact hpure _
      | some prefixName =>
        -- what is left of the packets was there before
        have hdelete : Prog.Within NoNewPacket
            (onData (deleteMany (isErasedPacket lib prefixed prefixName))) :=
          fun _ _ hdoc => (List.mem_filter.mp hdoc).1
        exact Prog.Within.bind (R := NoNewPacket) NoNewPacket.trans hdelete fun _ => hpure _

/-- A successful insertion stores its packet. -/
theorem dataPackets_insertData {sorts : ℕ → ℕ → CounterSort} {bound : ℕ} {data : Data lib.names}
    (hrun : (insertData lib threshold sorts bound data).run db = (some true, db')) :
    db'.dataPackets = db.dataPackets ++ [data.stored lib] := by
  unfold insertData at hrun
  rw [Prog.run_bind, Prog.run_pure] at hrun
  have hcode := congrArg Prod.fst hrun
  obtain rfl := congrArg Prod.snd hrun
  refine dataPackets_insert ?_ threshold sorts bound db
  by_contra hrefused
  -- a packet that is refused returns -1 or nothing
  obtain ⟨res, hres, hrefuse⟩ := run_insert_refused hrefused
  rw [hrefuse] at hcode
  rcases hres with rfl | rfl
  · exact absurd hcode (by simp)
  · exact absurd hcode (by simp)

/-- An empty index finds nothing. -/
theorem run_deleteInterest_of_nil {index : Index lib.names} (h : index.m_indexContainer = [])
    (interest : Interest lib.names) :
    (deleteInterest lib ndn interest index).run db = (some (0, index), db) := by
  have hfind : index.find ndn.lt interest = some (0, []) := by
    unfold Index.find
    rw [h]
    rfl
  unfold deleteInterest deleteFound
  rw [hfind]
  dsimp only
  rw [if_pos rfl]
  rfl

/-- The index is empty, and there is no packet in the storage. -/
structure BothEmpty (ndn : IndexLibrary lib.names) (s : RepoStorage lib.names) : Prop where
  index : s.m_index.m_indexContainer = []
  storage : HoldsNoPacket ndn s.m_storage

/-- If both the index and the store are empty they agree. -/
theorem BothEmpty.agrees {s : RepoStorage lib.names} (h : BothEmpty ndn s) :
    s.Agrees ndn ∧ s.DeletesSatisfying ndn := by
  constructor
  · intro fullName
    rw [h.index]
    constructor
    · rintro ⟨e, he, -⟩
      exact absurd he List.not_mem_nil
    · rintro ⟨doc, hdoc, data, hdata, -⟩
      rw [h.storage doc hdoc] at hdata
      exact absurd hdata (by simp)
  · intro interest
    have hnone : ∀ doc ∈ s.m_storage.dataPackets, ¬satisfies lib ndn interest doc = true := by
      intro doc hdoc
      unfold satisfies
      rw [h.storage doc hdoc]
      exact Bool.false_ne_true
    -- neither side has anything to delete, so both counts are zero
    refine ⟨s.m_index, s.m_storage, ?_, ?_⟩
    · rw [run_deleteInterest_of_nil h.index, List.countP_eq_zero.mpr hnone]
      rfl
    · refine (List.filter_eq_self.mpr fun doc hdoc => ?_).symm
      simpa using hnone doc hdoc

/-- With an empty index, agreement means that there is no packet in the storage. -/
theorem holdsNoPacket_of_agrees {s : RepoStorage lib.names}
    (hindex : s.m_index.m_indexContainer = []) (h : s.Agrees ndn) :
    HoldsNoPacket ndn s.m_storage := by
  intro doc hdoc
  cases hdata : decodedPacket lib ndn doc with
  | none => rfl
  | some data =>
    obtain ⟨e, he, -⟩ := (h (ndn.getFullName data)).mpr ⟨doc, hdoc, data, hdata, rfl⟩
    rw [hindex] at he
    exact absurd he List.not_mem_nil

/-- Without an insertion both stay empty. -/
theorem BothEmpty.step {s s' : RepoStorage lib.names} {op : HandleOp lib} (h : BothEmpty ndn s)
    (hok : InsertsNothing s op) (hstep : HandleStep lib ndn threshold s op s') :
    BothEmpty ndn s' := by
  cases hstep with
  | insertData hdata hrun => exact hok.elim
  | deleteData hrun =>
    refine ⟨h.index, fun doc hdoc => h.storage doc ?_⟩
    unfold deleteData at hrun
    rw [Prog.run_bind, Prog.run_pure] at hrun
    obtain rfl := congrArg Prod.snd hrun
    exact noNewPacket_erase _ _ _ _ hdoc
  | deleteInterest hrun =>
    rw [run_deleteInterest_of_nil h.index] at hrun
    obtain ⟨hresult, rfl⟩ := Prod.mk.inj hrun
    obtain ⟨-, rfl⟩ := Prod.mk.inj (Option.some.inj hresult)
    exact h

/-- After an insertion there is a packet in the storage. -/
theorem not_holdsNoPacket_insert {sorts : ℕ → ℕ → CounterSort} {bound : ℕ}
    {data : Data lib.names} (hdata : ndn.packets.IsDecoded data)
    (hrun : (insertData lib threshold sorts bound data).run db = (some true, db')) :
    ¬HoldsNoPacket ndn db' := by
  intro hnone
  have hmem : data.stored lib ∈ db'.dataPackets := by
    rw [dataPackets_insertData hrun]
    exact List.mem_append_right _ (List.mem_singleton_self _)
  have hpacket := hnone _ hmem
  unfold decodedPacket Data.stored at hpacket
  rw [base64_decode_encode hdata.1, hdata.2] at hpacket
  exact absurd hpacket (by simp)

/-- The index does not learn of an insertion. -/
theorem BothEmpty.insertsNothing {s s' : RepoStorage lib.names} {op : HandleOp lib}
    (h : BothEmpty ndn s) (hstep : HandleStep lib ndn threshold s op s')
    (hagrees : s'.Agrees ndn) : InsertsNothing s op := by
  cases hstep with
  | insertData hdata hrun =>
    refine (not_holdsNoPacket_insert hdata hrun ?_).elim
    exact holdsNoPacket_of_agrees (s := ⟨s.m_index, _⟩) h.index hagrees
  | deleteData hrun => trivial
  | deleteInterest hrun => trivial

/-- **Index and storage agree, exactly when there is nothing.** In every state of a run after the
initialization the entries of the index are the packets in the storage, and the deletion of
any interest removes the packets that satisfy it, if and only if the storage held no packet at
the initialization and the run inserts none. -/
theorem index_agrees_throughout_iff {nMaxPackets : ℕ}
    {h : List (RepoStorage lib.names × HandleOp lib)} {s : RepoStorage lib.names}
    (hrun : Run (repoStorage lib ndn threshold nMaxPackets db) h s) :
    Throughout (fun s => s.Agrees ndn ∧ s.DeletesSatisfying ndn) h s ↔
      HoldsNoPacket ndn db ∧ Admitted InsertsNothing h := by
  have h_init : ∀ s, (repoStorage lib ndn threshold nMaxPackets db).init s →
      s = ⟨⟨[], nMaxPackets, 0⟩, db⟩ := fun s hs => (Option.some.inj hs).symm
  constructor
  · intro hthroughout
    have hempty : HoldsNoPacket ndn db := by
      -- the first state of the run is the one after the initialization
      obtain ⟨s₀, hs₀, hagrees⟩ : ∃ s₀, (repoStorage lib ndn threshold nMaxPackets db).init s₀ ∧
          s₀.Agrees ndn := by
        clear h_init
        induction hrun with
        | nil hs => exact ⟨_, hs, (throughout_nil.mp hthroughout).1⟩
        | snoc _ _ ih => exact ih (throughout_append_singleton.mp hthroughout).1
      rw [h_init s₀ hs₀] at hagrees
      exact holdsNoPacket_of_agrees rfl hagrees
    refine ⟨hempty, (hrun.throughout_iff (I := BothEmpty ndn) ?_ (fun _ h => h.agrees)
      (fun _ _ _ h hok hstep => h.step hok hstep)
      fun _ _ _ h hstep hP => h.insertsNothing hstep hP.1).mp hthroughout⟩
    intro s hs
    rw [h_init s hs]
    exact ⟨rfl, hempty⟩
  · rintro ⟨hempty, hadmitted⟩
    refine hrun.throughout (I := BothEmpty ndn) ?_ (fun _ h => h.agrees)
      (fun _ _ _ h hok hstep => h.step hok hstep) hadmitted
    intro s hs
    rw [h_init s hs]
    exact ⟨rfl, hempty⟩

end Runs

section Examples

open RepoStorage

/-- The NDN library on the packet of the city; the digest of a packet is its length. -/
def cityIndexLibrary : IndexLibrary cityLibrary.names where
  packets := cityPackets
  lt := fun name name' : List (List ℕ) => decide (name < name')
  getFullName := fun data : Data octetNames =>
    (show List (List ℕ) from data.name) ++ [[data.wire.length]]
  keyLocatorHash _ := none

/-- Ties are broken in the order of the documents. -/
private def cityOrder : ℕ → ℕ → CounterSort := fun _ _ => .stable

/-- The handle on an empty database. -/
private def noCity : RepoStorage cityLibrary.names := ⟨⟨[], 100, 0⟩, Db.empty⟩

private def withCityPacket : RepoStorage cityLibrary.names :=
  ⟨⟨[], 100, 0⟩, ((insertData cityLibrary 1 cityOrder 0 cityPacket).run Db.empty).2⟩

private theorem run_insertData_city :
    (insertData cityLibrary 1 cityOrder 0 cityPacket).run Db.empty =
      (some true, withCityPacket.m_storage) :=
  Prod.ext (by decide +kernel) rfl

private theorem step_insertData_city :
    HandleStep cityLibrary cityIndexLibrary 1 noCity (.insertData cityPacket) withCityPacket :=
  .insertData isDecoded_cityPacket run_insertData_city

theorem index_agrees_throughout_iff_city :
    Throughout
        (fun s => s.Agrees cityIndexLibrary ∧ s.DeletesSatisfying cityIndexLibrary)
        [(noCity, (.insertData cityPacket : HandleOp cityLibrary))] withCityPacket ↔
      HoldsNoPacket cityIndexLibrary Db.empty ∧
        Admitted InsertsNothing [(noCity, (.insertData cityPacket : HandleOp cityLibrary))] :=
  index_agrees_throughout_iff ((Run.nil rfl).snoc step_insertData_city)

/-- A packet that has been inserted is not in the index. -/
theorem inserted_packet_not_indexed :
    ∃ h s, Run (repoStorage cityLibrary cityIndexLibrary 1 100 Db.empty) h s ∧
      ¬s.Agrees cityIndexLibrary := by
  refine ⟨_, _, (Run.nil rfl).snoc step_insertData_city, fun hagrees => ?_⟩
  exact not_holdsNoPacket_insert isDecoded_cityPacket run_insertData_city
    (holdsNoPacket_of_agrees rfl hagrees)

end Examples

end OpenGeoBase
