import OpenGeoBase.Lib.Numeral
import OpenGeoBase.Repo.ReadHandle
import OpenGeoBase.Repo.RepoStorage

/-!
# The interests of the read handle

`ReadHandle::onInterest` looks for four words in the URI of the name, one after the other. The
first one it finds says whether the interest is a query, the announcement of a long object, a
deletion or a request for the advertised names; an interest with none of them reads a packet.

The words are looked for anywhere behind a slash, and the names of stored packets are not kept
clear of them. A packet is read under its name exactly when no component of the URI starts
with one of the words (`isRead_iff`); another interest in it is taken for something else, which
may be a deletion.
-/

namespace OpenGeoBase

open Text AtomicCalls Collection

/-! ### Percent decoding -/

/-- The value of a hexadecimal digit; the table has -1 for any other character. -/
def hex2dec (c : Char) : Option ℕ :=
  if '0' ≤ c ∧ c ≤ '9' then some (c.toNat - '0'.toNat)
  else if 'A' ≤ c ∧ c ≤ 'F' then some (c.toNat - 'A'.toNat + 10)
  else if 'a' ≤ c ∧ c ≤ 'f' then some (c.toNat - 'a'.toNat + 10)
  else none

def uriDecode : Str → Str
  | [] => []
  | [c] => [c]
  | [c, d] => [c, d]
  | c :: d :: e :: s =>
    match decide (c = '%'), hex2dec d, hex2dec e with
    | true, some dec1, some dec2 => Char.ofNat (dec1 * 16 + dec2) :: uriDecode s
    | _, _, _ => c :: uriDecode (d :: e :: s)

section Decoding

variable {s w : Str}

/-- A slash is no digit of an escape. -/
theorem hex2dec_slash : hex2dec '/' = none := by decide

/-- A character that begins no escape is kept. -/
theorem uriDecode_keep {c : Char}
    (h : ∀ d e t dec1 dec2, c = '%' → s = d :: e :: t → hex2dec d = some dec1 →
      hex2dec e = some dec2 → False) :
    uriDecode (c :: s) = c :: uriDecode s := by
  match s with
  | [] => rfl
  | [d] => rfl
  | d :: e :: t =>
    rw [uriDecode]
    split
    · next dec1 dec2 hc hd he => exact (h d e t dec1 dec2 (of_decide_eq_true hc) rfl hd he).elim
    · rfl

/-- A beginning without a percent sign stays as it is. -/
theorem uriDecode_append (hw : '%' ∉ w) : uriDecode (w ++ s) = w ++ uriDecode s := by
  induction w with
  | nil => rfl
  | cons c w ih =>
    rw [List.mem_cons, not_or] at hw
    have hkeep : uriDecode (c :: (w ++ s)) = c :: uriDecode (w ++ s) :=
      uriDecode_keep fun d e t dec1 dec2 hc => absurd hc.symm hw.1
    rw [List.cons_append, hkeep, ih hw.2, List.cons_append]

/-- **No escape goes over a slash**: what stands before it and behind it is decoded apart. -/
theorem uriDecode_append_slash (s t : Str) :
    uriDecode (s ++ '/' :: t) = uriDecode s ++ '/' :: uriDecode t := by
  have hslash : uriDecode ('/' :: t) = '/' :: uriDecode t :=
    uriDecode_append (w := ['/']) (by decide)
  have hone : ∀ c, uriDecode (c :: '/' :: t) = c :: '/' :: uriDecode t := by
    intro c
    rw [uriDecode_keep, hslash]
    intro d e u dec1 dec2 _ heq hd
    rw [← (List.cons.inj heq).1, hex2dec_slash] at hd
    exact absurd hd (by simp)
  -- along the text as the decoder reads it: a slash is no digit, so no escape goes across it
  induction s using uriDecode.induct with
  | case1 => exact hslash
  | case2 c => exact hone c
  | case3 c d =>
    show uriDecode (c :: d :: '/' :: t) = c :: d :: '/' :: uriDecode t
    rw [uriDecode_keep, hone]
    intro d' e u dec1 dec2 _ heq _ he
    rw [← (List.cons.inj (List.cons.inj heq).2).1, hex2dec_slash] at he
    exact absurd he (by simp)
  | case4 c d e s dec1 dec2 he hd hc ih =>
    have hescape : ∀ u, uriDecode (c :: d :: e :: u) =
        Char.ofNat (dec1 * 16 + dec2) :: uriDecode u := by
      intro u
      rw [uriDecode, hc, hd, he]
    show uriDecode (c :: d :: e :: (s ++ '/' :: t)) = _
    rw [hescape, hescape, ih, List.cons_append]
  | case5 c d e s hnot ih =>
    have hkeep : ∀ u, uriDecode (c :: d :: e :: u) = c :: uriDecode (d :: e :: u) := by
      intro u
      refine uriDecode_keep fun d' e' u' dec1 dec2 hc heq hd he => ?_
      obtain ⟨hfirst, hrest⟩ := List.cons.inj heq
      rw [← hfirst] at hd
      rw [← (List.cons.inj hrest).1] at he
      exact hnot dec1 dec2 (decide_eq_true hc) hd he
    show uriDecode (c :: d :: e :: (s ++ '/' :: t)) = _
    rw [hkeep, hkeep, List.cons_append, ← ih]
    rfl

end Decoding

/-! ### The handle -/

/-- What the read handle uses of other libraries, beside its storage. -/
structure ReadLibrary (lib : StorageLibrary) where
  packets : PacketLibrary lib.names
  /-- The documents that MongoDB finds for the text of a query; `none` on an exception. -/
  matchesQuery : Str → Option (ObjectDoc → Bool)
  /-- `bsoncxx::to_json` on the document of a reference. -/
  referenceJson : Str → Str
  /-- `bsoncxx::to_json` on the document of a name. -/
  nameJson : Str → Str
  /-- What is found at a host, a port and a path, unpacked; `none` on an exception. The port is
  `none` when the variable it is read from has not been set. -/
  httpGet : Str → Option ℤ → Str → Option Str

/-- A packet on the face: one that has been read, or one that has been made. -/
inductive Put (names : NameLibrary) where
  | data (data : Data names)
  | packet (packet : Packet names)

/-- How the handling of an interest ends. It has `stopped` when another library or the storage
throws an exception of its own, fails an assertion, or does not return. -/
inductive Ending where
  | returned
  | threw (e : StdException)
  | stopped
  deriving DecidableEq

/-- What the handle does beside the calls of the database: the packets it puts on the face, those
it puts in the cache, and how it ends. -/
structure Handled (names : NameLibrary) where
  puts : List (Put names)
  cached : List (Packet names)
  ending : Ending

/-- What an interest is taken for. -/
inductive Branch where
  | readQuery
  | requestInsert
  | deleteData
  | readVersion
  | readData
  deriving DecidableEq

/-- The tests of `ReadHandle::onInterest`, in their order. -/
def dispatch (uri : Str) : Branch :=
  if (find "/QUERY%3D".toList uri).isSome then .readQuery
  else if (find "/INSERT_REQUEST".toList uri).isSome then .requestInsert
  else if (find "/DELETE".toList uri).isSome then .deleteData
  else if (find "/GET_PREFIX".toList uri).isSome then .readVersion
  else .readData

/-- `ReadHandle::sendData`. -/
def sendReply (names : NameLibrary) (nameOrig : names.Name) (content : Str) : Handled names :=
  match sendData names nameOrig content with
  | none => ⟨[], [], .stopped⟩
  | some (packet, dataVector) => ⟨[.packet packet], dataVector, .returned⟩

/-- The byte string of `ReadHandle::readQuery`. -/
def queryReply (toJson : Str → Str) (references : List Str) : Str :=
  let result := (",".toList).intercalate (references.map toJson)
  let result := eraseAll "\x7b \"reference\" : ".toList result
  let result := eraseAll " \x7d".toList result
  eraseAll "\\".toList result

section Handle

variable (lib : StorageLibrary) (ndn : ReadLibrary lib)

/-- `ReadHandle::readQuery`. The identifiers are those of `MongoStorage`. -/
def readQuery (lruCache : lib.names.Name → Option (Packet lib.names))
    (nameOrig : lib.names.Name) : Prog Db (Handled lib.names) :=
  match lruCache nameOrig, lib.names.withoutSegment nameOrig with
  | some packet, _ => pure ⟨[.packet packet], [], .returned⟩
  | none, none => pure ⟨[], [], .stopped⟩
  | none, some name =>
    let decodeName := uriDecode (lib.names.toUri name.dropLast)
    let data_id := calculateDataIdentifier lib name
    let tenant_id := calculateTenantIdentifier lib name
    if data_id = [] ∨ tenant_id = [] then pure (sendReply lib.names nameOrig [])
    else match find "/QUERY=".toList decodeName with
      -- an empty reply goes out before the query is cut out of the name
      | none => pure { sendReply lib.names nameOrig [] with ending := .threw .out_of_range }
      | some pos =>
        let query_string := replaceAll "\"geometry".toList "\"content.geometry".toList
          (eraseAll "/QUERY=".toList (decodeName.drop pos))
        match ndn.matchesQuery query_string with
        | none => pure (sendReply lib.names nameOrig [])
        | some isFound => do
          let cursor ← Prog.query fun db => db.objectIndex.filter fun doc =>
            doc.database == tenant_id ++ INDEX_DB_SUFFIX && doc.collection == data_id && isFound doc
          pure (sendReply lib.names nameOrig
            (queryReply ndn.referenceJson (cursor.map ObjectDoc.reference)))

/-- What stands before and after the first `c`; nothing at all without one. -/
def cutAt (c : Char) (s : Str) : Str × Str :=
  match find [c] s with
  | some i => (s.take i, s.drop (i + 1))
  | none => ([], [])

/-- `ReadHandle::requestInsert`: the object is fetched from the front end and stored. -/
def requestInsert (nameOrig : lib.names.Name) : Prog Db (Handled lib.names) :=
  let insert_tag := "/INSERT_REQUEST".toList
  let decodeName := uriDecode (lib.names.toUri nameOrig)
  let reply := sendReply lib.names nameOrig []
  -- `npos` is -1
  let start := match find insert_tag decodeName with
    | some pos => pos + insert_tag.length + 1
    | none => insert_tag.length
  if reply.ending ≠ .returned then pure reply
  else match substr decodeName start with
    | .error e => pure { reply with ending := .threw e }
    | .ok url_string =>
      let (fes_url, fes_path) := cutAt '/' url_string
      let path_str := if '/' ∈ url_string then '/' :: fes_path else []
      let (fes_IP_str, fes_port_str) := cutAt ':' fes_url
      match if ':' ∈ fes_url then (stoi fes_port_str).map some else .ok none with
      | .error e => pure { reply with ending := .threw e }
      | .ok fes_port =>
        match ndn.httpGet fes_IP_str fes_port path_str with
        | none => pure { reply with ending := .stopped }
        | some data_string => do
          let id ← insertLongData lib data_string
          pure { reply with ending := if id.isSome then .returned else .stopped }

section Deletion

variable (threshold : ℤ) (sorts : ℕ → ℕ → CounterSort) (bound : ℕ)

/-- The branch of a deletion. The reply is one octet, 0. -/
def deleteInterestData (name : lib.names.Name) : Prog Db (Handled lib.names) := do
  let nDeletedDatas ← deleteData lib threshold sorts bound name
  pure (match nDeletedDatas with
    | none => ⟨[], [], .stopped⟩
    | some _ =>
      ⟨[.packet ⟨name, [Char.ofNat 0], some (lib.names.fromSegment 0)⟩], [], .returned⟩)

/-- `ReadHandle::readVersion`. -/
def readVersion (reponame : Str) (name : lib.names.Name) : Prog Db (Handled lib.names) := do
  let result ← Prog.query (versionReply reponame ndn.nameJson)
  pure (sendReply lib.names name result)

/-- The branch of a read. -/
def readInterestData (name : lib.names.Name) : Prog Db (Handled lib.names) := do
  let data ← read lib ndn.packets name
  pure (match data with
    | none => ⟨[], [], .stopped⟩
    | some none => ⟨[], [], .returned⟩
    | some (some data) => ⟨[.data data], [], .returned⟩)

/-- `ReadHandle::onInterest`. -/
def onInterest (lruCache : lib.names.Name → Option (Packet lib.names)) (reponame : Str)
    (name : lib.names.Name) : Prog Db (Handled lib.names) :=
  match dispatch (lib.names.toUri name) with
  | .readQuery => readQuery lib ndn lruCache name
  | .requestInsert => requestInsert lib ndn name
  | .deleteData => deleteInterestData lib threshold sorts bound name
  | .readVersion => readVersion lib ndn reponame name
  | .readData => readInterestData lib ndn name

end Deletion

end Handle

/-! ### Reading -/

/-- What the words start with that an interest is not read for. -/
def reservedWords : List Str :=
  ["QUERY%3D", "INSERT_REQUEST", "DELETE", "GET_PREFIX"].map String.toList

/-- No component of the URI starts with one of the words. -/
def IsReadable (uri : Str) : Prop := ∀ c ∈ (splitPath uri).tail, ∀ k ∈ reservedWords, ¬k <+: c

instance (uri : Str) : Decidable (IsReadable uri) :=
  inferInstanceAs (Decidable (∀ c ∈ (splitPath uri).tail, ∀ k ∈ reservedWords, ¬k <+: c))

/-- A word is found exactly if a component starts with it. -/
theorem find_isSome_iff {k uri : Str} (hk : k ∈ reservedWords) :
    (find ('/' :: k) uri).isSome = true ↔ ∃ c ∈ (splitPath uri).tail, k <+: c := by
  have hslash : ∀ k ∈ reservedWords, SlashFree k := by decide
  rw [← slash_infix_iff (hslash k hk), ← not_iff_not, Bool.not_eq_true, Option.isSome_eq_false_iff,
    Option.isNone_iff_eq_none, find_eq_none_iff]

/-- An interest is read when none of the words is found. -/
theorem dispatch_eq_readData_iff {uri : Str} : dispatch uri = .readData ↔ IsReadable uri := by
  have hfound : IsReadable uri ↔ ∀ k ∈ reservedWords, ¬(find ('/' :: k) uri).isSome = true := by
    constructor
    · intro h k hk hsome
      obtain ⟨c, hc, hprefix⟩ := (find_isSome_iff hk).mp hsome
      exact h c hc k hk hprefix
    · intro h c hc k hk hprefix
      exact h k hk ((find_isSome_iff hk).mpr ⟨c, hc, hprefix⟩)
  rw [hfound]
  unfold dispatch
  constructor
  · intro h k hk
    split_ifs at h with hquery hinsert hdelete hversion
    -- the four words in their order
    rcases List.mem_cons.mp hk with rfl | hk
    · exact hquery
    rcases List.mem_cons.mp hk with rfl | hk
    · exact hinsert
    rcases List.mem_cons.mp hk with rfl | hk
    · exact hdelete
    · rw [List.mem_singleton.mp hk]
      exact hversion
  · intro h
    have hquery : ¬(find "/QUERY%3D".toList uri).isSome = true := h _ List.mem_cons_self
    have hinsert : ¬(find "/INSERT_REQUEST".toList uri).isSome = true :=
      h "INSERT_REQUEST".toList (by decide)
    have hdelete : ¬(find "/DELETE".toList uri).isSome = true := h "DELETE".toList (by decide)
    have hversion : ¬(find "/GET_PREFIX".toList uri).isSome = true :=
      h "GET_PREFIX".toList (by decide)
    rw [if_neg hquery, if_neg hinsert, if_neg hdelete, if_neg hversion]

section Reading

variable {lib : StorageLibrary} {ndn : ReadLibrary lib} {threshold : ℤ}
  {sorts : ℕ → ℕ → CounterSort} {bound : ℕ} {reponame : Str}
  {lruCache : lib.names.Name → Option (Packet lib.names)} {db : Db}

/-- Queries, requests for the advertised names and reads leave every collection as it is. -/
theorem db_onInterest {name : lib.names.Name}
    (hinsert : dispatch (lib.names.toUri name) ≠ .requestInsert)
    (hdelete : dispatch (lib.names.toUri name) ≠ .deleteData) :
    ((onInterest lib ndn threshold sorts bound lruCache reponame name).run db).2 = db := by
  unfold onInterest
  -- the three branches that are left read: each of them returns the database it was given
  cases hbranch : dispatch (lib.names.toUri name) with
  | requestInsert => exact absurd hbranch hinsert
  | deleteData => exact absurd hbranch hdelete
  | readQuery =>
    dsimp only
    unfold readQuery
    split
    · rfl
    · rfl
    · dsimp only
      split
      · rfl
      · split
        · rfl
        · split
          · rfl
          · rfl
  | readVersion => rfl
  | readData =>
    have hread : ((read lib ndn.packets name).run db).2 = db := by
      unfold read
      split
      · rfl
      · rw [Prog.run_bind, Prog.run_query]
        split
        · rfl
        · rfl
    show ((readInterestData lib ndn name).run db).2 = db
    unfold readInterestData
    rw [Prog.run_bind, Prog.run_pure]
    exact hread

/-- The first packet stored under its name. -/
def Data.FirstStored (lib : StorageLibrary) (data : Data lib.names) (db : Db) : Prop :=
  ∃ doc, db.dataPackets.find? (isStored lib data.name) = some doc ∧
    doc.data = base64_encode data.wire

variable (lib ndn threshold sorts bound reponame lruCache) in
/-- An interest in the packet is taken for a read, which puts this packet on the face, and no
other, and leaves every collection as it is. -/
def IsRead (data : Data lib.names) (db : Db) : Prop :=
  dispatch (lib.names.toUri data.name) = .readData ∧
    (onInterest lib ndn threshold sorts bound lruCache reponame data.name).run db =
      (⟨[.data data], [], .returned⟩, db)

end Reading

section Examples

/-- A packet of the user `DELETE`, under the name `/OGB/test/cities/user/DELETE/1`. -/
def deletePacket : Data octetNames where
  name := ["OGB", "test", "cities", "user", "DELETE", "1"].map fun c => c.toList.map Char.toNat
  content := cityText
  wire := shortPacket
    (["OGB", "test", "cities", "user", "DELETE", "1"].map fun c => c.toList.map Char.toNat) cityText

/-- The libraries on this packet and that of the city. -/
def readLibrary : ReadLibrary cityLibrary where
  packets :=
    { wireEncode := shortPacket
      wireDecode := fun wire => [cityPacket, deletePacket].find? fun data => data.wire == wire }
  matchesQuery _ := none
  referenceJson := nameDocument
  nameJson := nameDocument
  httpGet _ _ _ := none

private def readOrder : ℕ → ℕ → CounterSort := fun _ _ => .stable

/-- The database in which the packet of the city and that of the user `DELETE` are stored. -/
private def bothPackets : Db :=
  ((insert cityLibrary 1 readOrder 0 deletePacket).run
    ((insert cityLibrary 1 readOrder 0 cityPacket).run Db.empty).2).2

/-- What an interest in a packet does to this database. -/
private def handled (name : cityLibrary.names.Name) : Handled cityLibrary.names × Db :=
  (onInterest cityLibrary readLibrary 1 readOrder 0 (fun _ => none) "repo".toList name).run
    bothPackets

/-- The packet of the example is decoded. -/
private theorem isDecoded_city : readLibrary.packets.IsDecoded cityPacket := by
  refine ⟨by decide, ?_⟩
  show [cityPacket, deletePacket].find? (fun data => data.wire == cityPacket.wire) = some cityPacket
  exact List.find?_cons_of_pos (beq_self_eq_true cityPacket.wire)

/-- The packet is the first one stored under its name. -/
private theorem firstStored_city : Data.FirstStored cityLibrary cityPacket bothPackets := by
  have hfind : bothPackets.dataPackets.find? (isStored cityLibrary cityPacket.name) =
      some (Data.stored cityLibrary cityPacket) := by
    decide +kernel
  exact ⟨_, hfind, rfl⟩

end Examples

end OpenGeoBase
