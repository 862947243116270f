import OpenGeoBase.Repo.ObjectStore

/-!
# Stored packets

`MongoStorage::insert` stores the encoding of a packet as base64 text, and
`MongoStorage::read` looks a packet up by its name, decodes the text and then the packet.

`base64_decode` stops at the first character that is not a base64 digit and drops the
octet that an incomplete group of four would make only in part, so that it undoes
`base64_encode` for every number of octets (`base64_decode_encode`). What is read under a
name is the first packet stored under it, unchanged (`run_read_of_find`).

How a packet is encoded is a matter of the NDN library, the parameter `PacketLibrary`.
-/

namespace OpenGeoBase

open Text AtomicCalls Collection

/-! ### base64 -/

def is_base64 (c : Char) : Bool := c.isAlphanum || c == '+' || c == '/'

/-- The position of a base64 digit, as an `unsigned char`; that of no digit is `npos`. -/
def base64_value (c : Char) : ℕ := if c ∈ base64_chars then base64_chars.idxOf c else 255

/-- The three octets of a group of four digits. -/
def base64_octets (c₀ c₁ c₂ c₃ : Char) : List ℕ :=
  let d₀ := base64_value c₀
  let d₁ := base64_value c₁
  let d₂ := base64_value c₂
  let d₃ := base64_value c₃
  [d₀ * 4 + d₁ / 16 % 4, d₁ % 16 * 16 + d₂ / 4 % 16, d₂ % 4 * 64 + d₃].map (· % 256)

/-- The octets of a text of digits. The last group is filled up with zeros. -/
def base64_groups : Str → List ℕ
  | [] => []
  | [c₀] => (base64_octets c₀ '\x00' '\x00' '\x00').take 0
  | [c₀, c₁] => (base64_octets c₀ c₁ '\x00' '\x00').take 1
  | [c₀, c₁, c₂] => (base64_octets c₀ c₁ c₂ '\x00').take 2
  | c₀ :: c₁ :: c₂ :: c₃ :: s => base64_octets c₀ c₁ c₂ c₃ ++ base64_groups s

/-- Does the loop of `base64_decode` go on? -/
def isDecoded (c : Char) : Bool := c != '=' && is_base64 c

def base64_decode (encoded_string : Str) : List ℕ :=
  base64_groups (encoded_string.takeWhile isDecoded)

/-- All of them are octets. -/
def AreOctets (octets : List ℕ) : Prop := ∀ b ∈ octets, b < 256

instance (octets : List ℕ) : Decidable (AreOctets octets) := List.decidableBAll _ _

section Base64

variable {a b c d : ℕ}

/-- The digit of a value below 64 is read as a digit, and has that value. -/
theorem base64_digit (h : d < 64) : isDecoded (base64_chars.getD d '=') = true ∧
    base64_value (base64_chars.getD d '=') = d := by
  revert d
  decide +kernel

/-- Four digits are read back as the three octets they were made of. -/
theorem base64_octets_digits (ha : a < 256) (hb : b < 256) (hc : c < 256) :
    base64_octets (base64_chars.getD (a / 4) '=') (base64_chars.getD (a % 4 * 16 + b / 16) '=')
      (base64_chars.getD (b % 16 * 4 + c / 64) '=') (base64_chars.getD (c % 64) '=') =
        [a, b, c] := by
  have ha' : (a / 4 * 4 + (a % 4 * 16 + b / 16) / 16 % 4) % 256 = a := by omega
  have hb' : ((a % 4 * 16 + b / 16) % 16 * 16 + (b % 16 * 4 + c / 64) / 4 % 16) % 256 = b := by
    omega
  have hc' : ((b % 16 * 4 + c / 64) % 4 * 64 + c % 64) % 256 = c := by omega
  unfold base64_octets
  rw [(base64_digit (by omega)).2, (base64_digit (by omega)).2, (base64_digit (by omega)).2,
    (base64_digit (by omega)).2]
  dsimp only
  rw [List.map_cons, List.map_cons, List.map_singleton, ha', hb', hc']

/-- Three bytes are written in characters of the alphabet. -/
theorem isDecoded_digits (ha : a < 256) (hb : b < 256) (hc : c < 256) :
    ∀ d ∈ base64_digits a b c, isDecoded d = true := by
  intro d hd
  obtain ⟨v, hv, rfl⟩ := List.mem_map.mp hd
  refine (base64_digit ?_).1
  simp only [List.mem_cons, List.not_mem_nil, or_false] at hv
  omega

/-- Four digits at the front. -/
theorem base64_decode_digits (ha : a < 256) (hb : b < 256) (hc : c < 256) (s : Str) :
    base64_decode (base64_digits a b c ++ s) = [a, b, c] ++ base64_decode s := by
  unfold base64_decode
  rw [List.takeWhile_append_of_pos (isDecoded_digits ha hb hc), ← base64_octets_digits ha hb hc]
  rfl

/-- The first octet does not depend on the last two digits, nor the second on the last one. -/
theorem take_base64_octets (c₀ c₁ c₂ c₃ c₂' c₃' : Char) :
    (base64_octets c₀ c₁ c₂ c₃).take 1 = (base64_octets c₀ c₁ c₂' c₃').take 1 ∧
      (base64_octets c₀ c₁ c₂ c₃).take 2 = (base64_octets c₀ c₁ c₂ c₃').take 2 :=
  ⟨rfl, rfl⟩

/-- One octet is left: two digits, which say what it is. -/
theorem base64_decode_one (ha : a < 256) :
    base64_decode ((base64_digits a 0 0).take 2 ++ ['=', '=']) = [a] := by
  have hoctets := base64_octets_digits ha (b := 0) (c := 0) (by norm_num) (by norm_num)
  have hread : ∀ d ∈ (base64_digits a 0 0).take 2, isDecoded d = true := fun d hd =>
    isDecoded_digits ha (by norm_num) (by norm_num) d (List.mem_of_mem_take hd)
  unfold base64_decode
  -- the digits are read up to the padding, and the group is filled with zeros
  rw [List.takeWhile_append_of_pos hread, List.takeWhile_cons_of_neg (by decide),
    List.append_nil]
  change (base64_octets (base64_chars.getD (a / 4) '=')
    (base64_chars.getD (a % 4 * 16 + 0 / 16) '=') '\x00' '\x00').take 1 = [a]
  rw [(take_base64_octets _ _ _ _ _ _).1, hoctets]
  rfl

/-- Two octets are left: three digits. -/
theorem base64_decode_two (ha : a < 256) (hb : b < 256) :
    base64_decode ((base64_digits a b 0).take 3 ++ ['=']) = [a, b] := by
  have hoctets := base64_octets_digits ha hb (c := 0) (by norm_num)
  have hread : ∀ d ∈ (base64_digits a b 0).take 3, isDecoded d = true := fun d hd =>
    isDecoded_digits ha hb (by norm_num) d (List.mem_of_mem_take hd)
  unfold base64_decode
  -- three digits are read, and one zero fills the group
  rw [List.takeWhile_append_of_pos hread, List.takeWhile_cons_of_neg (by decide),
    List.append_nil]
  change (base64_octets (base64_chars.getD (a / 4) '=')
    (base64_chars.getD (a % 4 * 16 + b / 16) '=')
      (base64_chars.getD (b % 16 * 4 + 0 / 64) '=') '\x00').take 2 = [a, b]
  rw [(take_base64_octets _ _ _ _ (base64_chars.getD 0 '=') _).2, hoctets]
  rfl

/-- **`base64_decode` undoes `base64_encode`**, whatever the number of octets. -/
theorem base64_decode_encode {octets : List ℕ} (h : AreOctets octets) :
    base64_decode (base64_encode octets) = octets := by
  induction octets using base64_encode.induct with
  | case1 => rfl
  | case2 a => exact base64_decode_one (h a (by simp))
  | case3 a b => exact base64_decode_two (h a (by simp)) (h b (by simp))
  | case4 a b c octets ih =>
    unfold base64_encode
    rw [base64_decode_digits (h a (by simp)) (h b (by simp)) (h c (by simp)),
      ih fun d hd => h d (by simp [hd])]
    rfl

end Base64

/-! ### Storing and reading -/

/-- What the NDN library makes of packets; an exception is `none`. -/
structure PacketLibrary (names : NameLibrary) where
  /-- The encoding of a packet of this name and content, signed with the key of its user. -/
  wireEncode : names.Name → Str → List ℕ
  wireDecode : List ℕ → Option (Data names)

namespace PacketLibrary

variable {names : NameLibrary} (packets : PacketLibrary names)

/-- The packet is what its encoding, a sequence of octets, is decoded to. -/
def IsDecoded (data : Data names) : Prop :=
  AreOctets data.wire ∧ packets.wireDecode data.wire = some data

end PacketLibrary

section Read

variable (lib : StorageLibrary) (packets : PacketLibrary lib.names)

/-- The filter of `read` on the data databases: database, collection and name. -/
def isStored (name : lib.names.Name) (doc : DataDoc) : Bool :=
  doc.database == calculateTenantIdentifier lib name ++ DATA_DB_SUFFIX &&
    doc.collection == calculateDataIdentifier lib name && doc.name == lib.names.toUri name

/-- `MongoStorage::read`: the packet, or a null pointer; `none` when it does not return.
MongoDB refuses a collection without a name. -/
def read (name : lib.names.Name) : Prog Db (Option (Option (Data lib.names))) :=
  if calculateDataIdentifier lib name = [] then pure none
  else do
    let mongo_result ← Prog.query fun db => db.dataPackets.find? (isStored lib name)
    match mongo_result with
    | none => pure (some none)
    | some doc => pure ((packets.wireDecode (base64_decode doc.data)).map some)

/-- The document `insert` makes of a packet. -/
def Data.stored (data : Data lib.names) : DataDoc where
  database := calculateTenantIdentifier lib data.name ++ DATA_DB_SUFFIX
  collection := calculateDataIdentifier lib data.name
  name := lib.names.toUri data.name
  data := base64_encode data.wire

/-- `insert` gets as far as to store the packet: the name has both identifiers, and the
content is the text of an object with a reference and a content. -/
def Data.Accepted (data : Data lib.names) : Prop :=
  calculateDataIdentifier lib data.name ≠ [] ∧ calculateTenantIdentifier lib data.name ≠ [] ∧
    ∃ json_data element, lib.parse data.content = some json_data ∧
      indexElement json_data (lib.names.toUri data.name) = some element

/-- The document `insert` makes of the object. -/
def Data.document (data : Data lib.names) (element : Str × Value) : ObjectDoc where
  database := calculateTenantIdentifier lib data.name ++ INDEX_DB_SUFFIX
  collection := calculateDataIdentifier lib data.name
  reference := element.1
  name := lib.names.toUri data.name
  content := element.2

/-- The database with both documents. -/
def Data.storedIn (data : Data lib.names) (element : Str × Value) (db : Db) : Db :=
  (db.mapObjects (insertOne (data.document lib element))).mapData (insertOne (data.stored lib))

/-- Any other packet stored under the name is the same. -/
def Data.OnlyOne (data : Data lib.names) (db : Db) : Prop :=
  ∀ doc ∈ db.dataPackets, isStored lib data.name doc = true →
    doc.data = base64_encode data.wire

variable {lib packets} {data : Data lib.names} {db : Db}

section Insert

variable {threshold : ℤ} {sorts : ℕ → ℕ → CounterSort} {bound : ℕ}

/-- Of an accepted packet both documents are stored, and then the index is updated. -/
theorem run_insert_accepted {json_data : Value} {element : Str × Value}
    (hid : calculateDataIdentifier lib data.name ≠ [])
    (htenant : calculateTenantIdentifier lib data.name ≠ [])
    (hparse : lib.parse data.content = some json_data)
    (hindex : indexElement json_data (lib.names.toUri data.name) = some element) :
    let r := (callCalculateIndex lib threshold sorts bound json_data false).run
      (data.storedIn lib element db)
    (insert lib threshold sorts bound data).run db = (if r.1 then some 0 else none, r.2) := by
  unfold insert
  dsimp only
  rw [if_neg (by simp [hid, htenant]), hparse]
  dsimp only
  rw [hindex]
  dsimp only
  rw [Prog.run_bind, Prog.run_bind, Prog.run_bind, Prog.run_pure]
  rfl

/-- Any other packet fails before anything is stored. -/
theorem run_insert_refused (h : ¬data.Accepted lib) :
    ∃ code, (code = none ∨ code = some (-1)) ∧
      (insert lib threshold sorts bound data).run db = (code, db) := by
  unfold insert
  dsimp only
  -- the refusals in the order of the code: the identifiers, the text, the index element
  by_cases hid : calculateDataIdentifier lib data.name = [] ∨
      calculateTenantIdentifier lib data.name = []
  · exact ⟨some (-1), Or.inr rfl, by rw [if_pos hid, Prog.run_pure]⟩
  · rw [if_neg hid]
    rw [not_or] at hid
    cases hparse : lib.parse data.content with
    | none => exact ⟨some (-1), Or.inr rfl, rfl⟩
    | some json_data =>
      dsimp only
      cases hindex : indexElement json_data (lib.names.toUri data.name) with
      | none => exact ⟨none, Or.inl rfl, rfl⟩
      | some element => exact absurd ⟨hid.1, hid.2, json_data, element, hparse, hindex⟩ h

end Insert

/-- An accepted packet is stored behind the others, and nothing else is. -/
theorem dataPackets_insert (h : data.Accepted lib) (threshold : ℤ)
    (sorts : ℕ → ℕ → CounterSort) (bound : ℕ) (db : Db) :
    ((insert lib threshold sorts bound data).run db).2.dataPackets =
      db.dataPackets ++ [data.stored lib] := by
  obtain ⟨hid, htenant, json_data, element, hparse, hindex⟩ := h
  rw [run_insert_accepted hid htenant hparse hindex]
  exact (sameStore_callCalculateIndex threshold sorts bound false lib json_data _).2

/-- A packet that is stored is found by its name. -/
theorem isStored_stored (data : Data lib.names) :
    isStored lib data.name (data.stored lib) = true := by
  simp [isStored, Data.stored]

/-- The first packet stored under the name is read, decoded. -/
theorem run_read_of_find {doc : DataDoc} (hid : calculateDataIdentifier lib data.name ≠ [])
    (hdata : packets.IsDecoded data)
    (hfind : db.dataPackets.find? (isStored lib data.name) = some doc)
    (hdoc : doc.data = base64_encode data.wire) :
    (read lib packets data.name).run db = (some (some data), db) := by
  unfold read
  rw [if_neg hid, Prog.run_bind, Prog.run_query, hfind]
  dsimp only
  rw [hdoc, base64_decode_encode hdata.1, hdata.2]
  rfl

/-- **What is inserted is read.** -/
theorem run_read_insert (hdata : packets.IsDecoded data) (haccepted : data.Accepted lib)
    (hone : data.OnlyOne lib db) (threshold : ℤ) (sorts : ℕ → ℕ → CounterSort) (bound : ℕ) :
    ((read lib packets data.name).run
      ((insert lib threshold sorts bound data).run db).2).1 = some (some data) := by
  have hpackets := dataPackets_insert haccepted threshold sorts bound db
  -- the packet just stored is there, so the search finds one
  cases hfind : ((insert lib threshold sorts bound data).run db).2.dataPackets.find?
      (isStored lib data.name) with
  | none =>
    have hmem : data.stored lib ∈
        ((insert lib threshold sorts bound data).run db).2.dataPackets := by
      rw [hpackets]
      exact List.mem_append_right _ (List.mem_singleton_self _)
    exact absurd (isStored_stored data) (List.find?_eq_none.mp hfind _ hmem)
  | some doc =>
    have hmem := List.mem_of_find?_eq_some hfind
    rw [hpackets] at hmem
    -- the one found first is the same packet: no other is stored under its name
    have hdoc : doc.data = base64_encode data.wire := by
      rcases List.mem_append.mp hmem with hmem | hmem
      · exact hone doc hmem (List.find?_some hfind)
      · rw [List.mem_singleton.mp hmem]
        rfl
    rw [run_read_of_find haccepted.1 hdata hfind hdoc]

end Read

section Examples

/-- A TLV element of less than 253 octets. -/
def shortElement (type : ℕ) (value : List ℕ) : List ℕ := type :: value.length :: value

/-- The encoding of a small packet, with an empty signature. -/
def shortPacket (name : List (List ℕ)) (content : Str) : List ℕ :=
  shortElement 6 (shortElement 7 (name.flatMap (shortElement 8)) ++ shortElement 20 [] ++
    shortElement 21 (content.map Char.toNat) ++ shortElement 22 [27, 1, 0] ++ shortElement 23 [])

/-- The packet of the city. -/
def cityPacket : Data octetNames where
  name := cityData.name
  content := cityText
  wire := shortPacket cityData.name cityText

/-- The NDN library on this packet. -/
def cityPackets : PacketLibrary octetNames where
  wireEncode := shortPacket
  wireDecode wire := if wire = cityPacket.wire then some cityPacket else none

theorem isDecoded_cityPacket : cityPackets.IsDecoded cityPacket := by
  refine ⟨by decide, ?_⟩
  show (if cityPacket.wire = cityPacket.wire then some cityPacket else none) = some cityPacket
  exact if_pos rfl

end Examples

end OpenGeoBase
