import OpenGeoBase.Fes.FetchManager
import OpenGeoBase.Repo.StoredPacket

/-!
# From insertion to query

A content goes through four conversions on its way from an insertion to a query.
`NDNContentObject` makes bytes of it, in UTF-8; the repository makes text of the packet
and a packet of the text again; and `NDNFetchManager.getStringElement` makes a string of
the bytes, one character of each.

The repository gives back what it has been given (`run_read_insert`). The last conversion
undoes the first one on ASCII characters only: any other character is more than one byte,
and the string gets more than one character for it. So exactly the contents of ASCII
characters come back (`received_iff`).
-/

namespace OpenGeoBase

open Text AtomicCalls Collection

/-! ### Strings and bytes -/

/-- `String.getBytes` in UTF-8. -/
def getBytes (s : Str) : Str :=
  s.flatMap fun c => (String.utf8EncodeChar c).map fun b => Char.ofNat b.toNat

/-- All characters are ASCII. -/
def IsAscii (s : Str) : Prop := ∀ c ∈ s, c.toNat < 128

instance (s : Str) : Decidable (IsAscii s) := List.decidableBAll _ _

section Bytes

variable {c : Char} {s : Str}

/-- A character takes one octet exactly if it is ASCII. -/
theorem utf8Size_eq_one_iff : c.utf8Size = 1 ↔ c.toNat < 128 := by
  rw [Char.utf8Size_eq_one_iff, UInt32.le_iff_toNat_le]
  exact Nat.lt_succ_iff.symm

/-- An ASCII character is its own byte. -/
theorem getBytes_of_isAscii (h : IsAscii s) : getBytes s = s := by
  induction s with
  | nil => rfl
  | cons c s ih =>
    have hc : c.toNat < 128 := h c List.mem_cons_self
    have hbyte : (String.utf8EncodeChar c).map (fun b => Char.ofNat b.toNat) = [c] := by
      rw [String.utf8EncodeChar_eq_singleton (utf8Size_eq_one_iff.mpr hc), List.map_singleton]
      have hval : c.val.toUInt8.toNat = c.toNat := by
        rw [UInt32.toNat_toUInt8]
        exact Nat.mod_eq_of_lt (lt_trans hc (by norm_num))
      rw [hval, Char.ofNat_toNat]
    unfold getBytes at ih ⊢
    rw [List.flatMap_cons, hbyte, ih fun d hd => h d (List.mem_cons_of_mem c hd)]
    rfl

/-- The octets of a text are those of its characters. -/
theorem length_getBytes (s : Str) : (getBytes s).length = (s.map Char.utf8Size).sum := by
  unfold getBytes
  rw [List.length_flatMap]
  congr 1
  refine List.map_congr_left fun c _ => ?_
  rw [List.length_map, String.length_utf8EncodeChar]

/-- A text that has as many bytes as characters is ASCII. -/
theorem isAscii_of_length_getBytes (h : (getBytes s).length = s.length) : IsAscii s := by
  rw [length_getBytes] at h
  induction s with
  | nil => exact fun c hc => absurd hc List.not_mem_nil
  | cons c s ih =>
    have hle : ∀ t : Str, t.length ≤ (t.map Char.utf8Size).sum := by
      intro t
      induction t with
      | nil => exact le_rfl
      | cons d t iht =>
        have hd := Char.utf8Size_pos d
        rw [List.map_cons, List.sum_cons, List.length_cons]
        omega
    have hc := Char.utf8Size_pos c
    have hs := hle s
    rw [List.map_cons, List.sum_cons, List.length_cons] at h
    -- neither the first character nor the rest has a byte to spare
    intro d hd
    rcases List.mem_cons.mp hd with rfl | hd
    · exact utf8Size_eq_one_iff.mp (by omega)
    · exact ih (by omega) d hd

/-- An ASCII byte is a character. -/
theorem getStringElement_of_isAscii (h : IsAscii s) : getStringElement s = s := by
  have hsame : ∀ c ∈ s, charOfByte c = id c := fun c hc => if_pos (h c hc)
  unfold getStringElement
  rw [List.map_congr_left hsame, List.map_id]

/-- **The string made of the bytes is the string they were made of**, exactly for ASCII. -/
theorem getStringElement_getBytes_iff : getStringElement (getBytes s) = s ↔ IsAscii s := by
  constructor
  · intro h
    refine isAscii_of_length_getBytes ?_
    calc
      (getBytes s).length = (getStringElement (getBytes s)).length := (List.length_map _).symm
      _ = s.length := by rw [h]
  · intro h
    rw [getBytes_of_isAscii h, getStringElement_of_isAscii h]

end Bytes

/-! ### A content and its packet -/

section ContentObject

variable (lib : StorageLibrary) (packets : PacketLibrary lib.names)

/-- `NDNContentObject`, the packet of a content; `none` on an exception. -/
def NDNContentObject (content name : Str) (allowSegment : Bool) : Option (Data lib.names) := do
  let rawContent := getBytes content
  let nameURI ← lib.names.ofUri name
  if !allowSegment && decide (MAX_NDN_PACKET_SIZE < rawContent.length) then none
  else pure ⟨nameURI, rawContent, packets.wireEncode nameURI rawContent⟩

/-- The string a query gets for a content that has been inserted under a name: the content is
made a packet, the packet is stored and read, and its content is made a string. -/
def received (threshold : ℤ) (sorts : ℕ → ℕ → CounterSort) (bound : ℕ) (content name : Str)
    (allowSegment : Bool) (db : Db) : Option Str := do
  let data ← NDNContentObject lib packets content name allowSegment
  let stored := ((insert lib threshold sorts bound data).run db).2
  let found ← ((read lib packets data.name).run stored).1
  let data' ← found
  pure (getStringElement data'.content)

variable {lib packets}

section Received

variable {content name : Str} {nameURI : lib.names.Name} {db : Db}
  (hname : lib.names.ofUri name = some nameURI)
  (hfits : (getBytes content).length ≤ MAX_NDN_PACKET_SIZE)

include hname hfits

/-- The packet of a content that fits into one. -/
theorem NDNContentObject_eq (allowSegment : Bool) :
    NDNContentObject lib packets content name allowSegment =
      some ⟨nameURI, getBytes content, packets.wireEncode nameURI (getBytes content)⟩ := by
  unfold NDNContentObject
  rw [hname]
  have hsmall : ¬(!allowSegment && decide (MAX_NDN_PACKET_SIZE < (getBytes content).length)) =
      true := by
    rw [decide_eq_false (not_lt.mpr hfits), Bool.and_false]
    exact Bool.false_ne_true
  exact if_neg hsmall

/-- The repository gives back the bytes of the content, and these are made a string. -/
theorem received_eq
    (hdata : packets.IsDecoded
      ⟨nameURI, getBytes content, packets.wireEncode nameURI (getBytes content)⟩)
    (haccepted : Data.Accepted lib
      ⟨nameURI, getBytes content, packets.wireEncode nameURI (getBytes content)⟩)
    (hone : Data.OnlyOne lib
      ⟨nameURI, getBytes content, packets.wireEncode nameURI (getBytes content)⟩ db)
    (threshold : ℤ) (sorts : ℕ → ℕ → CounterSort) (bound : ℕ) (allowSegment : Bool) :
    received lib packets threshold sorts bound content name allowSegment db =
      some (getStringElement (getBytes content)) := by
  have hread := run_read_insert hdata haccepted hone threshold sorts bound
  unfold received
  rw [NDNContentObject_eq hname hfits, Option.bind_eq_bind, Option.bind_some]
  dsimp only
  rw [hread]
  rfl

/-- **A content comes back exactly if it is ASCII.** This is for every content that fits into
one packet and is accepted, under every name of which no other packet is stored. -/
theorem received_iff
    (hdata : packets.IsDecoded
      ⟨nameURI, getBytes content, packets.wireEncode nameURI (getBytes content)⟩)
    (haccepted : Data.Accepted lib
      ⟨nameURI, getBytes content, packets.wireEncode nameURI (getBytes content)⟩)
    (hone : Data.OnlyOne lib
      ⟨nameURI, getBytes content, packets.wireEncode nameURI (getBytes content)⟩ db)
    (threshold : ℤ) (sorts : ℕ → ℕ → CounterSort) (bound : ℕ) (allowSegment : Bool) :
    received lib packets threshold sorts bound content name allowSegment db = some content ↔
      IsAscii content := by
  rw [received_eq hname hfits hdata haccepted hone, Option.some.injEq]
  exact getStringElement_getBytes_iff

end Received

end ContentObject

section Examples

private def inOrder : ℕ → ℕ → CounterSort := fun _ _ => CounterSort.stable

/-- The name the city is inserted under. -/
private def cityUri : Str := "/OGB/test/cities/user/1".toList

/-- A point object called Città, and its text. -/
def accentedText : Str :=
  ("\x7b\"geometry\":\x7b\"type\":\"Point\",\"coordinates\":[12.34,41.8]\x7d," ++
    "\"name\":\"Città\"\x7d").toList

/-- Its parsed form. -/
def accentedJson : Value := .object [
  ("geometry".toList, .object [("type".toList, .string "Point".toList),
    ("coordinates".toList, Coord.toJson (1234 / 100, 418 / 10))]),
  ("name".toList, .string (getBytes "Città".toList))]

/-- The libraries on the two objects. -/
def accentedLibrary : StorageLibrary :=
  { cityLibrary with
    parse := fun s => if s = getBytes accentedText then some accentedJson else cityLibrary.parse s }

/-- The packet of a content, under the name of the city. -/
private def packetOf (content : Str) : Data octetNames where
  name := cityData.name
  content := getBytes content
  wire := shortPacket cityData.name (getBytes content)

/-- The NDN library on the packets of the two objects. -/
private def smallPackets : PacketLibrary octetNames where
  wireEncode := shortPacket
  wireDecode wire :=
    [packetOf cityText, packetOf accentedText].find? fun data => data.wire == wire

private theorem parse_accentedLibrary (s : Str) : accentedLibrary.parse s =
    if s = getBytes accentedText then some accentedJson
    else if s = cityText then some cityJson else none := rfl

/-- Both packets are accepted. -/
private theorem accepted_city : Data.Accepted accentedLibrary (packetOf cityText) := by
  refine ⟨by decide, by decide, cityJson, (cityUri, cityJson), ?_, rfl⟩
  have hbytes : (packetOf cityText).content = cityText := getBytes_of_isAscii (by decide)
  rw [parse_accentedLibrary, hbytes, if_neg (by decide), if_pos rfl]

private theorem accepted_accented : Data.Accepted accentedLibrary (packetOf accentedText) := by
  refine ⟨by decide, by decide, accentedJson, (cityUri, accentedJson), ?_, rfl⟩
  rw [parse_accentedLibrary]
  exact if_pos rfl

private theorem wireDecode_smallPackets (wire : List ℕ) : smallPackets.wireDecode wire =
    [packetOf cityText, packetOf accentedText].find? fun data => data.wire == wire := rfl

private theorem decoded_city : smallPackets.IsDecoded (packetOf cityText) := by
  refine ⟨by decide, ?_⟩
  rw [wireDecode_smallPackets]
  exact List.find?_cons_of_pos (beq_self_eq_true (packetOf cityText).wire)

private theorem decoded_accented : smallPackets.IsDecoded (packetOf accentedText) := by
  refine ⟨by decide, ?_⟩
  have hother : ((packetOf cityText).wire == (packetOf accentedText).wire) = false := by
    decide
  rw [wireDecode_smallPackets, List.find?_cons, List.find?_cons, hother, beq_self_eq_true]

private theorem onlyOne_empty (data : Data octetNames) :
    Data.OnlyOne accentedLibrary data Db.empty :=
  fun _ hdoc => absurd hdoc List.not_mem_nil

/-- The object without an accent comes back. -/
theorem received_iff_city :
    received accentedLibrary smallPackets 1 inOrder 0 cityText cityUri false Db.empty =
      some cityText :=
  (received_iff (by rfl) (by decide) decoded_city accepted_city (onlyOne_empty _) 1
    inOrder 0 false).mpr (by decide)

/-- An accent is not given back. -/
theorem accent_lost :
    received accentedLibrary smallPackets 1 inOrder 0 accentedText cityUri false Db.empty ≠
      some accentedText := by
  rw [received_eq (by rfl) (by decide) decoded_accented accepted_accented
    (onlyOne_empty _), Ne, Option.some.injEq]
  decide

end Examples

end OpenGeoBase
