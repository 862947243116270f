import OpenGeoBase.Fes.ContentObject
import OpenGeoBase.Fes.ObjectOwner
import OpenGeoBase.Lib.Utf8
import OpenGeoBase.Repo.UriDecode
import Mathlib.Algebra.Order.Floor.Semifield

/-!
# The fragments of a content

A content that is too long for one packet is cut by `fragmentAtMaxNDNPacketSize` into pieces of
8000 bytes, each of which becomes a content object with a name of its own. Two things go wrong.

The number of the last segment is computed before the cut, as the length divided by 8000. Where
nothing is left over this is one more than the number of the last piece (`numberedToEnd_iff`).

A piece is made a string first, and the constructor makes bytes of it again. What is no text does
not come back, so that the content is what it was if and only if no character lies across the end
of a piece (`fragments_content_iff`).
-/

namespace OpenGeoBase

open Text Jndn

/-! ### Strings and bytes -/

/-- `new String(bytes)` in UTF-8. -/
def newString (bytes : Str) : Str := Utf8.decode (bytes.map fun b => UInt8.ofNat b.toNat)

/-- `getBytes` encodes, one character a byte. -/
theorem getBytes_eq (s : Str) : getBytes s = (Utf8.encode s).map byteChar :=
  List.map_flatMap.symm

/-- `new String` decodes these bytes. -/
theorem newString_map_byteChar (bytes : List UInt8) :
    newString (bytes.map byteChar) = Utf8.decode bytes := by
  have hsame : (fun b : Char => UInt8.ofNat b.toNat) ∘ byteChar = id := by
    funext b
    rw [Function.comp_apply, toNat_byteChar, UInt8.ofNat_toNat]
    rfl
  unfold newString
  rw [List.map_map, hsame, List.map_id]

/-- A piece of bytes that goes through a string comes back with its malformed bytes replaced. -/
theorem getBytes_newString (bytes : List UInt8) :
    getBytes (newString (bytes.map byteChar)) = (Utf8.recode bytes).map byteChar := by
  rw [newString_map_byteChar, getBytes_eq]
  rfl

/-- The 256 characters that stand for bytes are different. -/
theorem byteChar_injective : Function.Injective byteChar := fun b b' h => by
  have hnat := congrArg Char.toNat h
  rwa [toNat_byteChar, toNat_byteChar, UInt8.toNat_inj] at hnat

/-! ### Content objects -/

/-- `Name.Component.fromSegment`. -/
def Jndn.fromSegment (segment : ℕ) : Component :=
  .generic (0 :: bigEndian (segmentWidth segment) segment)

namespace Insert

/-- The fields of a packet. -/
structure Data where
  name : List Component
  content : Str
  finalBlockId : Option Component
  deriving DecidableEq

/-- `NDNContentObject`; of the signed bytes, the packet that has been signed. -/
structure NDNContentObject where
  nameURI : List Component
  data : Data
  rawContent : Str
  signedContent : Data
  deriving DecidableEq

/-- The last parameter of a constructor. -/
inductive Final where
  | isFinal (isFinal : Bool)
  | finalSegmentNumber (finalSegmentNumber : ℕ)

/-- `setIsFinalBlock`, with a number and without; `none` on an exception. -/
def Final.finalBlockId (name : List Component) : Final → Option (Option Component)
  | isFinal true => name.getLast?.map some
  | isFinal false => some none
  | finalSegmentNumber n => some (some (fromSegment n))

namespace NDNContentObject

/-- The constructors, for a user whose keys are there; `none` on an exception. -/
def new (content name : Str) (allowSegment : Bool) (final : Final) : Option NDNContentObject := do
  let rawContent := getBytes content
  let nameURI ← Jndn.set name
  let finalBlockId ← final.finalBlockId nameURI
  let data : Data := ⟨nameURI, rawContent, finalBlockId⟩
  if !allowSegment && decide (MAX_NDN_PACKET_SIZE < rawContent.length) then none
  else pure ⟨nameURI, data, rawContent, data⟩

/-- `setIsFinalBlock`. -/
def setIsFinalBlock (object : NDNContentObject) : Option NDNContentObject :=
  (Final.finalBlockId object.data.name (.isFinal true)).map fun finalBlockId =>
    { object with data := { object.data with finalBlockId := finalBlockId } }

/-- The name of a segment: the last component gives way to it. -/
def segmentOf (nameURI : List Component) (snCounter : ℕ) : List Component :=
  nameURI.dropLast ++ [fromSegment snCounter]

/-- `appendSegment`. -/
def appendSegment (snCounter : ℕ) (object : NDNContentObject) : NDNContentObject :=
  { object with
    nameURI := segmentOf object.nameURI snCounter
    data := { object.data with name := segmentOf object.nameURI snCounter } }

/-- The content object of a piece. -/
def newPiece (nameURI : List Component) (nSegments snCounter : ℕ) (subData : Str) :
    Option NDNContentObject :=
  new (newString subData) (toUri (segmentOf nameURI snCounter)) false
    (.finalSegmentNumber nSegments)

/-- The loop of `fragmentAtMaxNDNPacketSize`, and what follows it; `subData` are the bytes read
since the last piece. -/
def fragmentLoop (nameURI : List Component) (nSegments : ℕ) :
    Str → Str → ℕ → Option (List NDNContentObject)
  | [], subData, snCounter =>
    if 0 < subData.length then do
      let object ← newPiece nameURI nSegments snCounter subData
      pure [object]
    else pure []
  | b :: rawContent, subData, snCounter =>
    let subData := subData ++ [b]
    if subData.length = MAX_SIZE_PACKET then do
      let object ← newPiece nameURI nSegments snCounter subData
      let result ← fragmentLoop nameURI nSegments rawContent [] (snCounter + 1)
      pure (object :: result)
    else fragmentLoop nameURI nSegments rawContent subData snCounter

/-- `fragmentAtMaxNDNPacketSize`. -/
def fragmentAtMaxNDNPacketSize (object : NDNContentObject) : Option (List NDNContentObject) :=
  if object.rawContent.length ≤ MAX_SIZE_PACKET then do
    let object := object.appendSegment 0
    -- the number of bytes that have been read is 0
    let object ← if 0 = object.rawContent.length then object.setIsFinalBlock else pure object
    pure [object]
  else
    let nSegments := ⌊(object.rawContent.length : ℚ) / MAX_SIZE_PACKET⌋₊
    fragmentLoop object.nameURI nSegments object.rawContent [] 0

end NDNContentObject

/-- The content objects of a content, as `ExecutionTaskInsert.run` makes them. -/
def fragments (content objectName : Str) : Option (List NDNContentObject) := do
  let bigContentObject ← NDNContentObject.new content objectName true (.isFinal true)
  bigContentObject.fragmentAtMaxNDNPacketSize

/-! ### Pieces -/

section Pieces

variable {α β : Type} {n : ℕ} {b sub : List α}

/-- The pieces of `n` that the loop makes of what has been read since the last one and what is
left. -/
def pieces (n : ℕ) : List α → List α → List (List α)
  | [], sub => if 0 < sub.length then [sub] else []
  | a :: b, sub =>
    if (sub ++ [a]).length = n then (sub ++ [a]) :: pieces n b [] else pieces n b (sub ++ [a])

/-- Nothing is lost. -/
theorem flatten_pieces (n : ℕ) (b sub : List α) : (pieces n b sub).flatten = sub ++ b := by
  induction b generalizing sub with
  | nil =>
    rw [pieces, List.append_nil]
    split
    · exact List.flatten_singleton
    · next h => exact (List.eq_nil_of_length_eq_zero (Nat.eq_zero_of_not_pos h)).symm
  | cons a b ih =>
    rw [pieces]
    split
    · rw [List.flatten_cons, ih, List.nil_append, List.append_assoc, List.singleton_append]
    · rw [ih, List.append_assoc, List.singleton_append]

/-- No piece is longer than it may be. -/
theorem length_le_of_mem_pieces (hsub : sub.length < n) {piece : List α}
    (h : piece ∈ pieces n b sub) : piece.length ≤ n := by
  -- The piece that is being filled is never longer than `n`.
  induction b generalizing sub with
  | nil =>
    rw [pieces] at h
    split at h
    · rw [List.mem_singleton.mp h]
      exact hsub.le
    · exact absurd h List.not_mem_nil
  | cons a b ih =>
    have hlength : (sub ++ [a]).length = sub.length + 1 := List.length_append
    rw [pieces] at h
    split at h
    · next hfull =>
      rcases List.mem_cons.mp h with rfl | h
      · exact hfull.le
      · exact ih (by rw [List.length_nil]; omega) h
    · next hfull => exact ih (by omega) h

/-- Every piece but the last is full. -/
theorem length_take_pieces (hsub : sub.length < n) {k : ℕ} (hk : k < (pieces n b sub).length) :
    ((pieces n b sub).take k).flatten.length = k * n := by
  -- Every piece but the last is full.
  induction b generalizing sub k with
  | nil =>
    rw [pieces] at hk ⊢
    split at hk
    · rw [List.length_singleton] at hk
      obtain rfl : k = 0 := by omega
      rw [List.take_zero, Nat.zero_mul]
      rfl
    · exact absurd hk (Nat.not_lt_zero k)
  | cons a b ih =>
    have hlength : (sub ++ [a]).length = sub.length + 1 := List.length_append
    rw [pieces] at hk ⊢
    split at hk
    · next hfull =>
      rw [if_pos hfull]
      cases k with
      | zero =>
        rw [List.take_zero, Nat.zero_mul]
        rfl
      -- the filled piece goes, and the next one starts empty
      | succ k =>
        have hnil : ([] : List α).length < n := by
          rw [List.length_nil]
          omega
        rw [List.take_succ_cons, List.flatten_cons, List.length_append, hfull,
          ih hnil (Nat.lt_of_succ_lt_succ hk), Nat.succ_mul, Nat.add_comm]
    · next hfull =>
      rw [if_neg hfull]
      exact ih (by omega) hk

/-- A number of full pieces is less than all of them if it does not reach the end. -/
theorem lt_length_pieces_iff (hsub : sub.length < n) {k : ℕ} :
    k < (pieces n b sub).length ↔ k * n < (sub ++ b).length := by
  -- By induction on the bytes that are left; a full piece is worth `n` of them.
  induction b generalizing sub k with
  | nil =>
    rw [pieces, List.append_nil]
    split
    · next hpos =>
      rw [List.length_singleton]
      constructor
      · intro hk
        obtain rfl : k = 0 := by omega
        rwa [Nat.zero_mul]
      · intro hk
        by_contra hone
        have hle : 1 * n ≤ k * n := Nat.mul_le_mul_right n (Nat.le_of_not_lt hone)
        omega
    · next hzero => exact iff_of_false (Nat.not_lt_zero k) (by omega)
  | cons a b ih =>
    have hlength : (sub ++ [a]).length = sub.length + 1 := List.length_append
    have hall : (sub ++ a :: b).length = (sub ++ [a]).length + b.length := by
      rw [List.length_append, List.length_cons, hlength]
      omega
    rw [pieces, hall]
    split
    · next hfull =>
      -- the piece is full here, so what follows is cut from an empty one
      have hrest := @ih []
      rw [List.nil_append] at hrest
      cases k with
      | zero => exact iff_of_true (Nat.zero_lt_succ _) (by omega)
      | succ k =>
        rw [List.length_cons, Nat.succ_lt_succ_iff, hrest (by rw [List.length_nil]; omega), hfull,
          Nat.succ_mul]
        omega
    · next hfull => rw [ih (by omega), List.length_append]

end Pieces

/-! ### Names of segments -/

section Segments

/-- The digits in base 256 are bytes. -/
theorem mem_bigEndian_lt {k n x : ℕ} (h : x ∈ bigEndian k n) : x < 256 := by
  induction k generalizing n with
  | zero => exact absurd h List.not_mem_nil
  | succ k ih =>
    rcases List.mem_append.mp h with h | h
    · exact ih h
    · rw [List.mem_singleton.mp h]
      exact Nat.mod_lt _ (by norm_num)

/-- A segment number is a component of bytes. -/
theorem wellFormed_fromSegment (n : ℕ) : (fromSegment n).WellFormed := by
  intro x hx
  rcases List.mem_cons.mp hx with rfl | hx
  · norm_num
  · exact mem_bigEndian_lt hx

/-- The component of the first segment, as it is written in the names. -/
theorem fromSegment_zero : fromSegment 0 = segmentZero := by decide

/-- A number and the next one are different components. -/
theorem fromSegment_succ_ne (n : ℕ) : fromSegment (n + 1) ≠ fromSegment n := by
  intro h
  have hoctets : bigEndian (segmentWidth (n + 1)) (n + 1) = bigEndian (segmentWidth n) n :=
    (List.cons.inj (Component.generic.inj h)).2
  have hwidth := congrArg List.length hoctets
  rw [length_bigEndian, length_bigEndian] at hwidth
  have hvalue := congrArg ofBigEndian hoctets
  rw [ofBigEndian_bigEndian, ofBigEndian_bigEndian, hwidth] at hvalue
  -- the octets would be those of two numbers that differ by a multiple of 256
  have hdvd : 256 ∣ 256 ^ segmentWidth n := by
    refine dvd_pow_self 256 ?_
    unfold segmentWidth
    split_ifs <;> norm_num
  have hmod : (n + 1) % 256 = n % 256 := by
    rw [← Nat.mod_mod_of_dvd (n + 1) hdvd, hvalue, Nat.mod_mod_of_dvd n hdvd]
  omega

end Segments

/-! ### What becomes of the pieces -/

section Fragments

variable {base : List Component} (hbase : ∀ c ∈ base, c.WellFormed)

/-- The content object that a piece becomes. -/
def pieceObject (base : List Component) (nSegments snCounter : ℕ) (piece : List UInt8) :
    NDNContentObject :=
  let data : Data := ⟨base ++ [fromSegment snCounter], (Utf8.recode piece).map byteChar,
    some (fromSegment nSegments)⟩
  ⟨data.name, data, data.content, data⟩

/-- The name of a segment replaces the last component. -/
theorem segmentOf_concat (last : Component) (snCounter : ℕ) :
    NDNContentObject.segmentOf (base ++ [last]) snCounter = base ++ [fromSegment snCounter] := by
  unfold NDNContentObject.segmentOf
  rw [List.dropLast_concat]

include hbase in
/-- The name of a segment is read back from its URI. -/
theorem set_segment (snCounter : ℕ) : Jndn.set (toUri (base ++ [fromSegment snCounter])) =
    some (base ++ [fromSegment snCounter]) := by
  refine set_toUri (List.append_ne_nil_of_right_ne_nil _ (List.cons_ne_nil _ _)) fun c hc => ?_
  rcases List.mem_append.mp hc with hc | hc
  · exact hbase c hc
  · rw [List.mem_singleton.mp hc]
    exact wellFormed_fromSegment snCounter

include hbase in
/-- A piece becomes an object unless its recoded bytes are too many for a packet. -/
theorem newPiece_eq (nSegments snCounter : ℕ) (piece : List UInt8) :
    NDNContentObject.newPiece (base ++ [segmentZero]) nSegments snCounter (piece.map byteChar) =
      if MAX_NDN_PACKET_SIZE < (Utf8.recode piece).length then none
      else some (pieceObject base nSegments snCounter piece) := by
  unfold NDNContentObject.newPiece NDNContentObject.new
  rw [segmentOf_concat, set_segment hbase, getBytes_newString]
  simp only [Option.bind_eq_bind, Option.bind_some, Final.finalBlockId, Bool.not_false,
    Bool.true_and, decide_eq_true_eq, List.length_map]
  rfl

include hbase in
/-- The loop makes a content object of each piece, if none has become too large. -/
theorem fragmentLoop_eq (nSegments snCounter : ℕ) (rawContent subData : List UInt8) :
    NDNContentObject.fragmentLoop (base ++ [segmentZero]) nSegments (rawContent.map byteChar)
        (subData.map byteChar) snCounter =
      if ∀ piece ∈ pieces MAX_SIZE_PACKET rawContent subData,
        (Utf8.recode piece).length ≤ MAX_NDN_PACKET_SIZE
      then some ((pieces MAX_SIZE_PACKET rawContent subData).mapIdx fun i piece =>
        pieceObject base nSegments (snCounter + i) piece)
      else none := by
  induction rawContent generalizing subData snCounter with
  | nil =>
    rw [List.map_nil, NDNContentObject.fragmentLoop, pieces, List.length_map]
    split
    · rw [newPiece_eq hbase]
      simp only [List.forall_mem_singleton, List.mapIdx_singleton, Nat.add_zero]
      split
      · next hlarge =>
        rw [if_neg (Nat.not_le_of_lt hlarge)]
        rfl
      · next hsmall =>
        rw [if_pos (Nat.le_of_not_lt hsmall)]
        rfl
    · rw [if_pos fun piece hpiece => absurd hpiece List.not_mem_nil]
      rfl
  | cons b rawContent ih =>
    have hsub : subData.map byteChar ++ [byteChar b] = (subData ++ [b]).map byteChar := by
      rw [List.map_append, List.map_singleton]
    rw [List.map_cons, NDNContentObject.fragmentLoop, pieces, hsub, List.length_map]
    split
    · have hrest := ih (snCounter + 1) []
      rw [List.map_nil] at hrest
      rw [newPiece_eq hbase, hrest]
      simp only [List.forall_mem_cons, List.mapIdx_cons, Nat.add_zero]
      -- the piece may be too large, or one of those that follow
      by_cases hfirst : (Utf8.recode (subData ++ [b])).length ≤ MAX_NDN_PACKET_SIZE
      · by_cases hothers : ∀ piece ∈ pieces MAX_SIZE_PACKET rawContent [],
            (Utf8.recode piece).length ≤ MAX_NDN_PACKET_SIZE
        · rw [if_neg (Nat.not_lt.mpr hfirst), if_pos hothers, if_pos ⟨hfirst, hothers⟩]
          simp only [Option.bind_eq_bind, Option.bind_some, Nat.add_assoc, Nat.add_comm 1]
          rfl
        · rw [if_neg (Nat.not_lt.mpr hfirst), if_neg hothers, if_neg fun h => hothers h.2]
          rfl
      · rw [if_pos (Nat.lt_of_not_le hfirst)]
        exact (if_neg fun h => hfirst h.1).symm
    · exact ih snCounter (subData ++ [b])

/-- The bytes of a text, cut into pieces. -/
def textPieces (s : Str) : List (List UInt8) := pieces MAX_SIZE_PACKET (Utf8.encode s) []

variable {s : Str}

/-- The code measures a text by its encoding. -/
theorem length_getBytes (s : Str) : (getBytes s).length = (Utf8.encode s).length := by
  rw [getBytes_eq, List.length_map]

include hbase in
/-- A content that fits into one packet is left as it is. -/
theorem fragments_short (h : (getBytes s).length ≤ MAX_SIZE_PACKET) :
    ∃ object, fragments s (toUri (base ++ [segmentZero])) = some [object] ∧
      object.data = ⟨base ++ [fromSegment 0], getBytes s, some (fromSegment 0)⟩ ∧
      object.signedContent = object.data := by
  have hset := set_segment hbase 0
  have hlast : (base ++ [fromSegment 0]).getLast? = some (fromSegment 0) := List.getLast?_concat
  rw [← fromSegment_zero]
  unfold fragments NDNContentObject.new NDNContentObject.fragmentAtMaxNDNPacketSize
  rw [hset]
  simp only [Option.bind_eq_bind, Option.bind_some, Final.finalBlockId, hlast, Option.map_some,
    Bool.not_true, Bool.false_and, Bool.false_eq_true, if_false, Option.pure_def]
  rw [if_pos h]
  simp only [NDNContentObject.appendSegment, segmentOf_concat]
  -- the end of the first name is the number it already had, whichever branch sets it
  split
  · simp only [NDNContentObject.setIsFinalBlock, Final.finalBlockId, hlast, Option.map_some,
      Option.bind_some]
    exact ⟨_, rfl, rfl, rfl⟩
  · exact ⟨_, rfl, rfl, rfl⟩

include hbase in
/-- Otherwise its pieces become content objects. -/
theorem fragments_long (h : MAX_SIZE_PACKET < (getBytes s).length) :
    fragments s (toUri (base ++ [segmentZero])) =
      if ∀ piece ∈ textPieces s, (Utf8.recode piece).length ≤ MAX_NDN_PACKET_SIZE
      then some ((textPieces s).mapIdx fun i piece =>
        pieceObject base ((getBytes s).length / MAX_SIZE_PACKET) i piece)
      else none := by
  have hset := set_segment hbase 0
  have hloop := fragmentLoop_eq hbase ((getBytes s).length / MAX_SIZE_PACKET) 0 (Utf8.encode s) []
  have hfloor : ⌊((getBytes s).length : ℚ) / MAX_SIZE_PACKET⌋₊ =
      (getBytes s).length / MAX_SIZE_PACKET := Nat.floor_div_eq_div _ _
  rw [fromSegment_zero] at hset
  rw [List.map_nil, ← getBytes_eq] at hloop
  simp only [Nat.zero_add] at hloop
  unfold fragments NDNContentObject.new NDNContentObject.fragmentAtMaxNDNPacketSize
  rw [hset]
  simp only [Option.bind_eq_bind, Option.bind_some, Final.finalBlockId, List.getLast?_concat,
    Option.map_some, Bool.not_true, Bool.false_and, Bool.false_eq_true, if_false, Option.pure_def]
  rw [if_neg (Nat.not_le_of_lt h), hfloor]
  exact hloop

/-- Each piece is the bytes of a text, if no piece ends within a character. -/
theorem encoded_textPieces_iff (s : Str) :
    (∀ piece ∈ textPieces s, ∃ t, piece = Utf8.encode t) ↔
      ∀ k, k * MAX_SIZE_PACKET < (getBytes s).length →
        Utf8.IsBoundary s (k * MAX_SIZE_PACKET) := by
  have hsize : ([] : List UInt8).length < MAX_SIZE_PACKET := by decide
  have hall : (textPieces s).flatten = Utf8.encode s := flatten_pieces _ _ _
  -- every piece is text of its own exactly when the cuts fall between characters
  rw [Utf8.pieces_encoded_iff hall, length_getBytes]
  refine forall_congr' fun k => ?_
  unfold textPieces
  constructor
  · intro h hk
    have hpiece : k < (pieces MAX_SIZE_PACKET (Utf8.encode s) []).length :=
      (lt_length_pieces_iff hsize).mpr hk
    have hboundary := h hpiece
    rwa [length_take_pieces hsize hpiece] at hboundary
  · intro h hpiece
    rw [length_take_pieces hsize hpiece]
    exact h ((lt_length_pieces_iff hsize).mp hpiece)

/-- No piece is longer than the size it is cut to. -/
theorem length_le_of_mem_textPieces {piece : List UInt8} (h : piece ∈ textPieces s) :
    piece.length ≤ MAX_SIZE_PACKET :=
  length_le_of_mem_pieces (by decide) h

/-- Pieces that are texts do not grow. -/
theorem length_recode_le (h : ∀ piece ∈ textPieces s, ∃ t, piece = Utf8.encode t)
    {piece : List UInt8} (hpiece : piece ∈ textPieces s) :
    (Utf8.recode piece).length ≤ MAX_SIZE_PACKET := by
  rw [Utf8.recode_eq_iff.mpr (h piece hpiece)]
  exact length_le_of_mem_textPieces hpiece

/-- The contents of the objects are the pieces, each recoded. -/
theorem map_content_pieceObjects (base : List Component) (nSegments : ℕ)
    (ps : List (List UInt8)) :
    ((ps.mapIdx fun i piece => pieceObject base nSegments i piece).map fun object =>
      object.data.content).flatten = (ps.map Utf8.recode).flatten.map byteChar := by
  have hcontents : (ps.mapIdx fun i piece => pieceObject base nSegments i piece).map
      (fun object => object.data.content) = (ps.map Utf8.recode).map (List.map byteChar) := by
    refine List.ext_getElem (by simp) fun i hi hi' => ?_
    simp only [List.getElem_map, List.getElem_mapIdx]
    rfl
  rw [hcontents, List.map_flatten]

include hbase in
/-- A content that is cut is kept if its pieces are texts. -/
theorem fragments_content_iff_encoded (hlong : MAX_SIZE_PACKET < (getBytes s).length) :
    (∃ objects, fragments s (toUri (base ++ [segmentZero])) = some objects ∧
      (objects.map fun object => object.data.content).flatten = getBytes s) ↔
      ∀ piece ∈ textPieces s, ∃ t, piece = Utf8.encode t := by
  have hall : (textPieces s).flatten = Utf8.encode s := flatten_pieces _ _ _
  rw [fragments_long hbase hlong]
  constructor
  · rintro ⟨objects, hobjects, hcontent⟩
    split at hobjects
    · obtain rfl := Option.some.inj hobjects
      rw [map_content_pieceObjects, getBytes_eq] at hcontent
      -- read as text and written again, a piece stays the same only when it is text
      rw [← Utf8.flatten_map_recode_iff, hall]
      exact byteChar_injective.list_map hcontent
    · exact absurd hobjects (by simp)
  · intro h
    -- a piece that is text does not grow, so none of them is too large for a packet
    have hfits : ∀ piece ∈ textPieces s, (Utf8.recode piece).length ≤ MAX_NDN_PACKET_SIZE :=
      fun piece hpiece => (length_recode_le h hpiece).trans (by decide)
    rw [if_pos hfits]
    refine ⟨_, rfl, ?_⟩
    rw [map_content_pieceObjects, Utf8.flatten_map_recode_iff.mpr h, hall, getBytes_eq]

include hbase in
/-- **The fragments hold the bytes of the content**, together, exactly if no piece of 8000 bytes
ends within a character. -/
theorem fragments_content_iff :
    (∃ objects, fragments s (toUri (base ++ [segmentZero])) = some objects ∧
      (objects.map fun object => object.data.content).flatten = getBytes s) ↔
      ∀ k, k * MAX_SIZE_PACKET < (getBytes s).length →
        Utf8.IsBoundary s (k * MAX_SIZE_PACKET) := by
  rcases Nat.lt_or_ge MAX_SIZE_PACKET (getBytes s).length with hlong | hshort
  · exact (fragments_content_iff_encoded hbase hlong).trans (encoded_textPieces_iff s)
  · obtain ⟨object, hfragments, hdata, -⟩ := fragments_short hbase hshort
    refine iff_of_true ⟨_, hfragments, ?_⟩ fun k hk => ?_
    · rw [List.map_singleton, List.flatten_singleton, hdata]
    · -- only the first piece begins before the end
      have hzero : k = 0 := by
        by_contra hone
        have hle := Nat.mul_le_mul_right MAX_SIZE_PACKET (Nat.one_le_iff_ne_zero.mpr hone)
        omega
      rw [hzero, Nat.zero_mul]
      exact Utf8.isBoundary_zero s

/-- The objects are numbered from segment 0 on behind the base, none has more bytes than a fragment
may have, and each announces the last of them. This is what has been signed, too. -/
def NumberedToEnd (base : List Component) (objects : List NDNContentObject) : Prop :=
  objects ≠ [] ∧ ∀ i (hi : i < objects.length),
    objects[i].data.name = base ++ [fromSegment i] ∧
    objects[i].data.content.length ≤ MAX_SIZE_PACKET ∧
    objects[i].data.finalBlockId = some (fromSegment (objects.length - 1)) ∧
    objects[i].signedContent = objects[i].data

/-- Any number of ASCII characters is as many bytes. -/
theorem isBoundary_of_isAscii (h : IsAscii s) {n : ℕ} (hn : n ≤ s.length) :
    Utf8.IsBoundary s n := by
  have htake : IsAscii (s.take n) := fun c hc => h c (List.mem_of_mem_take hc)
  refine ⟨s.take n, List.take_prefix n s, ?_⟩
  rw [← length_getBytes, getBytes_of_isAscii htake, List.length_take, Nat.min_eq_left hn]

/-- Whether the pieces of an ASCII content are numbered to the end is a matter of their number. -/
theorem numberedToEnd_pieces_iff (h : ∀ piece ∈ textPieces s, ∃ t, piece = Utf8.encode t)
    (hne : textPieces s ≠ []) (nSegments : ℕ) :
    NumberedToEnd base ((textPieces s).mapIdx fun i piece => pieceObject base nSegments i piece) ↔
      fromSegment nSegments = fromSegment ((textPieces s).length - 1) := by
  unfold NumberedToEnd
  simp only [List.length_mapIdx, List.getElem_mapIdx]
  constructor
  · rintro ⟨-, hall⟩
    exact Option.some.inj (hall 0 (List.length_pos_of_ne_nil hne)).2.2.1
  · intro hfinal
    refine ⟨?_, fun i hi => ⟨rfl, ?_, congrArg some hfinal, rfl⟩⟩
    · exact List.ne_nil_of_length_pos (by simpa using List.length_pos_of_ne_nil hne)
    · change ((Utf8.recode (textPieces s)[i]).map byteChar).length ≤ MAX_SIZE_PACKET
      rw [List.length_map]
      exact length_recode_le h (List.getElem_mem hi)

/-- The number of pieces is the length divided by their size, and one more for what is left over. -/
theorem length_textPieces (s : Str) : (textPieces s).length =
    (getBytes s).length / MAX_SIZE_PACKET +
      if MAX_SIZE_PACKET ∣ (getBytes s).length then 0 else 1 := by
  have hsize : MAX_SIZE_PACKET = 8000 := rfl
  have hlt : ∀ k, k < (textPieces s).length ↔ k * MAX_SIZE_PACKET < (getBytes s).length := by
    intro k
    rw [length_getBytes]
    exact lt_length_pieces_iff (by decide)
  -- the piece before the quotient begins before the end, the one after it does not
  have hbefore := hlt ((getBytes s).length / MAX_SIZE_PACKET - 1)
  have hat := hlt ((getBytes s).length / MAX_SIZE_PACKET)
  have hafter := hlt ((getBytes s).length / MAX_SIZE_PACKET + 1)
  rw [hsize] at hbefore hat hafter ⊢
  split <;> omega

include hbase in
/-- A content that is cut is numbered to the end if something is left over. -/
theorem numberedToEnd_iff_of_lt (hascii : IsAscii s) (hlong : MAX_SIZE_PACKET < s.length) :
    (∃ objects, fragments s (toUri (base ++ [segmentZero])) = some objects ∧
      NumberedToEnd base objects) ↔ ¬MAX_SIZE_PACKET ∣ s.length := by
  have hbytes : getBytes s = s := getBytes_of_isAscii hascii
  have htexts : ∀ piece ∈ textPieces s, ∃ t, piece = Utf8.encode t :=
    (encoded_textPieces_iff s).mpr fun k hk =>
      isBoundary_of_isAscii hascii (hbytes ▸ Nat.le_of_lt hk)
  have hfits : ∀ piece ∈ textPieces s, (Utf8.recode piece).length ≤ MAX_NDN_PACKET_SIZE :=
    fun piece hpiece => (length_recode_le htexts hpiece).trans (by decide)
  have hcount := length_textPieces s
  rw [hbytes] at hcount
  have hdiv : 0 < s.length / MAX_SIZE_PACKET := Nat.div_pos hlong.le (by decide)
  have hne : textPieces s ≠ [] := List.ne_nil_of_length_pos (by omega)
  rw [fragments_long hbase (hbytes.symm ▸ hlong), if_pos hfits, hbytes]
  simp only [Option.some.injEq, exists_eq_left']
  rw [numberedToEnd_pieces_iff htexts hne, hcount]
  -- the announced number is the quotient, and the last number one less than the pieces
  split
  · next hdvd =>
    refine iff_of_false ?_ (not_not.mpr hdvd)
    obtain ⟨n, hn⟩ := Nat.exists_eq_succ_of_ne_zero hdiv.ne'
    rw [Nat.add_zero, hn]
    exact fromSegment_succ_ne n
  · next hdvd => exact iff_of_true rfl hdvd

include hbase in
/-- **The fragments are numbered to the announced end**, exactly if there is one, or if the last
piece is not a full one. -/
theorem numberedToEnd_iff (hascii : IsAscii s) :
    (∃ objects, fragments s (toUri (base ++ [segmentZero])) = some objects ∧
      NumberedToEnd base objects) ↔
      s.length ≤ MAX_SIZE_PACKET ∨ ¬MAX_SIZE_PACKET ∣ s.length := by
  rcases Nat.lt_or_ge MAX_SIZE_PACKET s.length with hlong | hshort
  · rw [numberedToEnd_iff_of_lt hbase hascii hlong, or_iff_right (Nat.not_le_of_lt hlong)]
  · have hbytes : getBytes s = s := getBytes_of_isAscii hascii
    obtain ⟨object, hfragments, hdata, hsigned⟩ :=
      fragments_short (s := s) hbase (hbytes.symm ▸ hshort)
    refine iff_of_true ⟨_, hfragments, List.cons_ne_nil _ _, fun i hi => ?_⟩ (Or.inl hshort)
    obtain rfl : i = 0 := by
      rw [List.length_singleton] at hi
      omega
    rw [List.getElem_cons_zero, hsigned, hdata]
    exact ⟨rfl, hbytes.symm ▸ hshort, rfl, rfl⟩

end Fragments

/-! ### The names of the objects, and four contents -/

/-- What an object is inserted under is a name behind which segment 0 has been put. -/
theorem exists_base_of_insertObjectName {repoPrefix did nonce objectName : Str} {owner : User}
    (h : insertObjectName repoPrefix did owner nonce = some objectName) :
    ∃ base : List Component, (∀ c ∈ base, c.WellFormed) ∧
      objectName = toUri (base ++ [segmentZero]) := by
  obtain ⟨ndnName, hname, rfl⟩ := Option.map_eq_some_iff.mp h
  exact ⟨ndnName, wellFormed_of_set hname, rfl⟩

section Contents

/-- The name of an object, but for the segment. -/
private def objectBase : List Component := [.generic [111], .generic [49]]

private theorem wellFormed_objectBase : ∀ c ∈ objectBase, c.WellFormed := by
  intro c hc
  simp only [objectBase, List.mem_cons, List.not_mem_nil, or_false] at hc
  rcases hc with rfl | rfl <;> simp [Component.WellFormed]

private theorem isAscii_replicate (n : ℕ) : IsAscii (List.replicate n 'a') := fun c hc => by
  rw [List.eq_of_mem_replicate hc]
  decide

theorem numberedToEnd_8001 :
    ∃ objects, fragments (List.replicate 8001 'a') (toUri (objectBase ++ [segmentZero])) =
      some objects ∧ NumberedToEnd objectBase objects := by
  refine (numberedToEnd_iff wellFormed_objectBase (isAscii_replicate 8001)).mpr (Or.inr ?_)
  rw [List.length_replicate]
  decide

/-- Two full pieces, and segment 2 announced. -/
theorem not_numberedToEnd_16000 :
    ¬∃ objects, fragments (List.replicate 16000 'a') (toUri (objectBase ++ [segmentZero])) =
      some objects ∧ NumberedToEnd objectBase objects := by
  have hlength : (List.replicate 16000 'a').length = 16000 := List.length_replicate
  rw [numberedToEnd_iff_of_lt wellFormed_objectBase (isAscii_replicate 16000)
    (by rw [hlength]; decide), hlength]
  decide

theorem fragments_content_8001 :
    ∃ objects, fragments (List.replicate 8001 'a') (toUri (objectBase ++ [segmentZero])) =
      some objects ∧ (objects.map fun object => object.data.content).flatten =
        getBytes (List.replicate 8001 'a') := by
  refine (fragments_content_iff wellFormed_objectBase).mpr fun k hk => ?_
  rw [getBytes_of_isAscii (isAscii_replicate 8001)] at hk
  exact isBoundary_of_isAscii (isAscii_replicate 8001) hk.le

/-- The last character is two bytes, one on each side of the cut. -/
theorem fragments_content_lost :
    ¬∃ objects, fragments (List.replicate 7999 'a' ++ ['é'])
        (toUri (objectBase ++ [segmentZero])) = some objects ∧
      (objects.map fun object => object.data.content).flatten =
        getBytes (List.replicate 7999 'a' ++ ['é']) := by
  have hascii : ∀ n, (Utf8.encode (List.replicate n 'a')).length = n := fun n => by
    rw [← length_getBytes, getBytes_of_isAscii (isAscii_replicate n), List.length_replicate]
  have hlast : (Utf8.encode ['é']).length = 2 := by decide
  have hlength : (getBytes (List.replicate 7999 'a' ++ ['é'])).length = 8001 := by
    rw [length_getBytes, Utf8.encode_append, List.length_append, hascii, hlast]
  rw [fragments_content_iff_encoded wellFormed_objectBase (by rw [hlength]; decide),
    encoded_textPieces_iff]
  intro h
  -- no character ends at 8000: the text has prefixes of 7999 and of 8001 bytes there
  obtain ⟨t, ht, htake⟩ := h 1 (by rw [hlength]; decide)
  rcases List.prefix_concat_iff.mp ht with rfl | ht
  · rw [Utf8.encode_append, List.length_append, hascii, hlast] at htake
    exact absurd htake (by decide)
  · have ht' : t = List.replicate t.length 'a' :=
      List.eq_replicate_of_mem fun c hc => List.eq_of_mem_replicate (ht.subset hc)
    have hle := ht.length_le
    rw [List.length_replicate] at hle
    rw [ht', hascii] at htake
    rw [htake] at hle
    exact absurd hle (by decide)

end Contents

end Insert

end OpenGeoBase
