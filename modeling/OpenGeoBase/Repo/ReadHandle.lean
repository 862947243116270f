import OpenGeoBase.Ndn.Name
import OpenGeoBase.Repo.Database
import Mathlib.Algebra.Order.Floor.Semiring

/-!
# Replies of the repository

`ReadHandle::sendData` answers an interest with one segment of a byte string. It cuts
the whole string anew for each interest, names the segments after the interest without
its segment number, and puts the segment whose name is the interest's; segment 0, if
there is none. `readVersion` is one of its callers: the byte string is the JSON text of
the advertised names, read off the database for each interest.

A byte string is a `Str`, a character for each byte.
-/

namespace OpenGeoBase

open Text

/-! ### Segments -/

/-- `ndn::MAX_NDN_PACKET_SIZE`. -/
def MAX_NDN_PACKET_SIZE : ℕ := 8800

/-- The size of a segment. -/
def MAX_SIZE_PACKET : ℕ := MAX_NDN_PACKET_SIZE - 800

/-- The number of segments. -/
def segmentCount (content : Str) : ℕ := ⌈(content.length : ℚ) / MAX_SIZE_PACKET⌉₊

/-- The bytes of a segment. -/
def segmentData (content : Str) (i : ℕ) : Str :=
  let segmentSize := if i = segmentCount content - 1 then content.length - MAX_SIZE_PACKET * i
    else MAX_SIZE_PACKET
  (content.drop (i * MAX_SIZE_PACKET)).take segmentSize

/-- A data packet in answer to an interest, with its FinalBlockId if it has one. -/
structure Packet (names : NameLibrary) where
  name : names.Name
  content : Str
  finalBlockId : Option names.Component
  deriving DecidableEq

section SendData

variable (names : NameLibrary)

/-- The name of a segment. -/
def segmentName (name : names.Name) (i : ℕ) : names.Name := name ++ [names.fromSegment i]

/-- The packet of a segment. -/
def segmentPacket (name : names.Name) (content : Str) (i : ℕ) : Packet names where
  name := segmentName names name i
  content := segmentData content i
  finalBlockId := some (names.fromSegment (segmentCount content - 1))

/-- The packets of all segments. -/
def dataVector (name : names.Name) (content : Str) : List (Packet names) :=
  (List.range (segmentCount content)).map (segmentPacket names name content)

/-- The last segment of the given number that has the name, or 0. -/
def matchedIndex (name nameOrig : names.Name) : ℕ → ℕ
  | 0 => 0
  | i + 1 => if segmentName names name i = nameOrig then i else matchedIndex name nameOrig i

/-- `std::string::max_size`. -/
def maxStringSize : ℕ := 2 ^ 63 - 1

/-- `ReadHandle::sendData`: the packet put on the face, and the packets put in the cache. It
fails for an empty name; a longer string than there is cannot be built. -/
def sendData (nameOrig : names.Name) (content : Str) :
    Option (Packet names × List (Packet names)) := do
  let name ← names.withoutSegment nameOrig
  if content.length > maxStringSize then none
  else if segmentCount content = 0 then
    pure (⟨segmentName names name 0, [Char.ofNat 0], some (names.fromSegment 0)⟩, [])
  else pure (segmentPacket names name content
    (matchedIndex names name nameOrig (segmentCount content)), dataVector names name content)

end SendData

/-! ### The list of advertised names -/

/-- The byte string of `ReadHandle::readVersion`; `toJson` is `bsoncxx::to_json` on the
document of a name. -/
def versionReply (reponame : Str) (toJson : Str → Str) (db : Db) : Str :=
  let result := (",".toList).intercalate (db.indexNames.map toJson)
  let result := eraseAll "\x7b \"name\" : ".toList result
  let result := eraseAll " \x7d".toList result
  let result := eraseAll "\\".toList result
  let result := "[".toList ++ result ++ "]".toList
  "\x7b\"repo_name\": \"/repo/".toList ++ reponame ++ "\",\"prefix\": ".toList ++ result ++
    "\x7d".toList

/-- `bsoncxx::to_json` on a string, for the characters of a name: slashes are escaped. -/
def quotedJson (name : Str) : Str :=
  '"' :: (name.flatMap fun c => if c = '/' then ['\\', '/'] else [c]) ++ ['"']

/-- `bsoncxx::to_json` on the document of a name. -/
def nameDocument (name : Str) : Str :=
  "\x7b \"name\" : ".toList ++ quotedJson name ++ " \x7d".toList

/-- No brace, no blank and no backslash. -/
def PlainName (name : Str) : Prop := '\x7b' ∉ name ∧ ' ' ∉ name ∧ '\\' ∉ name

section PlainNames

variable {name : Str}

/-- Quoting adds quotes and backslashes only. -/
theorem not_mem_quotedJson {c : Char} (hc : c ≠ '"' ∧ c ≠ '\\') (h : c ∉ name) :
    c ∉ quotedJson name := by
  intro hmem
  -- a quote at either end, and between them the name with its slashes escaped
  rcases List.mem_cons.mp hmem with hmem | hmem
  · exact hc.1 hmem
  · rcases List.mem_append.mp hmem with hmem | hmem
    · obtain ⟨d, hd, hmem⟩ := List.mem_flatMap.mp hmem
      split at hmem
      · next hslash =>
        rcases List.mem_cons.mp hmem with hmem | hmem
        · exact hc.2 hmem
        · rw [List.mem_singleton.mp hmem, ← hslash] at h
          exact h hd
      · exact h (List.mem_singleton.mp hmem ▸ hd)
    · exact hc.1 (List.mem_singleton.mp hmem)

/-- Without its backslashes, a quoted name is the name in quotes. -/
theorem erases_quotedJson (h : '\\' ∉ name) :
    Erases "\\".toList (quotedJson name) ('"' :: name ++ ['"']) := by
  have hquote : Erases "\\".toList ['"'] ['"'] := Erases.of_not_mem (by decide)
  refine (hquote.append ?_).append hquote
  -- character by character: only the slash is written with a backslash before it
  induction name with
  | nil => exact Erases.nil
  | cons c name ih =>
    rw [List.mem_cons, not_or] at h
    rw [List.map_cons, List.flatten_cons]
    refine Erases.append (?_ : Erases _ _ [c]) (ih h.2)
    split
    · next hslash =>
      subst hslash
      have hslash : Erases "\\".toList ['/'] ['/'] := Erases.of_not_mem (by decide)
      exact (Erases.pattern (List.cons_ne_nil _ _)).append hslash
    · show Erases ['\\'] [c] [c]
      exact Erases.of_not_mem (by simpa using h.1)

/-- What the handle leaves of joined documents: the texts of their values, if neither an opening
brace nor a blank is in them. -/
theorem eraseAll_documents {α : Type} {before : Str} {value value' : α → Str} {xs : List α}
    (hopening : ∀ x ∈ xs, '\x7b' ∉ value x) (hblank : ∀ x ∈ xs, ' ' ∉ value x)
    (hbackslash : ∀ x ∈ xs, Erases "\\".toList (value x) (value' x)) :
    eraseAll "\\".toList (eraseAll " \x7d".toList (eraseAll ('\x7b' :: before)
      ((",".toList).intercalate
        (xs.map fun x => '\x7b' :: before ++ value x ++ " \x7d".toList)))) =
      (",".toList).intercalate (xs.map value') := by
  -- first goes what comes before the values, then what comes after them, then the backslashes
  have hfirst : Erases ('\x7b' :: before)
      ((",".toList).intercalate (xs.map fun x => '\x7b' :: before ++ value x ++ " \x7d".toList))
      ((",".toList).intercalate (xs.map fun x => value x ++ " \x7d".toList)) :=
    Erases.intercalate (Erases.of_not_mem (by simp)) fun x hx =>
      ((Erases.pattern (List.cons_ne_nil _ _)).append (Erases.of_not_mem (hopening x hx))).append
        (Erases.of_not_mem (by simp))
  have hsecond : Erases " \x7d".toList
      ((",".toList).intercalate (xs.map fun x => value x ++ " \x7d".toList))
      ((",".toList).intercalate (xs.map fun x => value x ++ [])) :=
    Erases.intercalate (Erases.of_not_mem (by decide)) fun x hx =>
      (Erases.of_not_mem (hblank x hx)).append (Erases.pattern (by decide))
  have hthird : Erases "\\".toList
      ((",".toList).intercalate (xs.map fun x => value x ++ []))
      ((",".toList).intercalate (xs.map value')) := by
    refine Erases.intercalate (Erases.of_not_mem (by decide)) fun x hx => ?_
    rw [List.append_nil]
    exact hbackslash x hx
  rw [hfirst.eq, hsecond.eq, hthird.eq]

/-- **The reply of the repository** is the JSON text of the list of the advertised names. -/
theorem versionReply_eq (reponame : Str) {db : Db} (h : ∀ name ∈ db.indexNames, PlainName name) :
    versionReply reponame nameDocument db =
      "\x7b\"repo_name\": \"/repo/".toList ++ reponame ++ "\",\"prefix\": ".toList ++
        ("[".toList ++ (",".toList).intercalate (db.indexNames.map fun name => '"' :: name ++ ['"'])
          ++ "]".toList) ++ "\x7d".toList := by
  -- the three erasures leave the names in their quotes
  have hnames : eraseAll "\\".toList (eraseAll " \x7d".toList
      (eraseAll "\x7b \"name\" : ".toList
        ((",".toList).intercalate (db.indexNames.map nameDocument)))) =
      (",".toList).intercalate (db.indexNames.map fun name => '"' :: name ++ ['"']) :=
    eraseAll_documents (fun name hname => not_mem_quotedJson (by decide) (h name hname).1)
      (fun name hname => not_mem_quotedJson (by decide) (h name hname).2.1)
      fun name hname => erases_quotedJson (h name hname).2.2
  unfold versionReply
  dsimp only
  rw [hnames]

end PlainNames

/-! ### The segments of a byte string -/

section Segments

variable {content : Str}

/-- So many segments are enough if they hold the content. -/
theorem segmentCount_le_iff {k : ℕ} :
    segmentCount content ≤ k ↔ content.length ≤ k * MAX_SIZE_PACKET := by
  have hpos : (0 : ℚ) < MAX_SIZE_PACKET := by exact_mod_cast (by decide : 0 < MAX_SIZE_PACKET)
  unfold segmentCount
  rw [Nat.ceil_le, div_le_iff₀ hpos]
  exact_mod_cast Iff.rfl

/-- Content that is not empty has a segment. -/
theorem segmentCount_pos (h : content ≠ []) : 0 < segmentCount content := by
  by_contra hzero
  have hlength := segmentCount_le_iff.mp (Nat.le_of_not_lt hzero)
  rw [Nat.zero_mul] at hlength
  exact h (List.length_eq_zero_iff.mp (Nat.le_zero.mp hlength))

/-- Every segment but the last is full. -/
theorem lt_length_of_lt_segmentCount {i : ℕ} (h : i < segmentCount content) :
    i * MAX_SIZE_PACKET < content.length := by
  by_contra hlength
  exact absurd (segmentCount_le_iff.mpr (Nat.le_of_not_lt hlength)) (Nat.not_le_of_lt h)

theorem segmentCount_le_length : segmentCount content ≤ content.length :=
  segmentCount_le_iff.mpr (Nat.le_mul_of_pos_right _ (by decide))

/-- A string has fewer segments than segment numbers. -/
theorem segmentCount_lt_of_le (h : content.length ≤ maxStringSize) :
    segmentCount content < 2 ^ 64 :=
  (segmentCount_le_length.trans h).trans_lt (by norm_num [maxStringSize])

/-- The data of a segment is its part of the content. -/
theorem segmentData_eq {i : ℕ} (h : i < segmentCount content) :
    segmentData content i = (content.drop (i * MAX_SIZE_PACKET)).take MAX_SIZE_PACKET := by
  unfold segmentData
  split
  · next hlast =>
    -- the last segment is what is left, and no longer than the others
    have hlength : content.length ≤ segmentCount content * MAX_SIZE_PACKET :=
      segmentCount_le_iff.mp le_rfl
    have hcount : segmentCount content = i + 1 := by omega
    rw [hcount, Nat.succ_mul] at hlength
    rw [Nat.mul_comm, List.take_of_length_le (by simp), List.take_of_length_le]
    rw [List.length_drop]
    omega
  · rfl

theorem length_segmentData_le {i : ℕ} (h : i < segmentCount content) :
    (segmentData content i).length ≤ MAX_SIZE_PACKET := by
  rw [segmentData_eq h]
  exact List.length_take_le _ _

/-- The first segments are the beginning of the byte string. -/
theorem flatten_segmentData_take {k : ℕ} (h : k ≤ segmentCount content) :
    ((List.range k).map (segmentData content)).flatten = content.take (k * MAX_SIZE_PACKET) := by
  induction k with
  | zero => simp
  | succ k ih =>
    rw [List.range_succ, List.map_append, List.flatten_append, ih (by omega), List.map_singleton,
      List.flatten_singleton, segmentData_eq (by omega), Nat.succ_mul, List.take_add]

/-- All the segments together are the byte string. -/
theorem flatten_segmentData :
    ((List.range (segmentCount content)).map (segmentData content)).flatten = content := by
  rw [flatten_segmentData_take le_rfl]
  exact List.take_of_length_le (segmentCount_le_iff.mp le_rfl)

end Segments

/-! ### The answers -/

section Answers

variable {names : NameLibrary} {content : Str}

/-- A name that matches no segment is answered with the first. -/
theorem matchedIndex_eq_zero {name nameOrig : names.Name} {n : ℕ}
    (h : ∀ i < n, segmentName names name i ≠ nameOrig) :
    matchedIndex names name nameOrig n = 0 := by
  induction n with
  | zero => rfl
  | succ n ih =>
    unfold matchedIndex
    rw [if_neg (h n (Nat.lt_succ_self n))]
    exact ih fun i hi => h i (Nat.lt_succ_of_lt hi)

/-- The name of a segment is answered with this segment. -/
theorem matchedIndex_segmentName (hnames : names.Segmented) (name : names.Name) {n i : ℕ}
    (hn : n < 2 ^ 64) (hi : i < n) :
    matchedIndex names name (segmentName names name i) n = i := by
  -- over the segments compared, from the last: numbers below `2 ^ 64` have names of their own
  induction n with
  | zero => exact absurd hi (Nat.not_lt_zero i)
  | succ n ih =>
    unfold matchedIndex
    split
    · next h =>
      have hlast := List.append_cancel_left h
      exact hnames.fromSegment_injOn (by omega) (by omega) (List.cons.inj hlast).1
    · next h =>
      rcases Nat.lt_succ_iff_lt_or_eq.mp hi with hi | rfl
      · exact ih (by omega) hi
      · exact absurd rfl h

/-- An interest for a segment is answered by that segment. -/
theorem sendData_segment (hnames : names.Segmented) (hne : content ≠ [])
    (hlength : content.length ≤ maxStringSize) (name : names.Name) {i : ℕ}
    (hi : i < segmentCount content) :
    sendData names (segmentName names name i) content =
      some (segmentPacket names name content i, dataVector names name content) := by
  have hcount : segmentCount content < 2 ^ 64 := segmentCount_lt_of_le hlength
  have hpos := segmentCount_pos hne
  have hwithout : names.withoutSegment (segmentName names name i) = some name :=
    hnames.withoutSegment_append name (show i < 2 ^ 64 by omega)
  unfold sendData
  rw [hwithout, Option.bind_eq_bind, Option.bind_some, if_neg (by omega), if_neg (by omega),
    matchedIndex_segmentName hnames name hcount hi]
  rfl

/-- An interest without a segment is answered by segment 0. -/
theorem sendData_plain (hne : content ≠ []) (hlength : content.length ≤ maxStringSize)
    {name : names.Name} {lastComponent : names.Component}
    (hlast : name.getLast? = some lastComponent) (hplain : names.isSegment lastComponent = false) :
    sendData names name content =
      some (segmentPacket names name content 0, dataVector names name content) := by
  have hpos := segmentCount_pos hne
  have hwithout : names.withoutSegment name = some name := by
    unfold NameLibrary.withoutSegment
    rw [hlast, Option.map_some, if_neg (by simp [hplain])]
  -- a name with a segment number is longer than this one
  have hmatch : matchedIndex names name name (segmentCount content) = 0 := by
    refine matchedIndex_eq_zero fun i _ h => ?_
    have hlen := congrArg List.length h
    simp [segmentName] at hlen
  unfold sendData
  rw [hwithout, Option.bind_eq_bind, Option.bind_some, if_neg (by omega), if_neg (by omega),
    hmatch]
  rfl

/-- Every name is answered with a segment that is there. -/
theorem matchedIndex_lt (name nameOrig : names.Name) {n : ℕ} (hn : 0 < n) :
    matchedIndex names name nameOrig n < n := by
  induction n with
  | zero => exact absurd hn (Nat.lt_irrefl 0)
  | succ n ih =>
    unfold matchedIndex
    split
    · exact Nat.lt_succ_self n
    · rcases Nat.eq_zero_or_pos n with rfl | hn
      · exact Nat.zero_lt_one
      · exact (ih hn).trans (Nat.lt_succ_self n)

/-- An answer to the interest it was asked for is a segment. -/
theorem sendData_eq_segmentPacket {nameOrig : names.Name} {data : Packet names}
    {cached : List (Packet names)} (hne : content ≠ [])
    (h : sendData names nameOrig content = some (data, cached)) :
    content.length ≤ maxStringSize ∧
      ∃ name, ∃ i < segmentCount content, data = segmentPacket names name content i := by
  have hpos := segmentCount_pos hne
  unfold sendData at h
  rw [Option.bind_eq_bind, Option.bind_eq_some_iff] at h
  obtain ⟨name, -, h⟩ := h
  split at h
  · exact absurd h (by simp)
  · next hlength =>
    rw [if_neg (by omega)] at h
    obtain ⟨rfl, -⟩ := Prod.mk.inj (Option.some.inj h)
    exact ⟨Nat.le_of_not_lt hlength, name, _, matchedIndex_lt name nameOrig hpos, rfl⟩

end Answers

end OpenGeoBase
