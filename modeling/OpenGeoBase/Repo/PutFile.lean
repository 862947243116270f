import OpenGeoBase.Lib.Blocks
import OpenGeoBase.Repo.ReadHandle
import OpenGeoBase.Repo.WriteHandle

/-!
# Putting a file

`ndnputfile` gives a file to the repository. The repository asks for the segments of the file, one
interest for each, and the tool puts a packet for it. The file is read once, in blocks of 1000
bytes and eleven segments ahead of the one that was asked for, and the packets made of it are kept.

`window` is how far the tool has read ahead after given interests. The distance between the last
packet made and the segment asked for is taken modulo 2^64, so an interest beyond what has been
read is no reason to read on; a packet is put if and only if its segment has been read by then, and
`onInterest_eq` says which. As long as every segment before it has been put, though, a segment is
put when it is asked for (`onInterest_next`).

A packet is signed when it is made. From the end of the file on the tool sets the FinalBlockId of a
packet before it puts it, and does not sign it again: `verifies_iff` says which signatures are
right.
-/

namespace OpenGeoBase

open Blocks Text

/-! ### The map of the packets -/

section Numbered

variable {β : Type}

/-- `std::map::insert`: an entry that is there stays. -/
def insertNew (k : ℕ) (x : β) : List (ℕ × β) → List (ℕ × β)
  | [] => [(k, x)]
  | (k', x') :: entries =>
    if k < k' then (k, x) :: (k', x') :: entries
    else if k = k' then (k', x') :: entries
    else (k', x') :: insertNew k x entries

/-- An entry is changed. -/
def setEntry (k : ℕ) (x : β) (entries : List (ℕ × β)) : List (ℕ × β) :=
  entries.map fun entry => if entry.1 = k then (k, x) else entry

/-- The map with the keys from 0 on. -/
def numbered (n : ℕ) (d : ℕ → β) : List (ℕ × β) := (List.range n).map fun k => (k, d k)

variable {n k : ℕ} {d : ℕ → β} {x : β}

/-- A key behind all others is put at the end. -/
theorem insertNew_of_forall_lt {entries : List (ℕ × β)} (h : ∀ entry ∈ entries, entry.1 < k) :
    insertNew k x entries = entries ++ [(k, x)] := by
  induction entries with
  | nil => rfl
  | cons entry entries ih =>
    have hlt : entry.1 < k := h entry List.mem_cons_self
    rw [insertNew, if_neg (by omega), if_neg (by omega),
      ih fun entry' hmem => h entry' (List.mem_cons_of_mem _ hmem), List.cons_append]

/-- One more entry comes last. -/
theorem numbered_succ (n : ℕ) (d : ℕ → β) : numbered (n + 1) d = numbered n d ++ [(n, d n)] := by
  rw [numbered, List.range_succ, List.map_append, List.map_singleton, ← numbered]

theorem numbered_congr {d' : ℕ → β} (h : ∀ k < n, d k = d' k) : numbered n d = numbered n d' :=
  List.map_congr_left fun k hk => by rw [h k (List.mem_range.mp hk)]

/-- The next number extends the map. -/
theorem insertNew_numbered :
    insertNew n x (numbered n d) = numbered (n + 1) (Function.update d n x) := by
  rw [insertNew_of_forall_lt, numbered_succ, Function.update_self]
  · refine congrArg (· ++ [(n, x)]) (numbered_congr fun k hk => ?_)
    rw [Function.update_of_ne (Nat.ne_of_lt hk)]
  · intro entry hentry
    obtain ⟨k, hk, rfl⟩ := List.mem_map.mp hentry
    exact List.mem_range.mp hk

/-- The map holds what was numbered and nothing else. -/
theorem lookup_numbered : (numbered n d).lookup k = if k < n then some (d k) else none := by
  induction n with
  | zero => rfl
  | succ n ih =>
    rw [numbered_succ, List.lookup_append, ih]
    by_cases hlt : k < n
    · rw [if_pos hlt, if_pos (Nat.lt_succ_of_lt hlt)]
      rfl
    · rw [if_neg hlt, Option.none_or, List.lookup_cons]
      by_cases heq : k = n
      · subst heq
        simp
      · rw [if_neg (by omega), beq_false_of_ne heq]
        rfl

/-- Replacing an entry replaces what is numbered there. -/
theorem setEntry_numbered :
    setEntry k x (numbered n d) = numbered n (Function.update d k x) := by
  unfold setEntry numbered
  rw [List.map_map]
  refine List.map_congr_left fun k' _ => ?_
  by_cases heq : k' = k
  · subst heq
    simp
  · simp [heq]

end Numbered

/-! ### The tool -/

/-- The bytes of a segment. -/
def DEFAULT_BLOCK_SIZE : ℕ := 1000

/-- So many packets are made ahead. -/
def PRE_SIGN_DATA_COUNT : ℕ := 11

/-- A data packet, with the packet that its signature was made for. -/
structure SignedPacket (names : NameLibrary) extends Packet names where
  signed : Packet names
  deriving DecidableEq

namespace SignedPacket

variable {names : NameLibrary}

/-- `KeyChain::sign`. -/
def sign (data : Packet names) : SignedPacket names := ⟨data, data⟩

/-- `Data::setFinalBlockId`; the signature stays. -/
def setFinalBlockId (data : SignedPacket names) (finalBlockId : names.Component) :
    SignedPacket names :=
  { data with finalBlockId := some finalBlockId }

/-- A packet is known by its two forms. -/
theorem eq_mk {data : SignedPacket names} {packet signed : Packet names}
    (hpacket : data.toPacket = packet) (hsigned : data.signed = signed) :
    data = ⟨packet, signed⟩ := by
  rw [← hpacket, ← hsigned]

/-- The signature is one for this packet. -/
def Verifies (data : SignedPacket names) : Prop := data.signed = data.toPacket

instance (data : SignedPacket names) : Decidable data.Verifies :=
  inferInstanceAs (Decidable (_ = _))

end SignedPacket

/-- `NdnPutFile`, as far as its answers depend on it. The stream is what is left to read. -/
structure NdnPutFile (names : NameLibrary) where
  isSingle : Bool
  m_dataPrefix : names.Name
  insertStream : Str
  m_currentSegmentNo : ℕ
  m_isFinished : Bool
  m_data : List (ℕ × SignedPacket names)

section Interests

variable (names : NameLibrary)

/-- The segment that an interest under a name asks for. -/
def requestedSegment (name interest : names.Name) : Option ℕ :=
  if interest.length ≠ name.length + 1 then none
  else
    match interest[name.length]? with
    | none => none
    | some segmentComponent =>
      match names.toSegment segmentComponent with
      | .error _ => none
      | .ok segmentNo => some (segmentNo % 2 ^ 64)

end Interests

namespace NdnPutFile

variable {names : NameLibrary} (s : NdnPutFile names)

/-- The tool before the first interest. -/
def start (m_dataPrefix : names.Name) (file : Str) : NdnPutFile names where
  isSingle := false
  m_dataPrefix := m_dataPrefix
  insertStream := file
  m_currentSegmentNo := 0
  m_isFinished := false
  m_data := []

/-- A turn of the loop in `prepareNextData`; it throws when there is nothing to read. -/
def prepareData : Option (NdnPutFile names) :=
  let buffer := s.insertStream.take DEFAULT_BLOCK_SIZE
  let rest := s.insertStream.drop DEFAULT_BLOCK_SIZE
  let segment := names.fromSegment s.m_currentSegmentNo
  if buffer.isEmpty then none
  else some { s with
    insertStream := rest
    m_currentSegmentNo := s.m_currentSegmentNo + 1
    m_isFinished := s.m_isFinished || rest.isEmpty
    m_data := insertNew s.m_currentSegmentNo (.sign
      { name := s.m_dataPrefix ++ [segment]
        content := buffer
        finalBlockId := if rest.isEmpty then some segment else none }) s.m_data }

/-- The loop in `prepareNextData`. -/
def prepareLoop : ℕ → NdnPutFile names → Option (NdnPutFile names)
  | 0, s => some s
  | nDataToPrepare + 1, s =>
    if s.m_isFinished then some s else s.prepareData.bind (prepareLoop nDataToPrepare)

/-- `NdnPutFile::prepareNextData`. -/
def prepareNextData (referenceSegmentNo : ℕ) : Option (NdnPutFile names) :=
  if s.m_isFinished then some s
  else
    match s.m_data.getLast? with
    | none => s.prepareLoop PRE_SIGN_DATA_COUNT
    | some (maxSegmentNo, _) =>
      let ahead := (maxSegmentNo + 2 ^ 64 - referenceSegmentNo) % 2 ^ 64
      if ahead ≥ PRE_SIGN_DATA_COUNT then some s else s.prepareLoop (PRE_SIGN_DATA_COUNT - ahead)

/-- The end of `onInterest`: the packet, if there is one, is put. -/
def putSegment (segmentNo : ℕ) : NdnPutFile names × Option (SignedPacket names) :=
  match s.m_data.lookup segmentNo with
  | none => (s, none)
  | some data =>
    if s.m_isFinished then
      let data := data.setFinalBlockId (names.fromSegment (s.m_currentSegmentNo - 1))
      ({ s with m_data := setEntry segmentNo data s.m_data }, some data)
    else (s, some data)

/-- `NdnPutFile::onInterest`: the packet that is put; `none` when an exception is thrown. -/
def onInterest (name interest : names.Name) :
    Option (NdnPutFile names × Option (SignedPacket names)) :=
  match requestedSegment names name interest with
  | none => some (s, none)
  | some segmentNo => (s.prepareNextData segmentNo).map fun s => s.putSegment segmentNo

/-- `NdnPutFile::onSingleInterest`. -/
def onSingleInterest (name interest : names.Name) :
    Option (NdnPutFile names × Option (SignedPacket names)) :=
  let buffer := s.insertStream.take DEFAULT_BLOCK_SIZE
  let rest := s.insertStream.drop DEFAULT_BLOCK_SIZE
  if name ≠ interest then some (s, none)
  else if buffer.isEmpty then none
  else if !rest.isEmpty then none
  else some ({ s with insertStream := rest, m_isFinished := true },
    some (.sign ⟨s.m_dataPrefix, buffer, none⟩))

/-- What the tool makes of the reply to a check command. -/
inductive CheckResult where
  | failed
  | stopped
  | checkAgain
  deriving DecidableEq

/-- `NdnPutFile::onCheckCommandResponse`. -/
def onCheckCommandResponse (response : InsertResponse) : CheckResult :=
  if response.statusCode ≥ 400 then .failed
  else if s.m_isFinished then
    let insertCount := response.insertNum.getD 0
    if s.isSingle && insertCount == 1 then .stopped
    else if insertCount = s.m_currentSegmentNo then .stopped
    else .checkAgain
  else .checkAgain

/-- Interests come one after the other. -/
def afterInterests (interests : List names.Name) : Option (NdnPutFile names) :=
  interests.foldlM (fun s interest => (s.onInterest s.m_dataPrefix interest).map Prod.fst) s

end NdnPutFile

/-! ### A file in a single packet -/

section Single

variable {names : NameLibrary} {m_dataPrefix : names.Name} {file : Str} {s : NdnPutFile names}
  {data : SignedPacket names}

/-- The tool that puts the file in a single packet. -/
def NdnPutFile.startSingle (m_dataPrefix : names.Name) (file : Str) : NdnPutFile names :=
  { NdnPutFile.start m_dataPrefix file with isSingle := true }

/-- A file that fits is put, with a signature of its own; -/
theorem onSingleInterest_iff :
    (∃ s', (NdnPutFile.startSingle m_dataPrefix file).onSingleInterest m_dataPrefix m_dataPrefix =
        some (s', some data)) ↔
      file ≠ [] ∧ file.length ≤ DEFAULT_BLOCK_SIZE ∧ data = .sign ⟨m_dataPrefix, file, none⟩ := by
  -- The source reads one block, then tests whether the stream has come to its end.
  have hbuffer : (file.take DEFAULT_BLOCK_SIZE).isEmpty = true ↔ file = [] := by
    rw [List.isEmpty_iff, List.take_eq_nil_iff]
    exact or_iff_right (by decide)
  have hrest : (file.drop DEFAULT_BLOCK_SIZE).isEmpty = true ↔
      file.length ≤ DEFAULT_BLOCK_SIZE := by
    rw [List.isEmpty_iff, List.drop_eq_nil_iff]
  unfold NdnPutFile.onSingleInterest NdnPutFile.startSingle NdnPutFile.start
  dsimp only
  rw [if_neg (not_not_intro rfl)]
  by_cases hfile : file = []
  · rw [if_pos (hbuffer.mpr hfile)]
    simp [hfile]
  · rw [if_neg (fun hempty => hfile (hbuffer.mp hempty))]
    by_cases hfits : file.length ≤ DEFAULT_BLOCK_SIZE
    · rw [if_neg (by rw [hrest.mpr hfits]; decide), List.take_of_length_le hfits]
      simp [hfile, hfits, eq_comm]
    · rw [if_pos (by rw [Bool.not_eq_true', ← Bool.not_eq_true, hrest]; exact hfits)]
      simp [hfits]

/-- When the single packet is asked for again, nothing is left to read, and the tool throws. -/
theorem onSingleInterest_again {s' : NdnPutFile names} {name : names.Name}
    (h : s.onSingleInterest name name = some (s', some data)) :
    s'.onSingleInterest name name = none := by
  unfold NdnPutFile.onSingleInterest at h
  dsimp only at h
  rw [if_neg (not_not_intro rfl)] at h
  split at h
  · exact absurd h (by simp)
  · split at h
    · exact absurd h (by simp)
    · next hrest =>
      obtain ⟨rfl, -⟩ := Prod.mk.inj (Option.some.inj h)
      -- The first interest has used up the stream, so the next one reads nothing and throws.
      have hnil : s.insertStream.drop DEFAULT_BLOCK_SIZE = [] := by simpa using hrest
      unfold NdnPutFile.onSingleInterest
      simp [hnil]

/-- No segment is counted for a single packet, so the tool stops on an `InsertNum` of 0, too. -/
theorem onCheckCommandResponse_single (hsingle : s.isSingle = true)
    (hcurrent : s.m_currentSegmentNo = 0) (response : InsertResponse) :
    s.onCheckCommandResponse response = .stopped ↔
      response.statusCode < 400 ∧ s.m_isFinished = true ∧ response.insertNum.getD 0 ≤ 1 := by
  unfold NdnPutFile.onCheckCommandResponse
  rw [hsingle, hcurrent]
  dsimp only
  by_cases hfailed : response.statusCode ≥ 400
  · simp [hfailed, Nat.not_lt_of_le hfailed]
  · rw [if_neg hfailed]
    by_cases hfinished : s.m_isFinished = true
    · rw [if_pos hfinished]
      -- For a single packet the number of the current segment was never counted up.
      by_cases hone : response.insertNum.getD 0 = 1
      · simp [hone, hfinished, Nat.lt_of_not_le hfailed]
      · by_cases hzero : response.insertNum.getD 0 = 0
        · simp [hzero, hfinished, Nat.lt_of_not_le hfailed]
        · have hmany : ¬ response.insertNum.getD 0 ≤ 1 := by omega
          simp [hone, hzero, hmany]
    · simp [hfinished]

end Single

/-! ### How far the tool reads ahead -/

/-- So many segments have been read after an interest, if the file is long enough. -/
def readAhead (w segmentNo : ℕ) : ℕ :=
  if w = 0 then PRE_SIGN_DATA_COUNT
  else if segmentNo < w then max w (segmentNo + PRE_SIGN_DATA_COUNT + 1)
  else w

/-- So many segments have been read after interests for the segments of a list. -/
def window (segments : List ℕ) : ℕ := segments.foldl readAhead 0

section Window

variable {w n segmentNo : ℕ} {segments : List ℕ}

/-- One more request moves the window on from where it was. -/
theorem window_concat (segments : List ℕ) (segmentNo : ℕ) :
    window (segments ++ [segmentNo]) = readAhead (window segments) segmentNo := by
  rw [window, List.foldl_append]
  rfl

/-- A request never moves the window back. -/
theorem le_readAhead (w segmentNo : ℕ) : w ≤ readAhead w segmentNo := by
  unfold readAhead
  split
  · omega
  · split <;> omega

/-- Further requests never move the window back. -/
theorem window_le_append (segments segments' : List ℕ) :
    window segments ≤ window (segments ++ segments') := by
  induction segments' using List.reverseRecOn with
  | nil => rw [List.append_nil]
  | append_singleton segments' segmentNo ih =>
    rw [← List.append_assoc, window_concat]
    exact ih.trans (le_readAhead _ _)

/-- The first interest has eleven segments read. -/
theorem le_window (h : segments ≠ []) : PRE_SIGN_DATA_COUNT ≤ window segments := by
  obtain ⟨segmentNo, segments, rfl⟩ := List.exists_cons_of_ne_nil h
  have hfirst : window [segmentNo] = PRE_SIGN_DATA_COUNT := rfl
  exact hfirst ▸ window_le_append [segmentNo] segments

/-- One of the interests came when its segment had been read. -/
def Served (segments : List ℕ) (segmentNo : ℕ) : Prop :=
  ∃ before after, segments = before ++ segmentNo :: after ∧
    segmentNo < window (before ++ [segmentNo])

/-- A later interest that is served has eleven more read. -/
theorem Served.lt_window {before after : List ℕ} (hsegments : segments = before ++ n :: after)
    (hserved : n < window (before ++ [n])) (hbefore : before ≠ []) :
    n + PRE_SIGN_DATA_COUNT < window segments := by
  have hle := window_le_append (before ++ [n]) after
  rw [List.append_assoc, List.singleton_append, ← hsegments] at hle
  have hwindow := le_window hbefore
  rw [window_concat, readAhead] at hserved hle
  -- A request in the window moved it on by the read-ahead, behind which it never goes.
  have hpos : window before ≠ 0 := by
    rw [PRE_SIGN_DATA_COUNT] at hwindow
    omega
  rw [if_neg hpos] at hserved hle
  split at hserved
  · next hlt =>
    rw [if_pos hlt] at hle
    omega
  · omega

/-- When every segment before it has been served, a segment has been read. -/
theorem lt_window_of_served (h : ∀ m < n, Served segments m) : n < window (segments ++ [n]) := by
  by_cases hsmall : n < PRE_SIGN_DATA_COUNT
  · exact hsmall.trans_le (le_window (by simp))
  · refine Nat.lt_of_lt_of_le ?_ (window_le_append segments [n])
    rw [PRE_SIGN_DATA_COUNT] at hsmall
    obtain ⟨before, after, hsegments, hserved⟩ := h (n - 1) (by omega)
    by_cases hbefore : before = []
    -- the segment before was served first, so it is the segment 10, and 0 came later
    · subst hbefore
      have hfirst : window ([] ++ [n - 1]) = 11 := rfl
      rw [hfirst] at hserved
      obtain ⟨before', after', hsegments', hserved'⟩ := h 0 (by omega)
      have hbefore' : before' ≠ [] := by
        rintro rfl
        rw [hsegments'] at hsegments
        have hhead := (List.cons.inj hsegments).1
        omega
      have hlt := Served.lt_window hsegments' hserved' hbefore'
      rw [PRE_SIGN_DATA_COUNT] at hlt
      omega
    · have hlt := Served.lt_window hsegments hserved hbefore
      rw [PRE_SIGN_DATA_COUNT] at hlt
      omega

end Window

/-! ### What has been read -/

/-- The number of segments of a file. -/
def blockCount (file : Str) : ℕ := count DEFAULT_BLOCK_SIZE file

section Packets

variable (names : NameLibrary) (m_dataPrefix : names.Name) (file : Str)

/-- The FinalBlockId of a file. -/
def finalSegment : names.Component := names.fromSegment (blockCount file - 1)

/-- The packet of a segment, as it is made. -/
def madePacket (segmentNo : ℕ) : Packet names where
  name := segmentName names m_dataPrefix segmentNo
  content := block DEFAULT_BLOCK_SIZE file segmentNo
  finalBlockId := if segmentNo + 1 = blockCount file then some (finalSegment names file) else none

/-- The packet of a segment, once the end of the file is known. -/
def finalPacket (segmentNo : ℕ) : Packet names :=
  { madePacket names m_dataPrefix file segmentNo with
    finalBlockId := some (finalSegment names file) }

/-- What is put for a segment when the tool has read so far ahead. -/
def answer (w segmentNo : ℕ) : Option (SignedPacket names) :=
  if segmentNo < min (blockCount file) w then
    some
      { toPacket := if blockCount file ≤ w then finalPacket names m_dataPrefix file segmentNo
          else madePacket names m_dataPrefix file segmentNo
        signed := madePacket names m_dataPrefix file segmentNo }
  else none

/-- The tool has read so far ahead, if the file is long enough. -/
structure Prepared (w : ℕ) (s : NdnPutFile names) : Prop where
  isSingle : s.isSingle = false
  dataPrefix : s.m_dataPrefix = m_dataPrefix
  stream : s.insertStream = file.drop (s.m_currentSegmentNo * DEFAULT_BLOCK_SIZE)
  current : s.m_currentSegmentNo = min (blockCount file) w
  finished : s.m_isFinished = true ↔ blockCount file ≤ w
  data : ∃ d, s.m_data = numbered s.m_currentSegmentNo d ∧ ∀ k < s.m_currentSegmentNo,
    (d k).signed = madePacket names m_dataPrefix file k ∧
      ((d k).toPacket = madePacket names m_dataPrefix file k ∨
        s.m_isFinished = true ∧ (d k).toPacket = finalPacket names m_dataPrefix file k)

end Packets

/-- A block is not empty. -/
theorem defaultBlockSize_pos : 0 < DEFAULT_BLOCK_SIZE := by decide

theorem blockCount_pos {file : Str} (hfile : file ≠ []) : 0 < blockCount file :=
  count_pos defaultBlockSize_pos hfile

namespace Prepared

variable {names : NameLibrary} {m_dataPrefix : names.Name} {file : Str} {w segmentNo : ℕ}
  {s : NdnPutFile names}

/-- In the beginning nothing is prepared. -/
theorem start (hfile : file ≠ []) :
    Prepared names m_dataPrefix file 0 (.start m_dataPrefix file) where
  isSingle := rfl
  dataPrefix := rfl
  stream := by simp [NdnPutFile.start]
  current := by simp [NdnPutFile.start]
  finished := by
    have hpos := blockCount_pos hfile
    simp only [NdnPutFile.start, Bool.false_eq_true, false_iff]
    omega
  data := ⟨fun _ => .sign ⟨[], [], none⟩, rfl, fun k hk => absurd hk (Nat.not_lt_zero k)⟩

/-- At the end of the file there is nothing further ahead. -/
theorem mono (h : Prepared names m_dataPrefix file w s) {w' : ℕ} (hend : blockCount file ≤ w)
    (hle : w ≤ w') : Prepared names m_dataPrefix file w' s where
  isSingle := h.isSingle
  dataPrefix := h.dataPrefix
  stream := h.stream
  current := by rw [h.current, Nat.min_eq_left hend, Nat.min_eq_left (hend.trans hle)]
  finished := by simp only [h.finished, hend, hend.trans hle]
  data := h.data

/-- One segment is read. -/
theorem prepareData (h : Prepared names m_dataPrefix file w s) (hw : w < blockCount file) :
    ∃ s', s.prepareData = some s' ∧ Prepared names m_dataPrefix file (w + 1) s' := by
  have hcurrent : s.m_currentSegmentNo = w := by
    rw [h.current, Nat.min_eq_right hw.le]
  have hfinished : s.m_isFinished = false := by
    rw [← Bool.not_eq_true, h.finished]
    exact Nat.not_le_of_lt hw
  have hbuffer : s.insertStream.take DEFAULT_BLOCK_SIZE = block DEFAULT_BLOCK_SIZE file w := by
    rw [h.stream, hcurrent, block]
  have hrest : s.insertStream.drop DEFAULT_BLOCK_SIZE =
      file.drop ((w + 1) * DEFAULT_BLOCK_SIZE) := by
    rw [h.stream, hcurrent, drop_drop_block]
  have hne : (block DEFAULT_BLOCK_SIZE file w).isEmpty = false := by
    rw [List.isEmpty_eq_false_iff, Ne, block_eq_nil_iff defaultBlockSize_pos]
    exact Nat.not_le_of_lt hw
  have hend : (file.drop ((w + 1) * DEFAULT_BLOCK_SIZE)).isEmpty = true ↔
      blockCount file ≤ w + 1 := by
    rw [List.isEmpty_iff]
    exact (count_le_iff defaultBlockSize_pos).symm
  obtain ⟨d, hdata, hd⟩ := h.data
  -- the packet is the one of the segment, with a FinalBlockId if the segment is the last
  have hpacket : (⟨s.m_dataPrefix ++ [names.fromSegment w], block DEFAULT_BLOCK_SIZE file w,
      if (file.drop ((w + 1) * DEFAULT_BLOCK_SIZE)).isEmpty = true then
        some (names.fromSegment w) else none⟩ : Packet names) =
      madePacket names m_dataPrefix file w := by
    unfold madePacket segmentName finalSegment
    rw [h.dataPrefix]
    by_cases hlast : w + 1 = blockCount file
    · rw [if_pos (hend.mpr hlast.ge), if_pos hlast, ← hlast, Nat.add_sub_cancel]
    · rw [if_neg (fun hempty => hlast (Nat.le_antisymm hw (hend.mp hempty))), if_neg hlast]
  unfold NdnPutFile.prepareData
  simp only [hbuffer, hrest, hcurrent, hne, hfinished, Bool.false_eq_true, if_false,
    Bool.false_or, hpacket]
  refine ⟨_, rfl, h.isSingle, h.dataPrefix, rfl, ?_, hend, ?_⟩
  · exact (Nat.min_eq_right hw).symm
  · refine ⟨Function.update d w (.sign (madePacket names m_dataPrefix file w)), ?_, ?_⟩
    · rw [hdata, hcurrent]
      exact insertNew_numbered
    · intro k hk
      rcases Nat.lt_succ_iff_lt_or_eq.mp hk with hlt | rfl
      · rw [Function.update_of_ne (Nat.ne_of_lt hlt)]
        obtain ⟨hsigned, hmade | ⟨hnot, -⟩⟩ := hd k (hcurrent ▸ hlt)
        · exact ⟨hsigned, .inl hmade⟩
        · rw [hfinished] at hnot
          exact absurd hnot Bool.false_ne_true
      · rw [Function.update_self]
        exact ⟨rfl, .inl rfl⟩

/-- Each turn of the loop prepares one packet while the file lasts. -/
theorem prepareLoop (h : Prepared names m_dataPrefix file w s) (nDataToPrepare : ℕ) :
    ∃ s', s.prepareLoop nDataToPrepare = some s' ∧
      Prepared names m_dataPrefix file (w + nDataToPrepare) s' := by
  induction nDataToPrepare generalizing w s with
  | zero => exact ⟨s, rfl, h⟩
  | succ nDataToPrepare ih =>
    unfold NdnPutFile.prepareLoop
    -- At the end of the file the loop breaks; before it one packet more is prepared.
    by_cases hfinished : s.m_isFinished = true
    · rw [if_pos hfinished]
      exact ⟨s, rfl, h.mono (h.finished.mp hfinished) (Nat.le_add_right _ _)⟩
    · rw [if_neg hfinished]
      rw [h.finished] at hfinished
      obtain ⟨s', hs', h'⟩ := h.prepareData (Nat.lt_of_not_le hfinished)
      rw [hs', Option.bind_some]
      obtain ⟨s'', hs'', h''⟩ := ih h'
      refine ⟨s'', hs'', ?_⟩
      rwa [Nat.add_right_comm] at h''

/-- What is read for an interest. -/
theorem prepareNextData (h : Prepared names m_dataPrefix file w s)
    (hcount : blockCount file ≤ 2 ^ 64) (hsegment : segmentNo < 2 ^ 64)
    (hw : w = 0 ∨ PRE_SIGN_DATA_COUNT ≤ w) :
    ∃ s', s.prepareNextData segmentNo = some s' ∧
      Prepared names m_dataPrefix file (readAhead w segmentNo) s' := by
  unfold NdnPutFile.prepareNextData
  by_cases hfinished : s.m_isFinished = true
  · rw [if_pos hfinished]
    exact ⟨s, rfl, h.mono (h.finished.mp hfinished) (le_readAhead _ _)⟩
  · rw [if_neg hfinished]
    rw [h.finished, not_le] at hfinished
    have hcurrent : s.m_currentSegmentNo = w := by
      rw [h.current, Nat.min_eq_right hfinished.le]
    obtain ⟨d, hdata, -⟩ := h.data
    rw [hdata, hcurrent]
    cases w with
    | zero =>
      have hloop := h.prepareLoop PRE_SIGN_DATA_COUNT
      rwa [Nat.zero_add] at hloop
    | succ last =>
      have hlast : (numbered (last + 1) d).getLast? = some (last, d last) := by
        rw [numbered_succ, List.getLast?_concat]
      rw [PRE_SIGN_DATA_COUNT] at hw
      rw [hlast, readAhead, if_neg (Nat.succ_ne_zero last), PRE_SIGN_DATA_COUNT]
      dsimp only
      by_cases hlt : segmentNo < last + 1
      -- the segment has been read, and the difference is what has been read beyond it
      · have hahead : (last + 2 ^ 64 - segmentNo) % 2 ^ 64 = last - segmentNo := by omega
        rw [hahead, if_pos hlt]
        split
        · next hmany =>
          rw [Nat.max_eq_left (by omega)]
          exact ⟨s, rfl, h⟩
        · next hfew =>
          have hsum : last + 1 + (11 - (last - segmentNo)) =
              max (last + 1) (segmentNo + 11 + 1) := by
            omega
          exact hsum ▸ h.prepareLoop (11 - (last - segmentNo))
      -- the segment lies beyond, and the difference falls below 0
      · have hahead : (last + 2 ^ 64 - segmentNo) % 2 ^ 64 ≥ 11 := by omega
        rw [if_pos hahead, if_neg hlt]
        exact ⟨s, rfl, h⟩

/-- What is put when the tool has read on. -/
theorem putSegment (h : Prepared names m_dataPrefix file w s) (segmentNo : ℕ) :
    ∃ s', s.putSegment segmentNo = (s', answer names m_dataPrefix file w segmentNo) ∧
      Prepared names m_dataPrefix file w s' := by
  obtain ⟨d, hdata, hd⟩ := h.data
  unfold NdnPutFile.putSegment answer
  rw [hdata, lookup_numbered, ← h.current]
  by_cases hlt : segmentNo < s.m_currentSegmentNo
  · rw [if_pos hlt, if_pos hlt]
    dsimp only
    obtain ⟨hsigned, hpacket⟩ := hd segmentNo hlt
    -- Once the last packet is prepared the FinalBlockId is set on the packet that is put, signed or
    -- not.
    by_cases hend : blockCount file ≤ w
    · rw [if_pos (h.finished.mpr hend), if_pos hend]
      have hcurrent : s.m_currentSegmentNo = blockCount file := by
        rw [h.current, Nat.min_eq_left hend]
      have hset : (d segmentNo).setFinalBlockId (names.fromSegment (s.m_currentSegmentNo - 1)) =
          ⟨finalPacket names m_dataPrefix file segmentNo,
            madePacket names m_dataPrefix file segmentNo⟩ := by
        rw [hcurrent]
        rcases hpacket with hmade | ⟨-, hfinal⟩
        · rw [SignedPacket.eq_mk hmade hsigned]
          rfl
        · rw [SignedPacket.eq_mk hfinal hsigned]
          rfl
      rw [hset, setEntry_numbered]
      refine ⟨_, rfl, h.isSingle, h.dataPrefix, h.stream, h.current, h.finished, _, rfl,
        fun k hk => ?_⟩
      by_cases heq : k = segmentNo
      · subst heq
        rw [Function.update_self]
        exact ⟨rfl, .inr ⟨h.finished.mpr hend, rfl⟩⟩
      · rw [Function.update_of_ne heq]
        exact hd k hk
    · have hfinished : ¬ s.m_isFinished = true := fun hfinished => hend (h.finished.mp hfinished)
      rw [if_neg hfinished, if_neg hend]
      refine ⟨s, ?_, h⟩
      rcases hpacket with hmade | ⟨hnot, -⟩
      · rw [SignedPacket.eq_mk hmade hsigned]
      · exact absurd hnot hfinished
  · rw [if_neg hlt, if_neg hlt]
    exact ⟨s, rfl, h⟩

end Prepared

/-! ### What is put -/

section Runs

variable {names : NameLibrary} {m_dataPrefix : names.Name} {file : Str}

/-- The number of a requested segment fits 64 bits. -/
theorem requestedSegment_lt {name interest : names.Name} {segmentNo : ℕ}
    (h : requestedSegment names name interest = some segmentNo) : segmentNo < 2 ^ 64 := by
  unfold requestedSegment at h
  split at h
  · exact absurd h (by simp)
  · split at h
    · exact absurd h (by simp)
    · split at h
      · exact absurd h (by simp)
      · obtain rfl := Option.some.inj h
        exact Nat.mod_lt _ (by norm_num)

/-- The segments that interests ask for. -/
def requestedSegments (names : NameLibrary) (name : names.Name) (interests : List names.Name) :
    List ℕ :=
  interests.filterMap (requestedSegment names name)

/-- One more interest is one more request at most. -/
theorem requestedSegments_concat (name : names.Name) (interests : List names.Name)
    (interest : names.Name) :
    requestedSegments names name (interests ++ [interest]) =
      requestedSegments names name interests ++ (requestedSegment names name interest).toList := by
  unfold requestedSegments
  rw [List.filterMap_append]
  cases h : requestedSegment names name interest <;> simp [h]

/-- An interest after interests for segments. -/
theorem Prepared.onInterest {s : NdnPutFile names} {segments : List ℕ}
    (h : Prepared names m_dataPrefix file (window segments) s)
    (hcount : blockCount file ≤ 2 ^ 64) (interest : names.Name) :
    ∃ s', s.onInterest m_dataPrefix interest = some (s',
        (requestedSegment names m_dataPrefix interest).bind fun segmentNo =>
          answer names m_dataPrefix file (window (segments ++ [segmentNo])) segmentNo) ∧
      Prepared names m_dataPrefix file
        (window (segments ++ (requestedSegment names m_dataPrefix interest).toList)) s' := by
  unfold NdnPutFile.onInterest
  cases hrequested : requestedSegment names m_dataPrefix interest with
  | none => exact ⟨s, rfl, by simpa using h⟩
  | some segmentNo =>
    -- The window is empty or as long as the read-ahead, so it covers what is asked for next.
    have hw : window segments = 0 ∨ PRE_SIGN_DATA_COUNT ≤ window segments := by
      rcases eq_or_ne segments [] with rfl | hne
      · exact .inl rfl
      · exact .inr (le_window hne)
    obtain ⟨s₁, hs₁, h₁⟩ := h.prepareNextData hcount (requestedSegment_lt hrequested) hw
    rw [← window_concat] at h₁
    obtain ⟨s₂, hs₂, h₂⟩ := h₁.putSegment segmentNo
    refine ⟨s₂, ?_, h₂⟩
    dsimp only
    rw [hs₁, Option.map_some, hs₂, Option.bind_some]

/-- After any interests the packets up to the window are prepared. -/
theorem prepared_afterInterests (hfile : file ≠ []) (hcount : blockCount file ≤ 2 ^ 64)
    (interests : List names.Name) :
    ∃ s, (NdnPutFile.start m_dataPrefix file).afterInterests interests = some s ∧
      Prepared names m_dataPrefix file
        (window (requestedSegments names m_dataPrefix interests)) s := by
  -- The last interest is answered with what the ones before it have prepared.
  induction interests using List.reverseRecOn with
  | nil => exact ⟨_, rfl, .start hfile⟩
  | append_singleton interests interest ih =>
    obtain ⟨s, hs, h⟩ := ih
    obtain ⟨s', hs', h'⟩ := h.onInterest hcount interest
    refine ⟨s', ?_, ?_⟩
    · unfold NdnPutFile.afterInterests at hs ⊢
      rw [List.foldlM_append, hs, Option.bind_eq_bind, Option.bind_some, List.foldlM_cons,
        h.dataPrefix, hs']
      rfl
    · rw [requestedSegments_concat]
      exact h'

/-- **The answers of the tool.** For a file that is not empty, after any interests the tool has not
failed, and what it puts for the next one is the packet of the segment that is asked for if it has
been read by then, and nothing else. -/
theorem onInterest_eq (hfile : file ≠ []) (hcount : blockCount file ≤ 2 ^ 64)
    (interests : List names.Name) (interest : names.Name) :
    ∃ s s', (NdnPutFile.start m_dataPrefix file).afterInterests interests = some s ∧
      s.onInterest m_dataPrefix interest = some (s',
        (requestedSegment names m_dataPrefix interest).bind fun segmentNo =>
          answer names m_dataPrefix file
            (window (requestedSegments names m_dataPrefix interests ++ [segmentNo]))
            segmentNo) := by
  obtain ⟨s, hs, h⟩ := prepared_afterInterests hfile hcount interests
  obtain ⟨s', hs', -⟩ := h.onInterest hcount interest
  exact ⟨s, s', hs, hs'⟩

/-- An answer is the prepared packet of a block in the window. -/
theorem of_answer {w segmentNo : ℕ} {data : SignedPacket names}
    (h : answer names m_dataPrefix file w segmentNo = some data) :
    segmentNo < blockCount file ∧ segmentNo < w ∧
      data.signed = madePacket names m_dataPrefix file segmentNo ∧
      data.toPacket = if blockCount file ≤ w then finalPacket names m_dataPrefix file segmentNo
        else madePacket names m_dataPrefix file segmentNo := by
  unfold answer at h
  split at h
  · next hlt =>
    obtain rfl := Option.some.inj h
    exact ⟨hlt.trans_le (Nat.min_le_left _ _), hlt.trans_le (Nat.min_le_right _ _), rfl, rfl⟩
  · exact absurd h (by simp)

/-- A segment that has been read is put. -/
theorem exists_put (hfile : file ≠ []) (hcount : blockCount file ≤ 2 ^ 64)
    {interests : List names.Name} {interest : names.Name} {n : ℕ}
    (hrequested : requestedSegment names m_dataPrefix interest = some n)
    (hn : n < blockCount file)
    (hwindow : n < window (requestedSegments names m_dataPrefix interests ++ [n])) :
    ∃ s s' data, (NdnPutFile.start m_dataPrefix file).afterInterests interests = some s ∧
      s.onInterest m_dataPrefix interest = some (s', some data) ∧
      data.name = segmentName names m_dataPrefix n ∧
      data.content = block DEFAULT_BLOCK_SIZE file n := by
  obtain ⟨s, hs, h⟩ := prepared_afterInterests hfile hcount interests
  obtain ⟨s', hs', -⟩ := h.onInterest hcount interest
  rw [hrequested, Option.bind_some, answer, if_pos (lt_min hn hwindow)] at hs'
  refine ⟨s, s', _, hs, hs', ?_, ?_⟩
  · dsimp only
    split <;> rfl
  · dsimp only
    split <;> rfl

/-- What has been put has been asked for and read. -/
theorem exists_of_onInterest (hfile : file ≠ []) (hcount : blockCount file ≤ 2 ^ 64)
    {interests : List names.Name} {interest : names.Name} {s s' : NdnPutFile names}
    {data : SignedPacket names}
    (hs : (NdnPutFile.start m_dataPrefix file).afterInterests interests = some s)
    (h : s.onInterest m_dataPrefix interest = some (s', some data)) :
    ∃ segmentNo, requestedSegment names m_dataPrefix interest = some segmentNo ∧
      answer names m_dataPrefix file
        (window (requestedSegments names m_dataPrefix interests ++ [segmentNo])) segmentNo =
          some data ∧
      Prepared names m_dataPrefix file
        (window (requestedSegments names m_dataPrefix interests ++ [segmentNo])) s' := by
  obtain ⟨s₀, hs₀, h₀⟩ := prepared_afterInterests hfile hcount interests
  obtain rfl := Option.some.inj (hs₀.symm.trans hs)
  obtain ⟨s₁, hs₁, h₁⟩ := h₀.onInterest hcount interest
  obtain ⟨rfl, hput⟩ := Prod.mk.inj (Option.some.inj (hs₁.symm.trans h))
  obtain ⟨segmentNo, hrequested, hanswer⟩ := Option.bind_eq_some_iff.mp hput
  rw [hrequested] at h₁
  exact ⟨segmentNo, hrequested, hanswer, h₁⟩

/-- Segments below 2^64 have names of their own. -/
theorem segmentName_inj (hnames : names.Segmented) {name : names.Name} {i j : ℕ}
    (hi : i < 2 ^ 64) (hj : j < 2 ^ 64) (h : segmentName names name i = segmentName names name j) :
    i = j :=
  hnames.fromSegment_injOn hi hj (List.cons.inj (List.append_cancel_left h)).1

/-- **The signatures.** A packet that is put carries a signature of its own if and only if the tool
has not read the end of the file, or the packet is the last one. -/
theorem verifies_iff (hnames : names.Segmented) (hfile : file ≠ [])
    (hcount : blockCount file ≤ 2 ^ 64) {interests : List names.Name} {interest : names.Name}
    {s s' : NdnPutFile names} {data : SignedPacket names}
    (hs : (NdnPutFile.start m_dataPrefix file).afterInterests interests = some s)
    (h : s.onInterest m_dataPrefix interest = some (s', some data)) :
    data.Verifies ↔
      s'.m_isFinished = false ∨
        data.name = segmentName names m_dataPrefix (blockCount file - 1) := by
  obtain ⟨segmentNo, -, hanswer, h'⟩ := exists_of_onInterest hfile hcount hs h
  obtain ⟨hlt, -, hsigned, hpacket⟩ := of_answer hanswer
  have hpos := blockCount_pos hfile
  unfold SignedPacket.Verifies
  rw [hsigned, hpacket, ← Bool.not_eq_true, h'.finished]
  split
  · next hend =>
    have hname : (finalPacket names m_dataPrefix file segmentNo).name =
        segmentName names m_dataPrefix segmentNo := rfl
    rw [hname]
    constructor
    -- a FinalBlockId under the signature is the one of the last packet
    · intro heq
      have hfinal := congrArg Packet.finalBlockId heq
      by_cases hlast : segmentNo + 1 = blockCount file
      · exact .inr (by rw [← hlast, Nat.add_sub_cancel])
      · rw [madePacket, if_neg hlast] at hfinal
        exact absurd hfinal.symm (by simp [finalPacket])
    · rintro (hnot | hlast)
      · exact absurd hend hnot
      · have hno := segmentName_inj hnames (by omega) (by omega) hlast
        unfold finalPacket madePacket
        rw [if_pos (by omega)]
  · next hend => exact ⟨fun _ => .inl hend, fun _ => rfl⟩

/-- The end of a small file is read at once, and the last packet alone keeps its signature. -/
theorem verifies_iff_of_blockCount_le (hnames : names.Segmented) (hfile : file ≠ [])
    (hsmall : blockCount file ≤ PRE_SIGN_DATA_COUNT) {interests : List names.Name}
    {interest : names.Name} {s s' : NdnPutFile names} {data : SignedPacket names}
    (hs : (NdnPutFile.start m_dataPrefix file).afterInterests interests = some s)
    (h : s.onInterest m_dataPrefix interest = some (s', some data)) :
    data.Verifies ↔ data.name = segmentName names m_dataPrefix (blockCount file - 1) := by
  have hcount : blockCount file ≤ 2 ^ 64 := hsmall.trans (by decide)
  obtain ⟨segmentNo, -, -, h'⟩ := exists_of_onInterest hfile hcount hs h
  have hfinished : s'.m_isFinished = true :=
    h'.finished.mpr (hsmall.trans (le_window (by simp)))
  rw [verifies_iff hnames hfile hcount hs h, hfinished, or_iff_right (by simp)]

/-- The packet of a segment has been put for one of the interests. -/
def WasPut (m_dataPrefix : names.Name) (file : Str) (interests : List names.Name)
    (segmentNo : ℕ) : Prop :=
  ∃ before interest after, interests = before ++ interest :: after ∧
    ∃ s s' data, (NdnPutFile.start m_dataPrefix file).afterInterests before = some s ∧
      s.onInterest m_dataPrefix interest = some (s', some data) ∧
      data.name = segmentName names m_dataPrefix segmentNo

/-- A packet that was put answered a request for it. -/
theorem WasPut.served (hnames : names.Segmented) (hfile : file ≠ [])
    (hcount : blockCount file ≤ 2 ^ 64) {interests : List names.Name} {segmentNo : ℕ}
    (hsegment : segmentNo < 2 ^ 64) (h : WasPut m_dataPrefix file interests segmentNo) :
    Served (requestedSegments names m_dataPrefix interests) segmentNo := by
  obtain ⟨before, interest, after, rfl, s, s', data, hs, hput, hname⟩ := h
  obtain ⟨segmentNo', hrequested, hanswer, -⟩ := exists_of_onInterest hfile hcount hs hput
  obtain ⟨hlt, hwindow, -, hpacket⟩ := of_answer hanswer
  have hname' : data.name = segmentName names m_dataPrefix segmentNo' := by
    rw [hpacket]
    split <;> rfl
  obtain rfl := segmentName_inj hnames hsegment (by omega) (hname.symm.trans hname')
  refine ⟨requestedSegments names m_dataPrefix before,
    requestedSegments names m_dataPrefix after, ?_, hwindow⟩
  simp only [requestedSegments, List.filterMap_append, List.filterMap_cons, hrequested]

/-- **Nothing is left out.** When all the segments before it have been put, an interest for a
segment of the file is answered with its block. -/
theorem onInterest_next (hnames : names.Segmented) (hfile : file ≠ [])
    (hcount : blockCount file ≤ 2 ^ 64) {interests : List names.Name} {interest : names.Name}
    {n : ℕ} (hput : ∀ m < n, WasPut m_dataPrefix file interests m) (hn : n < blockCount file)
    (hrequested : requestedSegment names m_dataPrefix interest = some n) :
    ∃ s s' data, (NdnPutFile.start m_dataPrefix file).afterInterests interests = some s ∧
      s.onInterest m_dataPrefix interest = some (s', some data) ∧
      data.name = segmentName names m_dataPrefix n ∧
      data.content = block DEFAULT_BLOCK_SIZE file n := by
  exact exists_put hfile hcount hrequested hn
    (lt_window_of_served fun m hm => (hput m hm).served hnames hfile hcount (by omega))

end Runs

section Examples

/-- A file of two blocks. -/
private def twoBlocks : Str := List.replicate 1001 'a'

private def blocksName : octetNames.Name := [[1]]

private def interestFor (segmentNo : ℕ) : octetNames.Name :=
  segmentName octetNames blocksName segmentNo

theorem onInterest_eq_second :
    ∃ s s', (NdnPutFile.start blocksName twoBlocks).afterInterests [interestFor 0] = some s ∧
      s.onInterest blocksName (interestFor 1) = some (s',
        (requestedSegment octetNames blocksName (interestFor 1)).bind fun segmentNo =>
          answer octetNames blocksName twoBlocks
            (window (requestedSegments octetNames blocksName [interestFor 0] ++ [segmentNo]))
            segmentNo) :=
  onInterest_eq (by decide) (by decide +kernel) [interestFor 0] (interestFor 1)

private theorem exists_put_first :
    ∃ s s' data, (NdnPutFile.start blocksName twoBlocks).afterInterests [] = some s ∧
      s.onInterest blocksName (interestFor 0) = some (s', some data) ∧
      data.name = segmentName octetNames blocksName 0 ∧
      data.content = block DEFAULT_BLOCK_SIZE twoBlocks 0 :=
  exists_put (by decide) (by decide +kernel) rfl (by decide +kernel) (by decide)

theorem verifies_iff_first :
    ∃ s s' data, (NdnPutFile.start blocksName twoBlocks).afterInterests [] = some s ∧
      s.onInterest blocksName (interestFor 0) = some (s', some data) ∧
      (data.Verifies ↔ s'.m_isFinished = false ∨
        data.name = segmentName octetNames blocksName (blockCount twoBlocks - 1)) := by
  obtain ⟨s, s', data, hs, hput, -⟩ := exists_put_first
  exact ⟨s, s', data, hs, hput,
    verifies_iff octetNames_segmented (by decide) (by decide +kernel) hs hput⟩

theorem onInterest_next_second :
    ∃ s s' data,
      (NdnPutFile.start blocksName twoBlocks).afterInterests [interestFor 0] = some s ∧
      s.onInterest blocksName (interestFor 1) = some (s', some data) ∧
      data.name = segmentName octetNames blocksName 1 ∧
      data.content = block DEFAULT_BLOCK_SIZE twoBlocks 1 := by
  refine onInterest_next octetNames_segmented (by decide) (by decide +kernel) (fun m hm => ?_)
    (by decide +kernel) rfl
  obtain rfl := Nat.lt_one_iff.mp hm
  obtain ⟨s, s', data, hs, hput, hname, -⟩ := exists_put_first
  exact ⟨[], interestFor 0, [], rfl, s, s', data, hs, hput, hname⟩

end Examples

end OpenGeoBase
