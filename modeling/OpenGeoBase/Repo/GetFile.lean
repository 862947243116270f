import OpenGeoBase.Lib.Transition
import OpenGeoBase.Repo.PutFile

/-!
# Getting a file

`ndngetfile` fetches the segments of a file one after the other and writes what they carry to a
stream. It is given the name of the file with its version, or without one; in the latter case the
version is the one of the first packet that comes. It has one interest out at a time. An interest
that times out is expressed again, three times before the tool gives up.

The packets that are there to answer it are those of files (`Serves`): the name of a version, a
segment number, the block of the segment, and a FinalBlockId, which all but the last packet may
lack. `Gets` is the invariant of a run, in the order of what the tool does: it waits for the first
packet, it waits for a segment and has written the blocks before it, it is done. The number it
carries bounds the answers and timeouts so far. `getFile_writes` and `getFile_ends` are read off it.
-/

namespace OpenGeoBase

open Blocks Text Transition

/-- How often an interest is expressed again. -/
def MAX_RETRY : ℕ := 3

/-- An interest with the selectors that the tool sets. -/
structure FetchInterest (names : NameLibrary) where
  name : names.Name
  mustBeFresh : Bool
  childSelector : Option ℕ
  deriving DecidableEq

/-- `Consumer`, with what it has written and the interests that are out. -/
structure Consumer (names : NameLibrary) where
  m_dataName : names.Name
  m_hasVersion : Bool
  m_isSingle : Bool
  m_mustBeFresh : Bool
  m_isFinished : Bool
  m_isFirst : Bool
  m_nextSegment : ℕ
  m_retryCount : ℕ
  m_os : Str
  pending : List (FetchInterest names)

/-- The segment number at the end of a name; `toSegment` throws if it is none. -/
def segmentOfName (names : NameLibrary) (name : names.Name) : Option ℕ :=
  match name.getLast?.map names.toSegment with
  | some (.ok segment) => some segment
  | _ => none

namespace Consumer

variable {names : NameLibrary}

/-- The tool before it is run. -/
def create (dataName : names.Name) (versioned single mustBeFresh : Bool) : Consumer names where
  m_dataName := dataName
  m_hasVersion := versioned
  m_isSingle := single
  m_mustBeFresh := mustBeFresh
  m_isFinished := false
  m_isFirst := true
  m_nextSegment := 0
  m_retryCount := 0
  m_os := []
  pending := []

variable (c : Consumer names)

/-- The interest for a name. -/
def interestFor (name : names.Name) : FetchInterest names :=
  if c.m_hasVersion then ⟨name, c.m_mustBeFresh, none⟩ else ⟨name, true, some 1⟩

/-- `Consumer::fetchData`. -/
def fetchData (name : names.Name) : Consumer names :=
  { c with pending := c.pending ++ [c.interestFor name] }

/-- `Consumer::run`, up to the first interest. -/
def run : Consumer names :=
  { c with m_nextSegment := c.m_nextSegment + 1 }.fetchData c.m_dataName

/-- `Consumer::readData`. -/
def readData (data : Packet names) : Consumer names := { c with m_os := c.m_os ++ data.content }

/-- The name that the segments of a packet's version are fetched under. -/
def versionName (name : names.Name) : names.Name :=
  if c.m_hasVersion then c.m_dataName else c.m_dataName ++ name.dropLast.getLast?.toList

/-- `Consumer::fetchNextData`; `none` when it throws or its assertion fails. -/
def fetchNextData (name : names.Name) (data : Packet names) : Option (Consumer names) :=
  match segmentOfName names name with
  | none => none
  | some segment =>
    if segment ≠ c.m_nextSegment - 1 then none
    else if data.finalBlockId = name.getLast? then some { c with m_isFinished := true }
    else
      some ({ c with m_retryCount := 0, m_nextSegment := c.m_nextSegment + 1 }.fetchData
        (c.versionName name ++ [names.fromSegment c.m_nextSegment]))

/-- What both callbacks do with a packet. A name of the length of a whole file has its segments
looked for under `whole`; one that is longer by a component is a segment under `version`. -/
def onData (wholeSize : ℕ) (whole version : names.Name) (data : Packet names) :
    Option (Consumer names) :=
  let name := data.name
  if name.length = wholeSize then
    let c := if c.m_isSingle then c else c.fetchData (whole ++ [names.fromSegment 0])
    some (c.readData data)
  else if name.length = wholeSize + 1 then
    -- a segment is not what a single packet was to be
    if c.m_isSingle then some c
    else if c.m_isFirst then
      match segmentOfName names name with
      | none => none
      | some segment =>
        let c := { c with m_isFirst := false }
        if segment ≠ 0 then some (c.fetchData (version ++ [names.fromSegment 0]))
        else (c.fetchNextData name data).map fun c => c.readData data
    else (c.fetchNextData name data).map fun c => c.readData data
  else some c

/-- `Consumer::onVersionedData`. -/
def onVersionedData (data : Packet names) : Option (Consumer names) :=
  c.onData c.m_dataName.length data.name c.m_dataName data

/-- `Consumer::onUnversionedData`. For a whole file the last component of its name is appended to
the name once more. -/
def onUnversionedData (data : Packet names) : Option (Consumer names) :=
  c.onData (c.m_dataName.length + 1) (data.name ++ data.name.getLast?.toList)
    (c.m_dataName ++ data.name.dropLast.getLast?.toList) data

/-- `Consumer::onTimeout`. -/
def onTimeout (interest : FetchInterest names) : Consumer names :=
  let retryCount := c.m_retryCount
  let c := { c with m_retryCount := c.m_retryCount + 1 }
  if retryCount < MAX_RETRY then c.fetchData interest.name else c

end Consumer

/-! ### The runs of the tool -/

/-- What can come of an interest. -/
inductive FetchFileOp (names : NameLibrary) where
  | data (interest : FetchInterest names) (data : Packet names)
  | timeout (interest : FetchInterest names)

namespace Consumer

variable {names : NameLibrary} (c : Consumer names)

/-- An interest is out no more. -/
def endInterest (interest : FetchInterest names) : Consumer names :=
  { c with pending := c.pending.erase interest }

/-- What the tool does; `none` when it ends with an error. -/
def apply : FetchFileOp names → Option (Consumer names)
  | .data interest data =>
    if c.m_hasVersion then (c.endInterest interest).onVersionedData data
    else (c.endInterest interest).onUnversionedData data
  | .timeout interest => some ((c.endInterest interest).onTimeout interest)

/-- An interest that is out is answered by a packet that is there and whose name begins with the
interest's, or it times out. -/
def Enabled (available : Packet names → Prop) : FetchFileOp names → Prop
  | .data interest data => interest ∈ c.pending ∧ available data ∧ interest.name <+: data.name
  | .timeout interest => interest ∈ c.pending

end Consumer

/-- A step of the tool. After an error there is none. -/
inductive FetchFileStep {names : NameLibrary} (available : Packet names → Prop) :
    Option (Consumer names) → FetchFileOp names → Option (Consumer names) → Prop where
  | mk (c : Consumer names) (op : FetchFileOp names) (h : c.Enabled available op) :
    FetchFileStep available (some c) op (c.apply op)

/-- The runs of the tool for a file in segments. -/
def getFile (names : NameLibrary) (available : Packet names → Prop) (dataName : names.Name)
    (versioned mustBeFresh : Bool) : System (Option (Consumer names)) (FetchFileOp names) where
  init s := s = some (Consumer.create dataName versioned false mustBeFresh).run
  step := FetchFileStep available

/-! ### The packets that are there -/

/-- A name that the segments of a file can have. -/
def IsVersion {names : NameLibrary} (dataName : names.Name) (versioned : Bool)
    (version : names.Name) : Prop :=
  if versioned then version = dataName else ∃ component, version = dataName ++ [component]

/-- The packet of a segment of a file. -/
structure FilePacket (names : NameLibrary) (version : names.Name) (file : Str) (segmentNo : ℕ)
    (data : Packet names) : Prop where
  lt : segmentNo < blockCount file
  name : data.name = segmentName names version segmentNo
  content : data.content = block DEFAULT_BLOCK_SIZE file segmentNo
  final : data.finalBlockId = some (finalSegment names file) ∨
    data.finalBlockId = none ∧ segmentNo + 1 ≠ blockCount file

/-- All packets under a name are segments of the files of its versions. -/
structure Serves (names : NameLibrary) (dataName : names.Name) (versioned : Bool)
    (files : names.Name → Str) (available : Packet names → Prop) : Prop where
  small : ∀ version, IsVersion dataName versioned version → blockCount (files version) ≤ 2 ^ 64
  packet : ∀ data, available data → dataName <+: data.name → ∃ version segmentNo,
    IsVersion dataName versioned version ∧ FilePacket names version (files version) segmentNo data

section Packets

variable {names : NameLibrary} {dataName version version' : names.Name} {versioned : Bool}
  {file : Str} {segmentNo : ℕ} {data : Packet names}

/-- The number of a segment is read from its name. -/
theorem lastSegment_segmentName (hnames : names.Segmented) (name : names.Name)
    (h : segmentNo < 2 ^ 64) : segmentOfName names (segmentName names name segmentNo) =
      some segmentNo := by
  unfold segmentOfName segmentName
  rw [List.getLast?_concat, Option.map_some, hnames.toSegment_fromSegment segmentNo h]

/-- A version makes a name one component longer. -/
theorem IsVersion.length_eq (h : IsVersion dataName versioned version) :
    version.length = dataName.length + if versioned then 0 else 1 := by
  unfold IsVersion at h
  cases versioned with
  | true => rw [if_pos rfl] at h; simp [h]
  | false =>
    rw [if_neg Bool.false_ne_true] at h
    obtain ⟨component, rfl⟩ := h
    simp

/-- A version of a name begins with the name. -/
theorem IsVersion.isPrefix (h : IsVersion dataName versioned version) :
    dataName <+: version := by
  unfold IsVersion at h
  cases versioned with
  | true => rw [if_pos rfl] at h; rw [h]
  | false =>
    rw [if_neg Bool.false_ne_true] at h
    obtain ⟨component, rfl⟩ := h
    exact List.prefix_append _ _

/-- The packets of a segment have the same version and number. -/
theorem segmentName_prefix (hnames : names.Segmented)
    (hversion : IsVersion dataName versioned version)
    (hversion' : IsVersion dataName versioned version') {i j : ℕ} (hi : i < 2 ^ 64)
    (hj : j < 2 ^ 64)
    (h : segmentName names version i <+: segmentName names version' j) :
    version = version' ∧ i = j := by
  have hlength : (segmentName names version i).length = (segmentName names version' j).length := by
    simp [segmentName, hversion.length_eq, hversion'.length_eq]
  have heq := h.eq_of_length hlength
  obtain ⟨hversions, hlast⟩ := List.append_inj' heq rfl
  exact ⟨hversions, hnames.fromSegment_injOn hi hj (List.cons.inj hlast).1⟩

/-- What `ndnputfile` puts is such a packet. -/
theorem FilePacket.of_answer {w : ℕ} {data : SignedPacket names}
    (h : answer names version file w segmentNo = some data) :
    FilePacket names version file segmentNo data.toPacket := by
  obtain ⟨hlt, hw, -, hpacket⟩ := OpenGeoBase.of_answer h
  rw [hpacket]
  split
  · exact ⟨hlt, rfl, rfl, .inl rfl⟩
  · refine ⟨hlt, rfl, rfl, ?_⟩
    unfold madePacket
    by_cases hlast : segmentNo + 1 = blockCount file
    · exact .inl (if_pos hlast)
    · exact .inr ⟨if_neg hlast, hlast⟩

/-- A FinalBlockId is read as the number of the last segment. -/
theorem FilePacket.eq_of_final (hnames : names.Segmented) (hsmall : blockCount file ≤ 2 ^ 64)
    (h : FilePacket names version file segmentNo data) {e : ℕ}
    (hfinal : data.finalBlockId.map names.toSegment = (some e).map Except.ok) :
    e + 1 = blockCount file := by
  have hlt := h.lt
  rcases h.final with hlast | ⟨hnone, -⟩
  · rw [hlast, Option.map_some, finalSegment, hnames.toSegment_fromSegment _ (by omega)] at hfinal
    have heq := Except.ok.inj (Option.some.inj hfinal)
    omega
  · rw [hnone] at hfinal
    exact absurd hfinal (by simp)

/-- The FinalBlockId is the segment's own on the last segment only. -/
theorem FilePacket.final_iff (hnames : names.Segmented) (hsmall : blockCount file ≤ 2 ^ 64)
    (h : FilePacket names version file segmentNo data) :
    data.finalBlockId = data.name.getLast? ↔ segmentNo + 1 = blockCount file := by
  have hlt := h.lt
  rw [h.name, segmentName, List.getLast?_concat]
  constructor
  · intro hfinal
    -- The packet may carry a FinalBlockId or none; a number has one component only.
    rcases h.final with hlast | ⟨hnone, -⟩
    · have hno := hnames.fromSegment_injOn (by omega) (by omega)
        (Option.some.inj (hlast.symm.trans hfinal))
      omega
    · rw [hnone] at hfinal
      exact absurd hfinal (by simp)
  · intro hlast
    rcases h.final with hfinal | ⟨-, hnot⟩
    · rw [hfinal, finalSegment, ← hlast, Nat.add_sub_cancel]
    · exact absurd hlast hnot

end Packets

/-! ### The invariant -/

section Invariant

variable {names : NameLibrary} {dataName name version : names.Name} {versioned : Bool}
  {files : names.Name → Str} {available : Packet names → Prop} {c : Consumer names} {n j : ℕ}
  {data : Packet names}

namespace Consumer

@[simp] theorem name_interestFor (c : Consumer names) (name : names.Name) :
    (c.interestFor name).name = name := by
  unfold interestFor
  split <;> rfl

/-- What the tool was started with. -/
structure Settings (dataName : names.Name) (versioned : Bool) (c : Consumer names) : Prop where
  dataName : c.m_dataName = dataName
  hasVersion : c.m_hasVersion = versioned
  isSingle : c.m_isSingle = false

/-- An interest for the name is out, or it has timed out once too often. -/
def Waits (c : Consumer names) (name : names.Name) : Prop :=
  c.pending = [c.interestFor name] ∧ c.m_retryCount ≤ MAX_RETRY ∨
    c.pending = [] ∧ c.m_retryCount = MAX_RETRY + 1

/-- The interest that is out. -/
theorem Waits.of_mem (h : c.Waits name) {interest : FetchInterest names}
    (hmem : interest ∈ c.pending) :
    interest = c.interestFor name ∧ (c.endInterest interest).pending = [] ∧
      c.m_retryCount ≤ MAX_RETRY := by
  rcases h with ⟨hpending, hretry⟩ | ⟨hpending, -⟩
  · rw [hpending] at hmem
    obtain rfl := List.mem_singleton.mp hmem
    refine ⟨rfl, ?_, hretry⟩
    rw [endInterest, hpending]
    exact List.erase_cons_head ..
  · rw [hpending] at hmem
    exact absurd hmem List.not_mem_nil

/-- A timeout: the interest is expressed again, or the tool gives up. -/
theorem Waits.onTimeout (h : c.Waits name) {interest : FetchInterest names}
    (hmem : interest ∈ c.pending) :
    ((c.endInterest interest).onTimeout interest).Waits name ∧
      ∃ pending, (c.endInterest interest).onTimeout interest =
        { c with m_retryCount := c.m_retryCount + 1, pending := pending } := by
  obtain ⟨rfl, hend, hretry⟩ := h.of_mem hmem
  have hcount : (c.endInterest (c.interestFor name)).m_retryCount = c.m_retryCount := rfl
  unfold Consumer.onTimeout
  dsimp only
  rw [hcount]
  -- The interest is sent again while the retries are within the limit; else nothing is in flight
  -- any more.
  split
  · next hlt =>
    refine ⟨.inl ⟨?_, Nat.succ_le_of_lt hlt⟩, _, rfl⟩
    rw [fetchData, hend, name_interestFor]
    rfl
  · next hlt =>
    refine ⟨.inr ⟨hend, ?_⟩, _, rfl⟩
    exact congrArg (· + 1) (Nat.le_antisymm hretry (Nat.le_of_not_lt hlt))

/-- The consumer finds the version in the name of any segment. -/
theorem versionName_segmentName (hset : c.Settings dataName versioned)
    (hversion : IsVersion dataName versioned version) (k : ℕ) :
    c.versionName (segmentName names version k) = version := by
  unfold versionName segmentName
  rw [hset.dataName, hset.hasVersion, List.dropLast_concat]
  unfold IsVersion at hversion
  -- The version is part of the name that was asked for, or the component behind it.
  cases versioned with
  | true =>
    rw [if_pos rfl] at hversion ⊢
    exact hversion.symm
  | false =>
    rw [if_neg Bool.false_ne_true] at hversion ⊢
    obtain ⟨component, rfl⟩ := hversion
    rw [List.getLast?_concat]
    rfl

/-- Both callbacks do the same with a segment. -/
theorem apply_data (hnames : names.Segmented) (hset : c.Settings dataName versioned)
    (hversion : IsVersion dataName versioned version) {file : Str} {k : ℕ} (hk : k < 2 ^ 64)
    (hpacket : FilePacket names version file k data) (interest : FetchInterest names) :
    c.apply (.data interest data) =
      let c' := c.endInterest interest
      if c.m_isFirst then
        if k ≠ 0 then some ({ c' with m_isFirst := false }.fetchData (segmentName names version 0))
        else ({ c' with m_isFirst := false }.fetchNextData data.name data).map
          fun got : Consumer names => got.readData data
      else (c'.fetchNextData data.name data).map fun got : Consumer names => got.readData data := by
  have hlength : data.name.length = version.length + 1 := by simp [hpacket.name, segmentName]
  have hlast : segmentOfName names data.name = some k := by
    rw [hpacket.name]
    exact lastSegment_segmentName hnames version hk
  have hname := c.versionName_segmentName hset hversion k
  rw [← hpacket.name, versionName] at hname
  -- Versioned or not, the data goes through the same steps once its version is known.
  have hdata : ∀ (c' : Consumer names) (whole : names.Name), c'.m_isSingle = false →
      c'.onData version.length whole version data =
        if c'.m_isFirst then
          if k ≠ 0 then
            some ({ c' with m_isFirst := false }.fetchData (segmentName names version 0))
          else ({ c' with m_isFirst := false }.fetchNextData data.name data).map
            fun got : Consumer names => got.readData data
        else (c'.fetchNextData data.name data).map
          fun got : Consumer names => got.readData data := by
    intro c' whole hsingle
    unfold onData
    dsimp only
    rw [if_neg (by omega), if_pos hlength, hsingle, hlast, if_neg Bool.false_ne_true]
    rfl
  unfold Consumer.apply
  dsimp only
  -- Only where the version is read from the name of the packet do the two differ.
  by_cases hhas : c.m_hasVersion = true
  · rw [if_pos hhas] at hname ⊢
    have hversioned : (c.endInterest interest).onVersionedData data =
        (c.endInterest interest).onData version.length data.name version data := by
      rw [onVersionedData, ← hname]
      rfl
    exact hversioned.trans (hdata (c.endInterest interest) _ hset.isSingle)
  · rw [if_neg hhas] at hname ⊢
    have hsize : c.m_dataName.length + 1 = version.length := by
      have hnot := hset.hasVersion
      rw [Bool.not_eq_true] at hhas
      rw [hversion.length_eq, ← hnot, hhas, hset.dataName]
      rfl
    have hunversioned : (c.endInterest interest).onUnversionedData data =
        (c.endInterest interest).onData version.length
          (data.name ++ data.name.getLast?.toList) version data := by
      rw [onUnversionedData, ← hsize, ← hname]
      rfl
    exact hunversioned.trans (hdata (c.endInterest interest) _ hset.isSingle)

end Consumer

/-- How far the tool has got after `n` answers and timeouts. -/
inductive Gets (dataName : names.Name) (versioned : Bool) (files : names.Name → Str) (n : ℕ)
    (c : Consumer names) : Prop where
  /-- It waits for a first packet. -/
  | first (hwaits : c.Waits dataName) (hfirst : c.m_isFirst = true)
      (hfinished : c.m_isFinished = false) (hnext : c.m_nextSegment = 1) (hos : c.m_os = [])
      (hn : n = c.m_retryCount)
  /-- It waits for a segment of a version. -/
  | segment (version : names.Name) (j : ℕ) (hversion : IsVersion dataName versioned version)
      (hj : j < blockCount (files version)) (hwaits : c.Waits (segmentName names version j))
      (hfirst : c.m_isFirst = false) (hfinished : c.m_isFinished = false)
      (hnext : c.m_nextSegment = j + 1)
      (hos : c.m_os = ((List.range j).map (block DEFAULT_BLOCK_SIZE (files version))).flatten)
      (hn : n ≤ 4 * j + 1 + c.m_retryCount)
  /-- It has written the file of a version. -/
  | done (version : names.Name) (hversion : IsVersion dataName versioned version)
      (hpos : 0 < blockCount (files version)) (hpending : c.pending = [])
      (hfinished : c.m_isFinished = true) (hos : c.m_os = files version)
      (hn : n ≤ 4 * blockCount (files version) + 1)

/-- The segment that the tool waits for is written, and the next one is asked for. -/
theorem Gets.accept (hnames : names.Segmented)
    (hserves : Serves names dataName versioned files available)
    (hset : c.Settings dataName versioned) (hpending : c.pending = [])
    (hfirst : c.m_isFirst = false) (hfinished : c.m_isFinished = false)
    (hnext : c.m_nextSegment = j + 1)
    (hos : c.m_os = ((List.range j).map (block DEFAULT_BLOCK_SIZE (files version))).flatten)
    (hversion : IsVersion dataName versioned version)
    (hpacket : FilePacket names version (files version) j data) (hn : n ≤ 4 * (j + 1) + 1) :
    ∃ c', ((c.fetchNextData data.name data).map fun c => c.readData data) = some c' ∧
      c'.Settings dataName versioned ∧ Gets dataName versioned files n c' := by
  have hsmall := hserves.small version hversion
  have hj := hpacket.lt
  have hlast : segmentOfName names data.name = some j := by
    rw [hpacket.name]
    exact lastSegment_segmentName hnames version (by omega)
  -- The block is written behind the ones before it.
  have hos' : c.m_os ++ data.content =
      ((List.range (j + 1)).map (block DEFAULT_BLOCK_SIZE (files version))).flatten := by
    rw [flatten_blocks_succ, ← hos, hpacket.content]
  unfold Consumer.fetchNextData
  rw [hlast, hnext]
  dsimp only
  rw [Nat.add_sub_cancel, if_neg (not_not_intro rfl)]
  -- The FinalBlockId tells whether this was the last one; if not, the next is asked for.
  by_cases hend : j + 1 = blockCount (files version)
  · rw [if_pos ((hpacket.final_iff hnames hsmall).mpr hend), Option.map_some]
    refine ⟨_, rfl, ⟨hset.dataName, hset.hasVersion, hset.isSingle⟩,
      .done version hversion (by omega) hpending rfl ?_ (hend ▸ hn)⟩
    exact hos'.trans (flatten_blocks_of_count_le defaultBlockSize_pos hend.ge)
  · rw [if_neg (fun hfinal => hend ((hpacket.final_iff hnames hsmall).mp hfinal)),
      Option.map_some]
    refine ⟨_, rfl, ⟨hset.dataName, hset.hasVersion, hset.isSingle⟩,
      .segment version (j + 1) hversion (by omega) (.inl ⟨?_, Nat.zero_le _⟩) hfirst hfinished
        rfl hos' hn⟩
    rw [hpacket.name, c.versionName_segmentName hset hversion, Consumer.readData,
      Consumer.fetchData, hpending]
    rfl

/-- What one answer or timeout does. -/
theorem Gets.apply (hnames : names.Segmented)
    (hserves : Serves names dataName versioned files available)
    (hset : c.Settings dataName versioned) (h : Gets dataName versioned files n c)
    {op : FetchFileOp names} (henabled : c.Enabled available op) :
    ∃ c', c.apply op = some c' ∧ c'.Settings dataName versioned ∧
      Gets dataName versioned files (n + 1) c' := by
  cases op with
  | timeout interest =>
    refine ⟨_, rfl, ?_⟩
    cases h with
    | first hwaits hfirst hfinished hnext hos hn =>
      obtain ⟨hwaits', pending, heq⟩ := hwaits.onTimeout henabled
      rw [heq] at hwaits' ⊢
      exact ⟨⟨hset.dataName, hset.hasVersion, hset.isSingle⟩,
        .first hwaits' hfirst hfinished hnext hos (congrArg (· + 1) hn)⟩
    | segment version j hversion hj hwaits hfirst hfinished hnext hos hn =>
      obtain ⟨hwaits', pending, heq⟩ := hwaits.onTimeout henabled
      rw [heq] at hwaits' ⊢
      exact ⟨⟨hset.dataName, hset.hasVersion, hset.isSingle⟩,
        .segment version j hversion hj hwaits' hfirst hfinished hnext hos (Nat.succ_le_succ hn)⟩
    | done version hversion hpos hpending hfinished hos hn =>
      have hmem : interest ∈ c.pending := henabled
      rw [hpending] at hmem
      exact absurd hmem List.not_mem_nil
  | data interest data =>
    obtain ⟨hmem, havailable, hprefix⟩ := henabled
    have hset' : (c.endInterest interest).Settings dataName versioned :=
      ⟨hset.dataName, hset.hasVersion, hset.isSingle⟩
    cases h with
    | first hwaits hfirst hfinished hnext hos hn =>
      obtain ⟨rfl, hpending, hretry⟩ := hwaits.of_mem hmem
      rw [Consumer.name_interestFor] at hprefix
      obtain ⟨version, k, hversion, hpacket⟩ := hserves.packet data havailable hprefix
      have hk : k < 2 ^ 64 := hpacket.lt.trans_le (hserves.small version hversion)
      rw [MAX_RETRY] at hretry
      rw [Consumer.apply_data hnames hset hversion hk hpacket, hfirst]
      dsimp only
      rw [if_pos rfl]
      by_cases hzero : k = 0
      -- it is segment 0, which is written
      · subst hzero
        rw [if_neg (not_not_intro rfl)]
        exact Gets.accept (c := { c.endInterest _ with m_isFirst := false }) (n := n + 1) hnames
          hserves ⟨hset.dataName, hset.hasVersion, hset.isSingle⟩ hpending rfl hfinished hnext hos
          hversion hpacket (by omega)
      -- it is another one; its version is the one to be fetched
      · rw [if_pos hzero]
        refine ⟨_, rfl, ⟨hset.dataName, hset.hasVersion, hset.isSingle⟩,
          .segment version 0 hversion (Nat.zero_lt_of_lt hpacket.lt) (.inl ⟨?_, hretry⟩) rfl
            hfinished hnext hos ?_⟩
        · rw [Consumer.fetchData, hpending]
          rfl
        · change n + 1 ≤ 4 * 0 + 1 + c.m_retryCount
          omega
    | segment version j hversion hj hwaits hfirst hfinished hnext hos hn =>
      obtain ⟨rfl, hpending, hretry⟩ := hwaits.of_mem hmem
      rw [Consumer.name_interestFor] at hprefix
      have hdataName : dataName <+: data.name :=
        (hversion.isPrefix.trans (List.prefix_append _ _)).trans hprefix
      obtain ⟨version', k, hversion', hpacket⟩ := hserves.packet data havailable hdataName
      have hk : k < 2 ^ 64 := hpacket.lt.trans_le (hserves.small version' hversion')
      have hj' : j < 2 ^ 64 := hj.trans_le (hserves.small version hversion)
      rw [hpacket.name] at hprefix
      obtain ⟨rfl, rfl⟩ := segmentName_prefix hnames hversion hversion' hj' hk hprefix
      rw [MAX_RETRY] at hretry
      rw [Consumer.apply_data hnames hset hversion hk hpacket, hfirst]
      dsimp only
      rw [if_neg Bool.false_ne_true]
      exact Gets.accept hnames hserves hset' hpending hfirst hfinished hnext hos hversion hpacket
        (by omega)
    | done version hversion hpos hpending hfinished hos hn =>
      rw [hpending] at hmem
      exact absurd hmem List.not_mem_nil

end Invariant

/-! ### What the tool writes -/

section Runs

variable {names : NameLibrary} {dataName : names.Name} {versioned mustBeFresh : Bool}
  {files : names.Name → Str} {available : Packet names → Prop}
  {h : List (Option (Consumer names) × FetchFileOp names)} {s : Option (Consumer names)}

/-- After any run of answers and timeouts the tool has a beginning of the file. -/
theorem gets_of_run (hnames : names.Segmented)
    (hserves : Serves names dataName versioned files available)
    (hrun : Run (getFile names available dataName versioned mustBeFresh) h s) :
    ∃ c, s = some c ∧ c.Settings dataName versioned ∧
      Gets dataName versioned files h.length c := by
  induction hrun with
  | nil hinit =>
    refine ⟨_, hinit, ⟨rfl, rfl, rfl⟩, .first (.inl ⟨rfl, Nat.zero_le _⟩) rfl rfl rfl rfl rfl⟩
  | snoc _ hstep ih =>
    obtain ⟨c, rfl, hset, hgets⟩ := ih
    cases hstep with
    | mk _ _ henabled =>
      obtain ⟨c', hc', hset', hgets'⟩ := hgets.apply hnames hserves hset henabled
      refine ⟨c', hc', hset', ?_⟩
      rwa [List.length_append, List.length_singleton]

/-- **What is written.** In no run does the tool end with an error, what it has written are the
first blocks of the file of one version, and once it is finished it is the file. -/
theorem getFile_writes (hnames : names.Segmented)
    (hserves : Serves names dataName versioned files available)
    (hrun : Run (getFile names available dataName versioned mustBeFresh) h s) :
    ∃ c, s = some c ∧ (c.m_os = [] ∧ c.m_isFinished = false ∨
      ∃ version, IsVersion dataName versioned version ∧
        (∃ j, c.m_os = (files version).take (j * DEFAULT_BLOCK_SIZE)) ∧
        (c.m_isFinished = true → c.m_os = files version)) := by
  obtain ⟨c, rfl, -, hgets⟩ := gets_of_run hnames hserves hrun
  refine ⟨c, rfl, ?_⟩
  -- The invariant says how far the tool is: waiting for the first packet, inside the file, or done.
  cases hgets with
  | first hwaits hfirst hfinished hnext hos hn => exact .inl ⟨hos, hfinished⟩
  | segment version j hversion hj hwaits hfirst hfinished hnext hos hn =>
    refine .inr ⟨version, hversion, ⟨j, hos.trans (flatten_blocks _ _ _)⟩, fun hnot => ?_⟩
    rw [hfinished] at hnot
    exact absurd hnot Bool.false_ne_true
  | done version hversion hpos hpending hfinished hos hn =>
    refine .inr ⟨version, hversion, ⟨blockCount (files version), hos.trans ?_⟩, fun _ => hos⟩
    exact (flatten_blocks_of_count_le defaultBlockSize_pos le_rfl).symm.trans
      (flatten_blocks _ _ _)

/-- **The end of a run.** When the files have no more than `N` segments, no more than `4 * (N + 1)`
answers and timeouts come; and the tool is finished, or it has given up, with four timeouts since
the last segment that it went on from, or there is one interest out. -/
theorem getFile_ends (hnames : names.Segmented)
    (hserves : Serves names dataName versioned files available) {N : ℕ}
    (hN : ∀ version, IsVersion dataName versioned version → blockCount (files version) ≤ N)
    (hrun : Run (getFile names available dataName versioned mustBeFresh) h s) :
    h.length ≤ 4 * (N + 1) ∧ ∃ c, s = some c ∧
      (c.m_isFinished = true ∧ c.pending = [] ∨
        c.m_retryCount = MAX_RETRY + 1 ∧ c.pending = [] ∨
        ∃ interest, c.pending = [interest]) := by
  obtain ⟨c, rfl, -, hgets⟩ := gets_of_run hnames hserves hrun
  -- A tool that waits has an interest in flight or has just given up; both bound the retries.
  have hwaiting : ∀ name, c.Waits name → c.m_retryCount ≤ 4 ∧
      (c.m_isFinished = true ∧ c.pending = [] ∨
        c.m_retryCount = MAX_RETRY + 1 ∧ c.pending = [] ∨
        ∃ interest, c.pending = [interest]) := by
    rintro name (⟨hpending, hretry⟩ | ⟨hpending, hretry⟩)
    · exact ⟨hretry.trans (by decide), .inr (.inr ⟨_, hpending⟩)⟩
    · exact ⟨hretry.le, .inr (.inl ⟨hretry, hpending⟩)⟩
  cases hgets with
  | first hwaits hfirst hfinished hnext hos hn =>
    obtain ⟨hretry, hout⟩ := hwaiting _ hwaits
    exact ⟨by omega, c, rfl, hout⟩
  | segment version j hversion hj hwaits hfirst hfinished hnext hos hn =>
    obtain ⟨hretry, hout⟩ := hwaiting _ hwaits
    have hcount := hN version hversion
    exact ⟨by omega, c, rfl, hout⟩
  | done version hversion hpos hpending hfinished hos hn =>
    have hcount := hN version hversion
    exact ⟨by omega, c, rfl, .inl ⟨hfinished, hpending⟩⟩

end Runs

section Examples

/-- A file of one segment. -/
def shortFile : Str := "ab".toList

/-- The name of both files. -/
def shortName : octetNames.Name := [[1]]

/-- The packet of the short file. -/
def onlyPacket : Packet octetNames :=
  ⟨segmentName octetNames shortName 0, shortFile, some (finalSegment octetNames shortFile)⟩

/-! A file of two segments. The first interest times out once, and then both segments come. -/

/-- The longer file, of two segments. -/
def longFile : Str := List.replicate 1001 'a'

/-- The packets of the longer file. -/
def longPacket (segmentNo : ℕ) : Packet octetNames :=
  ⟨segmentName octetNames shortName segmentNo, block DEFAULT_BLOCK_SIZE longFile segmentNo,
    some (octetNames.fromSegment 1)⟩

private theorem blockCount_longFile : blockCount longFile = 2 := by
  unfold blockCount count longFile
  rw [List.length_replicate]
  decide

private def longAvailable (data : Packet octetNames) : Prop :=
  data = longPacket 0 ∨ data = longPacket 1

private theorem serves_long :
    Serves octetNames shortName true (fun _ => longFile) longAvailable where
  small _ _ := by
    rw [blockCount_longFile]
    norm_num
  packet := by
    have hfinal : finalSegment octetNames longFile = octetNames.fromSegment 1 := by
      unfold finalSegment
      rw [blockCount_longFile]
    -- The file has two blocks and both packets carry the number of the second.
    have hpacket : ∀ k < 2, FilePacket octetNames shortName longFile k (longPacket k) :=
      fun k hk => ⟨blockCount_longFile ▸ hk, rfl, rfl, .inl (congrArg some hfinal.symm)⟩
    rintro data (rfl | rfl) -
    · exact ⟨shortName, 0, rfl, hpacket 0 (by decide)⟩
    · exact ⟨shortName, 1, rfl, hpacket 1 (by decide)⟩

private theorem run_long :
    ∃ h c, Run (getFile octetNames longAvailable shortName true false) h (some c) ∧
      h.length = 3 ∧ c.m_isFinished = true := by
  let first : FetchInterest octetNames := ⟨shortName, false, none⟩
  let second : FetchInterest octetNames := ⟨segmentName octetNames shortName 1, false, none⟩
  let c₀ := (Consumer.create shortName true false false : Consumer octetNames).run
  -- the interest goes out again after the timeout, and the second one after the first segment
  obtain ⟨c₁, hc₁, hpending₁, c₂, hc₂, hpending₂, c₃, hc₃, hfinished⟩ : ∃ c₁,
      c₀.apply (.timeout first) = some c₁ ∧ c₁.pending = [first] ∧ ∃ c₂,
        c₁.apply (.data first (longPacket 0)) = some c₂ ∧ c₂.pending = [second] ∧ ∃ c₃,
          c₂.apply (.data second (longPacket 1)) = some c₃ ∧ c₃.m_isFinished = true :=
    ⟨_, rfl, rfl, _, rfl, rfl, _, rfl, rfl⟩
  have hstart : Run (getFile octetNames longAvailable shortName true false) [] (some c₀) := .nil rfl
  have htimeout := hstart.snoc (FetchFileStep.mk c₀ (.timeout first) List.mem_cons_self)
  rw [hc₁] at htimeout
  have hfirst := htimeout.snoc (FetchFileStep.mk c₁ (.data first (longPacket 0))
    ⟨hpending₁ ▸ List.mem_cons_self, .inl rfl, List.prefix_append _ _⟩)
  rw [hc₂] at hfirst
  have hsecond := hfirst.snoc (FetchFileStep.mk c₂ (.data second (longPacket 1))
    ⟨hpending₂ ▸ List.mem_cons_self, .inr rfl, List.prefix_rfl⟩)
  rw [hc₃] at hsecond
  exact ⟨_, c₃, hsecond, rfl, hfinished⟩

theorem getFile_writes_long :
    ∃ h c, Run (getFile octetNames longAvailable shortName true false) h (some c) ∧
      h.length = 3 ∧ c.m_isFinished = true ∧ c.m_os = longFile := by
  obtain ⟨h, c, hrun, hlength, hfinished⟩ := run_long
  refine ⟨h, c, hrun, hlength, hfinished, ?_⟩
  obtain ⟨_, heq, hwritten⟩ := getFile_writes octetNames_segmented serves_long hrun
  obtain rfl := Option.some.inj heq
  rcases hwritten with ⟨-, hnot⟩ | ⟨_, _, -, hwhole⟩
  · exact absurd (hnot.symm.trans hfinished) Bool.false_ne_true
  · exact hwhole hfinished

theorem getFile_ends_long :
    ∃ h c, Run (getFile octetNames longAvailable shortName true false) h (some c) ∧
      h.length = 3 ∧ h.length ≤ 4 * (2 + 1) ∧ c.m_isFinished = true ∧ ∃ c', some c = some c' ∧
        (c'.m_isFinished = true ∧ c'.pending = [] ∨
          c'.m_retryCount = MAX_RETRY + 1 ∧ c'.pending = [] ∨
          ∃ interest, c'.pending = [interest]) := by
  obtain ⟨h, c, hrun, hlength, hfinished⟩ := run_long
  obtain ⟨hbound, hends⟩ := getFile_ends octetNames_segmented serves_long (N := 2)
    (fun _ _ => blockCount_longFile.le) hrun
  exact ⟨h, c, hrun, hlength, hbound, hfinished, hends⟩

end Examples

end OpenGeoBase
