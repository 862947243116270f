import OpenGeoBase.Repo.RepoStorage

/-!
# The delete handle

`DeleteHandle` answers a command that names one packet, a range of segments, or packets that
satisfy selectors. What the deletion of a name has come to goes through three layers:
`MongoStorage::erase` returns `true` when it gets to its end, `RepoStorage::deleteData` makes
-1 of `true` and 1 of `false`, and the handle takes -1 for a failure when one packet is named,
and for a success, like any other number than 0, when a range is.

So a command for one packet that is answered at all is answered with 405, and one for a range
is answered with the number of its segments. `isTruthful_iff` says for which packets and
ranges that is what has happened.
-/

namespace OpenGeoBase

open Text AtomicCalls Collection

/-- `RepoCommandParameter`, as far as the handle reads it. -/
structure RepoCommandParameter (names : NameLibrary) where
  name : names.Name
  selectors : Option (Selectors names)
  startBlockId : Option ℕ
  endBlockId : Option ℕ
  processId : Option ℕ

/-- `RepoCommandResponse`, as far as the handle sets it. -/
structure RepoCommandResponse where
  statusCode : ℕ
  processId : Option ℕ
  deleteNum : Option ℕ
  deriving DecidableEq

/-- `DeleteHandle::positiveReply`. -/
def positiveReply {names : NameLibrary} (parameter : RepoCommandParameter names)
    (statusCode nDeletedDatas : ℕ) : RepoCommandResponse :=
  match parameter.processId with
  | some processId => ⟨statusCode, some processId, some nDeletedDatas⟩
  | none => ⟨403, none, none⟩

/-- `DeleteHandle::negativeReply`. -/
def negativeReply (statusCode : ℕ) : RepoCommandResponse := ⟨statusCode, none, none⟩

/-- The largest `SegmentNo`. -/
def maxSegmentNo : ℕ := 2 ^ 64 - 1

section Handle

variable (lib : StorageLibrary) (threshold : ℤ) (sorts : ℕ → ℕ → CounterSort) (bound : ℕ)

/-- `DeleteHandle::processSingleDeleteCommand`; no reply when the deletion does not return. -/
def processSingleDeleteCommand (parameter : RepoCommandParameter lib.names) :
    Prog Db (Option RepoCommandResponse) := do
  let nDeletedDatas ← deleteData lib threshold sorts bound parameter.name
  pure (nDeletedDatas.map fun nDeletedDatas =>
    if nDeletedDatas = -1 then negativeReply 405
    else positiveReply parameter 200 nDeletedDatas.toNat)

/-- `DeleteHandle::processSelectorDeleteCommand`, with the index that is left. -/
def processSelectorDeleteCommand (ndn : IndexLibrary lib.names)
    (parameter : RepoCommandParameter lib.names) (selectors : Selectors lib.names)
    (index : Index lib.names) : Prog Db (Option (RepoCommandResponse × Index lib.names)) := do
  let nDeletedDatas ← deleteInterest lib ndn ⟨selectors, parameter.name⟩ index
  pure (nDeletedDatas.map fun (nDeletedDatas, index) =>
    (if nDeletedDatas = -1 then negativeReply 405
      else positiveReply parameter 200 nDeletedDatas.toNat, index))

/-- The loop over the segments from `i` on, of which there are so many up to `endBlockId`. When
that is the largest number the loop variable starts again at 0, and the loop does not end. -/
def deleteSegments (prefixName : lib.names.Name) (endBlockId : ℕ) :
    ℕ → ℕ → ℕ → Prog Db (Option ℕ)
  | 0, _, nDeletedDatas =>
    pure (if endBlockId = maxSegmentNo then none else some nDeletedDatas)
  | segments + 1, i, nDeletedDatas => do
    let deleted ← deleteData lib threshold sorts bound (prefixName ++ [lib.names.fromSegment i])
    match deleted with
    | none => pure none
    | some deleted =>
      deleteSegments prefixName endBlockId segments (i + 1)
        (if deleted ≠ 0 then nDeletedDatas + 1 else nDeletedDatas)

/-- `DeleteHandle::processSegmentDeleteCommand`. Without an end it is not implemented. -/
def processSegmentDeleteCommand (parameter : RepoCommandParameter lib.names) :
    Prog Db (Option RepoCommandResponse) :=
  let startBlockId := parameter.startBlockId.getD 0
  match parameter.endBlockId with
  | none => pure none
  | some endBlockId =>
    if endBlockId < startBlockId then pure (some (negativeReply 403))
    else do
      let nDeletedDatas ← deleteSegments lib threshold sorts bound parameter.name endBlockId
        (endBlockId + 1 - startBlockId) startBlockId 0
      pure (nDeletedDatas.map (positiveReply parameter 200))

/-- `DeleteHandle::onValidated`, with the index that is left; no parameter can be extracted from
an ill-formed command. -/
def onValidated (ndn : IndexLibrary lib.names) (index : Index lib.names) :
    Option (RepoCommandParameter lib.names) →
      Prog Db (Option (RepoCommandResponse × Index lib.names))
  | none => pure (some (negativeReply 403, index))
  | some parameter =>
    match parameter.selectors with
    | some selectors =>
      if parameter.startBlockId.isSome || parameter.endBlockId.isSome then
        pure (some (negativeReply 402, index))
      else processSelectorDeleteCommand lib ndn parameter selectors index
    | none =>
      if parameter.startBlockId.isNone && parameter.endBlockId.isNone then do
        let response ← processSingleDeleteCommand lib threshold sorts bound parameter
        pure (response.map fun response => (response, index))
      else do
        let response ← processSegmentDeleteCommand lib threshold sorts bound parameter
        pure (response.map fun response => (response, index))

end Handle

/-! ### Truthful replies -/

section Truthful

variable (lib : StorageLibrary)

/-- A packet is stored under the name. -/
def IsStored (name : lib.names.Name) (db : Db) : Prop :=
  ∃ doc ∈ db.dataPackets, isStored lib name doc = true

instance (name : lib.names.Name) (db : Db) : Decidable (IsStored lib name db) :=
  inferInstanceAs (Decidable (∃ doc ∈ db.dataPackets, _))

/-- The names of the packets that a command without selectors names. -/
def namedPackets (parameter : RepoCommandParameter lib.names) : List lib.names.Name :=
  match parameter.endBlockId, parameter.startBlockId with
  | none, none => [parameter.name]
  | none, some _ => []
  | some endBlockId, startBlockId =>
    (List.range' (startBlockId.getD 0) (endBlockId + 1 - startBlockId.getD 0)).map fun i =>
      parameter.name ++ [lib.names.fromSegment i]

/-- The name that `erase` makes of the names of these packets. -/
def erasedName (parameter : RepoCommandParameter lib.names) : Option lib.names.Name :=
  match parameter.endBlockId, parameter.startBlockId with
  | none, none => lib.names.withoutSegment parameter.name
  | _, _ => some parameter.name

/-- There is a reply, and it says what has happened: 200 comes with the number of the packets
that were stored before and are not any more, 405 when one of them still is, and any other
code when nothing has been done. -/
def IsTruthful (packets : List lib.names.Name) (db : Db)
    (result : Option RepoCommandResponse × Db) : Prop :=
  ∃ response, result.1 = some response ∧
    (response.statusCode = 200 → response.deleteNum = some (packets.countP fun name =>
      decide (IsStored lib name db ∧ ¬IsStored lib name result.2))) ∧
    (response.statusCode = 405 →
      ∃ name ∈ packets, IsStored lib name db ∧ IsStored lib name result.2) ∧
    (response.statusCode ≠ 200 → response.statusCode ≠ 405 → result.2 = db)

variable (threshold : ℤ) (sorts : ℕ → ℕ → CounterSort) (bound : ℕ)

/-- `erase` gets to its end under the name, after the removal from the index, and deletes the
packets that match `prefixName`. -/
def ErasesTo (name prefixName : lib.names.Name) (db : Db) : Prop :=
  ((callOnContent lib threshold sorts bound
      (db.objectIndex.find? (isErased lib name))).run db).1 = true ∧
    (lib.names.ofUri (eraseAll "/DELETE".toList (lib.names.toUri name))).bind
      lib.names.withoutSegment = some prefixName

/-- For one packet, it is stored and does not match, so that the deletion fails; for a range that
is not empty, each of its packets is stored and matches, and the range ends. -/
def RepliesTruthfully (parameter : RepoCommandParameter lib.names) (name : lib.names.Name)
    (db : Db) : Prop :=
  match parameter.endBlockId, parameter.startBlockId with
  | none, none => ∃ prefixName, ErasesTo lib threshold sorts bound name prefixName db ∧
      ∃ doc ∈ db.dataPackets, isStored lib parameter.name doc = true ∧
        isErasedPacket lib name prefixName doc = false
  | none, some _ => False
  | some endBlockId, startBlockId => endBlockId < startBlockId.getD 0 ∨
      endBlockId ≠ maxSegmentNo ∧ ∃ prefixName,
        ErasesTo lib threshold sorts bound name prefixName db ∧
        ∀ packet ∈ namedPackets lib parameter, IsStored lib packet db ∧
          ∀ doc ∈ db.dataPackets, isStored lib packet doc = true →
            isErasedPacket lib name prefixName doc = true

variable {lib threshold sorts bound}

/-! ### What the deletions come to -/

section Deletions

variable {nameOrig name prefixName : lib.names.Name} {db : Db}
  (hid : ¬(calculateDataIdentifier lib name = [] ∨ calculateTenantIdentifier lib name = []))

include hid

/-- A deletion that gets to its end returns -1. -/
theorem run_deleteData_of_erasesTo (hname : lib.names.withoutSegment nameOrig = some name)
    (h : ErasesTo lib threshold sorts bound name prefixName db) :
    ∃ db', (deleteData lib threshold sorts bound nameOrig).run db = (some (-1), db') ∧
      db'.dataPackets = db.dataPackets.filter (fun doc => !isErasedPacket lib name prefixName doc) ∧
      db'.objectIndex = db.objectIndex.filter fun doc => !isErased lib name doc := by
  have hrun : (erase lib threshold sorts bound nameOrig).run db = _ := run_erase hname hid rfl
  rw [if_pos h.1, h.2] at hrun
  have hsame : Db.SameStore db ((callOnContent lib threshold sorts bound
      (db.objectIndex.find? (isErased lib name))).run db).2 :=
    sameStore_callOnContent threshold sorts bound lib _ db
  unfold deleteData
  rw [Prog.run_bind, hrun, Prog.run_pure]
  exact ⟨_, rfl, congrArg (deleteMany (isErasedPacket lib name prefixName)) hsame.2,
    congrArg (deleteMany (isErased lib name)) hsame.1⟩

/-- Another deletion does not return. -/
theorem run_deleteData_of_not (hname : lib.names.withoutSegment nameOrig = some name)
    (h : ∀ prefixName, ¬ErasesTo lib threshold sorts bound name prefixName db) :
    ((deleteData lib threshold sorts bound nameOrig).run db).1 = none := by
  have hrun : (erase lib threshold sorts bound nameOrig).run db = _ := run_erase hname hid rfl
  have hnone : ((erase lib threshold sorts bound nameOrig).run db).1 = none := by
    rw [hrun]
    split
    · next hreturned =>
      cases hprefix : (lib.names.ofUri (eraseAll "/DELETE".toList (lib.names.toUri name))).bind
          lib.names.withoutSegment with
      | none => rfl
      | some prefixName => exact absurd ⟨hreturned, hprefix⟩ (h prefixName)
    · rfl
  unfold deleteData
  rw [Prog.run_bind, Prog.run_pure, hnone]
  rfl

omit hid in
/-- After a deletion the next one under the name gets to its end as well. -/
theorem ErasesTo.again {db' : Db} (h : ErasesTo lib threshold sorts bound name prefixName db)
    (hobjects : db'.objectIndex = db.objectIndex.filter fun doc => !isErased lib name doc) :
    ErasesTo lib threshold sorts bound name prefixName db' := by
  have hnone : db'.objectIndex.find? (isErased lib name) = none := by
    rw [hobjects, List.find?_eq_none]
    intro doc hdoc
    simpa using (List.mem_filter.mp hdoc).2
  refine ⟨?_, h.2⟩
  rw [hnone]
  rfl

/-- The loop counts every segment. -/
theorem run_deleteSegments_of_erasesTo (hnames : lib.names.Segmented)
    (h : ErasesTo lib threshold sorts bound name prefixName db) {endBlockId segments i n : ℕ}
    (hi : i + segments ≤ 2 ^ 64) :
    ∃ db', (deleteSegments lib threshold sorts bound name endBlockId segments i n).run db =
        (if endBlockId = maxSegmentNo then none else some (n + segments), db') ∧
      (0 < segments → db'.dataPackets =
        db.dataPackets.filter fun doc => !isErasedPacket lib name prefixName doc) := by
  induction segments generalizing db i n with
  | zero => exact ⟨db, rfl, fun hpos => absurd hpos (Nat.lt_irrefl 0)⟩
  | succ segments ih =>
    have hname := hnames.withoutSegment_append name (show i < 2 ^ 64 by omega)
    obtain ⟨db₁, hrun₁, hpackets₁, hobjects₁⟩ := run_deleteData_of_erasesTo hid hname h
    obtain ⟨db', hrun', hpackets'⟩ := ih (h.again hobjects₁) (i := i + 1) (n := n + 1)
      (by omega)
    refine ⟨db', ?_, fun _ => ?_⟩
    · rw [deleteSegments, Prog.run_bind, hrun₁]
      dsimp only
      rw [if_pos (by norm_num), hrun', Nat.add_right_comm, Nat.add_assoc]
    · -- what the first deletion leaves the others leave as well
      cases segments with
      | zero =>
        obtain rfl : db₁ = db' := congrArg Prod.snd hrun'
        exact hpackets₁
      | succ segments =>
        rw [hpackets' (Nat.succ_pos _), hpackets₁, List.filter_filter]
        simp only [Bool.and_self]

/-- The loop leaves the database as it is when nothing under the name can be erased. -/
theorem run_deleteSegments_of_not (hnames : lib.names.Segmented)
    (h : ∀ prefixName, ¬ErasesTo lib threshold sorts bound name prefixName db)
    {endBlockId segments i n : ℕ} (hi : i < 2 ^ 64) (hpos : 0 < segments) :
    ((deleteSegments lib threshold sorts bound name endBlockId segments i n).run db).1 = none := by
  obtain ⟨segments, rfl⟩ : ∃ k, segments = k + 1 := ⟨segments - 1, by omega⟩
  have hname := hnames.withoutSegment_append name hi
  rw [deleteSegments, Prog.run_bind]
  have hnone := run_deleteData_of_not hid hname h
  rw [hnone]
  rfl

/-! ### What is replied -/

variable {parameter : RepoCommandParameter lib.names}

omit hid in
/-- What is stored after a deletion. -/
theorem isStored_erased_iff {packet : lib.names.Name} {db' : Db}
    (hpackets : db'.dataPackets =
      db.dataPackets.filter fun doc => !isErasedPacket lib name prefixName doc) :
    IsStored lib packet db' ↔ ∃ doc ∈ db.dataPackets, isStored lib packet doc = true ∧
      isErasedPacket lib name prefixName doc = false := by
  unfold IsStored
  rw [hpackets]
  constructor
  · rintro ⟨doc, hdoc, hstored⟩
    obtain ⟨hdoc, hkept⟩ := List.mem_filter.mp hdoc
    exact ⟨doc, hdoc, hstored, by simpa using hkept⟩
  · rintro ⟨doc, hdoc, hstored, hkept⟩
    exact ⟨doc, List.mem_filter.mpr ⟨hdoc, by simpa using hkept⟩, hstored⟩

omit hid in
/-- A command without a reply is not answered truthfully. -/
theorem not_isTruthful_of_none {packets : List lib.names.Name}
    {result : Option RepoCommandResponse × Db} (h : result.1 = none) :
    ¬IsTruthful lib packets db result := by
  rintro ⟨response, hresponse, -⟩
  rw [h] at hresponse
  exact absurd hresponse (by simp)

/-- One packet: the reply is 405. -/
theorem isTruthful_single_iff (hname : lib.names.withoutSegment parameter.name = some name)
    (h : ErasesTo lib threshold sorts bound name prefixName db) :
    IsTruthful lib [parameter.name] db
        ((processSingleDeleteCommand lib threshold sorts bound parameter).run db) ↔
      ∃ doc ∈ db.dataPackets, isStored lib parameter.name doc = true ∧
        isErasedPacket lib name prefixName doc = false := by
  obtain ⟨db', hrun, hpackets, -⟩ := run_deleteData_of_erasesTo hid hname h
  have hreply : (processSingleDeleteCommand lib threshold sorts bound parameter).run db =
      (some (negativeReply 405), db') := by
    unfold processSingleDeleteCommand
    rw [Prog.run_bind, hrun]
    rfl
  rw [hreply, ← isStored_erased_iff hpackets]
  constructor
  · rintro ⟨response, hresponse, -, hfailed, -⟩
    obtain rfl := Option.some.inj hresponse
    obtain ⟨packet, hpacket, -, hstored⟩ := hfailed rfl
    rw [List.mem_singleton.mp hpacket] at hstored
    exact hstored
  · intro hstored
    refine ⟨_, rfl, fun hok => absurd hok (by decide), fun _ => ?_,
      fun _ hfailed => absurd rfl hfailed⟩
    refine ⟨_, List.mem_singleton_self _, ?_, hstored⟩
    -- what is stored after the deletion was stored before it
    obtain ⟨doc, hdoc, hstored, -⟩ := (isStored_erased_iff hpackets).mp hstored
    exact ⟨doc, hdoc, hstored⟩

/-- One packet, whatever the deletion comes to. -/
theorem isTruthful_packet_iff (hname : lib.names.withoutSegment parameter.name = some name) :
    IsTruthful lib [parameter.name] db
        ((processSingleDeleteCommand lib threshold sorts bound parameter).run db) ↔
      ∃ prefixName, ErasesTo lib threshold sorts bound name prefixName db ∧
        ∃ doc ∈ db.dataPackets, isStored lib parameter.name doc = true ∧
          isErasedPacket lib name prefixName doc = false := by
  constructor
  · intro htruthful
    by_cases hprefix : ∃ prefixName, ErasesTo lib threshold sorts bound name prefixName db
    · obtain ⟨prefixName, hprefix⟩ := hprefix
      exact ⟨prefixName, hprefix, (isTruthful_single_iff hid hname hprefix).mp htruthful⟩
    · refine (not_isTruthful_of_none ?_ htruthful).elim
      have hnone := run_deleteData_of_not hid hname (not_exists.mp hprefix)
      unfold processSingleDeleteCommand
      rw [Prog.run_bind, hnone]
      rfl
  · rintro ⟨prefixName, hprefix, hkept⟩
    exact (isTruthful_single_iff hid hname hprefix).mpr hkept

end Deletions

section Segments

variable {parameter : RepoCommandParameter lib.names} {prefixName : lib.names.Name} {db : Db}
  {endBlockId : ℕ} (hnames : lib.names.Segmented) (hend : parameter.endBlockId = some endBlockId)
  (hle : parameter.startBlockId.getD 0 ≤ endBlockId)
  (hid : ¬(calculateDataIdentifier lib parameter.name = [] ∨
    calculateTenantIdentifier lib parameter.name = []))

include hend hle

/-- The command for a range that is not empty goes into the loop. -/
theorem run_segments : (processSegmentDeleteCommand lib threshold sorts bound parameter).run db =
    ((deleteSegments lib threshold sorts bound parameter.name endBlockId
      (endBlockId + 1 - parameter.startBlockId.getD 0) (parameter.startBlockId.getD 0) 0).run
        db).map (Option.map (positiveReply parameter 200)) id := by
  unfold processSegmentDeleteCommand
  dsimp only
  rw [hend]
  dsimp only
  rw [if_neg (Nat.not_lt.mpr hle), Prog.run_bind]
  rfl

include hnames hid

/-- The reply is 200, with the number of the segments. -/
theorem isTruthful_segments_iff (hprocess : parameter.processId.isSome = true)
    (hlt : endBlockId < maxSegmentNo)
    (h : ErasesTo lib threshold sorts bound parameter.name prefixName db) :
    IsTruthful lib (namedPackets lib parameter) db
        ((processSegmentDeleteCommand lib threshold sorts bound parameter).run db) ↔
      ∀ packet ∈ namedPackets lib parameter, IsStored lib packet db ∧
        ∀ doc ∈ db.dataPackets, isStored lib packet doc = true →
          isErasedPacket lib parameter.name prefixName doc = true := by
  obtain ⟨processId, hprocess⟩ := Option.isSome_iff_exists.mp hprocess
  -- the block numbers of the loop do not wrap around
  have hpow : parameter.startBlockId.getD 0 +
      (endBlockId + 1 - parameter.startBlockId.getD 0) ≤ 2 ^ 64 := by
    have hmax : maxSegmentNo + 1 = 2 ^ 64 := rfl
    omega
  obtain ⟨db', hrun, hpackets⟩ := run_deleteSegments_of_erasesTo hid hnames h (n := 0) hpow
  have hpackets := hpackets (by omega)
  rw [if_neg (Nat.ne_of_lt hlt), Nat.zero_add] at hrun
  have hlength : (namedPackets lib parameter).length =
      endBlockId + 1 - parameter.startBlockId.getD 0 := by
    unfold namedPackets
    rw [hend]
    simp
  -- the reply counts the segments in the range, whatever of them was stored
  have hreply : positiveReply parameter 200 (endBlockId + 1 - parameter.startBlockId.getD 0) =
      ⟨200, some processId, some (namedPackets lib parameter).length⟩ := by
    unfold positiveReply
    rw [hprocess, hlength]
  -- a named packet is gone when every document stored under it was erased
  have hgone : ∀ packet : lib.names.Name, ¬IsStored lib packet db' ↔
      ∀ doc ∈ db.dataPackets, isStored lib packet doc = true →
        isErasedPacket lib parameter.name prefixName doc = true := by
    intro packet
    rw [isStored_erased_iff hpackets]
    push Not
    simp only [ne_eq, Bool.not_eq_false]
  rw [run_segments hend hle, hrun, Prod.map_apply, Option.map_some, hreply]
  constructor
  -- the count in the reply is the number of packets named, so each of them was stored and went
  · rintro ⟨response, hresponse, hdone, -, -⟩ packet hpacket
    obtain rfl := Option.some.inj hresponse
    have hcount := (Option.some.inj (hdone rfl)).symm
    have hall := List.countP_eq_length.mp hcount packet hpacket
    rw [decide_eq_true_iff, id, hgone] at hall
    exact hall
  · intro hall
    refine ⟨_, rfl, fun _ => congrArg some ?_, fun hfailed => ?_, fun hok => absurd rfl hok⟩
    · refine (List.countP_eq_length.mpr fun packet hpacket => ?_).symm
      rw [decide_eq_true_iff, id, hgone]
      exact hall packet hpacket
    · exact absurd hfailed (show ¬200 = 405 by norm_num)

/-- The loop does not end, or a deletion in it does not return: there is no reply. -/
theorem run_segments_of_not (hmax : endBlockId ≤ maxSegmentNo)
    (h : endBlockId = maxSegmentNo ∨
      ∀ prefixName, ¬ErasesTo lib threshold sorts bound parameter.name prefixName db) :
    ((processSegmentDeleteCommand lib threshold sorts bound parameter).run db).1 = none := by
  have hpow : maxSegmentNo + 1 = 2 ^ 64 := rfl
  have hloop : ((deleteSegments lib threshold sorts bound parameter.name endBlockId
      (endBlockId + 1 - parameter.startBlockId.getD 0) (parameter.startBlockId.getD 0) 0).run
        db).1 = none := by
    -- with a name that can be erased it is the wrap that keeps the loop going
    by_cases hprefix : ∃ prefixName,
        ErasesTo lib threshold sorts bound parameter.name prefixName db
    · obtain ⟨prefixName, hprefix⟩ := hprefix
      have hlast := h.resolve_right fun hnone => hnone prefixName hprefix
      obtain ⟨db', hrun, -⟩ := run_deleteSegments_of_erasesTo hid hnames hprefix
        (show parameter.startBlockId.getD 0 +
          (endBlockId + 1 - parameter.startBlockId.getD 0) ≤ 2 ^ 64 by omega)
      rw [hrun, if_pos hlast]
    · exact run_deleteSegments_of_not hid hnames (not_exists.mp hprefix) (by omega) (by omega)
  rw [run_segments hend hle, Prod.map_fst, hloop]
  rfl

/-- A range that is not empty, whatever the deletions come to. -/
theorem isTruthful_range_iff (hprocess : parameter.processId.isSome = true)
    (hmax : endBlockId ≤ maxSegmentNo) :
    IsTruthful lib (namedPackets lib parameter) db
        ((processSegmentDeleteCommand lib threshold sorts bound parameter).run db) ↔
      endBlockId ≠ maxSegmentNo ∧ ∃ prefixName,
        ErasesTo lib threshold sorts bound parameter.name prefixName db ∧
          ∀ packet ∈ namedPackets lib parameter, IsStored lib packet db ∧
            ∀ doc ∈ db.dataPackets, isStored lib packet doc = true →
              isErasedPacket lib parameter.name prefixName doc = true := by
  constructor
  · intro htruthful
    -- a handle that does not return replies nothing, so it replies no truth
    by_cases hends : endBlockId ≠ maxSegmentNo ∧ ∃ prefixName,
        ErasesTo lib threshold sorts bound parameter.name prefixName db
    · obtain ⟨hne, prefixName, hprefix⟩ := hends
      exact ⟨hne, prefixName, hprefix, (isTruthful_segments_iff hnames hend hle hid hprocess
        (Nat.lt_of_le_of_ne hmax hne) hprefix).mp htruthful⟩
    · refine (not_isTruthful_of_none ?_ htruthful).elim
      refine run_segments_of_not hnames hend hle hid hmax ?_
      rw [not_and_or, not_ne_iff] at hends
      exact hends.imp_right not_exists.mp
  · rintro ⟨hne, prefixName, hprefix, hall⟩
    exact (isTruthful_segments_iff hnames hend hle hid hprocess
      (Nat.lt_of_le_of_ne hmax hne) hprefix).mpr hall

end Segments

section Reply

variable {parameter : RepoCommandParameter lib.names}

/-- Without selectors the index does not matter. -/
theorem run_onValidated (hselectors : parameter.selectors = none) (ndn : IndexLibrary lib.names)
    (index : Index lib.names) (db : Db) :
    ((onValidated lib threshold sorts bound ndn index (some parameter)).run db).map
        (Option.map Prod.fst) id =
      (if parameter.startBlockId.isNone && parameter.endBlockId.isNone
        then processSingleDeleteCommand lib threshold sorts bound parameter
        else processSegmentDeleteCommand lib threshold sorts bound parameter).run db := by
  have hforget : ∀ response : Option RepoCommandResponse,
      (response.map fun response => (response, index)).map Prod.fst = response := by
    intro response
    cases response with
    | none => rfl
    | some response => rfl
  unfold onValidated
  dsimp only
  rw [hselectors]
  dsimp only
  -- the command names a block or it does not; the index is the same before and after
  split
  · rw [Prog.run_bind, Prog.run_pure]
    exact Prod.ext (hforget _) rfl
  · rw [Prog.run_bind, Prog.run_pure]
    exact Prod.ext (hforget _) rfl

/-- An empty range is refused, and a range without an end is not answered. -/
theorem isTruthful_empty_range {endBlockId : ℕ} (hend : parameter.endBlockId = some endBlockId)
    (hlt : endBlockId < parameter.startBlockId.getD 0) (packets : List lib.names.Name) (db : Db) :
    IsTruthful lib packets db
      ((processSegmentDeleteCommand lib threshold sorts bound parameter).run db) := by
  have hrefused : (processSegmentDeleteCommand lib threshold sorts bound parameter).run db =
      (some (negativeReply 403), db) := by
    unfold processSegmentDeleteCommand
    dsimp only
    rw [hend]
    dsimp only
    rw [if_pos hlt]
    rfl
  rw [hrefused]
  refine ⟨_, rfl, fun hok => ?_, fun hfailed => ?_, fun _ _ => rfl⟩
  · exact absurd hok (show ¬403 = 200 by norm_num)
  · exact absurd hfailed (show ¬403 = 405 by norm_num)

/-- Without an end block the reply never tells what was deleted. -/
theorem not_isTruthful_endless (hend : parameter.endBlockId = none)
    (packets : List lib.names.Name) (db : Db) :
    ¬IsTruthful lib packets db
      ((processSegmentDeleteCommand lib threshold sorts bound parameter).run db) := by
  refine not_isTruthful_of_none ?_
  unfold processSegmentDeleteCommand
  dsimp only
  rw [hend]
  rfl

/-- **What a deletion is reported to have done, exactly.** The reply to a command for one packet
or for a range of segments is truthful if and only if the packet is stored and stays, or else
the range is empty, or it ends and each of its packets is stored and goes. -/
theorem isTruthful_iff (hnames : lib.names.Segmented) {parameter : RepoCommandParameter lib.names}
    (hselectors : parameter.selectors = none) (hprocess : parameter.processId.isSome = true)
    (hend : ∀ endBlockId ∈ parameter.endBlockId, endBlockId ≤ maxSegmentNo)
    {name : lib.names.Name} (hname : erasedName lib parameter = some name)
    (hid : ¬(calculateDataIdentifier lib name = [] ∨ calculateTenantIdentifier lib name = []))
    (ndn : IndexLibrary lib.names) (index : Index lib.names) (db : Db) :
    IsTruthful lib (namedPackets lib parameter) db
        (((onValidated lib threshold sorts bound ndn index (some parameter)).run db).map
          (Option.map Prod.fst) id) ↔
      RepliesTruthfully lib threshold sorts bound parameter name db := by
  rw [run_onValidated hselectors]
  unfold RepliesTruthfully
  -- the three branches of the handle: one packet, a start without an end, a range
  cases hlast : parameter.endBlockId with
  | none =>
    cases hfirst : parameter.startBlockId with
    | none =>
      have hsingle : namedPackets lib parameter = [parameter.name] := by
        unfold namedPackets
        rw [hfirst, hlast]
      have hname : lib.names.withoutSegment parameter.name = some name := by
        unfold erasedName at hname
        rw [hfirst, hlast] at hname
        exact hname
      rw [hsingle]
      exact isTruthful_packet_iff hid hname
    | some startBlockId => exact iff_of_false (not_isTruthful_endless hlast _ db) id
  | some endBlockId =>
    obtain rfl : parameter.name = name := by
      unfold erasedName at hname
      rw [hlast] at hname
      exact Option.some.inj hname
    simp only [Option.isNone_some, Bool.and_false, Bool.false_eq_true, if_false]
    rcases Nat.lt_or_ge endBlockId (parameter.startBlockId.getD 0) with hlt | hle
    -- an empty range is refused, and nothing is said about any packet
    · exact iff_of_true (isTruthful_empty_range hlast hlt _ db) (Or.inl hlt)
    · rw [isTruthful_range_iff hnames hlast hle hid hprocess (hend endBlockId hlast)]
      exact (or_iff_right (Nat.not_lt.mpr hle)).symm

end Reply

end Truthful

section Examples

/-- Ties are broken in the order of the documents. -/
private def storedOrder : ℕ → ℕ → CounterSort := fun _ _ => .stable

/-- The database after the packet of the city has been inserted. -/
private def storedCity : Db := ((insert cityLibrary 1 storedOrder 0 cityPacket).run Db.empty).2

/-- The command to delete the packet. -/
private def deleteCity : RepoCommandParameter cityLibrary.names :=
  ⟨cityData.name, none, none, none, some 7⟩

/-- What the command comes to. -/
private def deletedCity : Option RepoCommandResponse × Db :=
  ((onValidated cityLibrary 1 storedOrder 0 cityIndexLibrary ⟨[], 100, 0⟩ (some deleteCity)).run
    storedCity).map (Option.map Prod.fst) id

theorem isTruthful_iff_city :
    IsTruthful cityLibrary (namedPackets cityLibrary deleteCity) storedCity deletedCity ↔
      RepliesTruthfully cityLibrary 1 storedOrder 0 deleteCity deleteCity.name storedCity :=
  isTruthful_iff octetNames_segmented rfl rfl (fun _ h => absurd h (by simp [deleteCity])) rfl
    (by decide) cityIndexLibrary ⟨[], 100, 0⟩ storedCity

/-- A packet that was stored and has been erased is reported as a failure. -/
theorem erased_packet_reported_failed :
    (IsStored cityLibrary deleteCity.name storedCity ∧
      ¬IsStored cityLibrary deleteCity.name deletedCity.2 ∧
        deletedCity.1 = some (negativeReply 405)) ∧
    ¬IsTruthful cityLibrary (namedPackets cityLibrary deleteCity) storedCity deletedCity := by
  have hrun : IsStored cityLibrary deleteCity.name storedCity ∧
      ¬IsStored cityLibrary deleteCity.name deletedCity.2 ∧
        deletedCity.1 = some (negativeReply 405) := by
    decide +kernel
  refine ⟨hrun, ?_⟩
  rintro ⟨response, hresponse, -, hfailed, -⟩
  obtain rfl := Option.some.inj (hrun.2.2.symm.trans hresponse)
  obtain ⟨packet, hpacket, -, hstored⟩ := hfailed rfl
  rw [List.mem_singleton.mp hpacket] at hstored
  exact hrun.2.1 hstored

end Examples

end OpenGeoBase
