import OpenGeoBase.Lib.Counting
import OpenGeoBase.Repo.DeleteHandle
import OpenGeoBase.Repo.WriteFlow

/-!
# Commands for a range of segments

The loops over a range count with 64 bits. The one of `processSegmentDeleteCommand` goes on while
its counter is at most the last segment, which is always if that is the largest number: the loop
is endless (`deleteLoop_endless`). The one of `segInit` stops before the sum of the first segment
and the credit, and that sum is 0 if the last segment is the largest number and less than the
credit away; then nothing is requested (`length_initialSegments_iff`).

These are the loops that the handles of `processSegmentDeleteCommand` and `segInit` stand for
(`processSegmentDelete_eq`, `segInitLoop_eq`). What is expected of a range holds if and only if it
does not end with the largest number and a deletion in it returns (`segmentRange_iff`).
-/

namespace OpenGeoBase

open AtomicCalls Collection

/-! ### Deletions -/

/-- The database, how often `deleteData` has been called, and how many of these deletions are
counted as successful. -/
structure Deletions where
  db : Db
  deletions : ℕ
  nDeletedDatas : ℕ

section Delete

variable (lib : StorageLibrary) (threshold : ℤ) (sorts : ℕ → ℕ → CounterSort) (bound : ℕ)

/-- The body of the loop. -/
def deleteSegment (prefixName : lib.names.Name) (i : ℕ) (s : Deletions) : Option Deletions :=
  match (deleteData lib threshold sorts bound (prefixName ++ [lib.names.fromSegment i])).run
    s.db with
  | (none, _) => none
  | (some deleted, db) =>
    some ⟨db, s.deletions + 1, if deleted ≠ 0 then s.nDeletedDatas + 1 else s.nDeletedDatas⟩

/-- `for (SegmentNo i = startBlockId; i <= endBlockId; i++)` -/
def deleteLoop (prefixName : lib.names.Name) (endBlockId fuel startBlockId : ℕ) (db : Db) :
    Option Deletions :=
  (Counting.loop (maxSegmentNo + 1) (fun i => i ≤ endBlockId)
    (deleteSegment lib threshold sorts bound prefixName) fuel startBlockId ⟨db, 0, 0⟩).map Prod.snd

/-- `processSegmentDeleteCommand` with its loop: the replies, and the deletions. -/
def processSegmentDelete (parameter : RepoCommandParameter lib.names) (fuel : ℕ) (db : Db) :
    Option (List RepoCommandResponse × Deletions) :=
  let startBlockId := parameter.startBlockId.getD 0
  match parameter.endBlockId with
  | none => none
  | some endBlockId =>
    if endBlockId < startBlockId then some ([negativeReply 403], ⟨db, 0, 0⟩)
    else (deleteLoop lib threshold sorts bound parameter.name endBlockId fuel startBlockId db).map
      fun s => ([positiveReply parameter 200 s.nDeletedDatas], s)

/-- The deletion of a segment returns: there is nothing to look for under the name, or `erase`
gets to its end. -/
def DeletionReturns (name : lib.names.Name) (db : Db) : Prop :=
  (calculateDataIdentifier lib name = [] ∨ calculateTenantIdentifier lib name = []) ∨
    ∃ prefixName, ErasesTo lib threshold sorts bound name prefixName db

end Delete

section DeleteLoop

variable {lib : StorageLibrary} {threshold : ℤ} {sorts : ℕ → ℕ → CounterSort} {bound : ℕ}
  {name : lib.names.Name}

/-- The loop up to the largest number does not end. -/
theorem deleteLoop_endless {startBlockId : ℕ} (hstart : startBlockId ≤ maxSegmentNo) (fuel : ℕ)
    (db : Db) :
    deleteLoop lib threshold sorts bound name maxSegmentNo fuel startBlockId db = none := by
  unfold deleteLoop
  rw [Counting.loop_endless (fun j hj => decide_eq_true (Nat.le_of_lt_succ hj))
    (Nat.lt_succ_of_le hstart)]
  rfl

/-- The other loops go over the range. -/
theorem deleteLoop_eq {startBlockId endBlockId fuel : ℕ} (hle : startBlockId ≤ endBlockId)
    (hlt : endBlockId < maxSegmentNo) (hfuel : endBlockId + 1 - startBlockId < fuel) (db : Db) :
    deleteLoop lib threshold sorts bound name endBlockId fuel startBlockId db =
      (List.range' startBlockId (endBlockId + 1 - startBlockId)).foldlM
        (fun s i => deleteSegment lib threshold sorts bound name i s) ⟨db, 0, 0⟩ := by
  unfold deleteLoop
  rw [Counting.loop_eq (Nat.le_succ_of_le hle) (Nat.succ_lt_succ hlt)
    (fun j _ hj => decide_eq_true (Nat.le_of_lt_succ hj))
    (decide_eq_false (Nat.not_succ_le_self endBlockId)) hfuel, Option.map_map]
  exact Option.map_id'

variable (hnames : lib.names.Segmented)
include hnames

/-- A deletion that returns leaves a database in which the next one does. -/
theorem deleteSegment_of_returns {s : Deletions} {i : ℕ} (hi : i < 2 ^ 64)
    (h : DeletionReturns lib threshold sorts bound name s.db) :
    ∃ db', deleteSegment lib threshold sorts bound name i s =
        some ⟨db', s.deletions + 1, s.nDeletedDatas + 1⟩ ∧
      DeletionReturns lib threshold sorts bound name db' := by
  have hname := hnames.withoutSegment_append name hi
  by_cases hid : calculateDataIdentifier lib name = [] ∨ calculateTenantIdentifier lib name = []
  · -- `erase` returns before it has done anything
    have hrun : (deleteData lib threshold sorts bound
        (name ++ [lib.names.fromSegment i])).run s.db = (some (-1), s.db) := by
      unfold deleteData erase
      rw [hname]
      dsimp only
      rw [if_pos hid]
      rfl
    refine ⟨s.db, ?_, Or.inl hid⟩
    unfold deleteSegment
    rw [hrun]
    rfl
  · obtain ⟨prefixName, herases⟩ := h.resolve_left hid
    obtain ⟨db', hrun, -, hobjects⟩ := run_deleteData_of_erasesTo hid hname herases
    refine ⟨db', ?_, Or.inr ⟨prefixName, herases.again hobjects⟩⟩
    unfold deleteSegment
    rw [hrun]
    rfl

/-- A deletion that does not return ends the loop. -/
theorem deleteSegment_of_not {s : Deletions} {i : ℕ} (hi : i < 2 ^ 64)
    (h : ¬DeletionReturns lib threshold sorts bound name s.db) :
    deleteSegment lib threshold sorts bound name i s = none := by
  obtain ⟨hid, hnone⟩ := not_or.mp h
  have hrun := run_deleteData_of_not hid (hnames.withoutSegment_append name hi)
    (not_exists.mp hnone)
  unfold deleteSegment
  split
  · rfl
  · next hsome =>
    rw [hsome] at hrun
    exact absurd hrun (by simp)

/-- **The deletions of a range.** All of them return, or the first one does not. -/
theorem foldlM_deleteSegment {segments i : ℕ} (hi : i + segments ≤ 2 ^ 64) (hpos : 0 < segments)
    (s : Deletions) :
    (DeletionReturns lib threshold sorts bound name s.db → ∃ db', (List.range' i segments).foldlM
        (fun s i => deleteSegment lib threshold sorts bound name i s) s =
      some ⟨db', s.deletions + segments, s.nDeletedDatas + segments⟩) ∧
    (¬DeletionReturns lib threshold sorts bound name s.db → (List.range' i segments).foldlM
        (fun s i => deleteSegment lib threshold sorts bound name i s) s = none) := by
  constructor
  · intro h
    -- every deletion leaves a database in which the next one returns too
    clear hpos
    induction segments generalizing i s with
    | zero => exact ⟨s.db, rfl⟩
    | succ segments ih =>
      obtain ⟨db₁, hfirst, h₁⟩ := deleteSegment_of_returns hnames (by omega : i < 2 ^ 64) h
      obtain ⟨db', hrest⟩ := ih (by omega : i + 1 + segments ≤ 2 ^ 64)
        ⟨db₁, s.deletions + 1, s.nDeletedDatas + 1⟩ h₁
      refine ⟨db', ?_⟩
      rw [List.range'_succ, List.foldlM_cons, hfirst]
      dsimp only at hrest
      rw [Nat.add_right_comm, Nat.add_right_comm s.nDeletedDatas] at hrest
      exact hrest
  · intro h
    -- the first deletion already does not return
    obtain ⟨segments, rfl⟩ : ∃ n, segments = n + 1 := ⟨segments - 1, by omega⟩
    rw [List.range'_succ, List.foldlM_cons, deleteSegment_of_not hnames (by omega) h]
    rfl

end DeleteLoop

section DeleteCommand

variable {lib : StorageLibrary} {threshold : ℤ} {sorts : ℕ → ℕ → CounterSort} {bound : ℕ}
  {name : lib.names.Name} {parameter : RepoCommandParameter lib.names} {endBlockId fuel : ℕ}

/-- The loop of the command, over its segments. -/
theorem run_deleteSegments_eq (segments i : ℕ) (s : Deletions) :
    ((deleteSegments lib threshold sorts bound name endBlockId segments i s.nDeletedDatas).run
        s.db).1 =
      if endBlockId = maxSegmentNo then none
      else ((List.range' i segments).foldlM
        (fun s i => deleteSegment lib threshold sorts bound name i s) s).map
          Deletions.nDeletedDatas := by
  -- over the segments left, with the counters of the loop carried in `s`
  induction segments generalizing i s with
  | zero => rfl
  | succ segments ih =>
    rw [deleteSegments, Prog.run_bind, List.range'_succ, List.foldlM_cons]
    unfold deleteSegment at ih ⊢
    cases hrun : (deleteData lib threshold sorts bound
        (name ++ [lib.names.fromSegment i])).run s.db with
    | mk deleted db =>
      cases deleted with
      -- an exception leaves the handle, whatever segments are left
      | none =>
        show none = _
        split
        · rfl
        · rfl
      | some deleted =>
        exact ih (i + 1)
          ⟨db, s.deletions + 1, if deleted ≠ 0 then s.nDeletedDatas + 1 else s.nDeletedDatas⟩

/-- **The command replies what its loop comes to.** -/
theorem processSegmentDelete_eq (hend : parameter.endBlockId = some endBlockId)
    (hmax : endBlockId ≤ maxSegmentNo)
    (hfuel : endBlockId + 1 - parameter.startBlockId.getD 0 < fuel) (db : Db) :
    (processSegmentDelete lib threshold sorts bound parameter fuel db).map Prod.fst =
      ((processSegmentDeleteCommand lib threshold sorts bound parameter).run db).1.map
        fun response => [response] := by
  unfold processSegmentDelete
  dsimp only
  rw [hend]
  dsimp only
  -- an empty range is refused before the loop
  by_cases hle : parameter.startBlockId.getD 0 ≤ endBlockId
  · have hloop : ((deleteSegments lib threshold sorts bound parameter.name endBlockId
        (endBlockId + 1 - parameter.startBlockId.getD 0) (parameter.startBlockId.getD 0) 0).run
          db).1 = _ :=
      run_deleteSegments_eq _ _ ⟨db, 0, 0⟩
    rw [if_neg (Nat.not_lt.mpr hle), run_segments hend hle, Prod.map_fst, hloop]
    -- at the largest number the counter wraps and the loop goes round
    rcases Nat.eq_or_lt_of_le hmax with rfl | hlt
    · rw [deleteLoop_endless hle, if_pos rfl]
      rfl
    · rw [deleteLoop_eq hle hlt hfuel, if_neg (Nat.ne_of_lt hlt), Option.map_map, Option.map_map,
        Option.map_map]
      rfl
  · have hlt := Nat.not_le.mp hle
    unfold processSegmentDeleteCommand
    dsimp only
    rw [if_pos hlt, hend]
    dsimp only
    rw [if_pos hlt]
    rfl

end DeleteCommand

/-! ### Requests -/

section Insert

variable (W now : ℕ) (process : ProcessInfo)

/-- The body of the loop of `segInit`: the segment is requested. -/
def requestSegment (segment : ℕ) (s : ProcessInfo × List ℕ) : ProcessInfo × List ℕ :=
  ({ s.1 with
    credit := s.1.credit - 1
    retryCounts := fun other => if other = segment then some 0 else s.1.retryCounts other },
    s.2 ++ [segment])

/-- `segInit` with its loop: the process, and the segments requested. -/
def segInitLoop (startBlockId : ℕ) (endBlockId : Option ℕ) (fuel : ℕ) :
    Option (ProcessInfo × List ℕ) :=
  let credit := initialCredit W startBlockId endBlockId
  let process := { process with
    credit := credit
    noEndTime := if endBlockId.isSome then process.noEndTime else now + noEndTimeout }
  (Counting.loop W (fun segment => segment < (startBlockId + credit) % W)
    (fun segment s => some (requestSegment segment s)) fuel startBlockId (process, [])).map
    fun (segment, process, segments) =>
      ({ process with
        nextSegment := segment
        nextSegmentQueue := process.nextSegmentQueue ++ [segment] }, segments)

variable {W now process} {startBlockId fuel : ℕ} {endBlockId : Option ℕ}

/-- The requests of a range are counted against the credit. -/
theorem foldlM_requestSegment (n i : ℕ) (s : ProcessInfo × List ℕ) :
    (List.range' i n).foldlM (fun s segment => some (requestSegment segment s)) s =
      some ({ s.1 with
        credit := s.1.credit - n
        retryCounts := fun segment =>
          if segment ∈ List.range' i n then some 0 else s.1.retryCounts segment },
        s.2 ++ List.range' i n) := by
  -- over the segments requested: each takes one credit and starts its retry count
  induction n generalizing i s with
  | zero => simp
  | succ n ih =>
    rw [List.range'_succ, List.foldlM_cons]
    show List.foldlM _ _ _ = _
    rw [ih]
    unfold requestSegment
    dsimp only
    congr 2
    · congr 1
      · funext segment
        by_cases hfirst : segment = i
        · simp [hfirst]
        · simp [hfirst]
      · push_cast
        ring
    · rw [List.append_assoc]
      rfl

/-- **The loop of `segInit`** requests the initial segments, and leaves the process that follows. -/
theorem segInitLoop_eq (hstart : startBlockId < W) (hfuel : defaultCredit < fuel) :
    segInitLoop W now process startBlockId endBlockId fuel =
      some (segInit W now process startBlockId endBlockId,
        initialSegments W startBlockId endBlockId) := by
  have hmod : (startBlockId + initialCredit W startBlockId endBlockId) % W < W :=
    Nat.mod_lt _ (Nat.zero_lt_of_lt hstart)
  have hle := Nat.mod_le (startBlockId + initialCredit W startBlockId endBlockId) W
  have hcredit := initialCredit_le W startBlockId endBlockId
  unfold segInitLoop
  dsimp only
  -- the loop ends at its bound, or where it starts if the sum has wrapped around
  rw [Counting.loop_eq (Nat.le_max_left startBlockId
      ((startBlockId + initialCredit W startBlockId endBlockId) % W)) (max_lt hstart hmod)
    (fun j _ hj => decide_eq_true (by omega)) (decide_eq_false (by omega)) (by omega),
    foldlM_requestSegment]
  have hsub : max startBlockId ((startBlockId + initialCredit W startBlockId endBlockId) % W) -
      startBlockId = (startBlockId + initialCredit W startBlockId endBlockId) % W -
        startBlockId := by omega
  have hmax : max startBlockId ((startBlockId + initialCredit W startBlockId endBlockId) % W) =
      startBlockId + ((startBlockId + initialCredit W startBlockId endBlockId) % W -
        startBlockId) := by omega
  unfold segInit initialSegments
  dsimp only
  rw [hsub, hmax, List.length_range', Option.map_some, Option.map_some]
  rfl

/-- **The number of the requests.** It is the credit, or the length of the range if that is less,
unless the range ends with the largest number and starts at 0 or less than the credit away. -/
theorem length_initialSegments_iff {endBlockId : ℕ} (hle : startBlockId ≤ endBlockId)
    (hmax : endBlockId ≤ maxSegmentNo) :
    (initialSegments (maxSegmentNo + 1) startBlockId (some endBlockId)).length =
        min defaultCredit (endBlockId - startBlockId + 1) ↔
      endBlockId ≠ maxSegmentNo ∨
        0 < startBlockId ∧ startBlockId + defaultCredit ≤ maxSegmentNo := by
  have hcredit : initialCredit (maxSegmentNo + 1) startBlockId (some endBlockId) =
      min defaultCredit ((endBlockId + (maxSegmentNo + 1) - startBlockId + 1) %
        (maxSegmentNo + 1)) := rfl
  unfold initialSegments
  rw [List.length_range', hcredit]
  unfold maxSegmentNo defaultCredit at *
  omega

end Insert

/-! ### What is expected of a range -/

section Range

variable (lib : StorageLibrary) (threshold : ℤ) (sorts : ℕ → ℕ → CounterSort) (bound : ℕ)

/-- The deletion of a range ends after as many deletions as there are segments, with one reply. -/
def DeletesRange (parameter : RepoCommandParameter lib.names) (segments : ℕ) (db : Db) : Prop :=
  ∃ fuel response s,
    processSegmentDelete lib threshold sorts bound parameter fuel db = some ([response], s) ∧
      s.deletions = segments

/-- An insertion of the range starts with interests for as many segments as there is credit, or
for all of them. -/
def StartsRange (now : ℕ) (process : ProcessInfo) (startBlockId endBlockId : ℕ) : Prop :=
  ∃ fuel process' segments,
    segInitLoop (maxSegmentNo + 1) now process startBlockId (some endBlockId) fuel =
      some (process', segments) ∧
    segments.length = min defaultCredit (endBlockId - startBlockId + 1) ∧ 1 ≤ segments.length

variable {lib threshold sorts bound} {parameter : RepoCommandParameter lib.names}
  {endBlockId : ℕ}

/-- **Commands for a range of segments, exactly.** A deletion ends after all its segments with a
reply, and an insertion starts with the interests it has credit for, if and only if the range does
not end with the largest number and a deletion in it returns. -/
theorem segmentRange_iff (hnames : lib.names.Segmented)
    (hend : parameter.endBlockId = some endBlockId)
    (hle : parameter.startBlockId.getD 0 ≤ endBlockId) (hmax : endBlockId ≤ maxSegmentNo)
    (now : ℕ) (process : ProcessInfo) (db : Db) :
    (DeletesRange lib threshold sorts bound parameter
        (endBlockId - parameter.startBlockId.getD 0 + 1) db ∧
      StartsRange now process (parameter.startBlockId.getD 0) endBlockId) ↔
        endBlockId ≠ maxSegmentNo ∧
          DeletionReturns lib threshold sorts bound parameter.name db := by
  have hdelete : ∀ fuel, processSegmentDelete lib threshold sorts bound parameter fuel db =
      (deleteLoop lib threshold sorts bound parameter.name endBlockId fuel
        (parameter.startBlockId.getD 0) db).map
          fun s => ([positiveReply parameter 200 s.nDeletedDatas], s) := by
    intro fuel
    unfold processSegmentDelete
    dsimp only
    rw [hend]
    dsimp only
    rw [if_neg (Nat.not_lt.mpr hle)]
  have hcount : endBlockId + 1 - parameter.startBlockId.getD 0 =
      endBlockId - parameter.startBlockId.getD 0 + 1 := by omega
  have hpow : maxSegmentNo + 1 = 2 ^ 64 := rfl
  constructor
  · rintro ⟨⟨fuel, response, s, hrun, -⟩, -⟩
    rw [hdelete] at hrun
    -- a loop that has ended did not wrap
    have hne : endBlockId ≠ maxSegmentNo := by
      rintro rfl
      rw [deleteLoop_endless hle] at hrun
      exact absurd hrun (by simp)
    refine ⟨hne, ?_⟩
    -- and its first deletion returned, with any fuel
    by_contra hnot
    have hfirst := deleteSegment_of_not hnames (i := parameter.startBlockId.getD 0)
      (s := ⟨db, 0, 0⟩) (by omega) hnot
    have hnone : deleteLoop lib threshold sorts bound parameter.name endBlockId fuel
        (parameter.startBlockId.getD 0) db = none := by
      unfold deleteLoop
      cases fuel with
      | zero => rfl
      | succ fuel =>
        rw [Counting.loop, if_pos (decide_eq_true hle), hfirst]
        rfl
    rw [hnone] at hrun
    exact absurd hrun (by simp)
  · rintro ⟨hne, hreturns⟩
    have hlt := Nat.lt_of_le_of_ne hmax hne
    refine ⟨?_, ?_⟩
    · have hlast : parameter.startBlockId.getD 0 +
          (endBlockId - parameter.startBlockId.getD 0 + 1) ≤ 2 ^ 64 := by omega
      -- both loops run through the range: the deletions first
      obtain ⟨db', hfold⟩ :=
        (foldlM_deleteSegment hnames hlast (Nat.succ_pos _) ⟨db, 0, 0⟩).1 hreturns
      dsimp only at hfold
      rw [Nat.zero_add] at hfold
      refine ⟨endBlockId + 2, positiveReply parameter 200
        (endBlockId - parameter.startBlockId.getD 0 + 1), ⟨db',
          endBlockId - parameter.startBlockId.getD 0 + 1,
          endBlockId - parameter.startBlockId.getD 0 + 1⟩, ?_, rfl⟩
      rw [hdelete, deleteLoop_eq hle hlt (by omega), hcount, hfold]
      rfl
    -- then the interests, which the credit limits
    · have hlength := (length_initialSegments_iff hle hmax).mpr (Or.inl hne)
      refine ⟨defaultCredit + 1, _, _, segInitLoop_eq (by omega) (Nat.lt_succ_self _), hlength, ?_⟩
      rw [hlength]
      unfold defaultCredit
      omega

end Range

section Examples

/-- A command for three segments. -/
private def threeSegments : RepoCommandParameter cityLibrary.names :=
  ⟨cityData.name, none, some 3, some 5, some 7⟩

theorem segmentRange_iff_three :
    (DeletesRange cityLibrary 1 (fun _ _ => .stable) 0 threeSegments (5 - 3 + 1) Db.empty ∧
      StartsRange 0 .fresh 3 5) ↔
        5 ≠ maxSegmentNo ∧
          DeletionReturns cityLibrary 1 (fun _ _ => .stable) 0 threeSegments.name Db.empty :=
  segmentRange_iff octetNames_segmented rfl (by decide) (by decide) 0 .fresh Db.empty

/-- A command for the last segment. -/
private def lastSegment : RepoCommandParameter cityLibrary.names :=
  ⟨cityData.name, none, some maxSegmentNo, some maxSegmentNo, some 7⟩

/-- The last segment is not deleted to the end, and it is not requested. -/
theorem last_segment_endless :
    ¬DeletesRange cityLibrary 1 (fun _ _ => .stable) 0 lastSegment 1 Db.empty ∧
      ¬StartsRange 0 .fresh maxSegmentNo maxSegmentNo := by
  constructor
  · rintro ⟨fuel, response, s, hrun, -⟩
    -- no fuel is enough for the deletions
    have hnone : processSegmentDelete cityLibrary 1 (fun _ _ => .stable) 0 lastSegment fuel
        Db.empty = none := by
      unfold processSegmentDelete lastSegment
      dsimp only [Option.getD_some]
      rw [if_neg (Nat.lt_irrefl _), deleteLoop_endless le_rfl]
      rfl
    rw [hnone] at hrun
    exact absurd hrun (by simp)
  · rintro ⟨fuel, process', segments, hrun, -, hpos⟩
    cases fuel with
    | zero => exact absurd hrun (by simp [segInitLoop, Counting.loop])
    | succ fuel =>
      -- and for the write the loop ends before its first segment
      have hempty : (segInitLoop (maxSegmentNo + 1) 0 .fresh maxSegmentNo (some maxSegmentNo)
          (fuel + 1)).map Prod.snd = some [] := rfl
      rw [hrun] at hempty
      obtain rfl : segments = [] := Option.some.inj hempty
      exact absurd hpos (by simp)

end Examples

end OpenGeoBase
