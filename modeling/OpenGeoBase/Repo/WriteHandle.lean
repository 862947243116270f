import OpenGeoBase.Lib.Transition
import OpenGeoBase.Repo.DeleteHandle
import Mathlib.Data.Finset.Insert
import Mathlib.Order.Interval.Finset.Nat

/-!
# The write handle

`WriteHandle` fetches the packets that an insert command names and stores them. A command for
one packet expresses one interest; a command for segments keeps up to twelve interests in
flight and sends one more for each packet that comes. What it knows of a command is the
`ProcessInfo` under the process id; the interests it has out, the deletions it has scheduled
and the packets it has stored are the rest of a `Session`.

Block numbers are taken modulo `W`. In the code this is 2^64; with `W = 0` they are unbounded,
as a number modulo 0 is the number itself. A final block id that is no segment number makes
`toSegment` throw out of the event loop, and so does a storage that throws; neither is a step
here.

The handle counts what it has stored in the `InsertNum` of its response. For segments it looks
at the result of `insertData`, for a single packet it does not (`insertNum_throughout_iff`).
-/

namespace OpenGeoBase

open Transition

/-- `RepoCommandResponse`, as far as insertions set it. -/
structure InsertResponse where
  statusCode : ℕ
  processId : Option ℕ
  startBlockId : Option ℕ
  endBlockId : Option ℕ
  insertNum : Option ℕ
  deriving DecidableEq

/-- A response with a status code and nothing else. -/
def InsertResponse.status (statusCode : ℕ) : InsertResponse := ⟨statusCode, none, none, none, none⟩

/-- `WriteHandle::ProcessInfo`. -/
structure ProcessInfo where
  response : InsertResponse
  nextSegmentQueue : List ℕ
  nextSegment : ℕ
  retryCounts : ℕ → Option ℕ
  credit : ℤ
  noEndTime : ℕ

/-- The entry that `m_processes[processId]` makes up. -/
def ProcessInfo.fresh : ProcessInfo := ⟨.status 0, [], 0, fun _ => none, 0, 0⟩

/-- How often an interest is expressed again. -/
def retryTimeout : ℕ := 3

/-- The interests in flight. -/
def defaultCredit : ℕ := 12

/-- For so long an end may be unknown, in milliseconds. -/
def noEndTimeout : ℕ := 10000

/-- A process that is over is kept for so long. -/
def processDeleteTime : ℕ := 10000

namespace ProcessInfo

variable (W : ℕ) (process : ProcessInfo)

def setStatusCode (statusCode : ℕ) : ProcessInfo :=
  { process with response := { process.response with statusCode := statusCode } }

def setInsertNum (insertNum : ℕ) : ProcessInfo :=
  { process with response := { process.response with insertNum := some insertNum } }

def setEndBlockId (endBlockId : ℕ) : ProcessInfo :=
  { process with response := { process.response with endBlockId := some endBlockId } }

/-- `getInsertNum`; the handle has set it. -/
def insertNum : ℕ := process.response.insertNum.getD 0

/-- The end as a packet's final block id leaves it: learned, or lowered. -/
def refreshEnd (finalBlockId : Option ℕ) : ProcessInfo :=
  match finalBlockId with
  | none => process
  | some final =>
    match process.response.endBlockId with
    | some endBlockId => if final < endBlockId then process.setEndBlockId final else process
    | none => process.setEndBlockId final

/-- `InsertNum` after `insertData` has returned. -/
def countInserted (inserted : Bool) : ProcessInfo :=
  if inserted then process.setInsertNum (process.insertNum + 1) else process

/-- Has everything up to the end been counted? -/
def hasAll : Bool :=
  match process.response.endBlockId with
  | none => false
  | some endBlockId =>
    decide (process.insertNum ≥ (endBlockId + W - process.response.startBlockId.getD 0 + 1) % W)

/-- Does the segment lie beyond the end? -/
def exceedsEnd (segment : ℕ) : Bool :=
  match process.response.endBlockId with
  | none => false
  | some endBlockId => decide (segment > endBlockId)

/-- The segment is on its way once more. -/
def countRetry (segment : ℕ) : ProcessInfo :=
  let retryTime := match process.retryCounts segment with | none => 0 | some n => n + 1
  { process with retryCounts := Function.update process.retryCounts segment (some retryTime) }

/-- The segment has come. -/
def forget (segment : ℕ) : ProcessInfo :=
  { process with retryCounts := Function.update process.retryCounts segment none }

/-- The next segment goes to the queue, unless it lies beyond the end. -/
def pushNext : ProcessInfo :=
  if process.exceedsEnd ((process.nextSegment + 1) % W) then process
  else { process with
    nextSegment := (process.nextSegment + 1) % W
    nextSegmentQueue := process.nextSegmentQueue ++ [(process.nextSegment + 1) % W] }

end ProcessInfo

/-! ### What the callbacks do to a process -/

/-- What has become of a process. -/
inductive Control where
  /-- The process goes on; an interest for a segment may have been expressed. -/
  | proceed (process : ProcessInfo) (sent : Option ℕ)
  /-- The process is over and will be deleted. -/
  | finish (process : ProcessInfo)
  /-- The process is erased. -/
  | erase
  /-- An assertion has failed. -/
  | abort

section Callbacks

variable (W now : ℕ) (process : ProcessInfo)

/-- The initial credit of a process. -/
def initialCredit (startBlockId : ℕ) (endBlockId : Option ℕ) : ℕ :=
  match endBlockId with
  | some endBlockId => min defaultCredit ((endBlockId + W - startBlockId + 1) % W)
  | none => defaultCredit

/-- The segments that `segInit` requests. -/
def initialSegments (startBlockId : ℕ) (endBlockId : Option ℕ) : List ℕ :=
  List.range' startBlockId
    ((startBlockId + initialCredit W startBlockId endBlockId) % W - startBlockId)

/-- `WriteHandle::segInit`. -/
def segInit (startBlockId : ℕ) (endBlockId : Option ℕ) : ProcessInfo :=
  let segments := initialSegments W startBlockId endBlockId
  { process with
    credit := (initialCredit W startBlockId endBlockId : ℤ) - segments.length
    noEndTime := if endBlockId.isSome then process.noEndTime else now + noEndTimeout
    retryCounts := fun segment =>
      if segment ∈ segments then some 0 else process.retryCounts segment
    nextSegment := startBlockId + segments.length
    nextSegmentQueue := process.nextSegmentQueue ++ [startBlockId + segments.length] }

/-- The end of `onSegmentDataControl`: the segment at the front of the queue is requested. -/
def sendNext (fetchedSegment : ℕ) : Control :=
  match process.nextSegmentQueue with
  | [] => .proceed process none
  | sendingSegment :: queue =>
    let process := { process with nextSegmentQueue := queue }
    if process.exceedsEnd sendingSegment then .proceed process none
    else if process.retryCounts fetchedSegment = none then .abort
    else
      let process := (process.forget fetchedSegment).countRetry sendingSegment
      .proceed (({ process with credit := process.credit - 1 } : ProcessInfo).pushNext W)
        (some sendingSegment)

/-- `WriteHandle::onSegmentDataControl`. -/
def onSegmentDataControl (fetchedSegment : ℕ) : Control :=
  let process := { process with credit := process.credit + 1 }
  if process.response.endBlockId = none ∧ now > process.noEndTime then
    .finish (process.setStatusCode 405)
  else if process.hasAll W then .finish (process.setStatusCode 200)
  else if process.credit = 0 then .proceed process none
  else sendNext W process fetchedSegment

/-- `WriteHandle::onSegmentDataValidated`. -/
def onSegmentDataValidated (fetchedSegment : ℕ) (finalBlockId : Option ℕ) (inserted : Bool) :
    Control :=
  onSegmentDataControl W now ((process.refreshEnd finalBlockId).countInserted inserted)
    fetchedSegment

/-- `WriteHandle::onSegmentTimeoutControl`. -/
def onSegmentTimeoutControl (timeoutSegment : ℕ) : Control :=
  match process.retryCounts timeoutSegment with
  | none => .abort
  | some retryTime =>
    if retryTime ≥ retryTimeout then .erase
    else .proceed (process.countRetry timeoutSegment) (some timeoutSegment)

/-- Does `onDataValidated` insert the packet? -/
def insertsData : Bool := process.insertNum == 0

/-- `WriteHandle::onDataValidated`. -/
def onDataValidated : ProcessInfo :=
  if insertsData process then process.setInsertNum 1 else process

/-- `WriteHandle::extendNoEndTime`. -/
def extendNoEndTime : ProcessInfo :=
  if now > process.noEndTime then process.setStatusCode 405
  else { process with noEndTime := now + noEndTimeout }

/-- `WriteHandle::onCheckValidated` for a process that exists: the reply, and the process. -/
def onCheckValidated : InsertResponse × ProcessInfo :=
  if process.response.startBlockId.isNone && process.response.endBlockId.isNone then
    (process.response, process)
  else if process.response.endBlockId.isNone then
    ((extendNoEndTime now process).response, extendNoEndTime now process)
  else (process.response, process)

/-- `WriteHandle::processSingleInsertCommand`: the reply, and the process. -/
def processSingleInsertCommand (processId : ℕ) : InsertResponse × ProcessInfo :=
  let response := { process.response with processId := some processId, insertNum := some 0 }
  ({ response with statusCode := 100 },
    { process with response := { response with statusCode := 300 } })

/-- `WriteHandle::processSegmentedInsertCommand` once the blocks are in order: the reply, and
the process. -/
def processSegmentedInsertCommand (processId startBlockId : ℕ) (endBlockId : Option ℕ) :
    InsertResponse × ProcessInfo :=
  let response := { process.response with
    processId := some processId
    insertNum := some 0
    startBlockId := some startBlockId
    endBlockId := endBlockId.or process.response.endBlockId }
  ({ response with statusCode := 100 },
    segInit W now { process with response := { response with statusCode := 300 } }
      startBlockId endBlockId)

end Callbacks

/-! ### The handle -/

/-- What goes on under a process id: the entry of `m_processes`, the interests that are out, when
deletions are due, and what has been requested, stored and rejected since the command. -/
structure Session where
  process : Option ProcessInfo
  /-- The outstanding interests for a single packet. -/
  single : ℕ
  /-- The segments with an outstanding interest. -/
  segments : List ℕ
  deletions : List ℕ
  /-- The segments requested so far. -/
  requested : Finset ℕ
  /-- The packets stored so far, `none` standing for a single one. -/
  stored : List (Option ℕ)
  /-- The number of packets that failed validation. -/
  invalid : ℕ

/-- Nothing has happened under the process id. -/
def Session.empty : Session := ⟨none, 0, [], [], ∅, [], 0⟩

/-- What can happen under a process id. -/
inductive SessionOp (names : NameLibrary) where
  /-- A valid insert command is given the process id. -/
  | insert (parameter : Option (RepoCommandParameter names))
  | data (inserted : Bool)
  | dataInvalid
  | timeout
  | segmentData (segment : ℕ) (finalBlockId : Option ℕ) (inserted : Bool)
  | segmentInvalid (segment : ℕ)
  | segmentTimeout (segment : ℕ)
  /-- A valid insert check command for the process id. -/
  | check
  /-- A scheduled deletion runs. -/
  | delete (due : ℕ)

namespace Session

variable {names : NameLibrary} (W now processId : ℕ) (session : Session)

/-- The process starts with no interests sent yet. -/
def start (process : ProcessInfo) : Session :=
  { session with process := some process, requested := ∅, stored := [], invalid := 0 }

/-- A single insert command. -/
def startSingle : Session :=
  let process := (processSingleInsertCommand (session.process.getD .fresh) processId).2
  { session.start process with single := session.single + 1 }

/-- A segmented insert command whose blocks are in order. -/
def startSegmented (startBlockId : ℕ) (endBlockId : Option ℕ) : Session :=
  let process := (processSegmentedInsertCommand W now (session.process.getD .fresh) processId
    startBlockId endBlockId).2
  { session.start process with
    segments := session.segments ++ initialSegments W startBlockId endBlockId
    requested := (initialSegments W startBlockId endBlockId).toFinset }

/-- `WriteHandle::onValidated`. Commands that are refused leave everything as it is. -/
def onInsertValidated (parameter : Option (RepoCommandParameter names)) : Session :=
  match parameter with
  | none => session
  | some parameter =>
    if parameter.startBlockId.isSome || parameter.endBlockId.isSome then
      if parameter.selectors.isSome then session
      else
        let startBlockId := parameter.startBlockId.getD 0
        if parameter.endBlockId.any (startBlockId > ·) then session
        else session.startSegmented W now processId startBlockId parameter.endBlockId
    else session.startSingle processId

/-- `deferredDeleteProcess`. -/
def deferredDelete : Session :=
  { session with deletions := session.deletions ++ [now + processDeleteTime] }

/-- The process goes on as the callback says; `none` when an assertion has failed. -/
def continueWith : Control → Option Session
  | .proceed process none => some { session with process := some process }
  | .proceed process (some segment) => some { session with
      process := some process
      segments := session.segments ++ [segment]
      requested := session.requested ∪ {segment} }
  | .finish process => some ({ session with process := some process }.deferredDelete now)
  | .erase => some { session with process := none }
  | .abort => none

/-- The packet is stored, if `insertData` says so. -/
def record (packet : Option ℕ) (inserted : Bool) : Session :=
  if inserted then { session with stored := session.stored ++ [packet] } else session

/-- An interest for a segment has ended. -/
def endSegment (segment : ℕ) : Session :=
  { session with segments := session.segments.erase segment }

/-- An interest for a single packet has ended. -/
def endSingle : Session := { session with single := session.single - 1 }

/-- The packet of a single insertion comes. -/
def onData (inserted : Bool) : Session :=
  match session.process with
  | none => session.endSingle
  | some process =>
    let session := if insertsData process then session.record none inserted else session
    { session.endSingle with process := some (onDataValidated process) }.deferredDelete now

/-- A segment comes. -/
def onSegmentData (segment : ℕ) (finalBlockId : Option ℕ) (inserted : Bool) : Option Session :=
  match session.process with
  | none => some (session.endSegment segment)
  | some process =>
    ((session.endSegment segment).record (some segment) inserted).continueWith now
      (onSegmentDataValidated W now process segment finalBlockId inserted)

/-- An interest for a segment times out. -/
def onSegmentTimeout (segment : ℕ) : Option Session :=
  match session.process with
  | none => some (session.endSegment segment)
  | some process =>
    (session.endSegment segment).continueWith now (onSegmentTimeoutControl process segment)

/-- What an event makes of a session; `none` when an assertion fails. -/
def apply : SessionOp names → Option Session
  | .insert parameter => some (session.onInsertValidated W now processId parameter)
  | .data inserted => some (session.onData now inserted)
  | .dataInvalid => some { session.endSingle with invalid := session.invalid + 1 }
  | .timeout => some { session.endSingle with process := none }
  | .segmentData segment finalBlockId inserted =>
    session.onSegmentData W now segment finalBlockId inserted
  | .segmentInvalid segment =>
    some { session.endSegment segment with invalid := session.invalid + 1 }
  | .segmentTimeout segment => session.onSegmentTimeout now segment
  | .check => some { session with
      process := session.process.map fun process => (onCheckValidated now process).2 }
  | .delete due => some { session with
      process := none, deletions := session.deletions.erase due }

/-- When an event can occur: an interest ends once, and a deletion runs when it is due. -/
def Enabled : SessionOp names → Prop
  | .data _ | .dataInvalid | .timeout => 0 < session.single
  | .segmentData segment _ _ | .segmentInvalid segment | .segmentTimeout segment =>
    segment ∈ session.segments
  | .delete due => due ∈ session.deletions ∧ due ≤ now
  | .insert _ | .check => True

end Session

/-- The handle: the time, and what goes on under each process id. -/
structure WriteHandle where
  now : ℕ
  sessions : ℕ → Session
  aborted : Bool

/-- The handle before the first command. -/
def WriteHandle.start : WriteHandle := ⟨0, fun _ => .empty, false⟩

/-- The session under a process id is replaced. -/
def WriteHandle.put (s : WriteHandle) (processId : ℕ) (session : Session) : WriteHandle :=
  { s with sessions := Function.update s.sessions processId session }

@[simp] theorem WriteHandle.sessions_put_self (s : WriteHandle) (processId : ℕ)
    (session : Session) : (s.put processId session).sessions processId = session :=
  Function.update_self ..

/-- Putting a session leaves the other ones. -/
theorem WriteHandle.sessions_put_of_ne (s : WriteHandle) {processId processId' : ℕ}
    (session : Session) (h : processId' ≠ processId) :
    (s.put processId session).sessions processId' = s.sessions processId' :=
  Function.update_of_ne h ..

/-- The events of the handle. -/
inductive WriteOp (names : NameLibrary) where
  | advance (d : ℕ)
  | session (processId : ℕ) (op : SessionOp names)

/-- One event. After a failed assertion there is none. -/
inductive WriteStep {names : NameLibrary} (W : ℕ) :
    WriteHandle → WriteOp names → WriteHandle → Prop where
  | advance (s : WriteHandle) (d : ℕ) (h : s.aborted = false) :
    WriteStep W s (.advance d) { s with now := s.now + d }
  | session (s : WriteHandle) (processId : ℕ) (op : SessionOp names) (session : Session)
      (h : s.aborted = false) (henabled : (s.sessions processId).Enabled s.now op)
      (happly : (s.sessions processId).apply W s.now processId op = some session) :
    WriteStep W s (.session processId op) (s.put processId session)
  | abort (s : WriteHandle) (processId : ℕ) (op : SessionOp names)
      (h : s.aborted = false) (henabled : (s.sessions processId).Enabled s.now op)
      (happly : (s.sessions processId).apply W s.now processId op = none) :
    WriteStep W s (.session processId op) { s with aborted := true }

/-- The runs of the handle. -/
def writeHandle (names : NameLibrary) (W : ℕ) : System WriteHandle (WriteOp names) where
  init s := s = .start
  step := WriteStep W

/-! ### The callbacks leave the count alone -/

/-- The process that goes on, if one does. -/
def Control.process : Control → Option ProcessInfo
  | .proceed process _ => some process
  | .finish process => some process
  | .erase => none
  | .abort => none

namespace ProcessInfo

variable (W : ℕ) (process : ProcessInfo)

@[simp] theorem insertNum_setStatusCode (n : ℕ) :
    (process.setStatusCode n).insertNum = process.insertNum := rfl

@[simp] theorem insertNum_setInsertNum (n : ℕ) : (process.setInsertNum n).insertNum = n := rfl

@[simp] theorem insertNum_setEndBlockId (n : ℕ) :
    (process.setEndBlockId n).insertNum = process.insertNum := rfl

@[simp] theorem response_pushNext : (process.pushNext W).response = process.response := by
  unfold pushNext
  split <;> rfl

@[simp] theorem credit_pushNext : (process.pushNext W).credit = process.credit := by
  unfold pushNext
  split <;> rfl

@[simp] theorem retryCounts_pushNext :
    (process.pushNext W).retryCounts = process.retryCounts := by
  unfold pushNext
  split <;> rfl

/-- A final block id changes nothing but the end. -/
theorem refreshEnd_eq (finalBlockId : Option ℕ) :
    process.refreshEnd finalBlockId = { process with response := { process.response with
      endBlockId := (process.refreshEnd finalBlockId).response.endBlockId } } := by
  unfold refreshEnd
  split
  · rfl
  · split
    · split <;> rfl
    · rfl

/-- Counting a segment changes nothing but the count. -/
theorem countInserted_eq (inserted : Bool) :
    process.countInserted inserted = { process with response := { process.response with
      insertNum := (process.countInserted inserted).response.insertNum } } := by
  unfold countInserted
  cases inserted <;> rfl

@[simp] theorem insertNum_refreshEnd (finalBlockId : Option ℕ) :
    (process.refreshEnd finalBlockId).insertNum = process.insertNum := by
  rw [refreshEnd_eq]
  rfl

@[simp] theorem nextSegment_refreshEnd (finalBlockId : Option ℕ) :
    (process.refreshEnd finalBlockId).nextSegment = process.nextSegment := by
  rw [refreshEnd_eq]

@[simp] theorem nextSegment_countInserted (inserted : Bool) :
    (process.countInserted inserted).nextSegment = process.nextSegment := by
  rw [countInserted_eq]

/-- Only a successful insertion is counted. -/
theorem insertNum_countInserted (inserted : Bool) :
    (process.countInserted inserted).insertNum =
      process.insertNum + if inserted then 1 else 0 := by
  unfold countInserted
  cases inserted <;> simp

end ProcessInfo

section Callbacks

variable {W now : ℕ} {process process' : ProcessInfo} {segment : ℕ}

/-- Sending counts no insertion. -/
theorem insertNum_sendNext (h : (sendNext W process segment).process = some process') :
    process'.insertNum = process.insertNum := by
  unfold sendNext at h
  -- the branches of `sendNext`: an empty queue, an end exceeded, no retry count, a request
  split at h
  · obtain rfl := Option.some.inj h
    rfl
  · dsimp only at h
    split at h
    · obtain rfl := Option.some.inj h
      rfl
    · split at h
      · exact absurd h (by simp [Control.process])
      · obtain rfl := Option.some.inj h
        unfold ProcessInfo.insertNum
        rw [ProcessInfo.response_pushNext]
        rfl

/-- A segment that came counts no insertion until it is validated. -/
theorem insertNum_onSegmentDataControl
    (h : (onSegmentDataControl W now process segment).process = some process') :
    process'.insertNum = process.insertNum := by
  unfold onSegmentDataControl at h
  dsimp only at h
  -- no way out of the control touches the counter
  split at h
  · obtain rfl := Option.some.inj h
    rfl
  · split at h
    · obtain rfl := Option.some.inj h
      rfl
    · split at h
      · obtain rfl := Option.some.inj h
        rfl
      · exact (insertNum_sendNext h).trans rfl

theorem insertNum_onSegmentDataValidated {finalBlockId : Option ℕ} {inserted : Bool}
    (h : (onSegmentDataValidated W now process segment finalBlockId inserted).process =
      some process') :
    process'.insertNum = process.insertNum + if inserted then 1 else 0 := by
  rw [insertNum_onSegmentDataControl h, ProcessInfo.insertNum_countInserted,
    ProcessInfo.insertNum_refreshEnd]

/-- A timeout counts no insertion. -/
theorem insertNum_onSegmentTimeoutControl
    (h : (onSegmentTimeoutControl process segment).process = some process') :
    process'.insertNum = process.insertNum := by
  unfold onSegmentTimeoutControl at h
  split at h
  · exact absurd h (by simp [Control.process])
  · split at h
    · exact absurd h (by simp [Control.process])
    · obtain rfl := Option.some.inj h
      rfl

/-- A check counts no insertion. -/
theorem insertNum_onCheckValidated :
    (onCheckValidated now process).2.insertNum = process.insertNum := by
  unfold onCheckValidated
  split
  · rfl
  · split
    · unfold extendNoEndTime
      split <;> rfl
    · rfl

end Callbacks

namespace Session

variable {now : ℕ} {session session' : Session}

/-- A callback changes the process as it says, and stores nothing itself. -/
theorem of_continueWith {control : Control} (h : session.continueWith now control = some session') :
    session'.process = control.process ∧ session'.stored = session.stored := by
  unfold continueWith at h
  -- the five ends a step can have, of which an abort leaves no session
  split at h
  · obtain rfl := Option.some.inj h
    exact ⟨rfl, rfl⟩
  · obtain rfl := Option.some.inj h
    exact ⟨rfl, rfl⟩
  · obtain rfl := Option.some.inj h
    exact ⟨rfl, rfl⟩
  · obtain rfl := Option.some.inj h
    exact ⟨rfl, rfl⟩
  · exact absurd h (by simp)

/-- Storing a packet changes what is stored and nothing else. -/
theorem record_eq (session : Session) (packet : Option ℕ) (inserted : Bool) :
    session.record packet inserted =
      { session with stored := (session.record packet inserted).stored } := by
  unfold record
  split <;> rfl

@[simp] theorem length_stored_record (packet : Option ℕ) (inserted : Bool) :
    (session.record packet inserted).stored.length =
      session.stored.length + if inserted then 1 else 0 := by
  unfold record
  cases inserted <;> simp

end Session

/-! ### The reported count -/

/-- The process under an id has counted what was stored for it, and nothing else. -/
def Session.Counted (session : Session) : Prop :=
  ∀ process, session.process = some process → process.insertNum = session.stored.length

/-- The process under an id reports no more than was stored for it. -/
def Session.ReportsStored (session : Session) : Prop :=
  ∀ process, session.process = some process → process.insertNum ≤ session.stored.length

/-- A packet that is the first one of a single insertion is stored when it comes. -/
def Session.StoresSingle {names : NameLibrary} (session : Session) : SessionOp names → Prop
  | .data inserted => ∀ process, session.process = some process → insertsData process →
    inserted = true
  | _ => True

namespace Session.Counted

variable {names : NameLibrary} {W now processId : ℕ} {session session' : Session}

/-- A session that starts has counted nothing. -/
theorem start (session : Session) {process : ProcessInfo} (h : process.insertNum = 0) :
    (session.start process).Counted := by
  intro process' hprocess
  obtain rfl := Option.some.inj hprocess
  rw [h]
  rfl

/-- An insert command keeps the count. -/
theorem onInsertValidated (h : session.Counted)
    (parameter : Option (RepoCommandParameter names)) :
    (session.onInsertValidated W now processId parameter).Counted := by
  -- a command is refused, or starts a process with nothing counted
  unfold Session.onInsertValidated
  split
  · exact h
  · split
    · split
      · exact h
      · dsimp only
        split
        · exact h
        · exact start session rfl
    · exact start session rfl

theorem continueWith (h : session.Counted) {process : ProcessInfo}
    (hprocess : session.process = some process) {control : Control} {n : ℕ}
    (hcontrol : ∀ process', control.process = some process' →
      process'.insertNum = process.insertNum + n)
    {before : Session} (hcont : before.continueWith now control = some session')
    (hbefore : before.stored.length = session.stored.length + n) : session'.Counted := by
  obtain ⟨hp, hs⟩ := Session.of_continueWith hcont
  intro process' hprocess'
  rw [hs, hbefore, hcontrol process' (hp ▸ hprocess'), h process hprocess]

/-- A session without a process counts whatever it has stored. -/
theorem of_none (h : session.process = none) : session.Counted := by
  intro process hprocess
  rw [h] at hprocess
  exact absurd hprocess (by simp)

/-- A single packet keeps the count if its insertion succeeds where it is counted. -/
theorem onData (h : session.Counted) {inserted : Bool}
    (hok : ∀ process, session.process = some process → insertsData process → inserted = true) :
    (session.onData now inserted).Counted := by
  unfold Session.onData
  split
  · next hnone => exact of_none hnone
  · next process hprocess =>
    intro process' hprocess'
    obtain rfl := Option.some.inj hprocess'
    have hcount := h process hprocess
    unfold onDataValidated
    -- only the first packet is stored here; segments come by another callback
    by_cases hinserts : insertsData process
    · -- the first packet, which is stored
      have hzero : process.insertNum = 0 := beq_iff_eq.mp hinserts
      obtain rfl := hok process hprocess hinserts
      rw [if_pos hinserts, if_pos hinserts, ProcessInfo.insertNum_setInsertNum]
      change 1 = (session.record none true).stored.length
      rw [Session.length_stored_record, ← hcount, hzero]
      rfl
    · rw [if_neg hinserts, if_neg hinserts]
      exact hcount

/-- A segment keeps the count. -/
theorem onSegmentData (h : session.Counted) {segment : ℕ} {finalBlockId : Option ℕ}
    {inserted : Bool}
    (happly : session.onSegmentData W now segment finalBlockId inserted = some session') :
    session'.Counted := by
  unfold Session.onSegmentData at happly
  split at happly
  · next hnone =>
    obtain rfl := Option.some.inj happly
    exact of_none hnone
  · next process hprocess =>
    exact h.continueWith hprocess (fun process' => insertNum_onSegmentDataValidated) happly
      (Session.length_stored_record _ _)

/-- A timeout keeps the count. -/
theorem onSegmentTimeout (h : session.Counted) {segment : ℕ}
    (happly : session.onSegmentTimeout now segment = some session') : session'.Counted := by
  unfold Session.onSegmentTimeout at happly
  split at happly
  · next hnone =>
    obtain rfl := Option.some.inj happly
    exact of_none hnone
  · next process hprocess =>
    exact h.continueWith hprocess (n := 0) (fun process' => insertNum_onSegmentTimeoutControl)
      happly rfl

/-- One event keeps the count, if the packet of a single insertion is stored when it comes. -/
theorem apply (h : session.Counted) {op : SessionOp names} (hok : session.StoresSingle op)
    (happly : session.apply W now processId op = some session') : session'.Counted := by
  -- each callback counts what it stores, `data` only under the condition
  cases op with
  | insert parameter =>
    obtain rfl := Option.some.inj happly
    exact h.onInsertValidated parameter
  | data inserted =>
    obtain rfl := Option.some.inj happly
    exact h.onData hok
  | dataInvalid =>
    obtain rfl := Option.some.inj happly
    exact h
  | timeout =>
    obtain rfl := Option.some.inj happly
    exact of_none rfl
  | segmentData segment finalBlockId inserted => exact h.onSegmentData happly
  | segmentInvalid segment =>
    obtain rfl := Option.some.inj happly
    exact h
  | segmentTimeout segment => exact h.onSegmentTimeout happly
  | check =>
    obtain rfl := Option.some.inj happly
    intro process' hprocess'
    obtain ⟨process, hprocess, rfl⟩ := Option.map_eq_some_iff.mp hprocess'
    rw [insertNum_onCheckValidated]
    exact h process hprocess
  | delete due =>
    obtain rfl := Option.some.inj happly
    exact of_none rfl

/-- A packet that is not stored is reported nevertheless. -/
theorem storesSingle (h : session.Counted) {op : SessionOp names}
    (happly : session.apply W now processId op = some session') (hP : session'.ReportsStored) :
    session.StoresSingle op := by
  cases op with
  | data inserted =>
    intro process hprocess hinserts
    obtain rfl := Option.some.inj happly
    -- if the packet was not stored, the count of one would be above the number stored
    by_contra hno
    obtain rfl : inserted = false := by simpa using hno
    have hzero : process.insertNum = 0 := beq_iff_eq.mp hinserts
    have hcount := h process hprocess
    have hP' := hP (process.setInsertNum 1) (by
      unfold Session.onData
      rw [hprocess]
      dsimp only
      rw [if_pos hinserts]
      change some (onDataValidated process) = _
      unfold onDataValidated
      rw [if_pos hinserts])
    have hstored : (session.onData now false).stored = session.stored := by
      unfold Session.onData
      rw [hprocess]
      dsimp only
      rw [if_pos hinserts]
      rfl
    change (session.onData now false).ReportsStored at hP
    change 1 ≤ (session.onData now false).stored.length at hP'
    rw [hstored, ← hcount, hzero] at hP'
    exact absurd hP' (by omega)
  | _ => trivial

end Session.Counted

/-- The packet that comes for a single insertion that has counted none is stored. -/
def WriteHandle.StoresSingle {names : NameLibrary} (s : WriteHandle) : WriteOp names → Prop
  | .advance _ => True
  | .session processId op => (s.sessions processId).StoresSingle op

/-- **The reported count, exactly.** In a run of the handle no process ever reports more
insertions than were stored for it if and only if every packet that comes for a single insertion
with an `InsertNum` of 0 is stored. -/
theorem insertNum_throughout_iff {names : NameLibrary} {W : ℕ}
    {h : List (WriteHandle × WriteOp names)} {s : WriteHandle}
    (hrun : Run (writeHandle names W) h s) :
    Throughout (fun s => ∀ processId, (s.sessions processId).ReportsStored) h s ↔
      Admitted WriteHandle.StoresSingle h := by
  refine Run.throughout_iff (I := fun s => ∀ processId, (s.sessions processId).Counted)
    ?_ (fun s hI processId process hprocess => (hI processId process hprocess).le) ?_ ?_ hrun
  · rintro s rfl processId
    exact Session.Counted.of_none rfl
  -- one session moves at a time, so the invariant of the others carries over
  · intro s op s' hI hok hstep
    cases hstep with
    | advance d => exact hI
    | session processId op session h henabled happly =>
      intro processId'
      by_cases heq : processId' = processId
      · rw [heq, WriteHandle.sessions_put_self]
        exact (hI processId).apply hok happly
      · rw [WriteHandle.sessions_put_of_ne s session heq]
        exact hI processId'
    | abort processId op h henabled happly => exact hI
  -- the converse: a step after which the report is right has met the condition
  · intro s op s' hI hstep hP
    cases hstep with
    | advance d => trivial
    | session processId op session h henabled happly =>
      have hreports := hP processId
      rw [WriteHandle.sessions_put_self] at hreports
      exact (hI processId).storesSingle happly hreports
    | abort processId op h henabled happly =>
      cases op with
      | data inserted => exact absurd happly (by simp [Session.apply])
      | _ => trivial

section Examples

/-- A command for one packet. -/
private def insertOnePacket : RepoCommandParameter octetNames := ⟨[], none, none, none, none⟩

private def afterInsert : WriteHandle := WriteHandle.start.put 1 (Session.empty.startSingle 1)

private theorem run_insertOnePacket :
    Run (writeHandle octetNames (2 ^ 64))
      [(.start, .session 1 (.insert (some insertOnePacket)))] afterInsert :=
  (Run.nil rfl).snoc (WriteStep.session .start 1 _ _ rfl trivial rfl)

/-- The packet comes, and is stored or not. -/
private theorem run_onePacket (inserted : Bool) :
    Run (writeHandle octetNames (2 ^ 64))
      [(.start, .session 1 (.insert (some insertOnePacket))),
        (afterInsert, .session 1 (.data inserted))]
      (afterInsert.put 1 ((Session.empty.startSingle 1).onData 0 inserted)) := by
  have hsession : afterInsert.sessions 1 = Session.empty.startSingle 1 :=
    WriteHandle.sessions_put_self _ _ _
  refine run_insertOnePacket.snoc (WriteStep.session afterInsert 1 _ _ rfl ?_ ?_)
  · rw [hsession]
    exact Nat.zero_lt_one
  · rw [hsession]
    rfl

/-- The packet is stored when it comes. -/
theorem insertNum_throughout_stored :
    Throughout (fun s => ∀ processId, (s.sessions processId).ReportsStored)
      [(.start, WriteOp.session 1 (.insert (some insertOnePacket))),
        (afterInsert, .session 1 (.data true))]
      (afterInsert.put 1 ((Session.empty.startSingle 1).onData 0 true)) := by
  refine (insertNum_throughout_iff (run_onePacket true)).mpr ?_
  simp only [Admitted, List.mem_cons, List.not_mem_nil, or_false, forall_eq_or_imp, forall_eq]
  exact ⟨trivial, fun _ _ _ => rfl⟩

/-- The storage refuses the packet, and the process reports one insertion. -/
theorem reports_one_too_many :
    ∃ h s, Run (writeHandle octetNames (2 ^ 64)) h s ∧
      ¬∀ processId, (s.sessions processId).ReportsStored := by
  refine ⟨_, _, run_onePacket false, fun h => ?_⟩
  have hone := h 1
  rw [WriteHandle.sessions_put_self] at hone
  exact absurd (hone _ rfl) (by decide)

end Examples

end OpenGeoBase
