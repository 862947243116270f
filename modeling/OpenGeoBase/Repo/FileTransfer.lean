import OpenGeoBase.Repo.GetFile
import OpenGeoBase.Repo.WriteCompletion

/-!
# A file goes into the repository and comes back

`ndnputfile` has the repository insert the segments of a file and puts them when they are asked
for; it stops when the reply to a check command says that as many segments have been inserted as
the file has. The `Upload` is the tool, a process of the write handle that works for it, and
the replies on the way; interests reach the tool in any order and any number, packets that it has
put reach the handle late or more than once, and interests of the handle time out.

`Uploading` is the invariant. The handle counts what it stores, it stores only segments of the
file, and no segment twice; so a count that has reached the number of segments is a count of all of
them (`stopped_stored`). A packet that is stored is one that the tool has put, with the block of its
segment. `ndngetfile` finds the file in them (`getFile_stored`).

The handle's block numbers do not overflow: beyond the twelve interests that it starts with it
sends one for each segment that comes, and a segment comes once (`Received`).
-/

namespace OpenGeoBase

open Blocks Text Transition

/-! ### How far the block numbers get -/

section Callbacks

variable {W now segment : ℕ} {process process' : ProcessInfo}

/-- How many interests a callback expresses. -/
def Control.sends (control : Control) : ℕ := control.sent.toList.length

/-- Asking for the next segment moves by one at most. -/
theorem nextSegment_pushNext_le (W : ℕ) (process : ProcessInfo) :
    (process.pushNext W).nextSegment ≤ process.nextSegment + 1 := by
  unfold ProcessInfo.pushNext
  split
  · exact Nat.le_succ _
  · exact Nat.mod_le _ _

/-- An interest that is sent uses up a credit, and the next block number is at most one more. -/
def Control.Within (nextSegment : ℕ) (credit : ℤ) (control : Control) : Prop :=
  ∀ process, control.process = some process →
    process.nextSegment ≤ nextSegment + control.sends ∧ process.credit + control.sends = credit

/-- What `sendNext` asks for is within the window. -/
theorem within_sendNext (W segment : ℕ) (process : ProcessInfo) :
    (sendNext W process segment).Within process.nextSegment process.credit := by
  -- The queue is empty, or holds segments beyond the end, or gives the next segment for one credit.
  unfold sendNext
  split
  · rintro _ ⟨⟩
    exact ⟨le_rfl, Int.add_zero _⟩
  · dsimp only
    split
    · rintro _ ⟨⟩
      exact ⟨le_rfl, Int.add_zero _⟩
    · split
      · exact nofun
      · rintro _ ⟨⟩
        refine ⟨nextSegment_pushNext_le W _, ?_⟩
        rw [ProcessInfo.credit_pushNext]
        exact Int.sub_add_cancel _ _

/-- What a segment leads to is within the window. -/
theorem within_onSegmentDataControl (W now segment : ℕ) (process : ProcessInfo) :
    (onSegmentDataControl W now process segment).Within process.nextSegment
      (process.credit + 1) := by
  -- Each branch returns the process as it is, or one credit richer, or sends the next segment for
  -- this credit.
  unfold onSegmentDataControl
  dsimp only
  split
  · rintro _ ⟨⟩
    exact ⟨le_rfl, Int.add_zero _⟩
  · split
    · rintro _ ⟨⟩
      exact ⟨le_rfl, Int.add_zero _⟩
    · split
      · rintro _ ⟨⟩
        exact ⟨le_rfl, Int.add_zero _⟩
      · exact within_sendNext W segment _

/-- What a validated segment leads to is within the window. -/
theorem within_onSegmentDataValidated (W now segment : ℕ) (process : ProcessInfo)
    (finalBlockId : Option ℕ) (inserted : Bool) :
    (onSegmentDataValidated W now process segment finalBlockId inserted).Within
      process.nextSegment (process.credit + 1) := by
  have h := within_onSegmentDataControl W now segment
    ((process.refreshEnd finalBlockId).countInserted inserted)
  rw [ProcessInfo.nextSegment_countInserted, ProcessInfo.nextSegment_refreshEnd] at h
  rw [ProcessInfo.countInserted_eq, ProcessInfo.refreshEnd_eq] at h
  rw [onSegmentDataValidated, ProcessInfo.countInserted_eq, ProcessInfo.refreshEnd_eq]
  exact h

/-- A timeout asks again and keeps the window. -/
theorem eq_of_onSegmentTimeoutControl
    (h : (onSegmentTimeoutControl process segment).process = some process') :
    process'.nextSegment = process.nextSegment ∧ process'.credit = process.credit := by
  unfold onSegmentTimeoutControl at h
  split at h
  · exact absurd h (by simp [Control.process])
  · split at h
    · exact absurd h (by simp [Control.process])
    · obtain rfl := Option.some.inj h
      exact ⟨rfl, rfl⟩

/-- A check leaves the window where it is. -/
theorem eq_of_onCheckValidated (now : ℕ) (process : ProcessInfo) :
    (onCheckValidated now process).2.nextSegment = process.nextSegment ∧
      (onCheckValidated now process).2.credit = process.credit := by
  unfold onCheckValidated
  split
  · exact ⟨rfl, rfl⟩
  · split
    · unfold extendNoEndTime
      split <;> exact ⟨rfl, rfl⟩
    · exact ⟨rfl, rfl⟩

/-- What a callback leaves of a session: what it sends is requested and out. -/
theorem Session.requested_of_continueWith {before session' : Session} {control : Control}
    (h : before.continueWith now control = some session') :
    session'.requested = before.requested ∪ control.sent.toFinset ∧
      session'.segments = before.segments ++ control.sent.toList := by
  match control with
  | .proceed process none | .finish process | .erase =>
    obtain rfl := Option.some.inj h
    exact ⟨(Finset.union_empty _).symm, (List.append_nil _).symm⟩
  | .proceed process (some k) =>
    obtain rfl := Option.some.inj h
    exact ⟨rfl, rfl⟩
  | .abort => exact absurd h (by simp [Session.continueWith])

end Callbacks

/-- Segments of a file that have come for a process: one interest was sent for each of them,
besides the ones at the start. -/
structure Received (count : ℕ) (received : Finset ℕ) (session : Session) : Prop where
  lt : ∀ k ∈ received, k < count
  ended : ∀ k ∈ received, k ∈ session.requested ∧ k ∉ session.segments
  out : ∀ k ∈ session.segments, k ∈ session.requested
  card : session.requested.card ≤ defaultCredit + received.card
  process : ∀ process, session.process = some process →
    process.nextSegment ≤ session.requested.card ∧
      session.requested.card + process.credit ≤ defaultCredit + received.card

namespace Received

variable {names : NameLibrary} {W now processId n count segment : ℕ} {received : Finset ℕ}
  {session session' : Session}

/-- The segments received were delivered one at a time. -/
theorem card_le (h : Received count received session) : received.card ≤ count := by
  have hsub : received ⊆ Finset.range count := fun k hk => Finset.mem_range.mpr (h.lt k hk)
  exact (Finset.card_le_card hsub).trans_eq (Finset.card_range count)

/-- A window with a bounded number of deliveries does not overflow. -/
theorem noOverflow (h : Received count received session) (hW : count + defaultCredit + 1 < W)
    (hcredit : ∀ process, session.process = some process → 0 ≤ process.credit) :
    session.NoOverflow W := by
  intro process hprocess
  obtain ⟨hnext, hcard⟩ := h.process process hprocess
  have hnonneg := hcredit process hprocess
  have hle := h.card_le
  exact Nat.mod_eq_of_lt (by omega)

/-- The block numbers that are out are small. -/
theorem lt_of_mem (h : Received count received session) (hflow : Flow W 0 none n session)
    (hmem : segment ∈ session.segments) : segment < count + defaultCredit := by
  have hrequested := h.out segment hmem
  have hcard := h.card
  have hle := h.card_le
  rw [hflow.requested, Finset.mem_Ico] at hrequested
  rw [hflow.requested, Nat.card_Ico] at hcard
  omega

/-- A callback that sends at most one new segment. -/
theorem of_continueWith {before : Session} {control : Control}
    (hcont : before.continueWith now control = some session')
    (hlt : ∀ k ∈ received, k < count)
    (hended : ∀ k ∈ received, k ∈ before.requested ∧ k ∉ before.segments ∧ control.sent ≠ some k)
    (hout : ∀ k ∈ before.segments, k ∈ before.requested)
    (hcard : (before.requested ∪ control.sent.toFinset).card ≤ defaultCredit + received.card)
    (hprocess : ∀ process, control.process = some process →
      process.nextSegment ≤ (before.requested ∪ control.sent.toFinset).card ∧
        (before.requested ∪ control.sent.toFinset).card + process.credit ≤
          defaultCredit + received.card) :
    Received count received session' := by
  obtain ⟨hp, -⟩ := Session.of_continueWith hcont
  obtain ⟨hrequested, hsegments⟩ := Session.requested_of_continueWith hcont
  refine ⟨hlt, fun k hk => ?_, fun k hk => ?_, hrequested ▸ hcard, fun process h => ?_⟩
  · obtain ⟨hreq, hnot, hsent⟩ := hended k hk
    rw [hrequested, hsegments, List.mem_append, Option.mem_toList]
    exact ⟨Finset.mem_union_left _ hreq, not_or.mpr ⟨hnot, hsent⟩⟩
  · rw [hsegments, List.mem_append, Option.mem_toList] at hk
    rw [hrequested, Finset.mem_union, Option.mem_toFinset]
    exact hk.imp_left (hout k)
  · rw [hrequested]
    exact hprocess process (hp ▸ h)

/-- An interest ends. -/
theorem endSegment (h : Received count received session) (segment : ℕ) :
    Received count received (session.endSegment segment) where
  lt := h.lt
  ended k hk := ⟨(h.ended k hk).1, fun hk' => (h.ended k hk).2 (List.mem_of_mem_erase hk')⟩
  out k hk := h.out k (List.mem_of_mem_erase hk)
  card := h.card
  process := h.process

/-- A segment of the file comes. -/
theorem onSegmentData (h : Received count received session)
    (hflow : Flow W 0 none n session) (hmem : segment ∈ session.segments) (hlt : segment < count)
    {finalBlockId : Option ℕ} {inserted : Bool}
    (happly : session.onSegmentData W now segment finalBlockId inserted = some session') :
    ∃ received', Received count received' session' := by
  unfold Session.onSegmentData at happly
  split at happly
  · next hnone =>
    obtain rfl := Option.some.inj happly
    exact ⟨received, h.endSegment segment⟩
  next process hprocess =>
  have hin := hflow.process process hprocess
  have hnot : segment ∉ received := fun hk => (h.ended segment hk).2 hmem
  obtain ⟨hnext, hcard⟩ := h.process process hprocess
  have hrange : ∀ k, k ∈ session.requested ↔ k < n := by
    intro k
    rw [hflow.requested, Finset.mem_Ico]
    omega
  rw [Session.record_endSegment] at happly
  -- what is sent is the first segment that has not been requested
  have hsent : ∀ k, (onSegmentDataValidated W now process segment finalBlockId inserted).sent =
      some k → k ∉ session.requested := by
    intro k hk
    have heq := hin.eq_of_sent hk
    rw [hrange]
    omega
  have hunion : (session.requested ∪ (onSegmentDataValidated W now process segment finalBlockId
      inserted).sent.toFinset).card = session.requested.card +
        (onSegmentDataValidated W now process segment finalBlockId inserted).sends := by
    unfold Control.sends
    cases hs : (onSegmentDataValidated W now process segment finalBlockId inserted).sent with
    | none => simp
    | some k =>
      rw [Option.toFinset_some, Finset.card_union_of_disjoint]
      · rfl
      · exact Finset.disjoint_singleton_right.mpr (hsent k hs)
  have hsends : (onSegmentDataValidated W now process segment finalBlockId inserted).sends ≤ 1 := by
    unfold Control.sends
    cases (onSegmentDataValidated W now process segment finalBlockId inserted).sent <;> simp
  have hnonneg := hin.credit_nonneg
  refine ⟨Finset.cons segment received hnot, of_continueWith happly ?_ ?_ ?_ ?_ ?_⟩
  · intro k hk
    rcases Finset.mem_cons.mp hk with rfl | hk
    · exact hlt
    · exact h.lt k hk
  · intro k hk
    change k ∈ session.requested ∧ k ∉ session.segments.erase segment ∧ _
    have hk' : k ∈ session.requested ∧ k ∉ session.segments.erase segment := by
      rcases Finset.mem_cons.mp hk with rfl | hk
      · exact ⟨(hrange k).mpr (by simpa using (hin.segments_mem k hmem).2),
          hin.nodup.not_mem_erase⟩
      · obtain ⟨hreq, hout⟩ := h.ended k hk
        exact ⟨hreq, fun hk => hout (List.mem_of_mem_erase hk)⟩
    exact ⟨hk'.1, hk'.2, fun hs => hsent k hs hk'.1⟩
  · exact fun k hk => h.out k (List.mem_of_mem_erase hk)
  · change (session.requested ∪ _).card ≤ _
    rw [hunion, Finset.card_cons]
    omega
  · intro process' hprocess'
    obtain ⟨hnext', hcredit'⟩ := within_onSegmentDataValidated _ _ _ _ _ _ _ hprocess'
    change process'.nextSegment ≤ (session.requested ∪ _).card ∧
      ((session.requested ∪ _).card : ℤ) + _ ≤ _
    rw [hunion, Finset.card_cons]
    push_cast
    constructor
    · omega
    · omega

/-- An interest times out. -/
theorem onSegmentTimeout (h : Received count received session)
    (hmem : segment ∈ session.segments)
    (happly : session.onSegmentTimeout now segment = some session') :
    Received count received session' := by
  have hended := (h.endSegment segment).ended
  unfold Session.onSegmentTimeout at happly
  split at happly
  · next hnone =>
    obtain rfl := Option.some.inj happly
    exact h.endSegment segment
  next process hprocess =>
  have hsegment := h.out segment hmem
  -- what is sent has been requested before
  have hunion : session.requested ∪ (onSegmentTimeoutControl process segment).sent.toFinset =
      session.requested := by
    refine Finset.union_eq_left.mpr fun k hk => ?_
    rw [Option.mem_toFinset] at hk
    exact sent_onSegmentTimeoutControl hk ▸ hsegment
  refine of_continueWith happly h.lt (fun k hk => ?_) (h.endSegment segment).out
    (hunion.symm ▸ h.card) (fun process' hprocess' => ?_)
  · obtain ⟨hreq, hout⟩ := hended k hk
    refine ⟨hreq, hout, fun hs => (h.ended k hk).2 ?_⟩
    rw [← sent_onSegmentTimeoutControl hs]
    exact hmem
  · obtain ⟨hnext', hcredit'⟩ := eq_of_onSegmentTimeoutControl hprocess'
    obtain ⟨hnext, hcard⟩ := h.process process hprocess
    change process'.nextSegment ≤ (session.requested ∪ _).card ∧
      ((session.requested ∪ _).card : ℤ) + _ ≤ _
    rw [hunion, hnext', hcredit']
    exact ⟨hnext, hcard⟩

/-- An event that brings no segment. -/
theorem apply (h : Received count received session) (hflow : Flow W 0 none n session)
    {op : SessionOp names} (hop : ∀ parameter, op ≠ .insert parameter)
    (hdata : ∀ segment final inserted, op ≠ .segmentData segment final inserted)
    (henabled : session.Enabled now op)
    (happly : session.apply W now processId op = some session') :
    Received count received session' := by
  have hsingle := hflow.single
  -- Only the segments of the command are in flight, so the steps of a single packet cannot occur;
  -- the others leave what was received.
  cases op with
  | insert parameter => exact absurd rfl (hop parameter)
  | segmentData segment final inserted => exact absurd rfl (hdata segment final inserted)
  | data inserted | dataInvalid | timeout =>
    change 0 < session.single at henabled
    omega
  | segmentInvalid segment =>
    obtain rfl := Option.some.inj happly
    exact { h.endSegment segment with }
  | segmentTimeout segment => exact h.onSegmentTimeout henabled happly
  | check =>
    obtain rfl := Option.some.inj happly
    refine ⟨h.lt, h.ended, h.out, h.card, fun process' hprocess' => ?_⟩
    obtain ⟨process, hprocess, rfl⟩ := Option.map_eq_some_iff.mp hprocess'
    obtain ⟨hnext, hcredit⟩ := eq_of_onCheckValidated now process
    rw [hnext, hcredit]
    exact h.process process hprocess
  | delete due =>
    obtain rfl := Option.some.inj happly
    exact ⟨h.lt, h.ended, h.out, h.card, nofun⟩

end Received

/-! ### What an event does to a session -/

section Sessions

variable {names : NameLibrary} {W now processId segment : ℕ} {finalBlockId : Option ℕ}
  {inserted : Bool} {session session' : Session}

/-- A segment comes: it is recorded if the process is still there, and its FinalBlockId may become
the end. -/
theorem Session.of_onSegmentData
    (h : session.onSegmentData W now segment finalBlockId inserted = some session') :
    session'.stored = (if session.process.isSome then
        (session.record (some segment) inserted).stored else session.stored) ∧
      ∀ process', session'.process = some process' → ∃ process, session.process = some process ∧
        ∀ e, process'.response.endBlockId = some e →
          process.response.endBlockId = some e ∨ finalBlockId = some e := by
  unfold Session.onSegmentData at h
  split at h
  · next hnone =>
    obtain rfl := Option.some.inj h
    refine ⟨by rw [hnone]; rfl, fun process' hprocess' => ?_⟩
    exact absurd (hnone.symm.trans hprocess') (by simp)
  -- The packet is recorded and its FinalBlockId is the only new end.
  · next process hprocess =>
    obtain ⟨hp, hs⟩ := Session.of_continueWith h
    rw [Session.record_endSegment] at hs
    refine ⟨by rw [hs, hprocess]; rfl, fun process' hprocess' =>
      ⟨process, hprocess, fun e he => ?_⟩⟩
    obtain ⟨hend, -⟩ := response_onSegmentDataControl (hp ▸ hprocess')
    rw [hend, ProcessInfo.endBlockId_countInserted] at he
    exact ProcessInfo.endBlockId_refreshEnd he

/-- Another event stores nothing, and leaves the end as it is. -/
theorem Session.of_apply {op : SessionOp names} (hsingle : session.single = 0)
    (hop : ∀ parameter, op ≠ .insert parameter)
    (hdata : ∀ segment final inserted, op ≠ .segmentData segment final inserted)
    (henabled : session.Enabled now op)
    (happly : session.apply W now processId op = some session') :
    session'.stored = session.stored ∧
      ∀ process', session'.process = some process' → ∃ process, session.process = some process ∧
        process'.response.endBlockId = process.response.endBlockId := by
  -- None of the other steps stores a packet or learns an end.
  cases op with
  | insert parameter => exact absurd rfl (hop parameter)
  | segmentData segment final inserted => exact absurd rfl (hdata segment final inserted)
  | data inserted | dataInvalid | timeout =>
    change 0 < session.single at henabled
    omega
  | segmentInvalid segment =>
    obtain rfl := Option.some.inj happly
    exact ⟨rfl, fun process' hprocess' => ⟨process', hprocess', rfl⟩⟩
  | segmentTimeout segment =>
    change session.onSegmentTimeout now segment = some session' at happly
    unfold Session.onSegmentTimeout at happly
    split at happly
    · next hnone =>
      obtain rfl := Option.some.inj happly
      exact ⟨rfl, fun process' hprocess' => absurd (hnone.symm.trans hprocess') (by simp)⟩
    · next process hprocess =>
      obtain ⟨hp, hs⟩ := Session.of_continueWith happly
      refine ⟨hs, fun process' hprocess' => ⟨process, hprocess, ?_⟩⟩
      rw [response_onSegmentTimeoutControl (hp ▸ hprocess')]
  | check =>
    obtain rfl := Option.some.inj happly
    refine ⟨rfl, fun process' hprocess' => ?_⟩
    obtain ⟨process, hprocess, rfl⟩ := Option.map_eq_some_iff.mp hprocess'
    exact ⟨process, hprocess, (response_onCheckValidated now process).1⟩
  | delete due =>
    obtain rfl := Option.some.inj happly
    exact ⟨rfl, nofun⟩

/-- The reply to a check command. -/
def Session.checkReply (session : Session) (now : ℕ) : InsertResponse :=
  match session.process with
  | some process => (onCheckValidated now process).1
  | none => .status 404

/-- A reply that is no error reports as many insertions as the process has counted. -/
theorem Session.Counted.checkReply (h : session.Counted) (now : ℕ)
    (hstatus : (session.checkReply now).statusCode < 400) :
    (session.checkReply now).insertNum.getD 0 = session.stored.length := by
  unfold Session.checkReply at hstatus ⊢
  -- A check of an ended process is answered 404; otherwise the reply carries the count of the
  -- process.
  cases hprocess : session.process with
  | none =>
    rw [hprocess] at hstatus
    exact absurd (show 404 < 400 from hstatus) (by decide)
  | some process =>
    have hreply : (onCheckValidated now process).1 = (onCheckValidated now process).2.response := by
      unfold onCheckValidated
      split
      · rfl
      · split <;> rfl
    have hnum : (onCheckValidated now process).2.insertNum = process.insertNum :=
      insertNum_onCheckValidated
    dsimp only
    rw [hreply]
    exact hnum.trans (h process hprocess)

end Sessions

/-! ### The upload -/

/-- The tool, the process of the handle that works for it, and what has passed between them. -/
structure Upload (names : NameLibrary) where
  now : ℕ
  tool : NdnPutFile names
  /-- What has become of the tool. -/
  result : NdnPutFile.CheckResult
  /-- The packets that the tool has put. -/
  put : List (Packet names)
  session : Session
  /-- The packets that the repository has stored. -/
  stored : List (Packet names)
  /-- The replies to check commands. -/
  replies : List InsertResponse

/-- The upload when the insert command has been accepted. -/
def Upload.start {names : NameLibrary} (now processId : ℕ) (m_dataPrefix : names.Name)
    (file : Str) : Upload names where
  now := now
  tool := .start m_dataPrefix file
  result := .checkAgain
  put := []
  session := Session.empty.startSegmented (2 ^ 64) now processId 0 none
  stored := []
  replies := []

/-- What can happen in an upload. -/
inductive UploadOp (names : NameLibrary) where
  | advance (d : ℕ)
  /-- An interest reaches the tool. -/
  | interest (interest : names.Name)
  /-- A packet for a segment reaches the handle. -/
  | segment (segment : ℕ) (data : Packet names) (inserted : Bool)
  /-- Another event of the process. -/
  | event (op : SessionOp names)
  /-- A check command reaches the handle. -/
  | check
  /-- A reply to a check command reaches the tool. -/
  | reply (response : InsertResponse)

/-- A step. What comes for a segment is a packet that the tool has put; the tool does nothing once
it has stopped or failed. -/
inductive UploadStep {names : NameLibrary} (processId : ℕ) :
    Upload names → UploadOp names → Upload names → Prop where
  | advance (u : Upload names) (d : ℕ) :
    UploadStep processId u (.advance d) { u with now := u.now + d }
  | interest (u : Upload names) (interest : names.Name) (tool : NdnPutFile names)
      (data : Option (SignedPacket names)) (hrunning : u.result = .checkAgain)
      (honInterest : u.tool.onInterest u.tool.m_dataPrefix interest = some (tool, data)) :
    UploadStep processId u (.interest interest)
      { u with tool := tool, put := u.put ++ data.toList.map SignedPacket.toPacket }
  | throw (u : Upload names) (interest : names.Name) (hrunning : u.result = .checkAgain)
      (honInterest : u.tool.onInterest u.tool.m_dataPrefix interest = none) :
    UploadStep processId u (.interest interest) { u with result := .failed }
  | segment (u : Upload names) (segment : ℕ) (data : Packet names) (inserted : Bool)
      (finalBlockId : Option ℕ) (session : Session) (hput : data ∈ u.put)
      (hname : data.name = segmentName names u.tool.m_dataPrefix segment)
      (hfinal : data.finalBlockId.map names.toSegment = finalBlockId.map Except.ok)
      (henabled : segment ∈ u.session.segments)
      (happly : u.session.onSegmentData (2 ^ 64) u.now segment finalBlockId inserted =
        some session) :
    UploadStep processId u (.segment segment data inserted) { u with
      session := session
      stored := if inserted && u.session.process.isSome then u.stored ++ [data] else u.stored }
  | event (u : Upload names) (op : SessionOp names) (session : Session)
      (hop : ∀ parameter, op ≠ .insert parameter)
      (hdata : ∀ segment final inserted, op ≠ .segmentData segment final inserted)
      (henabled : u.session.Enabled u.now op)
      (happly : u.session.apply (2 ^ 64) u.now processId op = some session) :
    UploadStep processId u (.event op) { u with session := session }
  | check (u : Upload names) (session : Session)
      (happly : u.session.apply (2 ^ 64) u.now processId (.check : SessionOp names) =
        some session) :
    UploadStep processId u .check { u with
      session := session
      replies := u.replies ++ [u.session.checkReply u.now] }
  | reply (u : Upload names) (response : InsertResponse) (hrunning : u.result = .checkAgain)
      (hmem : response ∈ u.replies) :
    UploadStep processId u (.reply response)
      { u with result := u.tool.onCheckCommandResponse response }

/-- The uploads of a file. -/
def upload (names : NameLibrary) (processId : ℕ) (m_dataPrefix : names.Name) (file : Str) :
    System (Upload names) (UploadOp names) where
  init u := ∃ now, u = .start now processId m_dataPrefix file
  step := UploadStep processId

/-! ### The invariant of an upload -/

/-- What the tool, the handle and the repository have to do with the file. -/
structure Uploading (names : NameLibrary) (m_dataPrefix : names.Name) (file : Str)
    (u : Upload names) : Prop where
  tool : ∃ segments, Prepared names m_dataPrefix file (window segments) u.tool
  put : ∀ data ∈ u.put, ∃ k, FilePacket names m_dataPrefix file k data
  flow : ∃ n, Flow (2 ^ 64) 0 none n u.session
  settled : Settled 0 u.session
  received : ∃ received, Received (blockCount file) received u.session
  ends : ∀ process, u.session.process = some process →
    ∀ e, process.response.endBlockId = some e → e + 1 = blockCount file
  counted : ∀ packet ∈ u.session.stored, ∃ k, packet = some k ∧
    ∃ data ∈ u.stored, FilePacket names m_dataPrefix file k data
  stored : ∀ data ∈ u.stored, ∃ k, FilePacket names m_dataPrefix file k data
  replies : ∀ response ∈ u.replies, response.statusCode < 400 →
    response.insertNum.getD 0 ≤ u.session.stored.length
  stopped : u.result = .stopped → blockCount file ≤ u.session.stored.length

namespace Uploading

variable {names : NameLibrary} {m_dataPrefix : names.Name} {file : Str} {u u' : Upload names}
  {processId : ℕ}

/-- An upload starts with the tool waiting for interests and nothing stored. -/
theorem start (hfile : file ≠ []) (now processId : ℕ) :
    Uploading names m_dataPrefix file (.start now processId m_dataPrefix file) where
  tool := ⟨[], .start hfile⟩
  put _ hdata := absurd hdata List.not_mem_nil
  flow := ⟨_, flow_startSegmented (by simp)⟩
  settled := settled_startSegmented now
  received := by
    -- Nothing was received, and the first interests fit the window.
    refine ⟨∅, fun k hk => absurd hk (Finset.notMem_empty k),
      fun k hk => absurd hk (Finset.notMem_empty k), fun k hk => List.mem_toFinset.mpr hk, ?_,
      fun process hprocess => ?_⟩
    · change (initialSegments (2 ^ 64) 0 none).toFinset.card ≤ _
      decide
    obtain rfl := Option.some.inj hprocess
    change 0 + (initialSegments (2 ^ 64) 0 none).length ≤
        (initialSegments (2 ^ 64) 0 none).toFinset.card ∧
      ((initialSegments (2 ^ 64) 0 none).toFinset.card : ℤ) +
        ((initialCredit (2 ^ 64) 0 none : ℤ) - (initialSegments (2 ^ 64) 0 none).length) ≤ _
    decide
  ends process hprocess e he := by
    obtain rfl := Option.some.inj hprocess
    exact absurd (show none = some e from he) (by simp)
  counted _ hpacket := absurd hpacket List.not_mem_nil
  stored _ hdata := absurd hdata List.not_mem_nil
  replies _ hresponse := absurd hresponse List.not_mem_nil
  stopped h := absurd h (by decide : NdnPutFile.CheckResult.checkAgain ≠ .stopped)

/-- The tool answers an interest. -/
theorem onInterest (h : Uploading names m_dataPrefix file u)
    (hcount : blockCount file ≤ 2 ^ 64) {interest : names.Name} {tool : NdnPutFile names}
    {data : Option (SignedPacket names)}
    (honInterest : u.tool.onInterest u.tool.m_dataPrefix interest = some (tool, data)) :
    Uploading names m_dataPrefix file
      { u with tool := tool, put := u.put ++ data.toList.map SignedPacket.toPacket } := by
  obtain ⟨segments, hprepared⟩ := h.tool
  obtain ⟨s', hs', h'⟩ := hprepared.onInterest hcount interest
  rw [hprepared.dataPrefix, hs'] at honInterest
  obtain ⟨rfl, rfl⟩ := Prod.mk.inj (Option.some.inj honInterest)
  refine { h with tool := ⟨_, h'⟩, put := fun data hdata => ?_ }
  rcases List.mem_append.mp hdata with hdata | hdata
  · exact h.put data hdata
  · obtain ⟨data, hmem, rfl⟩ := List.mem_map.mp hdata
    obtain ⟨segmentNo, -, hanswer⟩ := Option.bind_eq_some_iff.mp (Option.mem_toList.mp hmem)
    exact ⟨segmentNo, .of_answer hanswer⟩

/-- What is counted as stored are segments of the file. -/
theorem lt_of_mem_stored (h : Uploading names m_dataPrefix file u) {k : ℕ}
    (hk : some k ∈ u.session.stored) : k < blockCount file := by
  obtain ⟨k', heq, data, -, hpacket⟩ := h.counted _ hk
  exact Option.some.inj heq ▸ hpacket.lt

/-- The numbers of the handle stay far from overflowing. -/
theorem noOverflow (h : Uploading names m_dataPrefix file u)
    (hcount : blockCount file + defaultCredit + 1 < 2 ^ 64) : u.session.NoOverflow (2 ^ 64) := by
  obtain ⟨n, hflow⟩ := h.flow
  obtain ⟨received, hreceived⟩ := h.received
  exact hreceived.noOverflow hcount fun process hprocess =>
    (hflow.process process hprocess).credit_nonneg

section Segment

variable {k : ℕ} {data : Packet names} {inserted : Bool} {finalBlockId : Option ℕ}

/-- The end that is known, and the one that comes with a packet of the file, are the last segment of
the file. -/
theorem ends_of_packet (hnames : names.Segmented)
    (hcount : blockCount file + defaultCredit + 1 < 2 ^ 64)
    (h : Uploading names m_dataPrefix file u) (hpacket : FilePacket names m_dataPrefix file k data)
    (hfinal : data.finalBlockId.map names.toSegment = finalBlockId.map Except.ok)
    {process : ProcessInfo} (hprocess : u.session.process = some process) {e : ℕ}
    (he : process.response.endBlockId = some e ∨ finalBlockId = some e) :
    e + 1 = blockCount file := by
  rcases he with he | he
  · exact h.ends process hprocess e he
  · rw [he] at hfinal
    exact hpacket.eq_of_final hnames (by omega) hfinal

/-- A packet of the file keeps within the end. -/
theorem keepsEnd (hnames : names.Segmented)
    (hcount : blockCount file + defaultCredit + 1 < 2 ^ 64)
    (h : Uploading names m_dataPrefix file u) (hpacket : FilePacket names m_dataPrefix file k data)
    (hfinal : data.finalBlockId.map names.toSegment = finalBlockId.map Except.ok) :
    u.session.KeepsEnd (2 ^ 64) 0
      (.segmentData k finalBlockId inserted : SessionOp names) := by
  refine ⟨h.noOverflow hcount, fun process hprocess e he => ?_⟩
  have hend := h.ends_of_packet hnames hcount hpacket hfinal hprocess he
  have hlt := hpacket.lt
  refine ⟨Nat.mod_eq_of_lt (by omega), fun k' hk' => ?_, fun _ => by omega⟩
  have hk := h.lt_of_mem_stored hk'
  omega

/-- What is counted after a packet of the file has come is there: the packets that were, and this
one if the storage has taken it for a process that is there. -/
theorem counted_record (h : Uploading names m_dataPrefix file u)
    (hpacket : FilePacket names m_dataPrefix file k data) {packet : Option ℕ}
    (hmem : packet ∈ if u.session.process.isSome then
      (u.session.record (some k) inserted).stored else u.session.stored) :
    ∃ k, packet = some k ∧ ∃ data' ∈
      if inserted && u.session.process.isSome then u.stored ++ [data] else u.stored,
      FilePacket names m_dataPrefix file k data' := by
  have hsub : u.stored ⊆
      if inserted && u.session.process.isSome then u.stored ++ [data] else u.stored := by
    split
    · exact List.subset_append_left _ _
    · exact List.Subset.refl _
  have hold : packet ∈ u.session.stored → ∃ k, packet = some k ∧ ∃ data' ∈
      if inserted && u.session.process.isSome then u.stored ++ [data] else u.stored,
      FilePacket names m_dataPrefix file k data' := by
    intro hpacket'
    obtain ⟨k', rfl, data', hdata', hpacket'⟩ := h.counted packet hpacket'
    exact ⟨k', rfl, data', hsub hdata', hpacket'⟩
  split at hmem
  · next hsome =>
    rcases Session.mem_stored_record.mp hmem with hmem | ⟨hinserted, rfl⟩
    · exact hold hmem
    · -- the packet that has come is the last one in the storage
      refine ⟨k, rfl, data, ?_, hpacket⟩
      rw [hinserted, hsome]
      simp
  · exact hold hmem

/-- A packet reaches the handle. -/
theorem segment (hnames : names.Segmented) (hcount : blockCount file + defaultCredit + 1 < 2 ^ 64)
    (h : Uploading names m_dataPrefix file u) {segment : ℕ} {session : Session}
    (hput : data ∈ u.put) (hname : data.name = segmentName names u.tool.m_dataPrefix segment)
    (hsegment : segment < 2 ^ 64)
    (hfinal : data.finalBlockId.map names.toSegment = finalBlockId.map Except.ok)
    (henabled : segment ∈ u.session.segments)
    (happly : u.session.onSegmentData (2 ^ 64) u.now segment finalBlockId inserted =
      some session) :
    Uploading names m_dataPrefix file { u with
      session := session
      stored := if inserted && u.session.process.isSome then u.stored ++ [data]
        else u.stored } := by
  obtain ⟨segments, hprepared⟩ := h.tool
  obtain ⟨n, hflow⟩ := h.flow
  obtain ⟨received, hreceived⟩ := h.received
  -- the interest the handle has sent names the block that the packet carries
  obtain ⟨k, hpacket⟩ := h.put data hput
  have hlt := hpacket.lt
  rw [hprepared.dataPrefix, hpacket.name] at hname
  obtain rfl := segmentName_inj hnames (by omega) hsegment hname
  obtain ⟨hstored, hprocess⟩ := Session.of_onSegmentData happly
  have henabled' : u.session.Enabled u.now
      (.segmentData k finalBlockId inserted : SessionOp names) := henabled
  have happly' : u.session.apply (2 ^ 64) u.now 0
      (.segmentData k finalBlockId inserted : SessionOp names) = some session := happly
  -- what is stored only grows
  have hlength : u.session.stored.length ≤ session.stored.length := by
    rw [hstored]
    split
    · rw [Session.length_stored_record]
      exact Nat.le_add_right _ _
    · exact le_rfl
  refine
    { tool := h.tool
      put := h.put
      flow := hflow.apply (fun _ heq => by cases heq) henabled'
        (fun _ _ _ _ => h.noOverflow hcount) happly'
      settled := h.settled.onSegmentData hflow henabled
        (h.keepsEnd hnames hcount hpacket hfinal) happly
      received := hreceived.onSegmentData hflow henabled hlt happly
      ends := fun process' hprocess' e he => ?_
      counted := fun packet hmem => ?_
      stored := fun data' hdata' => ?_
      replies := fun response hmem hstatus => (h.replies response hmem hstatus).trans hlength
      stopped := fun hstopped => (h.stopped hstopped).trans hlength }
  · obtain ⟨process, hprocess, hend⟩ := hprocess process' hprocess'
    exact h.ends_of_packet hnames hcount hpacket hfinal hprocess (hend e he)
  · change packet ∈ session.stored at hmem
    rw [hstored] at hmem
    exact h.counted_record hpacket hmem
  · change data' ∈ if inserted && u.session.process.isSome then u.stored ++ [data]
      else u.stored at hdata'
    split at hdata'
    · rcases List.mem_append.mp hdata' with hdata' | hdata'
      · exact h.stored data' hdata'
      · exact ⟨k, List.mem_singleton.mp hdata' ▸ hpacket⟩
    · exact h.stored data' hdata'

end Segment

/-- Another event of the process. -/
theorem event (h : Uploading names m_dataPrefix file u) {op : SessionOp names}
    {session : Session} (hop : ∀ parameter, op ≠ .insert parameter)
    (hdata : ∀ segment final inserted, op ≠ .segmentData segment final inserted)
    (henabled : u.session.Enabled u.now op)
    (happly : u.session.apply (2 ^ 64) u.now processId op = some session) :
    Uploading names m_dataPrefix file { u with session := session } := by
  obtain ⟨n, hflow⟩ := h.flow
  obtain ⟨received, hreceived⟩ := h.received
  obtain ⟨hstored, hprocess⟩ := Session.of_apply hflow.single hop hdata henabled happly
  -- A step without a segment cannot change the end of the file.
  have hok : u.session.KeepsEnd (2 ^ 64) 0 op := by
    cases op with
    | segmentData segment final inserted => exact absurd rfl (hdata segment final inserted)
    | _ => trivial
  refine
    { h with
      flow := hflow.apply hop henabled (fun _ _ _ heq => absurd heq (hdata _ _ _)) happly
      settled := h.settled.apply hflow hop henabled hok happly
      received := ⟨received, hreceived.apply hflow hop hdata henabled happly⟩
      ends := fun process' hprocess' e he => ?_
      counted := fun packet hmem => h.counted packet (hstored ▸ hmem)
      replies := fun response hmem hstatus => hstored ▸ h.replies response hmem hstatus
      stopped := fun hstopped => hstored ▸ h.stopped hstopped }
  obtain ⟨process, hprocess, hend⟩ := hprocess process' hprocess'
  exact h.ends process hprocess e (hend ▸ he)

/-- A reply that makes the tool stop reports all segments of the file. -/
theorem of_stopped (h : Uploading names m_dataPrefix file u) {response : InsertResponse}
    (hmem : response ∈ u.replies) (hstopped : u.tool.onCheckCommandResponse response = .stopped) :
    blockCount file ≤ u.session.stored.length := by
  -- The tool stops when the count of a good reply is the number of its packets, and it has finished
  -- the file then.
  obtain ⟨segments, hprepared⟩ := h.tool
  unfold NdnPutFile.onCheckCommandResponse at hstopped
  split at hstopped
  · exact absurd hstopped (by decide)
  · next hstatus =>
    split at hstopped
    · next hfinished =>
      dsimp only at hstopped
      rw [hprepared.isSingle, if_neg (by simp)] at hstopped
      split at hstopped
      · next hequal =>
        have hreply := h.replies response hmem (Nat.lt_of_not_le hstatus)
        rw [hequal, hprepared.current, Nat.min_eq_left (hprepared.finished.mp hfinished)] at hreply
        exact hreply
      · exact absurd hstopped (by decide)
    · exact absurd hstopped (by decide)

/-- Every step keeps the invariant. -/
theorem step (hnames : names.Segmented) (hcount : blockCount file + defaultCredit + 1 < 2 ^ 64)
    (h : Uploading names m_dataPrefix file u) {op : UploadOp names}
    (hstep : UploadStep processId u op u') : Uploading names m_dataPrefix file u' := by
  -- The segments and the checks are the steps of the handle that matter; the tool only prepares
  -- packets, and a reply only tells it to stop.
  cases hstep with
  | advance d => exact { h with }
  | interest interest tool data hrunning honInterest => exact h.onInterest (by omega) honInterest
  | throw interest hrunning honInterest =>
    refine { h with stopped := fun hstopped => ?_ }
    exact absurd hstopped (by decide : NdnPutFile.CheckResult.failed ≠ .stopped)
  | segment segment data inserted finalBlockId session hput hname hfinal henabled happly =>
    obtain ⟨n, hflow⟩ := h.flow
    obtain ⟨received, hreceived⟩ := h.received
    have hsegment := hreceived.lt_of_mem hflow henabled
    exact h.segment hnames hcount hput hname (by omega) hfinal henabled happly
  | event op session hop hdata henabled happly => exact h.event hop hdata henabled happly
  | check session happly =>
    have henabled : u.session.Enabled u.now (.check : SessionOp names) := trivial
    -- A check changes no packet, but may send a reply, whose count is settled then.
    have h' := h.event (fun _ heq => by cases heq) (fun _ _ _ heq => by cases heq) henabled happly
    refine { h' with replies := fun response hmem hstatus => ?_ }
    rcases List.mem_append.mp hmem with hmem | hmem
    · exact h'.replies response hmem hstatus
    · obtain rfl := List.mem_singleton.mp hmem
      obtain rfl := Option.some.inj happly
      exact (h.settled.counted.checkReply u.now hstatus).le
  | reply response hrunning hmem => exact { h with stopped := h.of_stopped hmem }

end Uploading

/-! ### Uploads and downloads -/

section Runs

variable {names : NameLibrary} {m_dataPrefix : names.Name} {file : Str} {processId : ℕ}
  {h : List (Upload names × UploadOp names)} {u : Upload names}

/-- Every state of an upload keeps the account of both sides. -/
theorem uploading_of_run (hnames : names.Segmented) (hfile : file ≠ [])
    (hcount : blockCount file + defaultCredit + 1 < 2 ^ 64)
    (hrun : Run (upload names processId m_dataPrefix file) h u) :
    Uploading names m_dataPrefix file u := by
  refine hrun.invariant' ?_ fun u op u' hu hstep => hu.step hnames hcount hstep
  rintro u ⟨now, rfl⟩
  exact .start hfile now processId

/-- As many different segments as there are, are all of them. -/
theorem mem_of_length_le {count k : ℕ} {stored : List (Option ℕ)} (hnodup : stored.Nodup)
    (hlt : ∀ packet ∈ stored, ∃ k < count, packet = some k) (hle : count ≤ stored.length)
    (hk : k < count) : some k ∈ stored := by
  have hsub : stored.toFinset ⊆ (Finset.range count).map Function.Embedding.some := by
    intro packet hpacket
    obtain ⟨k', hk', rfl⟩ := hlt packet (List.mem_toFinset.mp hpacket)
    exact Finset.mem_map_of_mem _ (Finset.mem_range.mpr hk')
  have hcard : ((Finset.range count).map Function.Embedding.some).card ≤ stored.toFinset.card := by
    rw [Finset.card_map, Finset.card_range, List.toFinset_card_of_nodup hnodup]
    exact hle
  rw [← List.mem_toFinset, Finset.eq_of_subset_of_card_le hsub hcard]
  exact Finset.mem_map_of_mem Function.Embedding.some (Finset.mem_range.mpr hk)

/-- When it has stopped each segment of the file is stored. -/
theorem Uploading.exists_stored (hu : Uploading names m_dataPrefix file u)
    (hstopped : u.result = .stopped) {k : ℕ} (hk : k < blockCount file) :
    ∃ data ∈ u.stored, FilePacket names m_dataPrefix file k data := by
  have hmem : some k ∈ u.session.stored := by
    refine mem_of_length_le hu.settled.nodup (fun packet hpacket => ?_) (hu.stopped hstopped) hk
    obtain ⟨k', rfl, data, -, hdata⟩ := hu.counted packet hpacket
    exact ⟨k', hdata.lt, rfl⟩
  obtain ⟨k', heq, data, hdata, hpacket⟩ := hu.counted _ hmem
  exact ⟨data, hdata, Option.some.inj heq ▸ hpacket⟩

/-- **What an upload stores.** In every run of an upload the packets that the repository has stored
are packets of the file, and if the tool has stopped, there is one for every segment. -/
theorem stopped_stored (hnames : names.Segmented) (hfile : file ≠ [])
    (hcount : blockCount file + defaultCredit + 1 < 2 ^ 64)
    (hrun : Run (upload names processId m_dataPrefix file) h u) :
    (∀ data ∈ u.stored, ∃ k, FilePacket names m_dataPrefix file k data) ∧
      (u.result = .stopped → ∀ k < blockCount file,
        ∃ data ∈ u.stored, FilePacket names m_dataPrefix file k data) := by
  have hu := uploading_of_run hnames hfile hcount hrun
  exact ⟨hu.stored, fun hstopped k hk => hu.exists_stored hstopped hk⟩

/-- What can be fetched: the packets of an upload, and others with other names. -/
def Upload.Available (u : Upload names) (other : Packet names → Prop) (data : Packet names) :
    Prop :=
  data ∈ u.stored ∨ other data

/-- The file of an upload under the name that it was uploaded with. -/
def fileAt (m_dataPrefix : names.Name) (file : Str) (version : names.Name) : Str :=
  if version = m_dataPrefix then file else []

/-- The file is served under its own name only. -/
theorem eq_of_blockCount_pos {version : names.Name}
    (h : 0 < blockCount (fileAt m_dataPrefix file version)) : version = m_dataPrefix := by
  unfold fileAt at h
  split at h
  · assumption
  · exact absurd h (by decide)

/-- A store filled by an upload serves the file. -/
theorem Uploading.serves (hu : Uploading names m_dataPrefix file u)
    (hcount : blockCount file ≤ 2 ^ 64) {dataName : names.Name} {versioned : Bool}
    (hversion : IsVersion dataName versioned m_dataPrefix) {other : Packet names → Prop}
    (hother : ∀ data, other data → ¬dataName <+: data.name) :
    Serves names dataName versioned (fileAt m_dataPrefix file) (u.Available other) where
  small version _ := by
    unfold fileAt
    split
    · exact hcount
    · decide
  packet data havailable hprefix := by
    rcases havailable with hstored | hdata
    · obtain ⟨k, hpacket⟩ := hu.stored data hstored
      refine ⟨m_dataPrefix, k, hversion, ?_⟩
      rwa [fileAt, if_pos rfl]
    · exact absurd hprefix (hother data hdata)

/-- **An uploaded file comes back.** When an upload has stopped and nothing else is stored under the
name that `ndngetfile` is given, a run of it has written the file once it is finished; and until it
is finished, or has given up with four timeouts since the last segment that it went on from, there
is a packet for the interest that is out. -/
theorem getFile_stored (hnames : names.Segmented) (hfile : file ≠ [])
    (hcount : blockCount file + defaultCredit + 1 < 2 ^ 64)
    (hrun : Run (upload names processId m_dataPrefix file) h u) (hstopped : u.result = .stopped)
    {dataName : names.Name} {versioned mustBeFresh : Bool}
    (hversion : IsVersion dataName versioned m_dataPrefix) {other : Packet names → Prop}
    (hother : ∀ data, other data → ¬dataName <+: data.name)
    {g : List (Option (Consumer names) × FetchFileOp names)} {s : Option (Consumer names)}
    (hget : Run (getFile names (u.Available other) dataName versioned mustBeFresh) g s) :
    ∃ c, s = some c ∧ (c.m_isFinished = true → c.m_os = file) ∧
      (c.m_isFinished = true ∨ c.m_retryCount = MAX_RETRY + 1 ∨
        ∃ interest data, c.Enabled (u.Available other) (.data interest data)) := by
  have hu := uploading_of_run hnames hfile hcount hrun
  obtain ⟨c, rfl, -, hgets⟩ := gets_of_run hnames
    (hu.serves (by omega) hversion hother) hget
  -- whatever is waited for, a stored packet has a name that begins with it
  have hanswer : ∀ name : names.Name, c.Waits name →
      ∀ k < blockCount file, name <+: segmentName names m_dataPrefix k →
      c.m_retryCount = MAX_RETRY + 1 ∨
        ∃ interest data, c.Enabled (u.Available other) (.data interest data) := by
    rintro name (⟨hpending, -⟩ | ⟨-, hretry⟩) k hk hprefix
    · obtain ⟨data, hdata, hpacket⟩ := hu.exists_stored hstopped hk
      refine .inr ⟨c.interestFor name, data, ?_, .inl hdata, ?_⟩
      · rw [hpending]
        exact List.mem_singleton_self _
      · rw [Consumer.name_interestFor, hpacket.name]
        exact hprefix
    · exact .inl hretry
  refine ⟨c, rfl, ?_⟩
  cases hgets with
  | first hwaits hfirst hfinished hnext hos hn =>
    have hprefix : dataName <+: segmentName names m_dataPrefix 0 :=
      hversion.isPrefix.trans (List.prefix_append _ _)
    refine ⟨fun hnot => ?_, .inr (hanswer _ hwaits 0 (blockCount_pos hfile) hprefix)⟩
    rw [hfinished] at hnot
    exact absurd hnot Bool.false_ne_true
  | segment version j _ hj hwaits hfirst hfinished hnext hos hn =>
    obtain rfl := eq_of_blockCount_pos (Nat.zero_lt_of_lt hj)
    rw [fileAt, if_pos rfl] at hj
    refine ⟨fun hnot => ?_, .inr (hanswer _ hwaits j hj List.prefix_rfl)⟩
    rw [hfinished] at hnot
    exact absurd hnot Bool.false_ne_true
  | done version _ hpos hpending hfinished hos hn =>
    obtain rfl := eq_of_blockCount_pos hpos
    rw [fileAt, if_pos rfl] at hos
    exact ⟨fun _ => hos, .inl hfinished⟩

end Runs

section Examples

/-- The upload of a file of one segment: the tool puts it, the handle stores it, and the reply to a
check command says so. -/
private theorem run_shortUpload :
    ∃ h u, Run (upload octetNames 1 shortName shortFile) h u ∧ u.result = .stopped ∧
      onlyPacket ∈ u.stored := by
  have hstart : Run (upload octetNames 1 shortName shortFile) []
      (.start 0 1 shortName shortFile) := .nil ⟨0, rfl⟩
  have hput := hstart.snoc (UploadStep.interest _ (segmentName octetNames shortName 0) _ _ rfl rfl)
  have hstored := hput.snoc (UploadStep.segment _ 0 onlyPacket true (some 0) _
    List.mem_cons_self rfl rfl List.mem_cons_self rfl)
  have hchecked := hstored.snoc (UploadStep.check _ _ rfl)
  exact ⟨_, _, hchecked.snoc (UploadStep.reply _ _ rfl List.mem_cons_self), rfl,
    List.mem_cons_self⟩

theorem stopped_stored_short :
    ∃ h u, Run (upload octetNames 1 shortName shortFile) h u ∧ u.result = .stopped ∧
      (∀ data ∈ u.stored, ∃ k, FilePacket octetNames shortName shortFile k data) ∧
      (u.result = .stopped → ∀ k < blockCount shortFile,
        ∃ data ∈ u.stored, FilePacket octetNames shortName shortFile k data) := by
  obtain ⟨h, u, hrun, hstopped, -⟩ := run_shortUpload
  exact ⟨h, u, hrun, hstopped,
    stopped_stored octetNames_segmented (by decide) (by decide) hrun⟩

/-- The first interest for the file times out, and the second one is answered. -/
theorem getFile_stored_short :
    ∃ u : Upload octetNames, u.result = .stopped ∧
      ∃ g c, Run (getFile octetNames (u.Available fun _ => False) shortName true false) g
          (some c) ∧ g.length = 2 ∧ c.m_isFinished = true ∧ c.m_os = shortFile := by
  obtain ⟨h, u, hrun, hstopped, hmem⟩ := run_shortUpload
  let available := u.Available fun _ => False
  let interest : FetchInterest octetNames := ⟨shortName, false, none⟩
  let c₀ := (Consumer.create shortName true false false : Consumer octetNames).run
  obtain ⟨c₁, hc₁, hpending, c₂, hc₂, hfinished⟩ : ∃ c₁, c₀.apply (.timeout interest) = some c₁ ∧
      c₁.pending = [interest] ∧ ∃ c₂, c₁.apply (.data interest onlyPacket) = some c₂ ∧
        c₂.m_isFinished = true := ⟨_, rfl, rfl, _, rfl, rfl⟩
  -- The tool asks once in vain, then receives the only packet of the file.
  have hstart : Run (getFile octetNames available shortName true false) [] (some c₀) := .nil rfl
  have htimeout := hstart.snoc (FetchFileStep.mk c₀ (.timeout interest) List.mem_cons_self)
  rw [hc₁] at htimeout
  have hget := htimeout.snoc (FetchFileStep.mk c₁ (.data interest onlyPacket)
    ⟨hpending ▸ List.mem_cons_self, .inl hmem, List.prefix_append _ _⟩)
  rw [hc₂] at hget
  obtain ⟨_, heq, hwritten, -⟩ := getFile_stored octetNames_segmented (by decide) (by decide) hrun
    hstopped (show IsVersion shortName true shortName from rfl) (fun _ hnot => hnot.elim) hget
  obtain rfl := Option.some.inj heq
  exact ⟨u, hstopped, _, c₂, hget, rfl, hfinished, hwritten hfinished⟩

end Examples

end OpenGeoBase
