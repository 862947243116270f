import OpenGeoBase.Repo.WriteFlow

/-!
# When a segmented insertion is complete

A process gets status 200 once its `InsertNum` has reached the number of segments from the start
to the end (`Session.Complete` is what that should mean). The count is of all the segments
stored, though, and the end may be learned, or lowered, when segments beyond it have been stored
already. `complete_throughout` says that as long as nothing stored lies beyond the end the
status can be relied on: a packet is stored once for each interest, so what is counted is a set
of segments between the start and the end, and a set of that size has all of them.
-/

namespace OpenGeoBase

open Transition

/-- A process with status 200 has stored every segment from the start to its end. -/
def Session.Complete (startBlockId : ℕ) (session : Session) : Prop :=
  ∀ process, session.process = some process → process.response.statusCode = 200 →
    ∃ e, process.response.endBlockId = some e ∧
      ∀ k, startBlockId ≤ k → k ≤ e → some k ∈ session.stored

/-- The packet that comes, if it is stored, and those stored before lie beyond neither the end
that is known nor the final block id that comes with it, and the block numbers do not overflow. -/
def Session.KeepsEnd {names : NameLibrary} (W startBlockId : ℕ) (session : Session) :
    SessionOp names → Prop
  | .segmentData segment finalBlockId inserted => session.NoOverflow W ∧
    ∀ process, session.process = some process → ∀ e,
      process.response.endBlockId = some e ∨ finalBlockId = some e →
      (e + 1 - startBlockId) % W = e + 1 - startBlockId ∧
        (∀ k, some k ∈ session.stored → k ≤ e) ∧ (inserted = true → segment ≤ e)
  | _ => True

/-! ### What the callbacks do to the response -/

/-- The segment that a callback sends. -/
def Control.sent : Control → Option ℕ
  | .proceed _ sent => sent
  | _ => none

section Callbacks

variable {W now segment : ℕ} {process process' : ProcessInfo}

/-- An end block is set by the command or by a packet. -/
theorem ProcessInfo.endBlockId_refreshEnd {finalBlockId : Option ℕ} {e : ℕ}
    (h : (process.refreshEnd finalBlockId).response.endBlockId = some e) :
    process.response.endBlockId = some e ∨ finalBlockId = some e := by
  unfold refreshEnd at h
  split at h
  · exact Or.inl h
  · next final =>
    split at h
    · split at h
      · exact Or.inr h
      · exact Or.inl h
    · exact Or.inr h

@[simp] theorem ProcessInfo.statusCode_refreshEnd (finalBlockId : Option ℕ) :
    (process.refreshEnd finalBlockId).response.statusCode = process.response.statusCode := by
  rw [refreshEnd_eq]

@[simp] theorem ProcessInfo.startBlockId_refreshEnd (finalBlockId : Option ℕ) :
    (process.refreshEnd finalBlockId).response.startBlockId = process.response.startBlockId := by
  rw [refreshEnd_eq]

@[simp] theorem ProcessInfo.nextSegmentQueue_refreshEnd (finalBlockId : Option ℕ) :
    (process.refreshEnd finalBlockId).nextSegmentQueue = process.nextSegmentQueue := by
  rw [refreshEnd_eq]

@[simp] theorem ProcessInfo.startBlockId_countInserted (inserted : Bool) :
    (process.countInserted inserted).response.startBlockId = process.response.startBlockId := by
  rw [countInserted_eq]

@[simp] theorem ProcessInfo.endBlockId_countInserted (inserted : Bool) :
    (process.countInserted inserted).response.endBlockId = process.response.endBlockId := by
  rw [countInserted_eq]

@[simp] theorem ProcessInfo.statusCode_countInserted (inserted : Bool) :
    (process.countInserted inserted).response.statusCode = process.response.statusCode := by
  rw [countInserted_eq]

@[simp] theorem ProcessInfo.nextSegmentQueue_countInserted (inserted : Bool) :
    (process.countInserted inserted).nextSegmentQueue = process.nextSegmentQueue := by
  rw [countInserted_eq]

/-- Sending leaves the response. -/
theorem response_sendNext (h : (sendNext W process segment).process = some process') :
    process'.response = process.response := by
  unfold sendNext at h
  split at h
  · obtain rfl := Option.some.inj h
    rfl
  · dsimp only at h
    split at h
    · obtain rfl := Option.some.inj h
      rfl
    · split at h
      · exact absurd h (by simp [Control.process])
      · obtain rfl := Option.some.inj h
        rw [ProcessInfo.response_pushNext]
        rfl

/-- The end stays, and status 200 is given when everything has been counted. -/
theorem response_onSegmentDataControl
    (h : (onSegmentDataControl W now process segment).process = some process') :
    process'.response.endBlockId = process.response.endBlockId ∧
      (process'.response.statusCode = 200 →
        process.hasAll W = true ∨ process.response.statusCode = 200) := by
  unfold onSegmentDataControl at h
  dsimp only at h
  -- out of time without an end, complete, without credit, or on to the next segment
  split at h
  · obtain rfl := Option.some.inj h
    exact ⟨rfl, fun hstatus => absurd (show 405 = 200 from hstatus) (by decide)⟩
  · split at h
    · next hall =>
      obtain rfl := Option.some.inj h
      exact ⟨rfl, fun _ => Or.inl hall⟩
    · split at h
      · obtain rfl := Option.some.inj h
        exact ⟨rfl, Or.inr⟩
      · have hresponse := response_sendNext h
        rw [hresponse]
        exact ⟨rfl, Or.inr⟩

/-- What is sent is taken from the queue. -/
theorem sent_onSegmentDataControl {k : ℕ}
    (h : (onSegmentDataControl W now process segment).sent = some k) :
    k ∈ process.nextSegmentQueue := by
  unfold onSegmentDataControl at h
  dsimp only at h
  -- only the branch that goes on sends, and what it sends heads the queue
  split at h
  · exact absurd h (by simp [Control.sent])
  · split at h
    · exact absurd h (by simp [Control.sent])
    · split at h
      · exact absurd h (by simp [Control.sent])
      · unfold sendNext at h
        split at h
        · exact absurd h (by simp [Control.sent])
        · next hqueue =>
          dsimp only at h hqueue
          split at h
          · exact absurd h (by simp [Control.sent])
          · split at h
            · exact absurd h (by simp [Control.sent])
            · obtain rfl := Option.some.inj h
              rw [hqueue]
              exact List.mem_cons_self

/-- A timeout leaves the response. -/
theorem response_onSegmentTimeoutControl
    (h : (onSegmentTimeoutControl process segment).process = some process') :
    process'.response = process.response := by
  unfold onSegmentTimeoutControl at h
  split at h
  · exact absurd h (by simp [Control.process])
  · split at h
    · exact absurd h (by simp [Control.process])
    · obtain rfl := Option.some.inj h
      rfl

/-- What has timed out is what is sent again. -/
theorem sent_onSegmentTimeoutControl {k : ℕ}
    (h : (onSegmentTimeoutControl process segment).sent = some k) : segment = k := by
  unfold onSegmentTimeoutControl at h
  split at h
  · exact absurd h (by simp [Control.sent])
  · split at h
    · exact absurd h (by simp [Control.sent])
    · exact Option.some.inj h

/-- A check does not turn the response into a success. -/
theorem response_onCheckValidated (now : ℕ) (process : ProcessInfo) :
    (onCheckValidated now process).2.response.endBlockId = process.response.endBlockId ∧
      ((onCheckValidated now process).2.response.statusCode = 200 →
        process.response.statusCode = 200) := by
  unfold onCheckValidated
  split
  · exact ⟨rfl, id⟩
  · split
    · unfold extendNoEndTime
      split
      · exact ⟨rfl, fun h => absurd (show 405 = 200 from h) (by decide)⟩
      · exact ⟨rfl, id⟩
    · exact ⟨rfl, id⟩

end Callbacks

/-- What is sent is the segment after all those requested so far. -/
theorem InFlow.eq_of_sent {W now startBlockId n segment k : ℕ} {endBlockId : Option ℕ}
    {segments : List ℕ} {invalid : ℕ} {process : ProcessInfo}
    (h : InFlow W startBlockId endBlockId n segments invalid process)
    {finalBlockId : Option ℕ} {inserted : Bool}
    (hsent : (onSegmentDataValidated W now process segment finalBlockId inserted).sent = some k) :
    k = startBlockId + n := by
  have hqueue := sent_onSegmentDataControl hsent
  rw [ProcessInfo.nextSegmentQueue_countInserted, ProcessInfo.nextSegmentQueue_refreshEnd]
    at hqueue
  rcases h.queue with hempty | ⟨hone, -⟩
  · rw [hempty] at hqueue
    exact absurd hqueue List.not_mem_nil
  · rw [hone] at hqueue
    exact List.mem_singleton.mp hqueue

/-- Without an end block the process never has all. -/
theorem ProcessInfo.exists_endBlockId_of_hasAll {W : ℕ} {process : ProcessInfo}
    (h : process.hasAll W = true) : ∃ e, process.response.endBlockId = some e := by
  unfold hasAll at h
  split at h
  · exact absurd h (by simp)
  · next e he => exact ⟨e, he⟩

namespace Session

variable {session : Session} {packet packet' : Option ℕ} {inserted : Bool}

/-- A packet is recorded if it was inserted. -/
theorem mem_stored_record :
    packet' ∈ (session.record packet inserted).stored ↔
      packet' ∈ session.stored ∨ (inserted = true ∧ packet' = packet) := by
  unfold record
  cases inserted <;> simp

/-- The interest that has ended does not matter for what is stored. -/
theorem record_endSegment (session : Session) (segment : ℕ) (packet : Option ℕ)
    (inserted : Bool) : (session.endSegment segment).record packet inserted =
      { session.endSegment segment with stored := (session.record packet inserted).stored } := by
  unfold record
  cases inserted <;> rfl

/-- No packet is recorded twice. -/
theorem nodup_stored_record (h : session.stored.Nodup) (hpacket : packet ∉ session.stored)
    (inserted : Bool) : (session.record packet inserted).stored.Nodup := by
  unfold record
  cases inserted with
  | false => exact h
  | true => exact h.append (List.nodup_singleton _) (by simpa using hpacket)

end Session

/-! ### What has been stored and what has been counted -/

/-- The end of a process lies beyond what is stored, and its status 200 can be relied on. -/
def SettledProcess (startBlockId : ℕ) (stored : List (Option ℕ)) (process : ProcessInfo) : Prop :=
  (∀ e, process.response.endBlockId = some e → ∀ k, some k ∈ stored → k ≤ e) ∧
    (process.response.statusCode = 200 → ∃ e, process.response.endBlockId = some e ∧
      ∀ k, startBlockId ≤ k → k ≤ e → some k ∈ stored)

/-- What is stored are different segments that were requested and are awaited no more. -/
structure Settled (startBlockId : ℕ) (session : Session) : Prop where
  counted : session.Counted
  nodup : session.stored.Nodup
  stored : ∀ packet ∈ session.stored,
    ∃ k ∈ session.requested, packet = some k ∧ k ∉ session.segments
  process : ∀ process, session.process = some process →
    SettledProcess startBlockId session.stored process

/-- As many segments as there are between the start and the end are all of them. -/
theorem mem_stored_of_hasAll {W startBlockId e k : ℕ} {stored : List (Option ℕ)}
    {process : ProcessInfo} (hall : process.hasAll W = true)
    (hstart : process.response.startBlockId = some startBlockId)
    (hend : process.response.endBlockId = some e)
    (hcount : process.insertNum = stored.length) (hnodup : stored.Nodup)
    (hstored : ∀ packet ∈ stored, ∃ k, packet = some k ∧ startBlockId ≤ k ∧ k ≤ e)
    (hmod : (e + 1 - startBlockId) % W = e + 1 - startBlockId)
    (hk : startBlockId ≤ k) (hke : k ≤ e) : some k ∈ stored := by
  -- the test is made modulo `W`, which by `hmod` does not reduce the number of segments
  have hlength : e + 1 - startBlockId ≤ stored.length := by
    unfold ProcessInfo.hasAll at hall
    rw [hend, hstart] at hall
    have hge := of_decide_eq_true hall
    rw [hcount] at hge
    calc e + 1 - startBlockId = (e + 1 - startBlockId + W) % W := by
          rw [Nat.add_mod_right, hmod]
      _ = (e + W - startBlockId + 1) % W := by congr 1; omega
      _ ≤ stored.length := hge
  -- distinct segments of the range, as many as the range has: all of them
  have hsub : stored.toFinset ⊆ (Finset.Icc startBlockId e).map Function.Embedding.some := by
    intro packet hpacket
    obtain ⟨k', rfl, hge, hle⟩ := hstored packet (List.mem_toFinset.mp hpacket)
    exact Finset.mem_map_of_mem _ (Finset.mem_Icc.mpr ⟨hge, hle⟩)
  have hcard : ((Finset.Icc startBlockId e).map Function.Embedding.some).card ≤
      stored.toFinset.card := by
    rw [Finset.card_map, Nat.card_Icc, List.toFinset_card_of_nodup hnodup]
    exact hlength
  rw [← List.mem_toFinset, Finset.eq_of_subset_of_card_le hsub hcard]
  exact Finset.mem_map_of_mem Function.Embedding.some (Finset.mem_Icc.mpr ⟨hk, hke⟩)

namespace Settled

variable {names : NameLibrary} {W now processId startBlockId n segment : ℕ}
  {endBlockId : Option ℕ} {session session' before : Session} {control : Control}

/-- A settled session is complete when it says so. -/
theorem complete (h : Settled startBlockId session) : session.Complete startBlockId :=
  fun process hprocess => (h.process process hprocess).2

/-- A callback that sends none of the stored segments again. -/
theorem of_continueWith (hcont : before.continueWith now control = some session')
    (hcounted : session'.Counted) (hnodup : before.stored.Nodup)
    (hstored : ∀ packet ∈ before.stored, ∃ k ∈ before.requested, packet = some k ∧
      k ∉ before.segments ∧ control.sent ≠ some k)
    (hprocess : ∀ process, control.process = some process →
      SettledProcess startBlockId before.stored process) :
    Settled startBlockId session' := by
  obtain ⟨hp, hs⟩ := Session.of_continueWith hcont
  -- what goes on sends at most one more segment, and requests only grow
  have hnew : before.requested ⊆ session'.requested ∧
      session'.segments = before.segments ++ control.sent.toList := by
    match control with
    | .proceed process none | .finish process | .erase =>
      obtain rfl := Option.some.inj hcont
      exact ⟨subset_rfl, (List.append_nil _).symm⟩
    | .proceed process (some k) =>
      obtain rfl := Option.some.inj hcont
      exact ⟨Finset.subset_union_left, rfl⟩
    | .abort => exact absurd hcont (by simp [Session.continueWith])
  refine ⟨hcounted, hs ▸ hnodup, fun packet hpacket => ?_, fun process h => ?_⟩
  · obtain ⟨k, hk, rfl, hsegments, hsent⟩ := hstored packet (hs ▸ hpacket)
    refine ⟨k, hnew.1 hk, rfl, ?_⟩
    rw [hnew.2, List.mem_append, Option.mem_toList]
    exact not_or.mpr ⟨hsegments, hsent⟩
  · rw [hs]
    exact hprocess process (hp ▸ h)

/-- A segment that is awaited has not been stored. -/
theorem notMem_stored (h : Settled startBlockId session) (hmem : segment ∈ session.segments) :
    some segment ∉ session.stored := fun hm => by
  obtain ⟨k, -, heq, hk⟩ := h.stored _ hm
  obtain rfl := Option.some.inj heq
  exact hk hmem

/-- The process that goes on after a segment has come. -/
theorem settledProcess (h : Settled startBlockId session) {process process' : ProcessInfo}
    (hprocess : session.process = some process)
    (hin : InFlow W startBlockId endBlockId n session.segments session.invalid process)
    (hrequested : session.requested = Finset.Ico startBlockId (startBlockId + n))
    {finalBlockId : Option ℕ} {inserted : Bool} (hmem : segment ∈ session.segments)
    (hok : session.KeepsEnd W startBlockId
      (.segmentData segment finalBlockId inserted : SessionOp names))
    (h' : (onSegmentDataValidated W now process segment finalBlockId inserted).process =
      some process') :
    SettledProcess startBlockId (session.record (some segment) inserted).stored process' := by
  obtain ⟨hend, hstatus⟩ := response_onSegmentDataControl h'
  rw [ProcessInfo.endBlockId_countInserted] at hend
  -- nothing beyond the end in force is stored, with this segment or without
  have hwithin : ∀ e, process'.response.endBlockId = some e →
      (e + 1 - startBlockId) % W = e + 1 - startBlockId ∧
        ∀ k, some k ∈ (session.record (some segment) inserted).stored → k ≤ e := by
    intro e he
    obtain ⟨hmod, hle, hlast⟩ := hok.2 process hprocess e
      (ProcessInfo.endBlockId_refreshEnd (hend ▸ he))
    refine ⟨hmod, fun k hk => ?_⟩
    rcases Session.mem_stored_record.mp hk with hk | ⟨hinserted, heq⟩
    · exact hle k hk
    · obtain rfl := Option.some.inj heq
      exact hlast hinserted
  refine ⟨fun e he => (hwithin e he).2, fun h200 => ?_⟩
  -- the status is set now, or was 200 before
  rcases hstatus h200 with hall | h200
  · -- everything has been counted, and nothing beyond the end
    obtain ⟨e, he⟩ := ProcessInfo.exists_endBlockId_of_hasAll hall
    -- the counter is the number of packets stored, this one included
    have hcount : ((process.refreshEnd finalBlockId).countInserted inserted).insertNum =
        (session.record (some segment) inserted).stored.length := by
      rw [ProcessInfo.insertNum_countInserted, ProcessInfo.insertNum_refreshEnd,
        h.counted process hprocess, Session.length_stored_record]
    have hstart : ((process.refreshEnd finalBlockId).countInserted
        inserted).response.startBlockId = some startBlockId := by
      rw [ProcessInfo.startBlockId_countInserted, ProcessInfo.startBlockId_refreshEnd]
      exact hin.start_eq
    have he' : process'.response.endBlockId = some e := by
      rw [hend, ← he, ProcessInfo.endBlockId_countInserted]
    obtain ⟨hmod, hle⟩ := hwithin e he'
    have hnodup := Session.nodup_stored_record h.nodup (h.notMem_stored hmem) inserted
    refine ⟨e, he', fun k hk hke => mem_stored_of_hasAll hall hstart he hcount hnodup ?_ hmod
      hk hke⟩
    intro packet hpacket
    rcases Session.mem_stored_record.mp hpacket with hold | ⟨-, rfl⟩
    · obtain ⟨k, hk, rfl, -⟩ := h.stored packet hold
      rw [hrequested] at hk
      exact ⟨k, rfl, (Finset.mem_Ico.mp hk).1, hle k hpacket⟩
    · exact ⟨segment, rfl, (hin.segments_mem segment hmem).1, hle segment hpacket⟩
  -- what was complete up to the older end is so up to the smaller one
  · rw [ProcessInfo.statusCode_countInserted, ProcessInfo.statusCode_refreshEnd] at h200
    obtain ⟨e, he, hcomplete⟩ := (h.process process hprocess).2 h200
    obtain ⟨e', hle, he'⟩ := ProcessInfo.exists_endBlockId_refreshEnd finalBlockId he
    refine ⟨e', hend.trans he', fun k hk hke => ?_⟩
    exact Session.mem_stored_record.mpr (Or.inl (hcomplete k hk (hke.trans hle)))

/-- Forgetting an interest leaves what has been stored settled. -/
theorem stored_endSegment (h : Settled startBlockId session) (segment : ℕ) :
    ∀ packet ∈ session.stored,
      ∃ k ∈ session.requested, packet = some k ∧ k ∉ (session.endSegment segment).segments := by
  intro packet hpacket
  obtain ⟨k, hk, heq, hsegments⟩ := h.stored packet hpacket
  exact ⟨k, hk, heq, fun hk => hsegments (List.mem_of_mem_erase hk)⟩

/-- A segment comes that is stored or not. -/
theorem onSegmentData (h : Settled startBlockId session)
    (hflow : Flow W startBlockId endBlockId n session) {finalBlockId : Option ℕ} {inserted : Bool}
    (hmem : segment ∈ session.segments)
    (hok : session.KeepsEnd W startBlockId
      (.segmentData segment finalBlockId inserted : SessionOp names))
    (happly : session.onSegmentData W now segment finalBlockId inserted = some session') :
    Settled startBlockId session' := by
  have hcounted := h.counted.onSegmentData happly
  unfold Session.onSegmentData at happly
  split at happly
  · next hnone =>
    obtain rfl := Option.some.inj happly
    exact ⟨hcounted, h.nodup, h.stored_endSegment segment,
      fun process hprocess => absurd (hnone.symm.trans hprocess) (by simp)⟩
  next process hprocess =>
  have hin := hflow.process process hprocess
  have hsegment := hin.segments_mem segment hmem
  rw [Session.record_endSegment] at happly
  refine of_continueWith happly hcounted
    (Session.nodup_stored_record h.nodup (h.notMem_stored hmem) inserted)
    (fun packet hpacket => ?_)
    (fun process' h' => h.settledProcess hprocess hin hflow.requested hmem hok h')
  change ∃ k ∈ session.requested, packet = some k ∧ k ∉ session.segments.erase segment ∧ _
  rw [hflow.requested]
  -- the segment was stored before, or it is the one that has just come
  rcases Session.mem_stored_record.mp hpacket with hpacket | ⟨-, rfl⟩
  · obtain ⟨k, hk, rfl, hsegments⟩ := h.stored packet hpacket
    rw [hflow.requested] at hk
    refine ⟨k, hk, rfl, fun hk => hsegments (List.mem_of_mem_erase hk), fun hs => ?_⟩
    have hlt := (Finset.mem_Ico.mp hk).2
    have heq := hin.eq_of_sent hs
    omega
  · refine ⟨segment, Finset.mem_Ico.mpr hsegment, rfl, hin.nodup.not_mem_erase, fun hs => ?_⟩
    have heq := hin.eq_of_sent hs
    omega

/-- An interest that has timed out is for a segment that is not stored. -/
theorem onSegmentTimeout (h : Settled startBlockId session) (hmem : segment ∈ session.segments)
    (happly : session.onSegmentTimeout now segment = some session') :
    Settled startBlockId session' := by
  have hcounted := h.counted.onSegmentTimeout happly
  unfold Session.onSegmentTimeout at happly
  split at happly
  · next hnone =>
    obtain rfl := Option.some.inj happly
    exact ⟨hcounted, h.nodup, h.stored_endSegment segment,
      fun process hprocess => absurd (hnone.symm.trans hprocess) (by simp)⟩
  next process hprocess =>
  -- a timeout stores nothing; it sends the segment again or ends the process
  refine of_continueWith happly hcounted h.nodup (fun packet hpacket => ?_) (fun process' h' => ?_)
  · obtain ⟨k, hk, rfl, hsegments⟩ := h.stored_endSegment segment packet hpacket
    refine ⟨k, hk, rfl, hsegments, fun hsent => h.notMem_stored hmem ?_⟩
    rw [sent_onSegmentTimeoutControl hsent]
    exact hpacket
  · rw [SettledProcess, response_onSegmentTimeoutControl h']
    exact h.process process hprocess

/-- One event under the process id. -/
theorem apply (h : Settled startBlockId session)
    (hflow : Flow W startBlockId endBlockId n session) {op : SessionOp names}
    (hop : ∀ parameter, op ≠ .insert parameter) (henabled : session.Enabled now op)
    (hok : session.KeepsEnd W startBlockId op)
    (happly : session.apply W now processId op = some session') :
    Settled startBlockId session' := by
  have hsingle := hflow.single
  cases op with
  | insert parameter => exact absurd rfl (hop parameter)
  | data inserted | dataInvalid | timeout =>
    -- there is no interest for a single packet
    change 0 < session.single at henabled
    omega
  | segmentData segment finalBlockId inserted => exact h.onSegmentData hflow henabled hok happly
  | segmentInvalid segment =>
    obtain rfl := Option.some.inj happly
    exact ⟨h.counted, h.nodup, h.stored_endSegment segment, h.process⟩
  | segmentTimeout segment => exact h.onSegmentTimeout henabled happly
  | check =>
    have hcounted := h.counted.apply (by trivial) happly
    obtain rfl := Option.some.inj happly
    refine ⟨hcounted, h.nodup, h.stored, fun process' hprocess' => ?_⟩
    obtain ⟨process, hprocess, rfl⟩ := Option.map_eq_some_iff.mp hprocess'
    obtain ⟨hend, hstatus⟩ := response_onCheckValidated now process
    rw [SettledProcess, hend]
    exact ⟨(h.process process hprocess).1,
      fun h200 => (h.process process hprocess).2 (hstatus h200)⟩
  | delete due =>
    have hcounted := h.counted.apply (by trivial) happly
    obtain rfl := Option.some.inj happly
    exact ⟨hcounted, h.nodup, h.stored, nofun⟩

end Settled

/-! ### Completion -/

section Completion

variable {names : NameLibrary} {W processId startBlockId n : ℕ} {endBlockId : Option ℕ}
  {s s' : WriteHandle}

/-- Nothing is stored beyond the end of the process, and its block numbers do not overflow. -/
def WriteHandle.KeepsEnd (W processId startBlockId : ℕ) (s : WriteHandle) :
    WriteOp names → Prop
  | .advance _ => True
  | .session processId' op =>
    processId' = processId → (s.sessions processId).KeepsEnd W startBlockId op

/-- A session starts settled. -/
theorem settled_startSegmented (now : ℕ) :
    Settled startBlockId (Session.empty.startSegmented W now processId startBlockId endBlockId) :=
  ⟨Session.Counted.start Session.empty rfl, List.nodup_nil, nofun, fun process hprocess => by
    obtain rfl := Option.some.inj hprocess
    exact ⟨fun _ _ _ hk => absurd hk List.not_mem_nil,
      fun h200 => absurd (show 300 = 200 from h200) (by decide)⟩⟩

/-- Each step that meets the condition keeps a session settled. -/
theorem Settled.step (h : Settled startBlockId (s.sessions processId))
    (hflow : Flow W startBlockId endBlockId n (s.sessions processId)) {op : WriteOp names}
    (hop : ∀ parameter, op ≠ .session processId (.insert parameter))
    (hok : s.KeepsEnd W processId startBlockId op) (hstep : WriteStep W s op s') :
    Settled startBlockId (s'.sessions processId) := by
  cases hstep with
  | advance d => exact h
  | session processId' op session _ henabled happly =>
    by_cases heq : processId' = processId
    · subst heq
      rw [WriteHandle.sessions_put_self]
      refine h.apply hflow (fun parameter hinsert => hop parameter ?_) henabled (hok rfl) happly
      rw [hinsert]
    · rw [WriteHandle.sessions_put_of_ne s session (Ne.symm heq)]
      exact h
  | abort => exact h

/-- **Status 200.** In every run of the handle from the start of a segmented process on, whose
start does not exceed its end, in which nothing that is stored lies beyond the end and block
numbers do not overflow, a process with status 200 has stored every segment up to its end. -/
theorem complete_throughout (hle : ∀ e, endBlockId = some e → startBlockId ≤ e)
    {h : List (WriteHandle × WriteOp names)}
    (hrun : Run (segmentedProcess names W processId startBlockId endBlockId) h s)
    (hok : Admitted (WriteHandle.KeepsEnd W processId startBlockId) h) :
    Throughout (fun s => (s.sessions processId).Complete startBlockId) h s := by
  refine hrun.throughout
    (I := fun s => (∃ n, Flow W startBlockId endBlockId n (s.sessions processId)) ∧
      Settled startBlockId (s.sessions processId)) ?_ ?_ ?_ hok
  · intro s hinit
    rw [show s.sessions processId = _ from hinit]
    exact ⟨⟨_, flow_startSegmented hle⟩, settled_startSegmented s.now⟩
  · rintro s ⟨-, hsettled⟩
    exact hsettled.complete
  · rintro s op s' ⟨⟨n, hflow⟩, hsettled⟩ hkeeps ⟨hstep, hop⟩
    refine ⟨hflow.step ?_ hop hstep, hsettled.step hflow hop hkeeps hstep⟩
    rintro segment final inserted rfl
    exact (hkeeps rfl).1

end Completion

section Examples

/-- The process 1 fetches segments from 0 on, up to the given end. -/
private def fetchFrom (endBlockId : Option ℕ) : WriteHandle :=
  WriteHandle.start.put 1 (Session.empty.startSegmented (2 ^ 64) 0 1 0 endBlockId)

/-- A segment comes for the process 1 and is stored. -/
private def comes (segment : ℕ) (finalBlockId : Option ℕ) : WriteOp octetNames :=
  .session 1 (.segmentData segment finalBlockId true)

/-- The segments 0 and 1 are stored, which are all. -/
theorem complete_throughout_two :
    ∃ s₁ s₂ process, Run (segmentedProcess octetNames (2 ^ 64) 1 0 (some 1))
        [(fetchFrom (some 1), comes 0 none), (s₁, comes 1 none)] s₂ ∧
      (s₂.sessions 1).process = some process ∧ process.response.statusCode = 200 ∧
      Throughout (fun s => (s.sessions 1).Complete 0)
        [(fetchFrom (some 1), comes 0 none), (s₁, comes 1 none)] s₂ := by
  have hinit : Run (segmentedProcess octetNames (2 ^ 64) 1 0 (some 1)) [] (fetchFrom (some 1)) :=
    .nil rfl
  have hrun₁ := hinit.snoc (a := comes 0 none)
    ⟨WriteStep.session (fetchFrom (some 1)) 1 _ _ rfl (.head _) rfl, nofun⟩
  have hrun₂ := hrun₁.snoc (a := comes 1 none)
    ⟨WriteStep.session _ 1 _ _ rfl (.head _) rfl, nofun⟩
  refine ⟨_, _, _, hrun₂, rfl, rfl, complete_throughout (by simp) hrun₂ ?_⟩
  -- at each of the two steps the end is the last segment and nothing beyond it is stored
  refine List.forall_mem_cons.mpr ⟨fun _ => ⟨?_, ?_⟩, ?_⟩
  · rintro process hprocess
    obtain rfl := Option.some.inj hprocess
    rfl
  · rintro process hprocess e (he | he)
    · obtain rfl := Option.some.inj hprocess
      obtain rfl := Option.some.inj (show some 1 = some e from he)
      exact ⟨rfl, fun k hk => absurd hk List.not_mem_nil, fun _ => Nat.zero_le 1⟩
    · exact absurd he (by simp)
  refine List.forall_mem_singleton.mpr fun _ => ⟨?_, ?_⟩
  · rintro process hprocess
    obtain rfl := Option.some.inj hprocess
    rfl
  · rintro process hprocess e (he | he)
    · obtain rfl := Option.some.inj hprocess
      obtain rfl := Option.some.inj (show some 1 = some e from he)
      refine ⟨rfl, fun k hk => ?_, fun _ => le_rfl⟩
      obtain rfl := Option.some.inj (List.mem_singleton.mp (show some k ∈ [some 0] from hk))
      exact Nat.zero_le 1
    · exact absurd he (by simp)

/-- The segment 2 is counted before the end is known to be 1. -/
theorem complete_without_first :
    ∃ h s, Run (segmentedProcess octetNames (2 ^ 64) 1 0 none) h s ∧
      ¬(s.sessions 1).Complete 0 := by
  have hinit : Run (segmentedProcess octetNames (2 ^ 64) 1 0 none) [] (fetchFrom none) :=
    .nil rfl
  have hrun₁ := hinit.snoc (a := comes 2 none)
    ⟨WriteStep.session (fetchFrom none) 1 _ _ rfl (.tail _ (.tail _ (.head _))) rfl, nofun⟩
  have hrun₂ := hrun₁.snoc (a := comes 1 (some 1))
    ⟨WriteStep.session _ 1 _ _ rfl (.tail _ (.head _)) rfl, nofun⟩
  refine ⟨_, _, hrun₂, fun h => ?_⟩
  obtain ⟨e, he, hall⟩ := h _ rfl rfl
  have hmem : some 0 ∈ [some 2, some 1] := hall 0 le_rfl (Nat.zero_le e)
  exact absurd hmem (by decide)

end Examples

end OpenGeoBase
