import OpenGeoBase.Repo.WriteHandle

/-!
# Flow control of segmented insertions

A segmented process sends its initial credit of interests and one more for each packet that
comes, so credit and outstanding interests add up to the initial credit, less what is lost
to packets that fail validation. It requests the segments in order, from the first one on and
not beyond the end of the command.

`Flow` is the invariant behind this. It speaks of the `n` segments requested so far: the queue
is empty or holds the next one, the outstanding ones are different and among them, and each
has an entry in `retryCounts`. `InFlow.onSegmentDataControl` is the one place where credit, queue
and entries move together.
-/

namespace OpenGeoBase

open Transition

/-- The handle from the moment on when a segmented command is given the process id, which is not
given out again. -/
def segmentedProcess (names : NameLibrary) (W processId startBlockId : ℕ)
    (endBlockId : Option ℕ) : System WriteHandle (WriteOp names) where
  init s := s.sessions processId =
    Session.empty.startSegmented W s.now processId startBlockId endBlockId
  step s op s' := WriteStep W s op s' ∧
    ∀ parameter, op ≠ .session processId (.insert parameter)

/-- The flow control of a segmented process. -/
structure FlowControl (names : NameLibrary) (W processId startBlockId : ℕ)
    (endBlockId : Option ℕ) (s : WriteHandle) : Prop where
  initial_le : initialCredit W startBlockId endBlockId ≤ defaultCredit
  credit_le : ∀ process, (s.sessions processId).process = some process →
    process.credit + (s.sessions processId).segments.length ≤
      initialCredit W startBlockId endBlockId
  credit_eq : ∀ process, (s.sessions processId).process = some process →
    (s.sessions processId).invalid = 0 →
    process.credit + (s.sessions processId).segments.length =
      initialCredit W startBlockId endBlockId
  contiguous : ∃ n, (s.sessions processId).requested =
    Finset.Ico startBlockId (startBlockId + n)
  le_end : ∀ e, endBlockId = some e → ∀ k ∈ (s.sessions processId).requested, k ≤ e
  retryCounts : ∀ process, (s.sessions processId).process = some process →
    ∀ k ∈ (s.sessions processId).segments, process.retryCounts k ≠ none
  no_abort : ∀ op : SessionOp names, (s.sessions processId).Enabled s.now op →
    (s.sessions processId).apply W s.now processId op ≠ none

/-! ### The invariant of a process -/

/-- A process that has requested `n` segments. -/
structure InFlow (W startBlockId : ℕ) (endBlockId : Option ℕ) (n : ℕ) (segments : List ℕ)
    (invalid : ℕ) (process : ProcessInfo) : Prop where
  start_eq : process.response.startBlockId = some startBlockId
  end_le : ∀ e₀, endBlockId = some e₀ → ∃ e ≤ e₀, process.response.endBlockId = some e
  credit_nonneg : 0 ≤ process.credit
  credit_le : process.credit + segments.length ≤ initialCredit W startBlockId endBlockId
  credit_eq : invalid = 0 →
    process.credit + segments.length = initialCredit W startBlockId endBlockId
  queue : process.nextSegmentQueue = [] ∨
    (process.nextSegmentQueue = [startBlockId + n] ∧ process.nextSegment = startBlockId + n)
  nodup : segments.Nodup
  segments_mem : ∀ k ∈ segments, startBlockId ≤ k ∧ k < startBlockId + n
  retryCounts : ∀ k ∈ segments, process.retryCounts k ≠ none

/-- The number of segments requested does not go beyond the end of the command. -/
def WithinCommand (startBlockId : ℕ) (endBlockId : Option ℕ) (n : ℕ) : Prop :=
  ∀ e, endBlockId = some e → startBlockId + n ≤ e + 1

/-- The session of a process that has requested `n` segments. -/
structure Flow (W startBlockId : ℕ) (endBlockId : Option ℕ) (n : ℕ) (session : Session) :
    Prop where
  single : session.single = 0
  requested : session.requested = Finset.Ico startBlockId (startBlockId + n)
  within : WithinCommand startBlockId endBlockId n
  process : ∀ process, session.process = some process →
    InFlow W startBlockId endBlockId n session.segments session.invalid process

/-- A process never starts with more than the default credit. -/
theorem initialCredit_le (W startBlockId : ℕ) (endBlockId : Option ℕ) :
    initialCredit W startBlockId endBlockId ≤ defaultCredit := by
  unfold initialCredit
  split
  · exact min_le_left _ _
  · exact le_rfl

/-- The segments that fit below an end, also when their number is taken modulo `W`. -/
theorem initialCredit_le_end (W : ℕ) {startBlockId e : ℕ} (hle : startBlockId ≤ e) :
    initialCredit W startBlockId (some e) ≤ e - startBlockId + 1 := by
  have hmod : (e + W - startBlockId + 1) % W = (e - startBlockId + 1) % W := by
    rw [show e + W - startBlockId + 1 = e - startBlockId + 1 + W by omega, Nat.add_mod_right]
  unfold initialCredit
  dsimp only
  rw [hmod]
  exact (min_le_right _ _).trans (Nat.mod_le _ _)

/-- A process sends no more interests at the start than it has credit for. -/
theorem length_initialSegments_le (W startBlockId : ℕ) (endBlockId : Option ℕ) :
    (initialSegments W startBlockId endBlockId).length ≤
      initialCredit W startBlockId endBlockId := by
  have hmod := Nat.mod_le (startBlockId + initialCredit W startBlockId endBlockId) W
  unfold initialSegments
  rw [List.length_range']
  omega

section Flow

variable {W now startBlockId n segment : ℕ} {endBlockId : Option ℕ} {segments : List ℕ}
  {invalid : ℕ} {process process' : ProcessInfo}

/-- The first interests go in a row from the start block. -/
theorem mem_initialSegments {k : ℕ} :
    k ∈ initialSegments W startBlockId endBlockId ↔
      startBlockId ≤ k ∧ k < startBlockId + (initialSegments W startBlockId endBlockId).length := by
  unfold initialSegments
  rw [List.mem_range'_1, List.length_range']

/-- A segmented process starts in flow. -/
theorem flow_startSegmented {processId : ℕ}
    (hle : ∀ e, endBlockId = some e → startBlockId ≤ e) :
    Flow W startBlockId endBlockId (initialSegments W startBlockId endBlockId).length
      (Session.empty.startSegmented W now processId startBlockId endBlockId) where
  single := rfl
  requested := by
    ext k
    rw [Finset.mem_Ico, ← mem_initialSegments]
    exact List.mem_toFinset
  within := by
    rintro e rfl
    have hlen := length_initialSegments_le W startBlockId (some e)
    have hend := initialCredit_le_end W (hle e rfl)
    have hse := hle e rfl
    omega
  process := by
    intro process hprocess
    obtain rfl := Option.some.inj hprocess
    have hlen := length_initialSegments_le W startBlockId endBlockId
    -- at the start the credit left and the segments out add up to the initial credit
    refine ⟨rfl, ?_, ?_, ?_, ?_, ?_, ?_, ?_, ?_⟩
    · rintro e rfl
      exact ⟨e, le_rfl, rfl⟩
    · change (0 : ℤ) ≤ (initialCredit W startBlockId endBlockId : ℤ) -
        (initialSegments W startBlockId endBlockId).length
      omega
    · change (initialCredit W startBlockId endBlockId : ℤ) -
        (initialSegments W startBlockId endBlockId).length +
          (initialSegments W startBlockId endBlockId).length ≤ _
      omega
    · intro _
      change (initialCredit W startBlockId endBlockId : ℤ) -
        (initialSegments W startBlockId endBlockId).length +
          (initialSegments W startBlockId endBlockId).length = _
      omega
    · exact Or.inr ⟨rfl, rfl⟩
    · exact List.nodup_range'
    · intro k hk
      exact mem_initialSegments.mp hk
    -- every segment out has its retry count, which the timeout relies on
    · intro k hk
      change (if k ∈ initialSegments W startBlockId endBlockId then some 0 else none) ≠ none
      rw [if_pos (show k ∈ initialSegments W startBlockId endBlockId from hk)]
      simp

/-- What a callback may do to a process with these outstanding interests. -/
def FlowResult (W startBlockId : ℕ) (endBlockId : Option ℕ) (n : ℕ) (segments : List ℕ)
    (invalid : ℕ) : Control → Prop
  | .proceed process none => InFlow W startBlockId endBlockId n segments invalid process
  | .proceed process (some k) => ∃ n', WithinCommand startBlockId endBlockId n' ∧
    Finset.Ico startBlockId (startBlockId + n) ∪ {k} =
      Finset.Ico startBlockId (startBlockId + n') ∧
    InFlow W startBlockId endBlockId n' (segments ++ [k]) invalid process
  | .finish process => InFlow W startBlockId endBlockId n segments invalid process
  | .erase => True
  | .abort => False

/-- The end comes down or stays. -/
theorem ProcessInfo.exists_endBlockId_refreshEnd {e : ℕ} (finalBlockId : Option ℕ)
    (h : process.response.endBlockId = some e) :
    ∃ e' ≤ e, (process.refreshEnd finalBlockId).response.endBlockId = some e' := by
  unfold refreshEnd
  split
  · exact ⟨e, le_rfl, h⟩
  · next final =>
    rw [h]
    dsimp only
    split
    · next hlt => exact ⟨final, hlt.le, rfl⟩
    · exact ⟨e, le_rfl, h⟩

namespace InFlow

variable (h : InFlow W startBlockId endBlockId n segments invalid process)

include h

/-- Only the blocks of the response matter, and the end may come down. -/
theorem congr (hstart : process'.response.startBlockId = process.response.startBlockId)
    (hend : ∀ e, process.response.endBlockId = some e →
      ∃ e' ≤ e, process'.response.endBlockId = some e')
    (hqueue : process'.nextSegmentQueue = process.nextSegmentQueue)
    (hnext : process'.nextSegment = process.nextSegment)
    (hretry : process'.retryCounts = process.retryCounts)
    (hcredit : process'.credit = process.credit) :
    InFlow W startBlockId endBlockId n segments invalid process' where
  start_eq := hstart.trans h.start_eq
  end_le e₀ he₀ := by
    obtain ⟨e, hle, he⟩ := h.end_le e₀ he₀
    obtain ⟨e', hle', he'⟩ := hend e he
    exact ⟨e', hle'.trans hle, he'⟩
  credit_nonneg := by rw [hcredit]; exact h.credit_nonneg
  credit_le := by rw [hcredit]; exact h.credit_le
  credit_eq := by rw [hcredit]; exact h.credit_eq
  queue := by rw [hqueue, hnext]; exact h.queue
  nodup := h.nodup
  segments_mem := h.segments_mem
  retryCounts := by rw [hretry]; exact h.retryCounts

/-- A status code leaves the flow. -/
theorem setStatusCode (statusCode : ℕ) :
    InFlow W startBlockId endBlockId n segments invalid (process.setStatusCode statusCode) :=
  h.congr rfl (fun e he => ⟨e, le_rfl, he⟩) rfl rfl rfl rfl

theorem countInserted (inserted : Bool) :
    InFlow W startBlockId endBlockId n segments invalid (process.countInserted inserted) := by
  rw [ProcessInfo.countInserted_eq]
  exact h.congr rfl (fun e he => ⟨e, le_rfl, he⟩) rfl rfl rfl rfl

/-- A new end block leaves the flow. -/
theorem refreshEnd (finalBlockId : Option ℕ) :
    InFlow W startBlockId endBlockId n segments invalid (process.refreshEnd finalBlockId) := by
  have hend : ∀ e, process.response.endBlockId = some e →
      ∃ e' ≤ e, (process.refreshEnd finalBlockId).response.endBlockId = some e' :=
    fun e he => ProcessInfo.exists_endBlockId_refreshEnd finalBlockId he
  rw [ProcessInfo.refreshEnd_eq]
  exact h.congr rfl hend rfl rfl rfl rfl

/-- A check leaves the flow. -/
theorem onCheckValidated :
    InFlow W startBlockId endBlockId n segments invalid (onCheckValidated now process).2 := by
  unfold OpenGeoBase.onCheckValidated
  split
  · exact h
  · split
    · unfold extendNoEndTime
      split
      · exact h.setStatusCode 405
      · exact h.congr rfl (fun e he => ⟨e, le_rfl, he⟩) rfl rfl rfl rfl
    · exact h

/-- A packet has come, and gives back the credit of its interest. -/
theorem regain (hk : segment ∈ segments) :
    InFlow W startBlockId endBlockId n (segments.erase segment) invalid
      { process with credit := process.credit + 1 } where
  start_eq := h.start_eq
  end_le := h.end_le
  -- the segment that came back frees one credit, so the sum stays
  credit_nonneg := by
    have hnonneg := h.credit_nonneg
    change 0 ≤ process.credit + 1
    omega
  credit_le := by
    have hle := h.credit_le
    have hpos := List.length_pos_of_mem hk
    rw [List.length_erase_of_mem hk]
    change process.credit + 1 + ((segments.length - 1 : ℕ) : ℤ) ≤ _
    omega
  credit_eq hzero := by
    have heq := h.credit_eq hzero
    have hpos := List.length_pos_of_mem hk
    rw [List.length_erase_of_mem hk]
    change process.credit + 1 + ((segments.length - 1 : ℕ) : ℤ) = _
    omega
  queue := h.queue
  nodup := h.nodup.erase segment
  segments_mem k hk := h.segments_mem k (List.mem_of_mem_erase hk)
  retryCounts k hk := h.retryCounts k (List.mem_of_mem_erase hk)

/-- A packet that failed validation takes the credit of its interest with it. -/
theorem lose (hk : segment ∈ segments) :
    InFlow W startBlockId endBlockId n (segments.erase segment) (invalid + 1) process where
  start_eq := h.start_eq
  end_le := h.end_le
  credit_nonneg := h.credit_nonneg
  credit_le := by
    have hle := h.credit_le
    have hpos := List.length_pos_of_mem hk
    rw [List.length_erase_of_mem hk]
    omega
  credit_eq hzero := absurd hzero (by omega)
  queue := h.queue
  nodup := h.nodup.erase segment
  segments_mem k hk := h.segments_mem k (List.mem_of_mem_erase hk)
  retryCounts k hk := h.retryCounts k (List.mem_of_mem_erase hk)

/-- The next segment goes out for one that has come. -/
theorem send (hk : segment ∉ segments) (hcredit : 0 < process.credit)
    (hnext : process.nextSegment = startBlockId + n)
    (hwrap : (process.nextSegment + 1) % W = process.nextSegment + 1) :
    InFlow W startBlockId endBlockId (n + 1) (segments ++ [startBlockId + n]) invalid
      (({ (process.forget segment).countRetry (startBlockId + n) with
        nextSegmentQueue := [], credit := process.credit - 1 } : ProcessInfo).pushNext W) := by
  -- the segment is not in flight yet: those in flight are all below it
  have hnew : startBlockId + n ∉ segments := fun hm => by
    have hlt := (h.segments_mem _ hm).2
    omega
  rw [hnext] at hwrap
  refine ⟨?_, ?_, ?_, ?_, ?_, ?_, ?_, ?_, ?_⟩
  · rw [ProcessInfo.response_pushNext]
    exact h.start_eq
  · rw [ProcessInfo.response_pushNext]
    exact h.end_le
  · rw [ProcessInfo.credit_pushNext]
    change 0 ≤ process.credit - 1
    omega
  -- what is in flight and the credit add up as before: one goes out, one credit goes
  · rw [ProcessInfo.credit_pushNext, List.length_append]
    have hle := h.credit_le
    change process.credit - 1 + ((segments.length + 1 : ℕ) : ℤ) ≤ _
    omega
  · intro hzero
    rw [ProcessInfo.credit_pushNext, List.length_append]
    have heq := h.credit_eq hzero
    change process.credit - 1 + ((segments.length + 1 : ℕ) : ℤ) = _
    omega
  · -- the queue gets the segment after this one, or stays empty
    unfold ProcessInfo.pushNext
    have hfield : ((process.forget segment).countRetry (startBlockId + n)).nextSegment =
        startBlockId + n := hnext
    split
    · exact Or.inl rfl
    · right
      dsimp only
      rw [hfield, hwrap]
      exact ⟨rfl, rfl⟩
  · exact List.Nodup.append h.nodup (List.nodup_singleton _) (by simpa using hnew)
  · intro k hk
    rcases List.mem_append.mp hk with hk | hk
    · have hmem := h.segments_mem k hk
      omega
    · obtain rfl := List.mem_singleton.mp hk
      omega
  · intro k hkmem
    rw [ProcessInfo.retryCounts_pushNext]
    change Function.update (Function.update process.retryCounts segment none) (startBlockId + n) _ k
      ≠ none
    rcases List.mem_append.mp hkmem with hkmem | hkmem
    -- an older segment keeps the count it had
    · have hne : k ≠ startBlockId + n := by
        rintro rfl
        exact hnew hkmem
      have hne' : k ≠ segment := by
        rintro rfl
        exact hk hkmem
      rw [Function.update_of_ne hne, Function.update_of_ne hne']
      exact h.retryCounts k hkmem
    · obtain rfl := List.mem_singleton.mp hkmem
      rw [Function.update_self]
      simp

/-- With the front of the queue gone nothing more is sent. -/
theorem emptyQueue :
    InFlow W startBlockId endBlockId n segments invalid
      { process with nextSegmentQueue := [] } where
  start_eq := h.start_eq
  end_le := h.end_le
  credit_nonneg := h.credit_nonneg
  credit_le := h.credit_le
  credit_eq := h.credit_eq
  queue := Or.inl rfl
  nodup := h.nodup
  segments_mem := h.segments_mem
  retryCounts := h.retryCounts

/-- Sending within the credit keeps it. -/
theorem sendNext (hk : segment ∉ segments) (hretry : process.retryCounts segment ≠ none)
    (hcredit : 0 < process.credit)
    (hwrap : (process.nextSegment + 1) % W = process.nextSegment + 1) :
    FlowResult W startBlockId endBlockId n segments invalid
      (sendNext W process segment) := by
  unfold OpenGeoBase.sendNext
  -- with nothing in the queue no segment is asked for
  rcases h.queue with hempty | ⟨hqueue, hnext⟩
  · rw [hempty]
    exact h
  · rw [hqueue]
    dsimp only
    split
    · exact h.emptyQueue
    · next hexceeds =>
      refine ⟨n + 1, ?_, ?_, h.send hk hcredit hnext hwrap⟩
      · -- the segment has been compared with an end that is at most that of the command
        intro e₀ he₀
        obtain ⟨e, hle, he⟩ := h.end_le e₀ he₀
        unfold ProcessInfo.exceedsEnd at hexceeds
        dsimp only at hexceeds
        rw [he] at hexceeds
        simp only [decide_eq_true_eq, not_lt] at hexceeds
        omega
      · ext k
        simp only [Finset.mem_union, Finset.mem_Ico, Finset.mem_singleton]
        omega

/-- A packet that has come. -/
theorem onSegmentDataControl (hk : segment ∈ segments)
    (hwrap : (process.nextSegment + 1) % W = process.nextSegment + 1) :
    FlowResult W startBlockId endBlockId n (segments.erase segment) invalid
      (onSegmentDataControl W now process segment) := by
  have hregain := h.regain hk
  have hnonneg := h.credit_nonneg
  unfold OpenGeoBase.onSegmentDataControl
  dsimp only
  split
  · exact hregain.setStatusCode 405
  · split
    · exact hregain.setStatusCode 200
    · split
      · exact hregain
      · refine hregain.sendNext ?_ (h.retryCounts segment hk) ?_ hwrap
        · exact h.nodup.not_mem_erase
        · change 0 < process.credit + 1
          omega

/-- An interest that has timed out is expressed again, or the process is given up. -/
theorem onSegmentTimeoutControl (hk : segment ∈ segments)
    (hwithin : WithinCommand startBlockId endBlockId n) :
    FlowResult W startBlockId endBlockId n (segments.erase segment) invalid
      (onSegmentTimeoutControl process segment) := by
  unfold OpenGeoBase.onSegmentTimeoutControl
  -- no retry count, too many retries, or the same segment once more
  split
  · next hnone => exact h.retryCounts segment hk hnone
  · split
    · trivial
    · have hmem := h.segments_mem segment hk
      have hlen := (List.perm_cons_erase hk).length_eq
      refine ⟨n, hwithin, ?_, ?_⟩
      · ext k
        simp only [Finset.mem_union, Finset.mem_Ico, Finset.mem_singleton]
        omega
      -- the retried segment moves to the end: the same segments are out
      · have hperm : (segments.erase segment ++ [segment]).Perm segments :=
          (List.perm_append_singleton _ _).trans (List.perm_cons_erase hk).symm
        refine ⟨h.start_eq, h.end_le, h.credit_nonneg, ?_, ?_, h.queue, ?_, ?_, ?_⟩
        · rw [hperm.length_eq]
          exact h.credit_le
        · rw [hperm.length_eq]
          exact h.credit_eq
        · exact hperm.nodup_iff.mpr h.nodup
        · exact fun k hk => h.segments_mem k (hperm.mem_iff.mp hk)
        · intro k hk'
          change Function.update process.retryCounts segment _ k ≠ none
          by_cases heq : k = segment
          · rw [heq, Function.update_self]
            simp
          · rw [Function.update_of_ne heq]
            exact h.retryCounts k (hperm.mem_iff.mp hk')

end InFlow

end Flow

/-! ### The invariant of a session -/

/-- The next block number can still be counted up. -/
def Session.NoOverflow (W : ℕ) (session : Session) : Prop :=
  ∀ process, session.process = some process →
    (process.nextSegment + 1) % W = process.nextSegment + 1

namespace Flow

variable {names : NameLibrary} {W now processId startBlockId n segment : ℕ}
  {endBlockId : Option ℕ} {session session' : Session} {control : Control}

/-- What a step of the process results in is in flow for the session. -/
theorem of_result (before : Session) (hsingle : before.single = 0)
    (hrequested : before.requested = Finset.Ico startBlockId (startBlockId + n))
    (hwithin : WithinCommand startBlockId endBlockId n)
    (hresult : FlowResult W startBlockId endBlockId n before.segments before.invalid control)
    (hcont : before.continueWith now control = some session') :
    ∃ n', Flow W startBlockId endBlockId n' session' := by
  -- the session after each of the five ends a step can have
  match control with
  | .proceed process none =>
    obtain rfl := Option.some.inj hcont
    refine ⟨n, hsingle, hrequested, hwithin, ?_⟩
    rintro _ ⟨⟩
    exact hresult
  | .proceed process (some k) =>
    obtain rfl := Option.some.inj hcont
    obtain ⟨n', hwithin', hico, hflow⟩ := hresult
    refine ⟨n', hsingle, ?_, hwithin', ?_⟩
    · rw [← hico, ← hrequested]
    · rintro _ ⟨⟩
      exact hflow
  | .finish process =>
    obtain rfl := Option.some.inj hcont
    refine ⟨n, hsingle, hrequested, hwithin, ?_⟩
    rintro _ ⟨⟩
    exact hresult
  | .erase =>
    obtain rfl := Option.some.inj hcont
    exact ⟨n, hsingle, hrequested, hwithin, nofun⟩
  | .abort => exact hresult.elim

/-- A session whose process is in flow goes on. -/
theorem continueWith_ne_none (before : Session)
    (hresult : FlowResult W startBlockId endBlockId n before.segments before.invalid control) :
    before.continueWith now control ≠ none := by
  match control with
  | .proceed process none => exact Option.some_ne_none _
  | .proceed process (some k) => exact Option.some_ne_none _
  | .finish process => exact Option.some_ne_none _
  | .erase => exact Option.some_ne_none _
  | .abort => exact hresult.elim

variable (h : Flow W startBlockId endBlockId n session)

include h

/-- What comes of a segment that arrives. -/
theorem result_segmentData {process : ProcessInfo} (hprocess : session.process = some process)
    (hmem : segment ∈ session.segments) (hover : session.NoOverflow W)
    (finalBlockId : Option ℕ) (inserted : Bool) :
    FlowResult W startBlockId endBlockId n (session.segments.erase segment) session.invalid
      (onSegmentDataValidated W now process segment finalBlockId inserted) := by
  have hflow := ((h.process process hprocess).refreshEnd finalBlockId).countInserted inserted
  refine hflow.onSegmentDataControl hmem ?_
  rw [ProcessInfo.nextSegment_countInserted, ProcessInfo.nextSegment_refreshEnd]
  exact hover process hprocess

/-- An ended process has no flow to keep. -/
theorem of_process_none (hprocess : session'.process = none)
    (hsingle : session'.single = session.single)
    (hrequested : session'.requested = session.requested) :
    Flow W startBlockId endBlockId n session' where
  single := hsingle.trans h.single
  requested := hrequested.trans h.requested
  within := h.within
  process process hp := by
    rw [hprocess] at hp
    exact absurd hp (by simp)

/-- One event under the process id. -/
theorem apply {op : SessionOp names} (hop : ∀ parameter, op ≠ .insert parameter)
    (henabled : session.Enabled now op)
    (hover : ∀ segment final inserted, op = .segmentData segment final inserted →
      session.NoOverflow W)
    (happly : session.apply W now processId op = some session') :
    ∃ n', Flow W startBlockId endBlockId n' session' := by
  have hsingle := h.single
  cases op with
  | insert parameter => exact absurd rfl (hop parameter)
  | data inserted | dataInvalid | timeout =>
    -- there is no interest for a single packet
    change 0 < session.single at henabled
    omega
  | segmentData segment finalBlockId inserted =>
    change session.onSegmentData W now segment finalBlockId inserted = some session' at happly
    unfold Session.onSegmentData at happly
    split at happly
    · next hnone =>
      obtain rfl := Option.some.inj happly
      exact ⟨n, h.of_process_none hnone rfl rfl⟩
    · next process hprocess =>
      have hresult : FlowResult W startBlockId endBlockId n (session.segments.erase segment)
          session.invalid (onSegmentDataValidated W now process segment finalBlockId inserted) :=
        h.result_segmentData hprocess henabled (hover _ _ _ rfl) finalBlockId inserted
      rw [Session.record_eq] at happly
      exact of_result { session.endSegment segment with
        stored := ((session.endSegment segment).record (some segment) inserted).stored }
        hsingle h.requested h.within hresult happly
  | segmentInvalid segment =>
    obtain rfl := Option.some.inj happly
    refine ⟨n, hsingle, h.requested, h.within, fun process hprocess => ?_⟩
    exact (h.process process hprocess).lose henabled
  | segmentTimeout segment =>
    change session.onSegmentTimeout now segment = some session' at happly
    unfold Session.onSegmentTimeout at happly
    split at happly
    · next hnone =>
      obtain rfl := Option.some.inj happly
      exact ⟨n, h.of_process_none hnone rfl rfl⟩
    · next process hprocess =>
      have hresult := (h.process process hprocess).onSegmentTimeoutControl henabled h.within
      exact of_result (session.endSegment segment) hsingle h.requested h.within hresult happly
  | check =>
    obtain rfl := Option.some.inj happly
    refine ⟨n, hsingle, h.requested, h.within, fun process' hprocess' => ?_⟩
    obtain ⟨process, hprocess, rfl⟩ := Option.map_eq_some_iff.mp hprocess'
    exact (h.process process hprocess).onCheckValidated
  | delete due =>
    obtain rfl := Option.some.inj happly
    exact ⟨n, h.of_process_none rfl rfl rfl⟩

/-- No assertion fails. -/
theorem apply_ne_none {op : SessionOp names} (henabled : session.Enabled now op)
    (hover : session.NoOverflow W) : session.apply W now processId op ≠ none := by
  -- only the two callbacks of a segment can abort; the others always leave a session
  cases op with
  | segmentData segment finalBlockId inserted =>
    change session.onSegmentData W now segment finalBlockId inserted ≠ none
    unfold Session.onSegmentData
    split
    · exact Option.some_ne_none _
    · next process hprocess =>
      have hresult : FlowResult W startBlockId endBlockId n (session.segments.erase segment)
          session.invalid (onSegmentDataValidated W now process segment finalBlockId inserted) :=
        h.result_segmentData hprocess henabled hover finalBlockId inserted
      rw [Session.record_eq]
      exact continueWith_ne_none { session.endSegment segment with
        stored := ((session.endSegment segment).record (some segment) inserted).stored } hresult
  | segmentTimeout segment =>
    change session.onSegmentTimeout now segment ≠ none
    unfold Session.onSegmentTimeout
    split
    · exact Option.some_ne_none _
    · next process hprocess =>
      have hresult := (h.process process hprocess).onSegmentTimeoutControl henabled h.within
      exact continueWith_ne_none (session.endSegment segment) hresult
  | _ => exact Option.some_ne_none _

end Flow

/-! ### Flow control -/

section FlowControl

variable {names : NameLibrary} {W processId startBlockId n : ℕ} {endBlockId : Option ℕ}
  {s s' : WriteHandle}

/-- A session in flow keeps what the flow control promises. -/
theorem Flow.flowControl
    (h : Flow W startBlockId endBlockId n (s.sessions processId))
    (hover : (s.sessions processId).NoOverflow W) :
    FlowControl names W processId startBlockId endBlockId s where
  initial_le := initialCredit_le W startBlockId endBlockId
  credit_le process hprocess := (h.process process hprocess).credit_le
  credit_eq process hprocess hzero := (h.process process hprocess).credit_eq hzero
  contiguous := ⟨n, h.requested⟩
  le_end e he k hk := by
    have hle := h.within e he
    rw [h.requested, Finset.mem_Ico] at hk
    omega
  retryCounts process hprocess := (h.process process hprocess).retryCounts
  no_abort _ henabled := h.apply_ne_none henabled hover

/-- What happens elsewhere in the handle does not touch the process. -/
theorem Flow.step (h : Flow W startBlockId endBlockId n (s.sessions processId))
    {op : WriteOp names}
    (hover : ∀ segment final inserted,
      op = .session processId (.segmentData segment final inserted) →
      (s.sessions processId).NoOverflow W)
    (hop : ∀ parameter, op ≠ .session processId (.insert parameter))
    (hstep : WriteStep W s op s') :
    ∃ n', Flow W startBlockId endBlockId n' (s'.sessions processId) := by
  cases hstep with
  | advance d => exact ⟨n, h⟩
  | session processId' op session _ henabled happly =>
    -- a session of another process leaves this one as it is
    by_cases heq : processId' = processId
    · subst heq
      rw [WriteHandle.sessions_put_self]
      refine h.apply (fun parameter hinsert => hop parameter ?_) henabled ?_ happly
      · rw [hinsert]
      · rintro segment final inserted rfl
        exact hover segment final inserted rfl
    · rw [WriteHandle.sessions_put_of_ne s session (Ne.symm heq)]
      exact ⟨n, h⟩
  | abort => exact ⟨n, h⟩

/-- **Flow control.** In every run of the handle from the start of a segmented process on, whose
start does not exceed its end, the credit of the process and its outstanding interests stay
within the initial credit, the segments are requested in order up to the end of the command, and
no assertion fails. -/
theorem flowControl_throughout (hle : ∀ e, endBlockId = some e → startBlockId ≤ e)
    {h : List (WriteHandle × WriteOp names)}
    (hrun : Run (segmentedProcess names 0 processId startBlockId endBlockId) h s) :
    Throughout (FlowControl names 0 processId startBlockId endBlockId) h s := by
  -- unbounded block numbers do not overflow
  have hover : ∀ session : Session, session.NoOverflow 0 := fun _ _ _ => Nat.mod_zero _
  have hok : Admitted (fun _ _ => True) h := fun _ _ => trivial
  refine hrun.throughout
    (I := fun s => ∃ n, Flow 0 startBlockId endBlockId n (s.sessions processId)) ?_ ?_ ?_ hok
  · intro s hinit
    rw [show s.sessions processId = _ from hinit]
    exact ⟨_, flow_startSegmented hle⟩
  · rintro s ⟨n, hflow⟩
    exact hflow.flowControl (hover _)
  · rintro s op s' ⟨n, hflow⟩ - ⟨hstep, hop⟩
    exact hflow.step (fun _ _ _ _ => hover _) hop hstep

end FlowControl

section Examples

/-- The process 1 fetches the segments 0 and 1. -/
private def fetchTwo (W : ℕ) : WriteHandle :=
  WriteHandle.start.put 1 (Session.empty.startSegmented W 0 1 0 (some 1))

/-- The segment 0 comes and is stored. -/
private def firstComes : WriteOp octetNames := .session 1 (.segmentData 0 none true)

theorem flowControl_throughout_two :
    ∃ s, Run (segmentedProcess octetNames 0 1 0 (some 1)) [(fetchTwo 0, firstComes)] s ∧
      Throughout (FlowControl octetNames 0 1 0 (some 1)) [(fetchTwo 0, firstComes)] s := by
  have hinit : Run (segmentedProcess octetNames 0 1 0 (some 1)) [] (fetchTwo 0) := .nil rfl
  have hrun := hinit.snoc (a := firstComes)
    ⟨WriteStep.session (fetchTwo 0) 1 _ _ rfl List.mem_cons_self rfl, nofun⟩
  exact ⟨_, hrun, flowControl_throughout (by simp) hrun⟩

end Examples

end OpenGeoBase
