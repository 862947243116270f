import OpenGeoBase.Fes.SegmentFetcher
import OpenGeoBase.Lib.Transition

/-!
# A fetch as a system

One fetch, between a repository whose reply may change and a front end that gathers
it: the repository answers the pending interests one at a time, in any order, each with
a segment of the reply of the moment; the packets arrive in any order, each handed to
`onData`. Nothing is lost, and every interest can be expressed.

The state of a fetch is described by three lists of segment numbers, `P` for the
segments asked for, `R` for those under way and `D` for those delivered, and by one
reply `T` that all the packets are segments of (`Fetching`). A packet answered or
delivered moves a number from one list to the next. The reply is the one of the
repository as long as it does not change, and it may change as long as it leaves the
packets answered so far as they are.
-/

namespace OpenGeoBase

open Text Transition

/-- A repository and a fetch of its reply: the replies the repository has had so far, the
fetch, the packets it has answered with, and those of them that are under way. -/
structure FetchState (names : NameLibrary) (σ : Type) where
  repo : σ
  texts : List Str
  fetch : Fetch names
  answered : List (Packet names)
  replies : List (Packet names)

/-- What can happen. -/
inductive FetchOp (names : NameLibrary) (σ : Type) where
  | update (repo : σ)
  | answer (interest : names.Name)
  | deliver (data : Packet names)

section System

variable {names : NameLibrary} {σ : Type} (text : σ → Str) (update : σ → σ → Prop)

/-- The steps. A packet that does not have the name of the interest is no answer to it. -/
inductive FetchStep : FetchState names σ → FetchOp names σ → FetchState names σ → Prop where
  | update {s : FetchState names σ} {repo : σ} (h : update s.repo repo) :
    FetchStep s (.update repo) { s with repo := repo, texts := s.texts ++ [text repo] }
  | answer {s : FetchState names σ} {data : Packet names} {cached : List (Packet names)}
      (hpending : data.name ∈ s.fetch.pending)
      (hanswer : sendData names data.name (text s.repo) = some (data, cached)) :
    FetchStep s (.answer data.name)
      { s with
        fetch := { s.fetch with pending := s.fetch.pending.erase data.name }
        answered := s.answered ++ [data]
        replies := s.replies ++ [data] }
  | deliver {s : FetchState names σ} {data : Packet names} {fetch : Fetch names}
      {outcomes : List (Except Str Unit)} (hreply : data ∈ s.replies)
      (hok : ∀ outcome ∈ outcomes, outcome = .ok ())
      (hdata : s.fetch.onData Fetch.dontVerifySegment outcomes data = some fetch) :
    FetchStep s (.deliver data) { s with fetch := fetch, replies := s.replies.erase data }

/-- The fetch has asked for the first segment. -/
def FetchState.start (baseInterest : names.Name) (repo : σ) : FetchState names σ where
  repo := repo
  texts := [text repo]
  fetch := (Fetch.new names).fetchFirstSegment baseInterest (.ok ())
  answered := []
  replies := []

/-- One fetch of the reply of a repository. -/
def segmentFetch (baseInterest : names.Name) : System (FetchState names σ) (FetchOp names σ) where
  init s := ∃ repo, s = .start text baseInterest repo
  step := FetchStep text update

end System

/-! ### The state of a fetch -/

section Fetching

variable {names : NameLibrary} {σ : Type}

/-- The fields of a fetcher that has asked for the segments in `P` and `R` and got those in
`D`, which are segments of `T`. -/
structure FetchCore (name : names.Name) (T : Str) (P R D : List ℕ) (f : Fetch names) : Prop where
  pending : f.pending.Perm (P.map (segmentName names name))
  parts : f.contentParts_ = D.map fun i => (i, segmentData T i)
  perm : (P ++ R ++ D).Perm (List.range (f.lastRequestedSegment + 1))
  inFlight : f.inFlight = P.length + R.length
  window : f.inFlight ≤ windowSize_
  requested : f.lastRequestedSegment < segmentCount T
  final : D ≠ [] → f.finalSegmentNumber = segmentCount T - 1
  last : f.lastSegmentFetched = true ↔ segmentCount T - 1 ∈ D
  callbacks : f.callbacks = if D.length = segmentCount T ∧ T.length < 2 ^ 31 then
    [.onComplete T] else []

/-- A fetch all of whose packets are segments of `T`. -/
structure Fetching (name : names.Name) (T : Str) (P R D : List ℕ) (s : FetchState names σ) :
    Prop extends FetchCore name T P R D s.fetch where
  replies : s.replies.Perm (R.map (segmentPacket names name T))
  answered : s.answered.Perm ((R ++ D).map (segmentPacket names name T))
  bounded : R ++ D ≠ [] → T.length ≤ maxStringSize
  start : D = [] → s.fetch.lastRequestedSegment = 0
  full : D ≠ [] → s.fetch.inFlight = windowSize_ ∨
    s.fetch.lastRequestedSegment = segmentCount T - 1

/-- The name the segments of a reply are named after. -/
def baseName (baseInterest : names.Name) : names.Name :=
  if Fetch.endsWithSegmentNumber baseInterest then baseInterest.dropLast else baseInterest

/-- A fetch begins with its first interest in flight and nothing else. -/
theorem Fetching.of_start (text : σ → Str) (baseInterest : names.Name) {repo : σ}
    (hne : text repo ≠ []) :
    Fetching (baseName baseInterest) (text repo) [0] [] [] (.start text baseInterest repo) where
  pending := by
    unfold FetchState.start Fetch.fetchFirstSegment baseName
    cases Fetch.endsWithSegmentNumber baseInterest <;> exact List.Perm.refl _
  parts := rfl
  perm := List.Perm.refl _
  inFlight := rfl
  window := by
    change (0 : ℤ) + 1 ≤ 8
    norm_num
  requested := segmentCount_pos hne
  final h := absurd rfl h
  last := by simp [FetchState.start, Fetch.fetchFirstSegment, Fetch.expressInterest, Fetch.new]
  -- a reply has a segment, so with none delivered it is not complete
  callbacks := by
    have hpos := segmentCount_pos hne
    rw [if_neg (by simp; omega)]
    rfl
  replies := List.Perm.refl _
  answered := List.Perm.refl _
  bounded h := absurd rfl h
  start _ := rfl
  full h := absurd rfl h

/-! ### The ledger of a fetcher

The fields alone, whatever has been called back, with the segments in `G` that were asked for
and will never come. -/

/-- The fields of a fetcher that has asked for the segments in `P`, `R`, `D` and `G`: those in
`P` and `R` are to come, those in `D` are there, and those in `G` have been given up. -/
structure FetchLedger (name : names.Name) (T : Str) (P R D G : List ℕ) (f : Fetch names) :
    Prop where
  pending : f.pending.Perm (P.map (segmentName names name))
  parts : f.contentParts_ = D.map fun i => (i, segmentData T i)
  perm : (P ++ R ++ D ++ G).Perm (List.range (f.lastRequestedSegment + 1))
  inFlight : f.inFlight = P.length + R.length
  window : f.inFlight ≤ windowSize_
  requested : f.lastRequestedSegment < segmentCount T
  final : D ≠ [] → f.finalSegmentNumber = segmentCount T - 1
  last : f.lastSegmentFetched = true ↔ segmentCount T - 1 ∈ D

/-- As many requests as fit are out. -/
def Full (T : Str) (f : Fetch names) : Prop :=
  f.inFlight = windowSize_ ∨ f.lastRequestedSegment = segmentCount T - 1

namespace FetchLedger

variable {name : names.Name} {T : Str} {P R D G : List ℕ} {f : Fetch names}

/-- Whatever the ledger lists is a segment of the content. -/
theorem lt_segmentCount (h : FetchLedger name T P R D G f) {i : ℕ} (hi : i ∈ P ++ R ++ D ++ G) :
    i < segmentCount T := by
  have hr := List.mem_range.mp (h.perm.mem_iff.mp hi)
  have := h.requested
  omega

/-- No segment is in two places of the ledger, or twice in one. -/
theorem nodup (h : FetchLedger name T P R D G f) : (P ++ R ++ D ++ G).Nodup :=
  h.perm.nodup_iff.mpr List.nodup_range

/-- Every segment that was asked for is in one of the four places. -/
theorem length_eq (h : FetchLedger name T P R D G f) :
    P.length + R.length + D.length + G.length = f.lastRequestedSegment + 1 := by
  have hl := h.perm.length_eq
  rw [List.length_append, List.length_append, List.length_append, List.length_range] at hl
  exact hl

/-- With one more request there is one more segment asked for. -/
theorem requestNext (h : FetchLedger name T P R D G f) (hD : D ≠ []) (hwants : f.wantsNext)
    (i : ℕ) : FetchLedger name T ((f.lastRequestedSegment + 1) :: P) R D G
      (f.requestNext (segmentName names name i) (.ok ())) where
  pending := by
    -- the next segment is asked for under the same name
    have hname : (segmentName names name i).dropLast = name := List.dropLast_concat
    unfold Fetch.requestNext Fetch.expressInterest
    rw [hname, List.map_cons]
    exact (List.perm_append_singleton _ _).trans (h.pending.cons _)
  parts := h.parts
  perm := by
    change ((f.lastRequestedSegment + 1) :: (P ++ R ++ D ++ G)).Perm
      (List.range (f.lastRequestedSegment + 1 + 1))
    rw [List.range_succ]
    exact (h.perm.cons _).trans (List.perm_append_singleton _ _).symm
  inFlight := by
    change f.inFlight + 1 = _
    rw [h.inFlight, List.length_cons]
    push_cast
    ring
  window := by
    change f.inFlight + 1 ≤ windowSize_
    have hroom := hwants.1
    omega
  requested := by
    change f.lastRequestedSegment + 1 < segmentCount T
    have hmore := hwants.2.2
    rw [h.final hD] at hmore
    omega
  final := h.final
  last := h.last

/-- When nothing more is wanted, the window is full or all the segments have been asked for. -/
theorem full_of_not_wantsNext (h : FetchLedger name T P R D G f) (hD : D ≠ [])
    (hend : ¬f.wantsNext) : Full T f := by
  have hwindow := h.window
  have hrequested := h.requested
  unfold Full
  by_cases hlast : segmentCount T - 1 ∈ D
  · -- the last segment has been asked for, and the others before it
    have hmem := h.perm.mem_iff.mp (List.mem_append_left G (List.mem_append_right (P ++ R) hlast))
    rw [List.mem_range] at hmem
    omega
  · have hfetched : f.lastSegmentFetched = false := by
      rw [Bool.eq_false_iff]
      exact mt h.last.mp hlast
    unfold Fetch.wantsNext at hend
    rw [h.final hD] at hend
    -- with room in the window only the number of the last segment stops the requests
    by_cases hroom : f.inFlight < windowSize_
    · have hmore : ¬f.lastRequestedSegment < segmentCount T - 1 :=
        fun hlt => hend ⟨hroom, hfetched, hlt⟩
      omega
    · omega

/-- The end of `onData` fills the window. -/
theorem continueFetch (h : FetchLedger name T P R D G f) (hD : D ≠ []) {i : ℕ}
    {outcomes : List (Except Str Unit)} (hok : ∀ outcome ∈ outcomes, outcome = .ok ())
    {f' : Fetch names}
    (hf' : f.continueFetch (segmentName names name i) outcomes = some f') :
    ∃ P', FetchLedger name T P' R D G f' ∧ Full T f' ∧ f'.callbacks = f.callbacks ∧
      f'.complete = f.complete := by
  unfold Fetch.continueFetch at hf'
  split at hf'
  · obtain ⟨⟨P', h', hsame⟩, hend⟩ := Fetch.fetchNextSegment_induct
      (I := fun f' => ∃ P', FetchLedger name T P' R D G f' ∧ f'.callbacks = f.callbacks ∧
        f'.complete = f.complete) ⟨P, h, rfl, rfl⟩
      (fun f' ⟨P', h', hsame⟩ hwants => ⟨_, h'.requestNext hD hwants i, hsame⟩) hok hf'
    exact ⟨P', h', h'.full_of_not_wantsNext hD hend, hsame⟩
  · next hdone =>
    obtain rfl := Option.some.inj hf'
    have hrequested := h.requested
    rw [h.final hD] at hdone
    exact ⟨P, h, Or.inr (by omega), rfl, rfl⟩

/-- Once as many segments have been delivered as there are, they are all there. -/
theorem perm_range_of_length (h : FetchLedger name T P R D G f)
    (hcount : D.length = segmentCount T) : D.Perm (List.range (segmentCount T)) := by
  have hsub : D ⊆ List.range (segmentCount T) := fun i hi =>
    List.mem_range.mpr (h.lt_segmentCount (List.mem_append_left G (List.mem_append_right _ hi)))
  have hnodup : D.Nodup := (List.nodup_append.mp (List.nodup_append.mp h.nodup).1).2.1
  exact (List.subperm_of_subset hnodup hsub).perm_of_length_le (by rw [List.length_range, hcount])

/-- All the segments delivered make up the reply. -/
theorem concatenate_eq (h : FetchLedger name T P R D G f) (hcount : D.length = segmentCount T) :
    concatenate (D.map fun i => (i, segmentData T i)) =
      if T.length < 2 ^ 31 then some T else none := by
  have hperm := h.perm_range_of_length hcount
  have hblobs : (List.range (D.map fun i => (i, segmentData T i)).length).mapM
      (getPart (D.map fun i => (i, segmentData T i))) =
      some ((List.range (segmentCount T)).map (segmentData T)) := by
    rw [List.length_map, hcount]
    exact mapM_getPart fun i hi => getPart_map (hperm.mem_iff.mpr hi)
  rw [OpenGeoBase.concatenate_eq hblobs, flatten_segmentData]

/-- The packet of a segment, as `onData` reads it. -/
theorem onData_segmentPacket (hnames : names.Segmented) (h : FetchLedger name T P R D G f)
    (hT : T.length ≤ maxStringSize) {i : ℕ} (hi : i ∈ R) {verifySegment : Packet names → Bool}
    (hverify : verifySegment (segmentPacket names name T i) = true)
    (outcomes : List (Except Str Unit)) :
    f.onData verifySegment outcomes (segmentPacket names name T i) =
      Fetch.finishOrContinue i (segmentCount T - 1) (segmentName names name i) outcomes
        { f with
          inFlight := f.inFlight - 1
          contentParts_ := (i :: D).map fun i => (i, segmentData T i) } := by
  have hcount : segmentCount T < 2 ^ 64 := segmentCount_lt_of_le hT
  have hlt : i < segmentCount T := h.lt_segmentCount (by simp [hi])
  -- the segment is asked for once, so it is not among the parts
  have hnew : i ∉ D := fun hD => (List.nodup_append.mp (List.nodup_append.mp h.nodup).1).2.2 i
    (List.mem_append_right P hi) i hD rfl
  have hlast : (segmentPacket names name T i).name.getLast? = some (names.fromSegment i) :=
    List.getLast?_concat
  rw [Fetch.onData_of_segment hverify hlast (hnames.isSegment_fromSegment i (by omega))
    (hnames.toSegment_fromSegment i (by omega)) rfl
    (hnames.toSegment_fromSegment (segmentCount T - 1) (by omega)), h.parts]
  dsimp only [segmentPacket]
  rw [putPart_map hnew]

/-- The fields after a delivery, up to the calls to the user. -/
theorem received (h : FetchLedger name T P R D G f) {i : ℕ} (hi : i ∈ R)
    (callbacks : List Callback) (complete : Bool) :
    FetchLedger name T P (R.erase i) (i :: D) G
      { f with
        inFlight := f.inFlight - 1
        contentParts_ := (i :: D).map fun i => (i, segmentData T i)
        finalSegmentNumber := segmentCount T - 1
        lastSegmentFetched := f.lastSegmentFetched || i == segmentCount T - 1
        callbacks := callbacks
        complete := complete } where
  pending := h.pending
  parts := rfl
  perm := by
    -- the number moves from the segments under way to those delivered
    refine (List.Perm.append_right G ?_).trans h.perm
    rw [List.append_assoc, List.append_assoc]
    refine List.Perm.append_left P (List.perm_middle.trans ?_)
    exact (List.perm_cons_erase hi).symm.append_right D
  inFlight := by
    have hlength := List.length_erase_add_one hi
    change f.inFlight - 1 = _
    rw [h.inFlight, ← hlength]
    push_cast
    ring
  window := by
    change f.inFlight - 1 ≤ windowSize_
    have hwindow := h.window
    omega
  requested := h.requested
  final _ := rfl
  last := by
    change (f.lastSegmentFetched || i == segmentCount T - 1) = true ↔ _
    rw [Bool.or_eq_true, h.last, List.mem_cons, beq_iff_eq, or_comm, eq_comm]

/-- A delivery: the segment moves from those under way to those delivered. With the last one of
all the reply is handed over, else new segments may be asked for. -/
theorem deliver (hnames : names.Segmented) (h : FetchLedger name T P R D G f)
    (hT : T.length ≤ maxStringSize) {i : ℕ} (hi : i ∈ R) {verifySegment : Packet names → Bool}
    (hverify : verifySegment (segmentPacket names name T i) = true)
    {outcomes : List (Except Str Unit)} (hok : ∀ outcome ∈ outcomes, outcome = .ok ())
    {f' : Fetch names}
    (hf' : f.onData verifySegment outcomes (segmentPacket names name T i) = some f') :
    ∃ P', FetchLedger name T P' (R.erase i) (i :: D) G f' ∧ Full T f' ∧
      if D.length + 1 = segmentCount T ∧ T.length < 2 ^ 31 then
        f'.callbacks = f.callbacks ++ [.onComplete T] ∧ f'.complete = true
      else f'.callbacks = f.callbacks ∧ f'.complete = f.complete := by
  have hrequested := h.requested
  have hlength := h.length_eq
  have hR : 0 < R.length := List.length_pos_of_mem hi
  rw [h.onData_segmentPacket hnames hT hi hverify] at hf'
  unfold Fetch.finishOrContinue at hf'
  dsimp only at hf'
  split at hf'
  · next hall =>
    -- the last segment to arrive: the reply is complete
    have hcount : (i :: D).length = segmentCount T := by
      have hparts := hall.2
      unfold Fetch.haveAllSegments at hparts
      rw [beq_iff_eq, List.length_map] at hparts
      omega
    rw [List.length_cons] at hcount
    have hdone : f.lastRequestedSegment = segmentCount T - 1 := by omega
    rw [(h.received hi f.callbacks f.complete).concatenate_eq hcount] at hf'
    by_cases hlt : T.length < 2 ^ 31
    · rw [if_pos hlt] at hf'
      obtain rfl := Option.some.inj hf'
      refine ⟨P, h.received hi _ true, Or.inr hdone, ?_⟩
      rw [if_pos ⟨hcount, hlt⟩]
      exact ⟨rfl, rfl⟩
    · rw [if_neg hlt] at hf'
      obtain rfl := Option.some.inj hf'
      refine ⟨P, h.received hi f.callbacks f.complete, Or.inr hdone, ?_⟩
      rw [if_neg fun h => hlt h.2]
      exact ⟨rfl, rfl⟩
  · next hmore =>
    have hreceived := h.received hi f.callbacks f.complete
    have hcount : D.length + 1 ≠ segmentCount T := by
      intro hcount
      refine hmore ⟨hreceived.last.mpr ?_, ?_⟩
      · rw [(hreceived.perm_range_of_length hcount).mem_iff, List.mem_range]
        omega
      · unfold Fetch.haveAllSegments
        rw [beq_iff_eq, List.length_map, List.length_cons, hcount]
        omega
    rw [if_neg fun h => hcount h.1]
    exact hreceived.continueFetch (List.cons_ne_nil _ _) hok hf'

/-- A delivery is over once there have been requests enough to fill the window. -/
theorem onData_isSome (hnames : names.Segmented) (h : FetchLedger name T P R D G f)
    (hT : T.length ≤ maxStringSize) {i : ℕ} (hi : i ∈ R) {verifySegment : Packet names → Bool}
    (hverify : verifySegment (segmentPacket names name T i) = true) :
    (f.onData verifySegment (List.replicate 8 (.ok ())) (segmentPacket names name T i)).isSome := by
  rw [h.onData_segmentPacket hnames hT hi hverify]
  refine Fetch.finishOrContinue_isSome ?_
  -- the packet was in flight, so there is room for eight requests at most
  have hflight := h.inFlight
  have hpos : 0 < R.length := List.length_pos_of_mem hi
  change windowSize_ - (f.inFlight - 1) ≤ (8 : ℕ)
  unfold windowSize_
  omega

end FetchLedger

namespace FetchCore

variable {name : names.Name} {T : Str} {P R D : List ℕ} {f : Fetch names}

/-- A fetch that has given nothing up is a ledger without refusals. -/
theorem ledger (h : FetchCore name T P R D f) : FetchLedger name T P R D [] f where
  pending := h.pending
  parts := h.parts
  perm := by
    rw [List.append_nil]
    exact h.perm
  inFlight := h.inFlight
  window := h.window
  requested := h.requested
  final := h.final
  last := h.last

theorem lt_segmentCount (h : FetchCore name T P R D f) {i : ℕ} (hi : i ∈ P ++ R ++ D) :
    i < segmentCount T :=
  h.ledger.lt_segmentCount (List.mem_append_left [] hi)

theorem length_eq (h : FetchCore name T P R D f) :
    P.length + R.length + D.length = f.lastRequestedSegment + 1 :=
  h.ledger.length_eq

/-- As many segments as the content has are all of them. -/
theorem perm_range_of_length (h : FetchCore name T P R D f) (hcount : D.length = segmentCount T) :
    D.Perm (List.range (segmentCount T)) :=
  h.ledger.perm_range_of_length hcount

/-- A delivery: the segment moves from those under way to those delivered, and new segments
may be asked for. -/
theorem deliver (hnames : names.Segmented) (h : FetchCore name T P R D f)
    (hT : T.length ≤ maxStringSize) {i : ℕ} (hi : i ∈ R) {outcomes : List (Except Str Unit)}
    (hok : ∀ outcome ∈ outcomes, outcome = .ok ()) {f' : Fetch names}
    (hf' : f.onData Fetch.dontVerifySegment outcomes (segmentPacket names name T i) = some f') :
    ∃ P', FetchCore name T P' (R.erase i) (i :: D) f' ∧ Full T f' := by
  obtain ⟨P', hledger, hfull, hcalls⟩ := h.ledger.deliver hnames hT hi rfl hok hf'
  have hrequested := h.requested
  have hlength := h.length_eq
  have hR : 0 < R.length := List.length_pos_of_mem hi
  -- a segment is missing, so the user has not been called
  have hnone : f.callbacks = [] := by
    rw [h.callbacks, if_neg]
    omega
  have hperm := hledger.perm
  rw [List.append_nil] at hperm
  refine ⟨P', ⟨hledger.pending, hledger.parts, hperm, hledger.inFlight, hledger.window,
    hledger.requested, hledger.final, hledger.last, ?_⟩, hfull⟩
  rw [List.length_cons]
  -- the packet is the last one that was missing, or it is not
  split at hcalls
  · next hall => rw [hcalls.1, hnone, if_pos hall, List.nil_append]
  · next hmore => rw [hcalls.1, hnone, if_neg hmore]

end FetchCore

namespace Fetching

variable {name : names.Name} {T : Str} {P R D : List ℕ} {s : FetchState names σ}

/-- What was answered is a packet of one of the segments that arrived or are due. -/
theorem eq_segmentPacket_of_mem (h : Fetching name T P R D s) {data : Packet names}
    (hdata : data ∈ s.answered) : ∃ i ∈ R ++ D, data = segmentPacket names name T i := by
  obtain ⟨i, hi, rfl⟩ := List.mem_map.mp (h.answered.mem_iff.mp hdata)
  exact ⟨i, hi, rfl⟩

/-- An answer shows that the number of segments fits the 64 bits of `FinalBlockId`. -/
theorem count_lt (h : Fetching name T P R D s) (hne : R ++ D ≠ []) : segmentCount T < 2 ^ 64 :=
  segmentCount_lt_of_le (h.bounded hne)

/-- An answer: the segment moves from those asked for to those under way. -/
theorem answer (hnames : names.Segmented) (h : Fetching name T P R D s) {data : Packet names}
    {cached : List (Packet names)} (hpending : data.name ∈ s.fetch.pending)
    (hanswer : sendData names data.name T = some (data, cached)) :
    ∃ i ∈ P, Fetching name T (P.erase i) (i :: R) D
      { s with
        fetch := { s.fetch with pending := s.fetch.pending.erase data.name }
        answered := s.answered ++ [data]
        replies := s.replies ++ [data] } := by
  have hne : T ≠ [] := by
    rintro rfl
    exact absurd h.requested (by simp [segmentCount])
  obtain ⟨hbound, name', j, hj, rfl⟩ := sendData_eq_segmentPacket hne hanswer
  have hcount : segmentCount T < 2 ^ 64 :=
    segmentCount_lt_of_le hbound
  -- the segment is the one asked for
  obtain ⟨i, hi, hname⟩ := List.mem_map.mp (h.pending.mem_iff.mp hpending)
  have hlt : i < segmentCount T := h.lt_segmentCount (by simp [hi])
  obtain ⟨rfl, hlast⟩ := List.append_inj' hname rfl
  obtain rfl : i = j :=
    hnames.fromSegment_injOn (by omega) (by omega) (List.cons.inj hlast).1
  have herase : P.Perm (i :: P.erase i) := List.perm_cons_erase hi
  refine ⟨i, hi, ?_⟩
  exact {
    pending := by
      have hp := (h.pending.trans (herase.map (segmentName names name))).erase
        (segmentName names name i)
      rwa [List.map_cons, List.erase_cons_head] at hp
    parts := h.parts
    perm := by
      refine List.Perm.trans ?_ h.perm
      refine List.Perm.append_right D (List.perm_middle.trans ?_)
      exact herase.symm.append_right R
    inFlight := by
      have hlength := List.length_erase_add_one hi
      change s.fetch.inFlight = _
      rw [h.inFlight, ← hlength, List.length_cons]
      push_cast
      ring
    window := h.window
    requested := h.requested
    final := h.final
    last := h.last
    callbacks := h.callbacks
    replies := (List.perm_append_singleton _ _).trans (h.replies.cons _)
    answered := (List.perm_append_singleton _ _).trans (h.answered.cons _)
    bounded := fun _ => hbound
    start := h.start
    full := h.full }

/-- A delivery. -/
theorem deliver (hnames : names.Segmented) (h : Fetching name T P R D s) {data : Packet names}
    (hreply : data ∈ s.replies) {outcomes : List (Except Str Unit)}
    (hok : ∀ outcome ∈ outcomes, outcome = .ok ()) {fetch : Fetch names}
    (hdata : s.fetch.onData Fetch.dontVerifySegment outcomes data = some fetch) :
    ∃ P', ∃ i ∈ R, Fetching name T P' (R.erase i) (i :: D)
      { s with fetch := fetch, replies := s.replies.erase data } := by
  -- the reply is a segment that has been asked for
  obtain ⟨i, hi, rfl⟩ := List.mem_map.mp (h.replies.mem_iff.mp hreply)
  have hbound : T.length ≤ maxStringSize :=
    h.bounded (List.append_ne_nil_of_left_ne_nil (List.ne_nil_of_mem hi) D)
  obtain ⟨P', hcore, hfull⟩ := h.toFetchCore.deliver hnames hbound hi hok hdata
  have herase : R.Perm (i :: R.erase i) := List.perm_cons_erase hi
  refine ⟨P', i, hi, ?_⟩
  -- it moves from the replies to the parts
  exact {
    toFetchCore := hcore
    replies := by
      have hp := (h.replies.trans (herase.map (segmentPacket names name T))).erase
        (segmentPacket names name T i)
      rwa [List.map_cons, List.erase_cons_head] at hp
    answered := by
      refine h.answered.trans (List.Perm.map _ ?_)
      exact (herase.append_right D).trans List.perm_middle.symm
    bounded := fun _ => hbound
    start := fun hD => absurd hD (List.cons_ne_nil _ _)
    full := fun _ => hfull }

/-- A reply that gives the packets answered so far has as many segments, and the segments
answered so far are the same. -/
theorem sameSegments (hnames : names.Segmented) (h : Fetching name T P R D s) {T' : Str}
    (hne : T' ≠ [])
    (hkeep : ∀ data ∈ s.answered, ∃ cached, sendData names data.name T' = some (data, cached))
    {i : ℕ} (hi : i ∈ R ++ D) :
    T'.length ≤ maxStringSize ∧ segmentCount T' = segmentCount T ∧
      segmentData T' i = segmentData T i := by
  -- the segment is one that has been answered, and the new content answers it in the same way
  have hmem : segmentPacket names name T i ∈ s.answered :=
    h.answered.mem_iff.mpr (List.mem_map_of_mem hi)
  obtain ⟨cached, hsend⟩ := hkeep _ hmem
  obtain ⟨hbound, name', j, hj, hpacket⟩ := sendData_eq_segmentPacket hne hsend
  have hlt : i < segmentCount T := by
    refine h.lt_segmentCount ?_
    rw [List.append_assoc]
    exact List.mem_append_right P hi
  have hcount := h.count_lt (List.ne_nil_of_mem hi)
  have hcount' : segmentCount T' < 2 ^ 64 :=
    segmentCount_lt_of_le hbound
  -- its final block id gives the number of segments, its content the part it holds
  obtain ⟨hname, hcontent, hfinal⟩ := Packet.mk.inj hpacket
  obtain ⟨rfl, hlast⟩ := List.append_inj' hname rfl
  obtain rfl : i = j := hnames.fromSegment_injOn (by omega) (by omega) (List.cons.inj hlast).1
  have hlastSegment := hnames.fromSegment_injOn (by omega) (by omega) (Option.some.inj hfinal)
  exact ⟨hbound, by omega, hcontent.symm⟩

/-- Before anything has been answered every reply is possible. -/
theorem change_of_start (h : Fetching name T P [] [] s) {T' : Str} (hne : T' ≠ []) :
    Fetching name T' P [] [] s := by
  have hpos := segmentCount_pos hne
  have hrequested := h.requested
  have hzero : s.fetch.lastRequestedSegment = 0 := h.start rfl
  -- nothing has been answered, so no field speaks of the text yet
  exact {
    pending := h.pending
    parts := h.parts
    perm := h.perm
    inFlight := h.inFlight
    window := h.window
    requested := by omega
    final := fun hD => absurd rfl hD
    last := by simpa using h.last
    callbacks := by
      rw [h.callbacks, if_neg fun hc => ?_, if_neg fun hc => ?_]
      · exact absurd hc.1 (by simp; omega)
      · exact absurd hc.1 (by simp; omega)
    replies := h.replies
    answered := h.answered
    bounded := fun hR => absurd rfl hR
    start := h.start
    full := fun hD => absurd rfl hD }

/-- Afterwards a reply is possible if it has as many segments, and the same ones where they have
been answered. -/
theorem change_of_sameSegments (h : Fetching name T P R D s) {T' : Str}
    (hbound : T'.length ≤ maxStringSize) (hcount : segmentCount T' = segmentCount T)
    (hsame : ∀ i ∈ R ++ D, segmentData T' i = segmentData T i) : Fetching name T' P R D s := by
  have hrequested := h.requested
  -- the packets given out so far are packets of either text
  have hpacket : ∀ i ∈ R ++ D, segmentPacket names name T' i = segmentPacket names name T i := by
    intro i hi
    unfold segmentPacket
    rw [hcount, hsame i hi]
  exact {
    pending := h.pending
    parts := by
      rw [h.parts]
      exact List.map_congr_left fun i hi => by rw [hsame i (List.mem_append_right R hi)]
    perm := h.perm
    inFlight := h.inFlight
    window := h.window
    requested := by omega
    final := fun hD => by rw [h.final hD, hcount]
    last := by rw [h.last, hcount]
    callbacks := by
      rw [h.callbacks, hcount]
      by_cases hall : D.length = segmentCount T
      · -- the whole reply has been delivered, so it is the same one
        have hperm := h.perm_range_of_length hall
        have htext : T' = T := by
          calc
            T' = ((List.range (segmentCount T)).map (segmentData T')).flatten := by
              rw [← hcount, flatten_segmentData]
            _ = ((List.range (segmentCount T)).map (segmentData T)).flatten := by
              refine congrArg List.flatten (List.map_congr_left fun j hj => ?_)
              exact hsame j (List.mem_append_right R (hperm.mem_iff.mpr hj))
            _ = T := flatten_segmentData
        rw [htext]
      · rw [if_neg fun hc => hall hc.1, if_neg fun hc => hall hc.1]
    replies := by
      refine h.replies.trans (List.Perm.of_eq (List.map_congr_left fun i hi => ?_))
      exact (hpacket i (List.mem_append_left D hi)).symm
    answered := by
      refine h.answered.trans (List.Perm.of_eq (List.map_congr_left fun i hi => ?_))
      exact (hpacket i hi).symm
    bounded := fun _ => hbound
    start := h.start
    full := fun hD => by rw [hcount]; exact h.full hD }

/-- A repository that would have answered the same may as well have had the other reply all
along. -/
theorem change (hnames : names.Segmented) (h : Fetching name T P R D s) {T' : Str}
    (hne : T' ≠ [])
    (hkeep : ∀ data ∈ s.answered, ∃ cached, sendData names data.name T' = some (data, cached)) :
    Fetching name T' P R D s := by
  have hsame := fun i (hi : i ∈ R ++ D) => h.sameSegments hnames hne hkeep hi
  by_cases hstart : R ++ D = []
  · obtain ⟨rfl, rfl⟩ := List.append_eq_nil_iff.mp hstart
    exact h.change_of_start hne
  · obtain ⟨i, hi⟩ := List.exists_mem_of_ne_nil _ hstart
    obtain ⟨hbound, hcount, -⟩ := hsame i hi
    exact h.change_of_sameSegments hbound hcount fun i hi => (hsame i hi).2.2

/-- As long as not every segment has been delivered, the fetch can go on. -/
theorem exists_step (hnames : names.Segmented) (h : Fetching name T P R D s) {text : σ → Str}
    {update : σ → σ → Prop} (hT : T = text s.repo) (hbound : T.length ≤ maxStringSize)
    (hmore : D.length ≠ segmentCount T) : ∃ op s', FetchStep text update s op s' := by
  have hlength := h.length_eq
  have hrequested := h.requested
  cases R with
  | cons i R =>
    -- a packet under way can be delivered
    have hi : i ∈ i :: R := List.mem_cons_self
    have hreply : segmentPacket names name T i ∈ s.replies :=
      h.replies.mem_iff.mpr (List.mem_map_of_mem hi)
    have hverify : Fetch.dontVerifySegment (segmentPacket names name T i) = true := rfl
    obtain ⟨fetch, hfetch⟩ := Option.isSome_iff_exists.mp
      (h.ledger.onData_isSome hnames hbound hi hverify)
    have hok : ∀ outcome ∈ List.replicate 8 (Except.ok () : Except Str Unit), outcome = .ok () :=
      fun outcome ho => List.eq_of_mem_replicate ho
    exact ⟨_, _, FetchStep.deliver hreply hok hfetch⟩
  | nil =>
    cases P with
    | cons i P =>
      -- a segment asked for can be answered
      have hpending : (segmentPacket names name T i).name ∈ s.fetch.pending :=
        h.pending.mem_iff.mpr (List.mem_map_of_mem List.mem_cons_self)
      have hlt : i < segmentCount T := h.lt_segmentCount (by simp)
      have hne : T ≠ [] := by
        rintro rfl
        exact absurd hlt (by simp [segmentCount])
      have hanswer := sendData_segment hnames hne hbound name hlt
      subst hT
      exact ⟨_, _, FetchStep.answer hpending hanswer⟩
    | nil =>
      -- nothing is in flight: everything has been delivered
      exfalso
      have hflight := h.inFlight
      rcases List.eq_nil_or_concat' D with rfl | ⟨D', j, rfl⟩
      · simp at hlength
      · rcases h.full (by simp) with hfull | hdone
        · rw [hflight] at hfull
          exact absurd hfull (by decide)
        · simp only [List.length_nil] at hlength
          omega

end Fetching

end Fetching

end OpenGeoBase
