import OpenGeoBase.Fes.FetchRun

/-!
# The events of a fetch

Each interest of a fetch ends in a packet, in a timeout or in a network nack, and the
fetcher is told so. A timeout uses up one of the retransmissions that all the interests of
the fetch have together, and expresses the interest again; when there is none left the
interest is given up, as it is after a nack or a packet that is of no use. Each interest
given up is reported to `onError`, whether or not anything has been reported before, and
the fetch goes on with the interests that remain.

The ledger of the fetch (`FetchLedger`) has the segments given up in `G`, and what has been
called back is counted by it: one call for each of them, and one when all segments are
there (`Fetcher.Accounts`). So the user is called exactly once if and only if no two
interests are given up.
-/

namespace OpenGeoBase

open Text Transition

/-- The retransmissions of one fetch. -/
def nMaxTotRtx : ℕ := 3

/-- A fetcher: a fetch with the number of timeouts so far. -/
structure Fetcher (names : NameLibrary) where
  fetch : Fetch names
  nRtx : ℕ

/-- What an interest can end in, with the outcomes of the calls of `expressInterest` that
follow. -/
inductive FetchEvent (names : NameLibrary) where
  | data (interest : names.Name) (data : Packet names) (outcomes : List (Except Str Unit))
  | timeout (interest : names.Name) (outcome : Except Str Unit)
  | nack (interest : names.Name)

namespace Fetcher

variable {names : NameLibrary}

/-- `fetch`. -/
def start (baseInterest : names.Name) (outcome : Except Str Unit) : Fetcher names :=
  ⟨(Fetch.new names).fetchFirstSegment baseInterest outcome, 0⟩

/-- An interest is not pending any more. -/
def settle (interest : names.Name) (s : Fetch names) : Fetch names :=
  { s with pending := s.pending.erase interest }

/-- An error that is reported unless the fetch is complete. -/
def giveUp (message : Str) (s : Fetch names) : Fetch names :=
  let s := { s with inFlight := s.inFlight - 1 }
  if !s.complete then s.onError .INTEREST_TIMEOUT message else s

/-- `onTimeout`, for an interest that is no longer pending. -/
def onTimeout (interest : names.Name) (outcome : Except Str Unit) (s : Fetcher names) :
    Fetcher names :=
  let nRtx := s.nRtx + 1
  if nRtx > nMaxTotRtx then
    ⟨giveUp ("Time out for interest ".toList ++ names.toUri interest) s.fetch, nRtx⟩
  else match outcome with
    | .ok () => ⟨s.fetch.expressInterest interest, nRtx⟩
    | .error _ => ⟨s.fetch, nRtx⟩

/-- `onNetworkNack`, for an interest that is no longer pending. -/
def onNetworkNack (interest : names.Name) (s : Fetcher names) : Fetcher names :=
  ⟨giveUp ("Network Nack for interest ".toList ++ names.toUri interest) s.fetch, s.nRtx⟩

end Fetcher

section System

variable {names : NameLibrary} (verifySegment : Packet names → Bool)

/-- The steps. A packet answers the interests whose name its own name starts with. -/
inductive EventStep : Fetcher names → FetchEvent names → Fetcher names → Prop where
  | data {s : Fetcher names} {interest : names.Name} {data : Packet names}
      {outcomes : List (Except Str Unit)} {fetch : Fetch names}
      (hpending : interest ∈ s.fetch.pending) (hmatch : interest <+: data.name)
      (hdata : (Fetcher.settle interest s.fetch).onData verifySegment outcomes data = some fetch) :
    EventStep s (.data interest data outcomes) ⟨fetch, s.nRtx⟩
  | timeout {s : Fetcher names} {interest : names.Name} {outcome : Except Str Unit}
      (hpending : interest ∈ s.fetch.pending) :
    EventStep s (.timeout interest outcome)
      (Fetcher.onTimeout interest outcome ⟨Fetcher.settle interest s.fetch, s.nRtx⟩)
  | nack {s : Fetcher names} {interest : names.Name} (hpending : interest ∈ s.fetch.pending) :
    EventStep s (.nack interest)
      (Fetcher.onNetworkNack interest ⟨Fetcher.settle interest s.fetch, s.nRtx⟩)

/-- One fetch and the events of its interests. -/
def fetchEvents (baseInterest : names.Name) : System (Fetcher names) (FetchEvent names) where
  init s := ∃ outcome, s = .start baseInterest outcome
  step := EventStep verifySegment

/-- Its user is called once at most, and once exactly when nothing is outstanding any more. -/
def ExactlyOneCallback (s : Fetcher names) : Prop :=
  s.fetch.callbacks.length ≤ 1 ∧ (s.fetch.pending = [] → s.fetch.callbacks.length = 1)

/-- A packet that is dropped: it is not verified, or it has no segment number. -/
def unusable (data : Packet names) : Bool :=
  !verifySegment data || match data.name.getLast? with
    | none => true
    | some lastComponent =>
      !names.isSegment lastComponent || match names.toSegment lastComponent with
        | .ok _ => false
        | .error _ => true

/-- An interest is given up: after a packet that is dropped, after a nack, or after a timeout
when there is no retransmission left. -/
def givesUp (s : Fetcher names) : FetchEvent names → Bool
  | .data _ data _ => unusable verifySegment data
  | .timeout _ _ => nMaxTotRtx ≤ s.nRtx
  | .nack _ => true

/-- The packets are dropped or are the segments of `T` that were asked for, each with the number
of the last one as its FinalBlockId, and `expressInterest` succeeds whenever it is called. -/
def Orderly (name : names.Name) (T : Str) (s : Fetcher names) : FetchEvent names → Prop
  | .data interest data outcomes => unusable verifySegment data = true ∨
      (∃ i < segmentCount T, interest = segmentName names name i ∧
        data = segmentPacket names name T i) ∧ ∀ outcome ∈ outcomes, outcome = .ok ()
  | .timeout _ outcome => nMaxTotRtx ≤ s.nRtx ∨ outcome = .ok ()
  | .nack _ => True

end System

/-- As long as the fetch is not complete, what is given up is reported. -/
theorem Fetcher.giveUp_of_open {names : NameLibrary} {f : Fetch names} (h : f.complete = false)
    (message : Str) : giveUp message f =
      Fetch.onError .INTEREST_TIMEOUT message { f with inFlight := f.inFlight - 1 } := by
  unfold giveUp
  dsimp only
  rw [h]
  rfl

/-- What a call hands over. -/
def Callback.content : Callback → Option Str
  | .onComplete content => some content
  | .onError _ _ => none

/-! ### What has been called back stays -/

section Prefix

variable {names : NameLibrary} {s s' : Fetch names} {dataName : names.Name}
  {outcomes : List (Except Str Unit)}

/-- An error is called back behind what has been called back before. -/
theorem callbacks_onError (errorCode : ErrorCode) (message : Str) :
    s.callbacks <+: (s.onError errorCode message).callbacks :=
  List.prefix_append _ _

/-- The callbacks of the loop over the next segments. -/
theorem callbacks_fetchNextSegment (h : Fetch.fetchNextSegment dataName outcomes s = some s') :
    s.callbacks <+: s'.callbacks := by
  induction outcomes generalizing s with
  | nil =>
    unfold Fetch.fetchNextSegment at h
    split at h
    · exact absurd h (by simp)
    · exact Option.some.inj h ▸ List.prefix_refl _
  | cons outcome outcomes ih =>
    unfold Fetch.fetchNextSegment at h
    split at h
    · refine List.IsPrefix.trans ?_ (ih h)
      -- An interest that cannot be sent is called back as an error.
      cases outcome with
      | ok => exact List.prefix_refl _
      | error ex => exact callbacks_onError _ _
    · exact Option.some.inj h ▸ List.prefix_refl _

/-- The callbacks the end of `onData` makes. -/
theorem callbacks_continueFetch (h : s.continueFetch dataName outcomes = some s') :
    s.callbacks <+: s'.callbacks := by
  unfold Fetch.continueFetch at h
  split at h
  · exact callbacks_fetchNextSegment h
  · exact Option.some.inj h ▸ List.prefix_refl _

/-- The callbacks of the part for a packet with a FinalBlockId. -/
theorem callbacks_finishOrContinue {i n : ℕ}
    (h : s.finishOrContinue i n dataName outcomes = some s') : s.callbacks <+: s'.callbacks := by
  unfold Fetch.finishOrContinue at h
  dsimp only at h
  split at h
  · split at h
    · exact Option.some.inj h ▸ List.prefix_append _ _
    · exact Option.some.inj h ▸ List.prefix_refl _
  · have hrest := callbacks_continueFetch h
    exact hrest

/-- The callbacks of the whole of `onData`. -/
theorem callbacks_onData {verifySegment : Packet names → Bool} {data : Packet names}
    (h : s.onData verifySegment outcomes data = some s') : s.callbacks <+: s'.callbacks := by
  unfold Fetch.onData at h
  dsimp only at h
  -- The tests of the source in their order; each that fails calls an error back.
  split at h
  · exact Option.some.inj h ▸ callbacks_onError _ _
  · split at h
    · exact Option.some.inj h ▸ callbacks_onError _ _
    · split at h
      · exact Option.some.inj h ▸ callbacks_onError _ _
      · split at h
        · exact Option.some.inj h ▸ callbacks_onError _ _
        · split at h
          · have hrest := callbacks_continueFetch h
            exact hrest
          · split at h
            · exact Option.some.inj h ▸ callbacks_onError _ _
            · have hrest := callbacks_finishOrContinue h
              exact hrest

/-- The callbacks for an interest that is given up. -/
theorem callbacks_giveUp (message : Str) :
    s.callbacks <+: (Fetcher.giveUp message s).callbacks := by
  unfold Fetcher.giveUp
  dsimp only
  split
  · exact callbacks_onError _ _
  · exact List.prefix_refl _

/-- An event takes no call back. -/
theorem EventStep.callbacks_prefix {verifySegment : Packet names → Bool} {f f' : Fetcher names}
    {event : FetchEvent names} (h : EventStep verifySegment f event f') :
    f.fetch.callbacks <+: f'.fetch.callbacks := by
  cases h with
  | data _ _ hdata =>
    have hrest := callbacks_onData hdata
    exact hrest
  -- an interest that has been sent too often is given up, any other is sent again
  | @timeout interest outcome =>
    unfold Fetcher.onTimeout
    dsimp only
    split
    · exact callbacks_giveUp (s := Fetcher.settle interest f.fetch) _
    · cases outcome <;> exact List.prefix_refl _
  | @nack interest => exact callbacks_giveUp (s := Fetcher.settle interest f.fetch) _

end Prefix

/-! ### The accounts of a fetch -/

section Accounts

variable {names : NameLibrary} {verifySegment : Packet names → Bool} {name : names.Name} {T : Str}
  {P D G : List ℕ} {f : Fetch names} {s s' : Fetcher names}

/-- The ledger, with what has been called back: once for each interest given up, and once when
all segments are there. -/
structure Fetcher.Accounts (name : names.Name) (T : Str) (P D G : List ℕ) (f : Fetch names) :
    Prop extends FetchLedger name T P [] D G f where
  full : G = [] → D ≠ [] → Full T f
  complete : f.complete = true ↔ D.length = segmentCount T
  calls : f.callbacks.length = G.length + if D.length = segmentCount T then 1 else 0
  contents : f.callbacks.filterMap Callback.content =
    if D.length = segmentCount T then [T] else []

namespace Fetcher.Accounts

/-- The fetch has asked for the first segment. -/
theorem start (hne : T ≠ []) (baseInterest : names.Name) :
    Accounts (baseName baseInterest) T [0] [] [] (Fetcher.start baseInterest (.ok ())).fetch where
  toFetchLedger := by
    have hfetching : Fetching (baseName baseInterest) T [0] [] []
        (.start (fun _ : Unit => T) baseInterest ()) :=
      Fetching.of_start (fun _ : Unit => T) baseInterest hne
    exact hfetching.ledger
  full _ h := absurd rfl h
  complete := by
    -- There is a segment to come, so nothing is complete yet.
    have hpos := segmentCount_pos hne
    refine ⟨fun h => absurd h Bool.false_ne_true, fun h => ?_⟩
    rw [List.length_nil] at h
    omega
  calls := by
    have hpos := segmentCount_pos hne
    rw [if_neg (by rw [List.length_nil]; omega)]
    rfl
  contents := by
    have hpos := segmentCount_pos hne
    rw [if_neg (by rw [List.length_nil]; omega)]
    rfl

/-- If all segments are there, no interest is outstanding and none has been given up. -/
theorem eq_nil_of_length (h : Accounts name T P D G f) (hcount : D.length = segmentCount T) :
    P = [] ∧ G = [] := by
  have hlength := h.length_eq
  have hrequested := h.requested
  exact ⟨List.eq_nil_of_length_eq_zero (by omega), List.eq_nil_of_length_eq_zero (by omega)⟩

/-- A fetch that has nothing outstanding and has given nothing up is complete. -/
theorem length_eq_of_nil (h : Accounts name T [] D [] f) : D.length = segmentCount T := by
  have hlength := h.length_eq
  have hrequested := h.requested
  simp only [List.length_nil, Nat.zero_add, Nat.add_zero] at hlength
  have hD : D ≠ [] := List.ne_nil_of_length_pos (by omega)
  rcases h.full rfl hD with hfull | hlast
  · -- nothing is in flight, but the window is open
    have hflight := h.inFlight
    rw [hfull] at hflight
    exact absurd hflight (by decide)
  · omega

/-- With one interest given up at most, the user is called as it should be. -/
theorem exactlyOneCallback (h : Accounts name T P D G f) (hG : G.length ≤ 1) (nRtx : ℕ) :
    ExactlyOneCallback ⟨f, nRtx⟩ := by
  have hcalls := h.calls
  refine ⟨?_, fun hpending => ?_⟩
  -- at most once: for the content, when nothing can have been given up, or for what has
  · by_cases hcount : D.length = segmentCount T
    · rw [if_pos hcount, (h.eq_nil_of_length hcount).2] at hcalls
      exact hcalls.le
    · rw [if_neg hcount] at hcalls
      exact hcalls.trans_le hG
  -- and at least once: with nothing outstanding, something is given up or all is there
  · have hP : P = [] := by
      have hperm := h.pending
      rw [show f.pending = [] from hpending] at hperm
      exact List.map_eq_nil_iff.mp hperm.symm.eq_nil
    subst hP
    by_cases hnone : G = []
    · subst hnone
      rw [if_pos h.length_eq_of_nil] at hcalls
      exact hcalls
    · have hpos := List.length_pos_iff.mpr hnone
      have hmore : D.length ≠ segmentCount T := fun hcount =>
        hnone (h.eq_nil_of_length hcount).2
      rw [if_neg hmore] at hcalls
      change f.callbacks.length = 1
      omega

/-- The interest that has ended is one of a segment. -/
theorem exists_of_pending (h : Accounts name T P D G f) {interest : names.Name}
    (hpending : interest ∈ f.pending) : ∃ i ∈ P, interest = segmentName names name i := by
  obtain ⟨i, hi, rfl⟩ := List.mem_map.mp (h.pending.mem_iff.mp hpending)
  exact ⟨i, hi, rfl⟩

/-- An interest that ends is taken from the pending ones. -/
theorem pending_settle (h : Accounts name T P D G f) {i : ℕ} (hi : i ∈ P) :
    (settle (segmentName names name i) f).pending.Perm
      ((P.erase i).map (segmentName names name)) := by
  have hp := (h.pending.trans ((List.perm_cons_erase hi).map (segmentName names name))).erase
    (segmentName names name i)
  rwa [List.map_cons, List.erase_cons_head] at hp

/-- An answered interest, before the packet is looked at. -/
theorem settle (h : Accounts name T P D G f) {i : ℕ} (hi : i ∈ P) :
    FetchLedger name T (P.erase i) [i] D G (settle (segmentName names name i) f) where
  pending := h.pending_settle hi
  parts := h.parts
  perm := by
    -- The segment moves from those in flight to those being handled.
    refine List.Perm.trans ?_ h.perm
    refine List.Perm.append_right G (List.Perm.append_right D ?_)
    rw [List.append_nil]
    exact (List.perm_append_singleton i _).trans (List.perm_cons_erase hi).symm
  inFlight := by
    have hlength := List.length_erase_add_one hi
    change f.inFlight = _
    rw [h.inFlight, ← hlength, List.length_nil, List.length_singleton]
    push_cast
    ring
  window := h.window
  requested := h.requested
  final := h.final
  last := h.last

/-- An interest is given up: its segment will never come. -/
theorem drop (h : Accounts name T P D G f) {i : ℕ} (hi : i ∈ P) {f' : Fetch names}
    {errorCode : ErrorCode} {message : Str}
    (hf' : f' = Fetch.onError errorCode message
      { Fetcher.settle (segmentName names name i) f with inFlight := f.inFlight - 1 }) :
    Accounts name T (P.erase i) D (i :: G) f' := by
  subst hf'
  have hlength := List.length_erase_add_one hi
  -- an interest is outstanding, so not all segments are there
  have hmore : D.length ≠ segmentCount T := fun hcount => by
    rw [(h.eq_nil_of_length hcount).1] at hi
    exact absurd hi List.not_mem_nil
  exact {
    pending := h.pending_settle hi
    parts := h.parts
    perm := by
      refine List.Perm.trans ?_ h.perm
      rw [List.append_nil, List.append_nil]
      refine List.perm_middle.trans ?_
      rw [← List.cons_append, ← List.cons_append]
      exact ((List.perm_cons_erase hi).symm.append_right D).append_right G
    inFlight := by
      change f.inFlight - 1 = _
      rw [h.inFlight, ← hlength, List.length_nil]
      push_cast
      ring
    window := by
      change f.inFlight - 1 ≤ windowSize_
      have hwindow := h.window
      omega
    requested := h.requested
    final := h.final
    last := h.last
    full := fun hG => absurd hG (List.cons_ne_nil _ _)
    complete := h.complete
    -- one more call, which has no content
    calls := by
      have hcalls := h.calls
      change (f.callbacks ++ [_]).length = _
      rw [if_neg hmore] at hcalls ⊢
      rw [List.length_append, hcalls, List.length_singleton, List.length_cons]
    contents := by
      change (f.callbacks ++ [_]).filterMap Callback.content = _
      rw [List.filterMap_append, h.contents]
      exact List.append_nil _ }

/-- An interest that has timed out is expressed again. -/
theorem express (h : Accounts name T P D G f) {i : ℕ} (hi : i ∈ P) :
    Accounts name T P D G
      ((Fetcher.settle (segmentName names name i) f).expressInterest
        (segmentName names name i)) where
  pending := by
    -- The interest goes back where it was taken from.
    refine (List.perm_append_singleton _ _).trans ?_
    refine ((h.pending_settle hi).cons _).trans ?_
    rw [← List.map_cons]
    exact (List.perm_cons_erase hi).symm.map _
  parts := h.parts
  perm := h.perm
  inFlight := h.inFlight
  window := h.window
  requested := h.requested
  final := h.final
  last := h.last
  full := h.full
  complete := h.complete
  calls := h.calls
  contents := h.contents

end Fetcher.Accounts

/-- What becomes of a packet that is dropped. -/
theorem onData_of_unusable {data : Packet names} (h : unusable verifySegment data = true)
    (outcomes : List (Except Str Unit)) : ∃ errorCode message,
    f.onData verifySegment outcomes data =
      some (Fetch.onError errorCode message { f with inFlight := f.inFlight - 1 }) := by
  unfold unusable at h
  unfold Fetch.onData
  -- A packet is of no use if it is not verified, has no name, no segment number or one too large.
  cases hverify : verifySegment data with
  | false => exact ⟨_, _, rfl⟩
  | true =>
    cases hlast : data.name.getLast? with
    | none => exact ⟨_, _, rfl⟩
    | some lastComponent =>
      cases hsegment : names.isSegment lastComponent with
      | false => exact ⟨_, _, by simp [hsegment]; rfl⟩
      | true =>
        cases hnumber : names.toSegment lastComponent with
        | error ex => exact ⟨_, _, by simp [hsegment, hnumber]; rfl⟩
        | ok i => simp [hverify, hlast, hsegment, hnumber] at h

namespace Fetcher.Accounts

/-- A fetch with an interest outstanding is not complete, so giving it up is reported. -/
theorem giveUp_eq (h : Accounts name T P D G f) {i : ℕ} (hi : i ∈ P) (message : Str) :
    giveUp message (Fetcher.settle (segmentName names name i) f) =
      Fetch.onError .INTEREST_TIMEOUT message
        { Fetcher.settle (segmentName names name i) f with inFlight := f.inFlight - 1 } := by
  have hopen : f.complete = false := by
    rw [Bool.eq_false_iff]
    intro hcomplete
    rw [(h.eq_nil_of_length (h.complete.mp hcomplete)).1] at hi
    exact absurd hi List.not_mem_nil
  exact giveUp_of_open (f := Fetcher.settle (segmentName names name i) f) hopen message

/-- A segment arrives. -/
theorem deliver (hlength : T.length < 2 ^ 31) (h : Accounts name T P D G f) {i : ℕ} (hi : i ∈ P)
    {P' : List ℕ} {f' : Fetch names} (hledger : FetchLedger name T P' [] (i :: D) G f')
    (hfull : Full T f')
    (hcalls : if D.length + 1 = segmentCount T ∧ T.length < 2 ^ 31 then
        f'.callbacks = f.callbacks ++ [.onComplete T] ∧ f'.complete = true
      else f'.callbacks = f.callbacks ∧ f'.complete = f.complete) :
    Accounts name T P' (i :: D) G f' := by
  -- the segment was outstanding, so it is not one of those that are there
  have hmore : D.length ≠ segmentCount T := fun hcount => by
    rw [(h.eq_nil_of_length hcount).1] at hi
    exact absurd hi List.not_mem_nil
  have hbefore := h.calls
  have hnothing := h.contents
  rw [if_neg hmore] at hbefore hnothing
  refine ⟨hledger, fun _ _ => hfull, ?_, ?_, ?_⟩
  -- each time: the last segment is there now, or there are more to come
  · rw [List.length_cons]
    split at hcalls
    · next hall => simp [hcalls.2, hall.1]
    · next hpart =>
      rw [hcalls.2, h.complete, iff_false_left hmore]
      exact fun hcount => hpart ⟨hcount, hlength⟩
  · rw [List.length_cons]
    split at hcalls
    · next hall => rw [hcalls.1, List.length_append, hbefore, if_pos hall.1]; rfl
    · next hpart => rw [hcalls.1, hbefore, if_neg fun hcount => hpart ⟨hcount, hlength⟩]
  · rw [List.length_cons]
    split at hcalls
    · next hall => rw [hcalls.1, List.filterMap_append, hnothing, if_pos hall.1]; rfl
    · next hpart => rw [hcalls.1, hnothing, if_neg fun hcount => hpart ⟨hcount, hlength⟩]

/-- An event keeps the accounts, and an interest is given up by an event that says so. -/
theorem step (hnames : names.Segmented) (hlength : T.length < 2 ^ 31)
    (h : Accounts name T P D G s.fetch) {event : FetchEvent names}
    (horderly : Orderly verifySegment name T s event)
    (hstep : EventStep verifySegment s event s') :
    ∃ P' D' G', Accounts name T P' D' G' s'.fetch ∧
      G'.length = G.length + if givesUp verifySegment s event then 1 else 0 := by
  have hmax : T.length ≤ maxStringSize := hlength.le.trans (by norm_num [maxStringSize])
  cases hstep with
  | @data interest data outcomes fetch hpending _ hdata =>
    obtain ⟨i, hi, rfl⟩ := h.exists_of_pending hpending
    cases hdropped : unusable verifySegment data with
    --  true|a packet that is dropped gives its interest up
    | true =>
      obtain ⟨errorCode, message, heq⟩ := onData_of_unusable hdropped outcomes
      rw [heq] at hdata
      refine ⟨_, _, _, h.drop hi (Option.some.inj hdata).symm, ?_⟩
      rw [show givesUp verifySegment s (.data (segmentName names name i) data outcomes) = true from
        hdropped, if_pos rfl, List.length_cons]
    | false =>
      -- any other packet is the segment that the interest asks for
      obtain ⟨⟨j, hj, hname, rfl⟩, hok⟩ := horderly.resolve_left (by simp [hdropped])
      have hcount := segmentCount_lt_of_le hmax
      have hlt : i < segmentCount T := h.lt_segmentCount (by simp [hi])
      obtain rfl : i = j := hnames.fromSegment_injOn (by omega) (by omega)
        (List.cons.inj (List.append_cancel_left hname)).1
      have hverify : verifySegment (segmentPacket names name T i) = true := by
        unfold unusable at hdropped
        rw [Bool.or_eq_false_iff, Bool.not_eq_false'] at hdropped
        exact hdropped.1
      obtain ⟨P', hledger, hfull, hcalls⟩ := (h.settle hi).deliver hnames hmax
        (List.mem_singleton_self i) hverify hok hdata
      rw [List.erase_cons_head] at hledger
      refine ⟨P', i :: D, G, h.deliver hlength hi hledger hfull hcalls, ?_⟩
      rw [show givesUp verifySegment s (.data _ (segmentPacket names name T i) outcomes) = false
        from hdropped]
      rfl
  | @timeout interest outcome hpending =>
    obtain ⟨i, hi, rfl⟩ := h.exists_of_pending hpending
    unfold onTimeout
    dsimp only
    split
    -- the interest has been sent too often
    · next hover =>
      have hgives : givesUp verifySegment s (.timeout (segmentName names name i) outcome) = true :=
        decide_eq_true (Nat.le_of_lt_succ hover)
      rw [hgives]
      exact ⟨_, _, _, h.drop hi (h.giveUp_eq hi _), rfl⟩
    -- it is sent again, and that does not fail
    · next hover =>
      have hgives : givesUp verifySegment s (.timeout (segmentName names name i) outcome) =
          false := decide_eq_false fun hle => hover (Nat.lt_succ_of_le hle)
      obtain rfl := horderly.resolve_left fun hle => hover (Nat.lt_succ_of_le hle)
      rw [hgives]
      exact ⟨P, D, G, h.express hi, rfl⟩
  | nack hpending =>
    obtain ⟨i, hi, rfl⟩ := h.exists_of_pending hpending
    exact ⟨_, _, _, h.drop hi (h.giveUp_eq hi _), rfl⟩

end Fetcher.Accounts

end Accounts

/-! ### How often the user is called -/

section Runs

variable {names : NameLibrary} {verifySegment : Packet names → Bool} {T : Str}
  {baseInterest : names.Name} {h : List (Fetcher names × FetchEvent names)} {s : Fetcher names}

/-- The number of interests given up in a run. -/
def givenUp (verifySegment : Packet names → Bool) (h : List (Fetcher names × FetchEvent names)) :
    ℕ :=
  h.countP fun e => givesUp verifySegment e.1 e.2

/-- At the end of a run the accounts hold, unless not even the first interest went out. -/
theorem Fetcher.Accounts.of_run (hnames : names.Segmented) (hne : T ≠ [])
    (hlength : T.length < 2 ^ 31) (hrun : Run (fetchEvents verifySegment baseInterest) h s)
    (horderly : Admitted (Orderly verifySegment (baseName baseInterest) T) h) :
    (h = [] ∧ s.fetch.pending = [] ∧ s.fetch.callbacks.length = 1) ∨
      ∃ P D G, Accounts (baseName baseInterest) T P D G s.fetch ∧
        G.length = givenUp verifySegment h := by
  induction hrun with
  | nil h₀ =>
    obtain ⟨outcome, rfl⟩ := h₀
    cases outcome with
    -- A first interest that cannot be sent is the only callback there will be.
    | ok => exact Or.inr ⟨_, _, _, Accounts.start hne baseInterest, rfl⟩
    | error ex => exact Or.inl ⟨rfl, rfl, rfl⟩
  | @snoc h s s' event _ hstep ih =>
    rw [admitted_append_singleton] at horderly
    rcases ih horderly.1 with ⟨-, hpending, -⟩ | ⟨P, D, G, haccounts, hG⟩
    · -- no interest, no event
      cases hstep with
      | data hmem => exact absurd (hpending ▸ hmem) List.not_mem_nil
      | timeout hmem => exact absurd (hpending ▸ hmem) List.not_mem_nil
      | nack hmem => exact absurd (hpending ▸ hmem) List.not_mem_nil
    · obtain ⟨P', D', G', haccounts', hG'⟩ := haccounts.step hnames hlength horderly.2 hstep
      refine Or.inr ⟨P', D', G', haccounts', ?_⟩
      rw [hG', hG]
      unfold givenUp
      rw [List.countP_append, List.countP_singleton]

/-- **One call exactly.** A fetch of a byte string of 1 to 2³¹ - 1 bytes, with packets that are
dropped or are the segments asked for, each with the number of the last one, and no exception
of `expressInterest` but the first time, calls its user once at most, and once when nothing is
outstanding any more, if and only if one interest is given up at most. -/
theorem exactly_one_callback_iff (hnames : names.Segmented) (hne : T ≠ [])
    (hlength : T.length < 2 ^ 31) (hrun : Run (fetchEvents verifySegment baseInterest) h s)
    (horderly : Admitted (Orderly verifySegment (baseName baseInterest) T) h) :
    Throughout ExactlyOneCallback h s ↔ givenUp verifySegment h ≤ 1 := by
  constructor
  · intro hthroughout
    rcases Fetcher.Accounts.of_run hnames hne hlength hrun horderly with
      ⟨rfl, -⟩ | ⟨P, D, G, haccounts, hG⟩
    · exact Nat.zero_le 1
    · -- every interest given up has been called back
      have hcalls := haccounts.calls
      have hone := hthroughout.2.1
      omega
  -- Each state of the run has its account, and the interests given up by then are not more.
  · intro hcount
    induction hrun with
    | nil h₀ =>
      rcases Fetcher.Accounts.of_run hnames hne hlength (Run.nil h₀) horderly with
        ⟨-, -, hcalls⟩ | ⟨P, D, G, haccounts, hG⟩
      · exact throughout_nil.mpr ⟨hcalls.le, fun _ => hcalls⟩
      · exact throughout_nil.mpr (haccounts.exactlyOneCallback (hG.trans_le hcount) _)
    | @snoc h s s' event hrun hstep ih =>
      rw [throughout_append_singleton]
      have hprev : givenUp verifySegment h ≤ 1 :=
        (List.Sublist.countP_le (List.sublist_append_left h _)).trans hcount
      refine ⟨ih (admitted_append_singleton.mp horderly).1 hprev, ?_⟩
      rcases Fetcher.Accounts.of_run hnames hne hlength (hrun.snoc hstep) horderly with
        ⟨hnil, -⟩ | ⟨P, D, G, haccounts, hG⟩
      · exact absurd hnil (List.concat_ne_nil _ _)
      · exact haccounts.exactlyOneCallback (hG.trans_le hcount) _

/-- A fetch of two bytes that arrive in one packet. -/
theorem exactly_one_callback_iff_packet :
    ∃ (h : List (Fetcher octetNames × FetchEvent octetNames)) (s : Fetcher octetNames),
      h.length = 1 ∧ Run (fetchEvents Fetch.dontVerifySegment []) h s ∧
      (Throughout ExactlyOneCallback h s ↔ givenUp Fetch.dontVerifySegment h ≤ 1) := by
  have hne : "[]".toList ≠ [] := by decide
  have hstart := Fetcher.Accounts.start hne ([] : octetNames.Name)
  have hmem : (0 : ℕ) ∈ [0] := List.mem_singleton_self 0
  have hverify : Fetch.dontVerifySegment (segmentPacket octetNames (baseName []) "[]".toList 0) =
      true := rfl
  obtain ⟨f, hf⟩ := Option.isSome_iff_exists.mp
    ((hstart.settle hmem).onData_isSome octetNames_segmented (by decide) hmem hverify)
  -- The only segment is in flight and its packet arrives.
  have hpending := hstart.pending.mem_iff.mpr (List.mem_map_of_mem hmem)
  have hrun : Run (fetchEvents Fetch.dontVerifySegment ([] : octetNames.Name)) [] _ :=
    Run.nil ⟨.ok (), rfl⟩
  have hrun' := hrun.snoc (EventStep.data hpending (List.prefix_refl _) hf)
  refine ⟨_, _, rfl, hrun', exactly_one_callback_iff octetNames_segmented hne (by decide) hrun' ?_⟩
  rw [admitted_append_singleton]
  refine ⟨admitted_nil _, Or.inr ⟨⟨0, segmentCount_pos hne, rfl, rfl⟩, ?_⟩⟩
  exact fun outcome ho => List.eq_of_mem_replicate ho

variable (verifySegment) in
/-- Each nack of a fetch that is not complete is reported. -/
theorem exists_nack {interest : names.Name} (hpending : interest ∈ s.fetch.pending)
    (hopen : s.fetch.complete = false) : ∃ s', EventStep verifySegment s (.nack interest) s' ∧
      s'.fetch.pending = s.fetch.pending.erase interest ∧ s'.fetch.complete = false ∧
      s'.fetch.callbacks.length = s.fetch.callbacks.length + 1 := by
  refine ⟨_, EventStep.nack hpending, ?_⟩
  unfold Fetcher.onNetworkNack
  rw [Fetcher.giveUp_of_open (f := Fetcher.settle interest s.fetch) hopen]
  exact ⟨rfl, hopen, List.length_append⟩

/-- Two of three segments are answered by a nack, and both are reported. -/
theorem two_errors_reported :
    ∃ (h : List (Fetcher octetNames × FetchEvent octetNames)) (s : Fetcher octetNames),
      Run (fetchEvents Fetch.dontVerifySegment []) h s ∧ ¬ExactlyOneCallback s := by
  let first : Packet octetNames :=
    ⟨[octetNames.fromSegment 0], ['a'], some (octetNames.fromSegment 2)⟩
  -- with its first segment the fetch asks for two more
  obtain ⟨f, hf, hpending, hopen, hcallbacks⟩ : ∃ f : Fetch octetNames,
      (Fetcher.settle [octetNames.fromSegment 0]
        (Fetcher.start [] (.ok ())).fetch).onData Fetch.dontVerifySegment [.ok (), .ok ()] first =
          some f ∧ f.pending = [[octetNames.fromSegment 1], [octetNames.fromSegment 2]] ∧
        f.complete = false ∧ f.callbacks = [] := ⟨_, rfl, rfl, rfl, rfl⟩
  have hrun : Run (fetchEvents Fetch.dontVerifySegment ([] : octetNames.Name)) [] _ :=
    Run.nil ⟨.ok (), rfl⟩
  have hrun₁ := hrun.snoc (EventStep.data (List.mem_singleton_self _) (List.prefix_refl _) hf)
  have hmem₁ : [octetNames.fromSegment 1] ∈ f.pending := by
    rw [hpending]
    exact List.mem_cons_self
  -- both of them are refused
  obtain ⟨s₂, hstep₂, hpending₂, hopen₂, hcount₂⟩ :=
    exists_nack Fetch.dontVerifySegment (s := ⟨f, 0⟩) hmem₁ hopen
  have hmem₂ : [octetNames.fromSegment 2] ∈ s₂.fetch.pending := by
    rw [hpending₂, hpending, List.erase_cons_head]
    exact List.mem_singleton_self _
  obtain ⟨s₃, hstep₃, -, -, hcount₃⟩ := exists_nack Fetch.dontVerifySegment hmem₂ hopen₂
  refine ⟨_, s₃, (hrun₁.snoc hstep₂).snoc hstep₃, fun hone => ?_⟩
  have hle := hone.1
  rw [hcount₃, hcount₂, hcallbacks] at hle
  exact absurd hle (by decide)

end Runs

end OpenGeoBase
