import OpenGeoBase.Fes.FetchRun
import Mathlib.Data.List.GetD

/-!
# A fetch that hears of its end from the last segment

A producer need not put the number of the last segment into every packet. If the last one alone
carries it, the fetcher goes on asking, one window after the other, until this packet comes; what
it has asked for behind the end is never answered.

Whether everything is there is looked up only in a packet with a FinalBlockId. So the content is
handed over if and only if the last segment is also the last to arrive
(`complete_iff_arrives_last`). If it overtakes another one, the fetcher has all segments in the
end, and calls nobody.
-/

namespace OpenGeoBase

open Text Transition

/-! ### Arrivals -/

section System

variable (names : NameLibrary) (name : names.Name) (segments : List Str)

/-- The packet of a segment: the last one says that it is the last, the others say nothing. -/
def lastMarkedPacket (i : ℕ) : Packet names where
  name := segmentName names name i
  content := segments.getD i []
  finalBlockId := if i + 1 = segments.length then some (names.fromSegment i) else none

/-- A segment arrives in answer to a pending interest. Every interest can be expressed. -/
inductive ArrivalStep : Fetch names → ℕ → Fetch names → Prop where
  | arrive {s s' : Fetch names} {i : ℕ} {outcomes : List (Except Str Unit)}
      (hsegment : i < segments.length) (hpending : segmentName names name i ∈ s.pending)
      (hok : ∀ outcome ∈ outcomes, outcome = .ok ())
      (hdata : Fetch.onData Fetch.dontVerifySegment outcomes
        (lastMarkedPacket names name segments i)
        { s with pending := s.pending.erase (segmentName names name i) } = some s') :
    ArrivalStep s i s'

end System

/-- A fetch of segments the last of which alone has a FinalBlockId. -/
def lastMarkedFetch (names : NameLibrary) (baseInterest : names.Name) (segments : List Str) :
    System (Fetch names) ℕ where
  init s := s = (Fetch.new names).fetchFirstSegment baseInterest (.ok ())
  step := ArrivalStep names (baseName baseInterest) segments

/-! ### The books of the fetcher -/

section Arrived

variable {names : NameLibrary} {name : names.Name} {segments : List Str}

/-- The fields of a fetcher that waits for the segments in `P` and has got those in `D`, the latest
first. -/
structure Arrived (name : names.Name) (segments : List Str) (P D : List ℕ) (f : Fetch names) :
    Prop where
  pending : f.pending.Perm (P.map (segmentName names name))
  parts : f.contentParts_ = D.map fun i => (i, segments.getD i [])
  perm : (P ++ D).Perm (List.range (f.lastRequestedSegment + 1))
  lt_length : ∀ i ∈ D, i < segments.length
  inFlight : f.inFlight = P.length
  window : f.inFlight ≤ windowSize_
  final : f.finalSegmentNumber =
    if segments.length - 1 ∈ D then segments.length - 1 else longMaxValue
  last : f.lastSegmentFetched = true ↔ segments.length - 1 ∈ D

/-- What has been called back when the segments in `D` are there, the latest first. -/
def calledBack (segments : List Str) (D : List ℕ) : List Callback :=
  if D.length = segments.length ∧ D.head? = some (segments.length - 1) ∧
      segments.flatten.length < 2 ^ 31 then [.onComplete segments.flatten]
  else []

namespace Arrived

variable {P D : List ℕ} {f f' : Fetch names} {i : ℕ} {outcomes : List (Except Str Unit)}

/-- In the beginning only the first segment is asked for. -/
theorem start (baseInterest : names.Name) (segments : List Str) :
    Arrived (baseName baseInterest) segments [0] []
      ((Fetch.new names).fetchFirstSegment baseInterest (.ok ())) where
  pending := by
    unfold Fetch.fetchFirstSegment baseName
    cases Fetch.endsWithSegmentNumber baseInterest <;> exact List.Perm.refl _
  parts := rfl
  perm := List.Perm.refl _
  lt_length i hi := absurd hi List.not_mem_nil
  inFlight := rfl
  window := by
    change (0 : ℤ) + 1 ≤ 8
    norm_num
  final := rfl
  last := iff_of_false Bool.false_ne_true List.not_mem_nil

/-- A segment is in flight or stored, not both. -/
theorem nodup (h : Arrived name segments P D f) : (P ++ D).Nodup :=
  h.perm.nodup_iff.mpr List.nodup_range

/-- Each of the segments asked for is in flight or stored. -/
theorem length_eq (h : Arrived name segments P D f) :
    P.length + D.length = f.lastRequestedSegment + 1 := by
  have hlength := h.perm.length_eq
  rwa [List.length_append, List.length_range] at hlength

/-- No more segments are stored than there are. -/
theorem length_le (h : Arrived name segments P D f) : D.length ≤ segments.length := by
  have hsub : D ⊆ List.range segments.length := fun i hi => List.mem_range.mpr (h.lt_length i hi)
  have hle := (List.subperm_of_subset (List.nodup_append.mp h.nodup).2.1 hsub).length_le
  rwa [List.length_range] at hle

/-- The fetcher is never more than a window ahead of the end. -/
theorem lastRequestedSegment_lt (h : Arrived name segments P D f) :
    f.lastRequestedSegment < segments.length + 8 := by
  have hlength := h.length_eq
  have hle := h.length_le
  have hwindow := h.window
  rw [h.inFlight] at hwindow
  unfold windowSize_ at hwindow
  omega

/-- The list of segments in flight knows every pending name. -/
theorem mem_of_pending (hnames : names.Segmented) (hlong : segments.length ≤ 2 ^ 63)
    (h : Arrived name segments P D f) (hi : i < segments.length)
    (hpending : segmentName names name i ∈ f.pending) : i ∈ P := by
  obtain ⟨j, hj, heq⟩ := List.mem_map.mp (h.pending.mem_iff.mp hpending)
  have hrequested := h.lastRequestedSegment_lt
  have hjlt := List.mem_range.mp (h.perm.mem_iff.mp (List.mem_append_left D hj))
  have hsame : j = i := hnames.fromSegment_injOn (by omega) (by omega)
    (List.cons.inj (List.append_cancel_left heq)).1
  exact hsame ▸ hj

/-- With one more request there is one more segment to wait for. -/
theorem requestNext (h : Arrived name segments P D f) (hwants : f.wantsNext) (i : ℕ) :
    Arrived name segments ((f.lastRequestedSegment + 1) :: P) D
      (f.requestNext (segmentName names name i) (.ok ())) where
  pending := by
    have hname : (segmentName names name i).dropLast = name := List.dropLast_concat
    unfold Fetch.requestNext Fetch.expressInterest
    rw [hname, List.map_cons]
    exact (List.perm_append_singleton _ _).trans (h.pending.cons _)
  parts := h.parts
  -- the new number follows all the numbers asked for so far
  perm := by
    change ((f.lastRequestedSegment + 1) :: (P ++ D)).Perm
      (List.range (f.lastRequestedSegment + 1 + 1))
    rw [List.range_succ]
    exact (h.perm.cons _).trans (List.perm_append_singleton _ _).symm
  lt_length := h.lt_length
  inFlight := by
    change f.inFlight + 1 = _
    rw [h.inFlight, List.length_cons]
    push_cast
    rfl
  window := by
    change f.inFlight + 1 ≤ windowSize_
    have hroom := hwants.1
    omega
  final := h.final
  last := h.last

/-- The end of `onData` asks for all it wants, and calls nobody. -/
theorem continueFetch (h : Arrived name segments P D f)
    (hok : ∀ outcome ∈ outcomes, outcome = .ok ())
    (hf' : f.continueFetch (segmentName names name i) outcomes = some f') :
    (∃ P', Arrived name segments P' D f') ∧ ¬f'.wantsNext ∧ f'.callbacks = f.callbacks := by
  unfold Fetch.continueFetch at hf'
  split at hf'
  · obtain ⟨⟨harrived, hcalls⟩, hend⟩ := Fetch.fetchNextSegment_induct
      (I := fun f' => (∃ P', Arrived name segments P' D f') ∧ f'.callbacks = f.callbacks)
      ⟨⟨P, h⟩, rfl⟩
      (fun f' ⟨⟨P', h'⟩, hcalls⟩ hwants => ⟨⟨_, h'.requestNext hwants i⟩, hcalls⟩) hok hf'
    exact ⟨harrived, hend, hcalls⟩
  · next hdone =>
    obtain rfl := Option.some.inj hf'
    exact ⟨⟨P, h⟩, fun hwants => hdone hwants.2.2, rfl⟩

/-- As long as a segment is missing, one that is there has been asked for. -/
theorem exists_pending (h : Arrived name segments P D f) (hlong : segments.length ≤ 2 ^ 63)
    (hend : ¬f.wantsNext) (hmissing : D.length < segments.length) :
    ∃ i ∈ P, i < segments.length := by
  by_contra hnone
  push Not at hnone
  have hlength := h.length_eq
  have hinFlight := h.inFlight
  -- all that has been asked for lies behind the end or has arrived
  have hD : ∀ i < segments.length, i ≤ f.lastRequestedSegment → i ∈ D := by
    intro i hi hle
    have hmem := h.perm.mem_iff.mpr (List.mem_range.mpr (Nat.lt_succ_of_le hle))
    rcases List.mem_append.mp hmem with hP | hD
    · exact absurd hi (Nat.not_lt.mpr (hnone i hP))
    · exact hD
  have hbehind : f.lastRequestedSegment + 1 < segments.length := by
    by_contra hreached
    have hsub : List.range segments.length ⊆ D := fun i hi =>
      hD i (List.mem_range.mp hi) (by have hi' := List.mem_range.mp hi; omega)
    have hle := (List.subperm_of_subset List.nodup_range hsub).length_le
    rw [List.length_range] at hle
    omega
  have hP : P = [] := by
    refine List.eq_nil_iff_forall_not_mem.mpr fun i hi => ?_
    have hrequested := List.mem_range.mp (h.perm.mem_iff.mp (List.mem_append_left D hi))
    have hbeyond := hnone i hi
    omega
  -- so the window is empty, and the end is not known
  have hlast : segments.length - 1 ∉ D := by
    intro hmem
    have hrequested := List.mem_range.mp (h.perm.mem_iff.mp (List.mem_append_right P hmem))
    omega
  refine hend ⟨?_, ?_, ?_⟩
  · rw [hinFlight, hP]
    decide
  · rw [Bool.eq_false_iff]
    exact mt h.last.mp hlast
  · rw [h.final, if_neg hlast]
    unfold longMaxValue
    omega

/-- The fields after an arrival, up to the calls to the user. -/
theorem received (h : Arrived name segments P D f) (hi : i ∈ P) (hlt : i < segments.length)
    (callbacks : List Callback) (complete : Bool) :
    Arrived name segments (P.erase i) (i :: D)
      { f with
        pending := f.pending.erase (segmentName names name i)
        inFlight := f.inFlight - 1
        contentParts_ := (i :: D).map fun i => (i, segments.getD i [])
        finalSegmentNumber := if i + 1 = segments.length then i else f.finalSegmentNumber
        lastSegmentFetched := f.lastSegmentFetched || decide (i + 1 = segments.length)
        callbacks := callbacks
        complete := complete } where
  pending := by
    have hpending := h.pending.trans ((List.perm_cons_erase hi).map _)
    have herase := hpending.erase (segmentName names name i)
    rwa [List.map_cons, List.erase_cons_head] at herase
  parts := rfl
  -- the number goes from those awaited to those fetched
  perm := (List.perm_middle.trans ((List.perm_cons_erase hi).symm.append_right D)).trans h.perm
  lt_length := List.forall_mem_cons.mpr ⟨hlt, h.lt_length⟩
  inFlight := by
    have hlength := List.length_erase_add_one hi
    change f.inFlight - 1 = _
    rw [h.inFlight, ← hlength]
    push_cast
    ring
  window := by
    change f.inFlight - 1 ≤ windowSize_
    have hwindow := h.window
    omega
  final := by
    change (if i + 1 = segments.length then i else f.finalSegmentNumber) = _
    rw [h.final]
    -- only the last segment says which one is final
    by_cases hlast : i + 1 = segments.length
    · rw [if_pos hlast, if_pos (List.mem_cons.mpr (Or.inl (by omega)))]
      omega
    · have hmem : segments.length - 1 ∈ i :: D ↔ segments.length - 1 ∈ D :=
        List.mem_cons.trans (or_iff_right (by omega))
      rw [if_neg hlast]
      exact (if_congr hmem rfl rfl).symm
  last := by
    change (f.lastSegmentFetched || decide (i + 1 = segments.length)) = true ↔ _
    rw [Bool.or_eq_true, h.last, List.mem_cons, decide_eq_true_eq, or_comm]
    refine or_congr_left ?_
    omega

/-- Once as many segments have arrived as there are, they make up the content. -/
theorem concatenate_eq (h : Arrived name segments P D f) (hall : D.length = segments.length) :
    concatenate (D.map fun i => (i, segments.getD i [])) =
      if segments.flatten.length < 2 ^ 31 then some segments.flatten else none := by
  have hsub : D ⊆ List.range segments.length := fun i hi => List.mem_range.mpr (h.lt_length i hi)
  have hperm : D.Perm (List.range segments.length) :=
    (List.subperm_of_subset (List.nodup_append.mp h.nodup).2.1 hsub).perm_of_length_le
      (by rw [List.length_range, hall])
  have hsegments : (List.range segments.length).map (fun i => segments.getD i []) = segments := by
    refine List.ext_getElem (by simp) fun i hi hi' => ?_
    rw [List.getElem_map, List.getElem_range, List.getD_eq_getElem _ _ hi']
  have hblobs : (List.range (D.map fun i => (i, segments.getD i [])).length).mapM
      (getPart (D.map fun i => (i, segments.getD i []))) = some segments := by
    rw [List.length_map, hall]
    refine (mapM_getPart fun i hi => getPart_map (hperm.mem_iff.mpr hi)).trans ?_
    rw [hsegments]
  exact OpenGeoBase.concatenate_eq hblobs

/-- The packet of a segment, as `onData` reads it: the last one may end the fetch, the others make
it go on. -/
theorem onData_lastMarkedPacket (hnames : names.Segmented) (hlong : segments.length ≤ 2 ^ 63)
    (h : Arrived name segments P D f) (hi : i ∈ P) (hlt : i < segments.length)
    (pending : List names.Name) (outcomes : List (Except Str Unit)) :
    Fetch.onData Fetch.dontVerifySegment outcomes (lastMarkedPacket names name segments i)
        { f with pending := pending } =
      if i + 1 = segments.length then
        Fetch.finishOrContinue i i (segmentName names name i) outcomes
          { f with
            pending := pending
            inFlight := f.inFlight - 1
            contentParts_ := (i :: D).map fun i => (i, segments.getD i []) }
      else
        Fetch.continueFetch (segmentName names name i) outcomes
          { f with
            pending := pending
            inFlight := f.inFlight - 1
            contentParts_ := (i :: D).map fun i => (i, segments.getD i []) } := by
  -- the segment is asked for once, so it is not among the parts
  have hnew : i ∉ D := fun hD => (List.nodup_append.mp h.nodup).2.2 i hi i hD rfl
  have hparts : putPart i (segments.getD i []) f.contentParts_ =
      (i :: D).map fun i => (i, segments.getD i []) := by
    rw [h.parts]
    exact putPart_map (f := fun i => segments.getD i []) hnew
  have hlast : (segmentName names name i).getLast? = some (names.fromSegment i) :=
    List.getLast?_concat
  unfold Fetch.onData lastMarkedPacket
  simp only [Fetch.dontVerifySegment, Bool.not_true, Bool.false_eq_true, if_false, hlast,
    hnames.isSegment_fromSegment i (by omega), hnames.toSegment_fromSegment i (by omega), hparts]
  by_cases hend : i + 1 = segments.length
  · rw [if_pos hend, if_pos hend]
    simp only [hnames.toSegment_fromSegment i (by omega)]
  · rw [if_neg hend, if_neg hend]

/-- An arrival: the content is handed over if the last segment is the last one missing. -/
theorem arrive (hnames : names.Segmented) (hlong : segments.length ≤ 2 ^ 63)
    (h : Arrived name segments P D f) (hstep : ArrivalStep names name segments f i f') :
    (∃ P', Arrived name segments P' (i :: D) f') ∧
      (D.length + 1 < segments.length → ¬f'.wantsNext) ∧ f'.callbacks =
      f.callbacks ++ if D.length + 1 = segments.length ∧ i + 1 = segments.length ∧
        segments.flatten.length < 2 ^ 31 then [.onComplete segments.flatten] else [] := by
  obtain ⟨hlt, hpending, hok, hdata⟩ := hstep
  have hi : i ∈ P := h.mem_of_pending hnames hlong hlt hpending
  rw [h.onData_lastMarkedPacket hnames hlong hi hlt] at hdata
  split at hdata
  · next hlast =>
    have hreceived := h.received hi hlt
    rw [if_pos hlast, decide_eq_true hlast, Bool.or_true] at hreceived
    unfold Fetch.finishOrContinue at hdata
    dsimp only at hdata
    rw [beq_self_eq_true, Bool.or_true] at hdata
    split at hdata
    · next hall =>
      -- the last segment, and the last one missing
      have hcount : (i :: D).length = segments.length := by
        have hparts := hall.2
        unfold Fetch.haveAllSegments at hparts
        rw [beq_iff_eq, List.length_map] at hparts
        omega
      rw [(hreceived f.callbacks f.complete).concatenate_eq hcount] at hdata
      rw [List.length_cons] at hcount
      by_cases hlength : segments.flatten.length < 2 ^ 31
      · rw [if_pos hlength] at hdata
        obtain rfl := Option.some.inj hdata
        rw [if_pos ⟨hcount, hlast, hlength⟩]
        exact ⟨⟨_, hreceived _ true⟩, fun hlt => by omega, rfl⟩
      · rw [if_neg hlength] at hdata
        obtain rfl := Option.some.inj hdata
        rw [if_neg fun hall => hlength hall.2.2, List.append_nil]
        exact ⟨⟨_, hreceived f.callbacks f.complete⟩, fun hlt => by omega, rfl⟩
    · next hmore =>
      -- the last segment, and another one is missing
      have hcount : ¬D.length + 1 = segments.length := by
        intro hcount
        refine hmore ⟨rfl, ?_⟩
        unfold Fetch.haveAllSegments
        rw [beq_iff_eq, List.length_map, List.length_cons, hcount, hlast]
      rw [if_neg fun hall => hcount hall.1, List.append_nil]
      obtain ⟨harrived, hend, hcalls⟩ :=
        (hreceived f.callbacks f.complete).continueFetch hok hdata
      exact ⟨harrived, fun _ => hend, hcalls⟩
  · next hlast =>
    -- no FinalBlockId, and nothing is looked up
    have hreceived := h.received hi hlt f.callbacks f.complete
    rw [if_neg hlast, decide_eq_false hlast, Bool.or_false] at hreceived
    rw [if_neg fun hall => hlast hall.2.1, List.append_nil]
    obtain ⟨harrived, hend, hcalls⟩ := hreceived.continueFetch hok hdata
    exact ⟨harrived, fun _ => hend, hcalls⟩

/-- What has been asked for can arrive: `onData` is over once the window is full. -/
theorem exists_step (hnames : names.Segmented) (hlong : segments.length ≤ 2 ^ 63)
    (h : Arrived name segments P D f) (hi : i ∈ P) (hlt : i < segments.length) :
    ∃ f', ArrivalStep names name segments f i f' := by
  have hpending : segmentName names name i ∈ f.pending :=
    h.pending.mem_iff.mpr (List.mem_map_of_mem hi)
  have hpos : 0 < P.length := List.length_pos_of_mem hi
  -- taking the packet out makes room for at most one window of requests
  have hroom : windowSize_ - (f.inFlight - 1) ≤ (8 : ℕ) := by
    rw [h.inFlight]
    unfold windowSize_
    omega
  have hsome : (Fetch.onData Fetch.dontVerifySegment (List.replicate 8 (.ok ()))
      (lastMarkedPacket names name segments i)
      { f with pending := f.pending.erase (segmentName names name i) }).isSome := by
    rw [h.onData_lastMarkedPacket hnames hlong hi hlt]
    split
    · exact Fetch.finishOrContinue_isSome hroom
    · unfold Fetch.continueFetch
      split
      · exact Fetch.fetchNextSegment_isSome hroom
      · rfl
  obtain ⟨f', hf'⟩ := Option.isSome_iff_exists.mp hsome
  exact ⟨f', .arrive hlt hpending (fun outcome ho => List.eq_of_mem_replicate ho) hf'⟩

end Arrived

/-- The segments that have arrived in a run, the latest first. -/
def arrivals (h : List (Fetch names × ℕ)) : List ℕ := (h.map Prod.snd).reverse

/-- The books along a run. -/
theorem Arrived.of_run (hnames : names.Segmented) (hlong : segments.length ≤ 2 ^ 63)
    {baseInterest : names.Name} {h : List (Fetch names × ℕ)} {s : Fetch names}
    (hrun : Run (lastMarkedFetch names baseInterest segments) h s) :
    (∃ P, Arrived (baseName baseInterest) segments P (arrivals h) s ∧
        ((arrivals h).length < segments.length → ∃ i ∈ P, i < segments.length)) ∧
      s.callbacks = calledBack segments (arrivals h) := by
  induction hrun with
  | nil hstart =>
    obtain rfl := hstart
    refine ⟨⟨[0], Arrived.start baseInterest segments, fun hmissing =>
      ⟨0, List.mem_singleton_self 0, hmissing⟩⟩, ?_⟩
    unfold calledBack arrivals
    rw [if_neg (by simp)]
    rfl
  | @snoc h s s' i hrun hstep ih =>
    obtain ⟨⟨P, harrived, -⟩, hcallbacks⟩ := ih
    obtain ⟨⟨P', harrived'⟩, hend, hcallbacks'⟩ := harrived.arrive hnames hlong hstep
    have hcons : arrivals (h ++ [(s, i)]) = i :: arrivals h := by
      unfold arrivals
      rw [List.map_append, List.reverse_append]
      rfl
    have hlength := harrived'.length_le
    rw [List.length_cons] at hlength
    rw [hcons]
    refine ⟨⟨P', harrived', fun hmissing => ?_⟩, ?_⟩
    · rw [List.length_cons] at hmissing
      exact harrived'.exists_pending hlong (hend hmissing) (by rwa [List.length_cons])
    -- so far a segment has been missing
    have hnone : s.callbacks = [] := by
      rw [hcallbacks]
      exact if_neg fun hall => by omega
    rw [hcallbacks', hnone, List.nil_append]
    unfold calledBack
    refine if_congr (and_congr_right fun hcount => and_congr_left fun _ => ?_) rfl rfl
    rw [List.head?_cons, Option.some.injEq]
    omega

end Arrived

/-! ### The last to arrive -/

section Complete

variable {names : NameLibrary} {baseInterest : names.Name} {segments : List Str}
  {h : List (Fetch names × ℕ)} {s : Fetch names}

/-- **The fetch is not stuck before the end**: as long as a segment is missing, one can arrive. -/
theorem exists_arrival (hnames : names.Segmented) (hlong : segments.length ≤ 2 ^ 63)
    (hrun : Run (lastMarkedFetch names baseInterest segments) h s)
    (hmissing : h.length < segments.length) :
    ∃ i s', (lastMarkedFetch names baseInterest segments).step s i s' := by
  obtain ⟨⟨P, harrived, hpending⟩, -⟩ := Arrived.of_run hnames hlong hrun
  obtain ⟨i, hi, hlt⟩ := hpending (by simpa [arrivals] using hmissing)
  obtain ⟨s', hstep⟩ := harrived.exists_step hnames hlong hi hlt
  exact ⟨i, s', hstep⟩

/-- **The content is handed over when the last missing segment arrives**, exactly if it is the last
segment, and if an `int` can hold the length. -/
theorem complete_iff_arrives_last (hnames : names.Segmented)
    (hlong : segments.length ≤ 2 ^ 63)
    (hrun : Run (lastMarkedFetch names baseInterest segments) h s)
    (hall : ∀ i < segments.length, i ∈ h.map Prod.snd) :
    s.callbacks = [.onComplete segments.flatten] ↔
      (h.map Prod.snd).getLast? = some (segments.length - 1) ∧
        segments.flatten.length < 2 ^ 31 := by
  obtain ⟨⟨P, harrived, -⟩, hcallbacks⟩ := Arrived.of_run hnames hlong hrun
  have hcount : (arrivals h).length = segments.length := by
    have hsub : List.range segments.length ⊆ arrivals h := fun i hi =>
      List.mem_reverse.mpr (hall i (List.mem_range.mp hi))
    have hle := (List.subperm_of_subset List.nodup_range hsub).length_le
    rw [List.length_range] at hle
    exact Nat.le_antisymm harrived.length_le hle
  have hhead : (arrivals h).head? = (h.map Prod.snd).getLast? := List.head?_reverse
  rw [hcallbacks, ← hhead]
  unfold calledBack
  split
  · next hlast => exact iff_of_true rfl hlast.2
  · next hlast => exact iff_of_false (by simp) fun hall => hlast ⟨hcount, hall⟩

/-- A byte string of three segments. -/
private def oneLetterSegments : List Str := [['a'], ['b'], ['c']]

/-- The arrival of one of the three segments. -/
private def segmentArrives (i : ℕ) (s : Fetch octetNames) : Option (Fetch octetNames) :=
  Fetch.onData Fetch.dontVerifySegment (List.replicate 8 (.ok ()))
    (lastMarkedPacket octetNames [] oneLetterSegments i)
    { s with pending := s.pending.erase (segmentName octetNames [] i) }

/-- The three arrivals make a run; the first segment has to come first. -/
private theorem run_oneLetterSegments {s₁ s₂ s₃ : Fetch octetNames} {i j : ℕ} (hi : i < 3)
    (hj : j < 3)
    (hs₁ : segmentArrives 0 ((Fetch.new octetNames).fetchFirstSegment [] (.ok ())) = some s₁)
    (hs₂ : segmentArrives i s₁ = some s₂) (hs₃ : segmentArrives j s₂ = some s₃)
    (hpending₁ : segmentName octetNames [] i ∈ s₁.pending)
    (hpending₂ : segmentName octetNames [] j ∈ s₂.pending) :
    ∃ h, Run (lastMarkedFetch octetNames [] oneLetterSegments) h s₃ ∧
      h.map Prod.snd = [0, i, j] := by
  have hok : ∀ outcome ∈ List.replicate 8 (.ok () : Except Str Unit), outcome = .ok () :=
    fun outcome ho => List.eq_of_mem_replicate ho
  have hrun : Run (lastMarkedFetch octetNames [] oneLetterSegments) []
      ((Fetch.new octetNames).fetchFirstSegment [] (.ok ())) := Run.nil rfl
  have hrun₁ := hrun.snoc (.arrive (by decide) (List.mem_singleton_self _) hok hs₁)
  have hrun₂ := hrun₁.snoc (.arrive hi hpending₁ hok hs₂)
  exact ⟨_, hrun₂.snoc (.arrive hj hpending₂ hok hs₃), rfl⟩

/-- Three segments that come in their order are handed over. -/
theorem complete_iff_arrives_last_in_order :
    ∃ (h : List (Fetch octetNames × ℕ)) (s : Fetch octetNames),
      Run (lastMarkedFetch octetNames [] oneLetterSegments) h s ∧ h.map Prod.snd = [0, 1, 2] ∧
        s.callbacks = [.onComplete "abc".toList] ∧
        (s.callbacks = [.onComplete oneLetterSegments.flatten] ↔
          (h.map Prod.snd).getLast? = some (oneLetterSegments.length - 1) ∧
            oneLetterSegments.flatten.length < 2 ^ 31) := by
  obtain ⟨s₁, s₂, s₃, hs₁, hs₂, hs₃, hpending₁, hpending₂, hcallbacks⟩ :
      ∃ s₁ s₂ s₃ : Fetch octetNames,
      segmentArrives 0 ((Fetch.new octetNames).fetchFirstSegment [] (.ok ())) = some s₁ ∧
        segmentArrives 1 s₁ = some s₂ ∧ segmentArrives 2 s₂ = some s₃ ∧
          segmentName octetNames [] 1 ∈ s₁.pending ∧ segmentName octetNames [] 2 ∈ s₂.pending ∧
            s₃.callbacks = [.onComplete "abc".toList] := by
    -- the three arrivals computed
    refine ⟨_, _, _, rfl, rfl, rfl, ?_, ?_, rfl⟩
    · decide
    · decide
  obtain ⟨h, hrun, horder⟩ :=
    run_oneLetterSegments (by decide) (by decide) hs₁ hs₂ hs₃ hpending₁ hpending₂
  refine ⟨h, s₃, hrun, horder, hcallbacks,
    complete_iff_arrives_last octetNames_segmented (by decide) hrun ?_⟩
  rw [horder]
  decide

/-- Of three segments the last one comes second: all of them are there, and nobody is called. -/
theorem overtaken_never_completes :
    ¬∀ (h : List (Fetch octetNames × ℕ)) (s : Fetch octetNames),
      Run (lastMarkedFetch octetNames [] [['a'], ['b'], ['c']]) h s →
        (∀ i < 3, i ∈ h.map Prod.snd) → s.callbacks = [.onComplete "abc".toList] := by
  intro hcomplete
  -- the first segment fills the window, the last one tells the end, the other one is not looked at
  obtain ⟨s₁, s₂, s₃, hs₁, hs₂, hs₃, hlast, hother, hnone⟩ : ∃ s₁ s₂ s₃ : Fetch octetNames,
      segmentArrives 0 ((Fetch.new octetNames).fetchFirstSegment [] (.ok ())) = some s₁ ∧
        segmentArrives 2 s₁ = some s₂ ∧ segmentArrives 1 s₂ = some s₃ ∧
          segmentName octetNames [] 2 ∈ s₁.pending ∧ segmentName octetNames [] 1 ∈ s₂.pending ∧
            s₃.callbacks = [] := by
    refine ⟨_, _, _, rfl, rfl, rfl, ?_, ?_, rfl⟩
    · decide
    · decide
  obtain ⟨h, hrun, horder⟩ :=
    run_oneLetterSegments (by decide) (by decide) hs₁ hs₂ hs₃ hlast hother
  have hcallbacks := hcomplete h s₃ hrun (by rw [horder]; decide)
  rw [hnone] at hcallbacks
  exact absurd hcallbacks (by decide)

end Complete

end OpenGeoBase
