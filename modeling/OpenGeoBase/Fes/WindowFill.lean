import OpenGeoBase.Fes.SegmentFetcher

/-!
# Filling the window

The loop of `fetchNextSegment` expresses interests until the window is full or the last segment has
been asked for. A request that throws leaves the counters as they are, and the loop goes on with
the same request: an `IOException` is reported, and nothing else comes of it.

How many requests are missing is a number (`toFill`) that goes down with each request that succeeds.
The loop ends with the success that brings it to zero (`fetchNextSegment_isSome_iff`), and until
then it reports every failure (`exists_take_of_fetchNextSegment`). So it ends with one report at
most if and only if no two of the requests it may take fail (`fillsWindow_iff`); on a face that is
down it never ends.
-/

namespace OpenGeoBase

open Text

namespace Fetch

variable {names : NameLibrary}

/-- The number of requests after which the loop of `fetchNextSegment` ends. -/
def toFill (s : Fetch names) : ℕ :=
  if s.lastSegmentFetched then 0
  else min (windowSize_ - s.inFlight).toNat (s.finalSegmentNumber - s.lastRequestedSegment)

/-- `expressInterest` has thrown an `IOException`. -/
def failed : Except Str Unit → Bool
  | .ok () => false
  | .error _ => true

/-- The loop of `fetchNextSegment` ends, and then it has expressed no more interests than fit into a
window and has reported one error at most. -/
def FillsWindow (dataName : names.Name) (outcomes : ℕ → Except Str Unit) (s : Fetch names) : Prop :=
  ∃ n s', fetchNextSegment dataName ((List.range n).map outcomes) s = some s' ∧
    (s'.pending.length : ℤ) ≤ s.pending.length + windowSize_ ∧
    s'.callbacks.length ≤ s.callbacks.length + 1

variable {dataName : names.Name} {outcomes : List (Except Str Unit)} {outcome : Except Str Unit}
  {ex : Str} {s s' : Fetch names}

/-- The loop goes on while there is room in the window. -/
theorem wantsNext_iff : s.wantsNext ↔ 0 < s.toFill := by
  unfold wantsNext toFill
  cases s.lastSegmentFetched with
  | true => simp
  | false =>
    rw [if_neg (by simp), lt_min_iff, Nat.sub_pos_iff_lt, Int.lt_toNat]
    constructor
    · rintro ⟨hroom, -, hmore⟩
      exact ⟨by omega, hmore⟩
    · rintro ⟨hroom, hmore⟩
      exact ⟨by omega, rfl, hmore⟩

/-- When it stops there is none. -/
theorem toFill_eq_zero (h : ¬s.wantsNext) : s.toFill = 0 :=
  Nat.eq_zero_of_not_pos (mt wantsNext_iff.mpr h)

/-- A request that succeeds is one less to be made. -/
theorem toFill_requestNext_ok (dataName : names.Name) (h : s.wantsNext) :
    (s.requestNext dataName (.ok ())).toFill + 1 = s.toFill := by
  obtain ⟨hroom, hfetched, hmore⟩ := h
  have hfetched' : (s.requestNext dataName (.ok ())).lastSegmentFetched = false := hfetched
  unfold toFill
  rw [hfetched, hfetched', if_neg (by simp), if_neg (by simp)]
  change min (windowSize_ - (s.inFlight + 1)).toNat
    (s.finalSegmentNumber - (s.lastRequestedSegment + 1)) + 1 = _
  omega

/-- A request that fails leaves all as it is. -/
theorem toFill_requestNext_error : (s.requestNext dataName (.error ex)).toFill = s.toFill := rfl

/-- An outcome that did not fail was sent. -/
theorem failed_eq_false (h : failed outcome = false) : outcome = .ok () := by
  cases outcome with
  | ok _ => rfl
  | error ex => exact absurd h (by simp [failed])

theorem exists_of_failed (h : failed outcome = true) : ∃ ex, outcome = .error ex := by
  cases outcome with
  | ok _ => exact absurd h (by simp [failed])
  | error ex => exact ⟨ex, rfl⟩

/-- The loop has ended after the outcomes listed if and only if as many of them are successes as
requests are missing. -/
theorem fetchNextSegment_isSome_iff :
    (fetchNextSegment dataName outcomes s).isSome ↔ s.toFill ≤ outcomes.countP (!failed ·) := by
  induction outcomes generalizing s with
  | nil =>
    unfold fetchNextSegment
    split
    · next hwants =>
      have hpos := wantsNext_iff.mp hwants
      simp only [Option.isSome_none, Bool.false_eq_true, List.countP_nil, false_iff]
      omega
    · next hend => simp [toFill_eq_zero hend]
  | cons outcome outcomes ih =>
    unfold fetchNextSegment
    split
    · next hwants =>
      rw [ih]
      -- a success is counted and is one request less, a failure is neither
      cases hfailed : failed outcome with
      | false =>
        obtain rfl := failed_eq_false hfailed
        have hless := toFill_requestNext_ok dataName hwants
        rw [List.countP_cons_of_pos (by rfl)]
        omega
      | true =>
        obtain ⟨ex, rfl⟩ := exists_of_failed hfailed
        rw [toFill_requestNext_error, List.countP_cons_of_neg (by simp [failed])]
    · next hend => simp [toFill_eq_zero hend]

/-- What the loop has done after `j` of the outcomes: it has expressed an interest for each of the
successes, as many as were missing, and has reported each of the failures. -/
def EndsAfter (outcomes : List (Except Str Unit)) (s s' : Fetch names) (j : ℕ) : Prop :=
  (outcomes.take j).countP (!failed ·) = s.toFill ∧
    s'.pending.length = s.pending.length + s.toFill ∧
    s'.callbacks.length = s.callbacks.length + (outcomes.take j).countP failed

/-- One more round of the loop. -/
theorem EndsAfter.cons {j : ℕ} (hwants : s.wantsNext)
    (h : EndsAfter outcomes (s.requestNext dataName outcome) s' j) :
    EndsAfter (outcome :: outcomes) s s' (j + 1) := by
  obtain ⟨hcount, hpending, hcallbacks⟩ := h
  unfold EndsAfter
  rw [List.take_succ_cons]
  cases hfailed : failed outcome with
  | false =>
    obtain rfl := failed_eq_false hfailed
    have hless := toFill_requestNext_ok dataName hwants
    have hone : (s.requestNext dataName (.ok ())).pending.length = s.pending.length + 1 := by
      simp [requestNext, expressInterest]
    rw [List.countP_cons_of_pos (by rfl), List.countP_cons_of_neg (by simp [failed])]
    exact ⟨by omega, by omega, hcallbacks⟩
  | true =>
    obtain ⟨ex, rfl⟩ := exists_of_failed hfailed
    have hone : (s.requestNext dataName (.error ex)).callbacks.length = s.callbacks.length + 1 := by
      simp [requestNext, onError]
    rw [List.countP_cons_of_neg (by simp [failed]), List.countP_cons_of_pos (by rfl)]
    exact ⟨hcount, hpending, by omega⟩

/-- The loop ends at once. -/
theorem endsAfter_zero (h : ¬s.wantsNext) : EndsAfter outcomes s s 0 := by
  have hzero := toFill_eq_zero h
  exact ⟨by simp [hzero], by simp [hzero], by simp⟩

/-- A loop that ends has used some of the outcomes. -/
theorem exists_endsAfter (h : fetchNextSegment dataName outcomes s = some s') :
    ∃ j ≤ outcomes.length, EndsAfter outcomes s s' j := by
  induction outcomes generalizing s with
  | nil =>
    unfold fetchNextSegment at h
    split at h
    · exact absurd h (by simp)
    · next hend =>
      obtain rfl := Option.some.inj h
      exact ⟨0, Nat.zero_le _, endsAfter_zero hend⟩
  | cons outcome outcomes ih =>
    unfold fetchNextSegment at h
    split at h
    · next hwants =>
      obtain ⟨j, hj, hafter⟩ := ih h
      exact ⟨j + 1, Nat.succ_le_succ hj, hafter.cons hwants⟩
    · next hend =>
      obtain rfl := Option.some.inj h
      exact ⟨0, Nat.zero_le _, endsAfter_zero hend⟩

/-- Every outcome failed or did not. -/
theorem countP_failed_add (outcomes : List (Except Str Unit)) :
    outcomes.countP failed + outcomes.countP (!failed ·) = outcomes.length := by
  rw [List.length_eq_countP_add_countP failed]
  congr 1
  exact List.countP_congr fun outcome _ => by simp

/-- **The window is filled** if and only if the missing requests fit into one and no two of the
requests the loop may take, one more than are missing, fail. -/
theorem fillsWindow_iff (s : Fetch names) (dataName : names.Name)
    (outcomes : ℕ → Except Str Unit) :
    s.FillsWindow dataName outcomes ↔
      s.toFill ≤ windowSize_ ∧ ((List.range (s.toFill + 1)).map outcomes).countP failed ≤ 1 := by
  constructor
  · rintro ⟨n, s', hloop, hpending, hcallbacks⟩
    obtain ⟨j, hj, hcount, hasked, hreported⟩ := exists_endsAfter hloop
    refine ⟨by omega, ?_⟩
    rw [List.length_map, List.length_range] at hj
    rw [← List.map_take, List.take_range, min_eq_left hj] at hcount hreported
    have hlength := countP_failed_add ((List.range j).map outcomes)
    rw [List.length_map, List.length_range] at hlength
    -- without a failure the loop has left the last of these outcomes to itself
    rcases Nat.eq_or_lt_of_le (by omega : j ≤ s.toFill + 1) with rfl | hlt
    · omega
    · obtain rfl : j = s.toFill := by omega
      rw [List.range_succ, List.map_append, List.countP_append]
      have hlast := List.countP_le_length (p := failed) (l := [s.toFill].map outcomes)
      rw [List.length_map, List.length_singleton] at hlast
      omega
  · rintro ⟨hfits, hone⟩
    have hlength := countP_failed_add ((List.range (s.toFill + 1)).map outcomes)
    rw [List.length_map, List.length_range] at hlength
    have hends : (fetchNextSegment dataName ((List.range (s.toFill + 1)).map outcomes) s).isSome :=
      fetchNextSegment_isSome_iff.mpr (by omega)
    obtain ⟨s', hloop⟩ := Option.isSome_iff_exists.mp hends
    obtain ⟨j, -, -, hasked, hreported⟩ := exists_endsAfter hloop
    refine ⟨s.toFill + 1, s', hloop, by omega, ?_⟩
    have hle := (List.take_sublist j ((List.range (s.toFill + 1)).map outcomes)).countP_le
      (p := failed)
    omega

/-- A face that is down: the window has room, a segment is missing, and no request succeeds. -/
theorem endless_window : ¬FillsWindow [] (fun _ => .error "java.io.IOException".toList)
    { Fetch.new octetNames with finalSegmentNumber := 1 } := by
  rintro ⟨n, s', hloop, -, -⟩
  have hsome := fetchNextSegment_isSome_iff.mp (Option.isSome_of_eq_some hloop)
  -- there is a request to be made, but there are no successes
  have hmissing : toFill { Fetch.new octetNames with finalSegmentNumber := 1 } = 1 := by decide
  rw [hmissing, List.countP_map, List.countP_eq_zero.mpr fun _ _ => by simp [failed]] at hsome
  exact absurd hsome (by decide)

end Fetch

end OpenGeoBase
