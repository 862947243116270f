import OpenGeoBase.Repo.ReadHandle

/-!
# The segment fetcher of the front end

`NDNFixedWindowSegmentFetcher` fetches the segments of a byte string: it asks for
segment 0, learns the number of the last segment from the FinalBlockId of the packets
it gets, keeps up to eight interests in flight, and hands the concatenation of the
segments to `onComplete` when it has them all.

The state of a fetch comprises the fetcher's fields, the interests on the face that
have no answer yet, and the calls made to `onComplete` and `onError` so far. Each call
of `Face.expressInterest` has an outcome, success or what an `IOException` says; a loop
that calls it takes the list of outcomes and is cut off at the end of the list.
-/

namespace OpenGeoBase

open Text

inductive ErrorCode where
  | INTEREST_TIMEOUT
  | DATA_HAS_NO_SEGMENT
  | SEGMENT_VERIFICATION_FAILED
  | IO_ERROR
  deriving DecidableEq

/-- A call to the user of the fetcher. -/
inductive Callback where
  | onComplete (content : Str)
  | onError (errorCode : ErrorCode) (message : Str)
  deriving DecidableEq

/-- A fetch: the fields of the fetcher, the interests expressed and not answered yet, and
the calls to its user. -/
structure Fetch (names : NameLibrary) where
  contentParts_ : List (ℕ × Str)
  finalSegmentNumber : ℕ
  inFlight : ℤ
  lastRequestedSegment : ℕ
  lastSegmentFetched : Bool
  complete : Bool
  pending : List names.Name
  callbacks : List Callback

/-- The number of interests in flight the fetcher aims at. -/
def windowSize_ : ℤ := 8

/-- `Long.MAX_VALUE`. -/
def longMaxValue : ℕ := 2 ^ 63 - 1

/-- `HashMap.put`. -/
def putPart (i : ℕ) (part : Str) (parts : List (ℕ × Str)) : List (ℕ × Str) :=
  (i, part) :: parts.filter (·.1 != i)

/-- `HashMap.get`. -/
def getPart (parts : List (ℕ × Str)) (i : ℕ) : Option Str :=
  (parts.find? (·.1 == i)).map Prod.snd

/-- The value of a Java `int`. -/
def toInt32 (z : ℤ) : ℤ := z.bmod (2 ^ 32)

/-- `ByteBuffer.put`, one part after the other; fails when the buffer is full. -/
def putAll (capacity : ℕ) : List Str → Str → Option Str
  | [], content => some content
  | part :: parts, content =>
    if content.length + part.length ≤ capacity then putAll capacity parts (content ++ part)
    else none

/-- The concatenation of the parts; `none` on an exception: a part is missing, the `int`
that holds the total size is negative, or it is too small. -/
def concatenate (parts : List (ℕ × Str)) : Option Str := do
  let blobs ← (List.range parts.length).mapM (getPart parts)
  let totalSize := blobs.foldl (fun size blob => toInt32 (size + blob.length)) 0
  if totalSize < 0 then none else putAll totalSize.toNat blobs []

namespace Fetch

variable {names : NameLibrary}

/-- A fetcher that has not started. -/
def new (names : NameLibrary) : Fetch names where
  contentParts_ := []
  finalSegmentNumber := longMaxValue
  inFlight := 0
  lastRequestedSegment := 0
  lastSegmentFetched := false
  complete := false
  pending := []
  callbacks := []

/-- `OnComplete.onComplete`, which returns. -/
def onComplete (content : Str) (s : Fetch names) : Fetch names :=
  { s with callbacks := s.callbacks ++ [.onComplete content] }

/-- `OnError.onError`. -/
def onError (errorCode : ErrorCode) (message : Str) (s : Fetch names) : Fetch names :=
  { s with callbacks := s.callbacks ++ [.onError errorCode message] }

/-- An interest goes out. -/
def expressInterest (name : names.Name) (s : Fetch names) : Fetch names :=
  { s with pending := s.pending ++ [name] }

/-- `endsWithSegmentNumber`. -/
def endsWithSegmentNumber (name : names.Name) : Bool := name.getLast?.any names.isSegment

/-- `haveAllSegments`. -/
def haveAllSegments (expectedNumberOfSegments : ℕ) (s : Fetch names) : Bool :=
  s.contentParts_.length == expectedNumberOfSegments + 1

/-- `fetchFirstSegment`. -/
def fetchFirstSegment (baseInterest : names.Name) (outcome : Except Str Unit) (s : Fetch names) :
    Fetch names :=
  let name := if !endsWithSegmentNumber baseInterest then baseInterest ++ [names.fromSegment 0]
    else baseInterest.dropLast ++ [names.fromSegment 0]
  match outcome with
  | .ok () => { s.expressInterest name with inFlight := s.inFlight + 1, lastRequestedSegment := 0 }
  | .error ex => s.onError .IO_ERROR ("I/O error fetching the first segment ".toList ++ ex)

/-- The condition of the loop of `fetchNextSegment`. -/
def wantsNext (s : Fetch names) : Prop :=
  s.inFlight < windowSize_ ∧ s.lastSegmentFetched = false ∧
    s.lastRequestedSegment < s.finalSegmentNumber

instance (s : Fetch names) : Decidable s.wantsNext :=
  inferInstanceAs (Decidable (s.inFlight < windowSize_ ∧ s.lastSegmentFetched = false ∧
    s.lastRequestedSegment < s.finalSegmentNumber))

/-- The body of the loop of `fetchNextSegment`. -/
def requestNext (dataName : names.Name) (outcome : Except Str Unit) (s : Fetch names) :
    Fetch names :=
  let name := dataName.dropLast ++ [names.fromSegment (s.lastRequestedSegment + 1)]
  match outcome with
  | .ok () =>
    { s.expressInterest name with
      inFlight := s.inFlight + 1, lastRequestedSegment := s.lastRequestedSegment + 1 }
  | .error ex => s.onError .IO_ERROR ("I/O error fetching the next segment ".toList ++ ex)

/-- `fetchNextSegment`; `none` if the loop is still running after the outcomes listed. -/
def fetchNextSegment (dataName : names.Name) : List (Except Str Unit) → Fetch names →
    Option (Fetch names)
  | [], s => if s.wantsNext then none else some s
  | outcome :: outcomes, s =>
    if s.wantsNext then fetchNextSegment dataName outcomes (s.requestNext dataName outcome)
    else some s

/-- The end of `onData`: fetch the next segments. -/
def continueFetch (dataName : names.Name) (outcomes : List (Except Str Unit)) (s : Fetch names) :
    Option (Fetch names) :=
  if s.lastRequestedSegment < s.finalSegmentNumber then
    fetchNextSegment dataName outcomes s
  else some s

/-- The part of `onData` for a FinalBlockId that could be read. -/
def finishOrContinue (currentSegment finalSegmentNumber : ℕ) (dataName : names.Name)
    (outcomes : List (Except Str Unit)) (s : Fetch names) : Option (Fetch names) :=
  let s := { s with
    finalSegmentNumber := finalSegmentNumber
    lastSegmentFetched := s.lastSegmentFetched || currentSegment == finalSegmentNumber }
  if s.lastSegmentFetched ∧ s.haveAllSegments finalSegmentNumber then
    match concatenate s.contentParts_ with
    | some content => some { s.onComplete content with complete := true }
    | none => some s
  else continueFetch dataName outcomes s

/-- `onData`, for a packet in answer to an interest that is no longer pending. An exception
of the concatenation ends the call. -/
def onData (verifySegment : Packet names → Bool) (outcomes : List (Except Str Unit))
    (data : Packet names) (s : Fetch names) : Option (Fetch names) :=
  let s := { s with inFlight := s.inFlight - 1 }
  if !verifySegment data then
    some (s.onError .SEGMENT_VERIFICATION_FAILED "Segment verification failed".toList)
  else match data.name.getLast? with
    | none => some (s.onError .DATA_HAS_NO_SEGMENT
        ("Got an unexpected packet without a segment number: ".toList ++ names.toUri data.name))
    | some lastComponent =>
      if !names.isSegment lastComponent then some (s.onError .DATA_HAS_NO_SEGMENT
        ("Got an unexpected packet without a segment number: ".toList ++ names.toUri data.name))
      else match names.toSegment lastComponent with
        | .error ex => some (s.onError .DATA_HAS_NO_SEGMENT
            ("Error decoding the name segment number ".toList ++
              names.toEscapedString lastComponent ++ ": ".toList ++ ex))
        | .ok currentSegment =>
          let s := { s with contentParts_ := putPart currentSegment data.content s.contentParts_ }
          match data.finalBlockId with
          | none => s.continueFetch data.name outcomes
          | some finalBlockId => match names.toSegment finalBlockId with
            | .error ex => some (s.onError .DATA_HAS_NO_SEGMENT
                ("Error decoding the FinalBlockId segment number ".toList ++
                  names.toEscapedString finalBlockId ++ ": ".toList ++ ex))
            | .ok finalSegmentNumber =>
              s.finishOrContinue currentSegment finalSegmentNumber data.name outcomes

/-- `DontVerifySegment`. -/
def dontVerifySegment (_ : Packet names) : Bool := true

end Fetch

/-! ### Concatenation -/

/-- Wrapping at every addition is wrapping once at the end. -/
theorem foldl_toInt32 (blobs : List Str) (size : ℤ) :
    blobs.foldl (fun size blob => toInt32 (size + blob.length)) (toInt32 size) =
      toInt32 (size + blobs.flatten.length) := by
  induction blobs generalizing size with
  | nil => simp
  | cons blob blobs ih =>
    have hwrap : toInt32 (toInt32 size + blob.length) = toInt32 (size + blob.length) :=
      Int.bmod_add_bmod
    rw [List.foldl_cons, hwrap, ih, List.flatten_cons, List.length_append]
    push_cast
    rw [add_assoc]

/-- Parts that are put one by one fill the buffer with their concatenation, if it fits. -/
theorem putAll_eq {capacity : ℕ} {content : Str} (h : content.length ≤ capacity)
    (parts : List Str) :
    putAll capacity parts content =
      if content.length + parts.flatten.length ≤ capacity then some (content ++ parts.flatten)
      else none := by
  -- over the parts: `put` throws at the first that does not fit, and then the whole does not
  induction parts generalizing content with
  | nil => simp [putAll, h]
  | cons part parts ih =>
    unfold putAll
    split
    · next hfits =>
      rw [ih (by simpa using hfits)]
      simp [Nat.add_assoc]
    · next hfull =>
      rw [if_neg]
      simp only [List.flatten_cons, List.length_append]
      omega

/-- A size below the bound is kept. -/
theorem toInt32_of_lt {k : ℕ} (h : k < 2 ^ 31) : toInt32 k = k := by
  unfold toInt32
  rw [Int.bmod_def]
  split <;> omega

theorem toInt32_lt (z : ℤ) : toInt32 z < 2 ^ 31 := Int.bmod_lt (by norm_num)

/-- Parts that are all there are concatenated if and only if they have less than 2³¹ bytes
together. -/
theorem concatenate_eq {parts : List (ℕ × Str)} {blobs : List Str}
    (hblobs : (List.range parts.length).mapM (getPart parts) = some blobs) :
    concatenate parts = if blobs.flatten.length < 2 ^ 31 then some blobs.flatten else none := by
  have hsize := foldl_toInt32 blobs 0
  have hzero : toInt32 0 = 0 := by decide
  rw [hzero, zero_add] at hsize
  unfold concatenate
  rw [hblobs, Option.bind_eq_bind, Option.bind_some, hsize]
  dsimp only
  rw [putAll_eq (Nat.zero_le _)]
  -- below `2 ^ 31` the sum of the lengths is exact, and the buffer is just large enough
  by_cases hlength : blobs.flatten.length < 2 ^ 31
  · have hfits : ([] : Str).length + blobs.flatten.length ≤ (blobs.flatten.length : ℤ).toNat := by
      rw [Int.toNat_natCast, List.length_nil, Nat.zero_add]
    rw [toInt32_of_lt hlength, if_neg (by omega), if_pos hlength, if_pos hfits]
    rfl
  · -- the sum has wrapped around, to a number that is less than it
    have hlt := toInt32_lt blobs.flatten.length
    rw [if_neg hlength]
    split
    · rfl
    · rw [if_neg]
      simp only [List.length_nil, Nat.zero_add]
      omega

/-- Parts that are all there are read in the order of the numbers. -/
theorem mapM_getPart {parts : List (ℕ × Str)} {f : ℕ → Str} {is : List ℕ}
    (h : ∀ i ∈ is, getPart parts i = some (f i)) :
    is.mapM (getPart parts) = some (is.map f) := by
  induction is with
  | nil => rfl
  | cons i is ih =>
    rw [List.mapM_cons, h i List.mem_cons_self, ih fun j hj => h j (List.mem_cons_of_mem _ hj)]
    rfl

/-- A part that was put is there. -/
theorem getPart_map {f : ℕ → Str} {is : List ℕ} {i : ℕ} (hi : i ∈ is) :
    getPart (is.map fun i => (i, f i)) i = some (f i) := by
  unfold getPart
  -- over the numbers: the first pair with this number has its part
  induction is with
  | nil => exact absurd hi List.not_mem_nil
  | cons j is ih =>
    rw [List.map_cons, List.find?_cons]
    by_cases hj : j = i
    · subst hj
      simp
    · rw [beq_false_of_ne hj]
      exact ih ((List.mem_cons.mp hi).resolve_left (Ne.symm hj))

/-- A part with a new number goes to the front. -/
theorem putPart_map {f : ℕ → Str} {is : List ℕ} {i : ℕ} (hi : i ∉ is) :
    putPart i (f i) (is.map fun i => (i, f i)) = (i :: is).map fun i => (i, f i) := by
  unfold putPart
  rw [List.map_cons, List.filter_eq_self.mpr]
  rintro e he
  obtain ⟨j, hj, rfl⟩ := List.mem_map.mp he
  have hne : j ≠ i := fun h => hi (h ▸ hj)
  simpa using hne

/-! ### The loop of `fetchNextSegment` -/

namespace Fetch

variable {names : NameLibrary} {dataName : names.Name} {outcomes : List (Except Str Unit)}
  {s s' : Fetch names}

/-- A packet with a segment number and a FinalBlockId. -/
theorem onData_of_segment {verifySegment : Packet names → Bool} {data : Packet names}
    {lastComponent finalBlockId : names.Component} {currentSegment finalSegmentNumber : ℕ}
    (hverify : verifySegment data = true) (hlast : data.name.getLast? = some lastComponent)
    (hsegment : names.isSegment lastComponent = true)
    (hcurrent : names.toSegment lastComponent = .ok currentSegment)
    (hfinal : data.finalBlockId = some finalBlockId)
    (hnumber : names.toSegment finalBlockId = .ok finalSegmentNumber) :
    s.onData verifySegment outcomes data =
      finishOrContinue currentSegment finalSegmentNumber data.name outcomes
        { s with
          inFlight := s.inFlight - 1
          contentParts_ := putPart currentSegment data.content s.contentParts_ } := by
  unfold onData
  simp only [hverify, Bool.not_true, Bool.false_eq_true, ↓reduceIte, hlast, hsegment, hcurrent,
    hfinal, hnumber]

/-- What a request keeps, the loop keeps; and it ends when nothing more is wanted. -/
theorem fetchNextSegment_induct {I : Fetch names → Prop} (hI : I s)
    (hstep : ∀ s, I s → s.wantsNext → I (s.requestNext dataName (.ok ())))
    (hok : ∀ outcome ∈ outcomes, outcome = .ok ())
    (h : fetchNextSegment dataName outcomes s = some s') : I s' ∧ ¬s'.wantsNext := by
  induction outcomes generalizing s with
  -- the loop ran out of outcomes: it stops only if nothing more is wanted
  | nil =>
    unfold fetchNextSegment at h
    split at h
    · exact absurd h (by simp)
    · next hend =>
      obtain rfl := Option.some.inj h
      exact ⟨hI, hend⟩
  | cons outcome outcomes ih =>
    unfold fetchNextSegment at h
    split at h
    -- one more round of the loop; `hok` says that its request did not throw
    · next hwants =>
      obtain rfl := hok outcome List.mem_cons_self
      exact ih (hstep s hI hwants) (fun o ho => hok o (List.mem_cons_of_mem _ ho)) h
    · next hend =>
      obtain rfl := Option.some.inj h
      exact ⟨hI, hend⟩

/-- As many successful requests as the window is wide end the loop. -/
theorem fetchNextSegment_isSome {k : ℕ} (h : windowSize_ - s.inFlight ≤ k) :
    (fetchNextSegment dataName (List.replicate k (.ok ())) s).isSome := by
  -- over the outcomes given: each request takes one place of the window
  induction k generalizing s with
  | zero =>
    have hend : ¬s.wantsNext := fun hwants => by
      have hroom := hwants.1
      omega
    rw [List.replicate_zero, fetchNextSegment, if_neg hend]
    rfl
  | succ k ih =>
    rw [List.replicate_succ, fetchNextSegment]
    split
    · refine ih ?_
      change windowSize_ - (s.inFlight + 1) ≤ k
      omega
    · rfl

/-- The method returns if its interests can be sent. -/
theorem finishOrContinue_isSome {currentSegment finalSegmentNumber k : ℕ}
    (h : windowSize_ - s.inFlight ≤ k) :
    (s.finishOrContinue currentSegment finalSegmentNumber dataName
      (List.replicate k (.ok ()))).isSome := by
  unfold finishOrContinue
  dsimp only
  split
  · split <;> rfl
  · unfold continueFetch
    split
    · exact fetchNextSegment_isSome h
    · rfl

end Fetch

end OpenGeoBase
