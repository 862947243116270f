import OpenGeoBase.Fes.FetchEvents

/-!
# The fetch manager of the front end

`NDNFetchManager.fetchData` runs one fetch for each of a list of names, up to four at a
time, on one face. Its callbacks count the fetches that have ended, and say nothing about
which of them have: the first loop goes on when fewer than four are in flight, and the
second one ends when as many have ended as there are names. An exception for a name that
cannot be requested ends both at once, whatever is in flight.

The books of the manager (`Books`) add up what the fetches have called back. Where each
fetch calls back once at most, as many calls as names mean that each has called back.
-/

namespace OpenGeoBase

open Text Transition

/-- A `char` made from a `byte`, which is signed. -/
def charOfByte (c : Char) : Char := if c.toNat < 128 then c else Char.ofNat (0xFF00 + c.toNat)

/-- `getStringElement`. -/
def getStringElement (contentBuffer : Str) : Str := contentBuffer.map charOfByte

/-- The manager, with the fetches it has started; `inside` while it is in `processEvents`, and
`caught` when an exception has ended the loops. -/
structure FetchManager (names : NameLibrary) where
  contentBuffers : List Str
  resultCount : ℕ
  querySent : ℕ
  inFlightQueries : ℤ
  fetches : List (Fetcher names)
  inside : Bool
  caught : Bool

/-- The number of fetches that run at a time. -/
def queryWindow : ℤ := 4

namespace FetchManager

variable {names : NameLibrary}

/-- `init`. -/
def init (names : NameLibrary) : FetchManager names where
  contentBuffers := []
  resultCount := 0
  querySent := 0
  inFlightQueries := 0
  fetches := []
  inside := false
  caught := false

/-- `onComplete` and `onError`, the same for names and for contents. -/
def onCallback (s : FetchManager names) : Callback → FetchManager names
  | .onError _ _ =>
    { s with resultCount := s.resultCount + 1, inFlightQueries := s.inFlightQueries - 1 }
  | .onComplete content =>
    { s with
      resultCount := s.resultCount + 1
      inFlightQueries := s.inFlightQueries - 1
      contentBuffers := s.contentBuffers ++ [getStringElement content] }

/-- A fetch has got somewhere, and its new callbacks are heard. -/
def advance (s : FetchManager names) (fetches : List (Fetcher names)) (f f' : Fetch names) :
    FetchManager names :=
  (f'.callbacks.drop f.callbacks.length).foldl onCallback { s with fetches := fetches }

/-- The name of the interest a fetch starts with; `none` on an exception, such as that of a name
without components, which has no last one. -/
def requestName (names : NameLibrary) (reqName : Str) : Option names.Name := do
  let name ← names.ofUri reqName
  let lastComponent ← name.getLast?
  pure (if !names.isSegment lastComponent then name ++ [names.fromSegment 0] else name)

/-- A fetch is started. -/
def startFetch (name : names.Name) (outcome : Except Str Unit) (s : FetchManager names) :
    FetchManager names :=
  let f := Fetcher.start name outcome
  let s := s.advance (s.fetches ++ [f]) (Fetch.new names) f.fetch
  { s with inFlightQueries := s.inFlightQueries + 1, querySent := s.querySent + 1 }

/-- One of the loops is about to call `processEvents`. -/
def Waits (n : ℕ) (s : FetchManager names) : Prop :=
  (s.inside = false ∧ s.caught = false) ∧
    (s.querySent < n ∧ ¬s.inFlightQueries < queryWindow ∨ n ≤ s.querySent ∧ s.resultCount < n)

/-- The loops have ended, of themselves or with an exception. -/
def Ended (n : ℕ) (s : FetchManager names) : Prop :=
  s.caught = true ∨ s.inside = false ∧ n ≤ s.querySent ∧ n ≤ s.resultCount

end FetchManager

/-- What can happen. -/
inductive ManagerOp (names : NameLibrary) where
  | fetch (outcome : Except Str Unit)
  | exception
  | processEvents
  | event (j : ℕ) (event : FetchEvent names)
  | returned

section System

variable {names : NameLibrary} (ndnRequestNameList : List Str)

/-- The steps of `fetchData`, and those of its fetches while it is in `processEvents`. -/
inductive ManagerStep : FetchManager names → ManagerOp names → FetchManager names → Prop where
  | fetch {s : FetchManager names} {reqName : Str} {name : names.Name} {outcome : Except Str Unit}
      (houtside : s.inside = false ∧ s.caught = false)
      (hget : ndnRequestNameList[s.querySent]? = some reqName)
      (hwindow : s.inFlightQueries < queryWindow)
      (hname : FetchManager.requestName names reqName = some name) :
    ManagerStep s (.fetch outcome) (s.startFetch name outcome)
  | exception {s : FetchManager names} {reqName : Str}
      (houtside : s.inside = false ∧ s.caught = false)
      (hget : ndnRequestNameList[s.querySent]? = some reqName)
      (hwindow : s.inFlightQueries < queryWindow)
      (hname : FetchManager.requestName names reqName = none) :
    ManagerStep s .exception { s with caught := true }
  | processEvents {s : FetchManager names} (hwaits : s.Waits ndnRequestNameList.length) :
    ManagerStep s .processEvents { s with inside := true }
  | event {s : FetchManager names} {before after : List (Fetcher names)} {f f' : Fetcher names}
      {event : FetchEvent names} (hinside : s.inside = true)
      (hfetches : s.fetches = before ++ f :: after)
      (hstep : EventStep Fetch.dontVerifySegment f event f') :
    ManagerStep s (.event before.length event)
      (s.advance (before ++ f' :: after) f.fetch f'.fetch)
  | returned {s : FetchManager names} (hinside : s.inside = true) :
    ManagerStep s .returned { s with inside := false }

/-- A call of `fetchData`. -/
def fetchData : System (FetchManager names) (ManagerOp names) where
  init s := s = .init names
  step := ManagerStep ndnRequestNameList

/-- The bytes of a fetch all of whose segments are there. -/
def obtained (f : Fetch names) : Option Str :=
  if f.lastSegmentFetched ∧ f.haveAllSegments f.finalSegmentNumber then concatenate f.contentParts_
  else none

/-- Whenever `processEvents` is called, the number of fetches in flight is from 0 to 4; and when
the loops have ended, every fetch has terminated and there is one result for each fetch that
has obtained its whole content. -/
def LosesNothing (n : ℕ) (s : FetchManager names) : Prop :=
  (s.Waits n → 0 ≤ s.inFlightQueries ∧ s.inFlightQueries ≤ 4) ∧
  (s.Ended n → s.fetches.length = n ∧ (∀ f ∈ s.fetches, f.fetch.callbacks ≠ []) ∧
    s.contentBuffers.Perm ((s.fetches.filterMap fun f => obtained f.fetch).map getStringElement))

/-- The events of each fetch are orderly, the `j`-th name being that of the bytes `contents j`. -/
def OrderlyFetches (contents : ℕ → Str) (s : FetchManager names) : ManagerOp names → Prop
  | .event j event => ∀ f reqName name, s.fetches[j]? = some f →
      ndnRequestNameList[j]? = some reqName →
      FetchManager.requestName names reqName = some name →
      Orderly Fetch.dontVerifySegment (baseName name) (contents j) f event
  | _ => True

/-- An interest of the `j`-th fetch is given up. -/
def givesUpIn (j : ℕ) (s : FetchManager names) : ManagerOp names → Bool
  | .event i event => i == j && (s.fetches[i]?.any fun f =>
      givesUp Fetch.dontVerifySegment f event)
  | _ => false

/-- The number of interests of the `j`-th fetch given up in a run. -/
def givenUpIn (j : ℕ) (h : List (FetchManager names × ManagerOp names)) : ℕ :=
  h.countP fun e => givesUpIn j e.1 e.2

end System

/-! ### The books of the manager -/

section Books

variable {names : NameLibrary} {ndnRequestNameList : List Str} {contents : ℕ → Str}

/-- A fetch of the bytes `T` that has given up `k` interests; one that has not even expressed its
first interest has given up none. -/
def FetchBooks (name : names.Name) (T : Str) (k : ℕ) (f : Fetcher names) : Prop :=
  (f.fetch.pending = [] ∧ f.fetch.lastSegmentFetched = false ∧
    ∃ message, f.fetch.callbacks = [.onError .IO_ERROR message]) ∨
  ∃ P D G, Fetcher.Accounts name T P D G f.fetch ∧ G.length = k

namespace FetchBooks

variable {name : names.Name} {T : Str} {k : ℕ} {f f' : Fetcher names}

/-- A fetch starts with its books in order, even if its first interest is not expressed. -/
theorem start (hne : T ≠ []) (baseInterest : names.Name) (outcome : Except Str Unit) :
    FetchBooks (baseName baseInterest) T 0 (Fetcher.start baseInterest outcome) := by
  cases outcome with
  | ok => exact Or.inr ⟨_, _, _, Fetcher.Accounts.start hne baseInterest, rfl⟩
  | error ex => exact Or.inl ⟨rfl, rfl, _, rfl⟩

/-- **One event of a fetch** keeps its books, and adds one if it gives an interest up. -/
theorem step (hnames : names.Segmented) (hlength : T.length < 2 ^ 31) (h : FetchBooks name T k f)
    {event : FetchEvent names} (horderly : Orderly Fetch.dontVerifySegment name T f event)
    (hstep : EventStep Fetch.dontVerifySegment f event f') :
    FetchBooks name T (k + if givesUp Fetch.dontVerifySegment f event then 1 else 0) f' := by
  rcases h with ⟨hpending, -⟩ | ⟨P, D, G, haccounts, rfl⟩
  · cases hstep with
    | data hmem => exact absurd (hpending ▸ hmem) List.not_mem_nil
    | timeout hmem => exact absurd (hpending ▸ hmem) List.not_mem_nil
    | nack hmem => exact absurd (hpending ▸ hmem) List.not_mem_nil
  · obtain ⟨P', D', G', haccounts', hG'⟩ := haccounts.step hnames hlength horderly hstep
    exact Or.inr ⟨P', D', G', haccounts', hG'⟩

/-- A fetch that has given up one interest at most has called back once at most. -/
theorem callbacks_le (h : FetchBooks name T k f) (hk : k ≤ 1) :
    f.fetch.callbacks.length ≤ 1 := by
  rcases h with ⟨-, -, message, hcallbacks⟩ | ⟨P, D, G, haccounts, rfl⟩
  · rw [hcallbacks]
    rfl
  · exact (haccounts.exactlyOneCallback hk 0).1

/-- What has been handed over is what has been obtained. -/
theorem obtained_eq (h : FetchBooks name T k f) (hlength : T.length < 2 ^ 31) :
    f.fetch.callbacks.filterMap Callback.content = (obtained f.fetch).toList := by
  unfold obtained
  -- a fetch that ended with its first interest has called back without a content
  rcases h with ⟨-, hlast, message, hcallbacks⟩ | ⟨P, D, G, haccounts, rfl⟩
  · rw [hcallbacks, if_neg fun h => by simp [hlast] at h]
    rfl
  · have hpos : 0 < segmentCount T := by
      have hrequested := haccounts.requested
      omega
    rw [haccounts.contents]
    by_cases hcount : D.length = segmentCount T
    -- all segments are there, and the fetch has found that out
    · have hD : D ≠ [] := List.ne_nil_of_length_pos (by omega)
      have hlast : f.fetch.lastSegmentFetched = true := by
        rw [haccounts.last, (haccounts.perm_range_of_length hcount).mem_iff, List.mem_range]
        omega
      have hparts : f.fetch.haveAllSegments f.fetch.finalSegmentNumber = true := by
        unfold Fetch.haveAllSegments
        rw [beq_iff_eq, haccounts.parts, haccounts.final hD, List.length_map]
        omega
      rw [if_pos hcount, if_pos ⟨hlast, hparts⟩, haccounts.parts,
        haccounts.concatenate_eq hcount, if_pos hlength]
      rfl
    -- or one is missing, and the numbers do not agree
    · rw [if_neg hcount, if_neg]
      · rfl
      · rintro ⟨hlast, hparts⟩
        have hD : D ≠ [] := List.ne_nil_of_mem (haccounts.last.mp hlast)
        unfold Fetch.haveAllSegments at hparts
        rw [beq_iff_eq, haccounts.parts, haccounts.final hD, List.length_map] at hparts
        omega

end FetchBooks

end Books

/-! ### What the manager counts -/

section Counts

variable {names : NameLibrary} {ndnRequestNameList : List Str} {s : FetchManager names}

/-- What a fetch has handed over. -/
def handedOver (f : Fetcher names) : List Str := f.fetch.callbacks.filterMap Callback.content

/-- The callbacks of the fetches, as the manager has heard them. -/
structure FetchManager.Counts (s : FetchManager names) : Prop where
  sent : s.fetches.length = s.querySent
  results : s.resultCount = (s.fetches.map fun f => f.fetch.callbacks.length).sum
  inFlight : s.inFlightQueries = (s.querySent : ℤ) - s.resultCount
  window : s.inFlightQueries ≤ queryWindow
  buffers : s.contentBuffers.Perm ((s.fetches.flatMap handedOver).map getStringElement)

namespace FetchManager

/-- What several calls of the callbacks come to. -/
theorem foldl_onCallback (calls : List Callback) (s : FetchManager names) :
    calls.foldl onCallback s =
      { s with
        resultCount := s.resultCount + calls.length
        inFlightQueries := s.inFlightQueries - calls.length
        contentBuffers := s.contentBuffers ++
          (calls.filterMap Callback.content).map getStringElement } := by
  induction calls generalizing s with
  | nil => simp
  | cons call calls ih =>
    rw [List.foldl_cons, ih]
    -- what the first call adds is counted with the others
    have hcount : s.resultCount + 1 + calls.length = s.resultCount + (call :: calls).length := by
      rw [List.length_cons]
      omega
    have hflight : s.inFlightQueries - 1 - calls.length =
        s.inFlightQueries - (call :: calls).length := by
      rw [List.length_cons]
      push_cast
      ring
    cases call with
    | onError errorCode message =>
      change FetchManager.mk _ (s.resultCount + 1 + _) _ (s.inFlightQueries - 1 - _) _ _ _ = _
      rw [hcount, hflight]
      rfl
    | onComplete content =>
      change FetchManager.mk ((_ ++ [_]) ++ _) (s.resultCount + 1 + _) _
        (s.inFlightQueries - 1 - _) _ _ _ = _
      rw [hcount, hflight, List.append_assoc]
      rfl

/-- What an advance does to the counts. -/
theorem advance_eq {fetches : List (Fetcher names)} {f f' : Fetch names} {calls : List Callback}
    (hcalls : f'.callbacks = f.callbacks ++ calls) :
    s.advance fetches f f' =
      { s with
        fetches := fetches
        resultCount := s.resultCount + calls.length
        inFlightQueries := s.inFlightQueries - calls.length
        contentBuffers := s.contentBuffers ++
          (calls.filterMap Callback.content).map getStringElement } := by
  unfold advance
  rw [hcalls, List.drop_left, foldl_onCallback]

namespace Counts

/-- The counters are those of no fetch at all. -/
theorem init : (FetchManager.init names).Counts where
  sent := rfl
  results := rfl
  inFlight := rfl
  window := by
    change (0 : ℤ) ≤ 4
    norm_num
  buffers := List.Perm.refl _

/-- A new fetch is counted. -/
theorem startFetch (h : s.Counts) (hwindow : s.inFlightQueries < queryWindow)
    (name : names.Name) (outcome : Except Str Unit) : (s.startFetch name outcome).Counts := by
  -- a new fetch has called back what `start` has called back
  have hcalls : (Fetcher.start name outcome).fetch.callbacks =
      (Fetch.new names).callbacks ++ (Fetcher.start name outcome).fetch.callbacks := rfl
  unfold FetchManager.startFetch
  dsimp only
  rw [advance_eq hcalls]
  refine ⟨?_, ?_, ?_, ?_, ?_⟩
  · change (s.fetches ++ [_]).length = s.querySent + 1
    rw [List.length_append, h.sent, List.length_singleton]
  · change _ = ((s.fetches ++ [_]).map _).sum
    rw [List.map_append, List.sum_append, ← h.results, List.map_singleton, List.sum_singleton]
  · have hflight := h.inFlight
    push_cast
    omega
  · change s.inFlightQueries - _ + 1 ≤ queryWindow
    omega
  · change List.Perm (_ ++ _) (((s.fetches ++ [_]).flatMap handedOver).map getStringElement)
    rw [List.flatMap_append, List.map_append, List.flatMap_singleton]
    exact h.buffers.append_right _

/-- What a fetch calls back is counted. -/
theorem advance (h : s.Counts) {before after : List (Fetcher names)} {f f' : Fetcher names}
    (hfetches : s.fetches = before ++ f :: after)
    (hmore : f.fetch.callbacks <+: f'.fetch.callbacks) :
    (s.advance (before ++ f' :: after) f.fetch f'.fetch).Counts := by
  obtain ⟨calls, hcalls⟩ := hmore
  have hsent := h.sent
  have hresults := h.results
  have hflight := h.inFlight
  have hbuffers := h.buffers
  -- the sums over the fetches change at one place, by what its callbacks add
  rw [hfetches] at hsent hresults hbuffers
  rw [advance_eq hcalls.symm]
  refine ⟨?_, ?_, ?_, ?_, ?_⟩
  · rw [← hsent, List.length_append, List.length_append, List.length_cons, List.length_cons]
  · rw [List.map_append, List.map_cons, List.sum_append, List.sum_cons] at hresults ⊢
    change s.resultCount + _ = _
    rw [hresults, ← hcalls, List.length_append]
    omega
  · push_cast
    omega
  · have hwindow := h.window
    change s.inFlightQueries - _ ≤ queryWindow
    omega
  · -- what is handed over now comes last in the results, and after its fetch in the books
    refine (hbuffers.append_right _).trans ?_
    have hover : handedOver f' = handedOver f ++ calls.filterMap Callback.content := by
      unfold handedOver
      rw [← hcalls, List.filterMap_append]
    rw [List.flatMap_append, List.flatMap_cons, List.flatMap_append, List.flatMap_cons, hover,
      ← List.map_append]
    refine List.Perm.map _ ?_
    rw [List.append_assoc, List.append_assoc, List.append_assoc]
    exact (List.perm_append_comm.append_left _).append_left _

end Counts

/-- The manager counts what it hears. -/
theorem Counts.of_run {h : List (FetchManager names × ManagerOp names)}
    (hrun : Run (fetchData ndnRequestNameList) h s) : s.Counts := by
  refine hrun.invariant' (fun s hinit => ?_) fun s op s' hcounts hstep => ?_
  -- no step but the start of a fetch and its events touches what is counted
  · change s = .init names at hinit
    rw [hinit]
    exact .init
  · cases hstep with
    | fetch _ _ hwindow => exact hcounts.startFetch hwindow _ _
    | exception => exact ⟨hcounts.1, hcounts.2, hcounts.3, hcounts.4, hcounts.5⟩
    | processEvents => exact ⟨hcounts.1, hcounts.2, hcounts.3, hcounts.4, hcounts.5⟩
    | event _ hfetches hstep => exact hcounts.advance hfetches hstep.callbacks_prefix
    | returned => exact ⟨hcounts.1, hcounts.2, hcounts.3, hcounts.4, hcounts.5⟩

end FetchManager

end Counts

/-! ### No result is lost -/

section Runs

variable {names : NameLibrary} {ndnRequestNameList : List Str} {contents : ℕ → Str}
  {h : List (FetchManager names × ManagerOp names)} {s : FetchManager names}

/-- The calls of a fetch leave the list of fetches alone. -/
theorem FetchManager.fetches_advance (fetches : List (Fetcher names)) (f f' : Fetch names) :
    (s.advance fetches f f').fetches = fetches := by
  unfold FetchManager.advance
  rw [FetchManager.foldl_onCallback]

theorem FetchManager.fetches_startFetch (name : names.Name) (outcome : Except Str Unit) :
    (s.startFetch name outcome).fetches = s.fetches ++ [Fetcher.start name outcome] :=
  fetches_advance _ _ _

/-- One more step gives up one more interest, or none. -/
theorem givenUpIn_snoc (j : ℕ) (op : ManagerOp names) :
    givenUpIn j (h ++ [(s, op)]) = givenUpIn j h + if givesUpIn j s op then 1 else 0 := by
  unfold givenUpIn
  rw [List.countP_append, List.countP_singleton]

/-- Each fetch has its books, with as many interests given up as the run says. -/
def Books (ndnRequestNameList : List Str) (contents : ℕ → Str)
    (h : List (FetchManager names × ManagerOp names)) (fetches : List (Fetcher names)) : Prop :=
  (∀ j f, fetches[j]? = some f → ∃ reqName name, ndnRequestNameList[j]? = some reqName ∧
    FetchManager.requestName names reqName = some name ∧
    FetchBooks (baseName name) (contents j) (givenUpIn j h) f) ∧
  ∀ j, fetches.length ≤ j → givenUpIn j h = 0

namespace Books

/-- A step that no fetch takes part in. -/
theorem of_other {fetches : List (Fetcher names)} (hbooks : Books ndnRequestNameList contents h
    fetches) {op : ManagerOp names} (hop : ∀ j, givesUpIn j s op = false) :
    Books ndnRequestNameList contents (h ++ [(s, op)]) fetches := by
  have hsame : ∀ j, givenUpIn j (h ++ [(s, op)]) = givenUpIn j h := fun j => by
    rw [givenUpIn_snoc, hop j]
    rfl
  refine ⟨fun j f hf => ?_, fun j hj => ?_⟩
  · rw [hsame]
    exact hbooks.1 j f hf
  · rw [hsame]
    exact hbooks.2 j hj

/-- A new fetch has given nothing up. -/
theorem snoc_start {fetches : List (Fetcher names)} (hbooks : Books ndnRequestNameList contents h
    fetches) (hne : ∀ j, contents j ≠ []) {reqName : Str} {name : names.Name}
    (hget : ndnRequestNameList[fetches.length]? = some reqName)
    (hname : FetchManager.requestName names reqName = some name) (outcome : Except Str Unit) :
    Books ndnRequestNameList contents h (fetches ++ [Fetcher.start name outcome]) := by
  refine ⟨fun j f hf => ?_, fun j hj => ?_⟩
  · rcases Nat.lt_or_ge j fetches.length with hlt | hge
    · rw [List.getElem?_append_left hlt] at hf
      exact hbooks.1 j f hf
    · obtain rfl : j = fetches.length := by
        have hlt := (List.getElem?_eq_some_iff.mp hf).1
        rw [List.length_append, List.length_singleton] at hlt
        omega
      rw [List.getElem?_concat_length, Option.some.injEq] at hf
      subst hf
      rw [hbooks.2 _ le_rfl]
      exact ⟨reqName, name, hget, hname, FetchBooks.start (hne _) name outcome⟩
  · rw [List.length_append] at hj
    exact hbooks.2 j (by omega)

/-- An event of one fetch. -/
theorem snoc_event {before after : List (Fetcher names)} {f f' : Fetcher names}
    (hfetches : s.fetches = before ++ f :: after)
    (hbooks : Books ndnRequestNameList contents h s.fetches) (hnames : names.Segmented)
    (hlength : ∀ j, (contents j).length < 2 ^ 31) {event : FetchEvent names}
    (horderly : OrderlyFetches ndnRequestNameList contents s (.event before.length event))
    (hstep : EventStep Fetch.dontVerifySegment f event f') :
    Books ndnRequestNameList contents (h ++ [(s, .event before.length event)])
      (before ++ f' :: after) := by
  have hget : s.fetches[before.length]? = some f := by
    rw [hfetches, List.getElem?_append_right le_rfl, Nat.sub_self, List.getElem?_cons_zero]
  -- the event belongs to one fetch, the others have given up what they had
  have hother : ∀ j, j ≠ before.length →
      givenUpIn j (h ++ [(s, .event before.length event)]) = givenUpIn j h := fun j hj => by
    rw [givenUpIn_snoc, if_neg, Nat.add_zero]
    change ¬(before.length == j && _) = true
    rw [beq_false_of_ne (Ne.symm hj), Bool.false_and]
    exact Bool.false_ne_true
  refine ⟨fun j f₁ hf₁ => ?_, fun j hj => ?_⟩
  -- the fetch of the event goes one step on, and the step counts what it gives up
  · by_cases hj : j = before.length
    · subst hj
      rw [List.getElem?_append_right le_rfl, Nat.sub_self, List.getElem?_cons_zero,
        Option.some.injEq] at hf₁
      subst hf₁
      obtain ⟨reqName, name, hreqName, hname, hfetch⟩ := hbooks.1 _ _ hget
      refine ⟨reqName, name, hreqName, hname, ?_⟩
      have hgives : givesUpIn before.length s (.event before.length event) =
          givesUp Fetch.dontVerifySegment f event := by
        change (before.length == before.length && s.fetches[before.length]?.any _) = _
        rw [hget, beq_self_eq_true, Bool.true_and]
        rfl
      rw [givenUpIn_snoc, hgives]
      exact hfetch.step hnames (hlength _) (horderly f reqName name hget hreqName hname) hstep
    · rw [hother j hj]
      refine hbooks.1 j f₁ ?_
      rw [← hf₁, hfetches]
      -- the other fetches stand where they stood in the list
      rcases Nat.lt_or_gt_of_ne hj with hlt | hgt
      · rw [List.getElem?_append_left hlt, List.getElem?_append_left hlt]
      · obtain ⟨k, rfl⟩ := Nat.exists_eq_add_of_lt hgt
        rw [List.getElem?_append_right (by omega), List.getElem?_append_right (by omega),
          show before.length + k + 1 - before.length = k + 1 by omega, List.getElem?_cons_succ,
          List.getElem?_cons_succ]
  · rw [List.length_append, List.length_cons] at hj
    rw [hother j (by omega)]
    refine hbooks.2 j ?_
    rw [hfetches, List.length_append, List.length_cons]
    exact hj

/-- At the end of a run each fetch has its books. -/
theorem of_run (hnames : names.Segmented) (hne : ∀ j, contents j ≠ [])
    (hlength : ∀ j, (contents j).length < 2 ^ 31)
    (hrun : Run (fetchData ndnRequestNameList) h s)
    (horderly : Admitted (OrderlyFetches ndnRequestNameList contents) h) :
    Books ndnRequestNameList contents h s.fetches := by
  induction hrun with
  | @nil s hinit =>
    change s = .init names at hinit
    rw [hinit]
    exact ⟨fun j f hf => by simp [FetchManager.init] at hf, fun j _ => rfl⟩
  | @snoc h s s' op hrun hstep ih =>
    -- the books are kept from one operation to the next
    rw [admitted_append_singleton] at horderly
    have hbooks := ih horderly.1
    cases hstep with
    | @fetch reqName name outcome _ hget _ hname =>
      rw [FetchManager.fetches_startFetch]
      rw [← (FetchManager.Counts.of_run hrun).sent] at hget
      exact (hbooks.snoc_start hne hget hname outcome).of_other fun _ => rfl
    | exception => exact hbooks.of_other fun _ => rfl
    | processEvents => exact hbooks.of_other fun _ => rfl
    | event _ hfetches hstep =>
      rw [FetchManager.fetches_advance]
      exact snoc_event hfetches hbooks hnames hlength horderly.2 hstep
    | returned => exact hbooks.of_other fun _ => rfl

/-- No more fetches are started than there are names. -/
theorem length_le {fetches : List (Fetcher names)}
    (hbooks : Books ndnRequestNameList contents h fetches) :
    fetches.length ≤ ndnRequestNameList.length := by
  by_contra hlt
  rw [not_le] at hlt
  obtain ⟨_, _, hreqName, _⟩ := hbooks.1 _ _ (List.getElem?_eq_getElem hlt)
  rw [List.getElem?_eq_none le_rfl] at hreqName
  exact absurd hreqName (by simp)

end Books

/-- Where each fetch has called back once at most, as many calls as fetches are one of each. -/
theorem sum_callbacks_le {fetches : List (Fetcher names)}
    (hone : ∀ f ∈ fetches, f.fetch.callbacks.length ≤ 1) :
    (fetches.map fun f => f.fetch.callbacks.length).sum ≤ fetches.length ∧
      (fetches.length ≤ (fetches.map fun f => f.fetch.callbacks.length).sum →
        ∀ f ∈ fetches, f.fetch.callbacks ≠ []) := by
  induction fetches with
  | nil => exact ⟨le_rfl, fun _ f hf => absurd hf List.not_mem_nil⟩
  | cons f fetches ih =>
    rw [List.forall_mem_cons] at hone
    have hrest := ih hone.2
    rw [List.map_cons, List.sum_cons, List.length_cons]
    refine ⟨by omega, fun hall => ?_⟩
    rw [List.forall_mem_cons]
    refine ⟨?_, hrest.2 (by omega)⟩
    rw [← List.length_pos_iff]
    omega

/-- No exception is caught where all names can be requested. -/
theorem FetchManager.caught_eq_false
    (hnamed : ∀ reqName ∈ ndnRequestNameList, requestName names reqName ≠ none)
    (hrun : Run (fetchData ndnRequestNameList) h s) : s.caught = false := by
  refine hrun.invariant' (I := fun s => s.caught = false) (fun s hinit => ?_)
    fun s op s' hlive hstep => ?_
  · change s = .init names at hinit
    rw [hinit]
    rfl
  -- only a name without a last component makes `fetchData` throw
  · cases hstep with
    | fetch =>
      unfold startFetch advance
      dsimp only
      rw [foldl_onCallback]
      exact hlive
    | exception _ hget _ hname => exact absurd hname (hnamed _ (List.mem_of_getElem? hget))
    | processEvents => exact hlive
    | event =>
      unfold advance
      rw [foldl_onCallback]
      exact hlive
    | returned => exact hlive

/-- Where no fetch gives up two interests, nothing is lost. -/
theorem LosesNothing.of_books (hcounts : s.Counts) (hcaught : s.caught = false)
    (hbooks : Books ndnRequestNameList contents h s.fetches)
    (hlength : ∀ j, (contents j).length < 2 ^ 31) (hgiven : ∀ j, givenUpIn j h ≤ 1) :
    LosesNothing ndnRequestNameList.length s := by
  -- each fetch has called back once at most, and handed over what it has obtained
  have hfetch : ∀ f ∈ s.fetches,
      f.fetch.callbacks.length ≤ 1 ∧ handedOver f = (obtained f.fetch).toList := by
    intro f hf
    obtain ⟨j, hj⟩ := List.mem_iff_getElem?.mp hf
    obtain ⟨_, _, _, _, hbook⟩ := hbooks.1 j f hj
    exact ⟨hbook.callbacks_le (hgiven j), hbook.obtained_eq (hlength j)⟩
  have hsum := sum_callbacks_le fun f hf => (hfetch f hf).1
  rw [← hcounts.results, hcounts.sent] at hsum
  have hflight := hcounts.inFlight
  have hsent := hcounts.sent
  -- the rest is counting: a fetch is in flight until it has called back
  refine ⟨fun _ => ⟨?_, hcounts.window⟩, fun hended => ?_⟩
  · omega
  · obtain ⟨-, hall, hresults⟩ := hended.resolve_left (by simp [hcaught])
    have hcount : s.fetches.length = ndnRequestNameList.length := by
      have hle := hbooks.length_le
      omega
    refine ⟨hcount, hsum.2 (by omega), ?_⟩
    have hobtained : s.fetches.flatMap handedOver =
        s.fetches.filterMap fun f => obtained f.fetch := by
      rw [List.filterMap_eq_flatMap_toList]
      exact List.flatMap_congr fun f hf => (hfetch f hf).2
    rw [← hobtained]
    exact hcounts.buffers

/-- **No result is lost.** Whatever the order of the events, with names that can be requested, with
packets that are dropped or are the segments asked for of byte strings of less than 2³¹ bytes, each
with the number of the last one, and no exception of `expressInterest` but at a first interest: if
no fetch gives up two interests, then whenever
`processEvents` is called there are from 0 to 4 fetches in flight, and when the loops end each
fetch has terminated and the results are those of the fetches that obtained their contents. -/
theorem fetchData_loses_nothing (hnames : names.Segmented) (hne : ∀ j, contents j ≠ [])
    (hlength : ∀ j, (contents j).length < 2 ^ 31)
    (hnamed : ∀ reqName ∈ ndnRequestNameList, FetchManager.requestName names reqName ≠ none)
    (hrun : Run (fetchData ndnRequestNameList) h s)
    (horderly : Admitted (OrderlyFetches ndnRequestNameList contents) h)
    (hgiven : ∀ j, givenUpIn j h ≤ 1) :
    Throughout (LosesNothing ndnRequestNameList.length) h s := by
  have hlast : ∀ {h : List (FetchManager names × ManagerOp names)} {s : FetchManager names},
      Run (fetchData ndnRequestNameList) h s →
      Admitted (OrderlyFetches ndnRequestNameList contents) h → (∀ j, givenUpIn j h ≤ 1) →
      LosesNothing ndnRequestNameList.length s := fun hrun horderly hgiven =>
    LosesNothing.of_books (.of_run hrun) (FetchManager.caught_eq_false hnamed hrun)
      (Books.of_run hnames hne hlength hrun horderly) hlength hgiven
  induction hrun with
  | nil hinit => exact throughout_nil.mpr (hlast (.nil hinit) horderly hgiven)
  | @snoc h s s' op hrun hstep ih =>
    rw [throughout_append_singleton]
    refine ⟨ih (admitted_append_singleton.mp horderly).1 fun j => ?_,
      hlast (hrun.snoc hstep) horderly hgiven⟩
    exact (List.Sublist.countP_le (List.sublist_append_left h _)).trans (hgiven j)

/-- The packet of a fetch of two bytes, which fit in one. -/
theorem fetchData_loses_nothing_packet :
    ∃ (h : List (FetchManager octetNames × ManagerOp octetNames)) (s : FetchManager octetNames),
      h.length = 4 ∧ Run (fetchData ["/a".toList]) h s ∧ s.Ended 1 ∧
      Throughout (LosesNothing 1) h s := by
  let T := "[]".toList
  have hne : T ≠ [] := by decide
  have hone : segmentCount T = 1 :=
    le_antisymm (segmentCount_le_iff.mpr (by decide)) (segmentCount_pos hne)
  let name : octetNames.Name := [[97], octetNames.fromSegment 0]
  have hname : FetchManager.requestName octetNames "/a".toList = some name := rfl
  have hstart := Fetcher.Accounts.start hne name
  have hmem : (0 : ℕ) ∈ [0] := List.mem_singleton_self 0
  have hverify : Fetch.dontVerifySegment (segmentPacket octetNames (baseName name) T 0) = true :=
    rfl
  obtain ⟨f, hf⟩ := Option.isSome_iff_exists.mp
    ((hstart.settle hmem).onData_isSome octetNames_segmented (by decide) hmem hverify)
  have hok : ∀ outcome ∈ List.replicate 8 (Except.ok () : Except Str Unit), outcome = .ok () :=
    fun outcome ho => List.eq_of_mem_replicate ho
  have hcalls : f.callbacks = [] ++ [.onComplete T] := by
    obtain ⟨_, -, -, hcalls⟩ := (hstart.settle hmem).deliver octetNames_segmented (by decide) hmem
      hverify hok hf
    rw [if_pos ⟨hone.symm, by decide⟩] at hcalls
    exact hcalls.1
  -- the four steps
  have hrun : Run (fetchData ["/a".toList]) [] (.init octetNames) := .nil rfl
  let s₁ := (FetchManager.init octetNames).startFetch name (.ok ())
  have hfetch : ManagerStep ["/a".toList] (.init octetNames) (.fetch (.ok ())) s₁ :=
    .fetch ⟨rfl, rfl⟩ rfl (by decide) hname
  have hrun₂ := (hrun.snoc hfetch).snoc (.processEvents ⟨⟨rfl, rfl⟩, Or.inr ⟨le_rfl, by decide⟩⟩)
  have hpending := hstart.pending.mem_iff.mpr (List.mem_map_of_mem hmem)
  have hstep := EventStep.data hpending (List.prefix_refl _) hf
  let others : List (Fetcher octetNames) := []
  have hevent : ManagerStep ["/a".toList] { s₁ with inside := true }
      (.event others.length (.data (segmentName octetNames (baseName name) 0) _ _))
      (.advance _ (others ++ ⟨f, 0⟩ :: others) _ f) := .event rfl rfl hstep
  rw [FetchManager.advance_eq hcalls] at hevent
  have hrun₄ := (hrun₂.snoc hevent).snoc (.returned rfl)
  let contents : ℕ → Str := fun _ => T
  have hcontents : ∀ j, contents j ≠ [] := fun _ => hne
  refine ⟨_, _, rfl, hrun₄, Or.inr ⟨rfl, le_rfl, le_rfl⟩, fetchData_loses_nothing
    octetNames_segmented hcontents (fun _ => by decide) ?_ hrun₄ ?_ fun j => ?_⟩
  · exact List.forall_mem_singleton.mpr (by rw [hname]; exact Option.some_ne_none name)
  · simp only [admitted_append_singleton, admitted_nil]
    refine ⟨⟨⟨⟨trivial, trivial⟩, trivial⟩, ?_⟩, trivial⟩
    intro _ reqName name' _ hreqName hname'
    obtain rfl : "/a".toList = reqName := Option.some.inj hreqName
    obtain rfl : name = name' := Option.some.inj (hname.symm.trans hname')
    exact Or.inr ⟨⟨0, segmentCount_pos hne, rfl, rfl⟩, hok⟩
  · rw [givenUpIn_snoc, givenUpIn_snoc, givenUpIn_snoc, givenUpIn_snoc]
    change 0 + 0 + 0 + (if _ then 1 else 0) + 0 ≤ 1
    split <;> omega

variable (ndnRequestNameList) in
/-- A nack of a fetch that is not complete counts as a result. -/
theorem ManagerStep.exists_nack (before : List (Fetcher names)) {after : List (Fetcher names)}
    {f : Fetcher names} (hinside : s.inside = true) (hfetches : s.fetches = before ++ f :: after)
    {interest : names.Name} (hpending : interest ∈ f.fetch.pending)
    (hopen : f.fetch.complete = false) :
    ∃ s' f', ManagerStep ndnRequestNameList s (.event before.length (.nack interest)) s' ∧
      s'.inside = true ∧ s'.fetches = before ++ f' :: after ∧
      f'.fetch.pending = f.fetch.pending.erase interest ∧ f'.fetch.complete = false ∧
      s'.querySent = s.querySent ∧ s'.resultCount = s.resultCount + 1 := by
  obtain ⟨f', hstep, hpending', hopen', hcount⟩ :=
    OpenGeoBase.exists_nack Fetch.dontVerifySegment hpending hopen
  obtain ⟨calls, hcalls⟩ := hstep.callbacks_prefix
  have hone : calls.length = 1 := by
    rw [← hcalls, List.length_append] at hcount
    omega
  refine ⟨_, f', ManagerStep.event hinside hfetches hstep, ?_⟩
  rw [FetchManager.advance_eq hcalls.symm, hone]
  exact ⟨hinside, rfl, hpending', hopen', rfl, rfl⟩

/-- The first of two fetches is answered by two nacks; the second one has not been heard of. -/
theorem second_fetch_lost :
    ∃ (h : List (FetchManager octetNames × ManagerOp octetNames)) (s : FetchManager octetNames),
      Run (fetchData ["/a".toList, "/b".toList]) h s ∧ ¬LosesNothing 2 s := by
  let names := ["/a".toList, "/b".toList]
  let a (k : ℕ) : octetNames.Name := [[97], octetNames.fromSegment k]
  let b (k : ℕ) : octetNames.Name := [[98], octetNames.fromSegment k]
  -- both fetches are started
  let s₁ := (FetchManager.init octetNames).startFetch (a 0) (.ok ())
  let s₂ := s₁.startFetch (b 0) (.ok ())
  have hrun : Run (fetchData names) [] (.init octetNames) := .nil rfl
  have hstep₁ : ManagerStep names (.init octetNames) (.fetch (.ok ())) s₁ :=
    .fetch ⟨rfl, rfl⟩ rfl (by decide) rfl
  have hstep₂ : ManagerStep names s₁ (.fetch (.ok ())) s₂ := .fetch ⟨rfl, rfl⟩ rfl (by decide) rfl
  have hstep₃ : ManagerStep names s₂ .processEvents { s₂ with inside := true } :=
    .processEvents ⟨⟨rfl, rfl⟩, Or.inr ⟨le_rfl, by decide⟩⟩
  -- the first packet of the first one arrives, and it asks for two more
  let first : Packet octetNames := ⟨a 0, ['a'], some (octetNames.fromSegment 2)⟩
  obtain ⟨f, hf, hpending, hopen, hcallbacks⟩ : ∃ f : Fetch octetNames,
      (Fetcher.settle (a 0) (Fetcher.start (a 0) (.ok ())).fetch).onData
        Fetch.dontVerifySegment [.ok (), .ok ()] first = some f ∧
        f.pending = [a 1, a 2] ∧ f.complete = false ∧ f.callbacks = [] :=
    ⟨_, rfl, rfl, rfl, rfl⟩
  have hdata : EventStep Fetch.dontVerifySegment (Fetcher.start (a 0) (.ok ()))
      (.data (a 0) first [.ok (), .ok ()]) ⟨f, 0⟩ :=
    .data (List.mem_singleton_self _) (List.prefix_refl _) hf
  let before : List (Fetcher octetNames) := []
  let s₄ : FetchManager octetNames :=
    { s₂ with inside := true, fetches := [⟨f, 0⟩, Fetcher.start (b 0) (.ok ())] }
  have hstep₄ : ManagerStep names { s₂ with inside := true }
      (.event before.length (.data (a 0) first [.ok (), .ok ()])) s₄ := by
    have hevent : ManagerStep names { s₂ with inside := true } (.event before.length _) _ :=
      .event rfl rfl hdata
    have hsame : f.callbacks = (Fetcher.start (a 0) (.ok ())).fetch.callbacks ++ [] := hcallbacks
    rw [FetchManager.advance_eq hsame] at hevent
    exact hevent
  -- both interests of the first fetch are answered by a nack
  obtain ⟨s₅, f₅, hstep₅, hinside₅, hfetches₅, hpending₅, hopen₅, hsent₅, hresults₅⟩ :=
    ManagerStep.exists_nack names before (f := ⟨f, 0⟩) (s := s₄) rfl rfl
      (hpending ▸ List.mem_cons_self) hopen
  have hmem : a 2 ∈ f₅.fetch.pending := by
    rw [hpending₅, hpending, List.erase_cons_head]
    exact List.mem_singleton_self _
  obtain ⟨s₆, f₆, hstep₆, hinside₆, hfetches₆, -, -, hsent₆, hresults₆⟩ :=
    ManagerStep.exists_nack names before hinside₅ hfetches₅ hmem hopen₅
  have hrun₄ := (((hrun.snoc hstep₁).snoc hstep₂).snoc hstep₃).snoc hstep₄
  refine ⟨_, _, ((hrun₄.snoc hstep₅).snoc hstep₆).snoc (.returned hinside₆), fun hnothing => ?_⟩
  have hended : ({ s₆ with inside := false } : FetchManager octetNames).Ended 2 :=
    Or.inr ⟨rfl, by rw [hsent₆, hsent₅]; exact le_rfl, by rw [hresults₆, hresults₅]; exact le_rfl⟩
  -- the results are two, but the second fetch has not called back
  have hsecond : Fetcher.start (b 0) (.ok ()) ∈ s₆.fetches := by
    rw [hfetches₆]
    exact List.mem_cons_of_mem _ (List.mem_singleton_self _)
  exact (hnothing.2 hended).2.1 _ hsecond rfl

end Runs

end OpenGeoBase
