import OpenGeoBase.Fes.FetchRun
import OpenGeoBase.Repo.IndexUpdate

/-!
# Fetching the list of the advertised names

A front end that learns of a new version fetches the list of the advertised names, and
the index may be updated while it does. The repository reads the list off the database
anew for each segment, and nothing in a packet says which list it is a segment of. (A
query that is asked for again is answered from the cache; the list of names is not.)

`Snapshot` is the invariant of the fetches that get one list: all packets answered so far
are segments of a list the repository has had, which is the one it has now or one all of
whose segments have been answered. An update keeps it if it leaves the answered segments as
they are. One that does not makes the front end put a list together that never was, as in
`torn_prefix_list`: the fetch has got the first segment when the first name is taken out
of the index.
-/

namespace OpenGeoBase

open Text AtomicCalls Collection Transition

/-! ### The system -/

/-- The index is updated: an object comes in, or goes. -/
def IndexUpdate (threshold : ℤ) (db db' : Db) : Prop :=
  ∃ sorts bound coordSet isDeletion,
    (updateIndex threshold sorts bound coordSet isDeletion).run db = (.returned, db')

/-- One fetch of the list of the advertised names, while the index is updated. -/
def prefixFetch {names : NameLibrary} (reponame : Str) (toJson : Str → Str) (threshold : ℤ)
    (baseInterest : names.Name) : System (FetchState names Db) (FetchOp names Db) :=
  segmentFetch (versionReply reponame toJson) (IndexUpdate threshold) baseInterest

section Snapshot

variable {names : NameLibrary} {σ : Type}

/-- What is handed over is a reply the repository has had during the fetch. -/
def DeliversReply (s : FetchState names σ) : Prop :=
  ∀ content, Callback.onComplete content ∈ s.fetch.callbacks → content ∈ s.texts

/-- As many packets have been answered as they say that there are. -/
def AllAnswered (s : FetchState names σ) : Prop :=
  ∃ data ∈ s.answered, ∃ finalBlockId, data.finalBlockId = some finalBlockId ∧
    names.toSegment finalBlockId = .ok (s.answered.length - 1)

/-- With this content, the repository answers the interests it has answered as it did. -/
def SameAnswers (s : FetchState names σ) (content : Str) : Prop :=
  ∀ data ∈ s.answered, ∃ cached, sendData names data.name content = some (data, cached)

/-- An update of the repository leaves the segments answered so far as they are, unless they
have all been answered. -/
def KeepsAnswers (text : σ → Str) (s : FetchState names σ) : FetchOp names σ → Prop
  | .update repo => SameAnswers s (text repo) ∨ AllAnswered s
  | .answer _ => True
  | .deliver _ => True

/-- All packets are segments of one reply: the one the repository has now, or one all of
whose segments have been answered. -/
def Snapshot (text : σ → Str) (baseInterest : names.Name) (s : FetchState names σ) : Prop :=
  ∃ T ∈ s.texts, ∃ P R D, Fetching (baseName baseInterest) T P R D s ∧
    (T = text s.repo ∨ R.length + D.length = segmentCount T)

variable {text : σ → Str} {update : σ → σ → Prop} {baseInterest : names.Name}
  {s s' : FetchState names σ} {op : FetchOp names σ}

/-- The front end does not see the repository change. -/
theorem Fetching.setRepo {name : names.Name} {T : Str} {P R D : List ℕ}
    (h : Fetching name T P R D s) (repo : σ) (texts : List Str) :
    Fetching name T P R D { s with repo := repo, texts := texts } where
  toFetchCore := h.toFetchCore
  replies := h.replies
  answered := h.answered
  bounded := h.bounded
  start := h.start
  full := h.full

/-- As many packets as announced are all there are. -/
theorem Fetching.count_of_allAnswered (hnames : names.Segmented) {name : names.Name} {T : Str}
    {P R D : List ℕ} (h : Fetching name T P R D s) (hall : AllAnswered s) :
    R.length + D.length = segmentCount T := by
  obtain ⟨data, hdata, finalBlockId, hfinal, hnumber⟩ := hall
  obtain ⟨i, hi, rfl⟩ := h.eq_segmentPacket_of_mem hdata
  have hcount := h.count_lt (List.ne_nil_of_mem hi)
  have hanswered : s.answered.length = R.length + D.length := by
    rw [h.answered.length_eq, List.length_map, List.length_append]
  have hpos : 0 < s.answered.length := List.length_pos_of_mem hdata
  have hrequested := h.requested
  -- the FinalBlockId is the number of the last segment
  obtain rfl : names.fromSegment (segmentCount T - 1) = finalBlockId := Option.some.inj hfinal
  rw [hnames.toSegment_fromSegment _ (by omega)] at hnumber
  have hlast := Except.ok.inj hnumber
  omega

/-- A fetch starts with nothing answered, so nothing can be torn. -/
theorem Snapshot.start (hne : ∀ repo, text repo ≠ []) (repo : σ) :
    Snapshot text baseInterest (.start text baseInterest repo) :=
  ⟨text repo, List.mem_singleton_self _, _, _, _,
    Fetching.of_start text baseInterest (hne repo), Or.inl rfl⟩

/-- What has been handed over is the reply of the snapshot. -/
theorem Snapshot.deliversReply (h : Snapshot text baseInterest s) : DeliversReply s := by
  obtain ⟨T, hT, P, R, D, hfetching, -⟩ := h
  intro content hcontent
  rw [hfetching.callbacks] at hcontent
  split at hcontent
  · obtain rfl := Callback.onComplete.inj (List.mem_singleton.mp hcontent)
    exact hT
  · exact absurd hcontent List.not_mem_nil

/-- The steps that leave the answered segments alone keep the snapshot. -/
theorem Snapshot.step (hnames : names.Segmented) (hne : ∀ repo, text repo ≠ [])
    (h : Snapshot text baseInterest s) (hkeeps : KeepsAnswers text s op)
    (hstep : FetchStep text update s op s') : Snapshot text baseInterest s' := by
  obtain ⟨T, hT, P, R, D, hfetching, hcurrent⟩ := h
  cases hstep with
  | @update repo hupdate =>
    rcases hkeeps with hsame | hall
    · -- the new reply might as well have been the one all along
      exact ⟨text repo, List.mem_append_right _ (List.mem_singleton_self _), P, R, D,
        (hfetching.change hnames (hne repo) hsame).setRepo repo _, Or.inl rfl⟩
    -- every segment has been answered, so the new text is never asked for
    · exact ⟨T, List.mem_append_left _ hT, P, R, D, hfetching.setRepo repo _,
        Or.inr (hfetching.count_of_allAnswered hnames hall)⟩
  | @answer data cached hpending hanswer =>
    rcases hcurrent with hcurrent | hcount
    -- the answer is of the text the fetch is bound to
    · rw [← hcurrent] at hanswer
      obtain ⟨i, -, hnext⟩ := hfetching.answer hnames hpending hanswer
      exact ⟨T, hT, _, _, _, hnext, Or.inl hcurrent⟩
    · -- nothing is left to be answered
      have hlength := hfetching.length_eq
      have hrequested := hfetching.requested
      have hnone : P = [] := List.eq_nil_of_length_eq_zero (by omega)
      have hempty := hfetching.pending
      rw [hnone] at hempty
      rw [hempty.eq_nil] at hpending
      exact absurd hpending List.not_mem_nil
  | deliver hreply hok hdata =>
    obtain ⟨P', i, hi, hnext⟩ := hfetching.deliver hnames hreply hok hdata
    refine ⟨T, hT, _, _, _, hnext, hcurrent.imp_right fun hcount => ?_⟩
    rw [List.length_cons, ← hcount, ← List.length_erase_add_one hi]
    ring

/-! ### An update between two segments -/

/-- What two segments say about the length of a list. -/
private theorem facts_of_two_segments {content : Str} (hcount : segmentCount content = 2) :
    content ≠ [] ∧ content.length ≤ 16000 ∧ content.length ≤ maxStringSize := by
  have hsize : content.length ≤ 16000 := segmentCount_le_iff.mp hcount.le
  refine ⟨?_, hsize, hsize.trans (by norm_num [maxStringSize])⟩
  rintro rfl
  exact absurd hcount (by simp [segmentCount])

/-- With the second of two segments the parts are put together. -/
theorem finishOrContinue_second {f : Fetch names} {first second : Str}
    (hparts : f.contentParts_ = [(1, second), (0, first)])
    (hsize : (first ++ second).length < 2 ^ 31) (dataName : names.Name)
    (outcomes : List (Except Str Unit)) :
    ∃ f', f.finishOrContinue 1 1 dataName outcomes = some f' ∧
      f'.callbacks = f.callbacks ++ [.onComplete (first ++ second)] := by
  have hall : concatenate [(1, second), (0, first)] = some (first ++ second) := by
    have hblobs : (List.range 2).mapM (getPart [(1, second), (0, first)]) =
        some [first, second] := rfl
    have hflatten : [first, second].flatten = first ++ second := by simp
    rw [concatenate_eq hblobs, hflatten, if_pos hsize]
  unfold Fetch.finishOrContinue Fetch.haveAllSegments
  simp only [hparts, hall, beq_self_eq_true, Bool.or_true, List.length_cons, List.length_nil,
    Nat.zero_add, Nat.reduceAdd, and_self, ↓reduceIte]
  exact ⟨_, rfl, rfl⟩

/-- The second of two segments is delivered. -/
theorem onData_second (hnames : names.Segmented) (name : names.Name) {T : Str} {first : Str}
    {f : Fetch names} (hcount : segmentCount T = 2) (hfirst : first.length ≤ MAX_SIZE_PACKET)
    (hparts : f.contentParts_ = [(0, first)]) :
    ∃ f', f.onData Fetch.dontVerifySegment [] (segmentPacket names name T 1) = some f' ∧
      f'.callbacks = f.callbacks ++ [.onComplete (first ++ segmentData T 1)] := by
  have hlast : (segmentPacket names name T 1).name.getLast? = some (names.fromSegment 1) :=
    List.getLast?_concat
  have hsecond := length_segmentData_le (show 1 < segmentCount T by omega)
  -- two segments stay far below what an `int` can count, so the content is handed over
  have hsize : (first ++ segmentData T 1).length < 2 ^ 31 := by
    rw [List.length_append]
    unfold MAX_SIZE_PACKET MAX_NDN_PACKET_SIZE at hfirst hsecond
    omega
  have hfinal : segmentCount T - 1 = 1 := by omega
  have hverify : Fetch.dontVerifySegment (segmentPacket names name T 1) = true := rfl
  rw [Fetch.onData_of_segment hverify hlast (hnames.isSegment_fromSegment 1 (by omega))
    (hnames.toSegment_fromSegment 1 (by omega)) rfl
    (hnames.toSegment_fromSegment (segmentCount T - 1) (by omega)), hfinal]
  refine finishOrContinue_second ?_ hsize _ []
  dsimp only [segmentPacket]
  rw [hparts]
  rfl

/-- After the first of two segments, the second is asked for. -/
theorem Fetching.second_pending {name : names.Name} {T : Str} {P : List ℕ}
    (h : Fetching name T P [] [0] s) (hcount : segmentCount T = 2) :
    segmentName names name 1 ∈ s.fetch.pending := by
  have hlength := h.length_eq
  have hrequested := h.requested
  have hflight := h.inFlight
  have hlast : s.fetch.lastRequestedSegment = 1 := by
    rcases h.full (List.cons_ne_nil _ _) with hfull | hlast
    · -- the window is wider than that
      exfalso
      rw [hfull] at hflight
      simp only [windowSize_, List.length_nil, List.length_singleton] at hflight hlength
      omega
    · rw [hlast, hcount]
  have hperm := h.perm
  -- with 0 delivered and nothing answered, 1 is among those awaited
  rw [hlast] at hperm
  have hone : 1 ∈ P ++ [] ++ [0] := hperm.mem_iff.mpr (by decide)
  have hP : 1 ∈ P := by simpa using hone
  exact h.pending.mem_iff.mpr (List.mem_map_of_mem hP)

variable (update) in
/-- A fetch of two segments comes to where it has got the first and asked for the second. -/
theorem exists_first_segment (hnames : names.Segmented) (baseInterest : names.Name) {repo : σ}
    (hcount : segmentCount (text repo) = 2) :
    ∃ h s, Run (segmentFetch text update baseInterest) h s ∧ h.length = 2 ∧
      Admitted (KeepsAnswers text) h ∧ s.repo = repo ∧ s.texts = [text repo] ∧
      s.answered = [segmentPacket names (baseName baseInterest) (text repo) 0] ∧
      segmentName names (baseName baseInterest) 1 ∈ s.fetch.pending ∧
      s.fetch.contentParts_ = [(0, segmentData (text repo) 0)] ∧ s.fetch.callbacks = [] := by
  obtain ⟨hne, -, hmax⟩ := facts_of_two_segments hcount
  have hok : ∀ outcome ∈ List.replicate 8 (Except.ok () : Except Str Unit), outcome = .ok () :=
    fun outcome ho => List.eq_of_mem_replicate ho
  have hzero : 0 < segmentCount (text repo) := by omega
  have hmem : (0 : ℕ) ∈ [0] := List.mem_singleton_self 0
  -- the first segment is asked for and answered
  have hstart := Fetching.of_start text baseInterest hne
  have hrun₀ : Run (segmentFetch text update baseInterest) [] (.start text baseInterest repo) :=
    Run.nil ⟨repo, rfl⟩
  have hpending : (segmentPacket names (baseName baseInterest) (text repo) 0).name ∈
      (FetchState.start text baseInterest repo).fetch.pending :=
    hstart.pending.mem_iff.mpr (List.mem_map_of_mem hmem)
  have hanswer := sendData_segment hnames hne hmax (baseName baseInterest) hzero
  have hrun₁ := hrun₀.snoc (FetchStep.answer hpending hanswer)
  obtain ⟨i, hi, hfetching₁⟩ := hstart.answer hnames hpending hanswer
  obtain rfl := List.mem_singleton.mp hi
  -- it is delivered, and the second segment is asked for
  have hverify : Fetch.dontVerifySegment
      (segmentPacket names (baseName baseInterest) (text repo) 0) = true := rfl
  obtain ⟨f, hf⟩ := Option.isSome_iff_exists.mp
    (hfetching₁.ledger.onData_isSome hnames hmax hmem hverify)
  have hreply := hfetching₁.replies.mem_iff.mpr
    (List.mem_map_of_mem (f := segmentPacket names (baseName baseInterest) (text repo)) hmem)
  have hrun₂ := hrun₁.snoc (FetchStep.deliver hreply hok hf)
  obtain ⟨P, i, hi, hfetching₂⟩ := hfetching₁.deliver hnames hreply hok hf
  obtain rfl := List.mem_singleton.mp hi
  refine ⟨_, _, hrun₂, rfl, ?_, rfl, rfl, rfl, hfetching₂.second_pending hcount,
    hfetching₂.parts, ?_⟩
  · exact admitted_append_singleton.mpr
      ⟨admitted_append_singleton.mpr ⟨admitted_nil _, trivial⟩, trivial⟩
  · rw [hfetching₂.callbacks, if_neg fun h => ?_]
    rw [hcount] at h
    exact absurd h.1 (by decide)

/-- If the reply has two segments and changes to one of two segments, the front end may end up
with the first segment of the one and the second segment of the other. Where the first segments
are the same, the change is one that keeps the answers. -/
theorem exists_fetch_across_update (hnames : names.Segmented) (baseInterest : names.Name)
    {repo repo' : σ} (hcount : segmentCount (text repo) = 2)
    (hcount' : segmentCount (text repo') = 2) (hupdate : update repo repo') :
    ∃ h s, Run (segmentFetch text update baseInterest) h s ∧ h.length = 5 ∧
      s.texts = [text repo, text repo'] ∧
      s.fetch.callbacks =
        [.onComplete (segmentData (text repo) 0 ++ segmentData (text repo') 1)] ∧
      (segmentData (text repo) 0 = segmentData (text repo') 0 →
        Admitted (KeepsAnswers text) h) := by
  obtain ⟨hne, hsize, hmax⟩ := facts_of_two_segments hcount'
  have hone : 1 < segmentCount (text repo') := by omega
  have hzero : 0 < segmentCount (text repo) := by omega
  obtain ⟨h, s, hrun, hlength, hadmitted, rfl, htexts, hanswered, hpending, hparts, hcallbacks⟩ :=
    exists_first_segment update hnames baseInterest hcount
  -- the repository changes and answers with the second segment of the new reply
  have hrun₁ := hrun.snoc (FetchStep.update hupdate)
  have hpending' : (segmentPacket names (baseName baseInterest) (text repo') 1).name ∈
      s.fetch.pending := hpending
  have hanswer := sendData_segment hnames hne hmax (baseName baseInterest) hone
  have hrun₂ := hrun₁.snoc (FetchStep.answer hpending' hanswer)
  -- which is put together with the first segment of the old one
  obtain ⟨f, hf, hf'⟩ := onData_second hnames (baseName baseInterest) hcount'
    (length_segmentData_le hzero)
    (f := { s.fetch with pending := s.fetch.pending.erase _ }) hparts
  refine ⟨_, _, hrun₂.snoc (FetchStep.deliver ?_ ?_ hf), ?_, ?_, ?_, fun hfirst => ?_⟩
  · exact List.mem_append_right _ (List.mem_singleton_self _)
  · exact fun outcome ho => absurd ho List.not_mem_nil
  · simp only [List.length_append, List.length_singleton, hlength]
  · change s.texts ++ [text repo'] = _
    rw [htexts]
    rfl
  · change f.callbacks = _
    rw [hf', hcallbacks]
    rfl
  · -- the one packet answered so far is a packet of the new reply too
    have hsame : SameAnswers s (text repo') := by
      intro data hdata
      rw [hanswered, List.mem_singleton] at hdata
      have hpacket : segmentPacket names (baseName baseInterest) (text s.repo) 0 =
          segmentPacket names (baseName baseInterest) (text repo') 0 := by
        unfold segmentPacket
        rw [hfirst, hcount, hcount']
      rw [hdata, hpacket]
      exact ⟨_, sendData_segment hnames hne hmax (baseName baseInterest) (by omega)⟩
    simp only [admitted_append_singleton]
    exact ⟨⟨⟨hadmitted, Or.inl hsame⟩, trivial⟩, trivial⟩

end Snapshot

/-! ### The list of names -/

/-- The reply with the version is never empty. -/
theorem versionReply_ne_nil (reponame : Str) (toJson : Str → Str) (db : Db) :
    versionReply reponame toJson db ≠ [] := by
  unfold versionReply
  simp

/-- **The list of names is one the repository has had** at some instant of the fetch, in every
run whose updates leave the segments answered so far as they are as long as there are
segments to be answered. -/
theorem prefix_fetch_snapshot {names : NameLibrary} (hnames : names.Segmented) {reponame : Str}
    {toJson : Str → Str} {threshold : ℤ} {baseInterest : names.Name}
    {h : List (FetchState names Db × FetchOp names Db)} {s : FetchState names Db}
    (hrun : Run (prefixFetch reponame toJson threshold baseInterest) h s)
    (hkeeps : Admitted (KeepsAnswers (versionReply reponame toJson)) h) :
    Throughout DeliversReply h s := by
  have hne := versionReply_ne_nil reponame toJson
  refine Run.throughout (I := Snapshot (versionReply reponame toJson) baseInterest) ?_ ?_ ?_ hrun
    hkeeps
  · rintro s ⟨repo, rfl⟩
    exact Snapshot.start hne repo
  · intro s hsnapshot
    exact hsnapshot.deliversReply
  · intro s op s' hsnapshot hop hstep
    exact hsnapshot.step hnames hne hop hstep

/-! ### A list that never was -/

section Example

/-- A point of whole degrees. -/
private def wholeDegrees (k : ℕ) : Coord := (((k / 24 : ℕ) : ℚ), ((k % 24 : ℕ) : ℚ))

/-- The tiles of a multipoint. -/
private def manyTiles : List Str := (List.range 480).map (coordName ∘ wholeDegrees)

private def degreeName (m : ℕ) : Str := padLeft '0' 3 (toDecimal m)

/-- The tiles of whole degrees have a level-2 name with zeros at the end. -/
private theorem coordName_wholeDegrees (k : ℕ) : coordName (wholeDegrees k) =
    path [degreeName (k / 24), degreeName (k % 24), ['0', '0'], ['0', '0']] := by
  -- a whole degree is a hundred hundredths, the unit the name is printed in
  have hgrid : ∀ m : ℕ, (m : ℚ) = ((100 * m : ℕ) : ℤ) / 100 := by
    intro m
    push_cast
    ring
  have haxis : ∀ m : ℕ, axisName ((100 * m : ℕ) : ℤ) = degreeName m := by
    intro m
    unfold axisName degreeName sign
    rw [Int.natAbs_natCast, Nat.mul_div_cancel_left m (by norm_num)]
    simp
  -- no tenths and no hundredths are left
  have hzero : ∀ m : ℕ, tenths ((100 * m : ℕ) : ℤ) = '0' ∧
      hundredths ((100 * m : ℕ) : ℤ) = '0' := by
    intro m
    unfold tenths hundredths
    rw [Int.natAbs_natCast]
    constructor
    · rw [show 100 * m / 10 % 10 = 0 by omega]
      rfl
    · rw [show 100 * m % 10 = 0 by omega]
      rfl
  unfold coordName wholeDegrees
  dsimp only
  rw [hgrid (k / 24), hgrid (k % 24), calculateLATLONName_grid, haxis, haxis, (hzero _).1,
    (hzero _).1, (hzero _).2, (hzero _).2]

/-- All components of these names are digits. -/
private theorem isDigits_of_mem {k : ℕ} {c : Str}
    (hc : c ∈ [degreeName (k / 24), degreeName (k % 24), ['0', '0'], ['0', '0']]) : IsDigits c := by
  have hzeros : IsDigits ['0', '0'] := (isDigits_toDecimal 0).append (isDigits_toDecimal 0)
  simp only [List.mem_cons, List.not_mem_nil, or_false] at hc
  rcases hc with rfl | rfl | rfl | rfl
  · exact (isDigits_toDecimal _).padLeft 3
  · exact (isDigits_toDecimal _).padLeft 3
  · exact hzeros
  · exact hzeros

/-- Different degrees have different names. -/
private theorem degreeName_injective {m m' : ℕ} (h : degreeName m = degreeName m') : m = m' := by
  have hvalue := congrArg digitsValue h
  unfold degreeName at hvalue
  rwa [digitsValue_padLeft, digitsValue_padLeft, digitsValue_toDecimal,
    digitsValue_toDecimal] at hvalue

/-- The tiles are all different. -/
private theorem manyTiles_nodup : manyTiles.Nodup := by
  refine List.Nodup.map ?_ List.nodup_range
  intro k k' h
  rw [Function.comp_apply, Function.comp_apply, coordName_wholeDegrees,
    coordName_wholeDegrees] at h
  have hcs := path_injective (fun c hc => (isDigits_of_mem hc).slashFree)
    (fun c hc => (isDigits_of_mem hc).slashFree) h
  simp only [List.cons.injEq, and_true] at hcs
  have hlon := degreeName_injective hcs.1
  have hlat := degreeName_injective hcs.2
  omega

private theorem length_manyTiles : manyTiles.length = 480 := by
  unfold manyTiles
  rw [List.length_map, List.length_range]

/-- Each of the tiles has a name of fourteen characters. -/
private theorem length_of_mem_manyTiles {n : Str} (h : n ∈ manyTiles) : n.length = 14 := by
  obtain ⟨k, hk, rfl⟩ := List.mem_map.mp h
  have hlength : ∀ m < 24, (degreeName m).length = 3 := by decide
  have hlt := List.mem_range.mp hk
  rw [Function.comp_apply, coordName_wholeDegrees]
  simp [path, hlength (k / 24) (by omega), hlength (k % 24) (by omega)]

/-- The names are plain, so the list holds them without an escape. -/
private theorem plainName_of_mem_manyTiles {n : Str} (h : n ∈ manyTiles) : PlainName n := by
  obtain ⟨k, hk, rfl⟩ := List.mem_map.mp h
  rw [Function.comp_apply, coordName_wholeDegrees]
  have hchars : ∀ c ∈ path [degreeName (k / 24), degreeName (k % 24), ['0', '0'], ['0', '0']],
      c = '/' ∨ c.isDigit = true := by
    intro c hc
    obtain ⟨s, hs, hc⟩ := List.mem_flatMap.mp hc
    exact (List.mem_cons.mp hc).imp_right (isDigits_of_mem hs c)
  refine ⟨fun hc => ?_, fun hc => ?_, fun hc => ?_⟩
  · exact absurd (hchars _ hc) (by decide)
  · exact absurd (hchars _ hc) (by decide)
  · exact absurd (hchars _ hc) (by decide)

/-! Both objects are stored, first the point and then the multipoint, and the point goes. -/

private def lonePoint : List Coord := pointIndex (12034 / 100) (4180 / 100)

private def loneName : Str := "/120/041/38/40".toList

private def anySorts (_ _ : ℕ) : CounterSort := .stable

private def storedLone : Db := ((updateIndex 480 anySorts 10 lonePoint false).run Db.empty).2

private def storedBoth : Db := (storedLone.addTiles manyTiles).bumpVersion

private def storedRest : Db := (storedBoth.deleteObject loneName).bumpVersion

/-- The point has the tile `loneName`, which is the only leaf and the only name. -/
private theorem storedLone_eval :
    lonePoint.map coordName = [loneName] ∧
      ((updateIndex 480 anySorts 10 lonePoint false).run Db.empty).1 = .returned ∧
      storedLone.indexNames = [loneName] ∧
      (storedLone.tiles 2 loneName).map TileDoc.counter = [1] ∧
      ∀ d ∈ storedLone.fullTileCollection,
        (d.level ≤ 1 → d.leaf = false) ∧ (d.level = 2 → d.key 2 = loneName) := by
  decide +kernel

private theorem map_coordName_lonePoint : lonePoint.map coordName = [loneName] :=
  storedLone_eval.1

/-- One point is an update of the empty index. -/
private theorem indexUpdate_storedLone : IndexUpdate 480 Db.empty storedLone :=
  ⟨anySorts, 10, lonePoint, false, Prod.ext storedLone_eval.2.1 rfl⟩

private theorem indexNames_storedLone : storedLone.indexNames = [loneName] :=
  storedLone_eval.2.2.1

private theorem leafAt_storedLone (l : ℕ) (m : Str) (hl : l ≤ 1) :
    storedLone.leafAt l m = false := by
  obtain ⟨-, -, -, -, htiles⟩ := storedLone_eval
  unfold Db.leafAt
  cases hd : (storedLone.tiles l m).head? with
  | none => rfl
  | some d =>
    obtain ⟨hmem, -, hlevel⟩ := (Db.mem_tiles_iff _ _ _).mp (List.mem_of_mem_head? hd)
    exact (htiles d hmem).1 (hlevel.trans_le hl)

private theorem tiles_storedLone {m : Str} (hm : m ≠ loneName) : storedLone.tiles 2 m = [] := by
  obtain ⟨-, -, -, -, htiles⟩ := storedLone_eval
  refine List.filter_eq_nil_iff.mpr fun d hd htile => hm ?_
  obtain ⟨hkey, hlevel⟩ := TileDoc.isTile_iff.mp htile
  rw [← hkey, (htiles d hd).2 hlevel]

private theorem loneName_notMem : loneName ∉ manyTiles := by
  intro h
  obtain ⟨k, hk, h⟩ := List.mem_map.mp h
  rw [Function.comp_apply, coordName_wholeDegrees] at h
  have hcs : loneName = path ["120".toList, "041".toList, "38".toList, "40".toList] := by decide
  rw [hcs] at h
  have hfree : ∀ c ∈ ["120".toList, "041".toList, "38".toList, "40".toList], SlashFree c := by
    unfold SlashFree
    decide
  have hcomponents := path_injective (fun c hc => (isDigits_of_mem hc).slashFree) hfree h
  simp at hcomponents

private theorem indexNames_addTiles_storedLone :
    (storedLone.addTiles manyTiles).indexNames = loneName :: manyTiles := by
  rw [indexNames_addTiles fun l m hl => leafAt_storedLone l m hl, indexNames_storedLone]
  rfl

/-- A number of tiles about the threshold is no reason to build the index again. -/
private theorem needTesselation_eq_false {n m : ℕ} (hn : 480 ≤ n) (hle : n ≤ 576) :
    needTesselation 480 n m = false := by
  have hlow : ¬((n : ℤ) : ℚ) < (480 : ℤ) * (8 / 10) := by
    have h : (480 : ℚ) ≤ n := by exact_mod_cast hn
    push_cast
    linarith
  have hhigh : ¬((n : ℤ) : ℚ) > (480 : ℤ) * (12 / 10) := by
    have h : (n : ℚ) ≤ 576 := by exact_mod_cast hle
    push_cast
    linarith
  unfold needTesselation
  rw [decide_eq_false hlow, decide_eq_false hhigh, Bool.or_self, Bool.false_and]

/-- New tiles come in, and not so many that the index is built again. -/
private theorem indexUpdate_addTiles {db : Db} {points : List Coord}
    {ts : List Str} (hts : points.map coordName = ts) (hfresh : db.Fresh ts) {n m : ℕ}
    (hcount : (db.addTiles ts).indexNames.length = n) (hcountOld : db.indexNames.length = m)
    (hlow : 480 ≤ n) (hhigh : n ≤ 576) (hne : n ≠ m) :
    IndexUpdate 480 db (db.addTiles ts).bumpVersion := by
  have hneed : needTesselation 480 n m = false := needTesselation_eq_false hlow hhigh
  subst hts
  have hrun : (indexTiles false (points ++ [])).run db = _ := run_indexTiles_fresh hfresh
  rw [List.append_nil, run_indexTiles_nil] at hrun
  rw [Db.indexNames, List.length_map] at hcount hcountOld
  refine ⟨anySorts, 10, points, false, ?_⟩
  rw [run_updateIndex_end (congrArg Prod.fst hrun), hrun, hcount, hcountOld]
  dsimp only
  rw [if_neg (by rw [hneed]; exact Bool.false_ne_true), if_pos (by exact_mod_cast hne)]

private theorem map_coordName_wholeDegrees :
    ((List.range 480).map wholeDegrees).map coordName = manyTiles := List.map_map

/-- The many tiles are an update of the index that holds the lone one. -/
private theorem indexUpdate_storedBoth : IndexUpdate 480 storedLone storedBoth := by
  have hfresh : storedLone.Fresh manyTiles := by
    refine ⟨fun u hu => tiles_storedLone ?_, manyTiles_nodup⟩
    rintro rfl
    exact loneName_notMem hu
  refine indexUpdate_addTiles map_coordName_wholeDegrees hfresh (n := 481) (m := 1) ?_ ?_
    (by decide) (by decide) (by decide)
  · rw [indexNames_addTiles_storedLone, List.length_cons, length_manyTiles]
  · rw [indexNames_storedLone]
    rfl

private theorem indexNames_storedBoth : storedBoth.indexNames = loneName :: manyTiles := by
  unfold storedBoth
  rw [indexNames_bumpVersion, indexNames_addTiles_storedLone]

private theorem isTileName_storedBoth {n : Str} (h : n ∈ loneName :: manyTiles) :
    IsTileName n := by
  rcases List.mem_cons.mp h with rfl | h
  · refine ⟨["120".toList, "041".toList, "38".toList, "40".toList], rfl, ?_, by decide⟩
    unfold SlashFree
    decide
  · obtain ⟨k, -, rfl⟩ := List.mem_map.mp h
    exact isTileName_calculateLATLONName _ _

private theorem indexNames_storedRest : storedRest.indexNames = manyTiles := by
  -- the lone tile is none of the many, so adding them leaves its document alone
  have htiles : storedBoth.tiles 2 loneName = storedLone.tiles 2 loneName := by
    have hne : ∀ t ∈ manyTiles, loneName ≠ levelName t (name10Of t) (name100Of t) 2 := by
      rintro t ht rfl
      exact loneName_notMem ht
    unfold storedBoth
    rw [tiles_bumpVersion, tiles_addTiles_of_ne _ _ _ le_rfl hne]
  obtain ⟨-, -, -, hcounter, -⟩ := storedLone_eval
  obtain ⟨d, ds, hd, hone, -⟩ := List.map_eq_cons_iff.mp hcounter
  have hparent : ∀ {m : ℕ} {s : Str}, IsPath m s → m ≠ 4 → s ∉ storedBoth.indexNames := by
    intro m s hs hm hmem
    rw [indexNames_storedBoth] at hmem
    exact hs.ne (isTileName_storedBoth hmem) hm rfl
  -- its counter is 1, so taking one object out takes the name out of the list
  have hdelete := indexNames_deleteObject (n := loneName) (d := d) (by rw [htiles, hd]; rfl)
    hone.le (hparent (isPath_name10Of _) (by decide)) (hparent (isPath_name100Of _) (by decide))
  unfold storedRest
  rw [indexNames_bumpVersion, hdelete, indexNames_storedBoth, List.erase_cons_head]

/-- Taking the lone tile away again is an update, too. -/
private theorem indexUpdate_storedRest : IndexUpdate 480 storedBoth storedRest := by
  obtain ⟨p, hp⟩ : ∃ p, lonePoint = [p] := ⟨_, rfl⟩
  -- the lone position is the one whose tile the lone object was stored under
  have hname : coordName p = loneName := by
    have hnames := map_coordName_lonePoint
    rw [hp] at hnames
    exact (List.cons.inj hnames).1
  have hrun := run_indexTiles_delete storedBoth p []
  rw [hname, run_indexTiles_nil] at hrun
  have hlength : ∀ {db : Db} {k : ℕ}, db.indexNames.length = k → db.indexCollection.length = k :=
    fun h => by rwa [Db.indexNames, List.length_map] at h
  -- 480 tiles are left, which is not above the threshold: the last index update may return
  have hcount : (storedBoth.deleteObject loneName).indexCollection.length = 480 := by
    have hrest := indexNames_storedRest
    unfold storedRest at hrest
    rw [indexNames_bumpVersion] at hrest
    exact hlength (by rw [hrest, length_manyTiles])
  have hcount₀ : storedBoth.indexCollection.length = 481 :=
    hlength (by rw [indexNames_storedBoth, List.length_cons, length_manyTiles])
  refine ⟨anySorts, 10, [p], true, ?_⟩
  rw [run_updateIndex_end (congrArg Prod.fst hrun), hrun, hcount, hcount₀]
  dsimp only
  have hneed : needTesselation 480 (480 : ℕ) (481 : ℕ) = false :=
    needTesselation_eq_false le_rfl (by decide)
  rw [if_neg (by rw [hneed]; exact Bool.false_ne_true), if_pos (by decide)]
  rfl

/-- The reply, spelled out. -/
private def listReply (ns : List Str) : Str :=
  "\x7b\"repo_name\": \"/repo/".toList ++ "lazio".toList ++ "\",\"prefix\": ".toList ++
    ("[".toList ++ (",".toList).intercalate (ns.map fun name => '"' :: name ++ ['"']) ++
      "]".toList) ++ "\x7d".toList

/-- The list with the lone tile, which is named first. -/
private theorem versionReply_storedBoth :
    versionReply "lazio".toList nameDocument storedBoth = listReply (loneName :: manyTiles) := by
  unfold listReply
  rw [versionReply_eq, indexNames_storedBoth]
  intro n hn
  rw [indexNames_storedBoth] at hn
  rcases List.mem_cons.mp hn with rfl | hn
  · unfold PlainName
    decide
  · exact plainName_of_mem_manyTiles hn

/-- The list without the lone tile, which begins with another name. -/
private theorem versionReply_storedRest :
    versionReply "lazio".toList nameDocument storedRest = listReply manyTiles := by
  unfold listReply
  rw [versionReply_eq, indexNames_storedRest]
  intro n hn
  rw [indexNames_storedRest] at hn
  exact plainName_of_mem_manyTiles hn

/-- The length of a list of names of one length. -/
private theorem length_intercalate {xs : List Str} (hne : xs ≠ []) (h : ∀ x ∈ xs, x.length = 16) :
    ((",".toList).intercalate xs).length + 1 = 17 * xs.length := by
  -- each name brings 16 characters and one comma, the last comma apart
  induction xs with
  | nil => exact absurd rfl hne
  | cons x xs ih =>
    have hx := h x List.mem_cons_self
    cases xs with
    | nil => simp [List.intercalate, hx]
    | cons y xs =>
      have ih' := ih (List.cons_ne_nil y xs) fun z hz => h z (List.mem_cons_of_mem x hz)
      have hsplit : (",".toList).intercalate (x :: y :: xs) =
          x ++ (",".toList ++ (",".toList).intercalate (y :: xs)) := by
        simp [List.intercalate]
      rw [hsplit, List.length_append, List.length_append, hx, List.length_cons]
      change 16 + (1 + _) + 1 = _
      omega

/-- The length of a reply with names of one length. -/
private theorem length_listReply {ns : List Str} (hne : ns ≠ []) (h : ∀ n ∈ ns, n.length = 14) :
    (listReply ns).length = 40 + 17 * ns.length := by
  have hquoted : ∀ x ∈ ns.map fun name => '"' :: name ++ ['"'], x.length = 16 := by
    intro x hx
    obtain ⟨n, hn, rfl⟩ := List.mem_map.mp hx
    simp [h n hn]
  have hlist := length_intercalate (by simpa using hne) hquoted
  rw [List.length_map] at hlist
  unfold listReply
  simp only [List.length_append]
  change 22 + 5 + 11 + (1 + _ + 1) + 1 = _
  omega

private theorem length_of_mem_storedBoth {n : Str} (h : n ∈ loneName :: manyTiles) :
    n.length = 14 := by
  rcases List.mem_cons.mp h with rfl | h
  · rfl
  · exact length_of_mem_manyTiles h

/-- The first character in which two such replies can differ. -/
private theorem getElem_listReply (c : Char) (s : Str) (ns : List Str) :
    (listReply (('/' :: c :: s) :: ns))[41]? = some c := by
  obtain ⟨r, hr⟩ : ∃ r, (",".toList).intercalate ((('/' :: c :: s) :: ns).map
      fun name => '"' :: name ++ ['"']) = '"' :: '/' :: c :: r := by
    cases ns with
    | nil => exact ⟨s ++ ['"'], by simp [List.intercalate]⟩
    | cons n ns =>
      refine ⟨s ++ ['"'] ++ (",".toList ++ (",".toList).intercalate
        ((n :: ns).map fun name => '"' :: name ++ ['"'])), ?_⟩
      simp [List.intercalate]
  unfold listReply
  rw [hr]
  rfl

/-- The two replies part where the first name is. -/
private theorem take_listReply_ne : (listReply (loneName :: manyTiles)).take 8000 ≠
    (listReply manyTiles).take 8000 := by
  have hrange : List.range 480 = 0 :: (List.range 479).map Nat.succ := List.range_succ_eq_map
  have hfirst : degreeName 0 = ['0', '0', '0'] := by decide
  have hmany : ∃ s ns, manyTiles = ('/' :: '0' :: s) :: ns := by
    unfold manyTiles
    rw [hrange, List.map_cons, Function.comp_apply, coordName_wholeDegrees, Nat.zero_div, hfirst]
    exact ⟨_, _, rfl⟩
  obtain ⟨s, ns, hns⟩ := hmany
  intro h
  -- the 42nd character of the reply is the first digit of the first name
  have hchar := congrArg (·[41]?) h
  rw [List.getElem?_take_of_lt (by norm_num), List.getElem?_take_of_lt (by norm_num), hns,
    getElem_listReply] at hchar
  have hlone : loneName = '/' :: '1' :: "20/041/38/40".toList := by decide
  rw [hlone, getElem_listReply] at hchar
  exact absurd hchar (by decide)

/-- The first reply takes two segments. -/
private theorem length_storedBoth : (listReply (loneName :: manyTiles)).length = 8217 := by
  rw [length_listReply (List.cons_ne_nil _ _) fun n => length_of_mem_storedBoth,
    List.length_cons, length_manyTiles]

private theorem length_storedRest : (listReply manyTiles).length = 8200 := by
  have hmany : manyTiles ≠ [] := List.ne_nil_of_length_pos (by rw [length_manyTiles]; norm_num)
  rw [length_listReply hmany fun n => length_of_mem_manyTiles, length_manyTiles]

/-- Between 8001 and 16000 characters there are two segments. -/
private theorem segmentCount_eq_two {content : Str} (hlow : 8000 < content.length)
    (hhigh : content.length ≤ 16000) : segmentCount content = 2 := by
  refine le_antisymm (segmentCount_le_iff.mpr hhigh) (not_lt.mp fun hless => ?_)
  have hone := segmentCount_le_iff.mp (Nat.lt_succ_iff.mp hless)
  unfold MAX_SIZE_PACKET MAX_NDN_PACKET_SIZE at hone
  omega

/-! The other way round, the multipoint is stored first, and the point comes in last: its name is
at the end of the list. -/

private def storedMany : Db := (Db.empty.addTiles manyTiles).bumpVersion

private def storedMore : Db := (storedMany.addTiles [loneName]).bumpVersion

private theorem indexNames_addTiles_empty : (Db.empty.addTiles manyTiles).indexNames = manyTiles :=
  indexNames_addTiles fun _ _ _ => rfl

private theorem indexNames_storedMany : storedMany.indexNames = manyTiles := by
  unfold storedMany
  rw [indexNames_bumpVersion, indexNames_addTiles_empty]

private theorem indexNames_addTiles_storedMany :
    (storedMany.addTiles [loneName]).indexNames = manyTiles ++ [loneName] := by
  -- no tile above those of the multipoint is a leaf
  have hleaf : ∀ l m, l ≤ 1 → storedMany.leafAt l m = false := by
    intro l m hl
    have hsame : storedMany.leafAt l m = (Db.empty.addTiles manyTiles).leafAt l m := by
      unfold storedMany Db.leafAt
      rw [tiles_bumpVersion]
    rw [hsame, leafAt_addTiles _ _ _ hl]
    rfl
  rw [indexNames_addTiles hleaf, indexNames_storedMany]

/-- The many tiles are an update of the empty index. -/
private theorem indexUpdate_storedMany : IndexUpdate 480 Db.empty storedMany := by
  refine indexUpdate_addTiles map_coordName_wholeDegrees ⟨fun _ _ => rfl, manyTiles_nodup⟩
    (n := 480) (m := 0) ?_ rfl (by decide) (by decide) (by decide)
  rw [indexNames_addTiles_empty, length_manyTiles]

/-- One more tile, which the list names at its end, is the next update. -/
private theorem indexUpdate_storedMore : IndexUpdate 480 storedMany storedMore := by
  have hfresh : storedMany.Fresh [loneName] := by
    refine ⟨fun u hu => ?_, List.nodup_singleton _⟩
    obtain rfl := List.mem_singleton.mp hu
    have hne : ∀ t ∈ manyTiles, loneName ≠ levelName t (name10Of t) (name100Of t) 2 := by
      rintro t ht rfl
      exact loneName_notMem ht
    unfold storedMany
    rw [tiles_bumpVersion, tiles_addTiles_of_ne _ _ _ le_rfl hne]
    rfl
  -- 480 names before the insert, 481 after it
  refine indexUpdate_addTiles map_coordName_lonePoint hfresh (n := 481) (m := 480) ?_ ?_
    (by decide) (by decide) (by decide)
  · rw [indexNames_addTiles_storedMany, List.length_append, length_manyTiles]
    rfl
  · rw [indexNames_storedMany, length_manyTiles]

/-- The reply that lists the many tiles. -/
private theorem versionReply_storedMany :
    versionReply "lazio".toList nameDocument storedMany = listReply manyTiles := by
  unfold listReply
  rw [versionReply_eq, indexNames_storedMany]
  intro n hn
  rw [indexNames_storedMany] at hn
  exact plainName_of_mem_manyTiles hn

/-- The list after that update, longer by one name. -/
private theorem versionReply_storedMore :
    versionReply "lazio".toList nameDocument storedMore = listReply (manyTiles ++ [loneName]) := by
  have hnames : storedMore.indexNames = manyTiles ++ [loneName] := by
    unfold storedMore
    rw [indexNames_bumpVersion, indexNames_addTiles_storedMany]
  unfold listReply
  rw [versionReply_eq, hnames]
  intro n hn
  rw [hnames, List.mem_append, List.mem_singleton] at hn
  rcases hn with hn | rfl
  · exact plainName_of_mem_manyTiles hn
  · unfold PlainName
    decide

private theorem length_storedMore : (listReply (manyTiles ++ [loneName])).length = 8217 := by
  rw [length_listReply (by simp) fun n hn => ?_, List.length_append, length_manyTiles]
  · rfl
  · exact length_of_mem_storedBoth (by simpa [or_comm] using hn)

/-- A name at the end leaves the beginning of the list as it is. -/
private theorem take_listReply_concat {ns : List Str} (hne : ns ≠ []) (n : Str) {k : ℕ}
    (hk : k + 2 ≤ (listReply ns).length) :
    (listReply (ns ++ [n])).take k = (listReply ns).take k := by
  -- both are the same up to the bracket that ends the list
  have hsplit : ∃ start rest rest', listReply ns = start ++ rest ∧
      listReply (ns ++ [n]) = start ++ rest' ∧ rest.length = 2 := by
    unfold listReply
    rw [List.map_append, List.map_singleton,
      intercalate_concat _ (by simpa using hne) ('"' :: n ++ ['"'])]
    exact ⟨"\x7b\"repo_name\": \"/repo/".toList ++ "lazio".toList ++ "\",\"prefix\": ".toList ++
        ("[".toList ++ (",".toList).intercalate (ns.map fun name => '"' :: name ++ ['"'])),
      "]".toList ++ "\x7d".toList,
      (",".toList ++ ('"' :: n ++ ['"'])) ++ ("]".toList ++ "\x7d".toList),
      by simp only [List.append_assoc], by simp only [List.append_assoc], rfl⟩
  obtain ⟨start, rest, rest', hold, hnew, hlength⟩ := hsplit
  rw [hold, List.length_append, hlength] at hk
  rw [hold, hnew, List.take_append_of_le_length (by omega),
    List.take_append_of_le_length (by omega)]

/-- A first segment of one byte string and the second of another make up neither of them, if the
lengths and the first segments are different. -/
private theorem torn_notMem {T T' : Str} (hcount : segmentCount T = 2)
    (hcount' : segmentCount T' = 2) (hlength : T.length ≠ T'.length)
    (htake : T.take 8000 ≠ T'.take 8000) : segmentData T 0 ++ segmentData T' 1 ∉ [T, T'] := by
  have hsize : 8000 < T.length := lt_length_of_lt_segmentCount (i := 1) (by omega)
  have hsize' : 8000 < T'.length := lt_length_of_lt_segmentCount (i := 1) (by omega)
  have hmax' : T'.length ≤ 16000 := segmentCount_le_iff.mp hcount'.le
  have hfirst : segmentData T 0 = T.take 8000 := segmentData_eq (by omega)
  have hsecond : segmentData T' 1 = T'.drop 8000 := by
    refine (segmentData_eq (by omega)).trans (List.take_of_length_le ?_)
    change (T'.drop 8000).length ≤ 8000
    rw [List.length_drop]
    omega
  rw [hfirst, hsecond]
  intro hmem
  -- the old list has another length; the new one differs from it within the first segment
  rcases List.mem_cons.mp hmem with hold | hnew
  · have hl := congrArg List.length hold
    rw [List.length_append, List.length_take, List.length_drop] at hl
    omega
  · have hl := congrArg (List.take 8000) (List.mem_singleton.mp hnew)
    rw [List.take_left' (by rw [List.length_take]; omega)] at hl
    exact htake hl

/-- The point comes in between the two answers: its name falls into the second segment, so the
list that is delivered is the new one. -/
theorem prefix_fetch_snapshot_between_answers :
    ∃ db db', Relation.ReflTransGen (IndexUpdate 480) Db.empty db ∧ IndexUpdate 480 db db' ∧
      ∀ baseInterest : octetNames.Name, ∃ h s,
        Run (prefixFetch "lazio".toList nameDocument 480 baseInterest) h s ∧ h.length = 5 ∧
        s.texts = [versionReply "lazio".toList nameDocument db,
          versionReply "lazio".toList nameDocument db'] ∧
        s.fetch.callbacks = [.onComplete (versionReply "lazio".toList nameDocument db')] ∧
        Throughout DeliversReply h s := by
  have hmany : manyTiles ≠ [] := List.ne_nil_of_length_pos (by rw [length_manyTiles]; norm_num)
  have hcount : segmentCount (versionReply "lazio".toList nameDocument storedMany) = 2 := by
    rw [versionReply_storedMany]
    exact segmentCount_eq_two (by rw [length_storedRest]; norm_num)
      (by rw [length_storedRest]; norm_num)
  have hcount' : segmentCount (versionReply "lazio".toList nameDocument storedMore) = 2 := by
    rw [versionReply_storedMore]
    exact segmentCount_eq_two (by rw [length_storedMore]; norm_num)
      (by rw [length_storedMore]; norm_num)
  -- the first segment stays as it is
  have hfirst : segmentData (versionReply "lazio".toList nameDocument storedMany) 0 =
      segmentData (versionReply "lazio".toList nameDocument storedMore) 0 := by
    rw [segmentData_eq (by omega), segmentData_eq (by omega), versionReply_storedMany,
      versionReply_storedMore, Nat.zero_mul, List.drop_zero, List.drop_zero]
    exact (take_listReply_concat hmany loneName (by rw [length_storedRest]; decide)).symm
  have hwhole : segmentData (versionReply "lazio".toList nameDocument storedMore) 0 ++
      segmentData (versionReply "lazio".toList nameDocument storedMore) 1 =
      versionReply "lazio".toList nameDocument storedMore := by
    have hflatten : ((List.range (segmentCount (versionReply "lazio".toList nameDocument
        storedMore))).map (segmentData (versionReply "lazio".toList nameDocument
          storedMore))).flatten = _ := flatten_segmentData
    rw [hcount'] at hflatten
    simpa [List.range_succ] using hflatten
  refine ⟨storedMany, storedMore, Relation.ReflTransGen.single indexUpdate_storedMany,
    indexUpdate_storedMore, fun baseInterest => ?_⟩
  obtain ⟨h, s, hrun, hlength, htexts, hcallbacks, hadmitted⟩ :=
    exists_fetch_across_update octetNames_segmented baseInterest hcount hcount'
      indexUpdate_storedMore
  rw [hfirst, hwhole] at hcallbacks
  exact ⟨h, s, hrun, hlength, htexts, hcallbacks,
    prefix_fetch_snapshot octetNames_segmented hrun (hadmitted hfirst)⟩

/-- **A list of names that never was.** The index has 481 names, the first segment of the list
is fetched, then the object of the first name goes, and the second segment follows: the list
put together is neither the old one nor the new one. -/
theorem torn_prefix_list :
    ∃ db db', Relation.ReflTransGen (IndexUpdate 480) Db.empty db ∧ IndexUpdate 480 db db' ∧
      ∀ baseInterest : octetNames.Name, ∃ h s,
        Run (prefixFetch "lazio".toList nameDocument 480 baseInterest) h s ∧
        s.texts = [versionReply "lazio".toList nameDocument db,
          versionReply "lazio".toList nameDocument db'] ∧ ¬DeliversReply s := by
  -- both lists are real: the indexer makes the first and one deletion leads to the second
  have hreach : Relation.ReflTransGen (IndexUpdate 480) Db.empty storedBoth :=
    (Relation.ReflTransGen.single indexUpdate_storedLone).tail indexUpdate_storedBoth
  -- each fills two segments, so the second request may fall after the update
  have hcount : segmentCount (versionReply "lazio".toList nameDocument storedBoth) = 2 := by
    rw [versionReply_storedBoth]
    exact segmentCount_eq_two (by rw [length_storedBoth]; norm_num)
      (by rw [length_storedBoth]; norm_num)
  have hcount' : segmentCount (versionReply "lazio".toList nameDocument storedRest) = 2 := by
    rw [versionReply_storedRest]
    exact segmentCount_eq_two (by rw [length_storedRest]; norm_num)
      (by rw [length_storedRest]; norm_num)
  have htorn := torn_notMem hcount hcount'
    (by rw [versionReply_storedBoth, versionReply_storedRest, length_storedBoth,
      length_storedRest]; norm_num)
    (by rw [versionReply_storedBoth, versionReply_storedRest]; exact take_listReply_ne)
  refine ⟨storedBoth, storedRest, hreach, indexUpdate_storedRest, fun baseInterest => ?_⟩
  obtain ⟨h, s, hrun, -, htexts, hcallbacks, -⟩ :=
    exists_fetch_across_update octetNames_segmented baseInterest hcount hcount'
      indexUpdate_storedRest
  refine ⟨h, s, hrun, htexts, fun hdelivers => htorn ?_⟩
  rw [← htexts]
  exact hdelivers _ (by rw [hcallbacks]; exact List.mem_singleton_self _)

end Example

end OpenGeoBase
