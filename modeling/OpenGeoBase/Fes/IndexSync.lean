import OpenGeoBase.Fes.UpdateRtree
import OpenGeoBase.Lib.Versioned
import OpenGeoBase.Repo.ReadHandle
import OpenGeoBase.Repo.VersionUpdates

/-!
# Keeping the R-trees of a front end up to date

Repositories change their indexes, give them versions and send the versions out, each on its own.
An interest with a version may be lost, come late, come twice or be overtaken by a later one. When
the listener of a front end gets one it may fetch the list of the names, while the repositories go
on; the fetch may come to nothing, which leaves a text that is no JSON, and it may bring a text that
is no list of any instant if the index changes in the meantime. The front end and the threads of a
repository may stop at any instant and start anew.

What holds through all of this is that the front end follows (`Versioned.Follows`) each repository:

* it has recorded no version that the repository has not reached (`Repository.Orderly.sent`, since
  only versions that have been reached are sent out);
* if it has recorded the version the repository has, and no call has changed the index since that
  version was written, its R-tree is the one of the index.

The first is why the version may be recorded before the list is fetched, and why going back by one
after a failed fetch is enough: no version below that of the repository says anything about the
list. Neither does a version for which the index has changed while its list was fetched, so a list
put together from the segments of two does no harm. `index_synced_throughout` is the invariant over
all runs and `listen_syncs` says that the next version heard of repairs whatever has been missed.
-/

namespace OpenGeoBase

open Text Transition Collection Versioned

/-! ### The list of names -/

/-- A text that stands in a JSON string, and in a list of names, as it is. -/
def PlainText (s : Str) : Prop := ∀ c ∈ s, ' ' < c ∧ c ≠ '"' ∧ c ≠ '\\' ∧ c ≠ '\x7b'

instance (s : Str) : Decidable (PlainText s) := List.decidableBAll _ _

/-- The JSON text of a list of names. -/
def listText (repoName : Str) (names : List Str) : Str :=
  "\x7b\"repo_name\": \"".toList ++ repoName ++ "\",\"prefix\": ".toList ++
    ("[".toList ++ (",".toList).intercalate (names.map fun name => '"' :: name ++ ['"']) ++
      "]".toList) ++ "\x7d".toList

/-- `ObjectMapper.readValue` reads the two members of such a text. -/
structure ReadsLists (lib : MapLibrary) : Prop where
  readValue : ∀ repoName names, PlainText repoName → (∀ name ∈ names, PlainText name) →
    ∃ repoResponse, lib.readValue (listText repoName names) = some (some repoResponse) ∧
      repoResponse "repo_name".toList = some (.string repoName) ∧
      repoResponse "prefix".toList = some (.array (names.map .string))

/-- The rectangles of the advertised names. -/
def rectanglesOf (geo : Geometries) (db : Db) : Option (List geo.Rectangle) :=
  rectangles (db.indexNames.map .string) zeroCorners

/-- The advertised names can be sent, and rectangles read off them. -/
def Db.ReadableNames (geo : Geometries) (db : Db) : Prop :=
  ∀ name ∈ db.indexNames, PlainText name ∧ Readable geo name

/-! ### The repositories -/

section Repositories

variable {ι : Type}

/-- A repository with its threads. -/
structure Repository (ι : Type) extends UpdaterState ι where
  /-- A call has changed the index since the version was last written. -/
  unpublished : Bool

variable [DecidableEq ι]

/-- What a repository does on its own. The updates of the version take turns. -/
inductive RepositoryStep (geo : Geometries) : Repository ι → Repository ι → Prop where
  | updater {r : Repository ι} {op : UpdaterOp ι} {s : UpdaterState ι}
      (hstep : UpdaterStep r.toUpdaterState op s) (hturn : TakesTurns r.toUpdaterState op)
      (hnames : s.db.ReadableNames geo) :
      RepositoryStep geo r ⟨s, !op.isWrite &&
        (r.unpublished || decide (s.db.indexCollection ≠ r.db.indexCollection))⟩
  /-- The thread of `MongoStorage::sendVersion` sends the version again. -/
  | sendVersion {r : Repository ι} {doc : VersionDoc}
      (hdoc : r.db.indexVersionCollection.find? VersionDoc.isVersion = some doc) :
      RepositoryStep geo r { r with db := r.db.sent doc.indexVersion }
  | restart {r : Repository ι} : RepositoryStep geo r { r with phase := fun _ => .elsewhere }

/-- The repository has reached the version. -/
def Repository.Reached (r : Repository ι) (version : ℤ) : Prop :=
  0 ≤ version ∧ version ≤ r.db.version

/-- The versions count, and none is ahead of the one in the database. -/
structure Repository.Orderly (geo : Geometries) (r : Repository ι) : Prop where
  one_document : r.db.versions.length ≤ 1
  version_nonneg : 0 ≤ r.db.version
  one : ∀ i j entry entry', r.phase i = .found entry → r.phase j = .found entry' → i = j
  found : ∀ i entry, r.phase i = .found entry →
    entry = r.db.indexVersionCollection.find? VersionDoc.isVersion
  written : ∀ i version, r.phase i = .written version → r.Reached version
  sent : ∀ version ∈ r.db.sentVersions, r.Reached version
  names : r.db.ReadableNames geo

/-- What a front end can learn of a repository: its version and the names of its index. -/
def indexSource (ι : Type) : Source (Repository ι) ℤ (List Str) where
  version r := r.db.version
  Settled r := r.unpublished = false
  content r := r.db.indexNames

/-- What a front end makes of the names: the rectangles of its R-tree. -/
def rectangleSource (ι : Type) (geo : Geometries) :
    Source (Repository ι) ℤ (Option (List geo.Rectangle)) :=
  (indexSource ι).map fun names => rectangles (names.map .string) zeroCorners

end Repositories

/-! ### The network -/

/-- The component that a repository has in the names. -/
def RepoComponent : Type := {component : Jndn.Component // component.WellFormed}

instance : DecidableEq RepoComponent :=
  inferInstanceAs (DecidableEq {component : Jndn.Component // component.WellFormed})

/-- `reponame`, the component as it is printed. -/
def reponame (repo : RepoComponent) : Str := repo.val.toEscapedString

/-- The name of the interest of `MongoStorage::SendVersionInterest`, as it comes in. -/
def versionInterest (repo : RepoComponent) (index_version_value : ℤ) : List Jndn.Component :=
  [.generic ("FES".toList.map Char.toNat), repo.val,
    .generic (("version".toList ++ toDecimalInt index_version_value).map Char.toNat)]

/-- The repositories and the listener of a front end. -/
structure Network (ι : Type) (lib : MapLibrary) where
  repositories : RepoComponent → Repository ι
  listener : Listener lib

/-- What can happen. When the listener hears from a repository, `fetched` is that repository at an
instant of the fetch, if there is one. -/
inductive NetworkOp (ι : Type) where
  | repository (repo : RepoComponent)
  | listen (repo : RepoComponent) (ad : Advertisement) (fetched : Repository ι)
  | restart

section Network

variable {ι : Type} [DecidableEq ι] {lib : MapLibrary}

/-- The listener may get any version that has been sent out, at any later instant and as often as it
likes, and the repositories go on until it has handled it. -/
inductive NetworkStep : Network ι lib → NetworkOp ι → Network ι lib → Prop where
  | repository {s : Network ι lib} {repo : RepoComponent} {r : Repository ι}
      (hstep : RepositoryStep lib.toGeometries (s.repositories repo) r) :
      NetworkStep s (.repository repo)
        { s with repositories := Function.update s.repositories repo r }
  | listen {s : Network ι lib} {repo : RepoComponent} {ad : Advertisement} {fetched : Repository ι}
      {version : ℤ} {repositories : RepoComponent → Repository ι}
      (hsent : version ∈ (s.repositories repo).db.sentVersions)
      (hname : ad.interestName = versionInterest repo version)
      (hbefore : Relation.ReflTransGen (RepositoryStep lib.toGeometries) (s.repositories repo)
        fetched)
      (hafter : Relation.ReflTransGen (RepositoryStep lib.toGeometries) fetched
        (repositories repo))
      (hothers : ∀ other ≠ repo, Relation.ReflTransGen (RepositoryStep lib.toGeometries)
        (s.repositories other) (repositories other)) :
      NetworkStep s (.listen repo ad fetched) ⟨repositories, s.listener.handle ad⟩
  | restart {s : Network ι lib} :
      NetworkStep s .restart { s with listener := ⟨.empty, fun _ => none⟩ }

variable (ι lib)

/-- The network from its start. The repositories may have been there before. -/
def network : System (Network ι lib) (NetworkOp ι) where
  init s := s.listener = ⟨.empty, fun _ => none⟩ ∧ ∀ repo,
    (s.repositories repo).phase = (fun _ => .elsewhere) ∧
    (s.repositories repo).db.sentVersions = [] ∧
    (s.repositories repo).db.versions.length ≤ 1 ∧ 0 ≤ (s.repositories repo).db.version ∧
    (s.repositories repo).db.ReadableNames lib.toGeometries
  step := NetworkStep

variable {ι lib}

/-- The repository that a text names. -/
def listName (lib : MapLibrary) (response : Str) : Option Str :=
  match lib.readValue response with
  | some (some repoResponse) =>
    match repoResponse "repo_name".toList with
    | some (.string name) => (Jndn.set name).map Jndn.toUri
    | _ => none
  | _ => none

/-- If there is a fetch, it ends: with no JSON; with the list of the instant; or, if the index is
another one at that instant than at first, with any text that names no other repository. -/
def Answers (s : Network ι lib) : NetworkOp ι → Prop
  | .listen repo ad fetched => ∀ repoID version, ad.version = some (repoID, version) →
    IsNew s.listener.map repoID version → ∃ response, ad.response repoID = some response ∧
      (lib.readValue response = none ∨ response = versionReply repoID nameDocument fetched.db ∨
        fetched.db.indexNames ≠ (s.repositories repo).db.indexNames ∧
          ∀ repoName, listName lib response = some repoName → repoName = repoNameOf repoID)
  | .repository _ | .restart => True

/-- The R-tree of a repository is the one of its index. -/
def HasIndex (s : Network ι lib) (repo : RepoComponent) : Prop :=
  ∃ rtree, rectanglesOf lib.toGeometries (s.repositories repo).db = some rtree ∧
    s.listener.map.rtreeMap (repoNameOf (reponame repo)) = some rtree

/-- For each repository whose version is recorded and names its index, the R-tree is the one of the
index. -/
def Synced (s : Network ι lib) : Prop := ∀ repo,
  s.listener.map.repoVersionMap (reponame repo) = some (s.repositories repo).db.version →
    (s.repositories repo).unpublished = false → HasIndex s repo

end Network

/-! ### What a list is read as -/

section Lists

variable {lib : MapLibrary} {db : Db} {repo : RepoComponent}

/-- Two repositories are not called alike. -/
theorem reponame_injective : Function.Injective reponame := by
  intro repo other h
  have hparse := Jndn.parseComponent_toEscapedString repo.2
  rw [show repo.val.toEscapedString = other.val.toEscapedString from h,
    Jndn.parseComponent_toEscapedString other.2] at hparse
  exact Subtype.ext (Option.some.inj (Option.some.inj hparse)).symm

/-- A plain text is a plain name. -/
theorem PlainText.plainName {name : Str} (h : PlainText name) : PlainName name := by
  refine ⟨fun hc => (h _ hc).2.2.2 rfl, fun hc => ?_, fun hc => (h _ hc).2.2.1 rfl⟩
  exact absurd (h _ hc).1 (by decide)

theorem PlainText.append {s t : Str} (hs : PlainText s) (ht : PlainText t) :
    PlainText (s ++ t) := by
  intro c hc
  exact (List.mem_append.mp hc).elim (hs c) (ht c)

/-- What an octet is printed as is plain. -/
theorem plainText_uriOctet {b : ℕ} (hb : b < 256) : PlainText (uriOctet b) := by
  have hall : ∀ b < 256, ((uriOctet b).all fun c =>
      decide (' ' < c ∧ c ≠ '"' ∧ c ≠ '\\' ∧ c ≠ '\x7b')) = true := by
    apply Jndn.forall_octet
    decide
  intro c hc
  exact of_decide_eq_true (List.all_eq_true.mp (hall b hb) c hc)

/-- The names of the repositories are plain. -/
theorem plainText_reponame (repo : RepoComponent) : PlainText (reponame repo) := by
  obtain ⟨component, hformed⟩ := repo
  intro c hc
  -- Bytes that are not plain are escaped, and digests are written in digits.
  cases component with
  | generic value =>
    change c ∈ uriComponent value at hc
    rw [Jndn.uriComponent_eq] at hc
    obtain ⟨b, hb, hc⟩ := List.mem_flatMap.mp hc
    exact plainText_uriOctet (Jndn.mem_dots_append hformed b hb) c hc
  | implicitSha256Digest value =>
    have hdigit : ∀ d < 16, ' ' < Nat.digitChar d ∧ Nat.digitChar d ≠ '"' ∧
        Nat.digitChar d ≠ '\\' ∧ Nat.digitChar d ≠ '\x7b' := by
      decide
    rcases List.mem_append.mp hc with hc | hc
    · have hfirst : PlainText Jndn.sha256digestPrefix := by decide
      exact hfirst c hc
    · obtain ⟨b, hb, hc⟩ := List.mem_flatMap.mp hc
      have hb : b < 256 := hformed.1 b hb
      rcases List.mem_cons.mp hc with rfl | hc
      · exact hdigit (b / 16) (by omega)
      · rw [List.mem_singleton.mp hc]
        exact hdigit (b % 16) (by omega)

/-- The name of a repository is read as it is printed. -/
theorem set_repoNameOf (repo : RepoComponent) :
    ∃ name, Jndn.set (repoNameOf (reponame repo)) = some name ∧
      Jndn.toUri name = repoNameOf (reponame repo) := by
  let repoPrefix : Jndn.Component := .generic ("repo".toList.map Char.toNat)
  have hformed : ∀ c ∈ [repoPrefix, repo.val], c.WellFormed := by
    intro c hc
    rcases List.mem_cons.mp hc with rfl | hc
    · show ∀ b ∈ "repo".toList.map Char.toNat, b < 256
      decide
    · exact List.mem_singleton.mp hc ▸ repo.2
  -- The name of a repository is the URI of two components, so it is read back as them.
  have huri : Jndn.toUri [repoPrefix, repo.val] = repoNameOf (reponame repo) := by
    have hrepo : repoPrefix.toEscapedString = "repo".toList := by decide
    calc
      _ = path ["repo".toList, reponame repo] :=
        congrArg (fun c => path [c, reponame repo]) hrepo
      _ = repoNameOf (reponame repo) := by simp [path, repoNameOf]
  refine ⟨_, ?_, huri⟩
  rw [← huri]
  exact Jndn.set_toUri (List.cons_ne_nil _ _) hformed

/-- Digits are plain. -/
theorem plainText_of_isDigits {s : Str} (h : IsDigits s) : PlainText s := by
  intro c hc
  have hdigit := h c hc
  -- The digits begin at 48, above the blank, and none of the three characters is one.
  refine ⟨?_, ?_, ?_, ?_⟩
  · simp only [Char.isDigit, Bool.and_eq_true, decide_eq_true_eq] at hdigit
    have hlow : 48 ≤ c.val.toNat := UInt32.le_iff_toNat_le.mp hdigit.1
    rw [Char.lt_def, UInt32.lt_iff_toNat_lt]
    exact (show (' ' : Char).val.toNat < 48 by decide).trans_le hlow
  · rintro rfl
    exact absurd hdigit (by decide)
  · rintro rfl
    exact absurd hdigit (by decide)
  · rintro rfl
    exact absurd hdigit (by decide)

/-- A path of plain components is plain. -/
theorem plainText_path {cs : List Str} (h : ∀ c ∈ cs, PlainText c) : PlainText (path cs) := by
  intro d hd
  obtain ⟨c, hc, hd⟩ := List.mem_flatMap.mp hd
  rcases List.mem_cons.mp hd with rfl | hd
  · decide
  · exact h c hc d hd

/-- The components of a tile's name are plain: signs and digits. -/
theorem plainText_gridName (i j : ℤ) :
    ∀ c ∈ [axisName i, axisName j, [tenths i, tenths j], [hundredths i, hundredths j]],
      PlainText c := by
  -- The components are made of signs and of digits.
  have haxis : ∀ k : ℤ, PlainText (axisName k) := by
    intro k
    have hsign : ∀ neg, PlainText (sign neg) := by decide
    exact (hsign _).append (plainText_of_isDigits (isDigits_axis k))
  have hpair : ∀ {m n : ℕ}, m < 10 → n < 10 → PlainText [m.digitChar, n.digitChar] := by
    intro m n hm hn
    have hd := (isDigits_toDecimal m).append (isDigits_toDecimal n)
    rw [toDecimal_of_lt_ten hm, toDecimal_of_lt_ten hn] at hd
    exact plainText_of_isDigits hd
  intro c hc
  simp only [List.mem_cons, List.not_mem_nil, or_false] at hc
  rcases hc with rfl | rfl | rfl | rfl
  · exact haxis i
  · exact haxis j
  · exact hpair (by omega) (by omega)
  · exact hpair (by omega) (by omega)

/-- **The names of tiles are readable**, with exact numbers; these are the names that the indexer
advertises. -/
theorem readableNames_of_tiles (h : ∀ name ∈ db.indexNames, ∃ (level : Level) (p : Coord),
    name = level.nameOf p) : db.ReadableNames exactGeometries := by
  intro name hname
  obtain ⟨level, p, rfl⟩ := h name hname
  have hplain := plainText_gridName ⌊p.1 * 10 ^ 2⌋ ⌊p.2 * 10 ^ 2⌋
  have hfree := slashFree_gridName ⌊p.1 * 10 ^ 2⌋ ⌊p.2 * 10 ^ 2⌋
  have hgrid : ∀ c : ℚ, floor10 c 2 = (⌊c * 10 ^ 2⌋ : ℚ) / 100 := by
    intro c
    unfold floor10
    norm_num
  constructor
  · -- the names of the levels are made of the first two, three or four components
    cases level with
    | hundredth =>
      unfold Level.nameOf
      rw [hgrid, hgrid, calculateLATLONName_grid]
      exact plainText_path hplain
    | tenth =>
      unfold Level.nameOf
      rw [hgrid, hgrid, calculateLATLONName_grid, name10Of_path hfree]
      exact plainText_path fun c hc => hplain c (List.mem_append_left [_] hc)
    | degree =>
      unfold Level.nameOf
      rw [hgrid, hgrid, calculateLATLONName_grid, name100Of_path hfree]
      exact plainText_path fun c hc => hplain c (List.mem_append_left [_, _] hc)
  -- The rectangle of such a name has its corners in order.
  · refine (readable_iff accepted_zeroCorners).mpr ⟨_, corners_nameOf level p zeroCorners, ?_⟩
    have hsize := level.size_pos
    refine Option.isSome_of_eq_some (if_pos ⟨?_, ?_⟩)
    · exact (le_add_iff_nonneg_right _).mpr hsize.le
    · exact (le_add_iff_nonneg_right _).mpr hsize.le

/-- The rectangles of readable names are there. -/
theorem Db.ReadableNames.exists_rectangles (h : db.ReadableNames lib.toGeometries)
    (hzero : (zeroCorners : Corners lib.toGeometries).Accepted) :
    ∃ rtree, rectanglesOf lib.toGeometries db = some rtree := by
  refine (exists_rectangles_iff hzero).mpr fun value hvalue => ?_
  obtain ⟨name, hname, rfl⟩ := List.mem_map.mp hvalue
  exact ⟨name, rfl, (h name hname).2⟩

/-- **The reply of a repository is read as the rectangles of its index**, under its name. -/
theorem prefixList_versionReply (hlib : ReadsLists lib) (h : db.ReadableNames lib.toGeometries)
    {rtree : List lib.Rectangle} (hrtree : rectanglesOf lib.toGeometries db = some rtree) :
    prefixList lib (versionReply (reponame repo) nameDocument db) =
      some (repoNameOf (reponame repo), rtree) := by
  -- The reply is the text of a list, which the library reads back,
  have htext : versionReply (reponame repo) nameDocument db =
      listText (repoNameOf (reponame repo)) db.indexNames := by
    have hfirst : "\x7b\"repo_name\": \"/repo/".toList =
        "\x7b\"repo_name\": \"".toList ++ "/repo/".toList := by
      decide
    rw [versionReply_eq _ fun name hname => (h name hname).1.plainName, hfirst, List.append_assoc
      "\x7b\"repo_name\": \"".toList]
    rfl
  have hplain : PlainText (repoNameOf (reponame repo)) := by
    have hrepo : PlainText "/repo/".toList := by decide
    exact hrepo.append (plainText_reponame repo)
  obtain ⟨repoResponse, hread, hname, hprefix⟩ := hlib.readValue _ db.indexNames hplain
    fun name hname => (h name hname).1
  -- and its name is that of the repository.
  obtain ⟨name, hset, huri⟩ := set_repoNameOf repo
  unfold rectanglesOf at hrtree
  unfold prefixList
  rw [htext, hread]
  dsimp only
  rw [hname, hprefix]
  dsimp only
  rw [hset, hrtree]
  exact congrArg (fun name => some (name, rtree)) huri

end Lists

/-! ### The interest with a version -/

section VersionInterest

variable {repo : RepoComponent} {ad : Advertisement} {version : ℤ}

/-- A version is printed as it is. -/
theorem toEscapedString_version (n : ℕ) :
    (Jndn.Component.generic (("version".toList ++ toDecimal n).map Char.toNat)).toEscapedString =
      "version".toList ++ toDecimal n := by
  have hplain : ∀ c ∈ "version".toList ++ toDecimal n, uriOctet c.toNat = [c] := by
    intro c hc
    rcases List.mem_append.mp hc with hc | hc
    · have hletters : ∀ c ∈ "version".toList, uriOctet c.toNat = [c] := by
        simp [uriOctet]
      exact hletters c hc
    · have hdigit : c.isDigit = true := isDigits_toDecimal n c hc
      simp [uriOctet, Char.ofNat_toNat, Char.isAlphanum, hdigit]
  have hdots : ¬((("version".toList ++ toDecimal n).map Char.toNat).all (· == '.'.toNat)) := by
    rw [List.map_append, List.all_append]
    simp
  show uriComponent _ = _
  unfold uriComponent
  rw [if_neg hdots, List.flatMap_map]
  -- letter for letter and digit for digit
  generalize "version".toList ++ toDecimal n = s at hplain
  induction s with
  | nil => rfl
  | cons c s ih =>
    rw [List.flatMap_cons, hplain c List.mem_cons_self,
      ih fun d hd => hplain d (List.mem_cons_of_mem _ hd)]
    rfl

/-- A version has 32 bits, or there is an exception. -/
theorem repoVersion_version (n : ℕ) :
    NDNQueryRepoMap.repoVersion (.generic (("version".toList ++ toDecimal n).map Char.toNat)) =
      if n < 2 ^ 31 then some (n : ℤ) else none := by
  -- The keyword is the first part that is cut off, since no digit is its first letter.
  have hsplit : splitText "version".toList ("version".toList ++ toDecimal n) =
      [[], toDecimal n] := by
    have hfree : 'v' ∉ toDecimal n := fun hmem =>
      absurd (isDigits_toDecimal n 'v' hmem) (by decide)
    have hparts := @splitFrom_append 'v' "ersion".toList [] (List.not_mem_nil) (toDecimal n)
    rw [splitFrom_of_not_mem hfree] at hparts
    have hparts : splitFrom "version".toList 0 ("version".toList ++ toDecimal n) =
        [[], toDecimal n] := hparts
    rw [splitText, if_pos (List.prefix_append _ _).isInfix, hparts, List.rdropWhile_eq_self_iff]
    intro _ hempty
    exact toDecimal_ne_nil n (List.isEmpty_iff.mp hempty)
  have hsign := readSign_sign false (isDigits_toDecimal n) (toDecimal_ne_nil n) []
  have hdigits : (toDecimal n).all Char.isDigit = true :=
    List.all_eq_true.mpr (isDigits_toDecimal n)
  rw [List.append_nil] at hsign
  unfold NDNQueryRepoMap.repoVersion
  rw [toEscapedString_version, hsplit]
  change NDNQueryRepoMap.parseInt (toDecimal n) = _
  rw [NDNQueryRepoMap.parseInt, show readSign (toDecimal n) = (false, toDecimal n) from hsign]
  simp only [toDecimal_ne_nil, hdigits, not_true_eq_false, or_self, if_false, digitsValue_toDecimal,
    Bool.false_eq_true]
  refine if_congr ?_ rfl rfl
  omega

/-- A printed name ends with its last component. -/
theorem suffix_toUri (components : List Jndn.Component) (component : Jndn.Component) :
    component.toEscapedString <:+ Jndn.toUri (components ++ [component]) := by
  refine ⟨path (components.map Jndn.Component.toEscapedString) ++ ['/'], ?_⟩
  simp [Jndn.toUri, path]

/-- **What is sent out is what comes in**: the listener reads the repository and its version off the
name, as long as the version is a number of 32 bits. -/
theorem version_versionInterest (hname : ad.interestName = versionInterest repo version)
    (hnonneg : 0 ≤ version) :
    ad.version = if version < 2 ^ 31 then some (reponame repo, version) else none := by
  obtain ⟨n, rfl⟩ := Int.eq_ofNat_of_zero_le hnonneg
  have hprinted : toDecimalInt (n : ℤ) = toDecimal n := by simp [toDecimalInt]
  -- The keyword is in the last component of the name.
  have hversion : "version".toList <:+: Jndn.toUri ad.interestName := by
    have hlast := suffix_toUri [.generic ("FES".toList.map Char.toNat), repo.val]
      (.generic (("version".toList ++ toDecimal n).map Char.toNat))
    rw [toEscapedString_version] at hlast
    rw [hname, versionInterest, hprinted]
    exact (List.prefix_append _ (toDecimal n)).isInfix.trans hlast.isInfix
  unfold Advertisement.version
  rw [guard, if_pos ⟨by rw [hname]; exact le_rfl, hversion⟩, hname, versionInterest, hprinted]
  change (NDNQueryRepoMap.repoVersion _ >>= fun version => some (reponame repo, version)) = _
  rw [repoVersion_version]
  norm_cast
  split
  · rfl
  · rfl

end VersionInterest

/-! ### What a repository does -/

section Steps

variable {ι : Type} {geo : Geometries} {r r' : Repository ι} {version : ℤ}

/-- What was reached stays reached while the version grows. -/
theorem Repository.Reached.mono (h : r.Reached version) (hle : r.db.version ≤ r'.db.version) :
    r'.Reached version := ⟨h.1, h.2.trans hle⟩

/-- The write of an update in turn adds one to the version. -/
theorem Repository.Orderly.write_version (h : r.Orderly geo) {i : ι} {entry : Option VersionDoc}
    (hphase : r.phase i = .found entry) :
    entryVersion entry = r.db.version ∧
      (r.db.mapVersion (writeVersion entry)).version = r.db.version + 1 ∧
      (r.db.mapVersion (writeVersion entry)).versions.length ≤ 1 := by
  have hentry := h.found i entry hphase
  have hfound : entryVersion entry = r.db.version := hentry ▸ Db.entryVersion_find? r.db
  -- what has been found is still what is stored
  have hnone : entry = none ↔ r.db.versions = [] := hentry ▸ Db.find?_isVersion_eq_none r.db
  have hone : (r.db.mapVersion (writeVersion entry)).versions.length ≤ 1 := by
    rw [Db.versions_write]
    split
    · next hno =>
      rw [hnone.mp hno]
      exact le_rfl
    · rw [List.length_modifyHead]
      exact h.one_document
  refine ⟨hfound, ?_, hone⟩
  have hpresent : ∀ doc, entry = some doc → r.db.versions ≠ [] := by
    intro doc hdoc hnil
    exact absurd (hdoc.symm.trans (hnone.mpr hnil)) (Option.some_ne_none doc)
  rcases Db.version_write hpresent with hnext | ⟨htwo, -⟩
  · rw [hnext, hfound]
  · omega

variable [DecidableEq ι]

/-- A step of the threads keeps the versions in order. -/
theorem Repository.Orderly.updater {op : UpdaterOp ι} {s : UpdaterState ι} (h : r.Orderly geo)
    (hstep : UpdaterStep r.toUpdaterState op s) (hturn : TakesTurns r.toUpdaterState op)
    (hnames : s.db.ReadableNames geo) (unpublished : Bool) :
    Repository.Orderly geo ⟨s, unpublished⟩ := by
  cases hstep with
  | @find i hphase =>
    refine { h with one := ?_, found := ?_, written := ?_ }
    · intro j k entry entry' hj hk
      rcases phase_update hj with ⟨rfl, -⟩ | ⟨-, hj⟩
      · rcases phase_update hk with ⟨rfl, -⟩ | ⟨-, hk⟩
        · rfl
        · exact absurd hk (hturn k entry')
      · exact absurd hj (hturn j entry)
    · intro j entry hj
      rcases phase_update hj with ⟨-, hentry⟩ | ⟨-, hj⟩
      · exact (UpdaterPhase.found.inj hentry).symm
      · exact h.found j entry hj
    · intro j version hj
      exact h.written j version (phase_of_update hj (by simp)).2
  | @write i entry hphase =>
    obtain ⟨hfound, hversion, hone⟩ := h.write_version hphase
    have hle : r.db.version ≤ (r.db.mapVersion (writeVersion entry)).version := by omega
    -- the thread that writes was the only one between its read and its write
    have hnone : ∀ j entry', ¬Function.update r.phase i
        (.written (entryVersion entry + 1)) j = .found entry' := fun j entry' hj => by
      obtain ⟨hji, hj⟩ := phase_of_update hj (by simp)
      exact hji (h.one j i entry' entry hj hphase)
    have hnonneg := h.version_nonneg
    refine ⟨hone, hnonneg.trans hle, fun j k entry₁ entry₂ hj _ => absurd hj (hnone j entry₁),
      fun j entry₁ hj => absurd hj (hnone j entry₁), fun j version hj => ?_,
      fun version hsent => (h.sent version hsent).mono hle, hnames⟩
    rcases phase_update hj with ⟨-, hwritten⟩ | ⟨-, hj⟩
    · obtain rfl := UpdaterPhase.written.inj hwritten
      refine ⟨by omega, ?_⟩
      show _ ≤ (r.db.mapVersion (writeVersion entry)).version
      omega
    · exact (h.written j version hj).mono hle
  | @send i version hphase =>
    refine ⟨h.one_document, h.version_nonneg, fun j k entry entry' hj hk => ?_,
      fun j entry hj => h.found j entry (phase_of_update hj (by simp)).2,
      fun j version' hj => h.written j version' (phase_of_update hj (by simp)).2,
      fun version' hsent => ?_, hnames⟩
    · exact h.one j k entry entry' (phase_of_update hj (by simp)).2 (phase_of_update hk (by simp)).2
    · -- the number that is sent is the one that has been written
      rcases List.mem_append.mp hsent with hsent | hsent
      · exact h.sent version' hsent
      · exact List.mem_singleton.mp hsent ▸ h.written i version hphase
  | @other i db hphase hversion hsent =>
    obtain ⟨hsame, hversions⟩ := Db.version_congr hversion
    refine ⟨hversions ▸ h.one_document, hsame ▸ h.version_nonneg, h.one, fun j entry hj => ?_,
      fun j version hj => (h.written j version hj).mono hsame.ge, fun version hmem => ?_, hnames⟩
    · rw [hversion]
      exact h.found j entry hj
    · exact (h.sent version (hsent ▸ hmem)).mono hsame.ge

/-- Every step of a repository keeps its version document and its names in order. -/
theorem Repository.Orderly.step (h : r.Orderly geo) (hstep : RepositoryStep geo r r') :
    r'.Orderly geo := by
  cases hstep with
  | updater hstep hturn hnames => exact h.updater hstep hturn hnames _
  | @sendVersion doc hdoc =>
    have hversion : r.db.version = doc.indexVersion := by
      rw [Db.version, hdoc]
      rfl
    refine { h with sent := fun version hsent => ?_ }
    rcases List.mem_append.mp hsent with hsent | hsent
    · exact h.sent version hsent
    · rw [List.mem_singleton.mp hsent, ← hversion]
      exact ⟨h.version_nonneg, le_rfl⟩
  -- No thread is at work after a restart.
  | restart =>
    refine { h with one := ?_, found := ?_, written := ?_ }
    · intro i j entry entry' hi _
      exact absurd hi (by simp)
    · intro i entry hi
      exact absurd hi (by simp)
    · intro i version hi
      exact absurd hi (by simp)

/-- The version rises, or the index stays where it is unless the repository says otherwise. -/
theorem Repository.Orderly.later (h : r.Orderly geo) (hstep : RepositoryStep geo r r') :
    Later (indexSource ι) r r' := by
  -- Only a write moves the version; the other steps must leave a settled index as it is.
  cases hstep with
  | updater hstep hturn hnames =>
    cases hstep with
    | find hphase =>
      refine Or.inr ⟨rfl, fun hsettled => ⟨?_, rfl⟩⟩
      simpa [indexSource, UpdaterOp.isWrite] using hsettled
    | write hphase =>
      have hlt := (h.write_version hphase).2.1
      refine Or.inl ?_
      show r.db.version < (r.db.mapVersion _).version
      omega
    | send hphase =>
      refine Or.inr ⟨rfl, fun hsettled => ⟨?_, rfl⟩⟩
      have hsame : ∀ version, (r.db.sent version).indexCollection = r.db.indexCollection :=
        fun _ => rfl
      simpa [indexSource, UpdaterOp.isWrite, hsame] using hsettled
    | @other i db hphase hversion hsent =>
      refine Or.inr ⟨(Db.version_congr hversion).1.symm, fun hsettled => ?_⟩
      obtain ⟨hpublished, hindex⟩ : r.unpublished = false ∧
          db.indexCollection = r.db.indexCollection := by
        simpa [indexSource, UpdaterOp.isWrite] using hsettled
      exact ⟨hpublished, congrArg (List.map _) hindex⟩
  | sendVersion hdoc => exact Or.inr ⟨rfl, fun hsettled => ⟨hsettled, rfl⟩⟩
  | restart => exact Or.inr ⟨rfl, fun hsettled => ⟨hsettled, rfl⟩⟩

/-- Any number of steps. -/
theorem Repository.Orderly.steps (h : r.Orderly geo)
    (hsteps : Relation.ReflTransGen (RepositoryStep geo) r r') :
    r'.Orderly geo ∧ Later (indexSource ι) r r' :=
  Later.of_reflTransGen (fun _ _ horderly => horderly.step) (fun _ _ horderly => horderly.later) h
    hsteps

end Steps

/-! ### What the front end does -/

section Runs

variable {ι : Type} {lib : MapLibrary}

/-- The front end follows the repository. -/
def Tracks (m : NDNQueryRepoMap lib.toGeometries) (repo : RepoComponent) (r : Repository ι) :
    Prop :=
  Follows (rectangleSource ι lib.toGeometries) (m.repoVersionMap (reponame repo))
    (m.rtreeMap (repoNameOf (reponame repo))) r

/-- The repositories are in order, and the front end follows each of them. -/
structure NetworkInvariant (s : Network ι lib) : Prop where
  orderly : ∀ repo, (s.repositories repo).Orderly lib.toGeometries
  tracks : ∀ repo, Tracks s.listener.map repo (s.repositories repo)

/-- The invariant gives what the listener promises for every repository. -/
theorem NetworkInvariant.synced {s : Network ι lib}
    (hzero : (zeroCorners : Corners lib.toGeometries).Accepted) (h : NetworkInvariant s) :
    Synced s := by
  intro repo hrecorded hpublished
  obtain ⟨rtree, hrtree⟩ := (h.orderly repo).names.exists_rectangles hzero
  obtain ⟨-, hheld⟩ := h.tracks repo _ hrecorded
  exact ⟨rtree, hrtree, (hheld rfl hpublished).trans hrtree⟩

variable {l : Listener lib} {ad : Advertisement} {repo other : RepoComponent} {version : ℤ}
  {fetched r r' : Repository ι}

/-- A text changes the R-tree of the repository it names, and no other. -/
theorem rtreeMap_updateQueryRepoMap {m : NDNQueryRepoMap lib.toGeometries} {response name : Str}
    (hname : ∀ repoName, listName lib response = some repoName → name ≠ repoName) :
    (NDNQueryRepoMap.updateQueryRepoMap response m).2.rtreeMap name = m.rtreeMap name := by
  -- an R-tree is put in or taken out under its own name
  have hupdate : ∀ repoName prefixes, name ≠ repoName →
      (m.updateRtree repoName prefixes).2.rtreeMap name = m.rtreeMap name := by
    intro repoName prefixes hne
    unfold NDNQueryRepoMap.updateRtree
    dsimp only
    split
    · exact Function.update_of_ne hne _ _
    · exact (Function.update_of_ne hne _ _).trans (Function.update_of_ne hne _ _)
  unfold listName at hname
  unfold NDNQueryRepoMap.updateQueryRepoMap
  split
  · rfl
  · rfl
  · next repoResponse hread =>
    rw [hread] at hname
    dsimp only at hname
    split
    · next text htext =>
      rw [htext] at hname
      dsimp only at hname
      split
      · rfl
      · next repoName hset =>
        rw [hset] at hname
        have hne := hname _ rfl
        split
        · exact hupdate _ _ hne
        · exact hupdate _ _ hne
        · exact hupdate _ _ hne
        · rfl
    · rfl

/-- So does an interest with a version, whatever comes of the fetch. -/
theorem rtreeMap_handle {repoID name : Str} (had : ad.version = some (repoID, version))
    (hname : ∀ response, ad.response repoID = some response → ∀ repoName,
      listName lib response = some repoName → name ≠ repoName) :
    (l.handle ad).map.rtreeMap name = l.map.rtreeMap name := by
  -- Neither the version that is recorded nor the one that is restored touches an R-tree.
  have hversion : (l.map.updateVersion repoID version).2.rtreeMap = l.map.rtreeMap := by
    unfold NDNQueryRepoMap.updateVersion
    dsimp only
    split
    · split <;> rfl
    · rfl
  have hrestore : ∀ m : NDNQueryRepoMap lib.toGeometries,
      (m.restoreVersion repoID).2.rtreeMap = m.rtreeMap := by
    intro m
    unfold NDNQueryRepoMap.restoreVersion
    split <;> rfl
  unfold Listener.handle
  rw [onInterest_of_version ad had]
  split
  · rw [getPrefixes_of_version ad had]
    -- The list replaces the R-tree under the name it carries only.
    cases hresponse : ad.response repoID with
    | none => exact congrFun hversion name
    | some response =>
      have hlist := @rtreeMap_updateQueryRepoMap _ (l.map.updateVersion repoID version).2 _ _
        (hname response hresponse)
      rw [hversion] at hlist
      dsimp only
      split
      · next m hupdate =>
        rw [hupdate] at hlist
        rw [hrestore]
        exact hlist
      · exact hlist
  · exact congrFun hversion name

/-- What becomes of the map when a version comes in: nothing if it is not new; the version and the
rectangles of the repository at the instant of the fetch; the version before and the rectangles
there were; or the version and any rectangles, if the index has changed. -/
inductive Heard (l : Listener lib) (ad : Advertisement) (repo : RepoComponent) (version : ℤ)
    (r fetched : Repository ι) : NDNQueryRepoMap lib.toGeometries → Prop where
  | nothing (hold : version < 2 ^ 31 → ¬IsNew l.map (reponame repo) version) :
      Heard l ad repo version r fetched l.map
  | list : Heard l ad repo version r fetched
      ⟨Function.update l.map.repoVersionMap (reponame repo) (some version),
        Function.update l.map.rtreeMap (repoNameOf (reponame repo))
          (rectanglesOf lib.toGeometries fetched.db)⟩
  | unread {response : Str} (hresponse : ad.response (reponame repo) = some response)
      (hread : lib.readValue response = none) : Heard l ad repo version r fetched
      ⟨Function.update l.map.repoVersionMap (reponame repo) (some (version - 1)), l.map.rtreeMap⟩
  | changed {rtreeMap : Str → Option (List lib.Rectangle)}
      (hindex : fetched.db.indexNames ≠ r.db.indexNames)
      (hothers : ∀ name ≠ repoNameOf (reponame repo), rtreeMap name = l.map.rtreeMap name) :
      Heard l ad repo version r fetched
        ⟨Function.update l.map.repoVersionMap (reponame repo) (some version), rtreeMap⟩

/-- A fetch that is answered, or not at all, does one of these. -/
theorem heard_handle (hlib : ReadsLists lib)
    (hzero : (zeroCorners : Corners lib.toGeometries).Accepted)
    (hname : ad.interestName = versionInterest repo version) (hnonneg : 0 ≤ version)
    (hnames : fetched.db.ReadableNames lib.toGeometries)
    (hanswers : ∀ repoID version', ad.version = some (repoID, version') →
      IsNew l.map repoID version' → ∃ response, ad.response repoID = some response ∧
        (lib.readValue response = none ∨ response = versionReply repoID nameDocument fetched.db ∨
          fetched.db.indexNames ≠ r.db.indexNames ∧
            ∀ repoName, listName lib response = some repoName → repoName = repoNameOf repoID)) :
    Heard l ad repo version r fetched (l.handle ad).map := by
  obtain ⟨rtree, hrtree⟩ := hnames.exists_rectangles hzero
  have hlist := @prefixList_versionReply lib _ repo hlib hnames _ hrtree
  have hversion := version_versionInterest hname hnonneg
  -- the version that is read off the interest is the one that was sent
  have hsame : ∀ {repoID version'}, ad.version = some (repoID, version') →
      repoID = reponame repo ∧ version' = version ∧ version < 2 ^ 31 := by
    intro repoID version' h
    rw [hversion] at h
    split at h
    · next hlt =>
      obtain ⟨rfl, rfl⟩ := Prod.mk.inj (Option.some.inj h)
      exact ⟨rfl, rfl, hlt⟩
    · exact absurd h (by simp)
  -- a text that names no other repository leaves the other R-trees as they are
  have hkept : ∀ {response}, ad.version = some (reponame repo, version) →
      ad.response (reponame repo) = some response → (∀ repoName, listName lib response =
        some repoName → repoName = repoNameOf (reponame repo)) →
      ∀ name ≠ repoNameOf (reponame repo),
        (l.handle ad).map.rtreeMap name = l.map.rtreeMap name := by
    intro response had hresponse hnamed name hne
    refine rtreeMap_handle had fun response' hresponse' repoName hrepoName => ?_
    obtain rfl : response = response' := Option.some.inj (hresponse.symm.trans hresponse')
    exact hnamed repoName hrepoName ▸ hne
  have hhandled := l.handled ad
  generalize l.handle ad = l' at hhandled hkept ⊢
  cases hhandled with
  | ignored hold =>
    refine .nothing fun hlt => hold _ _ ?_
    rw [hversion, if_pos hlt]
  | @installed repoID response repoName version' rtree' had hnew hresponse hinstalled =>
    obtain ⟨rfl, rfl, -⟩ := hsame had
    obtain ⟨response', hresponse', hanswer⟩ := hanswers _ _ had hnew
    obtain rfl : response = response' := Option.some.inj (hresponse.symm.trans hresponse')
    rcases hanswer with hread | rfl | ⟨hindex, hnamed⟩
    · rw [prefixList, hread] at hinstalled
      exact absurd hinstalled (by simp)
    · rw [hlist] at hinstalled
      obtain ⟨rfl, rfl⟩ := Prod.mk.inj (Option.some.inj hinstalled)
      rw [← hrtree]
      exact .list
    · exact .changed hindex (hkept had hresponse hnamed)
  | @restored repoID response version' had hnew hresponse hread =>
    obtain ⟨rfl, rfl, hlt⟩ := hsame had
    have hbefore : toInt32 (version' - 1) = version' - 1 := by
      exact Int.bmod_eq_of_le (by omega) (by omega)
    rw [hbefore]
    exact .unread hresponse hread
  | @failed repoID version' rtreeMap had hnew hfailed hlost =>
    obtain ⟨rfl, rfl, -⟩ := hsame had
    obtain ⟨response, hresponse, hanswer⟩ := hanswers _ _ had hnew
    obtain ⟨hread, hnolist⟩ := hfailed response hresponse
    rcases hanswer with hnone | rfl | ⟨hindex, hnamed⟩
    · exact absurd hnone hread
    · exact absurd (hnolist.symm.trans hlist) (by simp)
    · exact .changed hindex (hkept had hresponse hnamed)

/-- The repository that is heard of is followed on. -/
theorem Heard.tracks {m : NDNQueryRepoMap lib.toGeometries}
    (h : Heard l ad repo version r fetched m) (htracks : Tracks l.map repo r)
    (hreached : version ≤ r.db.version) (hbefore : Later (indexSource ι) r fetched)
    (hafter : Later (indexSource ι) fetched r') : Tracks m repo r' := by
  have hlater := (hbefore.trans hafter).map fun names : List Str =>
    (rectangles (names.map .string) zeroCorners : Option (List lib.toGeometries.Rectangle))
  unfold Tracks
  cases h with
  | nothing => exact htracks.later hlater
  | list =>
    dsimp only
    rw [Function.update_self, Function.update_self]
    exact Follows.read hreached (hbefore.map _) (hafter.map _)
  | unread =>
    dsimp only
    rw [Function.update_self]
    exact Follows.below (Int.sub_one_lt_iff.mpr hreached) hlater
  | changed hindex =>
    -- by the time the index has a version again, that version is above this one
    dsimp only
    rw [Function.update_self]
    exact Follows.unsettled hreached hlater (hbefore.version_lt hafter hindex)

/-- Hearing of one repository changes nothing for the others. -/
theorem Heard.tracks_other {m : NDNQueryRepoMap lib.toGeometries}
    (h : Heard l ad repo version r fetched m) (hne : other ≠ repo) {r₁ r₂ : Repository ι}
    (htracks : Tracks l.map other r₁) (hlater : Later (indexSource ι) r₁ r₂) :
    Tracks m other r₂ := by
  have hname : reponame other ≠ reponame repo := reponame_injective.ne hne
  have hlast := Follows.later htracks (hlater.map _)
  unfold Tracks
  -- Whatever was heard of one repository is written under its names.
  cases h with
  | nothing => exact hlast
  | list =>
    dsimp only
    rw [Function.update_of_ne hname, Function.update_of_ne (repoNameOf_injective.ne hname)]
    exact hlast
  | unread =>
    dsimp only
    rw [Function.update_of_ne hname]
    exact hlast
  | changed _ hothers =>
    dsimp only
    rw [Function.update_of_ne hname, hothers _ (repoNameOf_injective.ne hname)]
    exact hlast

variable [DecidableEq ι] {s s' : Network ι lib} {op : NetworkOp ι}

/-- The invariant holds before anything is stored or heard. -/
theorem NetworkInvariant.start (h : (network ι lib).init s) : NetworkInvariant s := by
  obtain ⟨hlistener, hrepositories⟩ := h
  constructor
  -- No thread has begun, nothing was sent, and the listener knows nothing.
  · intro repo
    obtain ⟨hphase, hsent, hone, hnonneg, hnames⟩ := hrepositories repo
    refine ⟨hone, hnonneg, fun i j entry entry' hi _ => ?_, fun i entry hi => ?_,
      fun i version hi => ?_, fun version hmem => ?_, hnames⟩
    · exact absurd hi (by simp [hphase])
    · exact absurd hi (by simp [hphase])
    · exact absurd hi (by simp [hphase])
    · exact absurd hmem (by simp [hsent])
  · intro repo
    rw [hlistener]
    exact Follows.none

/-- **Step.** Whatever happens, each repository is followed. -/
theorem NetworkInvariant.step (hlib : ReadsLists lib)
    (hzero : (zeroCorners : Corners lib.toGeometries).Accepted) (h : NetworkInvariant s)
    (hanswers : Answers s op) (hstep : NetworkStep s op s') : NetworkInvariant s' := by
  -- A repository moves on alone; the others and the listener stay.
  cases hstep with
  | @repository repo r hstep =>
    constructor
    · intro other
      dsimp only
      by_cases heq : other = repo
      · subst heq
        rw [Function.update_self]
        exact (h.orderly other).step hstep
      · rw [Function.update_of_ne heq]
        exact h.orderly other
    · intro other
      dsimp only
      by_cases heq : other = repo
      · subst heq
        rw [Function.update_self]
        exact Follows.later (h.tracks other) (((h.orderly other).later hstep).map _)
      · rw [Function.update_of_ne heq]
        exact h.tracks other
  | @listen repo ad fetched version repositories hsent hname hbefore hafter hothers =>
    -- The listener hears an advertisement: the repository has moved on before and after the list
    -- was fetched, and the others all the while.
    obtain ⟨hfetched, hlater⟩ := (h.orderly repo).steps hbefore
    obtain ⟨horderly, hlater'⟩ := hfetched.steps hafter
    obtain ⟨hnonneg, hreached⟩ := (h.orderly repo).sent version hsent
    have hheard := heard_handle hlib hzero hname hnonneg hfetched.names hanswers
    constructor
    · intro other
      by_cases heq : other = repo
      · exact heq ▸ horderly
      · exact ((h.orderly other).steps (hothers other heq)).1
    · intro other
      by_cases heq : other = repo
      · subst heq
        exact hheard.tracks (h.tracks other) hreached hlater hlater'
      · exact hheard.tracks_other heq (h.tracks other)
          ((h.orderly other).steps (hothers other heq)).2
  | restart => exact ⟨h.orderly, fun repo => Follows.none⟩

variable {h : List (Network ι lib × NetworkOp ι)}

theorem NetworkInvariant.of_run (hlib : ReadsLists lib)
    (hzero : (zeroCorners : Corners lib.toGeometries).Accepted) (hrun : Run (network ι lib) h s)
    (hanswers : Admitted Answers h) : NetworkInvariant s :=
  hrun.invariant (fun _ hinit => .start hinit)
    (fun _ _ _ hI hok hstep => hI.step hlib hzero hok hstep) hanswers

/-- **The R-trees are up to date.** Whatever interests are lost, late, repeated or overtaken,
whatever fetches come to nothing or bring segments of different lists, and whoever has to start
anew: when the listener is not just handling an interest, each repository whose recorded version is
its version has the R-tree of its index, unless the index has changed and not got a version yet. -/
theorem index_synced_throughout (hlib : ReadsLists lib)
    (hzero : (zeroCorners : Corners lib.toGeometries).Accepted) (hrun : Run (network ι lib) h s)
    (hanswers : Admitted Answers h) : Throughout Synced h s :=
  hrun.throughout (I := NetworkInvariant) (fun _ hinit => .start hinit)
    (fun _ hI => hI.synced hzero) (fun _ _ _ hI hok hstep => hI.step hlib hzero hok hstep) hanswers

/-- **The next version repairs what has been missed.** After any run, if the listener hears of the
version that the repository still has when it is done, and the list comes, then that version is
recorded, and the R-tree is the one of the index unless that has changed since. -/
theorem listen_syncs (hlib : ReadsLists lib)
    (hzero : (zeroCorners : Corners lib.toGeometries).Accepted) (hrun : Run (network ι lib) h s)
    (hanswers : Admitted Answers h) (hstep : NetworkStep s (.listen repo ad fetched) s')
    (hanswer : Answers s (.listen repo ad fetched))
    (hname : ad.interestName = versionInterest repo (s'.repositories repo).db.version)
    (hlt : (s'.repositories repo).db.version < 2 ^ 31)
    (hread : ∀ response, ad.response (reponame repo) = some response →
      lib.readValue response ≠ none) :
    s'.listener.map.repoVersionMap (reponame repo) = some (s'.repositories repo).db.version ∧
      ((s'.repositories repo).unpublished = false → HasIndex s' repo) := by
  have hinvariant := NetworkInvariant.of_run hlib hzero hrun hanswers
  have hafter := hinvariant.step hlib hzero hanswer hstep
  suffices hrecorded : s'.listener.map.repoVersionMap (reponame repo) =
      some (s'.repositories repo).db.version from
    ⟨hrecorded, hafter.synced hzero repo hrecorded⟩
  cases hstep with
  | @listen _ _ _ version repositories hsent hname' hbefore hlater hothers =>
    dsimp only at hname hlt hafter ⊢
    have hfetched := ((hinvariant.orderly repo).steps hbefore).1
    have hheard := heard_handle (l := s.listener) hlib hzero hname
      (hafter.orderly repo).version_nonneg hfetched.names hanswer
    have htracks := hafter.tracks repo
    dsimp only at htracks
    generalize (s.listener.handle ad).map = m at hheard htracks ⊢
    cases hheard with
    | nothing hold =>
      -- a version that is not new is recorded, and none is recorded that is not reached
      have hnot := hold hlt
      unfold IsNew at hnot
      push Not at hnot
      obtain ⟨oldVersion, hrecorded, hle⟩ := hnot
      exact hrecorded.trans (congrArg some (le_antisymm (htracks oldVersion hrecorded).1 hle))
    | list => exact Function.update_self _ _ _
    | unread hresponse hnone => exact absurd hnone (hread _ hresponse)
    | changed => exact Function.update_self _ _ _

end Runs

/-! ### One repository with one tile -/

section Example

/-- Every second part, from the second on. -/
def secondParts : List Str → List Str
  | _ :: part :: parts => part :: secondParts parts
  | _ => []

/-- The two members of an object, read off its parts between the quotes. -/
def membersOf (parts : List Str) (name : Str) : Option Value :=
  if name = "repo_name".toList then parts[3]?.map .string
  else if name = "prefix".toList then
    some (.array ((secondParts (parts.drop 6)).map .string))
  else none

/-- A reader of lists that goes by the quotes. -/
def quoteLibrary : MapLibrary where
  toGeometries := exactGeometries
  readValue response :=
    if 6 ≤ (splitFrom ['"'] 0 response).length then
      some (some (membersOf (splitFrom ['"'] 0 response)))
    else none

private theorem secondParts_names {names : List Str} (h : ∀ name ∈ names, PlainText name) :
    ∀ {before : Str}, '"' ∉ before → secondParts (splitFrom ['"'] 0 (before ++
      ((",".toList).intercalate (names.map fun name => '"' :: name ++ ['"']) ++ "]\x7d".toList))) =
        names := by
  have hquote : ∀ name, PlainText name → '"' ∉ name := fun name hname hc => (hname _ hc).2.1 rfl
  induction names with
  | nil =>
    intro before hbefore
    rw [List.map_nil, splitFrom_of_not_mem (by simpa using hbefore)]
    rfl
  | cons name names ih =>
    intro before hbefore
    have hname := hquote name (h name List.mem_cons_self)
    have hrest : ∀ t, splitFrom ['"'] 0 (before ++ ('"' :: name ++ '"' :: t)) =
        before :: name :: splitFrom ['"'] 0 t := by
      intro t
      have hfirst := @splitFrom_append _ [] _ hbefore (name ++ '"' :: t)
      have hsecond := @splitFrom_append _ [] _ hname t
      exact hfirst.trans (congrArg (before :: ·) hsecond)
    -- the first name, and then a comma or nothing in front of the others
    cases names with
    | nil =>
      have hlast : '"' ∉ "]\x7d".toList := by decide
      have hone := hrest "]\x7d".toList
      rw [splitFrom_of_not_mem hlast] at hone
      simpa [List.intercalate_singleton, secondParts] using congrArg secondParts hone
    | cons next names =>
      have hnext := @ih (fun n hn => h n (List.mem_cons_of_mem _ hn)) [','] (by decide)
      have hjoin : (",".toList).intercalate
          ((name :: next :: names).map fun name => '"' :: name ++ ['"']) =
          ('"' :: name ++ ['"']) ++ ",".toList ++ (",".toList).intercalate
            ((next :: names).map fun name => '"' :: name ++ ['"']) :=
        List.intercalate_cons_cons
      have hone := hrest (",".toList ++ ((",".toList).intercalate
        ((next :: names).map fun name => '"' :: name ++ ['"']) ++ "]\x7d".toList))
      have hassoc : before ++ (('"' :: name ++ ['"']) ++ ",".toList ++ (",".toList).intercalate
          ((next :: names).map fun name => '"' :: name ++ ['"']) ++ "]\x7d".toList) =
          before ++ ('"' :: name ++ '"' :: (",".toList ++ ((",".toList).intercalate
            ((next :: names).map fun name => '"' :: name ++ ['"']) ++ "]\x7d".toList))) := by
        simp
      rw [hjoin, hassoc, hone, secondParts]
      exact congrArg (name :: ·) hnext

private theorem splitFrom_quotes {parts : List Str} (h : ∀ part ∈ parts, '"' ∉ part) (t : Str) :
    splitFrom ['"'] 0 (parts.flatMap (· ++ ['"']) ++ t) = parts ++ splitFrom ['"'] 0 t := by
  induction parts with
  | nil => rfl
  | cons part parts ih =>
    have hfirst := @splitFrom_append _ [] _ (h part List.mem_cons_self)
      (parts.flatMap (· ++ ['"']) ++ t)
    rw [List.flatMap_cons, List.append_assoc, List.append_assoc]
    exact hfirst.trans (congrArg (part :: ·) (ih fun p hp => h p (List.mem_cons_of_mem _ hp)))

/-- A library that looks for quotes only reads the lists of plain names. -/
theorem readsLists_quoteLibrary : ReadsLists quoteLibrary where
  readValue repoName names hname hnames := by
    -- Cut at the quotes, the text falls into its names and what stands between them.
    have hfree : ∀ part ∈ ["\x7b".toList, "repo_name".toList, ": ".toList, repoName, ",".toList,
        "prefix".toList], '"' ∉ part := by
      intro part hpart hc
      simp only [List.mem_cons, List.not_mem_nil, or_false] at hpart
      rcases hpart with rfl | rfl | rfl | rfl | rfl | rfl
      · exact absurd hc (by decide)
      · exact absurd hc (by decide)
      · exact absurd hc (by decide)
      · exact (hname _ hc).2.1 rfl
      · exact absurd hc (by decide)
      · exact absurd hc (by decide)
    have hparts := splitFrom_quotes hfree (": [".toList ++ ((",".toList).intercalate
      (names.map fun name => '"' :: name ++ ['"']) ++ "]\x7d".toList))
    have htext : ["\x7b".toList, "repo_name".toList, ": ".toList, repoName, ",".toList,
        "prefix".toList].flatMap (· ++ ['"']) ++ (": [".toList ++ ((",".toList).intercalate
        (names.map fun name => '"' :: name ++ ['"']) ++ "]\x7d".toList)) =
        listText repoName names := by
      unfold listText
      generalize (",".toList).intercalate _ = joined
      simp
    have hsecond := @secondParts_names _ hnames ": [".toList (by decide)
    rw [htext] at hparts
    refine ⟨_, if_pos (by simp [hparts]), ?_, ?_⟩
    · rw [hparts]
      rfl
    · rw [hparts]
      exact congrArg (fun names => some (Value.array (List.map Value.string names))) hsecond

private def repoR : RepoComponent := ⟨.generic ("r".toList.map Char.toNat), by
  show ∀ b ∈ "r".toList.map Char.toNat, b < 256
  decide⟩

/-- The first version comes in. -/
private def firstVersion (response : Str) : Advertisement where
  interestName := versionInterest repoR 1
  wellFormed := by
    intro component hcomponent
    rcases List.mem_cons.mp hcomponent with rfl | hcomponent
    · show ∀ b ∈ "FES".toList.map Char.toNat, b < 256
      decide
    · rcases List.mem_cons.mp hcomponent with rfl | hcomponent
      · exact repoR.2
      · obtain rfl := List.mem_singleton.mp hcomponent
        show ∀ b ∈ ("version".toList ++ toDecimalInt 1).map Char.toNat, b < 256
        decide
  fetchElement _ := some [response]

private def oneTile : Db := { Db.empty with indexCollection := [⟨"/012/041".toList, 1⟩] }

private theorem readableNames_oneTile {db : Db} (h : db.indexNames = ["/012/041".toList]) :
    db.ReadableNames quoteLibrary.toGeometries := by
  have hrectangles : (rectangles [.string "/012/041".toList]
      (zeroCorners : Corners exactGeometries)).isSome = true := by
    decide +kernel
  have hreadable := (exists_rectangles_iff accepted_zeroCorners).mp
    (Option.isSome_iff_exists.mp hrectangles)
  obtain ⟨_, heq, hname⟩ := hreadable _ List.mem_cons_self
  intro name hmem
  rw [h, List.mem_singleton] at hmem
  subst hmem
  refine ⟨?_, (Value.string.inj heq) ▸ hname⟩
  decide

/-- A repository with a tile and no version yet. -/
private def unversioned : Repository Thread := ⟨⟨oneTile, fun _ => .elsewhere⟩, true⟩

/-- The repository has looked for a version and found none. -/
private def looking : Repository Thread :=
  ⟨⟨oneTile, Function.update unversioned.phase .main (.found none)⟩, true⟩

/-- The repository has written the first version. -/
private def writing : Repository Thread :=
  ⟨⟨oneTile.mapVersion (writeVersion none), Function.update looking.phase .main (.written 1)⟩,
    false⟩

/-- The repository has sent the version out. -/
private def published : Repository Thread :=
  ⟨⟨writing.db.sent 1, Function.update writing.phase .main .elsewhere⟩, false⟩

private theorem published_reached : Relation.ReflTransGen
    (RepositoryStep quoteLibrary.toGeometries) unversioned published := by
  have hnames : ∀ {db : Db}, db.indexNames = ["/012/041".toList] →
      db.ReadableNames quoteLibrary.toGeometries := readableNames_oneTile
  -- One update: the version document is looked for, written and sent.
  have hfind : RepositoryStep quoteLibrary.toGeometries unversioned looking :=
    .updater (UpdaterStep.find rfl : UpdaterStep _ (.find Thread.main) _)
      (fun _ _ h => nomatch h) (hnames rfl)
  have hfound : looking.phase .main = .found none := by simp [looking]
  have hwritten : writing.phase .main = .written 1 := by simp [writing]
  have hwrite : RepositoryStep quoteLibrary.toGeometries looking writing :=
    .updater (UpdaterStep.write hfound : UpdaterStep _ (.write Thread.main) _) trivial (hnames rfl)
  have hsend : RepositoryStep quoteLibrary.toGeometries writing published :=
    .updater (UpdaterStep.send hwritten : UpdaterStep _ (.send Thread.main) _) trivial (hnames rfl)
  exact ((Relation.ReflTransGen.single hfind).tail hwrite).tail hsend

private theorem exists_run_published :
    ∃ (h : List (Network Thread quoteLibrary × NetworkOp Thread))
      (s : Network Thread quoteLibrary), Run (network Thread quoteLibrary) h s ∧
      Admitted Answers h ∧ s.repositories repoR = published ∧
      s.listener = ⟨.empty, fun _ => none⟩ := by
  have hnames : oneTile.ReadableNames quoteLibrary.toGeometries := readableNames_oneTile rfl
  let start : Network Thread quoteLibrary := ⟨fun _ => unversioned, ⟨.empty, fun _ => none⟩⟩
  have hstart : (network Thread quoteLibrary).init start :=
    ⟨rfl, fun _ => ⟨rfl, rfl, Nat.zero_le 1, le_rfl, hnames⟩⟩
  -- Each step of the repository is a step of the network in which nothing is heard.
  suffices hall : ∀ r, Relation.ReflTransGen (RepositoryStep quoteLibrary.toGeometries)
      unversioned r → ∃ h, Run (network Thread quoteLibrary) h
        { start with repositories := Function.update start.repositories repoR r } ∧
        Admitted Answers h by
    obtain ⟨h, hrun, hok⟩ := hall published published_reached
    exact ⟨h, _, hrun, hok, by dsimp only; rw [Function.update_self], rfl⟩
  intro r hsteps
  induction hsteps with
  | refl =>
    refine ⟨[], .nil ?_, admitted_nil _⟩
    exact (Function.update_eq_self repoR start.repositories).symm ▸ hstart
  | @tail r r' _ hstep ih =>
    obtain ⟨h, hrun, hok⟩ := ih
    have hnext : NetworkStep
        { start with repositories := Function.update start.repositories repoR r }
        (.repository repoR)
        { start with repositories := Function.update start.repositories repoR r' } := by
      have hmoved : RepositoryStep quoteLibrary.toGeometries
          (Function.update start.repositories repoR r repoR) r' := by
        rwa [Function.update_self]
      have hnext := @NetworkStep.repository _ _ _ { start with
        repositories := Function.update start.repositories repoR r } repoR _ hmoved
      dsimp only at hnext
      rwa [Function.update_idem] at hnext
    have hanswers : Answers { start with
        repositories := Function.update start.repositories repoR r } (.repository repoR) := trivial
    exact ⟨_, hrun.snoc hnext, admitted_append_singleton.mpr ⟨hok, hanswers⟩⟩

section Listen

variable {s : Network Thread quoteLibrary}

private theorem listen_published (hs : s.repositories repoR = published) (response : Str) :
    NetworkStep s (.listen repoR (firstVersion response) published)
      ⟨s.repositories, s.listener.handle (firstVersion response)⟩ := by
  refine @NetworkStep.listen _ _ _ s repoR _ _ 1 _ ?_ rfl ?_ ?_ fun _ _ => .refl
  · rw [hs]
    exact List.mem_singleton_self 1
  · rw [hs]
  · rw [hs]

private theorem answers_published {response : Str} (h : quoteLibrary.readValue response = none ∨
      response = versionReply (reponame repoR) nameDocument published.db) :
    Answers s (.listen repoR (firstVersion response) published) := by
  intro repoID version had _
  have hversion := @version_versionInterest repoR (firstVersion response) 1 rfl (by norm_num)
  rw [if_pos (by norm_num), had] at hversion
  obtain ⟨rfl, rfl⟩ := Prod.mk.inj (Option.some.inj hversion)
  exact ⟨response, by simp [Advertisement.response, firstVersion], h.imp_right Or.inl⟩

end Listen

/-- The first list does not come, and the version is heard of again. -/
theorem listen_syncs_again :
    ∃ (h : List (Network Thread quoteLibrary × NetworkOp Thread))
      (s s' : Network Thread quoteLibrary) (ad : Advertisement) (fetched : Repository Thread),
      Run (network Thread quoteLibrary) h s ∧
      s.listener.map.repoVersionMap (reponame repoR) = some 0 ∧
      NetworkStep s (.listen repoR ad fetched) s' ∧
      s'.listener.map.repoVersionMap (reponame repoR) = some 1 ∧ HasIndex s' repoR := by
  obtain ⟨h, s, hrun, hok, hs, hlistener⟩ := exists_run_published
  -- The first list is lost, so the version is set back and the next advertisement is heard again.
  have hlost := listen_published hs []
  have hanswers : Answers s (.listen repoR (firstVersion []) published) :=
    answers_published (Or.inl (by decide))
  let s₁ : Network Thread quoteLibrary := ⟨s.repositories, s.listener.handle (firstVersion [])⟩
  have hstep := listen_published (s := s₁) hs
    (versionReply (reponame repoR) nameDocument published.db)
  have hrecorded : (Listener.handle (firstVersion []) (⟨.empty, fun _ => none⟩ :
      Listener quoteLibrary)).map.repoVersionMap (reponame repoR) = some 0 := by
    decide
  have hversion : (s.repositories repoR).db.version = 1 := by
    rw [hs]
    rfl
  have hread : ∀ response, (firstVersion (versionReply (reponame repoR) nameDocument
      published.db)).response (reponame repoR) = some response →
        quoteLibrary.readValue response ≠ none := by
    intro response hresponse
    obtain rfl : versionReply (reponame repoR) nameDocument published.db = response := by
      simpa [Advertisement.response, firstVersion] using hresponse
    decide +kernel
  obtain ⟨hnow, hindex⟩ := listen_syncs readsLists_quoteLibrary accepted_zeroCorners
    (hrun.snoc hlost) (admitted_append_singleton.mpr ⟨hok, hanswers⟩) hstep
    (answers_published (Or.inr rfl)) (congrArg (versionInterest repoR) hversion.symm)
    (hversion ▸ by norm_num) hread
  refine ⟨_, _, _, _, _, hrun.snoc hlost, ?_, hstep, hversion ▸ hnow, hindex ?_⟩
  · rw [← hrecorded, ← hlistener]
  · exact congrArg Repository.unpublished hs

/-- The list comes at once. -/
theorem index_synced_throughout_once :
    ∃ (h : List (Network Thread quoteLibrary × NetworkOp Thread))
      (s : Network Thread quoteLibrary), Run (network Thread quoteLibrary) h s ∧
      s.listener.map.repoVersionMap (reponame repoR) = some (s.repositories repoR).db.version ∧
      (s.repositories repoR).unpublished = false ∧ Throughout Synced h s := by
  obtain ⟨h, s, hrun, hok, hs, hlistener⟩ := exists_run_published
  have hanswers : Answers s (.listen repoR (firstVersion (versionReply (reponame repoR)
      nameDocument published.db)) published) :=
    answers_published (Or.inr rfl)
  -- After the update its advertisement is heard and the list of its index arrives.
  have hrun' := hrun.snoc (listen_published hs
    (versionReply (reponame repoR) nameDocument published.db))
  have hrecorded : (Listener.handle (firstVersion (versionReply (reponame repoR) nameDocument
      published.db)) (⟨.empty, fun _ => none⟩ : Listener quoteLibrary)).map.repoVersionMap
        (reponame repoR) = some published.db.version := by
    decide +kernel
  refine ⟨_, _, hrun', ?_, congrArg Repository.unpublished hs, ?_⟩
  · dsimp only
    rw [hlistener, hs]
    exact hrecorded
  · exact index_synced_throughout readsLists_quoteLibrary accepted_zeroCorners hrun'
      (admitted_append_singleton.mpr ⟨hok, hanswers⟩)

end Example

end OpenGeoBase
