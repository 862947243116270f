import OpenGeoBase.Fes.SegmentFetcher
import OpenGeoBase.Lib.Transition
import OpenGeoBase.Ndn.JndnName
import OpenGeoBase.Repo.Json
import Mathlib.Logic.Function.Basic

/-!
# The tiles of the repositories

A front end keeps, for each repository, the version of its index it has last heard of and an
R-tree of the rectangles of the tiles it advertises. When a repository advertises a version
that is new, the front end records the version first, then asks for the list of names, and
then puts the rectangles in place of those it had.

If the list cannot be read the recorded version is lowered by one, which need not be the version
of the list the front end has; and if anything else goes wrong it stays as it is. `KeepsRecord`
says which advertisements leave the recorded versions those of the lists, and
`recorded_throughout_iff` that this is so throughout if and only if all advertisements have been
like this.
-/

namespace OpenGeoBase

open Text Transition

/-! ### The libraries of the front end -/

/-- The floating-point numbers and the rectangles of an R-tree. -/
structure Geometries where
  Double : Type
  /-- The number that a decimal literal of the source stands for. -/
  literal : ℚ → Double
  plus : Double → Double → Double
  /-- `Double.parseDouble`; a text that is no number is `none`. -/
  parseDouble : Str → Option Double
  Rectangle : Type
  /-- `Geometries.rectangleGeographic`; an illegal argument is `none`. -/
  rectangleGeographic : Double → Double → Double → Double → Option Rectangle

/-- A rectangle between exact coordinates. -/
structure Rectangle where
  x1 : ℚ
  y1 : ℚ
  x2 : ℚ
  y2 : ℚ
  deriving DecidableEq

/-- Exact numbers, and rectangles whose longitudes are not normalized. -/
def exactGeometries : Geometries where
  Double := ℚ
  literal := id
  plus := (· + ·)
  parseDouble := Text.parseDouble
  Rectangle := Rectangle
  rectangleGeographic lon1 lat1 lon2 lat2 :=
    if lon1 ≤ lon2 ∧ lat1 ≤ lat2 then some ⟨lon1, lat1, lon2, lat2⟩ else none

/-- The libraries that the lists of names go through. -/
structure MapLibrary extends Geometries where
  /-- `ObjectMapper.readValue` of a `HashMap`; an `IOException` is `none`, the text `null` is
  `some none`. -/
  readValue : Str → Option (Option (Str → Option Value))

/-- What can be thrown while an advertisement is handled. -/
inductive Thrown where
  | ioException
  | runtimeException
  deriving DecidableEq

/-! ### The rectangle of a name -/

section Rtree

variable (geo : Geometries)

/-- The variables of the loop of `updateRtree`. -/
structure Corners where
  swLon : geo.Double
  swLat : geo.Double
  neLon : geo.Double
  neLat : geo.Double

variable {geo}

/-- The corners at `swLon` and `swLat`, and `size` to the north east of them. -/
def Corners.square (swLon swLat : geo.Double) (size : ℚ) : Corners geo :=
  ⟨swLon, swLat, geo.plus swLon (geo.literal size), geo.plus swLat (geo.literal size)⟩

/-- The corners of a name, those of the name before if the number of components is another one; an
exception is `none`. -/
def corners (prefixString : Str) (before : Corners geo) : Option (Corners geo) :=
  let prefixString :=
    if ['/'] <+: prefixString then prefixString else '/' :: prefixString
  match splitSlash prefixString with
  | [_, lon, lat, tens, units] => do
    let lonTens ← tens[0]?
    let lonUnits ← units[0]?
    let swLon ← geo.parseDouble (lon ++ ['.', lonTens, lonUnits])
    let latTens ← tens[1]?
    let latUnits ← units[1]?
    let swLat ← geo.parseDouble (lat ++ ['.', latTens, latUnits])
    pure (.square swLon swLat (1 / 100))
  | [_, lon, lat, tens] => do
    let lonTens ← tens[0]?
    let swLon ← geo.parseDouble (lon ++ ['.', lonTens])
    let latTens ← tens[1]?
    let swLat ← geo.parseDouble (lat ++ ['.', latTens])
    pure (.square swLon swLat (1 / 10))
  | [_, lon, lat] => do
    let swLon ← geo.parseDouble lon
    let swLat ← geo.parseDouble lat
    pure (.square swLon swLat 1)
  | _ => some before

/-- The rectangles that the loop of `updateRtree` adds; an exception is `none`. -/
def rectangles : List Value → Corners geo → Option (List geo.Rectangle)
  | [], _ => some []
  | value :: prefixes, before => do
    let prefixString ← value.getString?
    let c ← corners prefixString before
    let rectangle ← geo.rectangleGeographic c.swLon c.swLat c.neLon c.neLat
    let rtree ← rectangles prefixes c
    pure (rectangle :: rtree)

/-- The corners before the first name. -/
def zeroCorners : Corners geo := ⟨geo.literal 0, geo.literal 0, geo.literal 0, geo.literal 0⟩

end Rtree

/-! ### The map -/

/-- `NDNQueryRepoMap`: the versions by the identifiers of the repositories, and the R-trees, each
the list of its rectangles, by their names. -/
structure NDNQueryRepoMap (geo : Geometries) where
  repoVersionMap : Str → Option ℤ
  rtreeMap : Str → Option (List geo.Rectangle)

namespace NDNQueryRepoMap

section Update

variable {geo : Geometries}

def empty : NDNQueryRepoMap geo := ⟨fun _ => none, fun _ => none⟩

/-- `NDNQueryRepoMap.updateRtree`; the list of names may be `null`. -/
def updateRtree (repoName : Str) (prefixes : Option (List Value)) (m : NDNQueryRepoMap geo) :
    Except Thrown Unit × NDNQueryRepoMap geo :=
  let m := { m with rtreeMap := Function.update m.rtreeMap repoName none }
  match prefixes.bind fun prefixes => rectangles prefixes zeroCorners with
  | none => (.error .runtimeException, m)
  | some rtree => (.ok (), { m with rtreeMap := Function.update m.rtreeMap repoName (some rtree) })

/-- `NDNQueryRepoMap.updateVersion`. -/
def updateVersion (repoID : Str) (newVersion : ℤ) (m : NDNQueryRepoMap geo) :
    Bool × NDNQueryRepoMap geo :=
  let put := { m with repoVersionMap := Function.update m.repoVersionMap repoID (some newVersion) }
  match m.repoVersionMap repoID with
  | some oldVersion => if oldVersion < newVersion then (true, put) else (false, m)
  | none => (true, put)

/-- `NDNQueryRepoMap.restoreVersion`. -/
def restoreVersion (repoID : Str) (m : NDNQueryRepoMap geo) :
    Except Thrown Unit × NDNQueryRepoMap geo :=
  match m.repoVersionMap repoID with
  | none => (.error .runtimeException, m)
  | some version =>
    let versionToRestore := toInt32 (version - 1)
    (.ok (), { m with
      repoVersionMap := Function.update m.repoVersionMap repoID (some versionToRestore) })

end Update

section Listener

variable {lib : MapLibrary}

/-- `NDNQueryRepoMap.updateQueryRepoMap`, which returns after the call of `updateRtree`. -/
def updateQueryRepoMap (response : Str) (m : NDNQueryRepoMap lib.toGeometries) :
    Except Thrown Unit × NDNQueryRepoMap lib.toGeometries :=
  match lib.readValue response with
  | none => (.error .ioException, m)
  | some none => (.error .runtimeException, m)
  | some (some repoResponse) =>
    match repoResponse "repo_name".toList with
    | some (.string name) =>
      match Jndn.set name with
      | none => (.error .runtimeException, m)
      | some repoName =>
        match repoResponse "prefix".toList with
        | none => updateRtree (Jndn.toUri repoName) none m
        | some .null => updateRtree (Jndn.toUri repoName) none m
        | some (.array prefixes) => updateRtree (Jndn.toUri repoName) (some prefixes) m
        | some _ => (.error .runtimeException, m)
    | _ => (.error .runtimeException, m)

/-- `NDNPrefixUpdater.getPrefixes`. `fetchElement` is what the fetch manager makes of a request,
if it does not fail with an exception. -/
def getPrefixes (fetchElement : Str → Option (List Str)) (repoID : Str)
    (m : NDNQueryRepoMap lib.toGeometries) :
    Except Thrown Unit × NDNQueryRepoMap lib.toGeometries :=
  match Jndn.set ("/repo/".toList ++ repoID ++ "/GET_PREFIX".toList) with
  | none => (.error .runtimeException, m)
  | some requestIndexName =>
    match fetchElement (Jndn.toUri requestIndexName) with
    | none => (.error .runtimeException, m)
    | some result =>
      match updateQueryRepoMap result.flatten m with
      | (.error .ioException, m) => restoreVersion repoID m
      | outcome => outcome

/-- `Integer.parseInt`; a text that is no number of 32 bits is `none`. -/
def parseInt (s : Str) : Option ℤ :=
  let (neg, digits) := readSign s
  if digits = [] ∨ ¬digits.all Char.isDigit then none
  else
    let z : ℤ := if neg then -digitsValue digits else digitsValue digits
    if -2 ^ 31 ≤ z ∧ z < 2 ^ 31 then some z else none

/-- The version in the last component of an advertisement; an exception is `none`. -/
def repoVersion (component : Jndn.Component) : Option ℤ :=
  (splitText "version".toList component.toEscapedString)[1]?.bind parseInt

/-- `NDNVersionListenerCallback.onInterest`. -/
def onInterest (fetchElement : Str → Option (List Str)) (interestName : List Jndn.Component)
    (m : NDNQueryRepoMap lib.toGeometries) :
    Except Thrown Unit × NDNQueryRepoMap lib.toGeometries :=
  if interestName.length < 3 ∨ ¬"version".toList <:+: Jndn.toUri interestName then (.ok (), m)
  else
    match interestName[1]?, interestName[2]?.bind repoVersion with
    | some component, some repoVersion =>
      let repoID := component.toEscapedString
      let (newVersion, m) := updateVersion repoID repoVersion m
      if newVersion then getPrefixes fetchElement repoID m else (.ok (), m)
    | _, _ => (.error .runtimeException, m)

end Listener

end NDNQueryRepoMap

/-! ### Advertisements -/

section Runs

variable (lib : MapLibrary)

/-- An interest that comes in, and what becomes of the fetch if the listener makes one. -/
structure Advertisement where
  interestName : List Jndn.Component
  wellFormed : ∀ component ∈ interestName, component.WellFormed
  fetchElement : Str → Option (List Str)

/-- The repository and the version that are advertised; an interest that is not about a version is
`none`. -/
def Advertisement.version (ad : Advertisement) : Option (Str × ℤ) := do
  guard (3 ≤ ad.interestName.length ∧ "version".toList <:+: Jndn.toUri ad.interestName)
  let component ← ad.interestName[1]?
  let version ← ad.interestName[2]?.bind NDNQueryRepoMap.repoVersion
  pure (component.toEscapedString, version)

/-- The name of a repository, under which its R-tree is kept. -/
def repoNameOf (repoID : Str) : Str := "/repo/".toList ++ repoID

/-- The name that the list of a repository is asked for by. -/
def requestOf (repoID : Str) : Str := repoNameOf repoID ++ "/GET_PREFIX".toList

/-- The text of the list that the listener gets, if the fetch does not fail with an exception. -/
def Advertisement.response (ad : Advertisement) (repoID : Str) : Option Str :=
  (ad.fetchElement (requestOf repoID)).map List.flatten

/-- The repository whose list of names the text is, and the rectangles of the names. -/
def prefixList (response : Str) : Option (Str × List lib.Rectangle) :=
  match lib.readValue response with
  | some (some repoResponse) =>
    match repoResponse "repo_name".toList, repoResponse "prefix".toList with
    | some (.string name), some (.array prefixes) => do
      let repoName ← Jndn.set name
      let rtree ← rectangles prefixes zeroCorners
      pure (Jndn.toUri repoName, rtree)
    | _, _ => none
  | _ => none

/-- The map, and for each R-tree the version that was advertised when its list was put in. -/
structure Listener where
  map : NDNQueryRepoMap lib.toGeometries
  installed : Str → Option ℤ

variable {lib}

/-- The listener handles an advertisement. -/
def Listener.handle (ad : Advertisement) (s : Listener lib) : Listener lib where
  map := (NDNQueryRepoMap.onInterest ad.fetchElement ad.interestName s.map).2
  installed :=
    match ad.version with
    | none => s.installed
    | some (repoID, version) =>
      if (s.map.updateVersion repoID version).1 then
        match (ad.response repoID).bind (prefixList lib) with
        | none => s.installed
        | some (repoName, _) => Function.update s.installed repoName (some version)
      else s.installed

variable (lib)

/-- The listener from its start. -/
def versionListener : System (Listener lib) Advertisement where
  init s := s = ⟨NDNQueryRepoMap.empty, fun _ => none⟩
  step s ad s' := s' = s.handle ad

variable {lib}

/-- The recorded versions are those of the lists. -/
def RecordedIsInstalled (s : Listener lib) : Prop :=
  ∀ repoID, s.map.repoVersionMap repoID = s.installed (repoNameOf repoID)

/-- Either no version is advertised, or none that is new to the listener; or what is fetched is the
list of the repository; or it is no JSON object, and the version recorded so far is the one
before. -/
def KeepsRecord (s : Listener lib) (ad : Advertisement) : Prop :=
  ∀ repoID version, ad.version = some (repoID, version) →
    (∃ oldVersion, s.map.repoVersionMap repoID = some oldVersion ∧ version ≤ oldVersion) ∨
    (∃ response rtree, ad.response repoID = some response ∧
      prefixList lib response = some (repoNameOf repoID, rtree)) ∨
    (∃ response, ad.response repoID = some response ∧ lib.readValue response = none ∧
      s.map.repoVersionMap repoID = some (toInt32 (version - 1)))

/-! ### What the listener does -/

/-- The name of the request is read from its own URI. -/
theorem set_requestOf {component : Jndn.Component} (h : component.WellFormed) :
    ∃ name, Jndn.set (requestOf component.toEscapedString) = some name ∧
      Jndn.toUri name = requestOf component.toEscapedString := by
  let repo : Jndn.Component := .generic ("repo".toList.map Char.toNat)
  let getPrefix : Jndn.Component := .generic ("GET_PREFIX".toList.map Char.toNat)
  have hformed : ∀ c ∈ [repo, component, getPrefix], c.WellFormed := by
    intro c hc
    rcases List.mem_cons.mp hc with rfl | hc
    · show ∀ b ∈ "repo".toList.map Char.toNat, b < 256
      decide
    · rcases List.mem_cons.mp hc with rfl | hc
      · exact h
      · obtain rfl := List.mem_singleton.mp hc
        show ∀ b ∈ "GET_PREFIX".toList.map Char.toNat, b < 256
        decide
  have hrepo : repo.toEscapedString = "repo".toList := by decide
  have hget : getPrefix.toEscapedString = "GET_PREFIX".toList := by decide
  -- only the middle component varies, and it is the one already given in escaped form
  have huri : Jndn.toUri [repo, component, getPrefix] = requestOf component.toEscapedString := by
    calc
      _ = path ["repo".toList, component.toEscapedString, "GET_PREFIX".toList] :=
        congrArg₂ (fun c d => path [c, component.toEscapedString, d]) hrepo hget
      _ = requestOf component.toEscapedString := rfl
  refine ⟨[repo, component, getPrefix], ?_, huri⟩
  rw [← huri]
  exact Jndn.set_toUri (List.cons_ne_nil _ _) hformed

section Handle

variable (s : Listener lib) (ad : Advertisement) {m : NDNQueryRepoMap lib.toGeometries}
  {repoID response : Str} {version : ℤ}

/-- A list that is read replaces the R-tree of its repository. -/
theorem updateQueryRepoMap_of_prefixList {repoName : Str} {rtree : List lib.Rectangle}
    (h : prefixList lib response = some (repoName, rtree)) :
    NDNQueryRepoMap.updateQueryRepoMap response m =
      (.ok (), { m with rtreeMap := Function.update m.rtreeMap repoName (some rtree) }) := by
  unfold prefixList at h
  unfold NDNQueryRepoMap.updateQueryRepoMap
  -- follow `prefixList`: where it reads a list, the handler reads the same one and installs it
  split at h
  · next repoResponse hread =>
    rw [hread]
    split at h
    · next name prefixes hname hprefixes =>
      obtain ⟨parsed, hset, h⟩ := Option.bind_eq_some_iff.mp h
      obtain ⟨rectangles, hrectangles, h⟩ := Option.bind_eq_some_iff.mp h
      obtain ⟨rfl, rfl⟩ := Prod.mk.inj (Option.some.inj h)
      dsimp only
      rw [hname, hprefixes]
      dsimp only
      rw [hset]
      simp [NDNQueryRepoMap.updateRtree, hrectangles]
    · exact absurd h (by simp)
  · exact absurd h (by simp)

/-- A list that cannot be read throws after the old R-tree is gone. -/
theorem updateRtree_of_none {repoName : Str} {prefixes : Option (List Value)}
    (h : prefixes.bind (fun prefixes => rectangles prefixes zeroCorners) =
      (none : Option (List lib.Rectangle))) :
    m.updateRtree repoName prefixes = (.error .runtimeException,
      { m with rtreeMap := Function.update m.rtreeMap repoName none }) := by
  unfold NDNQueryRepoMap.updateRtree
  rw [h]

/-- Without a list there is an exception, and at most an R-tree is lost. -/
theorem updateQueryRepoMap_of_none (hread : lib.readValue response ≠ none)
    (h : prefixList lib response = none) : ∃ rtreeMap,
    NDNQueryRepoMap.updateQueryRepoMap response m =
      (.error .runtimeException, { m with rtreeMap := rtreeMap }) ∧
    ∀ repoName, rtreeMap repoName = m.rtreeMap repoName ∨ rtreeMap repoName = none := by
  have hkept : ∀ repoName, m.rtreeMap repoName = m.rtreeMap repoName ∨
      m.rtreeMap repoName = none := fun _ => .inl rfl
  -- the entry of the repository is dropped before the rectangles are parsed and is not put back
  have hremoved : ∀ name repoName, Function.update m.rtreeMap name none repoName =
      m.rtreeMap repoName ∨ Function.update m.rtreeMap name none repoName = none := by
    intro name repoName
    by_cases heq : repoName = name
    · subst heq
      exact .inr (Function.update_self _ _ _)
    · exact .inl (Function.update_of_ne heq _ _)
  unfold prefixList at h
  unfold NDNQueryRepoMap.updateQueryRepoMap
  -- in the source's order: no JSON, a value that is no object, the name, the prefixes
  split
  · next hnone => exact absurd hnone hread
  · exact ⟨_, rfl, hkept⟩
  · next repoResponse hvalue =>
    rw [hvalue] at h
    dsimp only at h
    split
    · next name hname =>
      rw [hname] at h
      split
      · exact ⟨_, rfl, hkept⟩
      · next repoName hset =>
        split
        · exact ⟨_, updateRtree_of_none rfl, hremoved _⟩
        · exact ⟨_, updateRtree_of_none rfl, hremoved _⟩
        · next prefixes hprefixes =>
          rw [hprefixes] at h
          dsimp only at h
          rw [hset] at h
          refine ⟨_, updateRtree_of_none ?_, hremoved _⟩
          show rectangles prefixes zeroCorners = none
          -- the list was read, so one of its rectangles is the part that failed to parse
          cases hrectangles : rectangles prefixes (zeroCorners : Corners lib.toGeometries) with
          | none => rfl
          | some rtree => simp [hrectangles] at h
        · exact ⟨_, rfl, hkept⟩
    · exact ⟨_, rfl, hkept⟩

/-- The listener has not recorded this version, nor a later one. -/
def IsNew (m : NDNQueryRepoMap lib.toGeometries) (repoID : Str) (version : ℤ) : Prop :=
  ∀ oldVersion, m.repoVersionMap repoID = some oldVersion → oldVersion < version

/-- What an advertisement can do. -/
inductive Listener.Handled (s : Listener lib) (ad : Advertisement) : Listener lib → Prop where
  | ignored (hold : ∀ repoID version, ad.version = some (repoID, version) →
      ¬IsNew s.map repoID version) : Listener.Handled s ad s
  | installed {repoID response repoName : Str} {version : ℤ} {rtree : List lib.Rectangle}
      (hversion : ad.version = some (repoID, version)) (hnew : IsNew s.map repoID version)
      (hresponse : ad.response repoID = some response)
      (hlist : prefixList lib response = some (repoName, rtree)) :
      Listener.Handled s ad ⟨⟨Function.update s.map.repoVersionMap repoID (some version),
        Function.update s.map.rtreeMap repoName (some rtree)⟩,
        Function.update s.installed repoName (some version)⟩
  | restored {repoID response : Str} {version : ℤ}
      (hversion : ad.version = some (repoID, version)) (hnew : IsNew s.map repoID version)
      (hresponse : ad.response repoID = some response) (hread : lib.readValue response = none) :
      Listener.Handled s ad ⟨⟨Function.update s.map.repoVersionMap repoID
        (some (toInt32 (version - 1))), s.map.rtreeMap⟩, s.installed⟩
  | failed {repoID : Str} {version : ℤ} {rtreeMap : Str → Option (List lib.Rectangle)}
      (hversion : ad.version = some (repoID, version)) (hnew : IsNew s.map repoID version)
      (hfailed : ∀ response, ad.response repoID = some response →
        lib.readValue response ≠ none ∧ prefixList lib response = none)
      (hlost : ∀ repoName, rtreeMap repoName = s.map.rtreeMap repoName ∨ rtreeMap repoName = none) :
      Listener.Handled s ad ⟨⟨Function.update s.map.repoVersionMap repoID (some version), rtreeMap⟩,
        s.installed⟩

/-- A new version is recorded. -/
theorem updateVersion_of_isNew (h : IsNew m repoID version) :
    m.updateVersion repoID version = (true,
      { m with repoVersionMap := Function.update m.repoVersionMap repoID (some version) }) := by
  unfold NDNQueryRepoMap.updateVersion
  cases hold : m.repoVersionMap repoID with
  | none => rfl
  | some oldVersion => exact if_pos (h oldVersion hold)

/-- A version that is known or older leaves the map alone. -/
theorem updateVersion_of_not_isNew (h : ¬IsNew m repoID version) :
    m.updateVersion repoID version = (false, m) := by
  unfold NDNQueryRepoMap.updateVersion
  cases hold : m.repoVersionMap repoID with
  | none => exact absurd (fun _ hsome => absurd (hold.symm.trans hsome) (by simp)) h
  | some oldVersion =>
    refine if_neg fun hlt => h fun oldVersion' hold' => ?_
    obtain rfl : oldVersion = oldVersion' := Option.some.inj (hold.symm.trans hold')
    exact hlt

/-- An interest that advertises no version leaves the map as it is. -/
theorem onInterest_of_version_none (h : ad.version = none) :
    (NDNQueryRepoMap.onInterest ad.fetchElement ad.interestName m).2 = m := by
  unfold NDNQueryRepoMap.onInterest
  split
  · rfl
  · next hsize =>
    split
    · next component version hcomponent hversion =>
      rw [not_or, not_lt, not_not] at hsize
      unfold Advertisement.version at h
      rw [hcomponent, hversion, guard, if_pos hsize] at h
      exact absurd h (Option.some_ne_none _)
    · rfl

/-- An advertisement is answered by a fetch exactly if its version is new. -/
theorem onInterest_of_version (h : ad.version = some (repoID, version)) :
    NDNQueryRepoMap.onInterest ad.fetchElement ad.interestName m =
      if (m.updateVersion repoID version).1 then
        NDNQueryRepoMap.getPrefixes ad.fetchElement repoID (m.updateVersion repoID version).2
      else (.ok (), (m.updateVersion repoID version).2) := by
  unfold Advertisement.version at h
  obtain ⟨_, hguard, h⟩ := Option.bind_eq_some_iff.mp h
  obtain ⟨component, hcomponent, h⟩ := Option.bind_eq_some_iff.mp h
  obtain ⟨version', hversion, h⟩ := Option.bind_eq_some_iff.mp h
  obtain ⟨rfl, rfl⟩ := Prod.mk.inj (Option.some.inj h)
  have hsize : 3 ≤ ad.interestName.length ∧ "version".toList <:+: Jndn.toUri ad.interestName := by
    by_contra hnot
    rw [guard, if_neg hnot] at hguard
    exact absurd hguard (by simp)
  unfold NDNQueryRepoMap.onInterest
  rw [if_neg (by rw [not_or, not_lt, not_not]; exact hsize), hcomponent, hversion]

/-- The repository that is advertised is a component of the name, so the list can be asked for. -/
theorem getPrefixes_of_version (h : ad.version = some (repoID, version)) :
    NDNQueryRepoMap.getPrefixes ad.fetchElement repoID m =
      match ad.response repoID with
      | none => (.error .runtimeException, m)
      | some response =>
        match NDNQueryRepoMap.updateQueryRepoMap response m with
        | (.error .ioException, m) => NDNQueryRepoMap.restoreVersion repoID m
        | outcome => outcome := by
  -- the identifier is a component of the received name, which is why it is well formed
  obtain ⟨component, hmem, rfl⟩ : ∃ component ∈ ad.interestName,
      component.toEscapedString = repoID := by
    unfold Advertisement.version at h
    obtain ⟨_, _, h⟩ := Option.bind_eq_some_iff.mp h
    obtain ⟨component, hcomponent, h⟩ := Option.bind_eq_some_iff.mp h
    obtain ⟨_, _, h⟩ := Option.bind_eq_some_iff.mp h
    exact ⟨component, List.mem_of_getElem? hcomponent,
      (Prod.mk.inj (Option.some.inj h)).1⟩
  obtain ⟨name, hset, huri⟩ := set_requestOf (ad.wellFormed component hmem)
  have hset : Jndn.set ("/repo/".toList ++ component.toEscapedString ++ "/GET_PREFIX".toList) =
      some name := hset
  unfold NDNQueryRepoMap.getPrefixes Advertisement.response
  rw [hset]
  dsimp only
  rw [huri]
  cases ad.fetchElement (requestOf component.toEscapedString) with
  | none => rfl
  | some result => rfl

/-- **What an advertisement does** is one of four things. -/
theorem Listener.handled : Listener.Handled s ad (s.handle ad) := by
  unfold Listener.handle
  cases hversion : ad.version with
  | none =>
    rw [onInterest_of_version_none ad hversion]
    exact .ignored fun repoID version h => absurd (hversion.symm.trans h) (by simp)
  | some advertised =>
    obtain ⟨repoID, version⟩ := advertised
    rw [onInterest_of_version ad hversion]
    dsimp only
    by_cases hnew : IsNew s.map repoID version
    -- the version is already stored when the prefixes are asked for
    · rw [updateVersion_of_isNew hnew, if_pos rfl, if_pos rfl, getPrefixes_of_version ad hversion]
      cases hresponse : ad.response repoID with
      -- no data came back: the new version stays, the rectangles are the old ones
      | none =>
        exact .failed hversion hnew (fun _ h => absurd (hresponse.symm.trans h) (by simp))
          fun _ => .inl rfl
      | some response =>
        dsimp only [Option.bind_some]
        cases hlist : prefixList lib response with
        | some list =>
          obtain ⟨repoName, rtree⟩ := list
          rw [updateQueryRepoMap_of_prefixList hlist]
          exact .installed hversion hnew hresponse hlist
        | none =>
          -- only a response that is no JSON raises the exception that restores the old version
          by_cases hread : lib.readValue response = none
          · have hupdate : ∀ m : NDNQueryRepoMap lib.toGeometries,
                NDNQueryRepoMap.updateQueryRepoMap response m = (.error .ioException, m) := by
              intro m
              unfold NDNQueryRepoMap.updateQueryRepoMap
              rw [hread]
            rw [hupdate]
            dsimp only
            unfold NDNQueryRepoMap.restoreVersion
            dsimp only
            rw [Function.update_self]
            dsimp only
            rw [Function.update_idem]
            exact .restored hversion hnew hresponse hread
          -- JSON, but no prefix list: the version stays and the old rectangles may be gone
          · obtain ⟨rtreeMap, hupdate, hlost⟩ :=
              updateQueryRepoMap_of_none (m := { s.map with
                repoVersionMap := Function.update s.map.repoVersionMap repoID (some version) })
                hread hlist
            rw [hupdate]
            refine .failed hversion hnew (fun response' hresponse' => ?_) hlost
            obtain rfl : response = response' := Option.some.inj (hresponse.symm.trans hresponse')
            exact ⟨hread, hlist⟩
    -- an advertisement that is not newer changes nothing
    · rw [updateVersion_of_not_isNew hnew]
      refine .ignored fun repoID' version' h => ?_
      obtain ⟨rfl, rfl⟩ := Prod.mk.inj (Option.some.inj (hversion.symm.trans h))
      exact hnew

end Handle

/-! ### The recorded versions -/

/-- The names are different for different identifiers. -/
theorem repoNameOf_injective : Function.Injective repoNameOf :=
  fun _ _ h => List.append_cancel_left h

/-- An advertisement that is ignored cannot change a record. -/
theorem KeepsRecord.of_ignored {s : Listener lib} {ad : Advertisement}
    (hold : ∀ repoID version, ad.version = some (repoID, version) →
      ¬IsNew s.map repoID version) : KeepsRecord s ad := by
  intro repoID version hversion
  have hnot := hold repoID version hversion
  unfold IsNew at hnot
  push Not at hnot
  exact .inl hnot

/-- For an advertisement of a new version, what is fetched decides. -/
theorem KeepsRecord.iff_of_isNew {s : Listener lib} {ad : Advertisement} {repoID : Str}
    {version : ℤ} (hversion : ad.version = some (repoID, version))
    (hnew : IsNew s.map repoID version) : KeepsRecord s ad ↔
      (∃ response rtree, ad.response repoID = some response ∧
        prefixList lib response = some (repoNameOf repoID, rtree)) ∨
      (∃ response, ad.response repoID = some response ∧ lib.readValue response = none ∧
        s.map.repoVersionMap repoID = some (toInt32 (version - 1))) := by
  constructor
  · intro h
    refine (h repoID version hversion).resolve_left ?_
    rintro ⟨oldVersion, hold, hle⟩
    exact absurd (hnew oldVersion hold) (not_lt.mpr hle)
  · intro h repoID' version' hversion'
    obtain ⟨rfl, rfl⟩ := Prod.mk.inj (Option.some.inj (hversion.symm.trans hversion'))
    exact .inr h

/-- A version that is new is not the recorded one. -/
theorem IsNew.ne {m : NDNQueryRepoMap lib.toGeometries} {repoID : Str} {version : ℤ}
    (h : IsNew m repoID version) : some version ≠ m.repoVersionMap repoID := fun heq =>
  absurd (h version heq.symm) (lt_irrefl version)

/-- If the recorded versions are those of the lists before an advertisement, then they are after it
if and only if it keeps them so. -/
theorem recordedIsInstalled_handle_iff {s : Listener lib} {ad : Advertisement}
    (h : RecordedIsInstalled s) : RecordedIsInstalled (s.handle ad) ↔ KeepsRecord s ad := by
  have hhandled := s.handled ad
  generalize s.handle ad = s' at hhandled ⊢
  cases hhandled with
  | ignored hold => exact iff_of_true h (.of_ignored hold)
  | @installed repoID response repoName version rtree hversion hnew hresponse hlist =>
    rw [KeepsRecord.iff_of_isNew hversion hnew]
    constructor
    · intro hafter
      refine .inl ⟨response, rtree, hresponse, ?_⟩
      -- the list of another repository would leave the version of this one where it was
      by_cases hname : repoNameOf repoID = repoName
      · rw [hname]
        exact hlist
      · have hthis := hafter repoID
        dsimp only at hthis
        rw [Function.update_self, Function.update_of_ne hname, ← h repoID] at hthis
        exact absurd hthis hnew.ne
    · intro hkeeps repoID'
      obtain rfl : repoName = repoNameOf repoID := by
        rcases hkeeps with
          ⟨response', rtree', hresponse', hlist'⟩ | ⟨response', hresponse', hread, _⟩
        · obtain rfl : response = response' := Option.some.inj (hresponse.symm.trans hresponse')
          exact (Prod.mk.inj (Option.some.inj (hlist.symm.trans hlist'))).1
        · obtain rfl : response = response' := Option.some.inj (hresponse.symm.trans hresponse')
          unfold prefixList at hlist
          rw [hread] at hlist
          exact absurd hlist (by simp)
      dsimp only
      by_cases heq : repoID' = repoID
      · subst heq
        rw [Function.update_self, Function.update_self]
      · rw [Function.update_of_ne heq, Function.update_of_ne (repoNameOf_injective.ne heq)]
        exact h repoID'
  | @restored repoID response version hversion hnew hresponse hread =>
    rw [KeepsRecord.iff_of_isNew hversion hnew]
    constructor
    · intro hafter
      have hthis := hafter repoID
      dsimp only at hthis
      rw [Function.update_self, ← h repoID] at hthis
      exact .inr ⟨response, hresponse, hread, hthis.symm⟩
    · intro hkeeps repoID'
      have hrecorded : s.map.repoVersionMap repoID = some (toInt32 (version - 1)) := by
        rcases hkeeps with ⟨response', rtree, hresponse', hlist⟩ | ⟨_, _, _, hrecorded⟩
        · obtain rfl : response = response' := Option.some.inj (hresponse.symm.trans hresponse')
          unfold prefixList at hlist
          rw [hread] at hlist
          exact absurd hlist (by simp)
        · exact hrecorded
      dsimp only
      rw [← hrecorded, Function.update_eq_self]
      exact h repoID'
  | @failed repoID version rtreeMap hversion hnew hfailed hlost =>
    rw [KeepsRecord.iff_of_isNew hversion hnew]
    refine iff_of_false (fun hafter => ?_) ?_
    · have hthis := hafter repoID
      dsimp only at hthis
      rw [Function.update_self, ← h repoID] at hthis
      exact hnew.ne hthis
    · rintro (⟨response, rtree, hresponse, hlist⟩ | ⟨response, hresponse, hread, _⟩)
      · exact absurd ((hfailed response hresponse).2.symm.trans hlist) (by simp)
      · exact (hfailed response hresponse).1 hread

/-- **The R-trees are those of the lists**: what is kept under a name has been put there by the
advertisement of the installed version, of a list with this name. -/
theorem exists_advertisement {h : List (Listener lib × Advertisement)} {s : Listener lib}
    (hrun : Run (versionListener lib) h s) {repoName : Str} {rtree : List lib.Rectangle}
    (hrtree : s.map.rtreeMap repoName = some rtree) :
    ∃ e ∈ h, ∃ repoID version response, e.2.version = some (repoID, version) ∧
      e.2.response repoID = some response ∧ prefixList lib response = some (repoName, rtree) ∧
      s.installed repoName = some version := by
  -- induction on the run: a rectangle list is there because the last step installed it or before
  induction hrun with
  | nil hinit =>
    subst hinit
    exact absurd hrtree (Option.some_ne_none rtree).symm
  | @snoc h s s' ad hrun hstep ih =>
    -- a step that leaves this repository alone keeps the advertisement found before it
    have hlater : s.map.rtreeMap repoName = some rtree →
        s'.installed repoName = s.installed repoName → ∃ e ∈ h ++ [(s, ad)], ∃ repoID version
        response, e.2.version = some (repoID, version) ∧ e.2.response repoID = some response ∧
        prefixList lib response = some (repoName, rtree) ∧
        s'.installed repoName = some version := by
      intro hbefore hinstalled
      obtain ⟨e, he, repoID, version, response, hversion, hresponse, hlist, hsome⟩ := ih hbefore
      exact ⟨e, List.mem_append_left _ he, repoID, version, response, hversion, hresponse, hlist,
        hinstalled.trans hsome⟩
    obtain rfl : s' = s.handle ad := hstep
    have hhandled := s.handled ad
    generalize s.handle ad = s' at hhandled hrtree hlater ⊢
    cases hhandled with
    | ignored => exact hlater hrtree rfl
    | @installed repoID response name version rtree' hversion hnew hresponse hlist =>
      -- only the repository named in the response has its list replaced
      by_cases hname : repoName = name
      · subst hname
        dsimp only at hrtree
        rw [Function.update_self] at hrtree
        obtain rfl := Option.some.inj hrtree
        exact ⟨(s, ad), List.mem_append_right _ (List.mem_singleton_self _), repoID, version,
          response, hversion, hresponse, hlist, Function.update_self _ _ _⟩
      · exact hlater ((Function.update_of_ne hname _ _).symm.trans hrtree)
          (Function.update_of_ne hname _ _)
    | restored => exact hlater hrtree rfl
    -- a failed update can only remove the list, and one is there
    | failed _ _ _ hlost =>
      rcases hlost repoName with hsame | hgone
      · exact hlater (hsame.symm.trans hrtree) rfl
      · exact absurd (hgone.symm.trans hrtree) (by simp)

/-- **The recorded versions are those of the lists** throughout if and only if all advertisements
keep them so. -/
theorem recorded_throughout_iff {h : List (Listener lib × Advertisement)} {s : Listener lib}
    (hrun : Run (versionListener lib) h s) :
    Throughout RecordedIsInstalled h s ↔ Admitted KeepsRecord h := by
  refine hrun.throughout_iff (I := RecordedIsInstalled) ?_ (fun _ h => h) ?_ ?_
  · rintro s rfl repoID
    rfl
  · rintro s ad s' hI hkeeps rfl
    exact (recordedIsInstalled_handle_iff hI).mpr hkeeps
  · rintro s ad s' hI rfl hafter
    exact (recordedIsInstalled_handle_iff hI).mp hafter

/-- The list of a repository that advertises one tile. -/
def oneTileList : Str := "\x7b\"repo_name\": \"/repo/r\",\"prefix\": [\"/012/041\"]\x7d".toList

/-- A library that reads this list; the empty text is no JSON. -/
def oneTileLibrary : MapLibrary where
  toGeometries := exactGeometries
  readValue response :=
    if response = oneTileList then some (some fun name =>
      if name = "repo_name".toList then some (.string "/repo/r".toList)
      else if name = "prefix".toList then some (.array [.string "/012/041".toList])
      else none)
    else none

/-- The repository advertises its version 5. -/
def fifthVersion (fetchElement : Str → Option (List Str)) : Advertisement where
  interestName := [.generic ("FES".toList.map Char.toNat), .generic ("r".toList.map Char.toNat),
    .generic ("version5".toList.map Char.toNat)]
  wellFormed := by
    intro component hcomponent
    rcases List.mem_cons.mp hcomponent with rfl | hcomponent
    · show ∀ b ∈ "FES".toList.map Char.toNat, b < 256
      decide
    · rcases List.mem_cons.mp hcomponent with rfl | hcomponent
      · show ∀ b ∈ "r".toList.map Char.toNat, b < 256
        decide
      · obtain rfl := List.mem_singleton.mp hcomponent
        show ∀ b ∈ "version5".toList.map Char.toNat, b < 256
        decide
  fetchElement := fetchElement

/-- One advertisement, whose list is fetched. -/
theorem recorded_throughout_iff_fetched :
    ∃ (h : List (Listener oneTileLibrary × Advertisement)) (s : Listener oneTileLibrary),
      Run (versionListener oneTileLibrary) h s ∧
      s.map.repoVersionMap "r".toList = some 5 ∧ s.installed "/repo/r".toList = some 5 ∧
      (Throughout RecordedIsInstalled h s ↔ Admitted KeepsRecord h) := by
  have hrun := (Run.nil (S := versionListener oneTileLibrary) rfl).snoc (a := fifthVersion
    fun _ => some [oneTileList]) rfl
  exact ⟨_, _, hrun, by decide +kernel, by decide +kernel, recorded_throughout_iff hrun⟩

/-- The fetch of the first list fails: the version before is recorded, but there is no list. -/
theorem recorded_without_list :
    ∃ (h : List (Listener oneTileLibrary × Advertisement)) (s : Listener oneTileLibrary),
      Run (versionListener oneTileLibrary) h s ∧
      s.map.repoVersionMap "r".toList = some 4 ∧ s.installed "/repo/r".toList = none ∧
      ¬Throughout RecordedIsInstalled h s := by
  have hrun := (Run.nil (S := versionListener oneTileLibrary) rfl).snoc (a := fifthVersion
    fun _ => some []) rfl
  have hrecorded : ((⟨NDNQueryRepoMap.empty, fun _ => none⟩ : Listener oneTileLibrary).handle
      (fifthVersion fun _ => some [])).map.repoVersionMap "r".toList = some 4 := by
    decide
  have hinstalled : ((⟨NDNQueryRepoMap.empty, fun _ => none⟩ : Listener oneTileLibrary).handle
      (fifthVersion fun _ => some [])).installed "/repo/r".toList = none := by
    decide
  refine ⟨_, _, hrun, hrecorded, hinstalled, fun hthroughout => ?_⟩
  have hsame := hthroughout.2 "r".toList
  rw [hrecorded, show repoNameOf "r".toList = "/repo/r".toList from rfl, hinstalled] at hsame
  exact absurd hsame (by simp)

end Runs

end OpenGeoBase
