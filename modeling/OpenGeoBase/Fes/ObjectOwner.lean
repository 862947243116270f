import OpenGeoBase.Auc.UserController
import OpenGeoBase.Ndn.JndnName

/-!
# The owner of an object

The front end names an object after the prefix of its repository, its data identifier, the
identifier of the user that inserts it, and a nonce. To delete an object is allowed to the user
whose tenant and name are the components 4 and 5 of its name, counted in the printed name from
the empty text before the first slash, and the first two parts of the user's own identifier.

So the test goes by the parts of texts between slashes, but one text has been parsed and printed
on the way and the other has not. `executed_iff` says which users pass it. When the data identifier
is printed as one component this is the owner and nobody else if and only if the first two parts of
the owner's identifier are printed as they are, and no other user has the same (`owner_test_iff`).
Other data identifiers shift the components that are compared.
-/

namespace OpenGeoBase

open Text Transition Jndn

/-! ### Insertion -/

/-- The characters of `Utils.generateNonce`. -/
def nonceCharset : Str := "1234567890qwertyuiopasdfghjklzxcvbnm".toList

/-- A nonce of `Utils.generateNonce`, which draws each character from as many as the nonce is to
have. -/
def IsNonce (lenght : ℕ) (nonce : Str) : Prop :=
  ∃ random : List ℕ, random.length = lenght ∧ (∀ i ∈ random, i < lenght) ∧
    nonce = random.map fun i => nonceCharset.getD i ' '

/-- `ExecutionTaskInsert.insertObjectName`, with its nonce; an error is `none`. -/
def insertObjectName (repoPrefix did : Str) (currentUser : User) (nonce : Str) : Option Str :=
  let name := repoPrefix ++ path [did, currentUser.userID, nonce]
  (Jndn.set name).map fun ndnName => toUri (ndnName ++ [segmentZero])

/-! ### Deletion -/

/-- What `ContentService.removeContent` does: it refuses the token or the user, fails with an
exception, or executes the deletion. -/
inductive Removal where
  | invalidToken
  | unauthorized
  | failed
  | executed
  deriving DecidableEq

/-- `ContentService.removeContent` up to the execution, for the user that the token belongs to. -/
def removeContent (user : Option User) (oid : Str) : Removal :=
  match user with
  | none => .invalidToken
  | some user =>
    let oidComponents := splitSlash oid
    let userComponents := splitSlash user.userID
    match userComponents[0]?, userComponents[1]?, oidComponents[4]?, oidComponents[5]? with
    | some tid, some uid, some oidTenant, some oidUser =>
      if oidTenant ++ '/' :: oidUser ≠ tid ++ '/' :: uid then
        if !user.isSuperUser && !user.isAdmin then .unauthorized else .executed
      else if !user.permissionCheck then .unauthorized
      else .executed
    | _, _, _, _ => .failed

/-! ### Who passes the test -/

/-- The two parts of the user's identifier that the test looks at. -/
def User.claims (user : User) : Option (Str × Str) := do
  let tid ← (splitSlash user.userID)[0]?
  let uid ← (splitSlash user.userID)[1]?
  pure (tid, uid)

/-- What the components of these parts are printed as. -/
def printedParts (parts : List Str) : Option (List Str) :=
  (parseParts parts).map (List.map Component.toEscapedString)

/-- Of what the data identifier, the identifier of the owner and the nonce are printed as, and the
segment number, the second and the third component. -/
def NamesUser (did : Str) (owner : User) (nonce tid uid : Str) : Prop :=
  ∃ printed, printedParts (splitPath did ++ splitPath owner.userID ++ [nonce]) = some printed ∧
    (printed ++ [segmentZero.toEscapedString])[1]? = some tid ∧
    (printed ++ [segmentZero.toEscapedString])[2]? = some uid

/-- The part is a component, and printed as it is. -/
def PrintsAsItself (part : Str) : Prop := printedParts [part] = some [part]

/-- The user is taken for the owner of an object. -/
def User.IsNamed (user : User) (did : Str) (owner : User) (nonce : Str) : Prop :=
  ∃ tid uid, user.claims = some (tid, uid) ∧ NamesUser did owner nonce tid uid

/-- The data identifier is printed as one component. -/
def IsOneComponent (did : Str) : Prop := ∃ d, printedParts (splitPath did) = some [d]

/-- The two parts of the user's identifier that the test looks at are printed as they are. -/
def User.IsPlain (user : User) : Prop :=
  ∃ tid uid, user.claims = some (tid, uid) ∧ PrintsAsItself tid ∧ PrintsAsItself uid

/-- The prefix of a repository, of two components. -/
def IsRepoPrefix (repoPrefix : Str) : Prop :=
  ∃ a b, repoPrefix = path [a, b] ∧ ∀ part ∈ [a, b], SlashFree part ∧
    (∀ c ∈ part.head?, ¬c ≤ ' ') ∧ ∃ component, parseComponent part = some (some component)

/-! ### The name of an object -/

/-- A nonce is a number of at least one digit. -/
theorem IsNonce.isDigits {nonce : Str} (h : IsNonce 10 nonce) : IsDigits nonce ∧ nonce ≠ [] := by
  obtain ⟨random, hlength, hlt, rfl⟩ := h
  have hdigit : ∀ i < 10, (nonceCharset.getD i ' ').isDigit = true := by decide
  constructor
  · intro c hc
    obtain ⟨i, hi, rfl⟩ := List.mem_map.mp hc
    exact hdigit i (hlt i hi)
  · intro hnil
    rw [List.map_eq_nil_iff.mp hnil] at hlength
    exact absurd hlength (by simp)

/-- A printed name is split into what its components are printed as. -/
theorem splitSlash_toUri {components : List Component} {component : Component}
    (h : ∀ c ∈ components ++ [component], c.WellFormed) :
    splitSlash (toUri (components ++ [component])) =
      [] :: (components ++ [component]).map Component.toEscapedString := by
  have hne : components ++ [component] ≠ [] := by simp
  unfold toUri
  rw [if_neg hne, List.map_append, List.map_singleton]
  refine splitSlash_path ?_ (toEscapedString_ne_nil component)
  rw [← List.map_singleton, ← List.map_append]
  intro part hpart
  obtain ⟨c, hc, rfl⟩ := List.mem_map.mp hpart
  exact fun hslash => (mem_toEscapedString (h c hc) '/' hslash).2 rfl

/-- Two texts without a slash are told apart behind a slash. -/
theorem append_slash_inj {a b c d : Str} (ha : SlashFree a) (hb : SlashFree b) (hc : SlashFree c)
    (hd : SlashFree d) : a ++ '/' :: b = c ++ '/' :: d ↔ a = c ∧ b = d := by
  constructor
  · intro heq
    have hpath : path [a, b] = path [c, d] := by
      unfold path
      rw [List.flatMap_cons, List.flatMap_cons, List.flatMap_nil, List.append_nil,
        List.flatMap_cons, List.flatMap_cons, List.flatMap_nil, List.append_nil,
        List.cons_append, List.cons_append, heq]
    have hparts := path_injective (by simp [ha, hb]) (by simp [hc, hd]) hpath
    exact ⟨(List.cons.inj hparts).1, (List.cons.inj (List.cons.inj hparts).2).1⟩
  · rintro ⟨rfl, rfl⟩
    rfl

/-- A user who may write and is no administrator passes if the two parts are the same. -/
theorem removeContent_eq_executed_iff {user : User} {oid : Str}
    (hpermission : user.permissionType = some "rw".toList) :
    removeContent (some user) oid = .executed ↔ ∃ tid uid, user.claims = some (tid, uid) ∧
      (splitSlash oid)[4]? = some tid ∧ (splitSlash oid)[5]? = some uid := by
  obtain ⟨hsuper, hadmin, hcheck⟩ := User.permissions_of_rw hpermission
  unfold removeContent User.claims
  -- `removeContent` reads the four parts one by one; a missing one throws on both sides
  cases htid : (splitSlash user.userID)[0]? with
  | none => simp [htid]
  | some tid =>
    cases huid : (splitSlash user.userID)[1]? with
    | none => simp [htid, huid]
    | some uid =>
      cases htenant : (splitSlash oid)[4]? with
      | none => simp [htid, huid, htenant]
      | some oidTenant =>
        cases huser : (splitSlash oid)[5]? with
        | none => simp [htid, huid, htenant, huser]
        | some oidUser =>
          -- `append_slash_inj` needs that no part has a slash: all four come from `splitSlash`
          have hslash : ∀ {s part : Str} {i : ℕ}, (splitSlash s)[i]? = some part →
              SlashFree part :=
            fun h => slashFree_of_mem_splitSlash (List.mem_of_getElem? h)
          have heq := append_slash_inj (hslash htenant) (hslash huser) (hslash htid) (hslash huid)
          dsimp only
          rw [hsuper, hadmin, hcheck, htid, huid, htenant, huser]
          dsimp only
          -- equal prefixes are equal pairs, so the branch taken says whether the two users agree
          by_cases hsame : oidTenant = tid ∧ oidUser = uid
          · rw [if_neg (not_not.mpr (heq.mpr hsame))]
            obtain ⟨rfl, rfl⟩ := hsame
            exact iff_of_true rfl ⟨_, _, rfl, rfl, rfl⟩
          · rw [if_pos (mt heq.mp hsame)]
            refine iff_of_false (by decide) ?_
            rintro ⟨tid', uid', hclaims, htid', huid'⟩
            obtain ⟨rfl, rfl⟩ := Prod.mk.inj (Option.some.inj hclaims)
            exact hsame ⟨Option.some.inj htid', Option.some.inj huid'⟩

section Insertion

variable {repoPrefix did nonce oid : Str} {owner : User} (hrepo : IsRepoPrefix repoPrefix)
  (hnonce : IsNonce 10 nonce) (hoid : insertObjectName repoPrefix did owner nonce = some oid)

include hrepo hnonce hoid

/-- The printed name of an object, split: the empty text, the prefix, and the rest. -/
theorem splitSlash_oid : ∃ a b printed,
    printedParts (splitPath did ++ splitPath owner.userID ++ [nonce]) = some printed ∧
      splitSlash oid = [] :: a :: b :: (printed ++ [segmentZero.toEscapedString]) := by
  obtain ⟨a, b, rfl, hparts⟩ := hrepo
  obtain ⟨hslashA, hblankA, componentA, hparseA⟩ := hparts a List.mem_cons_self
  obtain ⟨hslashB, -, componentB, hparseB⟩ := hparts b (by simp)
  obtain ⟨hdigits, hne⟩ := hnonce.isDigits
  let s := a ++ '/' :: (b ++ '/' :: (did ++ '/' :: (owner.userID ++ '/' :: nonce)))
  have hname : path [a, b] ++ path [did, owner.userID, nonce] = '/' :: s := by
    simp [path, s]
  have hsplit : splitPath s = a :: b :: (splitPath did ++ splitPath owner.userID ++ [nonce]) := by
    show splitPath (a ++ '/' :: (b ++ '/' :: (did ++ '/' :: (owner.userID ++ '/' :: nonce)))) = _
    rw [splitPath_append_slash, splitPath_append_slash, splitPath_append_slash,
      splitPath_append_slash, splitPath_of_slashFree hslashA, splitPath_of_slashFree hslashB,
      splitPath_of_slashFree hdigits.slashFree, List.append_assoc]
    rfl
  -- the text starts with the prefix and ends with the nonce, so nothing is trimmed
  obtain ⟨c, a', rfl⟩ : ∃ c a', a = c :: a' := by
    cases a with
    | nil =>
      have hnone : parseComponent [] = some none := by decide
      rw [hnone] at hparseA
      exact absurd hparseA (by simp)
    | cons c a' => exact ⟨c, a', rfl⟩
  have hlast : s.getLast? = some (nonce.getLast hne) := by
    simp [s, List.getLast?_append, List.getLast?_cons, List.getLast?_eq_some_getLast hne]
  have hset : Jndn.set ('/' :: s) = parseParts (splitPath s) :=
    set_slash rfl (hblankA c rfl) (fun heq => hslashA (heq ▸ List.mem_cons_self)) hlast
      (not_blank_of_isDigit (hdigits _ (List.getLast_mem hne)))
  unfold insertObjectName at hoid
  dsimp only at hoid
  rw [hname, hset, hsplit, parseParts_cons, hparseA, Option.bind_some, parseParts_cons, hparseB,
    Option.bind_some] at hoid
  cases hcomponents : parseParts (splitPath did ++ splitPath owner.userID ++ [nonce]) with
  | none =>
    rw [hcomponents] at hoid
    exact absurd hoid (by simp)
  | some components =>
    rw [hcomponents] at hoid
    obtain rfl := Option.some.inj hoid
    refine ⟨componentA.toEscapedString, componentB.toEscapedString,
      components.map Component.toEscapedString, ?_, ?_⟩
    · unfold printedParts
      rw [hcomponents]
      rfl
    · have hwell : ∀ c ∈ (componentA :: componentB :: components) ++ [segmentZero],
          c.WellFormed := by
        intro c hc
        rcases List.mem_append.mp hc with hc | hc
        · rcases List.mem_cons.mp hc with rfl | hc
          · exact wellFormed_of_parseComponent hparseA
          · rcases List.mem_cons.mp hc with rfl | hc
            · exact wellFormed_of_parseComponent hparseB
            · exact wellFormed_of_parseParts hcomponents c hc
        · rw [List.mem_singleton.mp hc]
          exact wellFormed_segmentZero
      show splitSlash (toUri ((componentA :: componentB :: components) ++ [segmentZero])) = _
      rw [splitSlash_toUri hwell, List.map_append]
      rfl

/-- **Who may delete an object**: the user whose identifier starts with the two texts that the
second and the third component behind the prefix are printed as. -/
theorem executed_iff {user : User} (hpermission : user.permissionType = some "rw".toList) :
    removeContent (some user) oid = .executed ↔ user.IsNamed did owner nonce := by
  obtain ⟨a, b, printed, hprinted, hsplit⟩ := splitSlash_oid hrepo hnonce hoid
  rw [removeContent_eq_executed_iff hpermission, hsplit]
  constructor
  · rintro ⟨tid, uid, hclaims, htid, huid⟩
    exact ⟨tid, uid, hclaims, printed, hprinted, htid, huid⟩
  · rintro ⟨tid, uid, hclaims, printed', hprinted', htid, huid⟩
    obtain rfl := Option.some.inj (hprinted.symm.trans hprinted')
    exact ⟨tid, uid, hclaims, htid, huid⟩

end Insertion

/-! ### The owner -/

/-- The identifier as it is split starts with the two parts that the test looks at. -/
theorem User.splitPath_of_claims {user : User} {tid uid : Str}
    (h : user.claims = some (tid, uid)) :
    ∃ parts, splitPath user.userID = tid :: uid :: parts := by
  unfold User.claims at h
  obtain ⟨tid', htid, h⟩ := Option.bind_eq_some_iff.mp h
  obtain ⟨uid', huid, h⟩ := Option.bind_eq_some_iff.mp h
  obtain ⟨rfl, rfl⟩ := Prod.mk.inj (Option.some.inj h)
  obtain ⟨rest, hrest⟩ := splitSlash_first_parts user.userID
  -- two claims were read, so the name of the user splits into at least two parts
  match hparts : splitSlash user.userID with
  | [] =>
    rw [hparts] at htid
    exact absurd htid (by simp)
  | [part] =>
    rw [hparts] at huid
    exact absurd huid (by simp)
  | part :: part' :: parts =>
    rw [hparts] at htid huid hrest
    obtain rfl := Option.some.inj htid
    obtain rfl := Option.some.inj huid
    exact ⟨parts ++ rest, hrest.symm⟩

/-- What the name class has printed once it prints the same again. -/
theorem printsAsItself_of_wellFormed {component : Component} (h : component.WellFormed) :
    PrintsAsItself component.toEscapedString := by
  unfold PrintsAsItself printedParts
  rw [parseParts_cons, parseComponent_toEscapedString h]
  rfl

/-- What is printed once is printed the same again. -/
theorem printsAsItself_of_mem {parts printed : List Str} (h : printedParts parts = some printed) :
    ∀ part ∈ printed ++ [segmentZero.toEscapedString], PrintsAsItself part := by
  obtain ⟨components, hcomponents, rfl⟩ := Option.map_eq_some_iff.mp h
  intro part hpart
  rcases List.mem_append.mp hpart with hpart | hpart
  · obtain ⟨component, hcomponent, rfl⟩ := List.mem_map.mp hpart
    exact printsAsItself_of_wellFormed (wellFormed_of_parseParts hcomponents _ hcomponent)
  · rw [List.mem_singleton.mp hpart]
    exact printsAsItself_of_wellFormed wellFormed_segmentZero

/-- The components of a name are printed one by one. -/
theorem printedParts_append (parts parts' : List Str) : printedParts (parts ++ parts') =
    (printedParts parts).bind fun printed =>
      (printedParts parts').map fun printed' => printed ++ printed' := by
  unfold printedParts
  rw [parseParts_append]
  cases parseParts parts with
  | none => rfl
  | some components =>
    cases parseParts parts' with
    | none => rfl
    | some components' => simp

/-- With one component for the data identifier, the owner is named if and only if the two parts
of the owner's identifier are printed as they are. -/
theorem namesUser_owner_iff {did nonce d tid uid : Str} {owner : User} {printed : List Str}
    (hdid : printedParts (splitPath did) = some [d]) (hclaims : owner.claims = some (tid, uid))
    (hprinted : printedParts (splitPath did ++ splitPath owner.userID ++ [nonce]) = some printed) :
    NamesUser did owner nonce tid uid ↔ PrintsAsItself tid ∧ PrintsAsItself uid := by
  constructor
  -- a part that stands in a printed name printed as itself, wherever it stands
  · rintro ⟨printed', hprinted', htid, huid⟩
    exact ⟨printsAsItself_of_mem hprinted' tid (List.mem_of_getElem? htid),
      printsAsItself_of_mem hprinted' uid (List.mem_of_getElem? huid)⟩
  · rintro ⟨htid, huid⟩
    obtain ⟨parts, hparts⟩ := User.splitPath_of_claims hclaims
    refine ⟨printed, hprinted, ?_⟩
    -- split the name where the owner's two parts begin and print each piece on its own
    have happend : splitPath did ++ splitPath owner.userID ++ [nonce] =
        splitPath did ++ ([tid] ++ ([uid] ++ (parts ++ [nonce]))) := by
      rw [hparts, List.append_assoc]
      rfl
    rw [happend, printedParts_append, printedParts_append, printedParts_append, hdid, htid,
      huid] at hprinted
    cases hrest : printedParts (parts ++ [nonce]) with
    | none =>
      rw [hrest] at hprinted
      exact absurd hprinted (by simp)
    | some rest =>
      rw [hrest] at hprinted
      obtain rfl := Option.some.inj hprinted
      exact ⟨rfl, rfl⟩

/-- A plain owner is named, and so is who shares the two parts with the owner. -/
theorem isNamed_iff_of_isPlain {did nonce : Str} {user owner : User} {printed : List Str}
    (hdid : IsOneComponent did) (howner : owner.IsPlain)
    (hprinted : printedParts (splitPath did ++ splitPath owner.userID ++ [nonce]) = some printed) :
    user.IsNamed did owner nonce ↔ user.claims = owner.claims := by
  obtain ⟨d, hdid⟩ := hdid
  obtain ⟨tid, uid, hclaims, hplain⟩ := howner
  have hnames := (namesUser_owner_iff hdid hclaims hprinted).mpr hplain
  rw [hclaims]
  constructor
  -- both name the owner in the same printed name, so they read the same two parts off it
  · rintro ⟨tid', uid', hclaims', printed', hprinted', htid', huid'⟩
    obtain ⟨printed'', hprinted'', htid, huid⟩ := hnames
    obtain rfl := Option.some.inj (hprinted'.symm.trans hprinted'')
    obtain rfl := Option.some.inj (htid'.symm.trans htid)
    obtain rfl := Option.some.inj (huid'.symm.trans huid)
    exact hclaims'
  · intro hsame
    exact ⟨tid, uid, hsame, hnames⟩

section Test

variable {ndnSecManager : KeyManager} {h : List (List User × RegistrationRequest)}
  {userRepo : List User} {v : User} {repoPrefix did nonce oid : Str}

/-- An owner whose parts are printed otherwise is refused. -/
theorem isPlain_of_isNamed {printed : List Str} (hdid : IsOneComponent did)
    (hprinted : printedParts (splitPath did ++ splitPath v.userID ++ [nonce]) = some printed)
    (hnamed : v.IsNamed did v nonce) : v.IsPlain := by
  obtain ⟨tid, uid, hclaims, hnames⟩ := hnamed
  obtain ⟨d, hd⟩ := hdid
  exact ⟨tid, uid, hclaims, (namesUser_owner_iff hd hclaims hprinted).mp hnames⟩

/-- **Who is taken for the owner.** With one component for the data identifier, the users who may
delete what a user has inserted, of those who may write and are no administrators, are that user
alone, if and only if the two parts of the user's identifier are printed as they are and no other of
them has the same two. -/
theorem owner_test_iff (hrun : Run (registrations ndnSecManager) h userRepo) (hv : v ∈ userRepo)
    (hpermission : v.permissionType = some "rw".toList) (hrepo : IsRepoPrefix repoPrefix)
    (hnonce : IsNonce 10 nonce) (hoid : insertObjectName repoPrefix did v nonce = some oid)
    (hdid : IsOneComponent did) :
    (∀ u ∈ userRepo, u.permissionType = some "rw".toList →
      (removeContent (some u) oid = .executed ↔ u = v)) ↔
    v.IsPlain ∧ ∀ u ∈ userRepo, u.permissionType = some "rw".toList → u.userID ≠ v.userID →
      u.claims ≠ v.claims := by
  obtain ⟨a, b, printed, hprinted, -⟩ := splitSlash_oid hrepo hnonce hoid
  constructor
  · intro htest
    have hnamed := (executed_iff hrepo hnonce hoid hpermission).mp
      ((htest v hv hpermission).mpr rfl)
    have hplain := isPlain_of_isNamed hdid hprinted hnamed
    refine ⟨hplain, fun u hu hrw hne hclaims => hne ?_⟩
    -- who shares the two parts with the owner is executed too
    have hexecuted := (executed_iff hrepo hnonce hoid hrw).mpr
      ((isNamed_iff_of_isPlain hdid hplain hprinted).mpr hclaims)
    exact congrArg User.userID ((htest u hu hrw).mp hexecuted)
  · rintro ⟨hplain, hothers⟩ u hu hrw
    rw [executed_iff hrepo hnonce hoid hrw, isNamed_iff_of_isPlain hdid hplain hprinted]
    constructor
    · intro hclaims
      rw [user_eq_iff hrun hu hv]
      by_contra hne
      exact hothers u hu hrw hne hclaims
    · exact congrArg User.claims

end Test

section Examples

/-- A key manager that has all the keys. -/
def allKeys : KeyManager where
  generateKeyAndCertificate _ _ _ := true
  idPrefix := "/ndn".toList
  findKeyLocatorOfUser _ := some "/ndn/key".toList

/-- The registration of a user of the tenant `acme`. -/
private def register (userName : String) : RegistrationRequest :=
  ⟨some userName.toList, some "acme".toList, some "secret".toList, some "rw".toList⟩

private def acmeUser (userName : String) : User :=
  ⟨("acme/" ++ userName).toList, some "rw".toList⟩

private def threeUsers : List User := [acmeUser "john", acmeUser "john/2", acmeUser "john doe"]

private theorem run_threeUsers : ∃ h, Run (registrations allKeys) h threeUsers := by
  have hjohn : (registerUser allKeys (register "john") []).2 = [acmeUser "john"] := by
    decide
  have hsecond : (registerUser allKeys (register "john/2") [acmeUser "john"]).2 =
      [acmeUser "john", acmeUser "john/2"] := by
    decide
  have hdoe : (registerUser allKeys (register "john doe")
      [acmeUser "john", acmeUser "john/2"]).2 = threeUsers := by
    decide
  exact ⟨_, (((Run.nil rfl).snoc hjohn).snoc hsecond).snoc hdoe⟩

private theorem isRepoPrefix_ogb : IsRepoPrefix "/ogb/repo".toList := by
  have hhead : ∀ {c d : Char}, ' '.toNat < c.toNat → d ∈ some c → ¬d ≤ ' ' :=
    fun hlt hd => Option.some.inj hd ▸ not_blank_of_lt hlt
  refine ⟨"ogb".toList, "repo".toList, by decide, fun part hpart => ?_⟩
  rcases List.mem_cons.mp hpart with rfl | hpart
  · exact ⟨by decide, fun c hc => hhead (by decide) (hc : c ∈ some 'o'),
      .generic ("ogb".toList.map Char.toNat), by decide⟩
  · rw [List.mem_singleton.mp hpart]
    exact ⟨by decide, fun c hc => hhead (by decide) (hc : c ∈ some 'r'),
      .generic ("repo".toList.map Char.toNat), by decide⟩

private theorem isNonce_ones : IsNonce 10 "1111111111".toList :=
  ⟨List.replicate 10 0, rfl, by decide, by decide⟩

private def johnOid : Str := "/ogb/repo/cities/acme/john/1111111111/%00%00".toList

private theorem insertObjectName_john : insertObjectName "/ogb/repo".toList "cities".toList
    (acmeUser "john") "1111111111".toList = some johnOid := by
  decide

/-- When `john` and `mary` have registered, only `john` of the two may delete what `john` has
inserted. -/
theorem owner_test_iff_john :
    ∃ h, Run (registrations allKeys) h [acmeUser "john", acmeUser "mary"] ∧
      ∀ u ∈ [acmeUser "john", acmeUser "mary"], u.permissionType = some "rw".toList →
        (removeContent (some u) johnOid = .executed ↔ u = acmeUser "john") := by
  have hjohn : (registerUser allKeys (register "john") []).2 = [acmeUser "john"] := by
    decide
  have hmary : (registerUser allKeys (register "mary") [acmeUser "john"]).2 =
      [acmeUser "john", acmeUser "mary"] := by
    decide
  have hplain : (acmeUser "john").IsPlain :=
    ⟨"acme".toList, "john".toList, by decide, by unfold PrintsAsItself; decide,
      by unfold PrintsAsItself; decide⟩
  refine ⟨_, ((Run.nil rfl).snoc hjohn).snoc hmary, ?_⟩
  refine (owner_test_iff (((Run.nil rfl).snoc hjohn).snoc hmary) List.mem_cons_self rfl
    isRepoPrefix_ogb isNonce_ones insertObjectName_john ⟨"cities".toList, by decide⟩).mpr
      ⟨hplain, ?_⟩
  decide

/-- The user `john/2` may delete what `john` has inserted, and `john doe` may not delete what `john
doe` has inserted. -/
theorem owner_mistaken :
    (∃ h, Run (registrations allKeys) h threeUsers) ∧
    (∃ u ∈ threeUsers, ∃ v ∈ threeUsers, ∃ oid,
      insertObjectName "/ogb/repo".toList "cities".toList v "1111111111".toList = some oid ∧
        removeContent (some u) oid = .executed ∧ u ≠ v) ∧
    ∃ v ∈ threeUsers, ∃ oid,
      insertObjectName "/ogb/repo".toList "cities".toList v "1111111111".toList = some oid ∧
        removeContent (some v) oid = .unauthorized := by
  refine ⟨run_threeUsers, ⟨acmeUser "john/2", by simp [threeUsers], acmeUser "john",
    List.mem_cons_self, johnOid, insertObjectName_john, by decide, by decide⟩, ?_⟩
  exact ⟨acmeUser "john doe", by simp [threeUsers],
    "/ogb/repo/cities/acme/john%20doe/1111111111/%00%00".toList, by decide,
    by decide⟩

end Examples

end OpenGeoBase
