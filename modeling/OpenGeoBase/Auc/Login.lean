import OpenGeoBase.Auc.UserController

/-!
# Logins and tokens

A successful login gives the user a new token, which replaces the one before; `checkToken` looks a
user up by the token of the request. `Issued` says what a token should vouch for: it is the last
one that a login of the user has issued. The users keep it through every request
(`TokensIssued.step`), so the answer to a token can be trusted. A request without a token is
looked up all the same, and finds a user that has never logged in (`soundCheck_iff`).

What `findByToken` makes of several users with the token is left open, as long as it returns one
of them.
-/

namespace OpenGeoBase

open Text Transition

/-- `User`, with what a login needs. -/
structure Account extends User where
  password : Str
  token : Option Str
  deriving DecidableEq

/-- `findByToken` of the repository of users. -/
structure TokenLookup where
  findByToken : List Account → Option Str → Option Account
  mem_of_eq_some : ∀ {users token user}, findByToken users token = some user →
    user ∈ users ∧ user.token = token
  isSome_of_mem : ∀ {users token user}, user ∈ users → user.token = token →
    (findByToken users token).isSome

/-- The first user with the token. -/
def TokenLookup.first : TokenLookup where
  findByToken users token := users.find? fun user => user.token == token
  mem_of_eq_some h := ⟨List.mem_of_find?_eq_some h, by simpa using List.find?_some h⟩
  isSome_of_mem hmem htoken :=
    List.find?_isSome.mpr ⟨_, hmem, beq_iff_eq.mpr htoken⟩

/-- `save` of the repository: the row of the user is replaced, or added. -/
def save (users : List Account) (user : Account) : List Account :=
  if users.any fun u => u.userID == user.userID then
    users.map fun u => if u.userID == user.userID then user else u
  else users ++ [user]

/-- The answer to a request: a user, or an error with the text and the code in its body. -/
inductive AucReply where
  | user (status : ℕ) (user : Account)
  | error (status : ℕ) (message : String) (code : Option ℕ)

/-- The body of a login request. -/
structure LoginRequest where
  userName : Option Str
  tenantName : Option Str
  password : Option Str

/-- A text in a concatenation, where a missing one is printed. -/
def orNull (text : Option Str) : Str := text.getD "null".toList

/-- `UserController.login`, with the token that is generated. -/
def login (token : Str) (params : LoginRequest) (userRepo : List Account) :
    AucReply × List Account :=
  match userRepo.find? fun user =>
      user.userID == orNull params.tenantName ++ '/' :: orNull params.userName with
  | none => (.error 402 "Error! User not found!" (some 404), userRepo)
  | some user =>
    match params.password with
    | none => (.error 403 "Error! No password provided!" (some 403), userRepo)
    | some password =>
      if password.length = 0 then
        (.error 403 "Error! No password provided!" (some 403), userRepo)
      else if user.password ≠ password then
        (.error 400 "Error! Wrong user name or password!" (some 400), userRepo)
      else
        let user := { user with token := some token }
        (.user 200 user, save userRepo user)

/-- `UserController.checkToken`. -/
def checkToken (lookup : TokenLookup) (token : Option Str) (userRepo : List Account) : AucReply :=
  match lookup.findByToken userRepo token with
  | none => .error 400 "Error on CheckToken!" none
  | some user => .user 200 user

/-- The user that a registration creates, without a token. -/
def RegistrationRequest.account (data : RegistrationRequest) : Account where
  userID := data.tenantName.getD [] ++ '/' :: data.userName.getD []
  permissionType := data.permission
  password := data.password.getD []
  token := none

/-- `UserController.registerUser` with all it saves. -/
def registerAccount (ndnSecManager : KeyManager) (data : RegistrationRequest)
    (userRepo : List Account) : Option ℕ × List Account :=
  let status := (registerUser ndnSecManager data (userRepo.map Account.toUser)).1
  (status, if status = some 201 then save userRepo data.account else userRepo)

/-! ### The service -/

/-- The users, how many tokens have been generated, and the successful logins so far: the
identifier of the user and the token issued. -/
structure AucState where
  userRepo : List Account
  generated : ℕ
  logins : List (Str × Str)

inductive AucRequest where
  | registerUser (ndnSecManager : KeyManager) (data : RegistrationRequest)
  | login (params : LoginRequest)
  | checkToken (token : Option Str)

/-- A login. -/
def AucState.login (generateToken : ℕ → Str) (s : AucState) (params : LoginRequest) : AucState :=
  match OpenGeoBase.login (generateToken s.generated) params s.userRepo with
  | (.user _ user, userRepo) =>
    ⟨userRepo, s.generated + 1, s.logins ++ [(user.userID, generateToken s.generated)]⟩
  | (.error _ _ _, userRepo) => { s with userRepo := userRepo }

/-- What a request makes of the state. -/
def AucState.serve (generateToken : ℕ → Str) (s : AucState) : AucRequest → AucState
  | .registerUser ndnSecManager data =>
    { s with userRepo := (registerAccount ndnSecManager data s.userRepo).2 }
  | .login params => s.login generateToken params
  | .checkToken _ => s

/-- The requests to the service, from an empty table of users on. -/
def aucService (generateToken : ℕ → Str) : System AucState AucRequest where
  init s := s = ⟨[], 0, []⟩
  step s request s' := s.serve generateToken request = s'

/-- The token is the last one that a login of the user has issued. -/
def Issued (logins : List (Str × Str)) (userID token : Str) : Prop :=
  ∃ before after, logins = before ++ (userID, token) :: after ∧ ∀ e ∈ after, e.1 ≠ userID

/-- `checkToken` returns a user only for a token that was issued to that user and not replaced. -/
def SoundCheck (lookup : TokenLookup) (s : AucState) : AucRequest → Prop
  | .checkToken token => ∀ user, checkToken lookup token s.userRepo = .user 200 user →
    ∃ t, token = some t ∧ Issued s.logins user.userID t
  | _ => True

/-- A request to check a token has one, or there is no user without. -/
def CarriesToken (s : AucState) : AucRequest → Prop
  | .checkToken token => token.isSome ∨ ∀ user ∈ s.userRepo, user.token.isSome
  | _ => True

/-! ### What is saved -/

/-- After a user has been saved there is that one, and those with other identifiers. -/
theorem mem_save {users : List Account} {user u : Account} (h : u ∈ save users user) :
    u = user ∨ (u ∈ users ∧ u.userID ≠ user.userID) := by
  unfold save at h
  split at h
  · obtain ⟨v, hv, rfl⟩ := List.mem_map.mp h
    split
    · exact Or.inl rfl
    · next hne => exact Or.inr ⟨hv, by simpa using hne⟩
  · next hnew =>
    rcases List.mem_append.mp h with hu | hu
    · refine Or.inr ⟨hu, fun heq => hnew ?_⟩
      exact List.any_eq_true.mpr ⟨u, hu, beq_iff_eq.mpr heq⟩
    · exact Or.inl (List.mem_singleton.mp hu)

/-- The users that a registration saves are those of `registerUser`. -/
theorem map_toUser_registerAccount (ndnSecManager : KeyManager) (data : RegistrationRequest)
    (userRepo : List Account) :
    (registerAccount ndnSecManager data userRepo).2.map Account.toUser =
      (registerUser ndnSecManager data (userRepo.map Account.toUser)).2 := by
  unfold registerAccount
  rcases registerUser_eq ndnSecManager data (userRepo.map Account.toUser) with
    ⟨heq, hnew⟩ | ⟨hstatus, hsame⟩
  · rw [List.any_map] at hnew
    have hsave : save userRepo data.account = userRepo ++ [data.account] := if_neg hnew
    rw [heq]
    dsimp only
    rw [if_pos rfl, hsave, List.map_append]
    rfl
  · dsimp only
    rw [if_neg hstatus, hsame]

/-- A login fails and changes nothing, or gives a stored user the token. -/
theorem login_cases (token : Str) (params : LoginRequest) (userRepo : List Account) :
    (∃ status message code, login token params userRepo =
      (.error status message code, userRepo)) ∨
    ∃ user ∈ userRepo, some user.password = params.password ∧
      login token params userRepo = (.user 200 { user with token := some token },
        save userRepo { user with token := some token }) := by
  unfold login
  split
  -- no such user
  · exact Or.inl ⟨_, _, _, rfl⟩
  · next user hfind =>
    split
    -- no password in the request, or an empty one
    · exact Or.inl ⟨_, _, _, rfl⟩
    · next password hpassword =>
      split
      · exact Or.inl ⟨_, _, _, rfl⟩
      · split
        -- another password than that of the user
        · exact Or.inl ⟨_, _, _, rfl⟩
        · next hsame =>
          refine Or.inr ⟨user, List.mem_of_find?_eq_some hfind, ?_, rfl⟩
          rw [hpassword, not_not.mp hsame]

/-! ### Tokens -/

/-- The last login has issued its token. -/
theorem issued_last (logins : List (Str × Str)) (userID token : Str) :
    Issued (logins ++ [(userID, token)]) userID token :=
  ⟨logins, [], rfl, fun _ he => absurd he List.not_mem_nil⟩

/-- A login of another user replaces nothing. -/
theorem Issued.append_of_ne {logins : List (Str × Str)} {userID token userID' token' : Str}
    (h : Issued logins userID token) (hne : userID ≠ userID') :
    Issued (logins ++ [(userID', token')]) userID token := by
  obtain ⟨before, after, rfl, hafter⟩ := h
  refine ⟨before, after ++ [(userID', token')], by simp, fun e he => ?_⟩
  rcases List.mem_append.mp he with he | he
  · exact hafter e he
  · obtain rfl := List.mem_singleton.mp he
    exact hne.symm

/-- Every token that is stored is the last one issued to its user. -/
def TokensIssued (s : AucState) : Prop :=
  ∀ user ∈ s.userRepo, ∀ token, user.token = some token → Issued s.logins user.userID token

/-- A request keeps it: a login puts its token in the place of the old one. -/
theorem TokensIssued.step {generateToken : ℕ → Str} {s : AucState} (h : TokensIssued s)
    (request : AucRequest) : TokensIssued (s.serve generateToken request) := by
  cases request with
  | registerUser ndnSecManager data =>
    intro user huser token htoken
    change user ∈ (registerAccount ndnSecManager data s.userRepo).2 at huser
    change Issued s.logins user.userID token
    unfold registerAccount at huser
    dsimp only at huser
    split at huser
    -- the account that is saved has no token yet
    · rcases mem_save huser with rfl | ⟨huser, -⟩
      · exact absurd htoken (by simp [RegistrationRequest.account])
      · exact h user huser token htoken
    · exact h user huser token htoken
  | login params =>
    change TokensIssued (s.login generateToken params)
    unfold AucState.login
    rcases login_cases (generateToken s.generated) params s.userRepo with
      ⟨status, message, code, heq⟩ | ⟨user, -, -, heq⟩
    · rw [heq]
      exact h
    · rw [heq]
      intro u hu token htoken
      -- the last login is that of the user; those of the others are still their last
      rcases mem_save hu with rfl | ⟨hu, hne⟩
      · obtain rfl := Option.some.inj htoken
        exact issued_last s.logins user.userID _
      · exact (h u hu token htoken).append_of_ne hne
  | checkToken token => exact h

/-- The answer to a request is sound if and only if it has a token or every user has one. -/
theorem TokensIssued.sound_iff_carries {s : AucState} (h : TokensIssued s) (lookup : TokenLookup)
    (request : AucRequest) : SoundCheck lookup s request ↔ CarriesToken s request := by
  cases request with
  | checkToken token =>
    constructor
    · intro hsound
      -- a missing token matches the first user who has none
      by_contra hno
      obtain ⟨htoken, huser⟩ := not_or.mp hno
      obtain rfl : token = none := by simpa using htoken
      push Not at huser
      obtain ⟨user, hmem, hnone⟩ := huser
      have hfound := lookup.isSome_of_mem hmem (by simpa using hnone : user.token = none)
      obtain ⟨found, hfound⟩ := Option.isSome_iff_exists.mp hfound
      obtain ⟨t, ht, -⟩ := hsound found (by unfold checkToken; rw [hfound])
      exact absurd ht (by simp)
    · intro hcarries user hreply
      unfold checkToken at hreply
      split at hreply
      · exact absurd hreply (by simp)
      · next found hfound =>
        obtain ⟨-, rfl⟩ : 200 = 200 ∧ found = user := by simpa using hreply
        obtain ⟨hmem, htoken⟩ := lookup.mem_of_eq_some hfound
        -- a user is found by the token he has, so the request has one
        have hsome : token.isSome := by
          rcases hcarries with hsome | hall
          · exact hsome
          · rw [← htoken]
            exact hall found hmem
        obtain ⟨t, rfl⟩ := Option.isSome_iff_exists.mp hsome
        exact ⟨t, rfl, h found hmem t htoken⟩
  | registerUser | login => exact Iff.rfl

/-- **Token soundness, exactly.** In a run of the service `checkToken` returns a user only for
the token last issued to that user if and only if every request to check a token has one or comes
when every user has one. -/
theorem soundCheck_iff (lookup : TokenLookup) {generateToken : ℕ → Str}
    {h : List (AucState × AucRequest)} {s : AucState} (hrun : Run (aucService generateToken) h s) :
    Admitted (SoundCheck lookup) h ↔ Admitted CarriesToken h := by
  have hinv : Throughout TokensIssued h s := by
    have hok : Admitted (fun _ _ => True) h := fun _ _ => trivial
    refine hrun.throughout (I := TokensIssued) ?_ (fun _ => id) ?_ hok
    · rintro _ rfl user huser
      exact absurd huser List.not_mem_nil
    · rintro s request _ hissued - rfl
      exact hissued.step request
  exact forall₂_congr fun e he => (hinv.1 e he).sound_iff_carries lookup e.2

section Examples

/-- A key manager that gives keys to everybody. -/
private def manager : KeyManager := ⟨fun _ _ _ => true, [], fun identity => some identity⟩

private def registerU : AucRequest :=
  .registerUser manager ⟨some ['u'], some ['t'], some ['p'], some ['r']⟩

private def loginU : AucRequest := .login ⟨some ['u'], some ['t'], some ['p']⟩

private def tokenOf (n : ℕ) : Str := List.replicate n 'k'

private def noUsers : AucState := ⟨[], 0, []⟩

private def registered : AucState := noUsers.serve tokenOf registerU

private def loggedIn : AucState := registered.serve tokenOf loginU

private theorem run_registerU :
    Run (aucService tokenOf) [(noUsers, registerU)] registered := (Run.nil rfl).snoc rfl

/-- A user registers, logs in, and has the token checked. -/
theorem soundCheck_first_token :
    Admitted (SoundCheck .first) [(noUsers, registerU), (registered, loginU),
        (loggedIn, .checkToken (some (tokenOf 0)))] ∧
      ∃ user, checkToken .first (some (tokenOf 0)) loggedIn.userRepo = .user 200 user := by
  have hlogin : Run (aucService tokenOf) _ loggedIn := run_registerU.snoc (a := loginU) rfl
  have hcheck := hlogin.snoc (a := .checkToken (some (tokenOf 0))) rfl
  refine ⟨(soundCheck_iff .first hcheck).mpr ?_, _, rfl⟩
  refine List.forall_mem_cons.mpr ⟨trivial, List.forall_mem_cons.mpr ⟨trivial, ?_⟩⟩
  exact List.forall_mem_singleton.mpr (Or.inl rfl)

/-- A request without a token gets the user that has just registered. -/
theorem checkToken_without_token :
    ∃ h s, Run (aucService tokenOf) h s ∧ ¬Admitted (SoundCheck .first) h := by
  refine ⟨_, _, run_registerU.snoc (a := .checkToken none) rfl, fun hsound => ?_⟩
  obtain ⟨t, ht, -⟩ := hsound (registered, .checkToken none) (by simp) _ rfl
  exact absurd ht (by simp)

end Examples

end OpenGeoBase
