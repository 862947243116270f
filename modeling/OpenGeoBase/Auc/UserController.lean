import OpenGeoBase.Lib.Text
import OpenGeoBase.Lib.Transition

/-!
# The registration of users

`UserController.registerUser` takes any two texts for the names of the tenant and the user. The
user is identified by both, with a slash between them, and there is one user for each
identifier (`user_eq_iff`); but two pairs of names may have the same one.
-/

namespace OpenGeoBase

open Text Transition

/-- `User`, as far as permissions go. -/
structure User where
  userID : Str
  permissionType : Option Str
  deriving DecidableEq

namespace User

/-- Without a type of permission a user may read and write. -/
def getPermissionType (user : User) : Str := user.permissionType.getD "rw".toList

def isSuperUser (user : User) : Bool := user.getPermissionType == "superuser".toList

def isAdmin (user : User) : Bool := user.getPermissionType == "admin".toList

def permissionCheck (user : User) : Bool :=
  user.getPermissionType == "rw".toList || user.isAdmin

/-- A user who may write and is no administrator. -/
theorem permissions_of_rw {user : User} (h : user.permissionType = some "rw".toList) :
    user.isSuperUser = false ∧ user.isAdmin = false ∧ user.permissionCheck = true := by
  have hget : user.getPermissionType = "rw".toList := by
    unfold getPermissionType
    rw [h, Option.getD_some]
  unfold permissionCheck isSuperUser isAdmin
  rw [hget]
  decide

end User

/-- The body of a request for a registration. -/
structure RegistrationRequest where
  userName : Option Str
  tenantName : Option Str
  password : Option Str
  permission : Option Str

/-- What the controller uses of the key manager. -/
structure KeyManager where
  /-- Are there a private and a public key for the tenant, the user and the permission? -/
  generateKeyAndCertificate : Str → Str → Str → Bool
  idPrefix : Str
  /-- The first key locator of an identity. -/
  findKeyLocatorOfUser : Str → Option Str

/-- `UserController.registerUser`: the status, `none` on an exception, and the users. -/
def registerUser (ndnSecManager : KeyManager) (data : RegistrationRequest) (userRepo : List User) :
    Option ℕ × List User :=
  match data.userName, data.tenantName, data.password, data.permission with
  | none, _, _, _ => (some 410, userRepo)
  | some _, none, _, _ => (some 411, userRepo)
  | some _, some _, none, _ => (some 412, userRepo)
  | some _, some _, some _, none => (none, userRepo)
  | some userName, some tenantName, some _, some permissionType =>
    let userID := tenantName ++ '/' :: userName
    if permissionType ∉ ["r", "rw", "admin"].map String.toList then (some 413, userRepo)
    else if userRepo.any fun user => user.userID == userID then (some 400, userRepo)
    else if !ndnSecManager.generateKeyAndCertificate tenantName userName permissionType then
      (some 401, userRepo)
    else match ndnSecManager.findKeyLocatorOfUser
        (ndnSecManager.idPrefix ++ path [tenantName, userName, permissionType]) with
      | none => (none, userRepo)
      | some _ => (some 201, userRepo ++ [⟨userID, some permissionType⟩])

/-- The users, from the first registration on. -/
def registrations (ndnSecManager : KeyManager) : System (List User) RegistrationRequest where
  init userRepo := userRepo = []
  step userRepo data userRepo' := (registerUser ndnSecManager data userRepo).2 = userRepo'

/-- A registration adds a user whose identifier is a new one, or it fails and changes nothing. -/
theorem registerUser_eq (ndnSecManager : KeyManager) (data : RegistrationRequest)
    (userRepo : List User) :
    let userID := data.tenantName.getD [] ++ '/' :: data.userName.getD []
    (registerUser ndnSecManager data userRepo =
        (some 201, userRepo ++ [⟨userID, data.permission⟩]) ∧
      ¬userRepo.any fun user => user.userID == userID) ∨
    ((registerUser ndnSecManager data userRepo).1 ≠ some 201 ∧
      (registerUser ndnSecManager data userRepo).2 = userRepo) := by
  obtain ⟨userName, tenantName, password, permission⟩ := data
  unfold registerUser
  split
  -- a field is missing
  · exact Or.inr ⟨by simp, rfl⟩
  · exact Or.inr ⟨by simp, rfl⟩
  · exact Or.inr ⟨by simp, rfl⟩
  · exact Or.inr ⟨nofun, rfl⟩
  · next userName tenantName password permissionType hname htenant hpassword hpermission =>
    obtain rfl : _ = some _ := hname
    obtain rfl : _ = some _ := htenant
    obtain rfl : _ = some _ := hpermission
    dsimp only
    split
    · -- no such permission
      exact Or.inr ⟨by simp, rfl⟩
    · split
      · -- the user exists
        exact Or.inr ⟨by simp, rfl⟩
      · next hnew =>
        split
        · -- there is no key pair, or no key locator
          exact Or.inr ⟨by simp, rfl⟩
        · split
          · exact Or.inr ⟨nofun, rfl⟩
          · exact Or.inl ⟨rfl, hnew⟩

/-- No two users ever have the same identifier. -/
theorem nodup_userID {ndnSecManager : KeyManager} {h : List (List User × RegistrationRequest)}
    {userRepo : List User} (hrun : Run (registrations ndnSecManager) h userRepo) :
    (userRepo.map User.userID).Nodup := by
  refine hrun.invariant' (I := fun userRepo => (userRepo.map User.userID).Nodup) ?_ ?_
  · rintro _ rfl
    exact List.nodup_nil
  · rintro userRepo data _ hnodup rfl
    rcases registerUser_eq ndnSecManager data userRepo with ⟨hadded, hnew⟩ | ⟨-, hsame⟩
    · rw [hadded, List.map_append, List.nodup_append]
      refine ⟨hnodup, List.nodup_singleton _, ?_⟩
      intro a ha b hb heq
      obtain ⟨user, huser, rfl⟩ := List.mem_map.mp ha
      rw [List.map_singleton, List.mem_singleton] at hb
      exact hnew (List.any_eq_true.mpr ⟨user, huser, beq_iff_eq.mpr (heq.trans hb)⟩)
    · rw [hsame]
      exact hnodup

/-- Registered users with the same identifier are the same. -/
theorem user_eq_iff {ndnSecManager : KeyManager} {h : List (List User × RegistrationRequest)}
    {userRepo : List User} (hrun : Run (registrations ndnSecManager) h userRepo) {u v : User}
    (hu : u ∈ userRepo) (hv : v ∈ userRepo) : u = v ↔ u.userID = v.userID :=
  ⟨congrArg User.userID, fun heq => List.inj_on_of_nodup_map (nodup_userID hrun) hu hv heq⟩

end OpenGeoBase
