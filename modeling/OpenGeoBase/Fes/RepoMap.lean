import OpenGeoBase.Fes.QueryRepoMap
import OpenGeoBase.Lib.Transition
import Mathlib.Data.List.AList
import Mathlib.Data.Finset.Insert

/-!
# The connections to the repositories

A front end keeps a socket for each prefix of its configuration file. While the file is read, an
entry takes over the first socket found whose address is the entry's `ip`, and a socket is made for
an entry that finds none; the ports are not compared.

When a socket breaks, the keys are gone through and compared with the variable `socket`. At the
first key that is mapped to it two sockets are made: one is assigned to `socket`, which is what is
returned, and the other is put into the map. So the keys that come later are compared with a socket
that no key is mapped to, and the socket returned is not in the map.

`consistent_iff` says that the map is what it should be for the empty configuration only;
`loadsOwn_iff` and `repairsOwn_iff` say when it is what it should be after the file is read and
after a repair, the socket returned left aside.
-/

namespace OpenGeoBase

open Text Transition

/-- What the connections rest on. -/
structure NetLibrary where
  /-- `InetAddress.getHostAddress` of the address that a socket to a host is connected to. -/
  hostAddress : Str → Str
  /-- The order in which `HashMap.keySet` gives the keys. -/
  keySet : List Str → List Str
  keySet_perm : ∀ keys, (keySet keys).Perm keys

/-- A `java.net.Socket`; the connection of one that is not open was closed or has broken. -/
structure RepoSocket where
  address : Str
  port : ℤ
  isOpen : Bool
  deriving DecidableEq

/-- An entry of `IP-RES.conf`. -/
structure RepoEntry where
  repoPrefix : Str
  ip : Str
  port : ℤ
  deriving DecidableEq

/-- The maps of the front end, and the sockets made so far. A reference to a socket is its place
among them. -/
structure NDNRepoMap where
  repoPrefix : Finset Str
  repoMap : AList fun _ : Str => ℕ
  repoMapIP : AList fun _ : Str => Str
  sockets : List RepoSocket

namespace NDNRepoMap

variable (lib : NetLibrary)

/-! ### Loading and repairing -/

/-- The maps before the configuration file is read. -/
def empty : NDNRepoMap := ⟨∅, ∅, ∅, []⟩

/-- `new Socket(ip, port)`; it connects. -/
def newSocket (ip : Str) (port : ℤ) (m : NDNRepoMap) : ℕ × NDNRepoMap :=
  (m.sockets.length,
    ⟨m.repoPrefix, m.repoMap, m.repoMapIP, m.sockets ++ [⟨lib.hostAddress ip, port, true⟩]⟩)

/-- `socket.close()`. -/
def close (socket : ℕ) (m : NDNRepoMap) : NDNRepoMap :=
  ⟨m.repoPrefix, m.repoMap, m.repoMapIP,
    m.sockets.modify socket fun s => ⟨s.address, s.port, false⟩⟩

/-- The address of the socket of a key. -/
def addressAt (m : NDNRepoMap) (key : Str) : Option Str := do
  let socket ← m.repoMap.lookup key
  let s ← m.sockets[socket]?
  pure s.address

/-- The inner loop of `loadFromConfigFile`: the first socket with the address `ip`. -/
def findSocket (ip : Str) (m : NDNRepoMap) : Option ℕ :=
  ((lib.keySet m.repoMap.keys).find? fun key => m.addressAt key = some ip).bind m.repoMap.lookup

/-- What is kept in `repoMapIP`. -/
def ipText (ip : Str) (port : ℤ) : Str := ip ++ "::".toList ++ toDecimalInt port

/-- The loop's body of `loadFromConfigFile`. -/
def loadEntry (m : NDNRepoMap) (elem : RepoEntry) : NDNRepoMap :=
  let (socket, m) :=
    match m.findSocket lib elem.ip with
    | some socket => (socket, m)
    | none => m.newSocket lib elem.ip elem.port
  ⟨insert elem.repoPrefix m.repoPrefix, m.repoMap.insert elem.repoPrefix socket,
    m.repoMapIP.insert elem.repoPrefix (ipText elem.ip elem.port), m.sockets⟩

/-- `loadFromConfigFile`. -/
def loadFromConfigFile (config : List RepoEntry) (m : NDNRepoMap) : NDNRepoMap :=
  config.foldl (loadEntry lib) ⟨m.repoPrefix, ∅, m.repoMapIP, m.sockets⟩

/-- The ip and the port that are read back from a text of `repoMapIP`; an exception is `none`. -/
def readIP (text : Str) : Option (Str × ℤ) := do
  let ip ← (splitText "::".toList text)[0]?
  let port ← (splitText "::".toList text)[1]?.bind NDNQueryRepoMap.parseInt
  pure (ip, port)

/-- The loop of `checkAndFixSocketConnectionError` over the keys that are left. -/
def fixKeys : List Str → ℕ → NDNRepoMap → ℕ × NDNRepoMap
  | [], socket, m => (socket, m)
  | key :: keys, socket, m =>
    if m.repoMap.lookup key = some socket then
      match (m.repoMapIP.lookup key).bind readIP with
      -- The exception is caught outside the loop.
      | none => (socket, m)
      | some (ip, port) =>
        let (socket, m) := (m.close socket).newSocket lib ip port
        let (mapped, m) := m.newSocket lib ip port
        fixKeys keys socket ⟨insert key m.repoPrefix, m.repoMap.insert key mapped, m.repoMapIP,
          m.sockets⟩
    else fixKeys keys socket m

/-- `checkAndFixSocketConnectionError`: the socket that is returned, and the maps. -/
def checkAndFixSocketConnectionError (config : List RepoEntry) (socket : ℕ) (m : NDNRepoMap) :
    ℕ × NDNRepoMap :=
  if m.repoMap.keys.length = 0 then (socket, m.loadFromConfigFile lib config)
  else fixKeys lib (lib.keySet m.repoMap.keys) socket m

/-! ### What is read of the maps -/

section Reads

variable {lib} {m : NDNRepoMap}

/-- The socket that a key is mapped to. -/
def socketAt (m : NDNRepoMap) (key : Str) : Option RepoSocket :=
  (m.repoMap.lookup key).bind fun socket => m.sockets[socket]?

/-- Some prefix is mapped to the socket. -/
def Mapped (m : NDNRepoMap) (socket : ℕ) : Prop := ∃ key, m.repoMap.lookup key = some socket

/-- The references in the map are to sockets. -/
def WellFormed (m : NDNRepoMap) : Prop := ∀ socket, m.Mapped socket → socket < m.sockets.length

/-- The address under a key is that of its socket. -/
theorem addressAt_eq (key : Str) : m.addressAt key = (m.socketAt key).map RepoSocket.address := by
  unfold addressAt socketAt
  cases m.repoMap.lookup key with
  | none => rfl
  | some socket => cases h : m.sockets[socket]? <;> simp [h]

/-- The key of a connection leads to its socket. -/
theorem socketAt_of_lookup {key : Str} {socket : ℕ} (h : m.repoMap.lookup key = some socket) :
    m.socketAt key = m.sockets[socket]? := by
  simp [socketAt, h]

/-- A key with an address is in the map. -/
theorem mem_of_addressAt {key ip : Str} (h : m.addressAt key = some ip) : key ∈ m.repoMap := by
  by_contra hnot
  rw [← AList.lookup_eq_none] at hnot
  simp [addressAt, hnot] at h

theorem WellFormed.lt (hm : m.WellFormed) {key : Str} {socket : ℕ}
    (h : m.repoMap.lookup key = some socket) : socket < m.sockets.length :=
  hm socket ⟨key, h⟩

/-- The socket that is found is that of a key with the address. -/
theorem exists_of_findSocket {ip : Str} {socket : ℕ} (h : m.findSocket lib ip = some socket) :
    ∃ key, m.addressAt key = some ip ∧ m.repoMap.lookup key = some socket := by
  obtain ⟨key, hkey, hsocket⟩ := Option.bind_eq_some_iff.mp h
  exact ⟨key, by simpa using List.find?_some hkey, hsocket⟩

variable (lib) in
/-- If a key has the address, a socket is found. -/
theorem findSocket_ne_none {key ip : Str} (h : m.addressAt key = some ip) :
    m.findSocket lib ip ≠ none := by
  have hmem : key ∈ lib.keySet m.repoMap.keys :=
    (lib.keySet_perm _).mem_iff.mpr (AList.mem_keys.mp (mem_of_addressAt h))
  intro hnone
  unfold findSocket at hnone
  cases hfound : (lib.keySet m.repoMap.keys).find? fun key => m.addressAt key = some ip with
  | none => simpa [h] using List.find?_eq_none.mp hfound key hmem
  | some found =>
    have hfound' : m.addressAt found = some ip := by simpa using List.find?_some hfound
    rw [hfound, Option.bind_some, AList.lookup_eq_none] at hnone
    exact hnone (mem_of_addressAt hfound')

end Reads

/-! ### The file is read -/

section Load

variable {lib} {m : NDNRepoMap} {elem : RepoEntry}

/-- One entry: a socket with its address is taken over, or one is made. -/
theorem loadEntry_cases (lib : NetLibrary) (m : NDNRepoMap) (elem : RepoEntry) :
    (∃ socket, m.findSocket lib elem.ip = some socket ∧
      (m.loadEntry lib elem).repoMap = m.repoMap.insert elem.repoPrefix socket ∧
      (m.loadEntry lib elem).sockets = m.sockets) ∨
    (m.findSocket lib elem.ip = none ∧
      (m.loadEntry lib elem).repoMap = m.repoMap.insert elem.repoPrefix m.sockets.length ∧
      (m.loadEntry lib elem).sockets =
        m.sockets ++ [⟨lib.hostAddress elem.ip, elem.port, true⟩]) := by
  cases h : m.findSocket lib elem.ip with
  | some socket => exact .inl ⟨socket, rfl, by simp [loadEntry, h], by simp [loadEntry, h]⟩
  | none => exact .inr ⟨rfl, by simp [loadEntry, h, newSocket], by simp [loadEntry, h, newSocket]⟩

/-- The address text of an entry is put under its prefix. -/
theorem repoMapIP_loadEntry (lib : NetLibrary) (m : NDNRepoMap) (elem : RepoEntry) :
    (m.loadEntry lib elem).repoMapIP =
      m.repoMapIP.insert elem.repoPrefix (ipText elem.ip elem.port) := by
  cases h : m.findSocket lib elem.ip <;> simp [loadEntry, h, newSocket]

theorem mem_loadEntry {key : Str} :
    key ∈ (m.loadEntry lib elem).repoMap ↔ key = elem.repoPrefix ∨ key ∈ m.repoMap := by
  obtain ⟨socket, -, hmap, -⟩ | ⟨-, hmap, -⟩ := loadEntry_cases lib m elem <;>
    rw [hmap, AList.mem_insert]

/-- The other keys keep their sockets. -/
theorem lookup_loadEntry_ne {key : Str} (h : key ≠ elem.repoPrefix) :
    (m.loadEntry lib elem).repoMap.lookup key = m.repoMap.lookup key := by
  obtain ⟨socket, -, hmap, -⟩ | ⟨-, hmap, -⟩ := loadEntry_cases lib m elem <;>
    rw [hmap, AList.lookup_insert_ne h]

/-- Sockets stay what they are. -/
theorem sockets_loadEntry (lib : NetLibrary) (m : NDNRepoMap) (elem : RepoEntry) :
    m.sockets <+: (m.loadEntry lib elem).sockets := by
  obtain ⟨socket, -, -, hsockets⟩ | ⟨-, -, hsockets⟩ := loadEntry_cases lib m elem
  · rw [hsockets]
  · rw [hsockets]
    exact List.prefix_append _ _

/-- Loading keeps the map well-formed. -/
theorem WellFormed.loadEntry (hm : m.WellFormed) : (m.loadEntry lib elem).WellFormed := by
  intro socket hmapped
  obtain ⟨key, hkey⟩ := hmapped
  have hle := (sockets_loadEntry lib m elem).length_le
  -- The key is the new one, which has a socket of an older key or one that was just opened, or an
  -- older one, whose socket stays.
  by_cases hname : key = elem.repoPrefix
  · subst hname
    obtain ⟨found, hfound, hmap, hsockets⟩ | ⟨-, hmap, hsockets⟩ := loadEntry_cases lib m elem
    · rw [hmap, AList.lookup_insert, Option.some_inj] at hkey
      obtain ⟨other, -, hother⟩ := exists_of_findSocket hfound
      rw [hsockets, ← hkey]
      exact hm.lt hother
    · rw [hmap, AList.lookup_insert, Option.some_inj] at hkey
      rw [hsockets, ← hkey]
      simp
  · rw [lookup_loadEntry_ne hname] at hkey
    exact (hm.lt hkey).trans_le hle

/-- Loading an entry leaves the sockets of the other prefixes. -/
theorem socketAt_loadEntry_ne (hm : m.WellFormed) {key : Str} (h : key ≠ elem.repoPrefix) :
    (m.loadEntry lib elem).socketAt key = m.socketAt key := by
  unfold socketAt
  rw [lookup_loadEntry_ne h]
  cases hlookup : m.repoMap.lookup key with
  | none => rfl
  | some socket =>
    obtain ⟨new, hnew⟩ := sockets_loadEntry lib m elem
    rw [Option.bind_some, Option.bind_some, ← hnew, List.getElem?_append_left (hm.lt hlookup)]

variable (lib) in
/-- The maps of a front end that has read the file. -/
def loaded (config : List RepoEntry) : NDNRepoMap := empty.loadFromConfigFile lib config

/-- Nothing is loaded from an empty configuration. -/
theorem loaded_nil : loaded lib [] = empty := rfl

theorem loaded_concat (config : List RepoEntry) (elem : RepoEntry) :
    loaded lib (config ++ [elem]) = (loaded lib config).loadEntry lib elem := by
  simp [loaded, loadFromConfigFile, List.foldl_append]

variable (lib) in
/-- Every loaded map is well-formed. -/
theorem wellFormed_loaded (config : List RepoEntry) : (loaded lib config).WellFormed := by
  induction config using List.reverseRecOn with
  | nil =>
    rintro socket ⟨key, hkey⟩
    simp [loaded_nil, empty] at hkey
  | append_singleton config elem ih =>
    rw [loaded_concat]
    exact ih.loadEntry

variable (lib) in
/-- The keys are the prefixes of the entries. -/
theorem mem_loaded {config : List RepoEntry} {key : Str} :
    key ∈ (loaded lib config).repoMap ↔ ∃ e ∈ config, e.repoPrefix = key := by
  -- Entries are loaded from the front, so the induction takes the last one away.
  induction config using List.reverseRecOn with
  | nil => simp [loaded_nil, empty]
  | append_singleton config elem ih =>
    rw [loaded_concat, mem_loadEntry, ih]
    constructor
    · rintro (rfl | ⟨e, he, rfl⟩)
      · exact ⟨elem, by simp, rfl⟩
      · exact ⟨e, by simp [he], rfl⟩
    · rintro ⟨e, he, rfl⟩
      rcases List.mem_append.mp he with he | he
      · exact .inr ⟨e, he, rfl⟩
      · exact .inl (by rw [List.mem_singleton.mp he])

/-- A socket that was made for the file is open. -/
theorem isOpen_loaded {config : List RepoEntry} {s : RepoSocket}
    (h : s ∈ (loaded lib config).sockets) : s.isOpen = true := by
  induction config using List.reverseRecOn with
  | nil => simp [loaded_nil, empty] at h
  | append_singleton config elem ih =>
    rw [loaded_concat] at h
    obtain ⟨-, -, -, hsockets⟩ | ⟨-, -, hsockets⟩ :=
      loadEntry_cases lib (loaded lib config) elem
    · exact ih (hsockets ▸ h)
    · rw [hsockets, List.mem_append, List.mem_singleton] at h
      rcases h with h | rfl
      · exact ih h
      · rfl

end Load

/-! ### The connections after the file is read -/

section LoadsOwn

variable {lib} {m : NDNRepoMap} {e elem : RepoEntry} {config : List RepoEntry}

variable (lib) in
/-- The prefix of an entry is mapped to an open socket to its ip and port. -/
def OwnConnection (m : NDNRepoMap) (e : RepoEntry) : Prop :=
  m.socketAt e.repoPrefix = some ⟨lib.hostAddress e.ip, e.port, true⟩

variable (lib) in
/-- After the file is read, every prefix is mapped to a socket to its own ip and port. -/
def LoadsOwn (config : List RepoEntry) : Prop :=
  ∀ e ∈ config, OwnConnection lib (loaded lib config) e

/-- What is said of the last entry and of those before it. -/
theorem nodup_concat :
    ((config ++ [elem]).map RepoEntry.repoPrefix).Nodup ↔
      (config.map RepoEntry.repoPrefix).Nodup ∧ ∀ e ∈ config, e.repoPrefix ≠ elem.repoPrefix := by
  rw [List.map_append, List.nodup_append]
  simp

/-- The entry that is read maps its prefix to a socket with the entry's address. -/
theorem address_loadEntry
    (hm : ∀ key ip, m.addressAt key = some ip → lib.hostAddress ip = ip) :
    (m.loadEntry lib elem).addressAt elem.repoPrefix = some (lib.hostAddress elem.ip) := by
  rw [addressAt_eq]
  obtain ⟨socket, hfound, hmap, hsockets⟩ | ⟨-, hmap, hsockets⟩ := loadEntry_cases lib m elem
  · obtain ⟨key, haddress, hkey⟩ := exists_of_findSocket hfound
    have hown : lib.hostAddress elem.ip = elem.ip := hm key elem.ip haddress
    rw [addressAt_eq, socketAt_of_lookup hkey] at haddress
    rw [socketAt, hmap, AList.lookup_insert, Option.bind_some, hsockets, haddress, hown]
  · rw [socketAt, hmap, AList.lookup_insert, Option.bind_some, hsockets]
    simp

/-- The addresses of the sockets are addresses of hosts. -/
theorem hostAddress_of_addressAt
    (hidem : ∀ ip, lib.hostAddress (lib.hostAddress ip) = lib.hostAddress ip) {key ip : Str}
    (h : (loaded lib config).addressAt key = some ip) : lib.hostAddress ip = ip := by
  induction config using List.reverseRecOn generalizing key ip with
  | nil => simp [loaded_nil, empty, addressAt] at h
  | append_singleton config elem ih =>
    rw [loaded_concat] at h
    by_cases hname : key = elem.repoPrefix
    · subst hname
      rw [address_loadEntry fun key ip => ih, Option.some_inj] at h
      rw [← h, hidem]
    · rw [addressAt_eq, socketAt_loadEntry_ne (wellFormed_loaded lib config) hname,
        ← addressAt_eq] at h
      exact ih h

/-- Each prefix is mapped to a socket to the entry's host, if perhaps not to its port. -/
theorem address_loaded
    (hidem : ∀ ip, lib.hostAddress (lib.hostAddress ip) = lib.hostAddress ip)
    (hnodup : (config.map RepoEntry.repoPrefix).Nodup) (he : e ∈ config) :
    (loaded lib config).addressAt e.repoPrefix = some (lib.hostAddress e.ip) := by
  induction config using List.reverseRecOn with
  | nil => simp at he
  | append_singleton config elem ih =>
    rw [nodup_concat] at hnodup
    rw [loaded_concat]
    rcases List.mem_append.mp he with he | he
    · rw [addressAt_eq,
        socketAt_loadEntry_ne (wellFormed_loaded lib config) (hnodup.2 e he), ← addressAt_eq]
      exact ih hnodup.1 he
    · rw [List.mem_singleton.mp he]
      exact address_loadEntry fun key ip => hostAddress_of_addressAt hidem

/-- The entries before the last one have their own connections if and only if they had them
without it. -/
theorem ownConnection_concat (hnodup : ((config ++ [elem]).map RepoEntry.repoPrefix).Nodup)
    (he : e ∈ config) :
    OwnConnection lib (loaded lib (config ++ [elem])) e ↔
      OwnConnection lib (loaded lib config) e := by
  unfold OwnConnection
  rw [loaded_concat,
    socketAt_loadEntry_ne (wellFormed_loaded lib config) ((nodup_concat.mp hnodup).2 e he)]

/-- Entries that find a socket with their own port all have their own connections. -/
theorem loadsOwn_of_pairwise
    (hidem : ∀ ip, lib.hostAddress (lib.hostAddress ip) = lib.hostAddress ip)
    (hnodup : (config.map RepoEntry.repoPrefix).Nodup)
    (hports : config.Pairwise fun e e' => lib.hostAddress e.ip = e'.ip → e.port = e'.port) :
    LoadsOwn lib config := by
  induction config using List.reverseRecOn with
  | nil => simp [LoadsOwn]
  | append_singleton config elem ih =>
    obtain ⟨hpairs, -, hlast⟩ := List.pairwise_append.mp hports
    have hown : LoadsOwn lib config := ih (nodup_concat.mp hnodup).1 hpairs
    intro e he
    rcases List.mem_append.mp he with he | he
    · exact (ownConnection_concat hnodup he).mpr (hown e he)
    · rw [List.mem_singleton.mp he, OwnConnection, loaded_concat]
      obtain ⟨socket, hfound, hmap, hsockets⟩ | ⟨-, hmap, hsockets⟩ :=
        loadEntry_cases lib (loaded lib config) elem
      · -- The socket is that of an earlier entry with the same address, hence with the same port.
        obtain ⟨key, haddress, hkey⟩ := exists_of_findSocket hfound
        obtain ⟨e₀, he₀, rfl⟩ := (mem_loaded lib).mp (mem_of_addressAt haddress)
        have hsocket := hown e₀ he₀
        rw [addressAt_eq, hsocket, Option.map_some, Option.some_inj] at haddress
        have hport : e₀.port = elem.port := hlast e₀ he₀ elem (by simp) haddress
        have haddress' : lib.hostAddress e₀.ip = lib.hostAddress elem.ip := by
          rw [← haddress, hidem]
        rw [OwnConnection, socketAt_of_lookup hkey] at hsocket
        rw [socketAt, hmap, AList.lookup_insert, Option.bind_some, hsockets, hsocket, hport,
          haddress']
      -- No entry has this address, so a socket is opened for it.
      · rw [socketAt, hmap, AList.lookup_insert, Option.bind_some, hsockets]
        simp

/-- An order of the keys that begins with `key`. -/
def beginningWith (key : Str) (keys : List Str) : List Str :=
  if key ∈ keys then key :: keys.erase key else keys

/-- The code looks at all keys, in another order. -/
theorem beginningWith_perm (key : Str) (keys : List Str) : (beginningWith key keys).Perm keys := by
  unfold beginningWith
  split
  · next h => exact (List.perm_cons_erase h).symm
  · exact .refl keys

variable (lib) in
/-- If the keys begin with one that has the address, its socket is taken over. -/
theorem findSocket_of_beginningWith {key ip : Str}
    (hlib : lib.keySet = beginningWith key) (h : m.addressAt key = some ip) :
    m.findSocket lib ip = m.repoMap.lookup key := by
  have hkey : key ∈ m.repoMap.keys := AList.mem_keys.mp (mem_of_addressAt h)
  simp [findSocket, hlib, beginningWith, hkey, h]

/-- **The connections after the file is read.** In whichever order the keys come, every prefix is
mapped to a socket to its own ip and port, if and only if entries of which the later one names the
address of the earlier one have the same port. -/
theorem loadsOwn_iff {hostAddress : Str → Str}
    (hidem : ∀ ip, hostAddress (hostAddress ip) = hostAddress ip)
    (hnodup : (config.map RepoEntry.repoPrefix).Nodup) :
    (∀ lib : NetLibrary, lib.hostAddress = hostAddress → LoadsOwn lib config) ↔
      config.Pairwise fun e e' => hostAddress e.ip = e'.ip → e.port = e'.port := by
  constructor
  · intro h
    induction config using List.reverseRecOn with
    | nil => exact .nil
    | append_singleton config elem ih =>
      refine List.pairwise_append.mpr ⟨ih (nodup_concat.mp hnodup).1 ?_, by simp, ?_⟩
      · intro lib hlib e he
        exact (ownConnection_concat hnodup he).mp (h lib hlib e (List.mem_append_left _ he))
      · intro e he e' he' haddress
        obtain rfl := List.mem_singleton.mp he'
        let lib : NetLibrary :=
          ⟨hostAddress, beginningWith e.repoPrefix, beginningWith_perm e.repoPrefix⟩
        have hown := h lib rfl
        have hearlier := (ownConnection_concat hnodup he).mp (hown e (List.mem_append_left _ he))
        have hlast := hown e' (by simp)
        -- The last entry takes over the socket of the earlier one.
        have hfound := findSocket_of_beginningWith lib rfl
          (show (loaded lib config).addressAt e.repoPrefix = some e'.ip by
            rw [addressAt_eq, hearlier, ← haddress]
            rfl)
        rw [OwnConnection, loaded_concat] at hlast
        obtain ⟨socket, hfound', hmap, hsockets⟩ | ⟨hnone, -, -⟩ :=
          loadEntry_cases lib (loaded lib config) e'
        · rw [socketAt, hmap, AList.lookup_insert, Option.bind_some, hsockets,
            ← socketAt_of_lookup (hfound.symm.trans hfound'), hearlier, Option.some_inj] at hlast
          exact (RepoSocket.mk.inj hlast).2.1
        · rw [hnone] at hfound
          simp [socketAt, ← hfound, OwnConnection] at hearlier
  · rintro h lib rfl
    exact loadsOwn_of_pairwise hidem hnodup h

end LoadsOwn

/-! ### A socket is repaired -/

section Repair

variable {lib} {m : NDNRepoMap} {socket : ℕ} {key key' ip : Str} {port : ℤ} {e : RepoEntry}

variable (lib) in
/-- The maps after a socket is repaired at `key`: of the two sockets that are made the second one is
in the map. -/
def reopened (m : NDNRepoMap) (socket : ℕ) (key ip : Str) (port : ℤ) : NDNRepoMap :=
  ⟨insert key m.repoPrefix, m.repoMap.insert key (m.sockets.length + 1), m.repoMapIP,
    (m.close socket).sockets ++
      [⟨lib.hostAddress ip, port, true⟩, ⟨lib.hostAddress ip, port, true⟩]⟩

@[simp] theorem length_close (socket : ℕ) (m : NDNRepoMap) :
    (m.close socket).sockets.length = m.sockets.length := by
  simp [close]

/-- Closing leaves the address and the port of the socket. -/
theorem getElem?_close (socket : ℕ) (m : NDNRepoMap) :
    (m.close socket).sockets[socket]? =
      m.sockets[socket]?.map fun s => ⟨s.address, s.port, false⟩ := by
  simp [close]

/-- A key that is mapped to a socket that was closed has no connection. -/
theorem not_ownConnection_close (h : m.repoMap.lookup e.repoPrefix = some socket) :
    ¬OwnConnection lib (m.close socket) e := by
  have hsocket : (m.close socket).socketAt e.repoPrefix = (m.close socket).sockets[socket]? :=
    socketAt_of_lookup h
  rw [OwnConnection, hsocket, getElem?_close]
  cases m.sockets[socket]? <;> simp

/-- A map stays well-formed when a socket is closed. -/
theorem WellFormed.close (hm : m.WellFormed) (socket : ℕ) : (m.close socket).WellFormed := by
  intro other hmapped
  rw [length_close]
  exact hm other hmapped

/-- Both sockets that are made are there. -/
theorem WellFormed.reopened (hm : m.WellFormed) (socket : ℕ) (key ip : Str) (port : ℤ) :
    (m.reopened lib socket key ip port).WellFormed := by
  rintro other ⟨key', hkey'⟩
  rw [NDNRepoMap.reopened] at hkey' ⊢
  rw [List.length_append, length_close]
  by_cases hname : key' = key
  · subst hname
    rw [AList.lookup_insert, Option.some_inj] at hkey'
    rw [← hkey']
    simp
  · rw [AList.lookup_insert_ne hname] at hkey'
    exact (hm.lt hkey').trans_le (Nat.le_add_right _ _)

/-- A socket that is opened again is the one its key leads to. -/
theorem socketAt_reopened (m : NDNRepoMap) (socket : ℕ) (key ip : Str) (port : ℤ) :
    (m.reopened lib socket key ip port).socketAt key = some ⟨lib.hostAddress ip, port, true⟩ := by
  simp [socketAt, reopened]

variable (lib key ip port) in
/-- The socket that is returned is not in the map. -/
theorem not_mapped_reopened (hm : m.WellFormed) (socket : ℕ) :
    ¬(m.reopened lib socket key ip port).Mapped m.sockets.length := by
  rintro ⟨key', hkey'⟩
  rw [reopened] at hkey'
  by_cases h : key' = key
  · subst h
    simp at hkey'
  · rw [AList.lookup_insert_ne h] at hkey'
    exact absurd (hm.lt hkey') (lt_irrefl _)

/-- Another key with the same socket is left with a closed one. -/
theorem not_ownConnection_reopened (hm : m.WellFormed)
    (h : m.repoMap.lookup e.repoPrefix = some socket) (hne : e.repoPrefix ≠ key) :
    ¬OwnConnection lib (m.reopened lib socket key ip port) e := by
  have hsocket : (m.reopened lib socket key ip port).socketAt e.repoPrefix =
      (m.close socket).socketAt e.repoPrefix := by
    have hlt : socket < (m.close socket).sockets.length := by
      rw [length_close]
      exact hm.lt h
    have hclose : (m.close socket).repoMap.lookup e.repoPrefix = some socket := h
    rw [socketAt_of_lookup hclose, socketAt, reopened, AList.lookup_insert_ne hne, h,
      Option.bind_some, List.getElem?_append_left hlt]
  rw [OwnConnection, hsocket]
  exact not_ownConnection_close h

variable (lib) in
/-- The keys are only gone through if the socket is not in the map. -/
theorem fixKeys_of_not_mapped (h : ¬m.Mapped socket) (keys : List Str) :
    fixKeys lib keys socket m = (socket, m) := by
  induction keys with
  | nil => rfl
  | cons key keys ih => rw [fixKeys, if_neg fun hkey => h ⟨key, hkey⟩, ih]

/-- **What a repair does**: it ends at the first key that is mapped to the socket. -/
theorem fixKeys_eq (hm : m.WellFormed) (socket : ℕ) (keys : List Str) :
    fixKeys lib keys socket m =
      match keys.find? fun key => m.repoMap.lookup key = some socket with
      | none => (socket, m)
      | some key =>
        match (m.repoMapIP.lookup key).bind readIP with
        | none => (socket, m)
        | some (ip, port) => (m.sockets.length, m.reopened lib socket key ip port) := by
  induction keys with
  | nil => rfl
  | cons key keys ih =>
    by_cases hkey : m.repoMap.lookup key = some socket
    · rw [fixKeys, if_pos hkey, List.find?_cons_of_pos (by simpa using hkey)]
      cases hread : (m.repoMapIP.lookup key).bind readIP with
      | none => simp only [hread]
      | some read =>
        obtain ⟨ip, port⟩ := read
        -- No key is mapped to the socket that is assigned to the variable.
        have hnot := not_mapped_reopened lib key ip port hm socket
        have hrest := fixKeys_of_not_mapped lib hnot keys
        simpa [hread, newSocket, reopened, close] using hrest
    · rw [fixKeys, if_neg hkey, List.find?_cons_of_neg (by simpa using hkey), ih]

variable (lib) in
/-- A socket in the map is repaired at one of its keys, or not at all if the text that is kept for
the key cannot be read. -/
theorem checkAndFix_cases (hm : m.WellFormed) (h : m.Mapped socket) (config : List RepoEntry) :
    ∃ key, m.repoMap.lookup key = some socket ∧
      (((m.repoMapIP.lookup key).bind readIP = none ∧
          m.checkAndFixSocketConnectionError lib config socket = (socket, m)) ∨
        ∃ ip port, (m.repoMapIP.lookup key).bind readIP = some (ip, port) ∧
          m.checkAndFixSocketConnectionError lib config socket =
            (m.sockets.length, m.reopened lib socket key ip port)) := by
  obtain ⟨key₀, hkey₀⟩ := h
  have hmem : key₀ ∈ m.repoMap.keys := by
    rw [← AList.mem_keys, ← AList.lookup_isSome, hkey₀]
    rfl
  have hlength : m.repoMap.keys.length ≠ 0 := (List.length_pos_of_mem hmem).ne'
  unfold checkAndFixSocketConnectionError
  rw [if_neg hlength, fixKeys_eq hm]
  -- The loop over the key set finds a key of the broken socket, since one is mapped to it.
  cases hfind : (lib.keySet m.repoMap.keys).find? fun key => m.repoMap.lookup key = some socket with
  | none =>
    have hnot := List.find?_eq_none.mp hfind key₀ ((lib.keySet_perm _).mem_iff.mpr hmem)
    simp [hkey₀] at hnot
  | some key =>
    refine ⟨key, by simpa using List.find?_some hfind, ?_⟩
    -- Without an address text for this key nothing is repaired.
    cases hread : (m.repoMapIP.lookup key).bind readIP with
    | none => exact .inl ⟨rfl, by simp only [hread]⟩
    | some read => exact .inr ⟨read.1, read.2, rfl, by simp only [hread]⟩

end Repair

/-! ### Runs -/

/-- A connection breaks, or a socket that is in the map is repaired. -/
inductive Event where
  | breaks (socket : ℕ)
  | repairs (socket : ℕ)

/-- The front end: it reads the file once, and the connections break and are repaired. -/
def frontEnd (config : List RepoEntry) : System NDNRepoMap Event where
  init m := m = loaded lib config
  step m ev m' :=
    match ev with
    | .breaks socket => m' = m.close socket
    | .repairs socket =>
      m.Mapped socket ∧ m' = (m.checkAndFixSocketConnectionError lib config socket).2

/-- Whenever a socket is repaired, the prefixes that were mapped to it have their own connections
afterwards. -/
def RepairsOwn (config : List RepoEntry) : Prop :=
  ∀ h m, Run (frontEnd lib config) h m → ∀ socket, ∀ e ∈ config,
    m.repoMap.lookup e.repoPrefix = some socket →
      OwnConnection lib (m.checkAndFixSocketConnectionError lib config socket).2 e

/-- Whenever a socket is repaired, the one that is returned is in the map. -/
def ReturnsMapped (config : List RepoEntry) : Prop :=
  ∀ h m, Run (frontEnd lib config) h m → ∀ socket, m.Mapped socket →
    (m.checkAndFixSocketConnectionError lib config socket).2.Mapped
      (m.checkAndFixSocketConnectionError lib config socket).1

/-- The map is what it should be: after the file is read, and whenever a socket is repaired. -/
def Consistent (config : List RepoEntry) : Prop :=
  LoadsOwn lib config ∧ RepairsOwn lib config ∧ ReturnsMapped lib config

section Runs

variable {lib} {m : NDNRepoMap} {socket : ℕ} {config : List RepoEntry} {e elem : RepoEntry}

variable (lib) in
/-- A socket of the map breaks right after the file is read. -/
theorem run_breaks (config : List RepoEntry) (socket : ℕ) :
    Run (frontEnd lib config) [(loaded lib config, .breaks socket)]
      ((loaded lib config).close socket) :=
  (Run.nil rfl).snoc rfl

/-- A socket that broke is repaired, and a prefix that was mapped to it has its own connection: this
can only be if the text of this prefix is what was read back. -/
theorem repairs_of_ownConnection (hm : m.WellFormed)
    (h : m.repoMap.lookup e.repoPrefix = some socket)
    (hown : OwnConnection lib
      ((m.close socket).checkAndFixSocketConnectionError lib config socket).2 e) :
    ∃ ip port, (m.repoMapIP.lookup e.repoPrefix).bind readIP = some (ip, port) ∧
      (m.close socket).checkAndFixSocketConnectionError lib config socket =
        (m.sockets.length, (m.close socket).reopened lib socket e.repoPrefix ip port) := by
  have hclose : (m.close socket).repoMap.lookup e.repoPrefix = some socket := h
  -- The repair has done nothing, or has opened a socket for the first key it found.
  obtain ⟨key, hkey, ⟨-, hresult⟩ | ⟨ip, port, hread, hresult⟩⟩ :=
    checkAndFix_cases lib (hm.close socket) ⟨e.repoPrefix, hclose⟩ config
  · rw [hresult] at hown
    exact absurd hown (not_ownConnection_close h)
  · rw [hresult] at hown
    -- Had it been another key, the entry would still have the closed socket.
    have hname : e.repoPrefix = key := by
      by_contra hne
      exact not_ownConnection_reopened (hm.close socket) hclose hne hown
    subst hname
    rw [length_close] at hresult
    exact ⟨ip, port, hread, hresult⟩

/-- A front end without entries has an empty map. -/
theorem not_mapped_of_nil {h : List (NDNRepoMap × Event)} (hrun : Run (frontEnd lib []) h m) :
    ¬m.Mapped socket := by
  refine hrun.invariant' (I := fun m => ∀ socket, ¬m.Mapped socket) ?_ ?_ socket
  · rintro m rfl socket ⟨key, hkey⟩
    simp [loaded_nil, empty] at hkey
  · rintro m (broken | repaired) m' hm hstep socket
    · rw [show m' = m.close broken from hstep]
      exact hm socket
    · exact absurd hstep.1 (hm repaired)

/-- **The map is what it should be for the empty configuration only.** If there is an entry, break
the socket of its prefix: either the repair leaves it closed, or what it returns is not in the
map. -/
theorem consistent_iff (lib : NetLibrary) (config : List RepoEntry) :
    Consistent lib config ↔ config = [] := by
  constructor
  · rintro ⟨-, hrepairs, hreturns⟩
    -- Let one entry's socket break. If it is repaired it gets a new number, but the old one is what
    -- the caller keeps, and no key leads to it any more.
    by_contra hne
    obtain ⟨e, he⟩ := List.exists_mem_of_ne_nil config hne
    have hm := wellFormed_loaded lib config
    obtain ⟨socket, hsocket⟩ :=
      Option.isSome_iff_exists.mp (AList.lookup_isSome.mpr ((mem_loaded lib).mpr ⟨e, he, rfl⟩))
    have hrun := run_breaks lib config socket
    have hown := hrepairs _ _ hrun socket e he hsocket
    obtain ⟨ip, port, -, hresult⟩ := repairs_of_ownConnection hm hsocket hown
    have hmapped := hreturns _ _ hrun socket ⟨e.repoPrefix, hsocket⟩
    rw [hresult] at hmapped
    have hnot := not_mapped_reopened lib e.repoPrefix ip port (hm.close socket) socket
    rw [length_close] at hnot
    exact hnot hmapped
  · rintro rfl
    refine ⟨by simp [LoadsOwn], by simp [RepairsOwn], ?_⟩
    intro h m hrun socket hmapped
    exact absurd hmapped (not_mapped_of_nil hrun)

end Runs

/-- Hosts that are named by their addresses, and the keys as the map has them. -/
def plainLibrary : NetLibrary := ⟨id, id, .refl⟩

/-- Two repositories on one host. -/
def oneHost : List RepoEntry :=
  [⟨"/repo/repoEU".toList, "127.0.0.1".toList, 7376⟩,
    ⟨"/repo/repoUS".toList, "127.0.0.1".toList, 7377⟩]

/-- The second prefix is mapped to a socket to the port of the first one. When this socket is
repaired, one of the two prefixes is left with a closed socket, and what is returned is not in the
map. -/
theorem oneHost_not_consistent :
    (oneHost.map RepoEntry.repoPrefix).Nodup ∧ ¬LoadsOwn plainLibrary oneHost ∧
      ¬RepairsOwn plainLibrary oneHost ∧ ¬ReturnsMapped plainLibrary oneHost := by
  have hrun : Run (frontEnd plainLibrary oneHost) [] (loaded plainLibrary oneHost) := .nil rfl
  -- Both entries have the address of one host, but different ports: the second is given the socket
  -- of the first.
  refine ⟨by decide, ?_, ?_, ?_⟩
  · intro h
    have hown := h _ (List.mem_cons_of_mem _ List.mem_cons_self)
    exact absurd hown (by unfold OwnConnection; decide)
  · intro h
    have hown := h _ _ hrun 0 _ List.mem_cons_self (by decide)
    exact absurd hown (by unfold OwnConnection; decide)
  · intro h
    obtain ⟨key, hkey⟩ := h _ _ hrun 0 ⟨"/repo/repoEU".toList, by decide⟩
    have hmem := AList.mem_keys.mp (AList.lookup_isSome.mp (Option.isSome_iff_exists.mpr ⟨_, hkey⟩))
    have hkeys : ((loaded plainLibrary oneHost).checkAndFixSocketConnectionError plainLibrary
        oneHost 0).2.repoMap.keys = ["/repo/repoUS".toList, "/repo/repoEU".toList] := by
      decide
    rw [hkeys, List.mem_pair] at hmem
    rcases hmem with rfl | rfl
    · exact absurd hkey (by decide)
    · exact absurd hkey (by decide)

/-! ### The connections after a repair -/

section RepairsOwn

variable {lib} {m : NDNRepoMap} {socket : ℕ} {config : List RepoEntry} {e elem : RepoEntry}

variable (lib) in
/-- The text that is kept for the entry is read back as the entry's port and a name of its host. -/
def ReadsBack (e : RepoEntry) : Prop :=
  ∃ ip, readIP (ipText e.ip e.port) = some (ip, e.port) ∧ lib.hostAddress ip = lib.hostAddress e.ip

/-- An ip without a colon is read back. -/
theorem readsBack_of_not_mem (hip : ':' ∉ e.ip) (hne : e.ip ≠ []) (hport : 0 ≤ e.port)
    (hlt : e.port < 2 ^ 31) : ReadsBack lib e := by
  obtain ⟨n, hn⟩ := Int.eq_ofNat_of_zero_le hport
  have htext : ipText e.ip e.port = "::".toList.intercalate [e.ip, toDecimal n] := by
    simp [ipText, toDecimalInt, hn, List.intercalate, List.append_assoc]
  -- Without a colon in the address the text splits into two parts again.
  have hparts : splitText "::".toList (ipText e.ip e.port) = [e.ip, toDecimal n] := by
    rw [htext]
    refine splitText_intercalate (List.cons_ne_nil _ _) fun part hpart => ?_
    rcases List.mem_cons.mp hpart with rfl | hpart
    · exact ⟨hip, hne⟩
    · rw [List.mem_singleton.mp hpart]
      refine ⟨fun hmem => ?_, toDecimal_ne_nil n⟩
      exact absurd (isDigits_toDecimal n ':' hmem) (by decide)
  -- The second part is the port as it was written.
  have hparse : NDNQueryRepoMap.parseInt (toDecimal n) = some e.port := by
    have hsign := readSign_sign false (isDigits_toDecimal n) (toDecimal_ne_nil n) []
    have hdigits : (toDecimal n).all Char.isDigit = true :=
      List.all_eq_true.mpr (isDigits_toDecimal n)
    rw [List.append_nil] at hsign
    rw [NDNQueryRepoMap.parseInt, show readSign (toDecimal n) = (false, toDecimal n) from hsign]
    simp [toDecimal_ne_nil, hdigits, hn]
    omega
  refine ⟨e.ip, ?_, rfl⟩
  rw [readIP, hparts]
  simp [hparse]

/-- The address text of every entry is found again. -/
theorem repoMapIP_loaded (hnodup : (config.map RepoEntry.repoPrefix).Nodup) (he : e ∈ config) :
    (loaded lib config).repoMapIP.lookup e.repoPrefix = some (ipText e.ip e.port) := by
  induction config using List.reverseRecOn with
  | nil => simp at he
  | append_singleton config elem ih =>
    rw [nodup_concat] at hnodup
    rw [loaded_concat, repoMapIP_loadEntry]
    rcases List.mem_append.mp he with he | he
    · rw [AList.lookup_insert_ne (hnodup.2 e he)]
      exact ih hnodup.1 he
    · rw [List.mem_singleton.mp he, AList.lookup_insert]

/-- The entries that come later leave a prefix where it is. -/
theorem lookup_loaded_append {key : Str} (config rest : List RepoEntry)
    (h : ∀ e ∈ rest, key ≠ e.repoPrefix) :
    (loaded lib (config ++ rest)).repoMap.lookup key = (loaded lib config).repoMap.lookup key := by
  induction rest using List.reverseRecOn with
  | nil => rw [List.append_nil]
  | append_singleton rest elem ih =>
    rw [← List.append_assoc, loaded_concat, lookup_loadEntry_ne (h elem (by simp))]
    exact ih fun e he => h e (List.mem_append_left _ he)

/-- An entry that names the address of an earlier one shares a socket with some entry. -/
theorem exists_shared
    (hidem : ∀ ip, lib.hostAddress (lib.hostAddress ip) = lib.hostAddress ip)
    {before after : List RepoEntry}
    (hnodup : ((before ++ elem :: after).map RepoEntry.repoPrefix).Nodup) (he : e ∈ before)
    (haddress : lib.hostAddress e.ip = elem.ip) :
    ∃ e₀ ∈ before, ∃ socket, e₀.repoPrefix ≠ elem.repoPrefix ∧
      (loaded lib (before ++ elem :: after)).repoMap.lookup e₀.repoPrefix = some socket ∧
      (loaded lib (before ++ elem :: after)).repoMap.lookup elem.repoPrefix = some socket := by
  rw [← List.singleton_append, ← List.append_assoc] at hnodup ⊢
  -- The entries behind `elem` do not touch what these two keys have.
  have hlater : ∀ e ∈ before ++ [elem], ∀ e' ∈ after, e.repoPrefix ≠ e'.repoPrefix := by
    rw [List.map_append, List.nodup_append] at hnodup
    intro e he e' he'
    exact hnodup.2.2 _ (List.mem_map_of_mem he) _ (List.mem_map_of_mem he')
  have hnodup' := nodup_concat.mp (List.map_append ▸ hnodup |>.of_append_left)
  -- When `elem` is loaded the address is known already, so it shares the socket that is found.
  have hfound := findSocket_ne_none lib
    ((address_loaded hidem hnodup'.1 he).trans (congrArg some haddress))
  obtain ⟨socket, hsocket⟩ := Option.ne_none_iff_exists'.mp hfound
  obtain ⟨key, hkey, hlookup⟩ := exists_of_findSocket hsocket
  obtain ⟨e₀, he₀, rfl⟩ := (mem_loaded lib).mp (mem_of_addressAt hkey)
  refine ⟨e₀, he₀, socket, hnodup'.2 e₀ he₀, ?_, ?_⟩
  · rw [lookup_loaded_append _ _ (hlater e₀ (List.mem_append_left _ he₀)), loaded_concat,
      lookup_loadEntry_ne (hnodup'.2 e₀ he₀), hlookup]
  · rw [lookup_loaded_append _ _ (hlater elem (by simp)), loaded_concat]
    obtain ⟨socket', hsocket', hmap, -⟩ | ⟨hnone, -, -⟩ :=
      loadEntry_cases lib (loaded lib before) elem
    · rw [hmap, AList.lookup_insert, ← hsocket, hsocket']
    · exact absurd hnone hfound

/-- What the repairs keep when no socket is shared. -/
structure Separate (config : List RepoEntry) (m : NDNRepoMap) : Prop where
  wellFormed : m.WellFormed
  injective : ∀ key key' socket, m.repoMap.lookup key = some socket →
    m.repoMap.lookup key' = some socket → key = key'
  texts : ∀ e ∈ config, m.repoMapIP.lookup e.repoPrefix = some (ipText e.ip e.port)

/-- A socket that is not in the map may be given to a key. -/
theorem injective_insert {fresh : ℕ} {key : Str} (hfresh : ¬m.Mapped fresh)
    (h : ∀ key key' socket, m.repoMap.lookup key = some socket →
      m.repoMap.lookup key' = some socket → key = key') (k k' : Str) (socket : ℕ)
    (hk : (m.repoMap.insert key fresh).lookup k = some socket)
    (hk' : (m.repoMap.insert key fresh).lookup k' = some socket) : k = k' := by
  -- The new key is the only one with the fresh socket.
  by_cases hkey : k = key
  · subst hkey
    by_contra hne
    rw [AList.lookup_insert, Option.some_inj] at hk
    rw [AList.lookup_insert_ne (Ne.symm hne), ← hk] at hk'
    exact hfresh ⟨k', hk'⟩
  · rw [AList.lookup_insert_ne hkey] at hk
    by_cases hkey' : k' = key
    · subst hkey'
      rw [AList.lookup_insert, Option.some_inj] at hk'
      exact absurd ⟨k, hk'.symm ▸ hk⟩ hfresh
    · rw [AList.lookup_insert_ne hkey'] at hk'
      exact h k k' socket hk hk'

/-- No key leads to a socket that was never opened. -/
theorem WellFormed.not_mapped (hm : m.WellFormed) (h : m.sockets.length ≤ socket) :
    ¬m.Mapped socket := by
  intro hmapped
  exact absurd (hm socket hmapped) (not_lt.mpr h)

/-- What happens to a front end that shares no socket. -/
theorem Separate.step {m' : NDNRepoMap} {ev : Event} (hm : Separate config m)
    (hstep : (frontEnd lib config).step m ev m') : Separate config m' := by
  -- A socket that breaks stays mapped; one that is repaired is replaced by a fresh one.
  cases ev with
  | breaks socket =>
    rw [show m' = m.close socket from hstep]
    exact ⟨hm.wellFormed.close socket, hm.injective, hm.texts⟩
  | repairs socket =>
    obtain ⟨hmapped, rfl⟩ := hstep
    obtain ⟨key, -, ⟨-, hresult⟩ | ⟨ip, port, -, hresult⟩⟩ :=
      checkAndFix_cases lib hm.wellFormed hmapped config
    · rw [hresult]
      exact hm
    · rw [hresult]
      refine ⟨hm.wellFormed.reopened socket key ip port, ?_, hm.texts⟩
      exact injective_insert (hm.wellFormed.not_mapped (Nat.le_succ _)) hm.injective

/-- If no entry names the address of an earlier one, no socket is shared. -/
theorem separate_loaded
    (hidem : ∀ ip, lib.hostAddress (lib.hostAddress ip) = lib.hostAddress ip)
    (hnodup : (config.map RepoEntry.repoPrefix).Nodup)
    (hpairs : config.Pairwise fun e e' => lib.hostAddress e.ip ≠ e'.ip) :
    Separate config (loaded lib config) := by
  refine ⟨wellFormed_loaded lib config, ?_, fun e he => repoMapIP_loaded hnodup he⟩
  -- The last entry has an address of its own, so it gets a socket of its own.
  induction config using List.reverseRecOn with
  | nil => simp [loaded_nil, empty]
  | append_singleton config elem ih =>
    obtain ⟨hpairs', -, hlast⟩ := List.pairwise_append.mp hpairs
    rw [nodup_concat] at hnodup
    have hinj := ih hnodup.1 hpairs'
    have hm := wellFormed_loaded lib config
    rw [loaded_concat]
    obtain ⟨socket, hfound, -, -⟩ | ⟨-, hmap, -⟩ := loadEntry_cases lib (loaded lib config) elem
    · obtain ⟨key, hkey, -⟩ := exists_of_findSocket hfound
      obtain ⟨e₀, he₀, rfl⟩ := (mem_loaded lib).mp (mem_of_addressAt hkey)
      rw [address_loaded hidem hnodup.1 he₀, Option.some_inj] at hkey
      exact absurd hkey (hlast e₀ he₀ elem (by simp))
    · rw [hmap]
      exact injective_insert (hm.not_mapped le_rfl) hinj

/-- **The connections after a repair.** The prefixes that were mapped to a repaired socket have
their own connections, whenever a socket is repaired, if and only if no entry names the address of
an earlier one and the text that is kept for each entry is read back. -/
theorem repairsOwn_iff
    (hidem : ∀ ip, lib.hostAddress (lib.hostAddress ip) = lib.hostAddress ip)
    (hnodup : (config.map RepoEntry.repoPrefix).Nodup) :
    RepairsOwn lib config ↔
      config.Pairwise (fun e e' => lib.hostAddress e.ip ≠ e'.ip) ∧
        ∀ e ∈ config, ReadsBack lib e := by
  have hm := wellFormed_loaded lib config
  constructor
  · intro h
    have hrepaired : ∀ e ∈ config, ∀ socket,
        (loaded lib config).repoMap.lookup e.repoPrefix = some socket → OwnConnection lib
          (((loaded lib config).close socket).checkAndFixSocketConnectionError lib config
            socket).2 e :=
      fun e he socket hsocket => h _ _ (run_breaks lib config socket) socket e he hsocket
    constructor
    · rw [List.pairwise_iff_forall_sublist]
      intro e elem hsub haddress
      obtain ⟨before, rest, rfl, he, hrest⟩ := List.cons_sublist_iff.mp hsub
      obtain ⟨between, after, rfl⟩ := List.append_of_mem (List.singleton_sublist.mp hrest)
      rw [← List.append_assoc] at hnodup hm hrepaired
      obtain ⟨e₀, he₀, socket, hne, hsocket, hsocket'⟩ :=
        exists_shared hidem hnodup (List.mem_append_left between he) haddress
      -- Only the first of the two prefixes is mapped to another socket.
      obtain ⟨ip, port, -, hresult⟩ := repairs_of_ownConnection hm hsocket
        (hrepaired e₀ (List.mem_append_left _ he₀) socket hsocket)
      have hown := hrepaired elem (by simp) socket hsocket'
      rw [hresult] at hown
      exact not_ownConnection_reopened (hm.close socket) hsocket' hne.symm hown
    · intro e he
      obtain ⟨socket, hsocket⟩ :=
        Option.isSome_iff_exists.mp (AList.lookup_isSome.mpr ((mem_loaded lib).mpr ⟨e, he, rfl⟩))
      have hown := hrepaired e he socket hsocket
      obtain ⟨ip, port, hread, hresult⟩ := repairs_of_ownConnection hm hsocket hown
      rw [hresult, OwnConnection, socketAt_reopened, Option.some_inj] at hown
      obtain ⟨haddress, hport, -⟩ := RepoSocket.mk.inj hown
      rw [repoMapIP_loaded hnodup he, Option.bind_some, hport] at hread
      exact ⟨ip, hread, haddress⟩
  · rintro ⟨hpairs, hreads⟩ h m hrun socket e he hsocket
    have hsep : Separate config m := by
      refine hrun.invariant' ?_ ?_
      · rintro m rfl
        exact separate_loaded hidem hnodup hpairs
      · intro m ev m' hm hstep
        exact hm.step hstep
    obtain ⟨ip, hread, haddress⟩ := hreads e he
    obtain ⟨key, hkey, hcases⟩ :=
      checkAndFix_cases lib hsep.wellFormed ⟨e.repoPrefix, hsocket⟩ config
    obtain rfl : e.repoPrefix = key := hsep.injective _ _ _ hsocket hkey
    rw [hsep.texts e he, Option.bind_some, hread] at hcases
    rcases hcases with ⟨hnone, -⟩ | ⟨ip', port, hread', hresult⟩
    · exact absurd hnone (by simp)
    · obtain ⟨rfl, rfl⟩ := Prod.mk.inj (Option.some_inj.mp hread')
      rw [hresult, OwnConnection, socketAt_reopened, haddress]

end RepairsOwn

end NDNRepoMap

end OpenGeoBase
