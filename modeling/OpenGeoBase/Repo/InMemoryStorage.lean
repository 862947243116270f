import OpenGeoBase.Lib.LastUsed
import OpenGeoBase.Repo.InterestSafety
import OpenGeoBase.Repo.SelectChild

/-!
# The cache of the repository

The repository keeps a hundred packets of its replies in an `InMemoryStorageLru`. The packets are
ordered by their full names, which have the digest of the packet behind its name; a second list has
them in the order of their last uses. A packet is looked for by a prefix of its full name, and the
first one that has it is found. Entries for packets come from a pool, which is made larger when it
is used up, as long as the limit allows it, and then the packet goes that was used first.

`Consistent` is the invariant of these fields, and with it no assertion fails. A packet that is in
the storage already is not put in a second time, and this is no use of it; otherwise the list is one
of the elements used last (`Consistent.step`, `run_storage`).

With this cache, the read handle does nothing that it does not do with a cache that may drop what it
likes (`readHandle_of_cachedHandle`).
-/

namespace OpenGeoBase

open OrderedSet LastUsed Text AtomicCalls Transition

/-- `InMemoryStorage`, and what `InMemoryStorageLru` adds to it. Of the pool there is its size. -/
structure InMemoryStorage (names : NameLibrary) where
  m_cache : List (Packet names)
  m_cleanupIndex : List (Packet names)
  m_limit : ℕ
  m_capacity : ℕ
  m_nPackets : ℕ
  m_freeEntries : ℕ

namespace InMemoryStorage

variable {names : NameLibrary}

/-- `InMemoryStorage::init`. -/
def init (names : NameLibrary) (limit : ℕ) : InMemoryStorage names :=
  let m_capacity := if limit < 10 then limit else 10
  { m_cache := []
    m_cleanupIndex := []
    m_limit := limit
    m_capacity := m_capacity
    m_nPackets := 0
    m_freeEntries := m_capacity }

/-- `InMemoryStorage::isFull`. -/
def isFull (s : InMemoryStorage names) : Prop := s.m_capacity ≤ s.m_nPackets

instance (s : InMemoryStorage names) : Decidable s.isFull :=
  inferInstanceAs (Decidable (s.m_capacity ≤ s.m_nPackets))

/-- `InMemoryStorage::setCapacity`, for a capacity that is not less than the old one; `none` if the
assertion fails. -/
def setCapacity (capacity : ℕ) (s : InMemoryStorage names) : Option (InMemoryStorage names) :=
  let m_freeEntries := s.m_freeEntries + (capacity - s.m_capacity)
  if s.m_nPackets + m_freeEntries = capacity then
    some { s with m_capacity := capacity, m_freeEntries := m_freeEntries }
  else none

/-- `InMemoryStorageLru::afterInsert`; `none` if the assertion fails. -/
def afterInsert (entry : Packet names) (s : InMemoryStorage names) :
    Option (InMemoryStorage names) :=
  if s.m_cleanupIndex.length ≤ s.m_nPackets then
    some { s with
      m_cleanupIndex :=
        if entry ∈ s.m_cleanupIndex then s.m_cleanupIndex else s.m_cleanupIndex ++ [entry] }
  else none

/-- `InMemoryStorageLru::beforeErase`. -/
def beforeErase (entry : Packet names) (s : InMemoryStorage names) : InMemoryStorage names :=
  { s with m_cleanupIndex := s.m_cleanupIndex.erase entry }

/-- `InMemoryStorageLru::afterAccess`. -/
def afterAccess (entry : Packet names) (s : InMemoryStorage names) :
    Option (InMemoryStorage names) :=
  (s.beforeErase entry).afterInsert entry

/-- `InMemoryStorage::freeEntry`. -/
def freeEntry (entry : Packet names) (s : InMemoryStorage names) : InMemoryStorage names :=
  { s with
    m_cache := s.m_cache.erase entry
    m_freeEntries := s.m_freeEntries + 1
    m_nPackets := s.m_nPackets - 1 }

variable (digest : Packet names → names.Component)

/-- `Data::getFullName`. -/
def getFullName (data : Packet names) : names.Name := data.name ++ [digest data]

/-- The entry of a full name. -/
def entryOf (fullName : names.Name) (s : InMemoryStorage names) : Option (Packet names) :=
  s.m_cache.find? fun entry => decide (getFullName digest entry = fullName)

/-- `InMemoryStorage::eraseImpl`. -/
def eraseImpl (name : names.Name) (s : InMemoryStorage names) : InMemoryStorage names :=
  match s.entryOf digest name with
  | none => s
  | some entry => s.freeEntry entry

/-- `InMemoryStorageLru::evictItem`: has a packet been removed? -/
def evictItem (s : InMemoryStorage names) : Bool × InMemoryStorage names :=
  match s.m_cleanupIndex with
  | [] => (false, s)
  | entry :: entries =>
    (true, { s.eraseImpl digest (getFullName digest entry) with m_cleanupIndex := entries })

/-- The part of `InMemoryStorage::insert` that makes room. -/
def makeRoom (s : InMemoryStorage names) : Option (InMemoryStorage names) := do
  let doesReachLimit := s.m_limit = s.m_capacity
  let s ←
    if s.isFull ∧ ¬doesReachLimit then s.setCapacity (min (2 * s.m_capacity) s.m_limit)
    else some s
  pure (if s.isFull ∧ doesReachLimit then (s.evictItem digest).2 else s)

variable [CanonicalOrder names]

/-- `InMemoryStorage::insert`; `none` if an assertion fails. -/
def insert (data : Packet names) (s : InMemoryStorage names) : Option (InMemoryStorage names) :=
  if (s.entryOf digest (getFullName digest data)).isSome then some s
  else do
    let s ← s.makeRoom digest
    if s.m_freeEntries = 0 then none
    else
      afterInsert data
        { s with
          m_freeEntries := s.m_freeEntries - 1
          m_nPackets := s.m_nPackets + 1
          m_cache := s.m_cache.orderedInsert
            (fun a b => getFullName digest a ≤ getFullName digest b) data }

/-- The entry that `InMemoryStorage::find` finds among the packets. -/
def found (packets : List (Packet names)) (name : names.Name) : Option (Packet names) :=
  match packets[OrderedSet.lowerBound (getFullName digest) packets name]? with
  | none => none
  | some entry => if name <+: getFullName digest entry then some entry else none

/-- `InMemoryStorage::find` of a name; `none` if an assertion fails. -/
def find (name : names.Name) (s : InMemoryStorage names) :
    Option (Option (Packet names) × InMemoryStorage names) :=
  match found digest s.m_cache name with
  | none => some (none, s)
  | some entry => (s.afterAccess entry).map fun s => (some entry, s)

/-! ### The invariant -/

/-- The fields agree with each other. -/
structure Consistent (s : InMemoryStorage names) : Prop where
  increasing : Increasing (getFullName digest) s.m_cache
  cleanup : s.m_cleanupIndex.Perm s.m_cache
  size : s.m_nPackets = s.m_cache.length
  pool : s.m_nPackets + s.m_freeEntries = s.m_capacity
  capacity_pos : 0 < s.m_capacity
  capacity_le : s.m_capacity ≤ s.m_limit

variable {digest} {s s' : InMemoryStorage names} {data entry : Packet names} {name : names.Name}

/-- A new storage is empty, and all its entries are free. -/
theorem consistent_init {limit : ℕ} (hlimit : 0 < limit) :
    (init names limit).Consistent digest where
  increasing := List.Pairwise.nil
  cleanup := List.Perm.refl _
  size := rfl
  pool := Nat.zero_add _
  capacity_pos := by
    unfold init
    dsimp only
    split <;> omega
  capacity_le := by
    unfold init
    dsimp only
    split <;> omega

namespace Consistent

/-- The full names are different ones. -/
theorem nodup_map (h : s.Consistent digest) : (s.m_cache.map (getFullName digest)).Nodup :=
  List.pairwise_map.mpr (h.increasing.imp fun hlt => ne_of_lt hlt)

/-- There is one entry for a full name. -/
theorem eq_of_getFullName (h : s.Consistent digest) (hdata : data ∈ s.m_cache)
    (hentry : entry ∈ s.m_cache) (heq : getFullName digest data = getFullName digest entry) :
    data = entry :=
  List.inj_on_of_nodup_map h.nodup_map hdata hentry heq

/-- No name is cached twice. -/
theorem nodup_cache (h : s.Consistent digest) : s.m_cache.Nodup := h.nodup_map.of_map

theorem nodup_cleanup (h : s.Consistent digest) : s.m_cleanupIndex.Nodup :=
  h.cleanup.nodup_iff.mpr h.nodup_cache

theorem length_cleanup (h : s.Consistent digest) : s.m_cleanupIndex.length = s.m_nPackets := by
  rw [h.cleanup.length_eq, h.size]

/-- A packet that is there is the entry of its full name. -/
theorem entryOf_eq (h : s.Consistent digest) (hentry : entry ∈ s.m_cache) :
    s.entryOf digest (getFullName digest entry) = some entry := by
  unfold entryOf
  cases hfind : s.m_cache.find? fun e => decide (getFullName digest e = getFullName digest entry)
  with
  | none =>
    -- the packet itself would have been found
    have hnone := List.find?_eq_none.mp hfind entry hentry
    exact absurd (decide_eq_true rfl) hnone
  | some e =>
    have hfound := List.find?_some hfind
    have heq : getFullName digest e = getFullName digest entry := of_decide_eq_true hfound
    rw [h.eq_of_getFullName (List.mem_of_find?_eq_some hfind) hentry heq]

end Consistent

omit [CanonicalOrder names] in
/-- There is no entry for a full name that no packet has. -/
theorem entryOf_eq_none_iff {fullName : names.Name} : s.entryOf digest fullName = none ↔
    ∀ entry ∈ s.m_cache, getFullName digest entry ≠ fullName := by
  unfold entryOf
  simp

/-! ### Room for a packet -/

/-- The packet that was used first goes. -/
theorem Consistent.evictItem (h : s.Consistent digest) (hne : s.m_cleanupIndex ≠ []) :
    (s.evictItem digest).2.Consistent digest ∧
      (s.evictItem digest).2.m_freeEntries = s.m_freeEntries + 1 ∧
      (s.evictItem digest).2.m_limit = s.m_limit ∧
      (s.evictItem digest).2.m_cleanupIndex = s.m_cleanupIndex.tail := by
  obtain ⟨entry, entries, hcleanup⟩ := List.exists_cons_of_ne_nil hne
  -- The entry that goes is in the cache, so all three counts move together.
  have hmem : entry ∈ s.m_cache := by
    rw [← h.cleanup.mem_iff, hcleanup]
    exact List.mem_cons_self
  have hpos : 0 < s.m_cache.length := List.length_pos_of_mem hmem
  have hsize := h.size
  have hpool := h.pool
  unfold InMemoryStorage.evictItem eraseImpl
  rw [hcleanup]
  dsimp only
  rw [h.entryOf_eq hmem]
  refine ⟨?_, rfl, rfl, rfl⟩
  exact {
    increasing := h.increasing.sublist List.erase_sublist
    cleanup := by
      have hperm := h.cleanup.erase entry
      rwa [hcleanup, List.erase_cons_head] at hperm
    size := by
      change s.m_nPackets - 1 = (s.m_cache.erase entry).length
      rw [List.length_erase_of_mem hmem, hsize]
    pool := by
      change s.m_nPackets - 1 + (s.m_freeEntries + 1) = s.m_capacity
      omega
    capacity_pos := h.capacity_pos
    capacity_le := h.capacity_le }

/-- Afterwards there is a free entry: the pool has been made larger, or a packet is gone. -/
theorem Consistent.makeRoom (h : s.Consistent digest) :
    ∃ s', s.makeRoom digest = some s' ∧ s'.Consistent digest ∧ 0 < s'.m_freeEntries ∧
      s'.m_limit = s.m_limit ∧
      s'.m_cleanupIndex = if s.m_cleanupIndex.length < s.m_limit then s.m_cleanupIndex
        else s.m_cleanupIndex.tail := by
  have hpool := h.pool
  have hpos := h.capacity_pos
  have hle := h.capacity_le
  rw [h.length_cleanup]
  unfold InMemoryStorage.makeRoom
  by_cases hfull : s.isFull
  · have hcapacity : s.m_capacity ≤ s.m_nPackets := hfull
    by_cases hlimit : s.m_limit = s.m_capacity
    · -- the limit is reached
      have hne : s.m_cleanupIndex ≠ [] := by
        refine List.ne_nil_of_length_pos ?_
        rw [h.length_cleanup]
        omega
      obtain ⟨hconsistent, hfree, hsame, hcleanup⟩ := h.evictItem hne
      rw [if_neg fun hgrow => hgrow.2 hlimit, if_neg (by omega)]
      refine ⟨_, congrArg some (if_pos ⟨hfull, hlimit⟩), hconsistent, ?_, hsame, hcleanup⟩
      rw [hfree]
      omega
    · -- there is room for a larger pool
      have hgrow : s.setCapacity (min (2 * s.m_capacity) s.m_limit) = some { s with
          m_capacity := min (2 * s.m_capacity) s.m_limit
          m_freeEntries := s.m_freeEntries + (min (2 * s.m_capacity) s.m_limit - s.m_capacity) } :=
        if_pos (by omega)
      rw [if_pos ⟨hfull, hlimit⟩, hgrow, if_pos (by omega)]
      refine ⟨_, congrArg some (if_neg fun hreach => hlimit hreach.2), ?_, ?_, rfl, rfl⟩
      · exact {
          increasing := h.increasing
          cleanup := h.cleanup
          size := h.size
          pool := by
            dsimp only
            omega
          capacity_pos := by
            dsimp only
            omega
          capacity_le := Nat.min_le_right _ _ }
      · dsimp only
        omega
  -- A free entry is left.
  · have hcapacity : ¬s.m_capacity ≤ s.m_nPackets := hfull
    rw [if_neg fun hgrow => hfull hgrow.1, if_pos (by omega)]
    refine ⟨s, congrArg some (if_neg fun hreach => hfull hreach.1), h, ?_, rfl, rfl⟩
    omega

/-! ### The operations -/

/-- A packet that is new. -/
theorem Consistent.insert_new (h : s.Consistent digest)
    (hnew : ∀ entry ∈ s.m_cache, getFullName digest entry ≠ getFullName digest data) :
    ∃ s', s.insert digest data = some s' ∧ s'.Consistent digest ∧ s'.m_limit = s.m_limit ∧
      s'.m_cleanupIndex = use s.m_limit s.m_cleanupIndex data := by
  obtain ⟨s₁, hroom, h₁, hfree, hlimit, hcleanup⟩ := h.makeRoom
  -- room has been made by leaving out packets
  have hnew₁ : ∀ entry ∈ s₁.m_cache, getFullName digest entry ≠ getFullName digest data := by
    intro entry hentry
    refine hnew entry (h.cleanup.mem_iff.mp ?_)
    rw [← h₁.cleanup.mem_iff, hcleanup] at hentry
    split at hentry
    · exact hentry
    · exact List.mem_of_mem_tail hentry
  have hnot : data ∉ s₁.m_cleanupIndex := fun hmem =>
    hnew₁ data (h₁.cleanup.mem_iff.mp hmem) rfl
  have hnot' : data ∉ s.m_cleanupIndex := fun hmem => hnew data (h.cleanup.mem_iff.mp hmem) rfl
  have hpool := h₁.pool
  have hinsert : s.insert digest data = some { s₁ with
      m_freeEntries := s₁.m_freeEntries - 1
      m_nPackets := s₁.m_nPackets + 1
      m_cache := s₁.m_cache.orderedInsert
        (fun a b => getFullName digest a ≤ getFullName digest b) data
      m_cleanupIndex := s₁.m_cleanupIndex ++ [data] } := by
    have hentry : ¬(s.entryOf digest (getFullName digest data)).isSome = true := by
      rw [entryOf_eq_none_iff.mpr hnew]
      exact Bool.false_ne_true
    unfold InMemoryStorage.insert
    rw [if_neg hentry, hroom, Option.bind_eq_bind, Option.bind_some, if_neg hfree.ne']
    unfold afterInsert
    dsimp only
    rw [if_pos (by rw [h₁.length_cleanup]; exact Nat.le_succ _), if_neg hnot]
  refine ⟨_, hinsert, ?_, hlimit, ?_⟩
  · have hperm : (s₁.m_cache.orderedInsert
        (fun a b => getFullName digest a ≤ getFullName digest b) data).Perm (data :: s₁.m_cache) :=
      List.perm_orderedInsert _ data s₁.m_cache
    exact {
      increasing := increasing_orderedInsert h₁.increasing hnew₁
      cleanup := ((List.perm_append_singleton _ _).trans (h₁.cleanup.cons data)).trans hperm.symm
      size := by
        change s₁.m_nPackets + 1 = _
        rw [hperm.length_eq, List.length_cons, h₁.size]
      pool := by
        change s₁.m_nPackets + 1 + (s₁.m_freeEntries - 1) = s₁.m_capacity
        omega
      capacity_pos := h₁.capacity_pos
      capacity_le := h₁.capacity_le }
  · change s₁.m_cleanupIndex ++ [data] = _
    unfold use
    rw [if_neg hnot', hcleanup]
    split <;> rfl

/-- A packet that is there already. -/
theorem insert_old (hentry : (s.entryOf digest (getFullName digest data)).isSome = true) :
    s.insert digest data = some s := if_pos hentry

section Found

variable {packets : List (Packet names)}

/-- The lower bound comes no later than an entry with the name. -/
theorem exists_found (hincreasing : Increasing (getFullName digest) packets)
    (hdata : data ∈ packets) (hname : name <+: getFullName digest data) :
    ∃ entry, found digest packets name = some entry ∧
      getFullName digest entry ≤ getFullName digest data := by
  obtain ⟨j, hj⟩ := List.getElem?_of_mem hdata
  have hle : OrderedSet.lowerBound (getFullName digest) packets name ≤ j := by
    rw [← not_lt, lt_lowerBound_iff hincreasing hj, not_lt]
    exact le_of_isPrefix hname
  have hj' : j < packets.length := (List.getElem?_eq_some_iff.mp hj).1
  have hi := List.getElem?_eq_getElem (hle.trans_lt hj')
  generalize packets[OrderedSet.lowerBound (getFullName digest) packets name] = entry at hi
  have hentry : getFullName digest entry ≤ getFullName digest data := by
    rcases hle.lt_or_eq with hlt | heq
    · exact (lt_of_getElem? hincreasing hi hj hlt).le
    · rw [heq, hj] at hi
      rw [Option.some.inj hi]
  have hbound : name ≤ getFullName digest entry := by
    rw [← not_lt, ← lt_lowerBound_iff hincreasing hi]
    exact lt_irrefl _
  -- what lies between the name and a longer one begins with the name
  have hprefix := prefix_of_le_of_le hbound hentry hname
  refine ⟨entry, ?_, hentry⟩
  unfold found
  rw [hi]
  exact if_pos hprefix

/-- What is found is there, and has the prefix. -/
theorem of_found (hfound : found digest packets name = some entry) :
    entry ∈ packets ∧ name <+: getFullName digest entry := by
  unfold found at hfound
  split at hfound
  · exact absurd hfound (by simp)
  · next e he =>
    split at hfound
    · next hprefix =>
      obtain rfl := Option.some.inj hfound
      exact ⟨List.mem_of_getElem? he, hprefix⟩
    · exact absurd hfound (by simp)

/-- **What is found** is the first packet whose full name begins with the name. -/
theorem found_eq_some_iff (hincreasing : Increasing (getFullName digest) packets) :
    found digest packets name = some entry ↔
      entry ∈ packets ∧ name <+: getFullName digest entry ∧
        ∀ data ∈ packets, name <+: getFullName digest data →
          getFullName digest entry ≤ getFullName digest data := by
  constructor
  · intro hfound
    obtain ⟨hmem, hprefix⟩ := of_found hfound
    refine ⟨hmem, hprefix, fun data hdata hname => ?_⟩
    obtain ⟨entry', hfound', hle⟩ := exists_found hincreasing hdata hname
    rw [hfound] at hfound'
    rwa [Option.some.inj hfound']
  · rintro ⟨hmem, hprefix, hleast⟩
    -- what is found instead is no later and no earlier, so it has the same full name
    obtain ⟨entry', hfound, hle⟩ := exists_found hincreasing hmem hprefix
    obtain ⟨hmem', hprefix'⟩ := of_found hfound
    have hnodup : (packets.map (getFullName digest)).Nodup :=
      List.pairwise_map.mpr (hincreasing.imp fun hlt => ne_of_lt hlt)
    rw [hfound, List.inj_on_of_nodup_map hnodup hmem hmem'
      (le_antisymm (hleast entry' hmem' hprefix') hle)]

end Found

/-- A packet that is found. -/
theorem Consistent.find (h : s.Consistent digest)
    (hfound : found digest s.m_cache name = some entry) :
    ∃ s', s.find digest name = some (some entry, s') ∧ s'.Consistent digest ∧
      s'.m_limit = s.m_limit ∧ s'.m_cache = s.m_cache ∧
      s'.m_cleanupIndex = use s.m_limit s.m_cleanupIndex entry := by
  -- it is taken out of the list and put at its end
  have hmem : entry ∈ s.m_cleanupIndex :=
    h.cleanup.mem_iff.mpr ((found_eq_some_iff h.increasing).mp hfound).1
  have hnot : entry ∉ s.m_cleanupIndex.erase entry := h.nodup_cleanup.not_mem_erase
  have hlength : (s.m_cleanupIndex.erase entry).length ≤ s.m_nPackets := by
    rw [← h.length_cleanup]
    exact List.length_erase_le
  have hfind : s.find digest name = some (some entry,
      { s with m_cleanupIndex := s.m_cleanupIndex.erase entry ++ [entry] }) := by
    unfold InMemoryStorage.find afterAccess beforeErase afterInsert
    rw [hfound]
    dsimp only
    rw [if_pos hlength, if_neg hnot]
    rfl
  refine ⟨_, hfind, ?_, rfl, rfl, (if_pos hmem).symm⟩
  exact {
    increasing := h.increasing
    cleanup := (List.perm_append_singleton _ _).trans
      ((List.perm_cons_erase hmem).symm.trans h.cleanup)
    size := h.size
    pool := h.pool
    capacity_pos := h.capacity_pos
    capacity_le := h.capacity_le }

end InMemoryStorage

/-! ### Runs -/

/-- What is asked of a storage. -/
inductive StorageOp (names : NameLibrary) where
  | insert (data : Packet names)
  | find (name : names.Name)

namespace InMemoryStorage

variable {names : NameLibrary} [CanonicalOrder names] (digest : Packet names → names.Component)

/-- One operation; `none` if an assertion fails. -/
def step : StorageOp names → InMemoryStorage names → Option (InMemoryStorage names)
  | .insert data, s => s.insert digest data
  | .find name, s => (s.find digest name).map Prod.snd

/-- The packet that is put in, or found. -/
def usedBy : StorageOp names → InMemoryStorage names → List (Packet names)
  | .insert data, s => if (s.entryOf digest (getFullName digest data)).isSome then [] else [data]
  | .find name, s => (found digest s.m_cache name).toList

/-- One operation after the other, and the packets that they use. -/
def run : List (StorageOp names) → InMemoryStorage names →
    Option (InMemoryStorage names × List (Packet names))
  | [], s => some (s, [])
  | op :: ops, s =>
    (s.step digest op).bind fun s' =>
      (run ops s').map fun r => (r.1, s.usedBy digest op ++ r.2)

variable {digest} {s s' : InMemoryStorage names} {limit : ℕ}

/-- **One operation**: no assertion fails, and the packet that it uses is the last one used. -/
theorem Consistent.step (h : s.Consistent digest) (op : StorageOp names) :
    ∃ s', s.step digest op = some s' ∧ s'.Consistent digest ∧ s'.m_limit = s.m_limit ∧
      s'.m_cleanupIndex = (s.usedBy digest op).foldl (use s.m_limit) s.m_cleanupIndex := by
  -- Inserting a packet that is stored and looking for one that is not change nothing.
  cases op with
  | insert data =>
    unfold usedBy
    dsimp only
    split
    · next hentry => exact ⟨s, insert_old hentry, h, rfl, rfl⟩
    · next hentry =>
      exact h.insert_new (entryOf_eq_none_iff.mp (Option.not_isSome_iff_eq_none.mp hentry))
  | find name =>
    unfold InMemoryStorage.step usedBy
    dsimp only
    cases hfound : found digest s.m_cache name with
    | none =>
      unfold InMemoryStorage.find
      rw [hfound]
      exact ⟨s, rfl, h, rfl, rfl⟩
    | some entry =>
      obtain ⟨s', hfind, hconsistent, hlimit, -, hcleanup⟩ := h.find hfound
      rw [hfind]
      exact ⟨s', rfl, hconsistent, hlimit, hcleanup⟩

/-- From operation to operation, the list is one of the packets used last. -/
theorem Consistent.run (h : s.Consistent digest) {used : List (Packet names)}
    (hused : s.m_cleanupIndex = lastUsed s.m_limit used) (ops : List (StorageOp names)) :
    ∃ t more, s.run digest ops = some (t, more) ∧ t.Consistent digest ∧ t.m_limit = s.m_limit ∧
      t.m_cleanupIndex = lastUsed s.m_limit (used ++ more) := by
  induction ops generalizing s used with
  | nil => exact ⟨s, [], rfl, h, rfl, by rw [List.append_nil, hused]⟩
  | cons op ops ih =>
    -- the first operation appends what it uses, and the others go on from there
    have hpos : 0 < s.m_limit := h.capacity_pos.trans_le h.capacity_le
    obtain ⟨s', hstep, h', hlimit, hcleanup⟩ := h.step op
    rw [hused, foldl_use hpos, ← hlimit] at hcleanup
    obtain ⟨t, more, hrun, ht, htlimit, htcleanup⟩ := ih h' hcleanup
    refine ⟨t, s.usedBy digest op ++ more, ?_, ht, htlimit.trans hlimit, ?_⟩
    · unfold InMemoryStorage.run
      rw [hstep, Option.bind_some, hrun]
      rfl
    · rw [htcleanup, hlimit, List.append_assoc]

variable (digest) in
/-- **The storage in a run.** Whatever is asked of it, no assertion fails. There are never more
packets than the limit allows: a packet is there if it has been used, and fewer others than the
limit since then. What is found is the first packet whose full name begins with the name. -/
theorem run_storage (hlimit : 0 < limit) (ops : List (StorageOp names)) :
    ∃ s used, (init names limit).run digest ops = some (s, used) ∧
      (s.m_nPackets = s.m_cache.length ∧ s.m_cache.length ≤ limit) ∧
      (∀ data, data ∈ s.m_cache ↔
        ∃ before after, used = before ++ data :: after ∧ data ∉ after ∧
          after.toFinset.card < limit) ∧
      ∀ name entry, found digest s.m_cache name = some entry ↔
        entry ∈ s.m_cache ∧ name <+: getFullName digest entry ∧
          ∀ data ∈ s.m_cache, name <+: getFullName digest data →
            getFullName digest entry ≤ getFullName digest data := by
  have hnew : (init names limit).m_cleanupIndex = lastUsed (init names limit).m_limit [] := by
    simp [init, lastUsed, List.rtake]
  obtain ⟨s, used, hrun, h, hsame, hcleanup⟩ := (consistent_init hlimit).run hnew ops
  have hcleanup' : s.m_cleanupIndex = lastUsed limit used := hcleanup
  refine ⟨s, used, hrun, ⟨h.size, ?_⟩, fun data => ?_, fun name entry =>
    found_eq_some_iff h.increasing⟩
  · rw [← h.cleanup.length_eq, hcleanup']
    exact length_lastUsed_le limit used
  · rw [← h.cleanup.mem_iff, hcleanup', mem_lastUsed_iff]

/-- After an operation, no packets but those put in are new. -/
theorem Consistent.mem_of_step (h : s.Consistent digest) {op : StorageOp names}
    (hstep : s.step digest op = some s') {data : Packet names} (hdata : data ∈ s'.m_cache) :
    data ∈ s.m_cache ∨ op = .insert data := by
  obtain ⟨t, ht, hconsistent, -, hcleanup⟩ := h.step op
  obtain rfl := Option.some.inj (ht.symm.trans hstep)
  -- What is cached is what is in line for removal, and a use adds the used packet only.
  rw [← hconsistent.cleanup.mem_iff, hcleanup] at hdata
  rw [← h.cleanup.mem_iff]
  cases op with
  | insert entry =>
    unfold usedBy at hdata
    dsimp only at hdata
    split at hdata
    · exact Or.inl hdata
    · rcases mem_of_mem_use hdata with rfl | hold
      · exact Or.inr rfl
      · exact Or.inl hold
  | find name =>
    unfold usedBy at hdata
    dsimp only at hdata
    cases hfound : found digest s.m_cache name with
    | none =>
      rw [hfound] at hdata
      exact Or.inl hdata
    | some entry =>
      rw [hfound] at hdata
      rcases mem_of_mem_use hdata with rfl | hold
      · exact Or.inl (h.cleanup.mem_iff.mpr (of_found hfound).1)
      · exact Or.inl hold

/-- After a run, what is there has been there at its start or has been put in. -/
theorem Consistent.mem_of_run (h : s.Consistent digest) {ops : List (StorageOp names)}
    {used : List (Packet names)} (hrun : s.run digest ops = some (s', used)) {data : Packet names}
    (hdata : data ∈ s'.m_cache) : data ∈ s.m_cache ∨ .insert data ∈ ops := by
  induction ops generalizing s used with
  | nil =>
    obtain ⟨rfl, -⟩ := Prod.mk.inj (Option.some.inj hrun)
    exact Or.inl hdata
  | cons op ops ih =>
    obtain ⟨t, hstep, ht, -, -⟩ := h.step op
    unfold InMemoryStorage.run at hrun
    rw [hstep, Option.bind_some] at hrun
    obtain ⟨⟨u, more⟩, hrest, heq⟩ := Option.map_eq_some_iff.mp hrun
    obtain ⟨rfl, -⟩ := Prod.mk.inj heq
    -- A packet of a later state was there before, or one of the operations brought it.
    rcases ih ht hrest with hold | hnew
    · refine (h.mem_of_step hstep hold).imp_right fun hop => ?_
      rw [hop]
      exact List.mem_cons_self
    · exact Or.inr (List.mem_cons_of_mem op hnew)

end InMemoryStorage

/-! ### The read handle with its cache -/

/-- The repository: its database, and its cache. -/
structure CachedState (names : NameLibrary) where
  db : Db
  lruCache : InMemoryStorage names

section Handle

variable {lib : StorageLibrary} [CanonicalOrder lib.names] (ndn : ReadLibrary lib)
  (digest : Packet lib.names → lib.names.Component) (threshold : ℤ) (reponame : Str)

/-- What the handling of an interest asks of the cache: a query looks for the name first, and
whatever is sent in segments is put in. -/
def storageOps (name : lib.names.Name) (handled : Handled lib.names) :
    List (StorageOp lib.names) :=
  (if dispatch (lib.names.toUri name) = .readQuery then [.find name] else []) ++
    handled.cached.map .insert

/-- `ReadHandle::onInterest`, and the packets that the cache uses for it; `none` if an assertion
of the cache fails. -/
def CachedState.handle (sorts : ℕ → ℕ → CounterSort) (bound : ℕ) (s : CachedState lib.names)
    (name : lib.names.Name) :
    Option (Handled lib.names × CachedState lib.names × List (Packet lib.names)) :=
  let handled := (onInterest lib ndn threshold sorts bound
    (InMemoryStorage.found digest s.lruCache.m_cache) reponame name).run s.db
  (s.lruCache.run digest (storageOps name handled.1)).map fun r =>
    (handled.1, ⟨handled.2, r.1⟩, r.2)

/-- The events of the repository. -/
inductive CachedStep :
    CachedState lib.names → ReadEvent lib.names → CachedState lib.names → Prop where
  | onInterest {s s' : CachedState lib.names} {name : lib.names.Name}
      {sorts : ℕ → ℕ → CounterSort} {bound : ℕ} {handled : Handled lib.names}
      {used : List (Packet lib.names)}
      (h : s.handle ndn digest threshold reponame sorts bound name = some (handled, s', used)) :
    CachedStep s (.onInterest name) s'
  | store {s : CachedState lib.names} {db : Db} : CachedStep s .store ⟨db, s.lruCache⟩

/-- The repository, from its start on any database; `RepoStorage::initialize` makes the cache. -/
def cachedHandle : System (CachedState lib.names) (ReadEvent lib.names) where
  init s := s.lruCache = .init lib.names 100
  step := CachedStep ndn digest threshold reponame

/-- The cache as the handle sees it. -/
def lruLibrary : CacheLibrary lib.names where
  find := InMemoryStorage.found digest
  getFullName := InMemoryStorage.getFullName digest

variable {ndn digest threshold reponame} {s : CachedState lib.names}

/-- It does what is documented of a cache. -/
theorem documented_lruLibrary (hsegmented : lib.names.Segmented)
    (hempty : lib.names.toUri [] = ['/']) : (lruLibrary digest).Documented where
  segmented := hsegmented
  toUri_nil := hempty
  mem_of_find h := (InMemoryStorage.of_found h).1
  begins_of_find h := (InMemoryStorage.of_found h).2
  exists_digest packet := ⟨digest packet, rfl⟩

variable {sorts : ℕ → ℕ → CounterSort} {bound : ℕ} {name : lib.names.Name}

/-- No assertion of the cache fails. -/
theorem exists_handle (h : s.lruCache.Consistent digest) {used : List (Packet lib.names)}
    (hused : s.lruCache.m_cleanupIndex = lastUsed s.lruCache.m_limit used) :
    (s.handle ndn digest threshold reponame sorts bound name).isSome = true := by
  obtain ⟨lruCache, more, hrun, -⟩ := h.run hused (storageOps name
    ((onInterest lib ndn threshold sorts bound
      (InMemoryStorage.found digest s.lruCache.m_cache) reponame name).run s.db).1)
  unfold CachedState.handle
  dsimp only
  rw [hrun]
  rfl

/-- **What the handling of an interest comes to**: the packets that are put on the face are those
of `onInterest`, and the cache has used what it has been asked for. -/
theorem handle_eq_some {s' : CachedState lib.names} {handled : Handled lib.names}
    {more : List (Packet lib.names)}
    (hhandle : s.handle ndn digest threshold reponame sorts bound name = some (handled, s', more)) :
    (onInterest lib ndn threshold sorts bound
        (InMemoryStorage.found digest s.lruCache.m_cache) reponame name).run s.db =
          (handled, s'.db) ∧
      s.lruCache.run digest (storageOps name handled) = some (s'.lruCache, more) := by
  obtain ⟨⟨lruCache, used⟩, hrun, heq⟩ := Option.map_eq_some_iff.mp hhandle
  obtain ⟨rfl, hstate⟩ := Prod.mk.inj heq
  obtain ⟨rfl, rfl⟩ := Prod.mk.inj hstate
  exact ⟨rfl, hrun⟩

/-- What all states of the repository have in common: the cache holds what has been used last. -/
def CachedState.Reached (digest : Packet lib.names → lib.names.Component)
    (s : CachedState lib.names) : Prop :=
  s.lruCache.Consistent digest ∧ s.lruCache.m_limit = 100 ∧
    ∃ used, s.lruCache.m_cleanupIndex = lastUsed 100 used

/-- One event keeps it. -/
theorem CachedStep.reached {s' : CachedState lib.names} {event : ReadEvent lib.names}
    (h : s.Reached digest) (hstep : CachedStep ndn digest threshold reponame s event s') :
    s'.Reached digest := by
  obtain ⟨hconsistent, hlimit, used, hused⟩ := h
  cases hstep with
  | onInterest hhandle =>
    obtain ⟨-, hrun⟩ := handle_eq_some hhandle
    rw [← hlimit] at hused
    obtain ⟨t, more, ht, htconsistent, htlimit, htused⟩ := hconsistent.run hused _
    obtain ⟨rfl, rfl⟩ := Prod.mk.inj (Option.some.inj (ht.symm.trans hrun))
    refine ⟨htconsistent, htlimit.trans hlimit, used ++ more, ?_⟩
    rw [htused, hlimit]
  | store => exact ⟨hconsistent, hlimit, used, hused⟩

/-- One event is one of the handle, whose cache is any list of packets that may get shorter. -/
theorem CachedStep.readStep {s' : CachedState lib.names} {event : ReadEvent lib.names}
    (h : s.lruCache.Consistent digest)
    (hstep : CachedStep ndn digest threshold reponame s event s') :
    ReadStep ndn (lruLibrary digest) threshold reponame ⟨s.db, s.lruCache.m_cache⟩ event
      ⟨s'.db, s'.lruCache.m_cache⟩ := by
  cases hstep with
  | onInterest hhandle =>
    obtain ⟨honInterest, hrun⟩ := handle_eq_some hhandle
    obtain ⟨hhandled, hdb⟩ := Prod.mk.inj honInterest
    rw [← hdb]
    -- The handle lets the cache keep any packets that were in it or are cached now.
    refine ReadStep.onInterest fun packet hpacket => ?_
    refine (h.mem_of_run hrun hpacket).imp_right fun hop => ?_
    rw [← hhandled] at hop
    unfold storageOps at hop
    rcases List.mem_append.mp hop with hop | hop
    · -- looking for a name puts nothing in
      split at hop
      · exact absurd (List.mem_singleton.mp hop) (by simp)
      · exact absurd hop (by simp)
    · obtain ⟨data, hdata, heq⟩ := List.mem_map.mp hop
      obtain rfl := StorageOp.insert.inj heq
      exact hdata
  | store => exact ReadStep.store

/-- **The handle with its cache is the handle.** The storage does what is documented of a cache.
Whatever happens to the repository, no assertion fails in it, and all that the handle does with it
is done by the handle with a cache that may drop what it likes. -/
theorem readHandle_of_cachedHandle (hsegmented : lib.names.Segmented)
    (hempty : lib.names.toUri [] = ['/'])
    {history : List (CachedState lib.names × ReadEvent lib.names)}
    (hrun : Run (cachedHandle ndn digest threshold reponame) history s) :
    (lruLibrary digest).Documented ∧
      (∀ sorts bound name,
        (s.handle ndn digest threshold reponame sorts bound name).isSome = true) ∧
      ∃ history', Run (readHandle ndn (lruLibrary digest) threshold reponame) history'
          ⟨s.db, s.lruCache.m_cache⟩ ∧
        history'.map Prod.snd = history.map Prod.snd := by
  -- The cache is made with room for a hundred packets.
  have hstart : ∀ s : CachedState lib.names, s.lruCache = .init lib.names 100 →
      s.Reached digest := by
    intro s hs
    unfold CachedState.Reached
    rw [hs]
    exact ⟨InMemoryStorage.consistent_init (by norm_num), rfl, [], rfl⟩
  have hreached : s.Reached digest :=
    hrun.invariant' hstart fun _ _ _ h hstep => CachedStep.reached h hstep
  refine ⟨documented_lruLibrary hsegmented hempty, fun sorts bound name => ?_, ?_⟩
  · obtain ⟨hconsistent, hlimit, used, hused⟩ := hreached
    rw [← hlimit] at hused
    exact exists_handle hconsistent hused
  · -- the state of the handle is the database with the packets that the storage holds
    have hadmitted : Admitted (fun _ _ => True) history := fun _ _ => trivial
    have hsimulates := hrun.simulate (T := readHandle ndn (lruLibrary digest) threshold reponame)
      (f := some) (R := fun s t => s.Reached digest ∧ t = ⟨s.db, s.lruCache.m_cache⟩)
      (fun s hs => ⟨⟨s.db, s.lruCache.m_cache⟩, by
        rw [show s.lruCache = _ from hs]
        rfl, hstart s hs, rfl⟩)
      (fun s event s' t hR _ hstep => by
        obtain ⟨hs, rfl⟩ := hR
        exact Or.inr ⟨event, _, rfl, hstep.readStep hs.1, hstep.reached hs, rfl⟩)
      hadmitted
    obtain ⟨history', t, hrun', hlabels, -, rfl⟩ := hsimulates
    refine ⟨history', hrun', ?_⟩
    rw [hlabels, List.filterMap_some]

end Handle

section Examples

private def digestOf (packet : Packet octetNames) : octetNames.Component :=
  packet.content.map Char.toNat

private def namedPacket (c : Char) : Packet octetNames := ⟨[[c.toNat]], [c], none⟩

/-- Two packets fill the storage, the first is looked for again, and a third one comes. -/
private def twoAndOne : List (StorageOp octetNames) :=
  [.insert (namedPacket 'a'), .insert (namedPacket 'b'), .find [[97]], .insert (namedPacket 'c')]

/-- The packet that is looked for again stays, and the one that is not goes. -/
theorem run_storage_twoAndOne :
    ∃ s used, (InMemoryStorage.init octetNames 2).run digestOf twoAndOne = some (s, used) ∧
      used = [namedPacket 'a', namedPacket 'b', namedPacket 'a', namedPacket 'c'] ∧
      s.m_cache = [namedPacket 'a', namedPacket 'c'] ∧ s.m_nPackets = 2 ∧
      ∃ before after, used = before ++ namedPacket 'a' :: after ∧ namedPacket 'a' ∉ after ∧
        after.toFinset.card < 2 := by
  obtain ⟨s, used, hrun, ⟨hsize, -⟩, hmem, -⟩ :=
    InMemoryStorage.run_storage digestOf two_pos twoAndOne
  -- When the third name comes the second goes, since the first was used after it.
  have heval : ((InMemoryStorage.init octetNames 2).run digestOf twoAndOne).map
      (fun r => (r.1.m_cache, r.2)) = some ([namedPacket 'a', namedPacket 'c'],
        [namedPacket 'a', namedPacket 'b', namedPacket 'a', namedPacket 'c']) := by decide
  rw [hrun] at heval
  obtain ⟨hcache, hused⟩ := Prod.mk.inj (Option.some.inj heval)
  refine ⟨s, used, hrun, hused, hcache, ?_, (hmem _).mp ?_⟩
  · rw [hsize, hcache]
    rfl
  · rw [hcache]
    exact List.mem_cons_self

private instance : CanonicalOrder cityLibrary.names := inferInstanceAs (CanonicalOrder octetNames)

/-- `/OGB/GET_PREFIX`. -/
private def askPrefix : cityLibrary.names.Name :=
  ["OGB", "GET_PREFIX"].map fun component => component.toList.map Char.toNat

private def askedOnce (s : CachedState cityLibrary.names) :
    Option (Handled cityLibrary.names × CachedState cityLibrary.names × List (Packet octetNames)) :=
  s.handle readLibrary digestOf 1 "repo".toList (fun _ _ => .stable) 0 askPrefix

/-- The repository before an interest in its prefixes, after it and after another one. -/
private def neverAsked : CachedState cityLibrary.names := ⟨Db.empty, .init cityLibrary.names 100⟩

private def asked : CachedState cityLibrary.names :=
  ((askedOnce neverAsked).map fun r => r.2.1).getD neverAsked

private def askedTwice : CachedState cityLibrary.names :=
  ((askedOnce asked).map fun r => r.2.1).getD asked

private theorem step_askedOnce {s : CachedState cityLibrary.names}
    (h : (askedOnce s).isSome = true) :
    (cachedHandle readLibrary digestOf 1 "repo".toList).step s (.onInterest askPrefix)
      (((askedOnce s).map fun r => r.2.1).getD s) := by
  obtain ⟨⟨handled, s', used⟩, hhandle⟩ := Option.isSome_iff_exists.mp h
  rw [hhandle]
  exact CachedStep.onInterest hhandle

/-- The prefixes are asked for two times, and the reply is put into the cache once. -/
theorem readHandle_of_cachedHandle_askedTwice :
    askedTwice.lruCache.m_cache.map Packet.name = [segmentName cityLibrary.names askPrefix 0] ∧
      (∀ sorts bound name, (askedTwice.handle readLibrary digestOf 1 "repo".toList sorts bound
        name).isSome = true) ∧
      ∃ history, Run (readHandle readLibrary (lruLibrary digestOf) 1 "repo".toList) history
          ⟨askedTwice.db, askedTwice.lruCache.m_cache⟩ ∧
        history.map Prod.snd = [.onInterest askPrefix, .onInterest askPrefix] := by
  have hstart : Run (cachedHandle readLibrary digestOf 1 "repo".toList) [] neverAsked := .nil rfl
  have honce := hstart.snoc (step_askedOnce (s := neverAsked) (by decide +kernel))
  have htwice : Run (cachedHandle readLibrary digestOf 1 "repo".toList)
      [(neverAsked, .onInterest askPrefix), (asked, .onInterest askPrefix)] askedTwice :=
    honce.snoc (step_askedOnce (s := asked) (by decide +kernel))
  obtain ⟨-, hnever, hhandle⟩ := readHandle_of_cachedHandle octetNames_segmented rfl htwice
  exact ⟨by decide +kernel, hnever, hhandle⟩

end Examples

end OpenGeoBase
