import OpenGeoBase.Lib.Transition
import OpenGeoBase.Repo.Index

/-!
# Version updates from two threads

The maintenance thread and the main thread both call `versionUpdater`, which reads the
version, adds one to it in memory, writes it back and sends it out. The call that reads
and the one that writes are separate, and nothing keeps the other thread from a call of
its own in between.

The threads take their turns (`InTurn`) as long as no call begins while another one is
between its read and its write: then there is one version document, which counts the calls,
and each call sends out a number of its own. A single call that begins in such a moment
spoils that for good (`Spoiled`): either there are two documents from then on, or the
version stays behind the number of calls.
-/

namespace OpenGeoBase

open Text AtomicCalls Collection Transition

/-! ### The calls of a version update -/

/-- The write of a version update that has found `entry`. -/
def writeVersion (entry : Option VersionDoc) : List VersionDoc → List VersionDoc :=
  match entry with
  | none => insertOne ⟨indexVersionName, 1⟩
  | some doc => updateOne VersionDoc.isVersion ({ · with indexVersion := doc.indexVersion + 1 })

/-- The version that has been found, 0 when there is none. -/
def entryVersion (entry : Option VersionDoc) : ℤ := (entry.map VersionDoc.indexVersion).getD 0

/-- Where a thread stands. -/
inductive UpdaterPhase where
  | elsewhere
  | found (entry : Option VersionDoc)
  | written (version : ℤ)

/-- What a thread still has to do of a version update, if it is elsewhere all of it. -/
def UpdaterPhase.rest : UpdaterPhase → Prog Db Unit
  | elsewhere => versionUpdater
  | found entry => do
    onVersion (writeVersion entry)
    sendVersionInterest (entryVersion entry + 1)
  | written version => sendVersionInterest version

/-- A version update is a read, a write and a number sent out. -/
theorem versionUpdater_eq : versionUpdater = .call id fun db =>
    (UpdaterPhase.found (db.indexVersionCollection.find? VersionDoc.isVersion)).rest := by
  change Prog.call id _ = Prog.call id _
  congr 1
  funext db
  dsimp only [Prog.bind]
  cases db.indexVersionCollection.find? VersionDoc.isVersion <;> rfl

/-- What is left to do after the version was read. -/
theorem UpdaterPhase.rest_found (entry : Option VersionDoc) :
    (found entry).rest = .call (Db.mapVersion (writeVersion entry)) fun _ =>
      (written (entryVersion entry + 1)).rest := rfl

theorem UpdaterPhase.rest_written (version : ℤ) :
    (written version).rest = .call (Db.sent version) fun _ => .ret () := rfl

/-- The threads, with the database they share. -/
structure UpdaterState (ι : Type) where
  db : Db
  phase : ι → UpdaterPhase

/-- What can happen. -/
inductive UpdaterOp (ι : Type) where
  | find (i : ι)
  | write (i : ι)
  | send (i : ι)
  | other (i : ι)

/-- The two threads of the repository. -/
inductive Thread where
  | maintenance
  | main
  deriving DecidableEq

section System

variable {ι : Type} [DecidableEq ι]

/-- The calls on the database, one at a time. A thread that is elsewhere may make calls that
have nothing to do with the version. -/
inductive UpdaterStep : UpdaterState ι → UpdaterOp ι → UpdaterState ι → Prop where
  | find {s : UpdaterState ι} {i : ι} (hphase : s.phase i = .elsewhere) :
    UpdaterStep s (.find i) { s with
      phase := Function.update s.phase i
        (.found (s.db.indexVersionCollection.find? VersionDoc.isVersion)) }
  | write {s : UpdaterState ι} {i : ι} {entry : Option VersionDoc}
      (hphase : s.phase i = .found entry) :
    UpdaterStep s (.write i) { s with
      db := s.db.mapVersion (writeVersion entry)
      phase := Function.update s.phase i (.written (entryVersion entry + 1)) }
  | send {s : UpdaterState ι} {i : ι} {version : ℤ} (hphase : s.phase i = .written version) :
    UpdaterStep s (.send i) { s with
      db := s.db.sent version
      phase := Function.update s.phase i .elsewhere }
  | other {s : UpdaterState ι} {i : ι} {db : Db} (hphase : s.phase i = .elsewhere)
      (hversion : db.indexVersionCollection = s.db.indexVersionCollection)
      (hsent : db.sentVersions = s.db.sentVersions) :
    UpdaterStep s (.other i) { s with db := db }

/-- The threads, from a database on. -/
def versionUpdates (db₀ : Db) : System (UpdaterState ι) (UpdaterOp ι) where
  init s := s = ⟨db₀, fun _ => .elsewhere⟩
  step := UpdaterStep

end System

/-- The versions in the version documents. -/
def Db.versions (db : Db) : List ℤ :=
  (db.indexVersionCollection.filter VersionDoc.isVersion).map VersionDoc.indexVersion

section Claims

variable {ι : Type}

/-- All calls have finished. -/
def UpdaterState.Quiet (s : UpdaterState ι) : Prop := ∀ i, s.phase i = .elsewhere

/-- Is it the write of a call? -/
def UpdaterOp.isWrite : UpdaterOp ι → Bool
  | write _ => true
  | _ => false

/-- The number of calls in a run, by their writes. -/
def updates (h : List (UpdaterState ι × UpdaterOp ι)) : ℕ := h.countP fun e => e.2.isWrite

/-- After `n` calls there is one version document, with the first version plus `n`, and the
numbers that have been sent out are all different. -/
def OneNumberEach (db₀ : Db) (n : ℕ) (s : UpdaterState ι) : Prop :=
  s.db.versions = (if n = 0 then db₀.versions else [db₀.version + n]) ∧
    (s.db.sentVersions.drop db₀.sentVersions.length).Nodup

/-- No call begins while another one is between its read and its write. -/
def TakesTurns (s : UpdaterState ι) : UpdaterOp ι → Prop
  | .find _ => ∀ j entry, s.phase j ≠ .found entry
  | _ => True

end Claims

/-! ### What a write does to the documents -/

section Write

variable (db : Db)

/-- The version is the first one stored, or 0. -/
theorem Db.version_eq_headD : db.version = db.versions.headD 0 := by
  unfold Db.version Db.versions
  rw [find?_eq_head?_filter]
  cases db.indexVersionCollection.filter VersionDoc.isVersion <;> rfl

theorem Db.entryVersion_find? :
    entryVersion (db.indexVersionCollection.find? VersionDoc.isVersion) = db.version := rfl

theorem Db.find?_isVersion_eq_none :
    db.indexVersionCollection.find? VersionDoc.isVersion = none ↔ db.versions = [] := by
  unfold Db.versions
  rw [find?_eq_head?_filter, List.head?_eq_none_iff, List.map_eq_nil_iff]

/-- A write that has found no document inserts one, another one sets the first. -/
theorem Db.versions_write (entry : Option VersionDoc) :
    (db.mapVersion (writeVersion entry)).versions =
      if entry = none then db.versions ++ [1]
      else db.versions.modifyHead fun _ => entryVersion entry + 1 := by
  unfold Db.versions Db.mapVersion
  dsimp only
  -- nothing found: a first entry is inserted; otherwise the first entry is overwritten
  cases entry with
  | none =>
    rw [if_pos rfl]
    change ((insertOne (⟨indexVersionName, 1⟩ : VersionDoc) _).filter _).map _ = _
    have hnew : VersionDoc.isVersion ⟨indexVersionName, 1⟩ = true := beq_self_eq_true _
    rw [filter_insertOne, if_pos hnew, List.map_append]
    rfl
  | some doc =>
    rw [if_neg (Option.some_ne_none doc)]
    have hset := filter_updateOne_self (p := VersionDoc.isVersion)
      (f := fun d => { d with indexVersion := doc.indexVersion + 1 }) (fun _ hd => hd)
      db.indexVersionCollection
    change ((updateOne VersionDoc.isVersion _ _).filter _).map _ = _
    rw [hset]
    cases db.indexVersionCollection.filter VersionDoc.isVersion <;> rfl

variable {db} {entry : Option VersionDoc}

/-- No document goes. -/
theorem Db.length_versions_le : db.versions.length ≤
    (db.mapVersion (writeVersion entry)).versions.length := by
  rw [Db.versions_write]
  split
  · rw [List.length_append]
    omega
  · rw [List.length_modifyHead]

/-- After a write the version is the one found plus 1, or there are two documents. -/
theorem Db.version_write (hpresent : ∀ doc, entry = some doc → db.versions ≠ []) :
    (db.mapVersion (writeVersion entry)).version = entryVersion entry + 1 ∨
      2 ≤ (db.mapVersion (writeVersion entry)).versions.length ∧
        (db.mapVersion (writeVersion entry)).version = db.version := by
  rw [Db.version_eq_headD, Db.version_eq_headD db, Db.versions_write]
  cases entry with
  | none =>
    rw [if_pos rfl]
    cases db.versions with
    | nil => exact Or.inl rfl
    | cons v vs =>
      refine Or.inr ⟨?_, rfl⟩
      rw [List.length_append, List.length_cons, List.length_singleton]
      omega
  | some doc =>
    rw [if_neg (Option.some_ne_none doc)]
    obtain ⟨v, vs, hv⟩ := List.exists_cons_of_ne_nil (hpresent doc rfl)
    rw [hv]
    exact Or.inl rfl

end Write

/-! ### The invariants -/

section Invariants

variable {ι : Type} {db₀ : Db} {n : ℕ} {s s' : UpdaterState ι} {op : UpdaterOp ι}

/-- In any run of `n` calls: no version is ahead of the calls, and a document once found stays. -/
structure Bounded (db₀ : Db) (n : ℕ) (s : UpdaterState ι) : Prop where
  version : s.db.version ≤ db₀.version + n
  found : ∀ i entry, s.phase i = .found entry → entryVersion entry ≤ db₀.version + n
  present : ∀ i doc, s.phase i = .found (some doc) → s.db.versions ≠ []

/-- The threads have taken turns, and have sent out `numbers`. -/
structure InTurn (db₀ : Db) (n : ℕ) (numbers : List ℤ) (s : UpdaterState ι) : Prop where
  versions : s.db.versions = if n = 0 then db₀.versions else [db₀.version + n]
  one : ∀ i j entry entry', s.phase i = .found entry → s.phase j = .found entry' → i = j
  found : ∀ i entry, s.phase i = .found entry →
    entry = s.db.indexVersionCollection.find? VersionDoc.isVersion
  sent : s.db.sentVersions = db₀.sentVersions ++ numbers
  nodup : numbers.Nodup
  sent_le : ∀ version ∈ numbers, version ≤ db₀.version + n
  written : ∀ i version, s.phase i = .written version →
    version ≤ db₀.version + n ∧ version ∉ numbers
  different : ∀ i j version, s.phase i = .written version → s.phase j = .written version → i = j

/-- A call has begun while another one was between its read and its write. -/
def Spoiled (db₀ : Db) (n : ℕ) (s : UpdaterState ι) : Prop :=
  2 ≤ s.db.versions.length ∨
  (s.db.version < db₀.version + n ∧
    ∀ i entry, s.phase i = .found entry → entryVersion entry < db₀.version + n) ∨
  (∃ i entry, s.phase i = .found entry ∧ entryVersion entry < db₀.version + n) ∨
  ∃ i j entry entry', i ≠ j ∧ s.phase i = .found entry ∧ s.phase j = .found entry'

variable {numbers : List ℤ}

/-- After `n` updates in turn the version has gone up by `n`. -/
theorem InTurn.version (h : InTurn db₀ n numbers s) : s.db.version = db₀.version + n := by
  rw [Db.version_eq_headD, h.versions]
  split
  · next hn =>
    rw [← Db.version_eq_headD, hn]
    exact (add_zero _).symm
  · rfl

variable [DecidableEq ι]

/-- The phases after one thread has moved on. -/
theorem phase_update {phase : ι → UpdaterPhase} {i j : ι} {p q : UpdaterPhase}
    (h : Function.update phase i p j = q) : j = i ∧ p = q ∨ j ≠ i ∧ phase j = q := by
  by_cases hj : j = i
  · subst hj
    rw [Function.update_self] at h
    exact Or.inl ⟨rfl, h⟩
  · rw [Function.update_of_ne hj] at h
    exact Or.inr ⟨hj, h⟩

/-- A phase that the thread has not moved to is that of another one. -/
theorem phase_of_update {phase : ι → UpdaterPhase} {i j : ι} {p q : UpdaterPhase}
    (h : Function.update phase i p j = q) (hne : p ≠ q) : j ≠ i ∧ phase j = q :=
  (phase_update h).resolve_left fun hmoved => hne hmoved.2

/-- The versions are in their own collection. -/
theorem Db.version_congr {db db' : Db}
    (h : db'.indexVersionCollection = db.indexVersionCollection) :
    db'.version = db.version ∧ db'.versions = db.versions := by
  unfold Db.version Db.versions
  rw [h]
  exact ⟨rfl, rfl⟩

/-- The steps of a thread are the calls of `versionUpdater`, one after the other. -/
theorem UpdaterStep.next_call {i : ι} (hstep : UpdaterStep s op s')
    (hop : op = .find i ∨ op = .write i ∨ op = .send i) :
    ∃ f k, (s.phase i).rest = .call f k ∧ s'.db = f s.db ∧
      (op = .send i ∧ k s.db = .ret () ∨ op ≠ .send i ∧ k s.db = (s'.phase i).rest) := by
  -- the three calls of `versionUpdater` are the three steps of its thread
  cases hstep with
  | @find j hphase =>
    obtain rfl : j = i := by simpa using hop
    dsimp only
    rw [hphase, UpdaterPhase.rest, versionUpdater_eq, Function.update_self]
    exact ⟨_, _, rfl, rfl, Or.inr ⟨by simp, rfl⟩⟩
  | @write j entry hphase =>
    obtain rfl : j = i := by simpa using hop
    dsimp only
    rw [hphase, UpdaterPhase.rest_found, Function.update_self]
    exact ⟨_, _, rfl, rfl, Or.inr ⟨by simp, rfl⟩⟩
  | @send j version hphase =>
    obtain rfl : j = i := by simpa using hop
    rw [hphase, UpdaterPhase.rest_written]
    exact ⟨_, _, rfl, rfl, Or.inl ⟨rfl, rfl⟩⟩
  | other => simp at hop

/-- A step moves the version by one update at most. -/
theorem Bounded.step (h : Bounded db₀ n s) (hstep : UpdaterStep s op s') :
    Bounded db₀ (n + if op.isWrite then 1 else 0) s' := by
  cases hstep with
  | @find i hphase =>
    refine ⟨h.version, fun j entry hj => ?_, fun j doc hj => ?_⟩
    -- the entry read is the one stored now, which the bound holds of
    · rcases phase_update hj with ⟨-, hentry⟩ | ⟨-, hj⟩
      · obtain rfl := UpdaterPhase.found.inj hentry
        exact h.version
      · exact h.found j entry hj
    · rcases phase_update hj with ⟨-, hentry⟩ | ⟨-, hj⟩
      · have hsome := UpdaterPhase.found.inj hentry
        intro hnone
        rw [(Db.find?_isVersion_eq_none _).mpr hnone] at hsome
        exact absurd hsome (Option.some_ne_none doc).symm
      · exact h.present j doc hj
  -- the only step that raises the version, by one at most: the entry was read at or below it
  | @write i entry hphase =>
    change Bounded db₀ (n + 1) _
    have hfound := h.found i entry hphase
    have hversion := h.version
    refine ⟨?_, fun j entry' hj => ?_, fun j doc hj => ?_⟩
    · change (s.db.mapVersion _).version ≤ _
      push_cast
      rcases Db.version_write fun doc hdoc => h.present i doc (hdoc ▸ hphase) with hone | ⟨-, hone⟩
      · omega
      · omega
    · have hle := h.found j entry' (phase_of_update hj (by simp)).2
      push_cast
      omega
    · have hpos := List.length_pos_iff.mpr (h.present j doc (phase_of_update hj (by simp)).2)
      exact List.ne_nil_of_length_pos (hpos.trans_le Db.length_versions_le)
  | @send i version hphase =>
    refine ⟨h.version, fun j entry hj => ?_, fun j doc hj => ?_⟩
    · exact h.found j entry (phase_of_update hj (by simp)).2
    · exact h.present j doc (phase_of_update hj (by simp)).2
  -- what other writers do leaves the version collection alone
  | @other i db hphase hversion hsent =>
    obtain ⟨hsame, hversions⟩ := Db.version_congr hversion
    refine ⟨?_, h.found, fun j doc hj => ?_⟩
    · exact hsame.trans_le h.version
    · change db.versions ≠ []
      rw [hversions]
      exact h.present j doc hj

omit [DecidableEq ι] in
/-- A step that writes nothing keeps what is spoiled. -/
theorem Spoiled.of_read (h : Spoiled db₀ n s) (hversions : s'.db.versions = s.db.versions)
    (hkeep : ∀ j entry, s.phase j = .found entry → s'.phase j = .found entry)
    (hnew : ∀ j entry, s'.phase j = .found entry →
      s.phase j = .found entry ∨ entryVersion entry = s.db.version) : Spoiled db₀ n s' := by
  unfold Spoiled
  rw [Db.version_eq_headD, hversions, ← Db.version_eq_headD]
  rcases h with htwo | ⟨hversion, hfound⟩ | ⟨j, entry, hj, hlt⟩ |
    ⟨j, k, entry, entry', hjk, hj, hk⟩
  · exact Or.inl htwo
  · refine Or.inr (Or.inl ⟨hversion, fun j entry hj => ?_⟩)
    rcases hnew j entry hj with hj | hentry
    · exact hfound j entry hj
    · exact hentry.trans_lt hversion
  · exact Or.inr (Or.inr (Or.inl ⟨j, entry, hkeep j entry hj, hlt⟩))
  · exact Or.inr (Or.inr (Or.inr ⟨j, k, entry, entry', hjk, hkeep j entry hj, hkeep k entry' hk⟩))

/-- The write of a call that began in time leaves the other calls behind. -/
theorem Spoiled.of_write (h : Spoiled db₀ n s) (hbounded : Bounded db₀ n s) {i : ι}
    {entry : Option VersionDoc} (hphase : s.phase i = .found entry) :
    Spoiled db₀ (n + 1) ⟨s.db.mapVersion (writeVersion entry),
      Function.update s.phase i (.written (entryVersion entry + 1))⟩ := by
  -- the total grows by one, so what was read before the write is behind it
  have hbehind : ∀ j entry, s.phase j = .found entry →
      entryVersion entry < db₀.version + (n + 1 : ℕ) := fun j entry hj => by
    have hle := hbounded.found j entry hj
    push_cast
    omega
  have hlate : entryVersion entry < db₀.version + n → Spoiled db₀ (n + 1)
      ⟨s.db.mapVersion (writeVersion entry),
        Function.update s.phase i (.written (entryVersion entry + 1))⟩ := by
    intro hlt
    rcases Db.version_write fun doc hdoc => hbounded.present i doc (hdoc ▸ hphase) with
      hone | ⟨htwo, -⟩
    · refine Or.inr (Or.inl ⟨?_, fun j entry' hj => ?_⟩)
      · change (s.db.mapVersion _).version < _
        push_cast
        omega
      · exact hbehind j entry' (phase_of_update hj (by simp)).2
    · exact Or.inl htwo
  -- another thread that has read an old document still holds it
  have hother : ∀ {j entry'}, s.phase j = .found entry' → j ≠ i → Spoiled db₀ (n + 1)
      ⟨s.db.mapVersion (writeVersion entry),
        Function.update s.phase i (.written (entryVersion entry + 1))⟩ := fun hj hji =>
    Or.inr (Or.inr (Or.inl ⟨_, _, (Function.update_of_ne hji _ _).trans hj, hbehind _ _ hj⟩))
  -- the four ways the number can be lost: two documents, a number behind, an old read, two reads
  rcases h with htwo | ⟨-, hfound⟩ | ⟨j, entry', hj, hlt⟩ | ⟨j, k, entry₁, entry₂, hjk, hj, hk⟩
  · exact Or.inl (htwo.trans Db.length_versions_le)
  · exact hlate (hfound i entry hphase)
  · by_cases hji : j = i
    · subst hji
      rw [hphase] at hj
      obtain rfl := UpdaterPhase.found.inj hj
      exact hlate hlt
    · exact hother hj hji
  · -- one of the two is not the thread that writes
    by_cases hji : j = i
    · exact hother hk fun hki => hjk (hji.trans hki.symm)
    · exact hother hj hji

/-- What is spoiled stays so. -/
theorem Spoiled.step (h : Spoiled db₀ n s) (hbounded : Bounded db₀ n s)
    (hstep : UpdaterStep s op s') : Spoiled db₀ (n + if op.isWrite then 1 else 0) s' := by
  -- a thread that holds an entry is not the one that moves
  have hmoved : ∀ {i j : ι} {entry p}, s.phase j = .found entry →
      (∀ entry, s.phase i ≠ .found entry) → Function.update s.phase i p j = .found entry :=
    fun hj hi => (Function.update_of_ne (fun hji => hi _ (hji ▸ hj)) _ _).trans hj
  cases hstep with
  | @find i hphase =>
    refine h.of_read rfl (fun j entry hj => hmoved hj (by simp [hphase])) fun j entry hj => ?_
    rcases phase_update hj with ⟨-, hentry⟩ | ⟨-, hj⟩
    · obtain rfl := UpdaterPhase.found.inj hentry
      exact Or.inr rfl
    · exact Or.inl hj
  | write hphase => exact h.of_write hbounded hphase
  | @send i version hphase =>
    refine h.of_read rfl (fun j entry hj => hmoved hj (by simp [hphase])) fun j entry hj => ?_
    exact Or.inl (phase_of_update hj (by simp)).2
  | other hphase hversion =>
    exact h.of_read (Db.version_congr hversion).2 (fun j entry hj => hj) fun j entry hj => Or.inl hj

/-- A call that begins out of turn spoils the version. -/
theorem Spoiled.of_not_takesTurns (hstep : UpdaterStep s op s') (hturn : ¬TakesTurns s op) :
    Spoiled db₀ n s' := by
  cases hstep with
  | @find i hphase =>
    unfold TakesTurns at hturn
    push Not at hturn
    obtain ⟨j, entry, hj⟩ := hturn
    have hij : i ≠ j := fun hij => by
      rw [← hij, hphase] at hj
      exact absurd hj (by simp)
    refine Or.inr (Or.inr (Or.inr ⟨i, j, _, entry, hij, Function.update_self _ _ _, ?_⟩))
    exact (Function.update_of_ne hij.symm _ _).trans hj
  | write => exact absurd trivial hturn
  | send => exact absurd trivial hturn
  | other => exact absurd trivial hturn

omit [DecidableEq ι] in
/-- In turn no second version document is stored. -/
theorem InTurn.length_versions_le (h : InTurn db₀ n numbers s) (hle : db₀.versions.length ≤ 1) :
    s.db.versions.length ≤ 1 := by
  rw [h.versions]
  split
  · exact hle
  · exact le_rfl

omit [DecidableEq ι] in
/-- The write of a call in turn adds one to the version. -/
theorem InTurn.versions_write (h : InTurn db₀ n numbers s) (hle : db₀.versions.length ≤ 1) {i : ι}
    {entry : Option VersionDoc} (hphase : s.phase i = .found entry) :
    entryVersion entry = db₀.version + n ∧
      (s.db.mapVersion (writeVersion entry)).versions = [db₀.version + (n + 1 : ℕ)] := by
  have hentry := h.found i entry hphase
  -- taking turns, the entry read is still the stored one when it is written
  have hfound : entryVersion entry = db₀.version + n := by
    rw [hentry, Db.entryVersion_find?]
    exact h.version
  refine ⟨hfound, ?_⟩
  have hone := h.length_versions_le hle
  rw [Db.versions_write, hfound]
  have hnone := Db.find?_isVersion_eq_none s.db
  rw [← hentry] at hnone
  push_cast
  cases hversions : s.db.versions with
  | nil =>
    rw [if_pos (hnone.mpr hversions)]
    rw [hnone.mpr hversions] at hfound
    change [1] = _
    rw [← add_assoc, ← hfound]
    rfl
  | cons v vs =>
    rw [hversions, List.length_cons] at hone
    obtain rfl : vs = [] := List.eq_nil_of_length_eq_zero (by omega)
    rw [if_neg fun hno => by simp [hnone.mp hno] at hversions, ← add_assoc]
    rfl

/-- A thread that reads in turn is the only one between its read and its write. -/
theorem InTurn.find (h : InTurn db₀ n numbers s) (hturn : ∀ j entry, s.phase j ≠ .found entry)
    (i : ι) :
    InTurn db₀ n numbers { s with
      phase := Function.update s.phase i
        (.found (s.db.indexVersionCollection.find? VersionDoc.isVersion)) } where
  versions := h.versions
  sent := h.sent
  nodup := h.nodup
  sent_le := h.sent_le
  one j k entry entry' hj hk := by
    -- only the reading thread is between its read and its write
    rcases phase_update hj with ⟨rfl, -⟩ | ⟨-, hj⟩
    · rcases phase_update hk with ⟨rfl, -⟩ | ⟨-, hk⟩
      · rfl
      · exact absurd hk (hturn k entry')
    · exact absurd hj (hturn j entry)
  found j entry hj := by
    rcases phase_update hj with ⟨-, hentry⟩ | ⟨-, hj⟩
    · exact (UpdaterPhase.found.inj hentry).symm
    · exact h.found j entry hj
  written j version hj := h.written j version (phase_of_update hj (by simp)).2
  different j k version hj hk :=
    h.different j k version (phase_of_update hj (by simp)).2 (phase_of_update hk (by simp)).2

/-- Its write adds one to the version, which no other call has for its number. -/
theorem InTurn.write (h : InTurn db₀ n numbers s) (hle : db₀.versions.length ≤ 1) {i : ι}
    {entry : Option VersionDoc} (hphase : s.phase i = .found entry) :
    InTurn db₀ (n + 1) numbers { s with
      db := s.db.mapVersion (writeVersion entry)
      phase := Function.update s.phase i (.written (entryVersion entry + 1)) } := by
  obtain ⟨hfound, hversions⟩ := h.versions_write hle hphase
  -- the thread that writes was the only one between its read and its write
  have hnone : ∀ j entry', ¬Function.update s.phase i
      (.written (entryVersion entry + 1)) j = .found entry' := fun j entry' hj => by
    obtain ⟨hji, hj⟩ := phase_of_update hj (by simp)
    exact hji (h.one j i entry' entry hj hphase)
  have hnew : ∀ {j version}, s.phase j = .written version → version ≠ entryVersion entry + 1 :=
    fun hj heq => by
      have hle := (h.written _ _ hj).1
      omega
  refine ⟨?_, fun j k entry₁ entry₂ hj _ => absurd hj (hnone j entry₁),
    fun j entry₁ hj => absurd hj (hnone j entry₁), h.sent, h.nodup, fun version hversion => ?_,
    fun j version hj => ?_, fun j k version hj hk => ?_⟩
  · rw [if_neg (Nat.succ_ne_zero n)]
    exact hversions
  · have hle := h.sent_le version hversion
    push_cast
    omega
  · rcases phase_update hj with ⟨-, hwritten⟩ | ⟨-, hj⟩
    · obtain rfl := UpdaterPhase.written.inj hwritten
      refine ⟨by push_cast; omega, fun hmem => ?_⟩
      have hle := h.sent_le _ hmem
      omega
    · have hwritten := h.written j version hj
      refine ⟨?_, hwritten.2⟩
      push_cast
      omega
  · rcases phase_update hj with ⟨hji, hwritten⟩ | ⟨-, hj⟩
    · rcases phase_update hk with ⟨hki, -⟩ | ⟨-, hk⟩
      · exact hji.trans hki.symm
      · exact absurd (UpdaterPhase.written.inj hwritten).symm (hnew hk)
    · rcases phase_update hk with ⟨-, hwritten⟩ | ⟨-, hk⟩
      · exact absurd (UpdaterPhase.written.inj hwritten).symm (hnew hj)
      · exact h.different j k version hj hk

/-- What it sends then has not been sent before. -/
theorem InTurn.send (h : InTurn db₀ n numbers s) {i : ι} {version : ℤ}
    (hphase : s.phase i = .written version) :
    InTurn db₀ n (numbers ++ [version]) { s with
      db := s.db.sent version
      phase := Function.update s.phase i .elsewhere } := by
  -- what a thread has written is its own number, and not sent before
  obtain ⟨hle, hnew⟩ := h.written i version hphase
  refine ⟨h.versions, fun j k entry entry' hj hk => ?_, fun j entry hj => ?_, ?_, ?_,
    fun v hv => ?_, fun j v hj => ?_, fun j k v hj hk => ?_⟩
  · exact h.one j k entry entry' (phase_of_update hj (by simp)).2 (phase_of_update hk (by simp)).2
  · exact h.found j entry (phase_of_update hj (by simp)).2
  · change s.db.sentVersions ++ [version] = _
    rw [h.sent, List.append_assoc]
  · rw [List.nodup_append]
    refine ⟨h.nodup, List.nodup_singleton _, fun v hv w hw heq => ?_⟩
    rw [heq, List.mem_singleton.mp hw] at hv
    exact hnew hv
  · rcases List.mem_append.mp hv with hv | hv
    · exact h.sent_le v hv
    · rw [List.mem_singleton.mp hv]
      exact hle
  · obtain ⟨hji, hj⟩ := phase_of_update hj (by simp)
    obtain ⟨hv, hnot⟩ := h.written j v hj
    refine ⟨hv, fun hmem => ?_⟩
    rcases List.mem_append.mp hmem with hmem | hmem
    · exact hnot hmem
    · rw [List.mem_singleton.mp hmem] at hj
      exact hji (h.different j i version hj hphase)
  · exact h.different j k v (phase_of_update hj (by simp)).2 (phase_of_update hk (by simp)).2

/-- Where the threads take turns, each call adds one to the version and has a number of its own. -/
theorem InTurn.step (h : InTurn db₀ n numbers s) (hle : db₀.versions.length ≤ 1)
    (hturn : TakesTurns s op) (hstep : UpdaterStep s op s') :
    ∃ numbers, InTurn db₀ (n + if op.isWrite then 1 else 0) numbers s' := by
  cases hstep with
  | @find i hphase => exact ⟨numbers, h.find hturn i⟩
  | @write i entry hphase => exact ⟨numbers, h.write hle hphase⟩
  | @send i version hphase => exact ⟨numbers ++ [version], h.send hphase⟩
  | @other i db hphase hversion hsent =>
    -- what other writers do leaves the version collection alone
    refine ⟨numbers, (Db.version_congr hversion).2.trans h.versions, h.one, fun j entry hj => ?_,
      hsent.trans h.sent, h.nodup, h.sent_le, h.written, h.different⟩
    rw [h.found j entry hj, hversion]

end Invariants

/-! ### Runs -/

section Runs

variable {ι : Type} [DecidableEq ι] {db₀ : Db} {s : UpdaterState ι}
  {h : List (UpdaterState ι × UpdaterOp ι)}

omit [DecidableEq ι] in
/-- A write is one update more. -/
theorem updates_snoc (op : UpdaterOp ι) :
    updates (h ++ [(s, op)]) = updates h + if op.isWrite then 1 else 0 := by
  unfold updates
  rw [List.countP_append, List.countP_singleton]

/-- Every run is bounded by its updates. -/
theorem Bounded.of_run (hrun : Run (versionUpdates db₀) h s) : Bounded db₀ (updates h) s := by
  induction hrun with
  | @nil s hinit =>
    obtain rfl : s = ⟨db₀, fun _ => .elsewhere⟩ := hinit
    exact ⟨le_add_of_nonneg_right (Int.natCast_nonneg _), fun i entry hi => by simp at hi,
      fun i doc hi => by simp at hi⟩
  | snoc _ hstep ih =>
    rw [updates_snoc]
    exact ih.step hstep

/-- A run whose threads take turns gives out the numbers in turn. -/
theorem InTurn.of_run (hle : db₀.versions.length ≤ 1) (hrun : Run (versionUpdates db₀) h s)
    (hturns : Admitted TakesTurns h) : ∃ numbers, InTurn db₀ (updates h) numbers s := by
  induction hrun with
  | @nil s hinit =>
    obtain rfl : s = ⟨db₀, fun _ => .elsewhere⟩ := hinit
    exact ⟨[], rfl, fun i j entry entry' hi => by simp at hi, fun i entry hi => by simp at hi,
      (List.append_nil _).symm, List.nodup_nil, fun v hv => absurd hv List.not_mem_nil,
      fun i v hi => by simp at hi, fun i j v hi => by simp at hi⟩
  | snoc _ hstep ih =>
    rw [admitted_append_singleton] at hturns
    obtain ⟨numbers, hin⟩ := ih hturns.1
    rw [updates_snoc]
    exact hin.step hle hturns.2 hstep

/-- A run in which they do not spoils a number. -/
theorem Spoiled.of_run (hrun : Run (versionUpdates db₀) h s) (hturns : ¬Admitted TakesTurns h) :
    Spoiled db₀ (updates h) s := by
  induction hrun with
  | nil => exact absurd (admitted_nil _) hturns
  | @snoc h s s' op hrun hstep ih =>
    rw [admitted_append_singleton, not_and_or] at hturns
    by_cases hprev : Admitted TakesTurns h
    · exact Spoiled.of_not_takesTurns hstep (hturns.resolve_left (not_not.mpr hprev))
    · rw [updates_snoc]
      exact (ih hprev).step (.of_run hrun) hstep

/-- **One number each.** Starting from one version document or none, when all calls have finished
there is one version document, which has counted them, and they have sent out different
numbers, if and only if no call began while another one was between its read and its write. -/
theorem one_number_each_iff (hle : db₀.versions.length ≤ 1) (hrun : Run (versionUpdates db₀) h s)
    (hquiet : s.Quiet) : OneNumberEach db₀ (updates h) s ↔ Admitted TakesTurns h := by
  constructor
  · intro hone
    -- one violation is enough: a version below the count of updates, or a second entry
    by_contra hturns
    have hversion : s.db.version = db₀.version + updates h := by
      rw [Db.version_eq_headD, hone.1]
      split
      · next hn =>
        rw [← Db.version_eq_headD, hn]
        exact (add_zero _).symm
      · rfl
    -- of the four ways the last two need a thread that is still on its way
    rcases Spoiled.of_run hrun hturns with htwo | ⟨hlt, -⟩ | ⟨i, entry, hi, -⟩ |
      ⟨i, _, entry, _, -, hi, -⟩
    · rw [hone.1] at htwo
      split at htwo
      · omega
      · exact absurd htwo (by simp)
    · omega
    · rw [hquiet i] at hi
      exact absurd hi (by simp)
    · rw [hquiet i] at hi
      exact absurd hi (by simp)
  · intro hturns
    obtain ⟨numbers, hin⟩ := InTurn.of_run hle hrun hturns
    refine ⟨hin.versions, ?_⟩
    rw [hin.sent, List.drop_left]
    exact hin.nodup

/-- Both threads update once; the second one reads when the first one has written, and before it has
sent its number out. -/
theorem one_number_each_iff_twice :
    ∃ (h : List (UpdaterState Thread × UpdaterOp Thread)) (s : UpdaterState Thread),
      updates h = 2 ∧ Run (versionUpdates Db.empty) h s ∧ s.db.versions = [2] ∧
      s.db.sentVersions = [1, 2] ∧
      (OneNumberEach Db.empty (updates h) s ↔ Admitted TakesTurns h) := by
  have hrun : Run (versionUpdates Db.empty) [] (⟨Db.empty, fun _ => .elsewhere⟩ :
      UpdaterState Thread) := .nil rfl
  have hfind := hrun.snoc (UpdaterStep.find (i := .maintenance) rfl)
  have hwrite := hfind.snoc (UpdaterStep.write (i := .maintenance) rfl)
  have hfind' := hwrite.snoc (UpdaterStep.find (i := .main) rfl)
  have hsend := hfind'.snoc (UpdaterStep.send (i := .maintenance) rfl)
  have hwrite' := hsend.snoc (UpdaterStep.write (i := .main) rfl)
  have hsend' := hwrite'.snoc (UpdaterStep.send (i := .main) rfl)
  refine ⟨_, _, rfl, hsend', rfl, rfl, one_number_each_iff (Nat.zero_le 1) hsend' fun i => ?_⟩
  cases i <;> rfl

/-- Both threads read before either writes: two documents of version 1. -/
theorem version_documents_doubled :
    ∃ (h : List (UpdaterState Thread × UpdaterOp Thread)) (s : UpdaterState Thread),
      Run (versionUpdates Db.empty) h s ∧ s.Quiet ∧ s.db.versions = [1, 1] ∧
      s.db.sentVersions = [1, 1] ∧ ¬OneNumberEach Db.empty (updates h) s := by
  have hrun : Run (versionUpdates Db.empty) [] (⟨Db.empty, fun _ => .elsewhere⟩ :
      UpdaterState Thread) := .nil rfl
  have hfind := hrun.snoc (UpdaterStep.find (i := .maintenance) rfl)
  have hfind' := hfind.snoc (UpdaterStep.find (i := .main) rfl)
  have hwrite := hfind'.snoc (UpdaterStep.write (i := .maintenance) rfl)
  have hwrite' := hwrite.snoc (UpdaterStep.write (i := .main) rfl)
  have hsend := hwrite'.snoc (UpdaterStep.send (i := .maintenance) rfl)
  have hsend' := hsend.snoc (UpdaterStep.send (i := .main) rfl)
  refine ⟨_, _, hsend', fun i => ?_, rfl, rfl, fun hone => ?_⟩
  · cases i <;> rfl
  · exact absurd hone.2 (by decide)

end Runs

end OpenGeoBase
