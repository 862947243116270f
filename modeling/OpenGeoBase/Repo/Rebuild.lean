import OpenGeoBase.Repo.TileHierarchy

/-!
# What a rebuild does

A rebuild rewrites the `leaf` and `cancelled` flags of the tile documents and
writes the index anew from the leaves. Two facts are needed of it. It leaves
everything else of the documents alone (`within_rebuildIndex`), so the counters and
the numbers of children come through (`Counts.sameCores`, `Children.sameCores`).
And however often its outer loop turns and however it breaks ties, it hides no
tile: every level-2 document keeps a leaf above it (`Db.Sheltered`), and when the
rebuild has returned every leaf is advertised (`Db.Advertised`).
-/

namespace OpenGeoBase

open Text AtomicCalls Collection Tally

/-! ### The frame -/

/-- A tile document without its flags. -/
def TileDoc.core (d : TileDoc) : TileDoc := { d with cancelled := false, leaf := false }

namespace Db

/-- The same tile documents, up to their flags. -/
def SameCores (db db' : Db) : Prop :=
  db'.fullTileCollection.map TileDoc.core = db.fullTileCollection.map TileDoc.core

/-- Having the same documents up to marks is an equivalence. -/
theorem SameCores.refl (db : Db) : db.SameCores db := rfl

theorem SameCores.symm {db db' : Db} (h : db.SameCores db') : db'.SameCores db := Eq.symm h

theorem SameCores.trans {db₁ db₂ db₃ : Db} (h₁ : db₁.SameCores db₂) (h₂ : db₂.SameCores db₃) :
    db₁.SameCores db₃ := Eq.trans h₂ h₁

end Db

/-- What a relation must put up with for a tessellation to stay within it: any change to the
flags of the tile documents. -/
structure FlagFrame (R : Db → Db → Prop) : Prop where
  refl : ∀ db, R db db
  trans : ∀ {db₁ db₂ db₃}, R db₁ db₂ → R db₂ db₃ → R db₁ db₃
  tiles : ∀ f : List TileDoc → List TileDoc, (∀ c, (f c).map TileDoc.core = c.map TileDoc.core) →
    ∀ db : Db, R db (db.mapTiles f)

/-- What a relation must put up with for a rebuild to stay within it: a new index and a new
version besides. -/
structure RebuildFrame (R : Db → Db → Prop) : Prop extends FlagFrame R where
  index : ∀ f (db : Db), R db (db.mapIndex f)
  version : ∀ db : Db, R db db.bumpVersion

namespace FlagFrame

variable {R : Db → Db → Prop} (hR : FlagFrame R)

include hR

/-- A program that returns at once keeps the documents up to their marks. -/
theorem pure {α : Type} (a : α) : Prog.Within R (Pure.pure a : Prog Db α) :=
  Prog.Within.pure hR.refl a

theorem query {α : Type} (q : Db → α) : Prog.Within R (Prog.query q) :=
  Prog.Within.query hR.refl q

theorem bind {α β : Type} {p : Prog Db α} {g : α → Prog Db β} (hp : Prog.Within R p)
    (hg : ∀ a, Prog.Within R (g a)) : Prog.Within R (p >>= g) :=
  Prog.Within.bind (R := R) hR.trans hp hg

theorem updateOne {p : TileDoc → Bool} {f : TileDoc → TileDoc}
    (hf : ∀ d, (f d).core = d.core) : Prog.Within R (onTiles (updateOne p f)) :=
  Prog.Within.modify (hR.tiles _ fun c => map_updateOne (fun d _ => hf d) c)

theorem updateMany {p : TileDoc → Bool} {f : TileDoc → TileDoc}
    (hf : ∀ d, (f d).core = d.core) : Prog.Within R (onTiles (updateMany p f)) :=
  Prog.Within.modify (hR.tiles _ fun c => map_updateMany (fun d _ => hf d) c)

theorem resetFullTileDB : Prog.Within R resetFullTileDB :=
  hR.bind (hR.updateMany fun _ => rfl) fun _ => hR.updateMany fun _ => rfl

theorem aggregateTile (i : ℕ) (name : Str) : Prog.Within R (aggregateTile i name) :=
  hR.bind (hR.updateOne fun _ => rfl) fun _ => hR.updateMany fun _ => rfl

/-- The loop of aggregations keeps the documents up to their marks. -/
theorem aggregateTiles (threshold : ℤ) (i : ℕ) (docs : List TileDoc) (x y : ℤ) :
    Prog.Within R (aggregateTiles threshold i docs x y) := by
  induction docs generalizing x y with
  | nil => exact hR.pure _
  | cons doc docs ih =>
    refine Prog.Within.ite (hR.pure _) (hR.bind (hR.aggregateTile i _) fun _ => ?_)
    exact Prog.Within.ite (hR.pure _) (ih _ _)

theorem tesselateLevel (threshold : ℤ) (sort : CounterSort) (i : ℕ) :
    Prog.Within R (tesselateLevel threshold sort i) := by
  refine hR.bind (hR.query _) fun y => hR.bind (hR.query _) fun x => ?_
  refine Prog.Within.ite (hR.bind (hR.query _) fun docs => ?_) (hR.pure _)
  exact hR.aggregateTiles threshold i _ x y

theorem tesselateLevels (threshold : ℤ) (sorts : ℕ → CounterSort) (is : List ℕ) (nLeaf : ℤ) :
    Prog.Within R (tesselateLevels threshold sorts is nLeaf) := by
  induction is generalizing nLeaf with
  | nil => exact hR.pure _
  | cons i is ih =>
    refine hR.bind (hR.tesselateLevel threshold _ i) fun ok => ?_
    exact Prog.Within.ite (hR.bind (hR.query _) ih) (hR.pure _)

theorem tesselationLoop (threshold : ℤ) (sorts : ℕ → ℕ → CounterSort) (n : ℕ) (nLeaf : ℤ) :
    Prog.Within R (tesselationLoop threshold sorts n nLeaf) := by
  induction n generalizing nLeaf with
  | zero => exact hR.pure _
  | succ n ih =>
    refine Prog.Within.ite (hR.bind (hR.tesselateLevels _ _ _ _) fun r => ?_) (hR.pure _)
    cases r with
    | none => exact hR.pure _
    | some nLeaf => exact ih nLeaf

theorem constrainedTesselation (threshold : ℤ) (sorts : ℕ → ℕ → CounterSort) (bound : ℕ) :
    Prog.Within R (constrainedTesselation threshold sorts bound) :=
  hR.bind (hR.query _) fun nLeaf => hR.tesselationLoop threshold sorts bound nLeaf

end FlagFrame

namespace RebuildFrame

variable {R : Db → Db → Prop} (hR : RebuildFrame R)

include hR

theorem insertIndexNames (docs : List TileDoc) : Prog.Within R (insertIndexNames docs) := by
  induction docs with
  | nil => exact hR.pure _
  | cons doc docs ih => exact hR.bind (Prog.Within.modify (hR.index _)) fun _ => ih

/-- Writing the index keeps the documents up to their marks. -/
theorem buildIndexDB : Prog.Within R buildIndexDB := by
  refine hR.bind (Prog.Within.modify (hR.index _)) fun _ => hR.bind (hR.query _) fun docs =>
    hR.bind (hR.insertIndexNames docs) fun _ => fun db => ?_
  rw [run_versionUpdater]
  exact hR.version db

/-- A rebuild stays within every relation that puts up with its parts. -/
theorem rebuildIndex (threshold : ℤ) (sorts : ℕ → ℕ → CounterSort) (bound : ℕ) :
    Prog.Within R (rebuildIndex threshold sorts bound) := by
  refine hR.bind hR.resetFullTileDB fun _ =>
    hR.bind (hR.constrainedTesselation threshold sorts bound) fun ended => ?_
  cases ended with
  | returned => exact hR.bind hR.buildIndexDB fun _ => hR.pure _
  | exited => exact hR.pure _
  | running => exact hR.pure _

end RebuildFrame

/-- A rebuild leaves the documents up to their marks. -/
theorem Db.rebuildFrame_sameCores : RebuildFrame Db.SameCores where
  refl _ := rfl
  trans h₁ h₂ := h₁.trans h₂
  tiles _ hf db := hf db.fullTileCollection
  index _ _ := rfl
  version _ := rfl

/-- A rebuild leaves the objects and the packets. -/
theorem Db.rebuildFrame_sameStore : RebuildFrame Db.SameStore where
  refl _ := ⟨rfl, rfl⟩
  trans h₁ h₂ := ⟨h₂.1.trans h₁.1, h₂.2.trans h₁.2⟩
  tiles _ _ _ := ⟨rfl, rfl⟩
  index _ _ := ⟨rfl, rfl⟩
  version _ := ⟨rfl, rfl⟩

/-- **A rebuild touches the flags only.** -/
theorem within_rebuildIndex (threshold : ℤ) (sorts : ℕ → ℕ → CounterSort) (bound : ℕ) :
    Prog.Within Db.SameCores (rebuildIndex threshold sorts bound) :=
  Db.rebuildFrame_sameCores.rebuildIndex threshold sorts bound

namespace Db

variable {db db' : Db} (h : db.SameCores db')

include h

/-- Each name has the same documents up to marks. -/
theorem SameCores.tiles (l : ℕ) (n : Str) :
    (db'.tiles l n).map TileDoc.core = (db.tiles l n).map TileDoc.core := by
  have hcore : TileDoc.isTile l n ∘ TileDoc.core = TileDoc.isTile l n :=
    funext fun d => TileDoc.isTile_congr rfl rfl rfl rfl l n
  have hf := congrArg (List.filter (TileDoc.isTile l n)) h
  rw [List.filter_map, List.filter_map, hcore] at hf
  exact hf

theorem SameCores.counters (l : ℕ) (n : Str) : db'.counters l n = db.counters l n := by
  have ht := congrArg (List.map TileDoc.counter) (h.tiles l n)
  rw [List.map_map, List.map_map] at ht
  exact ht

theorem SameCores.childCounts (l : ℕ) (n : Str) : db'.childCounts l n = db.childCounts l n := by
  have ht := congrArg (List.map TileDoc.children) (h.tiles l n)
  rw [List.map_map, List.map_map] at ht
  exact ht

theorem SameCores.exists_mem {d : TileDoc} (hd : d ∈ db'.fullTileCollection) :
    ∃ e ∈ db.fullTileCollection, e.core = d.core := by
  have hm : d.core ∈ db'.fullTileCollection.map TileDoc.core := List.mem_map_of_mem hd
  rw [h] at hm
  exact List.mem_map.mp hm

/-- Documents that are the same up to marks are named as well. -/
theorem SameCores.wellNamed (hw : db.WellNamed) : db'.WellNamed := by
  intro d hd
  obtain ⟨e, he, hcore⟩ := h.exists_mem hd
  have hwe : e.core.WellNamed := (hw e he).congr rfl rfl rfl rfl
  rw [hcore] at hwe
  exact hwe.congr rfl rfl rfl rfl

end Db

/-- A change of marks keeps the counters right. -/
theorem Counts.sameCores {live : List Str} {db db' : Db} (hc : Counts live db)
    (h : db.SameCores db') : Counts live db' where
  isTileName := hc.isTileName
  wellNamed := h.wellNamed hc.wellNamed
  level2 n := by rw [h.counters, hc.level2]
  level1 n := by rw [h.counters, hc.level1]
  level0 n := by rw [h.counters, hc.level0]

theorem Children.sameCores {live : List Str} {db db' : Db} (hc : Children live db)
    (h : db.SameCores db') : Children live db' where
  level2 n := by rw [h.childCounts, hc.level2]
  level1 n := by rw [h.childCounts, hc.level1]
  level0 n := by rw [h.childCounts, hc.level0]

/-! ### The leaves -/

/-- `e` is a leaf at the tile of `d` or at a tile around it. -/
def TileDoc.Shelters (e d : TileDoc) : Prop := e.leaf = true ∧ e.key e.level = d.key e.level

namespace Db

/-- Every level-2 document has a leaf at its tile or above. -/
def Sheltered (db : Db) : Prop :=
  ∀ d ∈ db.fullTileCollection, d.level = 2 → ∃ e ∈ db.fullTileCollection, e.Shelters d

/-- Every leaf is advertised. -/
def Advertised (db : Db) : Prop :=
  ∀ e ∈ db.fullTileCollection, e.leaf = true → e.indexName ∈ db.indexNames

end Db

/-- The names of a document belong to its core. -/
theorem TileDoc.key_congr {d e : TileDoc} (h : e.core = d.core) (i : ℕ) : e.key i = d.key i := by
  have hkey : ∀ d : TileDoc, d.key i = d.core.key i := fun d => by
    unfold TileDoc.key
    split <;> rfl
  rw [hkey, hkey d, h]

theorem TileDoc.level_congr {d e : TileDoc} (h : e.core = d.core) : e.level = d.level := by
  have hl : e.core.level = d.core.level := by rw [h]
  exact hl

/-- What a document shares with a level-2 document at its own level, it shares at every
level above. -/
theorem TileDoc.WellNamed.key_eq {d e : TileDoc} (hd : d.WellNamed) (he : e.WellNamed)
    (hd2 : d.level = 2) (h : e.key e.level = d.key e.level) {i : ℕ} (hi : i ≤ e.level) :
    e.key i = d.key i := by
  unfold TileDoc.WellNamed at hd he
  rw [hd2] at hd
  -- the names above a tile follow from its own, as its level has them
  match hl : e.level with
  | 0 =>
    obtain rfl : i = 0 := by omega
    rw [hl] at h
    exact h
  | 1 =>
    rw [hl] at h he
    have h10 : e.name10 = d.name10 := h
    match i with
    | 0 =>
      calc
        e.name100 = name100Of (name10Of d.name1) := by rw [he.2.1, h10, hd.2.1]
        _ = d.name100 := by rw [name100Of_name10Of, hd.2.2]
    | 1 => exact h10
    | i + 2 => omega
  | 2 =>
    rw [hl] at h he
    have h1 : e.name1 = d.name1 := h
    match i with
    | 0 =>
      change e.name100 = d.name100
      rw [he.2.2, h1, hd.2.2]
    | 1 =>
      change e.name10 = d.name10
      rw [he.2.1, h1, hd.2.1]
    | i + 2 => exact h1
  | l + 3 =>
    rw [hl] at he
    exact he.elim

/-- `aggregateTile` on the database. -/
def Db.aggregate (i : ℕ) (name : Str) (db : Db) : Db :=
  (db.mapTiles (updateOne (fun d => d.isTile i name && !d.cancelled)
    ({ · with leaf := true }))).mapTiles
      (updateMany (fun d => d.key i == name && decide (i < d.level))
        ({ · with leaf := false, cancelled := true }))

/-- The three updates of the code are one aggregation. -/
theorem run_aggregateTile (i : ℕ) (name : Str) (db : Db) :
    (aggregateTile i name).run db = ((), db.aggregate i name) := rfl

namespace Db

variable {db : Db} {i : ℕ} {name : Str}

/-- An aggregated tile that is there takes over for the leaves beneath it. -/
theorem Sheltered.aggregate (h : db.Sheltered) (hw : db.WellNamed)
    (hfound : ∃ d ∈ db.fullTileCollection, (d.isTile i name && !d.cancelled) = true) :
    (db.aggregate i name).Sheltered := by
  intro d' hd' hlevel
  obtain ⟨d₁, hd₁, rfl⟩ := mem_updateMany.mp hd'
  -- the document the level-2 document comes from
  have horigin : ∃ d ∈ db.fullTileCollection, d.core = d₁.core := by
    rcases mem_updateOne hd₁ with hd | ⟨d, hd, -, rfl⟩
    · exact ⟨d₁, hd, rfl⟩
    · exact ⟨d, hd, rfl⟩
  obtain ⟨d, hd, hcore⟩ := horigin
  have hcore' : d.core = (if d₁.key i == name && decide (i < d₁.level) then
      { d₁ with leaf := false, cancelled := true } else d₁).core := by
    rw [hcore]
    split <;> rfl
  have hd2 : d.level = 2 := by
    rw [← hlevel]
    exact TileDoc.level_congr hcore'
  by_cases hname : d.key i = name
  · -- beneath the aggregated tile, which is a leaf now
    obtain ⟨e, he, hp, hmem⟩ := exists_image_mem_updateOne
      (f := fun d : TileDoc => { d with leaf := true }) hfound
    obtain ⟨hkey, hel⟩ := TileDoc.isTile_iff.mp (Bool.and_eq_true _ _ ▸ hp).1
    refine ⟨{ e with leaf := true }, mem_updateMany.mpr ⟨_, hmem, ?_⟩, rfl, ?_⟩
    · rw [if_neg]
      simp [hel]
    · rw [← TileDoc.key_congr hcore']
      change TileDoc.key { e with leaf := true } e.level = d.key e.level
      rw [hel, hname, ← hkey]
      exact TileDoc.key_congr rfl i
  · -- the leaf it had is not beneath the aggregated tile
    obtain ⟨e, he, hleaf, hshare⟩ := h d hd hd2
    have hstays : ∃ e₁ ∈ updateOne (fun d => d.isTile i name && !d.cancelled)
        (fun d : TileDoc => { d with leaf := true }) db.fullTileCollection,
        e₁.core = e.core ∧ e₁.leaf = true := by
      rcases mem_updateOne_or (p := fun d : TileDoc => d.isTile i name && !d.cancelled)
        (f := fun d => { d with leaf := true }) he with hm | ⟨-, hm⟩
      · exact ⟨e, hm, rfl, hleaf⟩
      · exact ⟨_, hm, rfl, rfl⟩
    obtain ⟨e₁, he₁, hcore₁, hleaf₁⟩ := hstays
    have hlevel₁ : e₁.level = e.level := TileDoc.level_congr hcore₁
    refine ⟨e₁, mem_updateMany.mpr ⟨e₁, he₁, ?_⟩, hleaf₁, ?_⟩
    · rw [if_neg]
      intro hq
      simp only [Bool.and_eq_true, beq_iff_eq, decide_eq_true_eq] at hq
      refine hname ?_
      rw [← hq.1, TileDoc.key_congr hcore₁]
      exact ((hw d hd).key_eq (hw e he) hd2 hshare (by omega)).symm
    · rw [hlevel₁, TileDoc.key_congr hcore₁, hshare, TileDoc.key_congr hcore']

/-- Shelter is a matter of the tiles. -/
theorem Sheltered.congr {db' : Db} (h : db.Sheltered)
    (ht : db'.fullTileCollection = db.fullTileCollection) : db'.Sheltered := by
  unfold Sheltered
  rw [ht]
  exact h

end Db

/-! ### The tessellation keeps the shelters -/

/-- Well-named, sheltered documents stay so. -/
private def KeepsShelter (db db' : Db) : Prop :=
  db.WellNamed ∧ db.Sheltered → db'.WellNamed ∧ db'.Sheltered

private abbrev Sheltering {α : Type} (p : Prog Db α) : Prop := Prog.Within KeepsShelter p

/-- Reading keeps the shelter. -/
private theorem sheltering_query {α : Type} (q : Db → α) : Sheltering (Prog.query q) :=
  Prog.Within.query (fun _ h => h) q

private theorem sheltering_pure {α : Type} (a : α) : Sheltering (pure a : Prog Db α) :=
  Prog.Within.pure (fun _ h => h) a

private theorem KeepsShelter.trans {db₁ db₂ db₃ : Db} (h₁ : KeepsShelter db₁ db₂)
    (h₂ : KeepsShelter db₂ db₃) : KeepsShelter db₁ db₃ := fun h => h₂ (h₁ h)

private theorem Sheltering.bind {α β : Type} {p : Prog Db α} {g : α → Prog Db β}
    (hp : Sheltering p) (hg : ∀ a, Sheltering (g a)) : Sheltering (p >>= g) :=
  Prog.Within.bind (R := KeepsShelter) KeepsShelter.trans hp hg

/-- Tiles of level `i` that are not cancelled. -/
def Aggregable (i : ℕ) (docs : List TileDoc) (db : Db) : Prop :=
  ∀ doc ∈ docs, ∃ d ∈ db.fullTileCollection, (d.isTile i (doc.key i) && !d.cancelled) = true

/-- Aggregating a tile cancels no other tile of its level. -/
theorem Aggregable.aggregate {i : ℕ} {docs : List TileDoc} {db : Db}
    (h : Aggregable i docs db) (name : Str) : Aggregable i docs (db.aggregate i name) := by
  intro doc hdoc
  obtain ⟨d, hd, hp⟩ := h doc hdoc
  have hlevel : d.level = i := (TileDoc.isTile_iff.mp (Bool.and_eq_true _ _ ▸ hp).1).2
  -- the document has become the leaf or is as it was; its name and level are the same
  rcases mem_updateOne_or (p := fun d : TileDoc => d.isTile i name && !d.cancelled)
    (f := fun d => { d with leaf := true }) hd with hm | ⟨-, hm⟩
  · refine ⟨d, mem_updateMany.mpr ⟨d, hm, if_neg ?_⟩, hp⟩
    simp [hlevel]
  · refine ⟨{ d with leaf := true }, mem_updateMany.mpr ⟨_, hm, if_neg ?_⟩, ?_⟩
    · simp [hlevel]
    · rw [show TileDoc.isTile i (doc.key i) { d with leaf := true } = d.isTile i (doc.key i) from
        TileDoc.isTile_congr rfl rfl rfl rfl _ _]
      exact hp

/-- The tiles a level of the tessellation finds to aggregate. -/
theorem Aggregable.found (db : Db) (sort : CounterSort) (i : ℕ) :
    Aggregable i (sort.sort (db.fullTileCollection.filter fun d =>
      d.level == i && !d.cancelled && !d.leaf)) db := by
  intro doc hdoc
  obtain ⟨hd, hp⟩ := List.mem_filter.mp ((sort.perm _).mem_iff.mp hdoc)
  refine ⟨doc, hd, ?_⟩
  simp only [Bool.and_eq_true, beq_iff_eq, Bool.not_eq_true'] at hp ⊢
  exact ⟨TileDoc.isTile_iff.mpr ⟨rfl, hp.1.1⟩, hp.1.2⟩

/-- Aggregating tiles that are no leaves yet keeps it. -/
private theorem keepsShelter_aggregateTiles (threshold : ℤ) (i : ℕ) (docs : List TileDoc)
    (x y : ℤ) (db : Db) (hdocs : Aggregable i docs db) :
    KeepsShelter db ((aggregateTiles threshold i docs x y).run db).2 := by
  -- over the tiles found, in the database the ones before have left
  induction docs generalizing x y db with
  | nil => exact fun h => h
  | cons doc docs ih =>
    have hstep : KeepsShelter db (db.aggregate i (doc.key i)) := fun h =>
      ⟨(Db.rebuildFrame_sameCores.aggregateTile i (doc.key i) db).wellNamed h.1,
        h.2.aggregate h.1 (hdocs doc List.mem_cons_self)⟩
    have hrest : Aggregable i docs (db.aggregate i (doc.key i)) :=
      Aggregable.aggregate (fun d hd => hdocs d (List.mem_cons_of_mem _ hd)) _
    unfold aggregateTiles
    rw [Prog.run_ite]
    split
    · exact fun h => h
    · rw [Prog.run_bind, run_aggregateTile, Prog.run_ite]
      split
      · exact hstep
      · exact hstep.trans (ih _ _ _ hrest)

/-- A level of the tessellation keeps the shelter. -/
private theorem sheltering_tesselateLevel (threshold : ℤ) (sort : CounterSort) (i : ℕ) :
    Sheltering (tesselateLevel threshold sort i) := by
  refine Sheltering.bind (sheltering_query _) fun y => Sheltering.bind (sheltering_query _)
    fun x => Prog.Within.ite (fun db => ?_) (sheltering_pure _)
  -- the tiles to aggregate have just been found
  exact keepsShelter_aggregateTiles threshold i _ x y db (Aggregable.found db sort i)

private theorem sheltering_tesselateLevels (threshold : ℤ) (sorts : ℕ → CounterSort)
    (is : List ℕ) (nLeaf : ℤ) : Sheltering (tesselateLevels threshold sorts is nLeaf) := by
  induction is generalizing nLeaf with
  | nil => exact sheltering_pure _
  | cons i is ih =>
    refine Sheltering.bind (sheltering_tesselateLevel threshold _ i) fun ok => ?_
    exact Prog.Within.ite (Sheltering.bind (sheltering_query _) ih) (sheltering_pure _)

/-- The turns of the tessellation keep the shelter, however many there are. -/
private theorem sheltering_tesselationLoop (threshold : ℤ) (sorts : ℕ → ℕ → CounterSort) (n : ℕ)
    (nLeaf : ℤ) : Sheltering (tesselationLoop threshold sorts n nLeaf) := by
  induction n generalizing nLeaf with
  | zero => exact sheltering_pure _
  | succ n ih =>
    refine Prog.Within.ite (Sheltering.bind (sheltering_tesselateLevels _ _ _ _) fun r => ?_)
      (sheltering_pure _)
    cases r with
    | none => exact sheltering_pure _
    | some nLeaf => exact ih nLeaf

/-- After the reset every level-2 document is a leaf itself. -/
theorem sheltered_resetFullTileDB (db : Db) : ((resetFullTileDB.run db).2).Sheltered := by
  intro d hd hlevel
  refine ⟨d, hd, ?_, rfl⟩
  obtain ⟨e, -, rfl⟩ := mem_updateMany.mp hd
  split at hlevel
  · next h => rw [if_pos h]
  · next h => exact absurd (beq_iff_eq.mpr hlevel) h

/-! ### The new index -/

/-- The names of the leaves are written one after the other. -/
theorem run_insertIndexNames (docs : List TileDoc) (db : Db) :
    (insertIndexNames docs).run db =
      ((), db.mapIndex (· ++ docs.map fun d => ⟨d.indexName, 1000⟩)) := by
  induction docs generalizing db with
  | nil => simp [insertIndexNames, Db.mapIndex]
  | cons doc docs ih =>
    unfold insertIndexNames onIndex
    rw [Prog.run_bind, Prog.run_modify, ih]
    simp [Db.mapIndex, insertOne]

/-- `buildIndexDB` advertises the leaves and nothing else. -/
theorem indexNames_buildIndexDB (db : Db) :
    (buildIndexDB.run db).2.indexNames =
      (db.fullTileCollection.filter (·.leaf)).map TileDoc.indexName := by
  unfold buildIndexDB
  rw [Prog.run_bind, Prog.run_bind, Prog.run_bind, run_insertIndexNames, run_versionUpdater]
  simp [Db.indexNames, Db.bumpVersion, Db.mapVersion, Db.sent, Db.mapIndex, onIndex, findTiles]

/-- Writing the index leaves the tiles. -/
theorem tiles_buildIndexDB (db : Db) :
    (buildIndexDB.run db).2.fullTileCollection = db.fullTileCollection := by
  unfold buildIndexDB
  rw [Prog.run_bind, Prog.run_bind, Prog.run_bind, run_insertIndexNames, run_versionUpdater]
  rfl

/-- After the index was written it names every leaf. -/
theorem advertised_buildIndexDB (db : Db) : (buildIndexDB.run db).2.Advertised := by
  intro e he hleaf
  rw [tiles_buildIndexDB] at he
  rw [indexNames_buildIndexDB]
  exact List.mem_map_of_mem (List.mem_filter.mpr ⟨he, hleaf⟩)

/-- A rebuild that returns leaves the tessellated tiles and an index of their leaves. -/
theorem run_rebuildIndex_returned {threshold : ℤ} {sorts : ℕ → ℕ → CounterSort} {bound : ℕ}
    {db : Db} (hret : ((rebuildIndex threshold sorts bound).run db).1 = .returned) :
    ((rebuildIndex threshold sorts bound).run db).2 =
      (buildIndexDB.run ((constrainedTesselation threshold sorts bound).run
        (resetFullTileDB.run db).2).2).2 := by
  unfold rebuildIndex at hret ⊢
  rw [Prog.run_bind, Prog.run_bind] at hret ⊢
  -- the rebuild goes on only after a tessellation that has returned
  cases hended : ((constrainedTesselation threshold sorts bound).run
      (resetFullTileDB.run db).2).1 with
  | returned =>
    dsimp only
    rw [Prog.run_bind, Prog.run_pure]
  | exited =>
    rw [hended] at hret
    exact absurd hret (by simp)
  | running =>
    rw [hended] at hret
    exact absurd hret (by simp)

/-- **A rebuild hides no tile.** When it returns, every level-2 document has a leaf at
its tile or above, and every leaf is advertised. -/
theorem covered_rebuildIndex {threshold : ℤ} {sorts : ℕ → ℕ → CounterSort} {bound : ℕ} {db : Db}
    (hw : db.WellNamed) (hret : ((rebuildIndex threshold sorts bound).run db).1 = .returned) :
    ((rebuildIndex threshold sorts bound).run db).2.Sheltered ∧
      ((rebuildIndex threshold sorts bound).run db).2.Advertised := by
  have hreset : (resetFullTileDB.run db).2.WellNamed ∧ (resetFullTileDB.run db).2.Sheltered :=
    ⟨(Db.rebuildFrame_sameCores.resetFullTileDB db).wellNamed hw, sheltered_resetFullTileDB db⟩
  have htess : Sheltering (constrainedTesselation threshold sorts bound) :=
    Sheltering.bind (sheltering_query _) fun nLeaf =>
      sheltering_tesselationLoop threshold sorts bound nLeaf
  have hshelter := (htess _ hreset).2
  rw [run_rebuildIndex_returned hret]
  exact ⟨hshelter.congr (tiles_buildIndexDB _), advertised_buildIndexDB _⟩

end OpenGeoBase
