import OpenGeoBase.Repo.IndexAntichain
import OpenGeoBase.Repo.InsertAtomic

/-!
# When the tessellation ends

The outer loop of `constrainedTesselation` goes on as long as there are more leaves than the
threshold allows. With no more level-2 tiles than that, it does not even begin.

Otherwise it depends on the tiles that nothing lies around: the level-0 tiles, and the level-1
tiles whose level-0 tile is gone, as deletions leave some. An aggregation never makes one leaf of
two of these, so there are always at least as many leaves as such roots (`Db.roots_le_leaves`).
If these are too many, the loop never ends. If not, each turn of it aggregates something
(`Db.leaves_le_of_settled`): when there is nothing to aggregate at level 1, or the estimate there is
low enough, and the same holds at level 0, then the leaves are few enough. What can be aggregated
gets less each time, and this bounds the number of turns.

This takes a forest of tiles, with one document a tile. Insertions alone make one
(`Counts.forest`). After deletions a level-1 tile can have two documents, of which only the first
is ever aggregated; whether the loop then ends is up to the counters and the ties of the sort.
-/

namespace OpenGeoBase

open Text AtomicCalls Collection Tally Transition

namespace Db

/-- A forest of tiles: each level-2 tile lies in a level-1 tile, each coarser tile has a level-2
tile in it, and a name. -/
structure Forest (db : Db) : Prop extends db.Layered where
  parent : ∀ d ∈ db.fullTileCollection, d.level = 2 →
    ∃ e ∈ db.fullTileCollection, e.level = 1 ∧ e.name10 = d.name10
  beneath : ∀ d ∈ db.fullTileCollection, d.level < 2 →
    ∃ t ∈ db.fullTileCollection, t.level = 2 ∧ d.key d.level = t.key d.level
  named : ∀ d ∈ db.fullTileCollection, d.level < 2 → d.key d.level ≠ xx

/-- The level-0 tile is there. -/
def hasZero (db : Db) (name100 : Str) : Bool := db.fullTileCollection.any (TileDoc.isTile 0 name100)

/-- No tile lies around this one. -/
def isRoot (db : Db) (d : TileDoc) : Bool :=
  d.level == 0 || d.level == 1 && !db.hasZero d.name100

/-- The number of roots. -/
def roots (db : Db) : ℕ := db.fullTileCollection.countP db.isRoot

/-- The number of level-2 tiles. -/
def finest (db : Db) : ℕ := db.fullTileCollection.countP (·.level == 2)

/-- The threshold allows one leaf for each level-2 tile, or for each root of a forest. -/
def Mergeable (threshold : ℤ) (db : Db) : Prop :=
  db.finest ≤ threshold ∨ db.Forest ∧ db.roots ≤ threshold

/-- A turn has nothing to do at level `i`. -/
def Settled (threshold : ℤ) (i : ℕ) (db : Db) : Prop :=
  db.uncancelledBeneath i + db.leavesDownTo i > threshold → db.toAggregate i = []

end Db

/-- A tile that can still be aggregated. -/
def TileDoc.unaggregated (d : TileDoc) : Bool := decide (d.level < 2) && !d.cancelled && !d.leaf

/-- The number of tiles that can still be aggregated. -/
def Db.unaggregated (db : Db) : ℕ := db.fullTileCollection.countP (·.unaggregated)

/-! ### The forests of the indexer -/

/-- A level-0 tile has a level-2 tile beneath it. -/
theorem Counts.exists_beneath_zero {live : List Str} {db : Db} (h : Counts live db) {d : TileDoc}
    (hd : d ∈ db.fullTileCollection) (hl : d.level = 0) :
    ∃ t ∈ db.fullTileCollection, t.level = 2 ∧ d.name100 = t.name100 := by
  have hne : db.tiles 0 d.name100 ≠ [] :=
    List.ne_nil_of_mem ((db.mem_tiles_iff _ _).mpr ⟨hd, rfl, hl⟩)
  rw [ne_eq, h.tiles_zero_eq_nil_iff, not_not] at hne
  obtain ⟨n, hn, hname⟩ := Finset.mem_image.mp hne
  obtain ⟨t, ht, htl, hkey⟩ := h.exists_two hn
  refine ⟨t, ht, htl, ?_⟩
  rw [(h.names_two ht htl).2, ← hname]
  exact congrArg name100Of hkey.symm

/-- What insertions make is a forest of tiles. -/
theorem Counts.forest {live : List Str} {db : Db} (h : Counts live db) : db.Forest where
  toLayered := h.completeTree.toLayered
  parent d hd hl := h.completeTree.parent d hd hl 1 Nat.one_lt_two
  beneath d hd hlt := by
    match hl : d.level with
    | 0 => exact h.exists_beneath_zero hd hl
    | 1 => exact h.exists_beneath hd hl
    | l + 2 => omega
  named d hd hlt := by
    -- the names of tiles are paths, and the placeholder is none
    have hpath : ∀ {n : ℕ} {s : Str}, IsPath (n + 1) s → s ≠ xx := by
      rintro n s ⟨cs, hcs, -, rfl⟩ heq
      cases cs with
      | nil => exact absurd hcs (by simp)
      | cons c cs => exact absurd (congrArg List.head? heq) (by simp [path, xx])
    have hw := h.wellNamed d hd
    unfold TileDoc.WellNamed at hw
    match hl : d.level with
    | 0 =>
      rw [hl] at hw
      exact hpath hw.1
    | 1 =>
      rw [hl] at hw
      exact hpath hw.1
    | l + 2 => omega

namespace Db

variable {db db' : Db}

/-- The flags of the tiles make no difference to the forest. -/
theorem Forest.sameCores (h : db.Forest) (hs : db.SameCores db') : db'.Forest where
  toLayered := h.toLayered.sameCores hs
  -- the tile above is sought among the documents of `db`, and found again under the same names
  parent d hd hl := by
    obtain ⟨d₀, hd₀, hcore⟩ := hs.exists_mem hd
    obtain ⟨e₀, he₀, hel, hname⟩ := h.parent d₀ hd₀ (by rw [TileDoc.level_congr hcore, hl])
    obtain ⟨e, he, hecore⟩ := hs.symm.exists_mem he₀
    refine ⟨e, he, by rw [TileDoc.level_congr hecore, hel], ?_⟩
    calc
      e.name10 = e₀.name10 := TileDoc.key_congr hecore 1
      _ = d₀.name10 := hname
      _ = d.name10 := TileDoc.key_congr hcore 1
  beneath d hd hlt := by
    obtain ⟨d₀, hd₀, hcore⟩ := hs.exists_mem hd
    have hlevel := TileDoc.level_congr hcore
    -- and so is the tile beneath
    obtain ⟨t₀, ht₀, htl, hkey⟩ := h.beneath d₀ hd₀ (by rwa [hlevel])
    obtain ⟨t, ht, htcore⟩ := hs.symm.exists_mem ht₀
    refine ⟨t, ht, by rw [TileDoc.level_congr htcore, htl], ?_⟩
    rw [hlevel, TileDoc.key_congr hcore] at hkey
    rw [hkey, TileDoc.key_congr htcore]
  named d hd hlt := by
    obtain ⟨d₀, hd₀, hcore⟩ := hs.exists_mem hd
    have hlevel := TileDoc.level_congr hcore
    have hnamed := h.named d₀ hd₀ (by rwa [hlevel])
    rwa [hlevel, TileDoc.key_congr hcore] at hnamed

/-- A level-0 document is looked for by its name. -/
theorem hasZero_iff {name100 : Str} : db.hasZero name100 = true ↔
    ∃ e ∈ db.fullTileCollection, e.level = 0 ∧ e.name100 = name100 := by
  unfold hasZero
  rw [List.any_eq_true]
  refine exists_congr fun e => and_congr_right fun _ => ?_
  rw [TileDoc.isTile_iff, and_comm]
  rfl

/-- The roots are the level-0 tiles and the level-1 tiles that lack one. -/
theorem isRoot_iff {d : TileDoc} : db.isRoot d = true ↔
    d.level = 0 ∨ d.level = 1 ∧ db.hasZero d.name100 = false := by
  unfold isRoot
  simp only [Bool.or_eq_true, beq_iff_eq, Bool.and_eq_true, Bool.not_eq_true']

/-- Nor do they make a difference to the number of roots. -/
theorem roots_sameCores (hs : db.SameCores db') : db'.roots = db.roots := by
  -- the test for a document of level 0 reads names and levels only
  have hzero : db'.hasZero = db.hasZero := by
    funext name100
    rw [Bool.eq_iff_iff, hasZero_iff, hasZero_iff]
    constructor
    · rintro ⟨e, he, hl, hname⟩
      obtain ⟨e₀, he₀, hcore⟩ := hs.exists_mem he
      exact ⟨e₀, he₀, (TileDoc.level_congr hcore).trans hl, (TileDoc.key_congr hcore 0).trans hname⟩
    · rintro ⟨e₀, he₀, hl, hname⟩
      obtain ⟨e, he, hcore⟩ := hs.symm.exists_mem he₀
      exact ⟨e, he, (TileDoc.level_congr hcore).trans hl, (TileDoc.key_congr hcore 0).trans hname⟩
  -- so the roots can be counted on the cores, which are the same
  have hcore : ∀ c : List TileDoc, c.countP db.isRoot = (c.map TileDoc.core).countP db.isRoot := by
    intro c
    rw [List.countP_map]
    rfl
  unfold roots isRoot
  rw [hzero]
  change db'.fullTileCollection.countP db.isRoot = db.fullTileCollection.countP db.isRoot
  rw [hcore, hs, ← hcore]

/-! ### Leaves -/

section Leaves

variable (hp : db.Partitioned) (hforest : db.Forest) {d e : TileDoc}

include hforest in
/-- Each tile lies around a level-2 tile, and so do the tiles around it. -/
theorem Forest.exists_two (hd : d ∈ db.fullTileCollection) :
    ∃ t ∈ db.fullTileCollection, t.level = 2 ∧ ∀ i ≤ d.level, d.key i = t.key i := by
  rcases Nat.lt_or_ge d.level 2 with hlt | hge
  · obtain ⟨t, ht, htl, hkey⟩ := hforest.beneath d hd hlt
    exact ⟨t, ht, htl, fun i hi => hforest.key_eq ht hd (by omega) hkey hi⟩
  · have hle : d.level ≤ 2 := hforest.level_le d hd
    exact ⟨d, hd, by omega, fun i _ => rfl⟩

/-- What cannot be aggregated any more, and is not cancelled, is a leaf. -/
theorem leaf_of_toAggregate_eq_nil {i : ℕ} (hnone : db.toAggregate i = [])
    (hd : d ∈ db.fullTileCollection) (hl : d.level = i) (hopen : d.cancelled = false) :
    d.leaf = true := by
  by_contra hleaf
  refine List.filter_eq_nil_iff.mp hnone d hd ?_
  simpa [hl, hopen] using hleaf

include hp hforest

/-- Two leaves around one tile are the same. -/
theorem eq_of_shelters (hd : d ∈ db.fullTileCollection) (hleaf : d.leaf = true)
    (he : e ∈ db.fullTileCollection) (hle : e.level ≤ d.level) (hs : e.Shelters d) : e = d := by
  obtain ⟨t, ht, htl, hkey⟩ := hforest.exists_two hd
  exact hp.shelter_unique ht htl he ⟨hs.1, hs.2.trans (hkey _ hle)⟩ hd ⟨hleaf, hkey _ le_rfl⟩

/-- No leaf is cancelled. -/
theorem not_cancelled_of_leaf (hd : d ∈ db.fullTileCollection) (hleaf : d.leaf = true) :
    d.cancelled = false := by
  rw [Bool.eq_false_iff]
  intro hcancelled
  obtain ⟨e, he, hlt, hs⟩ := (hp.cancelled d hd).mp hcancelled
  rw [eq_of_shelters hp hforest hd hleaf he hlt.le hs] at hlt
  exact lt_irrefl _ hlt

/-- A level-2 tile is a leaf unless it is cancelled. -/
theorem leaf_two_iff (hd : d ∈ db.fullTileCollection) (hl : d.level = 2) :
    d.leaf = true ↔ d.cancelled = false := by
  refine ⟨not_cancelled_of_leaf hp hforest hd, fun hcancelled => ?_⟩
  obtain ⟨e, ⟨he, hs⟩, -⟩ := hp.cover d hd hl
  have hle : e.level ≤ 2 := hforest.level_le e he
  rcases Nat.lt_or_ge e.level d.level with hlt | hge
  · have hcovered := (hp.cancelled d hd).mpr ⟨e, he, hlt, hs⟩
    rw [hcancelled] at hcovered
    exact absurd hcovered Bool.false_ne_true
  · have hel : e.level = d.level := by omega
    rw [← hforest.oneDocumentEach.eq hd he hel hs.2]
    exact hs.1

/-- The root a tile lies in, by its level and its name. -/
private def rootOf (db : Db) (d : TileDoc) : ℕ × Str :=
  if db.hasZero d.name100 then (0, d.name100) else (1, d.name10)

omit hp hforest in
/-- A root is its own root. -/
private theorem rootOf_of_isRoot (hd : d ∈ db.fullTileCollection) (hroot : db.isRoot d = true) :
    rootOf db d = (d.level, d.key d.level) := by
  unfold rootOf
  rcases isRoot_iff.mp hroot with hl | ⟨hl, hnone⟩
  · rw [if_pos (hasZero_iff.mpr ⟨d, hd, hl, rfl⟩), hl]
    rfl
  · rw [if_neg (by simp [hnone]), hl]
    rfl

/-- **There are at least as many leaves as roots**: no two of these share one. -/
theorem roots_le_leaves : db.roots ≤ db.leaves := by
  let roots := db.fullTileCollection.filter db.isRoot
  let leaves := db.fullTileCollection.filter (·.leaf)
  -- different roots differ in level or name
  have hnodup : (roots.map (rootOf db)).Nodup := by
    have hone := hforest.oneDocumentEach.sublist ((List.filter_sublist (p := db.isRoot)).map _)
    refine (List.map_congr_left fun d hd => ?_) ▸ hone
    obtain ⟨hd, hroot⟩ := List.mem_filter.mp hd
    exact (rootOf_of_isRoot hd hroot).symm
  -- the leaf over a level-2 tile in a root lies in that root
  have hsub : roots.map (rootOf db) ⊆ leaves.map (rootOf db) := by
    intro n hn
    obtain ⟨d, hd, rfl⟩ := List.mem_map.mp hn
    obtain ⟨hd, hroot⟩ := List.mem_filter.mp hd
    obtain ⟨t, ht, htl, hkey⟩ := hforest.exists_two hd
    obtain ⟨e, ⟨he, hs⟩, -⟩ := hp.cover t ht htl
    refine List.mem_map.mpr ⟨e, List.mem_filter.mpr ⟨he, hs.1⟩, ?_⟩
    have hle : e.level ≤ t.level := by
      rw [htl]
      exact hforest.level_le e he
    have hname100 : e.name100 = d.name100 :=
      (hforest.key_eq ht he hle hs.2 (Nat.zero_le _)).trans (hkey 0 (Nat.zero_le _)).symm
    unfold rootOf
    rw [hname100]
    rcases isRoot_iff.mp hroot with hl | ⟨hl, hnone⟩
    · rw [if_pos (hasZero_iff.mpr ⟨d, hd, hl, rfl⟩), if_pos (hasZero_iff.mpr ⟨d, hd, hl, rfl⟩)]
    · -- no level-0 tile is there, so the leaf is in the level-1 tile
      have hel : 1 ≤ e.level := by
        by_contra hzero
        have hfound := hasZero_iff.mpr ⟨e, he, by omega, hname100⟩
        rw [hnone] at hfound
        exact absurd hfound Bool.false_ne_true
      have hname10 : e.name10 = d.name10 :=
        (hforest.key_eq ht he hle hs.2 hel).trans (hkey 1 hl.ge).symm
      rw [hname10]
  have hle := (List.subperm_of_subset hnodup hsub).length_le
  rw [List.length_map, List.length_map] at hle
  unfold Db.roots Db.leaves
  rw [List.countP_eq_length_filter, List.countP_eq_length_filter]
  exact_mod_cast hle

/-- The estimate at level 1 is exact. -/
theorem leaves_eq_estimate_one :
    db.leaves = db.uncancelledBeneath 1 + db.leavesDownTo 1 := by
  unfold Db.leaves uncancelledBeneath leavesDownTo
  rw [← Nat.cast_add, Nat.cast_inj]
  -- a leaf is an open tile of level 2, or an uncancelled leaf of a level above, and never both
  refine countP_eq_add (fun d hd => ?_) fun d hd => ?_
  · have hle : d.level ≤ 2 := hforest.level_le d hd
    simp only [Bool.and_eq_true, beq_iff_eq, decide_eq_true_eq, Bool.not_eq_true']
    rcases Nat.lt_or_ge d.level 2 with hlt | hge
    · refine ⟨fun hleaf => Or.inr ?_, ?_⟩
      · exact ⟨⟨Nat.le_of_lt_succ hlt, hleaf⟩, not_cancelled_of_leaf hp hforest hd hleaf⟩
      · rintro (⟨hl, -⟩ | ⟨⟨-, hleaf⟩, -⟩)
        · exact absurd hl hlt.ne
        · exact hleaf
    · have hl : d.level = 2 := by omega
      rw [leaf_two_iff hp hforest hd hl]
      refine ⟨fun hopen => Or.inl ⟨hl, hopen⟩, ?_⟩
      rintro (⟨-, hopen⟩ | ⟨-, hopen⟩) <;> exact hopen
  · simp only [Bool.and_eq_true, beq_iff_eq, decide_eq_true_eq]
    omega

/-- With nothing to aggregate at level 1, no level-2 tile is a leaf. -/
theorem level_le_one_of_leaf (hnone : db.toAggregate 1 = []) (hd : d ∈ db.fullTileCollection)
    (hleaf : d.leaf = true) : d.level ≤ 1 := by
  by_contra hgt
  have hdl : d.level ≤ 2 := hforest.level_le d hd
  obtain ⟨e, he, hel, hname⟩ := hforest.parent d hd (by omega)
  have hekey : e.key e.level = d.key e.level := by
    rw [hel]
    exact hname
  -- the level-1 tile around it is a leaf, or lies in one
  cases hcancelled : e.cancelled with
  | false =>
    have heleaf := leaf_of_toAggregate_eq_nil hnone he hel hcancelled
    have hsame := eq_of_shelters hp hforest hd hleaf he (by omega) ⟨heleaf, hekey⟩
    exact hgt (hsame ▸ hel.le)
  | true =>
    obtain ⟨r, hr, hlt, hs⟩ := (hp.cancelled e he).mp hcancelled
    have hrkey : r.key r.level = d.key r.level :=
      hs.2.trans (hforest.key_eq hd he (by omega) hekey hlt.le)
    have hsame := eq_of_shelters hp hforest hd hleaf hr (by omega) ⟨hs.1, hrkey⟩
    rw [hsame] at hlt
    omega

/-- With nothing to aggregate at level 1, the estimate at level 0 is exact. -/
theorem leaves_eq_estimate_zero (hnone : db.toAggregate 1 = []) :
    db.leaves = db.uncancelledBeneath 0 + db.leavesDownTo 0 := by
  unfold Db.leaves uncancelledBeneath leavesDownTo
  rw [← Nat.cast_add, Nat.cast_inj]
  -- without anything to aggregate at level 1, the tiles of that level are the leaves there
  refine countP_eq_add (fun d hd => ?_) fun d hd => ?_
  · simp only [Bool.and_eq_true, beq_iff_eq, decide_eq_true_eq, Bool.not_eq_true']
    constructor
    · intro hleaf
      have hopen := not_cancelled_of_leaf hp hforest hd hleaf
      have hle := level_le_one_of_leaf hp hforest hnone hd hleaf
      rcases Nat.lt_or_ge d.level 1 with hlt | hge
      · exact Or.inr ⟨⟨Nat.le_of_lt_succ hlt, hleaf⟩, hopen⟩
      · exact Or.inl ⟨le_antisymm hle hge, hopen⟩
    · rintro (⟨hl, hopen⟩ | ⟨⟨-, hleaf⟩, -⟩)
      · exact leaf_of_toAggregate_eq_nil hnone hd hl hopen
      · exact hleaf
  · simp only [Bool.and_eq_true, beq_iff_eq, decide_eq_true_eq]
    omega

/-- With nothing to aggregate at either level, the roots are the leaves. -/
theorem leaves_eq_roots (hzero : db.toAggregate 0 = []) (hone : db.toAggregate 1 = []) :
    db.leaves = db.roots := by
  -- nothing lies around a level-0 tile, so that it is never cancelled
  have hleaf_zero : ∀ d ∈ db.fullTileCollection, d.level = 0 → d.leaf = true := by
    intro d hd hl
    refine leaf_of_toAggregate_eq_nil hzero hd hl ?_
    rw [Bool.eq_false_iff]
    intro hcancelled
    obtain ⟨e, -, hlt, -⟩ := (hp.cancelled d hd).mp hcancelled
    omega
  unfold Db.leaves roots
  rw [Nat.cast_inj]
  refine List.countP_congr fun d hd => ?_
  rw [isRoot_iff]
  constructor
  · intro hleaf
    have hle := level_le_one_of_leaf hp hforest hone hd hleaf
    rcases Nat.eq_zero_or_pos d.level with hl | hpos
    · exact Or.inl hl
    · -- a leaf lies in no other, and a level-0 tile around it would be one
      refine Or.inr ⟨by omega, ?_⟩
      rw [Bool.eq_false_iff]
      intro hfound
      obtain ⟨e, he, hel, hname⟩ := hasZero_iff.mp hfound
      have hs : e.Shelters d := by
        refine ⟨hleaf_zero e he hel, ?_⟩
        rw [hel]
        exact hname
      have hsame := eq_of_shelters hp hforest hd hleaf he (by omega) hs
      rw [hsame] at hel
      omega
  · rintro (hl | ⟨hl, hnone⟩)
    · exact hleaf_zero d hd hl
    · refine leaf_of_toAggregate_eq_nil hone hd hl ?_
      rw [Bool.eq_false_iff]
      intro hcancelled
      obtain ⟨e, he, hlt, hs⟩ := (hp.cancelled d hd).mp hcancelled
      have hel : e.level = 0 := by omega
      have hname : e.name100 = d.name100 := by
        have hkey := hs.2
        rw [hel] at hkey
        exact hkey
      have hfound := hasZero_iff.mpr ⟨e, he, hel, hname⟩
      rw [hnone] at hfound
      exact absurd hfound Bool.false_ne_true

/-- **When nothing is aggregated**, the leaves are few enough. -/
theorem leaves_le_of_settled {threshold : ℤ} (hroots : db.roots ≤ threshold)
    (hsettled : ∀ i < 2, db.Settled threshold i) : db.leaves ≤ threshold := by
  by_cases hone : db.uncancelledBeneath 1 + db.leavesDownTo 1 > threshold
  · have hnone := hsettled 1 (by omega) hone
    by_cases hzero : db.uncancelledBeneath 0 + db.leavesDownTo 0 > threshold
    · rw [leaves_eq_roots hp hforest (hsettled 0 (by omega) hzero) hnone]
      exact hroots
    · rw [leaves_eq_estimate_zero hp hforest hnone]
      exact not_lt.mp hzero
  · rw [leaves_eq_estimate_one hp hforest]
    exact not_lt.mp hone

end Leaves

/-! ### What a turn leaves to do -/

/-- After a part of a turn the leaves partition the same tiles, and there is no more to aggregate
than before. -/
structure Aggregated (db db' : Db) : Prop where
  partitioned : db'.Partitioned
  sameCores : db.SameCores db'
  unaggregated_le : db'.unaggregated ≤ db.unaggregated

/-- A collection is reached from itself without aggregations. -/
theorem Aggregated.refl (hp : db.Partitioned) : db.Aggregated db := ⟨hp, SameCores.refl db, le_rfl⟩

theorem Aggregated.trans {db₁ db₂ db₃ : Db} (h₁ : db₁.Aggregated db₂) (h₂ : db₂.Aggregated db₃) :
    db₁.Aggregated db₃ :=
  ⟨h₂.partitioned, h₁.sameCores.trans h₂.sameCores, h₂.unaggregated_le.trans h₁.unaggregated_le⟩

end Db

/-- What an aggregation leaves to be done was to be done before. -/
theorem TileDoc.unaggregated_of_aggregated {i : ℕ} {name : Str} {d : TileDoc}
    (h : (d.aggregated i name).unaggregated = true) : d.unaggregated = true := by
  unfold aggregated at h
  split at h
  · simp [unaggregated] at h
  · split at h
    · simp [unaggregated] at h
    · exact h

namespace Db

variable {db db' : Db} {i : ℕ} {name : Str}

theorem unaggregated_aggregate (h : db.OneDocumentEach) : (db.aggregate i name).unaggregated =
    db.fullTileCollection.countP fun d => (d.aggregated i name).unaggregated := by
  unfold unaggregated
  rw [docs_aggregate h, List.countP_map]
  rfl

theorem unaggregated_aggregate_le (h : db.OneDocumentEach) :
    (db.aggregate i name).unaggregated ≤ db.unaggregated := by
  rw [unaggregated_aggregate h]
  exact List.countP_mono_left fun d _ => TileDoc.unaggregated_of_aggregated

/-- With each aggregation there is less to aggregate. -/
theorem unaggregated_aggregate_lt (h : db.OneDocumentEach) (hi : i < 2) {a : TileDoc}
    (ha : a ∈ db.toAggregate i) : (db.aggregate i (a.key i)).unaggregated < db.unaggregated := by
  obtain ⟨ha, hopen⟩ := List.mem_filter.mp ha
  simp only [Bool.and_eq_true, beq_iff_eq, Bool.not_eq_true'] at hopen
  obtain ⟨⟨hl, hcancelled⟩, hleaf⟩ := hopen
  have hself := TileDoc.aggregated_self (TileDoc.isTile_iff.mpr ⟨rfl, hl⟩) hcancelled
  rw [unaggregated_aggregate h]
  refine countP_lt_countP (fun d _ => TileDoc.unaggregated_of_aggregated) ha ?_ ?_
  · simp [TileDoc.unaggregated, hl, hi, hcancelled, hleaf]
  · rw [hself]
    simp [TileDoc.unaggregated]

end Db

/-! ### The loops -/

section Loops

variable (threshold : ℤ) {db : Db}

/-- One aggregation. -/
theorem Db.Partitioned.aggregated (hp : db.Partitioned) {i : ℕ} (hi : i < 2) {name : Str}
    (hfound : ∃ a ∈ db.fullTileCollection, (a.isTile i name && !a.cancelled) = true) :
    db.Aggregated (db.aggregate i name) where
  partitioned := hp.aggregate hi hfound
  sameCores := Db.rebuildFrame_sameCores.aggregateTile i name db
  unaggregated_le := Db.unaggregated_aggregate_le hp.layered.oneDocumentEach

/-- The loop over the tiles of a level, after the first of them. -/
theorem aggregated_aggregateTiles {i : ℕ} (hi : i < 2) {docs : List TileDoc}
    (hp : db.Partitioned) (hdocs : Aggregable i docs db) (hnamed : ∀ doc ∈ docs, doc.key i ≠ xx)
    (x y : ℤ) :
    let r := (aggregateTiles threshold i docs x y).run db
    r.1 = true ∧ db.Aggregated r.2 ∧
      ∀ doc ∈ docs.head?, (db.aggregate i (doc.key i)).Aggregated r.2 := by
  -- over the tiles found: each is aggregated in the state the ones before it have left
  induction docs generalizing db x y with
  | nil => exact ⟨rfl, .refl hp, fun doc hdoc => nomatch hdoc⟩
  | cons doc docs ih =>
    have hone := hp.aggregated hi (hdocs doc List.mem_cons_self)
    unfold aggregateTiles
    rw [if_neg (hnamed doc List.mem_cons_self), Prog.run_bind, run_aggregateTile, Prog.run_ite]
    split
    -- the estimate is back under the threshold, and the loop breaks
    · refine ⟨rfl, hone, fun _ hdoc => ?_⟩
      obtain rfl := Option.some.inj hdoc
      exact .refl hone.partitioned
    -- or it goes on, with the children of this tile taken off the estimate
    · obtain ⟨hok, hrest, -⟩ := ih hone.partitioned
        (Aggregable.aggregate (fun d hd => hdocs d (List.mem_cons_of_mem _ hd)) _)
        (fun d hd => hnamed d (List.mem_cons_of_mem _ hd)) (x - doc.children) (y + 1)
      refine ⟨hok, hone.trans hrest, fun _ hdoc => ?_⟩
      obtain rfl := Option.some.inj hdoc
      exact hrest

/-- A level of a turn aggregates something, or has nothing to do. -/
theorem aggregated_tesselateLevel {i : ℕ} (hi : i < 2) (hp : db.Partitioned) (hforest : db.Forest)
    (sort : CounterSort) :
    let r := (tesselateLevel threshold sort i).run db
    r.1 = true ∧ db.Aggregated r.2 ∧
      (r.2.unaggregated < db.unaggregated ∨ r.2 = db ∧ db.Settled threshold i) := by
  dsimp only
  rw [run_tesselateLevel_eq]
  -- over the threshold there is something to do, unless the level has nothing to aggregate
  by_cases hagg : db.uncancelledBeneath i + db.leavesDownTo i > threshold
  · rw [if_pos hagg]
    have hmem : ∀ doc ∈ sort.sort (db.toAggregate i), doc ∈ db.toAggregate i := fun doc hdoc =>
      (sort.perm _).mem_iff.mp hdoc
    -- the tiles found have a name at their level, so `aggregateTiles` does not stop at `xx`
    have hnamed : ∀ doc ∈ sort.sort (db.toAggregate i), doc.key i ≠ xx := by
      intro doc hdoc
      obtain ⟨hd, hopen⟩ := List.mem_filter.mp (hmem doc hdoc)
      have hl : doc.level = i := by
        simp only [Bool.and_eq_true, beq_iff_eq] at hopen
        exact hopen.1.1
      have hname := hforest.named doc hd (by omega)
      rwa [hl] at hname
    have hfound : Aggregable i (sort.sort (db.toAggregate i)) db := Aggregable.found db sort i
    obtain ⟨hok, hrun, hfirst⟩ := aggregated_aggregateTiles threshold hi hp hfound hnamed
      (db.uncancelledBeneath i) (db.leavesDownTo i)
    refine ⟨hok, hrun, ?_⟩
    cases hdocs : sort.sort (db.toAggregate i) with
    | nil =>
      have hnone : db.toAggregate i = [] := (hdocs ▸ sort.perm _).symm.eq_nil
      exact Or.inr ⟨rfl, fun _ => hnone⟩
    | cons doc docs =>
      rw [hdocs] at hmem hfirst
      -- the first tile alone is progress, and the tiles after it take nothing back
      have hlt := Db.unaggregated_aggregate_lt hp.layered.oneDocumentEach hi
        (hmem doc List.mem_cons_self)
      exact Or.inl ((hfirst doc rfl).unaggregated_le.trans_lt hlt)
  · rw [if_neg hagg]
    exact ⟨rfl, .refl hp, Or.inr ⟨rfl, fun h => absurd h hagg⟩⟩

/-- A turn aggregates something, or has nothing to do at both levels. -/
theorem aggregated_tesselateLevels (hp : db.Partitioned) (hforest : db.Forest)
    (sorts : ℕ → CounterSort) (nLeaf : ℤ) :
    let r := (tesselateLevels threshold sorts (List.range' 0 2) nLeaf).run db
    r.1 = some r.2.leaves ∧ db.Aggregated r.2 ∧
      (r.2.unaggregated < db.unaggregated ∨ ∀ i < 2, db.Settled threshold i) := by
  obtain ⟨hok, hzero, hprogress⟩ := aggregated_tesselateLevel threshold
    Nat.two_pos hp hforest (sorts 0)
  obtain ⟨hok', hone, hprogress'⟩ := aggregated_tesselateLevel threshold
    Nat.one_lt_two hzero.partitioned (hforest.sameCores hzero.sameCores) (sorts 1)
  -- the loop over the levels, unrolled: level 0 first, then level 1 in the state that leaves
  have hrun : (tesselateLevels threshold sorts (List.range' 0 2) nLeaf).run db =
      (some ((tesselateLevel threshold (sorts 1) 1).run
        ((tesselateLevel threshold (sorts 0) 0).run db).2).2.leaves,
        ((tesselateLevel threshold (sorts 1) 1).run
          ((tesselateLevel threshold (sorts 0) 0).run db).2).2) := by
    rw [show List.range' 0 2 = [0, 1] from rfl, run_tesselateLevels_cons, if_pos hok,
      run_tesselateLevels_cons, if_pos hok']
    rfl
  dsimp only
  rw [hrun]
  refine ⟨rfl, hzero.trans hone, ?_⟩
  -- without progress at level 0 the second level starts from `db` itself
  rcases hprogress with hlt | ⟨hsame, hsettled⟩
  · exact Or.inl (hone.unaggregated_le.trans_lt hlt)
  · rw [hsame] at hprogress' ⊢
    rcases hprogress' with hlt | ⟨-, hsettled'⟩
    · exact Or.inl hlt
    · refine Or.inr fun i hi => ?_
      match i with
      | 0 => exact hsettled
      | 1 => exact hsettled'
      | i + 2 => omega

variable {threshold}

/-- **Too many roots**: the outer loop never ends. -/
theorem tesselationLoop_running (hp : db.Partitioned) (hforest : db.Forest)
    (hroots : threshold < db.roots) (sorts : ℕ → ℕ → CounterSort) (n : ℕ) :
    ((tesselationLoop threshold sorts n db.leaves).run db).1 = .running := by
  induction n generalizing db with
  | zero =>
    rw [tesselationLoop, if_pos (hroots.trans_le (Db.roots_le_leaves hp hforest))]
    rfl
  | succ n ih =>
    have hgt : db.leaves > threshold := hroots.trans_le (Db.roots_le_leaves hp hforest)
    obtain ⟨hok, hturn, -⟩ := aggregated_tesselateLevels threshold hp hforest (sorts n) db.leaves
    rw [run_tesselationLoop_succ sorts n hgt, hok]
    refine ih hturn.partitioned (hforest.sameCores hturn.sameCores) ?_
    rwa [Db.roots_sameCores hturn.sameCores]

/-- **Few enough roots**: there are no more turns than tiles to aggregate. -/
theorem tesselationLoop_returned (hp : db.Partitioned) (hforest : db.Forest)
    (hroots : db.roots ≤ threshold) (sorts : ℕ → ℕ → CounterSort) {n : ℕ}
    (hn : db.unaggregated ≤ n) :
    ((tesselationLoop threshold sorts n db.leaves).run db).1 = .returned := by
  -- by induction on the bound: a turn that is needed lowers what can be aggregated
  induction n generalizing db with
  | zero =>
    have hle : db.leaves ≤ threshold := by
      refine Db.leaves_le_of_settled hp hforest hroots fun i hi _ => ?_
      have hnone := List.countP_eq_zero.mp (Nat.le_zero.mp hn)
      refine List.filter_eq_nil_iff.mpr fun d hd hopen => hnone d hd ?_
      simp only [Bool.and_eq_true, beq_iff_eq] at hopen
      simp [TileDoc.unaggregated, hopen, hi]
    rw [tesselationLoop, if_neg (not_lt.mpr hle)]
    rfl
  | succ n ih =>
    by_cases hgt : db.leaves > threshold
    · obtain ⟨hok, hturn, hprogress⟩ :=
        aggregated_tesselateLevels threshold hp hforest (sorts n) db.leaves
      rw [run_tesselationLoop_succ sorts n hgt, hok]
      refine ih hturn.partitioned (hforest.sameCores hturn.sameCores) ?_ ?_
      · rwa [Db.roots_sameCores hturn.sameCores]
      · rcases hprogress with hlt | hsettled
        · omega
        · exact absurd (Db.leaves_le_of_settled hp hforest hroots hsettled) (not_le.mpr hgt)
    · rw [tesselationLoop, if_neg hgt]
      rfl

end Loops

/-! ### The function -/

section Halt

variable {threshold : ℤ} {db : Db}

/-- The tessellation starts with the leaves it counts. -/
theorem run_constrainedTesselation (sorts : ℕ → ℕ → CounterSort) (bound : ℕ) (db : Db) :
    (constrainedTesselation threshold sorts bound).run db =
      (tesselationLoop threshold sorts bound db.leaves).run db := rfl

/-- The leaves are the level-2 tiles once the collection has been reset. -/
theorem leaves_resetFullTileDB (db : Db) : (resetFullTileDB.run db).2.leaves = db.finest := by
  have hreset : (resetFullTileDB.run db).2.fullTileCollection = db.fullTileCollection.map fun d =>
      { d with leaf := d.level == 2, cancelled := false } := by
    change updateMany _ _ (updateMany _ _ db.fullTileCollection) = _
    unfold updateMany
    rw [List.map_map]
    refine List.map_congr_left fun d _ => ?_
    by_cases hl : d.level = 2 <;> simp [hl, maxTessellationLevel]
  unfold Db.leaves Db.finest
  rw [hreset, List.countP_map]
  rfl

/-- With few enough level-2 tiles the loop does not begin. -/
theorem returned_of_finest_le (hfinest : db.finest ≤ threshold) (sorts : ℕ → ℕ → CounterSort)
    (bound : ℕ) :
    ((constrainedTesselation threshold sorts bound).run
      (resetFullTileDB.run db).2).1 = .returned := by
  rw [run_constrainedTesselation, leaves_resetFullTileDB]
  cases bound with
  | zero =>
    rw [tesselationLoop, if_neg (not_lt.mpr hfinest)]
    rfl
  | succ bound =>
    rw [tesselationLoop, if_neg (not_lt.mpr hfinest)]
    rfl

/-- On a forest with too many roots the tessellation runs for ever. -/
theorem Db.Forest.running (h : db.Forest) (hroots : threshold < db.roots)
    (sorts : ℕ → ℕ → CounterSort) (bound : ℕ) :
    ((constrainedTesselation threshold sorts bound).run
      (resetFullTileDB.run db).2).1 = .running := by
  have hs := Db.rebuildFrame_sameCores.resetFullTileDB db
  rw [run_constrainedTesselation]
  refine tesselationLoop_running (Db.partitioned_resetFullTileDB h.toLayered)
    (h.sameCores hs) ?_ sorts bound
  rwa [Db.roots_sameCores hs]

/-- On any other forest it comes to an end, in a number of turns known beforehand. -/
theorem Db.Forest.returned (h : db.Forest) (hroots : db.roots ≤ threshold)
    (sorts : ℕ → ℕ → CounterSort) :
    ((constrainedTesselation threshold sorts (resetFullTileDB.run db).2.unaggregated).run
      (resetFullTileDB.run db).2).1 = .returned := by
  have hs := Db.rebuildFrame_sameCores.resetFullTileDB db
  rw [run_constrainedTesselation]
  refine tesselationLoop_returned (Db.partitioned_resetFullTileDB h.toLayered)
    (h.sameCores hs) ?_ sorts le_rfl
  rwa [Db.roots_sameCores hs]

/-- So an insertion that has to rebuild the index of a forest does not hang if and only if its
roots are few enough. -/
theorem Db.Forest.tesselationReturns_iff (h : db.Forest) (sorts : ℕ → ℕ → CounterSort) :
    db.TesselationReturns threshold sorts ↔ db.roots ≤ threshold := by
  refine ⟨fun ⟨bound, hreturned⟩ => ?_, fun hroots => ⟨_, h.returned hroots sorts⟩⟩
  by_contra hgt
  rw [h.running (not_le.mp hgt) sorts bound] at hreturned
  exact absurd hreturned (by decide)

/-- What insertions make has one root for each level-0 tile with an object in it. -/
theorem Counts.roots_eq {live : List Str} (h : Counts live db) :
    db.roots = (live.toFinset.image name100Of).card := by
  -- no level-1 tile is a root
  have hroot : ∀ d ∈ db.fullTileCollection, db.isRoot d = true ↔ d.level = 0 := by
    intro d hd
    rw [Db.isRoot_iff]
    refine ⟨fun hd' => hd'.resolve_right ?_, Or.inl⟩
    rintro ⟨hl, hnone⟩
    obtain ⟨t, ht, htl, hkey⟩ := h.forest.exists_two hd
    obtain ⟨e, he, hel, hname⟩ := h.completeTree.parent t ht htl 0 Nat.two_pos
    have hfound : db.hasZero d.name100 = true :=
      Db.hasZero_iff.mpr ⟨e, he, hel, hname.trans (hkey 0 (Nat.zero_le _)).symm⟩
    rw [hnone] at hfound
    exact absurd hfound Bool.false_ne_true
  let docs := db.fullTileCollection.filter db.isRoot
  have hnodup : (docs.map TileDoc.name100).Nodup := by
    have hone := h.forest.oneDocumentEach.sublist
      ((List.filter_sublist (p := db.isRoot)).map _)
    refine List.Nodup.of_map (fun n => (0, n)) ?_
    rw [List.map_map]
    refine (List.map_congr_left fun d hd => ?_) ▸ hone
    obtain ⟨hd, hl⟩ := List.mem_filter.mp hd
    rw [(hroot d hd).mp hl]
    rfl
  have hnames : (docs.map TileDoc.name100).toFinset = live.toFinset.image name100Of := by
    ext n
    rw [List.mem_toFinset, List.mem_map, ← not_iff_not, ← h.tiles_zero_eq_nil_iff,
      List.eq_nil_iff_forall_not_mem, not_exists]
    refine forall_congr' fun d => not_congr ?_
    rw [List.mem_filter, Db.mem_tiles_iff]
    constructor
    · rintro ⟨⟨hd, hl⟩, hname⟩
      exact ⟨hd, hname, (hroot d hd).mp hl⟩
    · rintro ⟨hd, hname, hl⟩
      exact ⟨⟨hd, (hroot d hd).mpr hl⟩, hname⟩
  rw [← hnames, List.toFinset_card_of_nodup hnodup, List.length_map]
  exact List.countP_eq_length_filter

/-- So a repository without deletions needs a threshold of as many leaves as it has level-0 tiles
with objects. -/
theorem Counts.tesselationReturns_iff {live : List Str} (h : Counts live db)
    (sorts : ℕ → ℕ → CounterSort) :
    db.TesselationReturns threshold sorts ↔
      ((live.toFinset.image name100Of).card : ℤ) ≤ threshold := by
  rw [h.forest.tesselationReturns_iff sorts, h.roots_eq]

end Halt

section Examples

/-- The tile of an object. -/
private def tileAt (x y : ℚ) : Str := calculateLATLONName x y 2

/-- Two objects in one level-0 tile; the first is deleted again, which takes the document of that
tile along, and a third one is inserted elsewhere. -/
private def cutTiles : Db :=
  let two := (Db.empty.insertObject (tileAt (1234 / 100) (418 / 10))).insertObject
    (tileAt (1244 / 100) (418 / 10))
  (two.deleteObject (tileAt (1234 / 100) (418 / 10))).insertObject (tileAt (1334 / 100) (418 / 10))

/-- The tiles that deletions leave in the example are a forest. -/
private theorem forest_cutTiles : cutTiles.Forest where
  oneDocumentEach := by decide +kernel
  level_le := by decide +kernel
  nested := by decide +kernel
  parent := by decide +kernel
  beneath := by decide +kernel
  named := by decide +kernel

/-- The tiles of two objects, in one level-0 tile each. -/
private def farTiles : Db :=
  (Db.empty.insertObject (tileAt (1234 / 100) (418 / 10))).insertObject
    (tileAt (2234 / 100) (418 / 10))

end Examples

end OpenGeoBase
