import OpenGeoBase.Lib.Transition
import OpenGeoBase.Repo.IndexUpdate

/-!
# The tessellation keeps an exact cover

The leaves are to partition the level-2 tiles: each of them has exactly one leaf among
itself and the tiles around it (`Db.ExactCover`), and a tile is cancelled if and only if a
tile around it is a leaf (`Db.CancelledBelowLeaves`). For tiles in layers (`Db.Layered`), as
those of a complete tree are (`Db.CompleteTree`), both hold after `resetFullTileDB`, and one
aggregation keeps them together (`Partitioned.aggregate`): the tile it makes a leaf is not
cancelled, so no tile around it is a leaf, and every leaf beneath it goes.

`tesselation` is the control flow of `constrainedTesselation`, one step for each turn of
its loops, with the ties of each sort broken in any way. It need not end. Its
invariant is `Partitioned`, together with what the control is waiting for:
the tiles that are still to be aggregated are there and not cancelled.
-/

namespace OpenGeoBase

open Text AtomicCalls Collection Transition

namespace Db

/-- Tiles in layers: one document for each tile, and what lies in one level-1 tile lies in one
level-0 tile. -/
structure Layered (db : Db) : Prop where
  oneDocumentEach : db.OneDocumentEach
  level_le : ∀ d ∈ db.fullTileCollection, d.level ≤ maxTessellationLevel
  nested : ∀ d ∈ db.fullTileCollection, ∀ e ∈ db.fullTileCollection, d.level = 2 →
    e.level = 1 → e.name10 = d.name10 → e.name100 = d.name100

/-- A complete tree of tiles: around each level-2 tile there is one of each upper level. -/
structure CompleteTree (db : Db) : Prop extends db.Layered where
  parent : ∀ d ∈ db.fullTileCollection, d.level = 2 → ∀ l < 2,
    ∃ e ∈ db.fullTileCollection, e.level = l ∧ e.key l = d.key l

/-- Each level-2 document has exactly one leaf among itself, its level-1 and its level-0
document. -/
def ExactCover (db : Db) : Prop :=
  ∀ d ∈ db.fullTileCollection, d.level = 2 → ∃! e, e ∈ db.fullTileCollection ∧ e.Shelters d

/-- A document is cancelled if and only if a strict ancestor of it is a leaf. -/
def CancelledBelowLeaves (db : Db) : Prop :=
  ∀ d ∈ db.fullTileCollection, d.cancelled = true ↔
    ∃ e ∈ db.fullTileCollection, e.level < d.level ∧ e.Shelters d

/-- The number of leaves. -/
def leaves (db : Db) : ℤ := db.fullTileCollection.countP (·.leaf)

/-- Tiles in layers that the leaves among them partition. -/
structure Partitioned (db : Db) : Prop where
  layered : db.Layered
  cover : db.ExactCover
  cancelled : db.CancelledBelowLeaves

end Db

/-! ### Tiles in layers -/

namespace Db

variable {db db' : Db} {d e : TileDoc}

/-- Two documents under one name are the same. -/
theorem OneDocumentEach.eq (h : db.OneDocumentEach) (hd : d ∈ db.fullTileCollection)
    (he : e ∈ db.fullTileCollection) (hl : e.level = d.level)
    (hkey : e.key e.level = d.key e.level) : e = d := by
  refine List.inj_on_of_nodup_map h he hd ?_
  rw [Prod.mk.injEq]
  exact ⟨hl, by rw [hkey, hl]⟩

/-- A predicate that only one tile can meet selects one document at most. -/
theorem OneDocumentEach.length_filter_le (h : db.OneDocumentEach) {p : TileDoc → Bool} {l : ℕ}
    {n : Str} (hp : ∀ d, p d → d.isTile l n) :
    (db.fullTileCollection.filter p).length ≤ 1 := by
  have hnodup := h.sublist ((List.filter_sublist (p := p)).map _)
  have hall : ∀ x ∈ (db.fullTileCollection.filter p).map fun d => (d.level, d.key d.level),
      x = (l, n) := by
    intro x hx
    obtain ⟨d, hd, rfl⟩ := List.mem_map.mp hx
    obtain ⟨hkey, hl⟩ := TileDoc.isTile_iff.mp (hp d (List.mem_filter.mp hd).2)
    rw [hl, hkey]
  rw [List.eq_replicate_of_mem hall, List.nodup_replicate] at hnodup
  simpa using hnodup

namespace Layered

variable (h : db.Layered)

include h

/-- What lies in a tile lies in the tiles around that one. -/
theorem key_eq (hd : d ∈ db.fullTileCollection) (he : e ∈ db.fullTileCollection)
    (hle : e.level ≤ d.level) (hkey : e.key e.level = d.key e.level) {i : ℕ}
    (hi : i ≤ e.level) : e.key i = d.key i := by
  have hd2 : d.level ≤ 2 := h.level_le d hd
  rcases Nat.lt_or_ge e.level d.level with hlt | hge
  · match hl : e.level with
    | 0 =>
      obtain rfl : i = 0 := by omega
      rw [hl] at hkey
      exact hkey
    | 1 =>
      rw [hl] at hkey
      match i with
      | 0 => exact h.nested d hd e he (by omega) hl hkey
      | 1 => exact hkey
      | i + 2 => omega
    | l + 2 => omega
  · rw [h.oneDocumentEach.eq hd he (by omega) hkey]

/-- Layers are seen from the cores. -/
theorem sameCores (hs : db.SameCores db') : db'.Layered where
  -- each part is read off the cores: level and names, which no flag touches
  oneDocumentEach := by
    have hmap : ∀ c : List TileDoc, c.map (fun d => (d.level, d.key d.level)) =
        (c.map TileDoc.core).map fun d => (d.level, d.key d.level) := by
      intro c
      rw [List.map_map]
      refine List.map_congr_left fun d _ => ?_
      exact Prod.ext rfl (TileDoc.key_congr (d := d.core) (e := d) rfl _)
    have hone := h.oneDocumentEach
    unfold OneDocumentEach at hone ⊢
    rw [hmap, hs, ← hmap]
    exact hone
  level_le d hd := by
    obtain ⟨e, he, hcore⟩ := hs.exists_mem hd
    rw [← TileDoc.level_congr hcore]
    exact h.level_le e he
  nested d hd e he hdl hel hname := by
    obtain ⟨d₀, hd₀, hdcore⟩ := hs.exists_mem hd
    obtain ⟨e₀, he₀, hecore⟩ := hs.exists_mem he
    have h10 : e₀.name10 = d₀.name10 :=
      (TileDoc.key_congr hecore 1).trans (hname.trans (TileDoc.key_congr hdcore 1).symm)
    have h100 := h.nested d₀ hd₀ e₀ he₀ (by rw [TileDoc.level_congr hdcore, hdl])
      (by rw [TileDoc.level_congr hecore, hel]) h10
    calc
      e.name100 = e₀.name100 := (TileDoc.key_congr hecore 0).symm
      _ = d₀.name100 := h100
      _ = d.name100 := TileDoc.key_congr hdcore 0

end Layered

end Db

/-! ### One aggregation -/

/-- What the aggregation of a tile does to a document of a complete tree. -/
def TileDoc.aggregated (i : ℕ) (name : Str) (d : TileDoc) : TileDoc :=
  if d.isTile i name && !d.cancelled then { d with leaf := true }
  else if d.key i == name && decide (i < d.level) then { d with leaf := false, cancelled := true }
  else d

namespace TileDoc

variable {i : ℕ} {name : Str} {d : TileDoc}

/-- An aggregation keeps the core of every document. -/
theorem core_aggregated (i : ℕ) (name : Str) (d : TileDoc) :
    (d.aggregated i name).core = d.core := by
  unfold aggregated
  split
  · rfl
  · split <;> rfl

theorem level_aggregated : (d.aggregated i name).level = d.level :=
  level_congr (core_aggregated i name d)

theorem key_aggregated (j : ℕ) : (d.aggregated i name).key j = d.key j :=
  key_congr (core_aggregated i name d) j

/-- The aggregated tile becomes a leaf. -/
theorem aggregated_self (ht : d.isTile i name) (hc : d.cancelled = false) :
    d.aggregated i name = { d with leaf := true } := by
  unfold aggregated
  rw [if_pos (by simp [ht, hc])]

/-- The tiles beneath an aggregated one are cancelled. -/
theorem aggregated_beneath (hkey : d.key i = name) (hlt : i < d.level) :
    d.aggregated i name = { d with leaf := false, cancelled := true } := by
  have ht : d.isTile i name = false := by
    simp [isTile, hlt.ne']
  unfold aggregated
  rw [ht, Bool.false_and, if_neg Bool.false_ne_true, if_pos (by simp [hkey, hlt])]

/-- A document that neither is the tile nor lies beneath it stays as it is. -/
theorem aggregated_of_not (ht : ¬d.isTile i name) (hb : ¬(d.key i = name ∧ i < d.level)) :
    d.aggregated i name = d := by
  unfold aggregated
  rw [if_neg (by simp [ht]), if_neg (by simpa using hb)]

/-- What an aggregation leaves a leaf is the tile itself, or was a leaf and is not touched. -/
theorem leaf_aggregated (h : (d.aggregated i name).leaf = true) :
    d.isTile i name ∨ (d.leaf = true ∧ ¬(d.key i = name ∧ i < d.level)) := by
  by_cases ht : d.isTile i name
  · exact Or.inl ht
  · by_cases hb : d.key i = name ∧ i < d.level
    · rw [aggregated_beneath hb.1 hb.2] at h
      exact absurd h Bool.false_ne_true
    · rw [aggregated_of_not ht hb] at h
      exact Or.inr ⟨h, hb⟩

end TileDoc

namespace Db

variable {db : Db} {i : ℕ} {name : Str}

/-- An aggregation changes the collection document by document. -/
theorem docs_aggregate (h : db.OneDocumentEach) :
    (db.aggregate i name).fullTileCollection =
      db.fullTileCollection.map (TileDoc.aggregated i name) := by
  have hone : (db.fullTileCollection.filter fun d => d.isTile i name && !d.cancelled).length ≤ 1 :=
    h.length_filter_le fun d hd => (Bool.and_eq_true _ _ ▸ hd).1
  unfold aggregate mapTiles
  dsimp only
  rw [updateOne_eq_updateMany hone]
  unfold updateMany
  rw [List.map_map]
  refine List.map_congr_left fun d _ => ?_
  unfold TileDoc.aggregated
  rw [Function.comp_apply]
  by_cases ht : (d.isTile i name && !d.cancelled) = true
  · -- the tile itself does not lie beneath itself
    have hl : d.level = i := (TileDoc.isTile_iff.mp (Bool.and_eq_true _ _ ▸ ht).1).2
    rw [if_pos ht, if_pos ht, if_neg (by simp [hl])]
  · rw [if_neg ht, if_neg ht]

namespace Partitioned

variable (h : db.Partitioned)

include h

/-- The leaf over a level-2 document is the only one at or above it. -/
theorem shelter_unique {d e e' : TileDoc} (hd : d ∈ db.fullTileCollection) (hl : d.level = 2)
    (he : e ∈ db.fullTileCollection) (hs : e.Shelters d) (he' : e' ∈ db.fullTileCollection)
    (hs' : e'.Shelters d) : e = e' := by
  obtain ⟨u, -, hu⟩ := h.cover d hd hl
  rw [hu e ⟨he, hs⟩, hu e' ⟨he', hs'⟩]

variable {a : TileDoc} (ha : a ∈ db.fullTileCollection) (ht : a.isTile i name)
  (hc : a.cancelled = false)

include ha ht hc

/-- A level-2 document in the aggregated tile has that tile for its leaf. -/
theorem cover_beneath {d : TileDoc} (hd : d ∈ db.fullTileCollection) (hl : d.level = 2)
    (hi : i < 2) (hname : d.key i = name) :
    ∃! e, e ∈ db.fullTileCollection.map (TileDoc.aggregated i name) ∧
      e.Shelters (d.aggregated i name) := by
  obtain ⟨hakey, hal⟩ := TileDoc.isTile_iff.mp ht
  have hga := TileDoc.aggregated_self ht hc
  -- the aggregated tile shelters it; any other leaf over it would be a second document or above
  refine ⟨a.aggregated i name, ⟨List.mem_map_of_mem ha, ?_, ?_⟩, ?_⟩
  · rw [hga]
  · rw [TileDoc.level_aggregated, TileDoc.key_aggregated, TileDoc.key_aggregated, hal, hakey, hname]
  · rintro e' ⟨he', hleaf, hkey⟩
    obtain ⟨e, he, rfl⟩ := List.mem_map.mp he'
    rw [TileDoc.level_aggregated, TileDoc.key_aggregated, TileDoc.key_aggregated] at hkey
    have hel : e.level ≤ d.level := by
      rw [hl]
      exact h.layered.level_le e he
    rcases TileDoc.leaf_aggregated hleaf with hte | ⟨hleaf, hnot⟩
    · -- the tile has one document
      obtain ⟨hekey, hel'⟩ := TileDoc.isTile_iff.mp hte
      rw [h.layered.oneDocumentEach.eq ha he (by rw [hel', hal]) (by rw [hel', hekey, hakey])]
    · rcases Nat.lt_or_ge e.level i with hlt | hge
      · -- a leaf above the tile would have cancelled it
        have hover : e.key e.level = a.key e.level := by
          have had : a.key e.level = d.key e.level :=
            h.layered.key_eq hd ha (by omega) (by rw [hal, hakey, hname]) (by omega)
          rw [hkey, had]
        have hcanc := (h.cancelled a ha).mpr ⟨e, he, by omega, hleaf, hover⟩
        rw [hc] at hcanc
        exact absurd hcanc Bool.false_ne_true
      · have hei : e.key i = name := by
          rw [h.layered.key_eq hd he hel hkey hge, hname]
        rcases Nat.eq_or_lt_of_le hge with heq | hlt
        · rw [h.layered.oneDocumentEach.eq ha he (by omega) (by rw [← heq, hei, hakey])]
        · exact absurd ⟨hei, hlt⟩ hnot

omit ha ht hc in
/-- A level-2 document outside the aggregated tile keeps the leaf it has. -/
theorem cover_apart {d : TileDoc} (hd : d ∈ db.fullTileCollection) (hl : d.level = 2)
    (hname : d.key i ≠ name) :
    ∃! e, e ∈ db.fullTileCollection.map (TileDoc.aggregated i name) ∧
      e.Shelters (d.aggregated i name) := by
  have hgd : d.aggregated i name = d :=
    TileDoc.aggregated_of_not (fun htd => hname (TileDoc.isTile_iff.mp htd).1) fun hb => hname hb.1
  -- no document that shares its names with `d` is touched
  have hsame : ∀ e ∈ db.fullTileCollection, e.key e.level = d.key e.level →
      e.aggregated i name = e := by
    intro e he hkey
    have hel : e.level ≤ d.level := by
      rw [hl]
      exact h.layered.level_le e he
    refine TileDoc.aggregated_of_not (fun hte => hname ?_) fun hb => hname ?_
    · obtain ⟨hekey, hel'⟩ := TileDoc.isTile_iff.mp hte
      rw [← hekey, ← hel', hkey]
    · rw [← h.layered.key_eq hd he hel hkey hb.2.le, hb.1]
  obtain ⟨u, ⟨hu, hus⟩, huniq⟩ := h.cover d hd hl
  rw [hgd]
  refine ⟨u, ⟨List.mem_map.mpr ⟨u, hu, hsame u hu hus.2⟩, hus⟩, ?_⟩
  rintro e' ⟨he', hleaf, hkey⟩
  obtain ⟨e, he, rfl⟩ := List.mem_map.mp he'
  rw [TileDoc.level_aggregated, TileDoc.key_aggregated] at hkey
  rw [hsame e he hkey] at hleaf ⊢
  exact huniq e ⟨he, hleaf, hkey⟩

/-- A document is cancelled after the aggregation if and only if it has a leaf above it. -/
theorem cancelled_aggregated {d : TileDoc} (hd : d ∈ db.fullTileCollection) :
    (d.aggregated i name).cancelled = true ↔
      ∃ e ∈ db.fullTileCollection.map (TileDoc.aggregated i name),
        e.level < (d.aggregated i name).level ∧ e.Shelters (d.aggregated i name) := by
  obtain ⟨hakey, hal⟩ := TileDoc.isTile_iff.mp ht
  have hga := TileDoc.aggregated_self ht hc
  by_cases hb : d.key i = name ∧ i < d.level
  · -- beneath the tile
    rw [TileDoc.aggregated_beneath hb.1 hb.2]
    refine iff_of_true rfl ⟨a.aggregated i name, List.mem_map_of_mem ha, ?_, ?_, ?_⟩
    · rw [TileDoc.level_aggregated, hal]
      exact hb.2
    · rw [hga]
    · rw [TileDoc.level_aggregated, TileDoc.key_aggregated, hal, hakey]
      exact hb.1.symm
  -- elsewhere the aggregation leaves the mark as it is
  · have hcanc : (d.aggregated i name).cancelled = d.cancelled := by
      by_cases htd : d.isTile i name
      · unfold TileDoc.aggregated
        split
        · rfl
        · rw [if_neg (by simpa using hb)]
      · rw [TileDoc.aggregated_of_not htd hb]
    rw [hcanc, h.cancelled d hd]
    constructor
    · rintro ⟨e, he, hlt, hleaf, hkey⟩
      refine ⟨e.aggregated i name, List.mem_map_of_mem he, ?_, ?_, ?_⟩
      · rw [TileDoc.level_aggregated, TileDoc.level_aggregated]
        exact hlt
      · -- were the leaf beneath the tile, then `d` would be
        have heb : ¬(e.key i = name ∧ i < e.level) := by
          rintro ⟨hei, hlt'⟩
          refine hb ⟨?_, hlt'.trans hlt⟩
          rw [← h.layered.key_eq hd he hlt.le hkey hlt'.le, hei]
        unfold TileDoc.aggregated
        split
        · rfl
        · rw [if_neg (by simpa using heb)]
          exact hleaf
      · rw [TileDoc.level_aggregated, TileDoc.key_aggregated, TileDoc.key_aggregated]
        exact hkey
    · rintro ⟨e', he', hlt, hleaf, hkey⟩
      obtain ⟨e, he, rfl⟩ := List.mem_map.mp he'
      rw [TileDoc.level_aggregated, TileDoc.level_aggregated] at hlt
      rw [TileDoc.level_aggregated, TileDoc.key_aggregated, TileDoc.key_aggregated] at hkey
      -- the new leaf is the tile itself, and `d` is not beneath it
      rcases TileDoc.leaf_aggregated hleaf with hte | ⟨hleaf, -⟩
      · obtain ⟨hekey, hel⟩ := TileDoc.isTile_iff.mp hte
        refine absurd ⟨?_, by omega⟩ hb
        rw [← hekey, ← hel, hkey]
      · exact ⟨e, he, hlt, hleaf, hkey⟩

omit ha ht hc in
/-- **An aggregation keeps the partition.** -/
theorem aggregate (hi : i < 2)
    (hfound : ∃ a ∈ db.fullTileCollection, (a.isTile i name && !a.cancelled) = true) :
    (db.aggregate i name).Partitioned := by
  obtain ⟨a, ha, hp⟩ := hfound
  have ht : a.isTile i name = true := (Bool.and_eq_true _ _ ▸ hp).1
  have hc : a.cancelled = false := by simpa [ht] using hp
  have hdocs : (db.aggregate i name).fullTileCollection =
      db.fullTileCollection.map (TileDoc.aggregated i name) :=
    docs_aggregate h.layered.oneDocumentEach
  refine ⟨?_, ?_, ?_⟩
  · exact h.layered.sameCores (rebuildFrame_sameCores.aggregateTile i name db)
  · intro d' hd' hl
    rw [hdocs] at hd' ⊢
    obtain ⟨d, hd, rfl⟩ := List.mem_map.mp hd'
    rw [TileDoc.level_aggregated] at hl
    -- beneath the aggregated tile its cover becomes that tile, elsewhere it stays
    by_cases hname : d.key i = name
    · exact h.cover_beneath ha ht hc hd hl hi hname
    · exact h.cover_apart hd hl hname
  · intro d' hd'
    rw [hdocs] at hd' ⊢
    obtain ⟨d, hd, rfl⟩ := List.mem_map.mp hd'
    exact h.cancelled_aggregated ha ht hc hd

end Partitioned

/-- **After the reset** the level-2 documents are the leaves, and nothing is cancelled. -/
theorem partitioned_resetFullTileDB (h : db.Layered) :
    (resetFullTileDB.run db).2.Partitioned := by
  have hlayered : (resetFullTileDB.run db).2.Layered :=
    h.sameCores (rebuildFrame_sameCores.resetFullTileDB db)
  -- after the reset the leaves are the level-2 tiles and nothing is cancelled
  have hflags : ∀ d ∈ (resetFullTileDB.run db).2.fullTileCollection,
      d.cancelled = false ∧ (d.leaf = true ↔ d.level = 2) := by
    intro d hd
    obtain ⟨d₁, hd₁, rfl⟩ := mem_updateMany.mp hd
    obtain ⟨d₀, -, rfl⟩ := mem_updateMany.mp hd₁
    by_cases hl : d₀.level = 2
    · simp [hl, maxTessellationLevel]
    · simp [hl, maxTessellationLevel]
  refine ⟨hlayered, ?_, ?_⟩
  · intro d hd hl
    refine ⟨d, ⟨hd, (hflags d hd).2.mpr hl, rfl⟩, ?_⟩
    rintro e ⟨he, hleaf, hkey⟩
    have hel : e.level = 2 := (hflags e he).2.mp hleaf
    exact hlayered.oneDocumentEach.eq hd he (by rw [hel, hl]) hkey
  · intro d hd
    refine iff_of_false (by simp [(hflags d hd).1]) ?_
    rintro ⟨e, he, hlt, hleaf, -⟩
    have hel : e.level = 2 := (hflags e he).2.mp hleaf
    have hdl : d.level ≤ 2 := hlayered.level_le d hd
    omega

end Db

/-! ### The loops, turn by turn -/

/-- Where the tessellation is. -/
inductive TesselationControl where
  /-- At the test of the outer loop. -/
  | outer (nLeaf : ℤ)
  /-- At the test of the loop over the levels. -/
  | inner (i : ℕ) (nLeaf : ℤ)
  /-- At the next tile of a level, with the running estimates. -/
  | tiles (i : ℕ) (docs : List TileDoc) (x y : ℤ)
  | returned
  | exited

/-- How the tessellation has ended. -/
def TesselationControl.ended : TesselationControl → Ended
  | .returned => .returned
  | .exited => .exited
  | _ => .running

/-- A tessellation on its way. -/
structure TesselationState where
  db : Db
  control : TesselationControl

namespace Db

/-- The tiles of the level beneath `i` that are not cancelled. -/
def uncancelledBeneath (i : ℕ) (db : Db) : ℤ :=
  db.fullTileCollection.countP fun d => d.level == i + 1 && !d.cancelled

/-- The leaves down to level `i`, of those not cancelled. -/
def leavesDownTo (i : ℕ) (db : Db) : ℤ :=
  db.fullTileCollection.countP fun d => decide (d.level ≤ i) && d.leaf && !d.cancelled

/-- The tiles of level `i` that can be aggregated. -/
def toAggregate (i : ℕ) (db : Db) : List TileDoc :=
  db.fullTileCollection.filter fun d => d.level == i && !d.cancelled && !d.leaf

end Db

/-- One turn of a loop of `constrainedTesselation`. The label is the sort that a query makes at
this turn. -/
inductive TesselationStep (threshold : ℤ) :
    TesselationState → CounterSort → TesselationState → Prop where
  | enter (db : Db) (nLeaf : ℤ) (sort : CounterSort) (h : nLeaf > threshold) :
    TesselationStep threshold ⟨db, .outer nLeaf⟩ sort ⟨db, .inner 0 nLeaf⟩
  | leave (db : Db) (nLeaf : ℤ) (sort : CounterSort) (h : ¬nLeaf > threshold) :
    TesselationStep threshold ⟨db, .outer nLeaf⟩ sort ⟨db, .returned⟩
  | find (db : Db) (i : ℕ) (nLeaf : ℤ) (sort : CounterSort) (hi : i < maxTessellationLevel)
      (h : db.uncancelledBeneath i + db.leavesDownTo i > threshold) :
    TesselationStep threshold ⟨db, .inner i nLeaf⟩ sort
      ⟨db, .tiles i (sort.sort (db.toAggregate i)) (db.uncancelledBeneath i) (db.leavesDownTo i)⟩
  | skip (db : Db) (i : ℕ) (nLeaf : ℤ) (sort : CounterSort) (hi : i < maxTessellationLevel)
      (h : ¬db.uncancelledBeneath i + db.leavesDownTo i > threshold) :
    TesselationStep threshold ⟨db, .inner i nLeaf⟩ sort ⟨db, .inner (i + 1) db.leaves⟩
  | again (db : Db) (i : ℕ) (nLeaf : ℤ) (sort : CounterSort) (hi : ¬i < maxTessellationLevel) :
    TesselationStep threshold ⟨db, .inner i nLeaf⟩ sort ⟨db, .outer nLeaf⟩
  | exhausted (db : Db) (i : ℕ) (x y : ℤ) (sort : CounterSort) :
    TesselationStep threshold ⟨db, .tiles i [] x y⟩ sort ⟨db, .inner (i + 1) db.leaves⟩
  | exit (db : Db) (i : ℕ) (doc : TileDoc) (docs : List TileDoc) (x y : ℤ) (sort : CounterSort)
      (h : doc.key i = xx) :
    TesselationStep threshold ⟨db, .tiles i (doc :: docs) x y⟩ sort ⟨db, .exited⟩
  | stop (db : Db) (i : ℕ) (doc : TileDoc) (docs : List TileDoc) (x y : ℤ) (sort : CounterSort)
      (h : doc.key i ≠ xx) (hstop : x - doc.children + (y + 1) ≤ threshold) :
    TesselationStep threshold ⟨db, .tiles i (doc :: docs) x y⟩ sort
      ⟨db.aggregate i (doc.key i), .inner (i + 1) (db.aggregate i (doc.key i)).leaves⟩
  | next (db : Db) (i : ℕ) (doc : TileDoc) (docs : List TileDoc) (x y : ℤ) (sort : CounterSort)
      (h : doc.key i ≠ xx) (hnext : ¬x - doc.children + (y + 1) ≤ threshold) :
    TesselationStep threshold ⟨db, .tiles i (doc :: docs) x y⟩ sort
      ⟨db.aggregate i (doc.key i), .tiles i docs (x - doc.children) (y + 1)⟩

/-- `constrainedTesselation` of a collection that has just been reset. -/
def tesselation (threshold : ℤ) (db : Db) : System TesselationState CounterSort where
  init s := s = ⟨(resetFullTileDB.run db).2, .outer (resetFullTileDB.run db).2.leaves⟩
  step := TesselationStep threshold

/-- What the control knows of the database. -/
def TesselationState.Aware (threshold : ℤ) (s : TesselationState) : Prop :=
  match s.control with
  | .outer nLeaf => nLeaf = s.db.leaves
  | .inner _ nLeaf => nLeaf = s.db.leaves
  | .tiles i docs _ _ => i < 2 ∧ Aggregable i docs s.db
  | .returned => s.db.leaves ≤ threshold
  | .exited => True

/-- Each step leaves the leaves a partition. -/
theorem TesselationStep.partitioned {threshold : ℤ} {s s' : TesselationState} {sort : CounterSort}
    (hstep : TesselationStep threshold s sort s') (h : s.db.Partitioned)
    (ha : s.Aware threshold) : s'.db.Partitioned ∧ s'.Aware threshold := by
  cases hstep with
  | enter db nLeaf sort hgt => exact ⟨h, ha⟩
  | leave db nLeaf sort hle =>
    refine ⟨h, ?_⟩
    change nLeaf = db.leaves at ha
    change db.leaves ≤ threshold
    omega
  | find db i nLeaf sort hi hgt => exact ⟨h, hi, Aggregable.found db sort i⟩
  | skip db i nLeaf sort hi hle => exact ⟨h, rfl⟩
  | again db i nLeaf sort hi => exact ⟨h, ha⟩
  | exhausted db i x y sort => exact ⟨h, rfl⟩
  | exit db i doc docs x y sort hxx => exact ⟨h, trivial⟩
  | stop db i doc docs x y sort hxx hstop =>
    exact ⟨h.aggregate ha.1 (ha.2 doc List.mem_cons_self), rfl⟩
  | next db i doc docs x y sort hxx hnext =>
    -- the tiles that remain are still there, and not cancelled
    refine ⟨h.aggregate ha.1 (ha.2 doc List.mem_cons_self), ha.1, ?_⟩
    exact Aggregable.aggregate (fun d hd => ha.2 d (List.mem_cons_of_mem _ hd)) _

/-! ### The function takes these turns -/

section Function

variable {threshold : ℤ} {db₀ db : Db} {h : List (TesselationState × CounterSort)}

/-- The loop over the tiles goes on to the next level, or out of the process. -/
theorem run_aggregateTiles {i : ℕ} {docs : List TileDoc} {x y : ℤ}
    (hrun : Run (tesselation threshold db₀) h ⟨db, .tiles i docs x y⟩) :
    let r := (aggregateTiles threshold i docs x y).run db
    ∃ h', Run (tesselation threshold db₀) h'
      ⟨r.2, if r.1 then .inner (i + 1) r.2.leaves else .exited⟩ := by
  -- one step of the relation for each round of the loop
  induction docs generalizing h db x y with
  | nil => exact ⟨_, hrun.snoc (TesselationStep.exhausted db i x y .stable)⟩
  | cons doc docs ih =>
    intro r
    -- the three ways a round ends: no name, few enough leaves, or the next tile
    by_cases hxx : doc.key i = xx
    · have hr : r = (false, db) := by
        change (aggregateTiles threshold i (doc :: docs) x y).run db = _
        rw [aggregateTiles, if_pos hxx]
        rfl
      rw [hr]
      exact ⟨_, hrun.snoc (TesselationStep.exit db i doc docs x y .stable hxx)⟩
    · have hr : r = (if x - doc.children + (y + 1) ≤ threshold then pure true
          else aggregateTiles threshold i docs (x - doc.children) (y + 1)).run
            (db.aggregate i (doc.key i)) := by
        change (aggregateTiles threshold i (doc :: docs) x y).run db = _
        rw [aggregateTiles, if_neg hxx, Prog.run_bind, run_aggregateTile]
      rw [hr]
      by_cases hstop : x - doc.children + (y + 1) ≤ threshold
      · rw [if_pos hstop]
        exact ⟨_, hrun.snoc (TesselationStep.stop db i doc docs x y .stable hxx hstop)⟩
      · rw [if_neg hstop]
        exact ih (hrun.snoc (TesselationStep.next db i doc docs x y .stable hxx hstop))

/-- A level is gone through when there are too many tiles. -/
theorem run_tesselateLevel_eq (threshold : ℤ) (sort : CounterSort) (i : ℕ) (db : Db) :
    (tesselateLevel threshold sort i).run db =
      if db.uncancelledBeneath i + db.leavesDownTo i > threshold then
        (aggregateTiles threshold i (sort.sort (db.toAggregate i)) (db.uncancelledBeneath i)
          (db.leavesDownTo i)).run db
      else (true, db) := by
  unfold tesselateLevel countTiles findTiles
  rw [Prog.run_bind, Prog.run_bind, Prog.run_query, Prog.run_query, Prog.run_ite, Prog.run_bind,
    Prog.run_query, Prog.run_pure]
  rfl

/-- A level is a stretch of a run. -/
theorem run_tesselateLevel {i : ℕ} {nLeaf : ℤ} (sort : CounterSort) (hi : i < 2)
    (hrun : Run (tesselation threshold db₀) h ⟨db, .inner i nLeaf⟩) :
    let r := (tesselateLevel threshold sort i).run db
    ∃ h', Run (tesselation threshold db₀) h'
      ⟨r.2, if r.1 then .inner (i + 1) r.2.leaves else .exited⟩ := by
  dsimp only
  rw [run_tesselateLevel_eq]
  by_cases hagg : db.uncancelledBeneath i + db.leavesDownTo i > threshold
  · rw [if_pos hagg]
    exact run_aggregateTiles (hrun.snoc (TesselationStep.find db i nLeaf sort hi hagg))
  · rw [if_neg hagg]
    exact ⟨_, hrun.snoc (TesselationStep.skip db i nLeaf sort hi hagg)⟩

/-- The levels follow each other, each with the leaves the one before left. -/
theorem run_tesselateLevels_cons (threshold : ℤ) (sorts : ℕ → CounterSort) (i : ℕ) (is : List ℕ)
    (nLeaf : ℤ) (db : Db) :
    let r := (tesselateLevel threshold (sorts i) i).run db
    (tesselateLevels threshold sorts (i :: is) nLeaf).run db =
      if r.1 then (tesselateLevels threshold sorts is r.2.leaves).run r.2 else (none, r.2) := by
  intro r
  conv_lhs => unfold tesselateLevels countTiles
  rw [Prog.run_bind, Prog.run_ite, Prog.run_bind, Prog.run_query, Prog.run_pure]
  rfl

/-- The loop over the levels goes on to the test of the outer loop, or out of the process. -/
theorem run_tesselateLevels (sorts : ℕ → CounterSort) {k i : ℕ} {nLeaf : ℤ} (hk : i + k = 2)
    (hrun : Run (tesselation threshold db₀) h ⟨db, .inner i nLeaf⟩) :
    let r := (tesselateLevels threshold sorts (List.range' i k) nLeaf).run db
    ∃ h', Run (tesselation threshold db₀) h'
      ⟨r.2, match r.1 with | some nLeaf => .outer nLeaf | none => .exited⟩ := by
  dsimp only
  -- the levels still to do; with none left the outer loop tests again
  induction k generalizing h i db nLeaf with
  | zero =>
    have hi : ¬i < maxTessellationLevel := by
      change ¬i < 2
      omega
    exact ⟨_, hrun.snoc (TesselationStep.again db i nLeaf .stable hi)⟩
  | succ k ih =>
    obtain ⟨h', hlevel⟩ := run_tesselateLevel (sorts i) (by omega) hrun
    rw [List.range'_succ, run_tesselateLevels_cons]
    cases hok : ((tesselateLevel threshold (sorts i) i).run db).1 with
    | false =>
      rw [hok] at hlevel
      exact ⟨h', hlevel⟩
    | true =>
      rw [hok] at hlevel
      exact ih (by omega) hlevel

/-- A turn of the loop goes through the levels and counts the leaves anew. -/
theorem run_tesselationLoop_succ (sorts : ℕ → ℕ → CounterSort) (n : ℕ) {nLeaf : ℤ}
    (hgt : nLeaf > threshold) :
    let r := (tesselateLevels threshold (sorts n) (List.range' 0 2) nLeaf).run db
    (tesselationLoop threshold sorts (n + 1) nLeaf).run db =
      match r.1 with
      | some nLeaf => (tesselationLoop threshold sorts n nLeaf).run r.2
      | none => (.exited, r.2) := by
  intro r
  conv_lhs => unfold tesselationLoop
  rw [if_pos hgt, Prog.run_bind]
  change (match r.1 with
    | some nLeaf => tesselationLoop threshold sorts n nLeaf
    | none => (pure .exited : Prog Db Ended)).run r.2 = _
  cases r.1 <;> rfl

/-- The outer loop is over once there are no more leaves than there may be. -/
theorem run_tesselationLoop_returned (sorts : ℕ → ℕ → CounterSort) {n : ℕ} {nLeaf : ℤ}
    (hrun : Run (tesselation threshold db₀) h ⟨db, .outer nLeaf⟩) (hle : ¬nLeaf > threshold) :
    let r := (tesselationLoop threshold sorts n nLeaf).run db
    ∃ h' c, Run (tesselation threshold db₀) h' ⟨r.2, c⟩ ∧ c.ended = r.1 := by
  have hr : (tesselationLoop threshold sorts n nLeaf).run db = (.returned, db) := by
    cases n with
    | zero =>
      rw [tesselationLoop, if_neg hle]
      rfl
    | succ n =>
      rw [tesselationLoop, if_neg hle]
      rfl
  dsimp only
  rw [hr]
  exact ⟨_, .returned, hrun.snoc (TesselationStep.leave db nLeaf .stable hle), rfl⟩

/-- The loop is a stretch of a run, whatever bound it has. -/
theorem run_tesselationLoop (sorts : ℕ → ℕ → CounterSort) {n : ℕ} {nLeaf : ℤ}
    (hrun : Run (tesselation threshold db₀) h ⟨db, .outer nLeaf⟩) :
    let r := (tesselationLoop threshold sorts n nLeaf).run db
    ∃ h' c, Run (tesselation threshold db₀) h' ⟨r.2, c⟩ ∧ c.ended = r.1 := by
  dsimp only
  -- the bound is only reached while there are too many leaves
  by_cases hgt : nLeaf > threshold
  · induction n generalizing h db nLeaf with
    | zero =>
      refine ⟨h, .outer nLeaf, hrun, ?_⟩
      rw [tesselationLoop, if_pos hgt]
      rfl
    | succ n ih =>
      have henter := hrun.snoc (TesselationStep.enter db nLeaf .stable hgt)
      obtain ⟨h', hlevels⟩ := run_tesselateLevels (sorts n) (k := 2) (by rfl) henter
      rw [run_tesselationLoop_succ sorts n hgt]
      cases hout : ((tesselateLevels threshold (sorts n) (List.range' 0 2) nLeaf).run db).1 with
      | none =>
        rw [hout] at hlevels
        exact ⟨h', .exited, hlevels, rfl⟩
      | some nLeaf' =>
        rw [hout] at hlevels
        by_cases hgt' : nLeaf' > threshold
        · exact ih hlevels hgt'
        · exact run_tesselationLoop_returned sorts hlevels hgt'
  · exact run_tesselationLoop_returned sorts hrun hgt

end Function

/-- The runs of `constrainedTesselation` are made of these turns. -/
theorem exists_run_constrainedTesselation (threshold : ℤ) (sorts : ℕ → ℕ → CounterSort)
    (bound : ℕ) (db : Db) :
    let r := (constrainedTesselation threshold sorts bound).run (resetFullTileDB.run db).2
    ∃ h c, Run (tesselation threshold db) h ⟨r.2, c⟩ ∧ c.ended = r.1 :=
  run_tesselationLoop sorts (Run.nil rfl)

/-- What `constrainedTesselation` leaves behind when it returns. -/
theorem partitioned_constrainedTesselation {threshold : ℤ} {sorts : ℕ → ℕ → CounterSort}
    {bound : ℕ} {db : Db} (htree : db.CompleteTree) :
    ((constrainedTesselation threshold sorts bound).run
      (resetFullTileDB.run db).2).2.Partitioned := by
  obtain ⟨h, c, hrun, -⟩ := exists_run_constrainedTesselation threshold sorts bound db
  have hI := hrun.invariant' (I := fun s => s.db.Partitioned ∧ s.Aware threshold)
    (by rintro s rfl; exact ⟨Db.partitioned_resetFullTileDB htree.toLayered, rfl⟩)
    (fun s sort s' hI hstep => TesselationStep.partitioned hstep hI.1 hI.2)
  exact hI.1

/-! ### Exact cover -/

/-- **Exact cover.** After each turn of the loops of `constrainedTesselation`, run on a complete
tree that has just been reset, each level-2 document has exactly one leaf at or above it, the
cancelled documents are those beneath a leaf, and once it has returned there are at most
`threshold` leaves. -/
theorem exactCover_throughout {threshold : ℤ} {db : Db} (htree : db.CompleteTree)
    {h : List (TesselationState × CounterSort)} {s : TesselationState}
    (hrun : Run (tesselation threshold db) h s) :
    Throughout (fun s => s.db.ExactCover ∧ s.db.CancelledBelowLeaves ∧
      (s.control = .returned → s.db.leaves ≤ threshold)) h s := by
  have hok : Admitted (fun _ _ => True) h := fun _ _ => trivial
  refine hrun.throughout (I := fun s => s.db.Partitioned ∧ s.Aware threshold) ?_ ?_
    (fun s sort s' hI _ hstep => TesselationStep.partitioned hstep hI.1 hI.2) hok
  · rintro s rfl
    exact ⟨Db.partitioned_resetFullTileDB htree.toLayered, rfl⟩
  · rintro ⟨db, control⟩ ⟨hpart, haware⟩
    refine ⟨hpart.cover, hpart.cancelled, ?_⟩
    rintro rfl
    exact haware

section Examples

/-- Two level-2 tiles of one level-1 tile. -/
private def twoTiles : Db :=
  ((shardIndexer 10 [(12341 / 1000, 4180 / 100), (12351 / 1000, 4180 / 100)] false).run
    Db.empty).2

/-- The tiles of the example are a complete tree. -/
private theorem completeTree_twoTiles : twoTiles.CompleteTree where
  oneDocumentEach := by decide +kernel
  level_le := by decide +kernel
  parent := by decide +kernel
  nested := by decide +kernel

/-- With room for one leaf only, the level-1 tile takes over for the two level-2 tiles. -/
theorem exactCover_throughout_twoTiles :
    ∃ h db, Run (tesselation 1 twoTiles) h ⟨db, .returned⟩ ∧ db.leaves = 1 ∧
      Throughout (fun s => s.db.ExactCover ∧ s.db.CancelledBelowLeaves ∧
        (s.control = .returned → s.db.leaves ≤ 1)) h ⟨db, .returned⟩ := by
  obtain ⟨h, c, hrun, hended⟩ :=
    exists_run_constrainedTesselation 1 (fun _ _ => .stable) 1 twoTiles
  have hret : ((constrainedTesselation 1 (fun _ _ => .stable) 1).run
      (resetFullTileDB.run twoTiles).2).1 = .returned := by decide +kernel
  rw [hret] at hended
  cases c with
  | returned =>
    exact ⟨h, _, hrun, by decide +kernel, exactCover_throughout completeTree_twoTiles hrun⟩
  | outer | inner | tiles | exited => exact absurd hended (by simp [TesselationControl.ended])

end Examples

end OpenGeoBase
