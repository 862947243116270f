import OpenGeoBase.Repo.IndexerRun

/-!
# Coverage of the advertised index

A front end finds an object through an advertised name: that of the object's
level-2 tile or of a tile around it. The invariant behind it has two halves. Every
level-2 document has a leaf at its tile or above (`Db.Sheltered`), and every leaf
is advertised (`Db.Advertised`). Insertions and rebuilds keep both.

A deletion keeps them unless it takes the last level-2 tile out of a level-1 tile
and leaves others in the level-0 tile (`KeepsIndex`). `decreaseCounter` then counts
the level-0 tile down twice, and with two level-1 tiles in it removes its document
and its name from the index: if the level-0 tile was the leaf of the other one, that
is stored and no longer advertised (`index_loses_tile`).
-/

namespace OpenGeoBase

open Text AtomicCalls Collection Tally Transition

/-- Every live level-2 document is advertised, by its own name or by one around it. -/
def Db.Covered (db : Db) : Prop :=
  ∀ d ∈ db.fullTileCollection, d.level = 2 → 0 < d.counter →
    d.name1 ∈ db.indexNames ∨ d.name10 ∈ db.indexNames ∨ d.name100 ∈ db.indexNames

instance (db : Db) : Decidable db.Covered :=
  inferInstanceAs (Decidable (∀ d ∈ db.fullTileCollection, d.level = 2 → 0 < d.counter →
    d.name1 ∈ db.indexNames ∨ d.name10 ∈ db.indexNames ∨ d.name100 ∈ db.indexNames))

namespace Db

variable {db db' : Db}

/-- If every tile in use has a leaf over it and leaves are indexed, all are covered. -/
theorem Sheltered.covered (h : db.Sheltered) (ha : db.Advertised) : db.Covered := by
  intro d hd hlevel _
  obtain ⟨e, he, hleaf, hshare⟩ := h d hd hlevel
  have hname : d.key e.level ∈ db.indexNames := by
    rw [← hshare]
    exact ha e he hleaf
  match hl : e.level with
  | 0 =>
    rw [hl] at hname
    exact Or.inr (Or.inr hname)
  | 1 =>
    rw [hl] at hname
    exact Or.inr (Or.inl hname)
  | l + 2 =>
    rw [hl] at hname
    exact Or.inl hname

/-! ### Counting leaves the leaves alone -/

end Db

/-- What a tile document shows of itself, its counts aside. -/
def TileDoc.face (d : TileDoc) : TileDoc := { d with children := 0, counter := 0 }

namespace Db

variable {db db' : Db}

/-- The same documents up to their counts, and the same index. -/
def SameFaces (db db' : Db) : Prop :=
  db'.fullTileCollection.map TileDoc.face = db.fullTileCollection.map TileDoc.face ∧
    db'.indexNames = db.indexNames

/-- Having the same faces is symmetric. -/
theorem SameFaces.symm (h : db.SameFaces db') : db'.SameFaces db := ⟨h.1.symm, h.2.symm⟩

theorem SameFaces.exists_mem (h : db.SameFaces db') {d : TileDoc}
    (hd : d ∈ db'.fullTileCollection) : ∃ e ∈ db.fullTileCollection, e.face = d.face := by
  have hm : d.face ∈ db'.fullTileCollection.map TileDoc.face := List.mem_map_of_mem hd
  rw [h.1] at hm
  exact List.mem_map.mp hm

end Db

section Faces

variable {d e : TileDoc} (h : e.face = d.face)

include h

/-- The face of a document shows its level. -/
theorem TileDoc.level_of_face : e.level = d.level := by
  have hl : e.face.level = d.face.level := by rw [h]
  exact hl

theorem TileDoc.leaf_of_face : e.leaf = d.leaf := by
  have hl : e.face.leaf = d.face.leaf := by rw [h]
  exact hl

/-- The face of a document shows its names. -/
theorem TileDoc.key_of_face (i : ℕ) : e.key i = d.key i := by
  have hkey : ∀ d : TileDoc, d.key i = d.face.key i := fun d => by
    unfold TileDoc.key
    split <;> rfl
  rw [hkey, hkey d, h]

end Faces

namespace Db

variable {db db' : Db}

/-- Whether every tile in use is under a leaf depends on the faces. -/
theorem Sheltered.sameFaces (h : db.Sheltered) (hs : db.SameFaces db') : db'.Sheltered := by
  intro d hd hlevel
  obtain ⟨d₀, hd₀, hface⟩ := hs.exists_mem hd
  obtain ⟨e, he, hleaf, hshare⟩ := h d₀ hd₀ ((TileDoc.level_of_face hface).trans hlevel)
  obtain ⟨e', he', hface'⟩ := hs.symm.exists_mem he
  refine ⟨e', he', (TileDoc.leaf_of_face hface').trans hleaf, ?_⟩
  rw [TileDoc.level_of_face hface', TileDoc.key_of_face hface', hshare, TileDoc.key_of_face hface]

/-- Whether the leaves are indexed depends on the faces, too. -/
theorem Advertised.sameFaces (h : db.Advertised) (hs : db.SameFaces db') : db'.Advertised := by
  intro e he hleaf
  obtain ⟨e₀, he₀, hface⟩ := hs.exists_mem he
  have hname := h e₀ he₀ ((TileDoc.leaf_of_face hface).trans hleaf)
  rw [hs.2]
  unfold TileDoc.indexName at hname ⊢
  rwa [TileDoc.level_of_face hface, TileDoc.key_of_face hface] at hname

/-- Counting up changes no face. -/
theorem sameFaces_growTile (db : Db) (n : Str) (l : ℕ) (b : Bool) :
    db.SameFaces (db.growTile n l b) := by
  refine ⟨map_updateOne (fun d _ => ?_) db.fullTileCollection, rfl⟩
  unfold TileDoc.grow
  split
  · split <;> rfl
  · split <;> rfl

theorem sameFaces_shrinkTile (db : Db) (n : Str) (l : ℕ) :
    db.SameFaces (db.shrinkTile n l) :=
  ⟨map_updateOne (by intros; rfl) db.fullTileCollection, rfl⟩

theorem SameIndex.sameFaces (h : db.SameIndex db') : db.SameFaces db' :=
  ⟨by rw [h.1], by unfold indexNames; rw [h.2]⟩

/-! ### New tiles -/

variable {name1 name10 name100 : Str} {l : ℕ} {b : Bool}

/-- A new tile keeps the shelter if it is a leaf or has one over it. -/
theorem Sheltered.createTile (h : db.Sheltered)
    (hnew : l = 2 → b = true ∨ ∃ e ∈ db.fullTileCollection,
      e.Shelters (tileDocument name1 name10 name100 l b)) :
    (db.createTile name1 name10 name100 l b).Sheltered := by
  intro d hd hlevel
  rcases mem_insertOne.mp hd with hd | rfl
  · obtain ⟨e, he, hshelter⟩ := h d hd hlevel
    exact ⟨e, mem_insertOne.mpr (Or.inl he), hshelter⟩
  · rcases hnew hlevel with rfl | ⟨e, he, hshelter⟩
    · exact ⟨_, hd, rfl, rfl⟩
    · exact ⟨e, mem_insertOne.mpr (Or.inl he), hshelter⟩

/-- Creating a tile keeps the leaves indexed, as only level 2 creates leaves. -/
theorem Advertised.createTile (h : db.Advertised) (hb : b = true → l = 2) :
    (db.createTile name1 name10 name100 l b).Advertised := by
  intro e he hleaf
  rcases mem_insertOne.mp he with he | rfl
  · -- a name that was in the index stays
    have hname := h e he hleaf
    unfold indexNames at hname ⊢
    obtain ⟨i, hi, hin⟩ := List.mem_map.mp hname
    refine List.mem_map.mpr ⟨i, ?_, hin⟩
    change i ∈ if b ∧ l = 2 then insertOne ⟨name1, 1000⟩ db.indexCollection
      else db.indexCollection
    split
    · exact mem_insertOne.mpr (Or.inl hi)
    · exact hi
  · -- a new leaf is a level-2 tile, whose name has just been inserted
    obtain rfl : b = true := hleaf
    obtain rfl := hb rfl
    refine List.mem_map.mpr ⟨⟨name1, 1000⟩, mem_insertOne.mpr (Or.inr rfl), rfl⟩

/-- A leaf at a name of the tile is over the new document. -/
theorem shelters_tileDocument {e : TileDoc} (hl : l ≤ 2) (hleaf : e.leaf = true)
    (ht : e.isTile l (levelName name1 name10 name100 l)) :
    e.Shelters (tileDocument name1 name10 name100 2 b) := by
  obtain ⟨hkey, hlevel⟩ := TileDoc.isTile_iff.mp ht
  refine ⟨hleaf, ?_⟩
  rw [hlevel, hkey]
  match l with
  | 0 | 1 | 2 => rfl
  | l + 3 => omega

/-- A leaf found at a tile around a new one is still there when the documents of the new
one are inserted. -/
private theorem exists_shelter (name1 name10 name100 : Str) (hl : l ≤ 2) {d : TileDoc}
    (hd : (db.tiles l (levelName name1 name10 name100 l)).head? = some d)
    (hleaf : d.leaf = true) (hs : db.SameFaces db') (b : Bool) :
    ∃ e ∈ db'.fullTileCollection, e.Shelters (tileDocument name1 name10 name100 2 b) := by
  obtain ⟨hmem, ht⟩ := List.mem_filter.mp (List.mem_of_head? hd)
  obtain ⟨e, he, hface⟩ := hs.symm.exists_mem hmem
  refine ⟨e, he, shelters_tileDocument hl ((TileDoc.leaf_of_face hface).trans hleaf) ?_⟩
  rw [TileDoc.isTile_iff] at ht ⊢
  rwa [TileDoc.key_of_face hface, TileDoc.level_of_face hface]

/-- An insertion keeps every tile in use under a leaf. -/
theorem Sheltered.insertTile (h : db.Sheltered) :
    (db.insertTile name1 name10 name100).Sheltered := by
  unfold Db.insertTile
  -- one case for each tile that may exist; a new tile is a leaf or stands under one
  cases h0 : (db.tiles 0 name100).head? with
  | none =>
    exact ((h.createTile (by omega)).createTile (by omega)).createTile fun _ => Or.inl rfl
  | some d0 =>
    cases h1 : (db.tiles 1 name10).head? with
    | none =>
      have hs := sameFaces_growTile db name100 0 true
      refine ((h.sameFaces hs).createTile (by omega)).createTile fun _ => ?_
      -- the parent is a leaf: it shelters the new tile, otherwise the tile is a leaf itself
      cases hleaf : d0.leaf with
      | false => exact Or.inl rfl
      | true =>
        obtain ⟨e, he, hshelter⟩ := exists_shelter (l := 0) name1 name10 name100 (by omega)
          h0 hleaf hs (!true)
        exact Or.inr ⟨e, mem_insertOne.mpr (Or.inl he), hshelter⟩
    | some d1 =>
      have hs : db.SameFaces ((db.growTile name100 0 false).growTile name10 1 false) := by
        have hs₁ := sameFaces_growTile db name100 0 false
        have hs₂ := sameFaces_growTile (db.growTile name100 0 false) name10 1 false
        exact ⟨hs₂.1.trans hs₁.1, hs₂.2.trans hs₁.2⟩
      refine (h.sameFaces hs).createTile fun _ => ?_
      cases hleaf : d1.leaf with
      | false => exact Or.inl rfl
      | true =>
        exact Or.inr (exists_shelter (l := 1) name1 name10 name100 (by omega) h1 hleaf hs
          (!true))

/-- An insertion keeps the leaves indexed. -/
theorem Advertised.insertTile (h : db.Advertised) :
    (db.insertTile name1 name10 name100).Advertised := by
  have hfalse : ∀ l : ℕ, false = true → l = 2 := fun _ h => nomatch h
  unfold Db.insertTile
  split
  · exact ((h.createTile (hfalse 0)).createTile (hfalse 1)).createTile fun _ => rfl
  · split
    · exact ((h.sameFaces (sameFaces_growTile _ _ _ _)).createTile (hfalse 1)).createTile
        fun _ => rfl
    · exact ((h.sameFaces (sameFaces_growTile _ _ _ _)).sameFaces
        (sameFaces_growTile _ _ _ _)).createTile fun _ => rfl

/-! ### Tiles that go -/

variable {n : Str}

/-- Nothing of a tile with one document is left when that goes. -/
theorem not_mem_removeTile (hone : (db.tiles l n).length ≤ 1) {d : TileDoc}
    (hd : d ∈ (db.removeTile n l).fullTileCollection) : ¬d.isTile l n := by
  intro ht
  have hmem : d ∈ (db.removeTile n l).tiles l n := List.mem_filter.mpr ⟨hd, ht⟩
  rw [tiles_removeTile, if_pos ⟨rfl, rfl⟩] at hmem
  have hlen : (db.tiles l n).tail.length = 0 := by
    rw [List.length_tail]
    omega
  rw [List.length_eq_zero_iff.mp hlen] at hmem
  exact List.not_mem_nil hmem

/-- A tile may go when no level-2 tile is left beneath it. -/
theorem Sheltered.removeTile (h : db.Sheltered)
    (hfree : ∀ d ∈ (db.removeTile n l).fullTileCollection, d.level = 2 → d.key l ≠ n) :
    (db.removeTile n l).Sheltered := by
  intro d hd hlevel
  obtain ⟨e, he, hleaf, hshare⟩ := h d (mem_of_mem_deleteOne hd) hlevel
  refine ⟨e, (mem_deleteOne_of_not fun ht => ?_).mpr he, hleaf, hshare⟩
  obtain ⟨hkey, hel⟩ := TileDoc.isTile_iff.mp ht
  rw [hel, hkey] at hshare
  exact hfree d hd hlevel hshare.symm

end Db

/-- The name a document has in the index is a path of its level. -/
theorem TileDoc.WellNamed.isPath_indexName {d : TileDoc} (h : d.WellNamed) :
    IsPath (d.level + 2) d.indexName := by
  unfold TileDoc.WellNamed at h
  unfold TileDoc.indexName
  match hl : d.level with
  | 0 => rw [hl] at h; exact h.1
  | 1 => rw [hl] at h; exact h.1
  | 2 => rw [hl] at h; exact h.1
  | l + 3 => rw [hl] at h; exact h.elim

namespace Db

variable {db db' : Db} {l : ℕ} {n : Str}

/-- A tile that goes takes no other leaf out of the index. -/
theorem Advertised.removeTile (h : db.Advertised) (hw : db.WellNamed) (hn : IsPath (l + 2) n)
    (hone : (db.tiles l n).length ≤ 1) : (db.removeTile n l).Advertised := by
  intro e he hleaf
  have hmem := mem_of_mem_deleteOne he
  obtain ⟨i, hi, hin⟩ := List.mem_map.mp (h e hmem hleaf)
  refine List.mem_map.mpr ⟨i, (mem_deleteOne_of_not fun hin' => ?_).mpr hi, hin⟩
  -- a leaf of that name would be of that tile
  have hname : e.indexName = n := hin.symm.trans (beq_iff_eq.mp hin')
  have hlevel : e.level = l := by
    by_contra hne
    exact (hw e hmem).isPath_indexName.ne hn (by omega) hname
  refine not_mem_removeTile hone he (TileDoc.isTile_iff.mpr ⟨?_, hlevel⟩)
  rw [← hlevel]
  exact hname

end Db

/-! ### The invariant -/

/-- The counters are those of the objects, and the index covers the tiles. -/
structure Indexes (live : List Str) (db : Db) : Prop where
  counts : Counts live db
  sheltered : db.Sheltered
  advertised : db.Advertised

section Indexes

variable {live : List Str} {db : Db} {n : Str}

/-- Inserting an object keeps the index right. -/
theorem Indexes.insert (h : Indexes live db) (hn : IsTileName n) :
    Indexes (n :: live) (db.insertObject n) := by
  refine ⟨h.counts.insert hn, ?_, ?_⟩
  · unfold Db.insertObject
    split
    · exact h.sheltered.insertTile
    · exact h.sheltered.sameFaces (Db.sameFaces_growTile _ _ _ _)
  · unfold Db.insertObject
    split
    · exact h.advertised.insertTile
    · exact h.advertised.sameFaces (Db.sameFaces_growTile _ _ _ _)

/-- The tile keeps some object. -/
theorem Indexes.shrink (h : Indexes live db) (hk : 1 < live.count n) :
    Indexes (live.erase n) (db.deleteObject n) := by
  refine ⟨h.counts.shrink hk, ?_, ?_⟩
  · rw [h.counts.deleteObject_shrink hk]
    exact h.sheltered.sameFaces (Db.sameFaces_shrinkTile _ _ _)
  · rw [h.counts.deleteObject_shrink hk]
    exact h.advertised.sameFaces (Db.sameFaces_shrinkTile _ _ _)

private theorem Indexes.sheltered_removeTile (h : Indexes live db) :
    (db.removeTile n 2).Sheltered := by
  refine h.sheltered.removeTile fun d hd hlevel hkey => ?_
  exact Db.not_mem_removeTile (h.counts.length_tiles_le_one le_rfl n) hd
    (TileDoc.isTile_iff.mpr ⟨hkey, hlevel⟩)

/-- The tile goes, its level-1 tile stays. -/
theorem Indexes.prune (h : Indexes live db) (hk : live.count n = 1)
    (h10 : 1 < beneath name10Of live.toFinset (name10Of n)) :
    Indexes (live.erase n) (db.deleteObject n) := by
  have hn : IsTileName n := h.counts.isTileName n (mem_of_count_eq_one hk)
  refine ⟨h.counts.prune hk h10, ?_, ?_⟩
  · rw [h.counts.deleteObject_prune hk h10]
    exact (h.sheltered_removeTile.sameFaces (Db.sameFaces_shrinkTile _ _ _)).sameFaces
      (Db.sameFaces_shrinkTile _ _ _)
  · rw [h.counts.deleteObject_prune hk h10]
    exact ((h.advertised.removeTile h.counts.wellNamed hn
      (h.counts.length_tiles_le_one le_rfl n)).sameFaces (Db.sameFaces_shrinkTile _ _ _)).sameFaces
      (Db.sameFaces_shrinkTile _ _ _)

/-- The tile goes, and so do all the tiles around it. -/
theorem Indexes.clear (h : Indexes live db) (hk : live.count n = 1)
    (h100 : beneath name100Of live.toFinset (name100Of n) = 1) :
    Indexes (live.erase n) (db.deleteObject n) := by
  have hn : IsTileName n := h.counts.isTileName n (mem_of_count_eq_one hk)
  have hmem : n ∈ live.toFinset := by simpa using mem_of_count_eq_one hk
  have hcounts := h.counts.clear hk h100
  have hw := h.counts.wellNamed
  rw [h.counts.deleteObject_clear hk h100] at hcounts ⊢
  -- no level-2 tile is left in the level-0 tile, nor in the level-1 tile
  have hfree100 : ∀ d ∈ (db.removeTile n 2).fullTileCollection, d.level = 2 →
      d.name100 ≠ name100Of n := by
    intro d hd hlevel heq
    have hwd := hw d (mem_of_mem_deleteOne hd)
    unfold TileDoc.WellNamed at hwd
    rw [hlevel] at hwd
    have hlive : d.name1 ∈ live := by
      by_contra hnot
      have hnil := h.counts.tiles_two_eq_nil_iff.mpr hnot
      rw [Db.tiles, List.filter_eq_nil_iff] at hnil
      exact hnil d (mem_of_mem_deleteOne hd) (TileDoc.isTile_iff.mpr ⟨rfl, hlevel⟩)
    have hone : d.name1 = n :=
      (alone_iff hmem).mpr h100 d.name1 (by simpa using hlive) (hwd.2.2.symm.trans heq)
    exact Db.not_mem_removeTile (h.counts.length_tiles_le_one le_rfl n) hd
      (TileDoc.isTile_iff.mpr ⟨hone, hlevel⟩)
  have hfree10 : ∀ d ∈ (db.removeTile n 2).fullTileCollection, d.level = 2 →
      d.name10 ≠ name10Of n := by
    intro d hd hlevel heq
    have hwd := hw d (mem_of_mem_deleteOne hd)
    unfold TileDoc.WellNamed at hwd
    rw [hlevel] at hwd
    refine hfree100 d hd hlevel ?_
    rw [hwd.2.2, ← name100Of_name10Of, ← hwd.2.1, heq, name100Of_name10Of]
  refine ⟨hcounts, ?_, ?_⟩
  · refine (h.sheltered_removeTile.removeTile fun d hd hlevel => ?_).removeTile
      fun d hd hlevel => ?_
    · exact hfree10 d (mem_of_mem_deleteOne hd) hlevel
    · exact hfree100 d (mem_of_mem_deleteOne (mem_of_mem_deleteOne hd)) hlevel
  · have hw₁ : (db.removeTile n 2).WellNamed := Db.WellNamed.removeTile hw n 2
    have ha₁ := h.advertised.removeTile hw hn (h.counts.length_tiles_le_one le_rfl n)
    have ha₂ := ha₁.removeTile (l := 1) hw₁ (isPath_name10Of n) (by
      rw [Db.tiles_removeTile, if_neg (by omega)]
      exact h.counts.length_tiles_le_one (by omega) _)
    refine ha₂.removeTile (l := 0) (hw₁.removeTile _ _) (isPath_name100Of n) ?_
    rw [Db.tiles_removeTile, if_neg (by omega), Db.tiles_removeTile, if_neg (by omega)]
    exact h.counts.length_tiles_le_one (by omega) _

theorem Indexes.perm {live' : List Str} (h : Indexes live db) (hp : live.Perm live') :
    Indexes live' db := ⟨h.counts.perm hp, h.sheltered, h.advertised⟩

theorem Indexes.sameIndex {db' : Db} (h : Indexes live db) (hs : db.SameIndex db') :
    Indexes live db' :=
  ⟨h.counts.congr hs.1, h.sheltered.sameFaces hs.sameFaces, h.advertised.sameFaces hs.sameFaces⟩

end Indexes

/-! ### Runs -/

/-- A deletion that leaves another object in the level-2 tile, or another level-2 tile in
the level-1 tile, or nothing in the level-0 tile. -/
def KeepsIndex (s : IndexerState) : IndexerOp → Prop
  | .delete p => 1 < s.tiles.count (tileOf p) ∨
      1 < beneath name10Of s.tiles.toFinset (name10Of (tileOf p)) ∨
      beneath name100Of s.tiles.toFinset (name100Of (tileOf p)) = 1
  | _ => True

/-- Every step of the indexer that meets the condition keeps the index right. -/
theorem Indexes.step {threshold : ℤ} {s s' : IndexerState} {op : IndexerOp}
    (hI : Indexes s.tiles s.db) (hok : KeepsIndex s op) (hstep : IndexerStep threshold s op s') :
    Indexes s'.tiles s'.db := by
  cases hstep with
  | insert p =>
    have hinsert := hI.insert (isTileName_tileOf p)
    exact hinsert.sameIndex (insert_sameIndex threshold p s.db)
  | delete p hp =>
    have hdelete : Indexes (s.tiles.erase (tileOf p)) (s.db.deleteObject (tileOf p)) := by
      have hpos := count_tileOf_pos hp
      -- the three deletions allowed: another object in the tile, a sibling tile, or nothing left
      rcases hok with hk | h10 | h100
      · exact hI.shrink hk
      · rcases Nat.lt_or_ge 1 (s.tiles.count (tileOf p)) with hk | hk
        · exact hI.shrink hk
        · exact hI.prune (by omega) h10
      · rcases Nat.lt_or_ge 1 (s.tiles.count (tileOf p)) with hk | hk
        · exact hI.shrink hk
        · exact hI.clear (by omega) h100
    exact (hdelete.perm (tiles_erase_perm hp)).sameIndex (delete_sameIndex threshold p s.db)
  | rebuild sorts bound hret =>
    have hcovered := covered_rebuildIndex hI.counts.wellNamed hret
    exact ⟨hI.counts.sameCores (within_rebuildIndex threshold sorts bound s.db), hcovered.1,
      hcovered.2⟩

/-- **Index coverage.** As long as every deletion leaves another object in its level-2
tile, or another level-2 tile in its level-1 tile, or nothing in its level-0 tile,
every live level-2 tile is advertised by its own name or by one around it. -/
theorem covered_throughout {threshold : ℤ} {h : List (IndexerState × IndexerOp)}
    {s : IndexerState} (hrun : Run (indexer threshold) h s) (hok : Admitted KeepsIndex h) :
    Throughout (fun s => s.db.Covered) h s := by
  refine Run.throughout (I := fun s => Indexes s.tiles s.db) ?_
    (fun s hI => hI.sheltered.covered hI.advertised)
    (fun s op s' hI hok hstep => hI.step hok hstep) hrun hok
  rintro s rfl
  exact ⟨Counts.empty, by simp [IndexerState.start, Db.Sheltered, Db.empty],
    by simp [IndexerState.start, Db.Advertised, Db.empty]⟩

section Examples

/-- Two neighbouring tiles aggregated into their level-0 tile, one of which goes. -/
theorem covered_throughout_neighbours :
    let p : Coord := (1234 / 100, 4180 / 100)
    let q : Coord := (1235 / 100, 4180 / 100)
    let s₁ := IndexerState.start.insert 1 p
    let s₂ := s₁.insert 1 q
    let s₃ := s₂.rebuild 1 (fun _ _ => CounterSort.stable) 1
    Throughout (fun s => s.db.Covered)
      [(IndexerState.start, IndexerOp.insert p), (s₁, .insert q),
        (s₂, .rebuild (fun _ _ => CounterSort.stable) 1), (s₃, .delete p)] (s₃.delete 1 p) := by
  intro p q s₁ s₂ s₃
  have hrun : Run (indexer 1) [(IndexerState.start, IndexerOp.insert p), (s₁, .insert q),
      (s₂, .rebuild (fun _ _ => CounterSort.stable) 1), (s₃, .delete p)] (s₃.delete 1 p) :=
    run_delete (run_rebuild (run_insert (run_insert run_start p) q) (by decide +kernel))
      (by decide +kernel)
  refine covered_throughout hrun ?_
  have hkeep : KeepsIndex s₃ (.delete p) := Or.inr (Or.inl (by decide +kernel))
  simp only [Admitted, List.mem_cons, List.not_mem_nil, or_false, forall_eq_or_imp, forall_eq]
  exact ⟨trivial, trivial, trivial, hkeep⟩

/-- Two tiles of different level-1 tiles, aggregated into their level-0 tile. The
deletion of one of them takes the level-0 tile out of the index. -/
theorem index_loses_tile : ∃ h s, Run (indexer 1) h s ∧ ¬s.db.Covered := by
  let p : Coord := (1234 / 100, 4180 / 100)
  let q : Coord := (1244 / 100, 4180 / 100)
  let s₂ := (IndexerState.start.insert 1 p).insert 1 q
  let s := (s₂.rebuild 1 (fun _ _ => CounterSort.stable) 1).delete 1 p
  have hrun : Run (indexer 1) _ s :=
    run_delete (run_rebuild (run_insert (run_insert run_start p) q) (by decide +kernel))
      (by decide +kernel)
  exact ⟨_, s, hrun, by decide +kernel⟩

end Examples

end OpenGeoBase
