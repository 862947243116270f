import OpenGeoBase.Repo.IndexCoverage
import OpenGeoBase.Repo.Tesselation

/-!
# The advertised index is an antichain of leaves

In a repository that only takes points in, and rebuilds its index now and then, the index
should hold the name of every leaf once and no other name, and no leaf should lie in the
tile of another one (`Db.IndexedByLeaves`).

A rebuild brings this about whatever was there before: its leaves are an exact cover
(`Partitioned.leafAntichain`), and `buildIndexDB` advertises them. An insertion keeps it
unless it goes wrong in one way (`KeepsAntichain`): `shardIndexer` asks the level-1 tile
alone whether a new level-2 tile is to be a leaf when there is a level-1 tile. After an
aggregation at level 0 that level-1 tile is no leaf, its level-0 tile is, and the new
level-2 tile becomes a second leaf there.
-/

namespace OpenGeoBase

open Text AtomicCalls Collection Tally Transition

namespace Db

/-- The names of the leaves. -/
def leafNames (db : Db) : List Str :=
  (db.fullTileCollection.filter (·.leaf)).map TileDoc.indexName

/-- The index holds the names of the leaves, each of them once, and none together with the name
of a tile around it. -/
structure IndexedByLeaves (db : Db) : Prop where
  nodup : db.indexNames.Nodup
  mem_iff : ∀ n, n ∈ db.indexNames ↔
    ∃ d ∈ db.fullTileCollection, d.leaf = true ∧ d.indexName = n
  antichain : ∀ d ∈ db.fullTileCollection, d.leaf = true → ∀ l < d.level,
    d.key l ∉ db.indexNames

/-- No leaf lies in the tile of another one. -/
def LeafAntichain (db : Db) : Prop :=
  ∀ d ∈ db.fullTileCollection, d.leaf = true → ∀ e ∈ db.fullTileCollection,
    e.level < d.level → ¬e.Shelters d

/-- No tile around a level-2 tile is a leaf. -/
def NoLeafAround (db : Db) (n : Str) : Prop :=
  ∀ e ∈ db.fullTileCollection, e.level < 2 →
    ¬e.Shelters (tileDocument n (name10Of n) (name100Of n) 2 true)

end Db

/-! ### The tree of a hierarchy -/

namespace Counts

variable {live : List Str} {db : Db} (h : Counts live db)

include h

/-- There are three levels of documents. -/
theorem level_le {d : TileDoc} (hd : d ∈ db.fullTileCollection) : d.level ≤ 2 := by
  have hw := h.wellNamed d hd
  unfold TileDoc.WellNamed at hw
  by_contra hgt
  match hl : d.level with
  | 0 | 1 | 2 => omega
  | l + 3 =>
    rw [hl] at hw
    exact hw

/-- There is one document at most under each name of each level. -/
theorem oneDocumentEach : db.OneDocumentEach := by
  unfold Db.OneDocumentEach
  rw [List.nodup_iff_count_le_one]
  rintro ⟨l, n⟩
  -- a pair of level and name occurs as often as there are tiles of that name
  have hcount : (db.fullTileCollection.map fun d => (d.level, d.key d.level)).count (l, n) =
      (db.tiles l n).length := by
    rw [List.count_eq_countP, List.countP_map, List.countP_eq_length_filter]
    unfold Db.tiles
    refine congrArg List.length (List.filter_congr fun d _ => ?_)
    rw [Bool.eq_iff_iff, TileDoc.isTile_iff]
    simp only [Function.comp_apply, beq_iff_eq, Prod.mk.injEq]
    constructor
    · rintro ⟨rfl, rfl⟩
      exact ⟨rfl, rfl⟩
    · rintro ⟨rfl, rfl⟩
      exact ⟨rfl, rfl⟩
  rw [hcount]
  rcases Nat.lt_or_ge 2 l with hl | hl
  · -- there are no tiles of such a level
    have hnil : db.tiles l n = [] := by
      refine List.filter_eq_nil_iff.mpr fun d hd ht => ?_
      have hle := h.level_le hd
      rw [(TileDoc.isTile_iff.mp ht).2] at hle
      omega
    rw [hnil]
    exact Nat.zero_le 1
  · exact h.length_tiles_le_one hl n

/-- A level-2 document stands for a tile in use. -/
theorem mem_live {d : TileDoc} (hd : d ∈ db.fullTileCollection) (hl : d.level = 2) :
    d.name1 ∈ live := by
  by_contra hn
  rw [← h.tiles_two_eq_nil_iff, Db.tiles, List.filter_eq_nil_iff] at hn
  refine hn d hd (TileDoc.isTile_iff.mpr ⟨?_, hl⟩)
  rfl

/-- A level-2 document carries the coarser names of its tile. -/
theorem names_two {d : TileDoc} (hd : d ∈ db.fullTileCollection) (hl : d.level = 2) :
    d.name10 = name10Of d.name1 ∧ d.name100 = name100Of d.name1 := by
  have hw := h.wellNamed d hd
  unfold TileDoc.WellNamed at hw
  rw [hl] at hw
  exact hw.2

/-- A level-1 document carries the level-0 name of its tile. -/
theorem name100_one {d : TileDoc} (hd : d ∈ db.fullTileCollection) (hl : d.level = 1) :
    d.name100 = name100Of d.name10 := by
  have hw := h.wellNamed d hd
  unfold TileDoc.WellNamed at hw
  rw [hl] at hw
  exact hw.2.1

/-- The documents of a hierarchy are a complete tree. -/
theorem completeTree : db.CompleteTree where
  oneDocumentEach := h.oneDocumentEach
  level_le _ hd := h.level_le hd
  parent d hd hl l hlt := by
    obtain ⟨h10, h100⟩ := h.names_two hd hl
    have hlive : d.name1 ∈ live.toFinset := List.mem_toFinset.mpr (h.mem_live hd hl)
    have hne : db.tiles l (d.key l) ≠ [] := by
      -- a level-2 tile holds an object, so the tiles of its two ancestors exist
      interval_cases l
      · rw [ne_eq, h.tiles_zero_eq_nil_iff, not_not]
        exact Finset.mem_image.mpr ⟨d.name1, hlive, h100.symm⟩
      · rw [ne_eq, h.tiles_one_eq_nil_iff, not_not]
        exact Finset.mem_image.mpr ⟨d.name1, hlive, h10.symm⟩
    obtain ⟨e, he⟩ := List.exists_mem_of_ne_nil _ hne
    obtain ⟨he, hkey, hel⟩ := (db.mem_tiles_iff _ _).mp he
    exact ⟨e, he, hel, hkey⟩
  nested d hd e he hdl hel hname := by
    obtain ⟨h10, h100⟩ := h.names_two hd hdl
    calc
      e.name100 = name100Of (name10Of d.name1) := by rw [h.name100_one he hel, hname, h10]
      _ = d.name100 := by rw [name100Of_name10Of, h100]

/-- The level-2 tile of an object. -/
theorem exists_two {n : Str} (hn : n ∈ live.toFinset) :
    ∃ t ∈ db.fullTileCollection, t.level = 2 ∧ t.name1 = n := by
  have htile : db.tiles 2 n ≠ [] := by
    rw [ne_eq, h.tiles_two_eq_nil_iff, not_not]
    exact List.mem_toFinset.mp hn
  obtain ⟨t, ht⟩ := List.exists_mem_of_ne_nil _ htile
  obtain ⟨ht, hkey, htl⟩ := (db.mem_tiles_iff _ _).mp ht
  exact ⟨t, ht, htl, hkey⟩

/-- A level-1 tile has a level-2 tile beneath it. -/
theorem exists_beneath {d : TileDoc} (hd : d ∈ db.fullTileCollection) (hl : d.level = 1) :
    ∃ t ∈ db.fullTileCollection, t.level = 2 ∧ d.name10 = t.name10 := by
  have hne : db.tiles 1 d.name10 ≠ [] :=
    List.ne_nil_of_mem ((db.mem_tiles_iff _ _).mpr ⟨hd, rfl, hl⟩)
  rw [ne_eq, h.tiles_one_eq_nil_iff, not_not] at hne
  obtain ⟨n, hn, hname⟩ := Finset.mem_image.mp hne
  obtain ⟨t, ht, htl, hkey⟩ := h.exists_two hn
  refine ⟨t, ht, htl, ?_⟩
  rw [(h.names_two ht htl).1, ← hname]
  exact congrArg name10Of hkey.symm

/-- In a partitioned hierarchy no leaf lies in the tile of another one. -/
theorem leafAntichain (hp : db.Partitioned) : db.LeafAntichain := by
  intro d hd hleaf e he hlt hs
  have hd2 := h.level_le hd
  rcases Nat.lt_or_ge d.level 2 with hl | hl
  · -- both leaves lie over a level-2 tile
    have hd1 : d.level = 1 := by omega
    have he0 : e.level = 0 := by omega
    obtain ⟨t, ht, htl, hname⟩ := h.exists_beneath hd hd1
    have hdt : d.Shelters t := by
      refine ⟨hleaf, ?_⟩
      rw [hd1]
      exact hname
    have het : e.Shelters t := by
      refine ⟨hs.1, hs.2.trans ?_⟩
      rw [he0]
      exact h.completeTree.nested t ht d hd htl hd1 hname
    rw [hp.shelter_unique ht htl hd hdt he het] at hlt
    exact lt_irrefl _ hlt
  -- a level-2 leaf shelters itself, and nothing else shelters it
  · rw [hp.shelter_unique hd (by omega) hd ⟨hleaf, rfl⟩ he hs] at hlt
    exact lt_irrefl _ hlt

end Counts

/-! ### Insertions -/

namespace Db

variable {db db' : Db} {n : Str} {l : ℕ} {b : Bool}

/-- Whether leaves overlap is seen from the faces of the documents. -/
theorem LeafAntichain.sameFaces (h : db.LeafAntichain) (hs : db.SameFaces db') :
    db'.LeafAntichain := by
  intro d hd hleaf e he hlt hshelter
  obtain ⟨d₀, hd₀, hdface⟩ := hs.exists_mem hd
  obtain ⟨e₀, he₀, heface⟩ := hs.exists_mem he
  refine h d₀ hd₀ ((TileDoc.leaf_of_face hdface).trans hleaf) e₀ he₀ ?_ ⟨?_, ?_⟩
  · rwa [TileDoc.level_of_face hdface, TileDoc.level_of_face heface]
  · exact (TileDoc.leaf_of_face heface).trans hshelter.1
  · rw [TileDoc.level_of_face heface, TileDoc.key_of_face heface, hshelter.2,
      TileDoc.key_of_face hdface]

/-- Whether a leaf is around a name is seen from the faces, too. -/
theorem NoLeafAround.sameFaces (h : db.NoLeafAround n) (hs : db.SameFaces db') :
    db'.NoLeafAround n := by
  intro e he hlt hshelter
  obtain ⟨e₀, he₀, hface⟩ := hs.exists_mem he
  refine h e₀ he₀ (by rwa [TileDoc.level_of_face hface]) ⟨?_, ?_⟩
  · exact (TileDoc.leaf_of_face hface).trans hshelter.1
  · rw [TileDoc.level_of_face hface, TileDoc.key_of_face hface, hshelter.2]

/-- A new document that is no leaf is in no leaf's way. -/
theorem LeafAntichain.createTile_false (h : db.LeafAntichain) {name1 name10 name100 : Str} :
    (db.createTile name1 name10 name100 l false).LeafAntichain := by
  intro d hd hleaf e he hlt hshelter
  rcases mem_insertOne.mp hd with hd | rfl
  · rcases mem_insertOne.mp he with he | rfl
    · exact h d hd hleaf e he hlt hshelter
    · exact Bool.false_ne_true hshelter.1
  · exact Bool.false_ne_true hleaf

/-- A new document that is no leaf is not around any name. -/
theorem NoLeafAround.createTile_false (h : db.NoLeafAround n) {name1 name10 name100 : Str} :
    (db.createTile name1 name10 name100 l false).NoLeafAround n := by
  intro e he hlt hshelter
  rcases mem_insertOne.mp he with he | rfl
  · exact h e he hlt hshelter
  · exact Bool.false_ne_true hshelter.1

/-- A new level-2 leaf is in no leaf's way when no tile around it is one. -/
theorem LeafAntichain.createTile_two (h : db.LeafAntichain)
    (hle : ∀ d ∈ db.fullTileCollection, d.level ≤ 2) (hfree : b = true → db.NoLeafAround n) :
    (db.createTile n (name10Of n) (name100Of n) 2 b).LeafAntichain := by
  cases b with
  | false => exact h.createTile_false
  | true =>
    intro d hd hleaf e he hlt hshelter
    rcases mem_insertOne.mp he with he | rfl
    · rcases mem_insertOne.mp hd with hd | rfl
      · exact h d hd hleaf e he hlt hshelter
      · exact hfree rfl e he hlt hshelter
    · -- the new document lies above no other one
      rcases mem_insertOne.mp hd with hd | rfl
      · exact absurd hlt (Nat.not_lt.mpr (hle d hd))
      · exact lt_irrefl _ hlt

/-- The names of the leaves depend on the faces. -/
theorem leafNames_sameFaces (hs : db.SameFaces db') : db'.leafNames = db.leafNames := by
  have hface : ∀ c : List TileDoc, (c.filter (·.leaf)).map TileDoc.indexName =
      ((c.map TileDoc.face).filter (·.leaf)).map TileDoc.indexName := by
    intro c
    rw [List.filter_map, List.map_map]
    refine List.map_congr_left fun d _ => ?_
    exact (TileDoc.key_of_face (d := d) (e := d.face) rfl _).symm
  unfold leafNames
  rw [hface, hs.1, ← hface]

/-- A new document advertises its tile if it is a leaf. -/
theorem leafNames_createTile {name1 name10 name100 : Str} (hb : b = true → l = 2) :
    (db.createTile name1 name10 name100 l b).leafNames =
      db.leafNames ++ if b ∧ l = 2 then [name1] else [] := by
  unfold leafNames createTile mapIndex mapTiles
  dsimp only
  rw [filter_insertOne, List.map_append]
  cases b with
  | false => simp [tileDocument]
  | true =>
    obtain rfl := hb rfl
    simp [tileDocument, TileDoc.indexName, TileDoc.key]

/-- Insertions keep the index and the leaves together. -/
def IndexMatches (db : Db) : Prop := db.indexNames.Perm db.leafNames

theorem IndexMatches.sameFaces (h : db.IndexMatches) (hs : db.SameFaces db') :
    db'.IndexMatches := by
  unfold IndexMatches
  rw [hs.2, leafNames_sameFaces hs]
  exact h

/-- Creating a tile, with its name in the index if it is a leaf, keeps the two in step. -/
theorem IndexMatches.createTile (h : db.IndexMatches) {name1 name10 name100 : Str}
    (hb : b = true → l = 2) : (db.createTile name1 name10 name100 l b).IndexMatches := by
  unfold IndexMatches
  rw [indexNames_createTile, leafNames_createTile hb]
  exact h.append_right _

/-- Adding a tile keeps the index in step with the leaves. -/
theorem IndexMatches.addTile (h : db.IndexMatches) (n : Str) : (db.addTile n).IndexMatches := by
  have hfalse : ∀ l : ℕ, false = true → l = 2 := fun _ h => nomatch h
  unfold Db.addTile Db.insertTile
  split
  · exact ((h.createTile (hfalse 0)).createTile (hfalse 1)).createTile fun _ => rfl
  · split
    · exact ((h.sameFaces (sameFaces_growTile _ _ _ _)).createTile (hfalse 1)).createTile
        fun _ => rfl
    · exact ((h.sameFaces (sameFaces_growTile _ _ _ _)).sameFaces
        (sameFaces_growTile _ _ _ _)).createTile fun _ => rfl

/-- Where there is one document its mark is the one that is read. -/
theorem leafAt_of_mem (hone : (db.tiles l n).length ≤ 1) {d : TileDoc}
    (hd : d ∈ db.fullTileCollection) (ht : d.isTile l n) : db.leafAt l n = d.leaf := by
  have hmem : d ∈ db.tiles l n := List.mem_filter.mpr ⟨hd, ht⟩
  unfold leafAt
  match htiles : db.tiles l n, hone, hmem with
  | [], _, hmem => exact absurd hmem List.not_mem_nil
  | [e], _, hmem =>
    obtain rfl := List.mem_singleton.mp hmem
    rfl

/-- A new tile is announced: it becomes a leaf. -/
theorem mem_addTile (h : db.Announces [] n) :
    tileDocument n (name10Of n) (name100Of n) 2 true ∈ (db.addTile n).fullTileCollection := by
  unfold Announces HasTile100 HasTile10 leafAt at h
  unfold addTile insertTile
  cases h0 : db.tiles 0 (name100Of n) with
  | nil => exact mem_insertOne.mpr (Or.inr rfl)
  | cons d0 ds0 =>
    cases h1 : db.tiles 1 (name10Of n) with
    | nil =>
      have hleaf : d0.leaf = false := by simpa [h0, h1] using h
      exact mem_insertOne.mpr (Or.inr (by rw [hleaf]; rfl))
    | cons d1 ds1 =>
      have hleaf : d1.leaf = false := by simpa [h0, h1] using h
      exact mem_insertOne.mpr (Or.inr (by rw [hleaf]; rfl))

/-- A new tile keeps the antichain if no tile around it is a leaf whenever it is announced. -/
theorem LeafAntichain.addTile (h : db.LeafAntichain)
    (hle : ∀ d ∈ db.fullTileCollection, d.level ≤ 2)
    (hfree : db.Announces [] n → db.NoLeafAround n) : (db.addTile n).LeafAntichain := by
  -- the two ways a document comes about keep the levels within 0, 1 and 2
  have hle_sameFaces : ∀ {db₁ db₂ : Db}, db₁.SameFaces db₂ →
      (∀ d ∈ db₁.fullTileCollection, d.level ≤ 2) → ∀ d ∈ db₂.fullTileCollection, d.level ≤ 2 := by
    intro db₁ db₂ hs hle d hd
    obtain ⟨d₀, hd₀, hface⟩ := hs.exists_mem hd
    rw [← TileDoc.level_of_face hface]
    exact hle d₀ hd₀
  have hle_createTile : ∀ {db₁ : Db} {l : ℕ}, l ≤ 2 →
      (∀ d ∈ db₁.fullTileCollection, d.level ≤ 2) →
      ∀ d ∈ (db₁.createTile n (name10Of n) (name100Of n) l false).fullTileCollection,
        d.level ≤ 2 := by
    intro db₁ l hl hle d hd
    rcases mem_insertOne.mp hd with hd | rfl
    · exact hle d hd
    · exact hl
  unfold Announces HasTile100 HasTile10 leafAt at hfree
  unfold Db.addTile Db.insertTile
  -- as `insertTile` does, by the first of the three tiles that exists
  cases h0 : db.tiles 0 (name100Of n) with
  | nil =>
    -- the tile becomes a leaf, which the hypothesis allows only where there is none around it
    have hnone : db.NoLeafAround n := hfree (by simp [h0])
    refine (h.createTile_false.createTile_false).createTile_two ?_ fun _ => ?_
    · exact hle_createTile (by omega) (hle_createTile (by omega) hle)
    · exact hnone.createTile_false.createTile_false
  | cons d0 ds0 =>
    cases h1 : db.tiles 1 (name10Of n) with
    | nil =>
      have hs := sameFaces_growTile db (name100Of n) 0 true
      refine ((h.sameFaces hs).createTile_false).createTile_two ?_ fun hleaf => ?_
      · exact hle_createTile (by omega) (hle_sameFaces hs hle)
      · have hnone : db.NoLeafAround n := hfree (by simpa [h0, h1] using hleaf)
        exact (hnone.sameFaces hs).createTile_false
    -- both ancestors exist and keep their flags, so the leaf is as free as before
    | cons d1 ds1 =>
      have hs₁ := sameFaces_growTile db (name100Of n) 0 false
      have hs₂ := sameFaces_growTile (db.growTile (name100Of n) 0 false) (name10Of n) 1 false
      refine ((h.sameFaces hs₁).sameFaces hs₂).createTile_two ?_ fun hleaf => ?_
      · exact hle_sameFaces hs₂ (hle_sameFaces hs₁ hle)
      · have hnone : db.NoLeafAround n := hfree (by simpa [h0, h1] using hleaf)
        exact (hnone.sameFaces hs₁).sameFaces hs₂

end Db

/-! ### The invariant -/

/-- The way an insertion goes wrong: the tile is new, its level-0 tile is a leaf, and its level-1
tile is there and is none. -/
def Db.Unsheltered (db : Db) (n : Str) : Prop :=
  db.tiles 2 n = [] ∧ db.leafAt 0 (name100Of n) = true ∧ db.tiles 1 (name10Of n) ≠ [] ∧
    db.leafAt 1 (name10Of n) = false

instance (db : Db) (n : Str) : Decidable (db.Unsheltered n) :=
  inferInstanceAs (Decidable (_ ∧ _ ∧ _ ∧ _))

/-- The hierarchy of the objects, its leaves an antichain, its index that of the leaves. -/
structure AntichainIndex (live : List Str) (db : Db) : Prop where
  counts : Counts live db
  antichain : db.LeafAntichain
  index : db.IndexMatches

section AntichainIndex

variable {live : List Str} {db db' : Db} {n : Str}

/-- The tiles around a tile that is announced are no leaves, but for the one bad case. -/
theorem Counts.noLeafAround (h : Counts live db) (hgood : ¬db.Unsheltered n)
    (hnew : db.tiles 2 n = []) (hann : db.Announces [] n) : db.NoLeafAround n := by
  intro e he hlt hshelter
  -- the leaf found around the tile is what the indexer would see at its level
  have hleafAt : ∀ l ≤ 2, e.level = l → db.tiles l (e.key l) ≠ [] ∧
      db.leafAt l (e.key l) = true := by
    rintro l hl rfl
    have ht : e.isTile e.level (e.key e.level) := TileDoc.isTile_iff.mpr ⟨rfl, rfl⟩
    refine ⟨List.ne_nil_of_mem (List.mem_filter.mpr ⟨he, ht⟩), ?_⟩
    rw [Db.leafAt_of_mem (h.length_tiles_le_one hl _) he ht, hshelter.1]
  have hkey := hshelter.2
  match hel : e.level with
  | 0 =>
    rw [hel] at hkey
    obtain ⟨hne, hleaf⟩ := hleafAt 0 (by omega) hel
    have hname : e.key 0 = name100Of n := hkey
    rw [hname] at hne hleaf
    obtain ⟨h10, h100⟩ := hann (Or.inl hne)
    by_cases hne10 : db.HasTile10 [] n
    · have hne1 : db.tiles 1 (name10Of n) ≠ [] := by simpa [Db.HasTile10] using hne10
      exact hgood ⟨hnew, hleaf, hne1, h10 hne10⟩
    · rw [h100 hne10] at hleaf
      exact Bool.false_ne_true hleaf
  | 1 =>
    rw [hel] at hkey
    obtain ⟨hne, hleaf⟩ := hleafAt 1 (by omega) hel
    have hname : e.key 1 = name10Of n := hkey
    rw [hname] at hne hleaf
    have hne0 : db.tiles 0 (name100Of n) ≠ [] := fun h0 => hne (h.tiles_one_of_zero h0)
    rw [(hann (Or.inl hne0)).1 (Or.inl hne)] at hleaf
    exact Bool.false_ne_true hleaf
  | l + 2 => omega

/-- An insertion at a sheltered or new place keeps the invariant. -/
theorem AntichainIndex.insert (h : AntichainIndex live db) (hn : IsTileName n)
    (hgood : ¬db.Unsheltered n) : AntichainIndex (n :: live) (db.insertObject n) := by
  refine ⟨h.counts.insert hn, ?_, ?_⟩
  · unfold Db.insertObject
    split
    · next h2 =>
      exact h.antichain.addTile (fun d hd => h.counts.level_le hd)
        (h.counts.noLeafAround hgood h2)
    · exact h.antichain.sameFaces (Db.sameFaces_growTile _ _ _ _)
  · unfold Db.insertObject
    split
    · exact h.index.addTile n
    · exact h.index.sameFaces (Db.sameFaces_growTile _ _ _ _)

theorem AntichainIndex.congr (h : AntichainIndex live db) (hs : db.SameIndex db') :
    AntichainIndex live db' where
  counts := h.counts.congr hs.1
  antichain := h.antichain.sameFaces hs.sameFaces
  index := h.index.sameFaces hs.sameFaces

/-- **A rebuild makes the index an antichain of leaves**, whatever it was before. -/
theorem Counts.antichainIndex_rebuild (h : Counts live db) {threshold : ℤ}
    {sorts : ℕ → ℕ → CounterSort} {bound : ℕ}
    (hret : ((rebuildIndex threshold sorts bound).run db).1 = .returned) :
    AntichainIndex live ((rebuildIndex threshold sorts bound).run db).2 := by
  have hcounts := h.sameCores (within_rebuildIndex threshold sorts bound db)
  -- the rebuild partitions the tiles among the leaves, which makes them an antichain
  have hpart : ((constrainedTesselation threshold sorts bound).run
      (resetFullTileDB.run db).2).2.Partitioned :=
    partitioned_constrainedTesselation h.completeTree
  have hframe : db.SameCores ((constrainedTesselation threshold sorts bound).run
      (resetFullTileDB.run db).2).2 :=
    (Db.rebuildFrame_sameCores.resetFullTileDB db).trans
      (Db.rebuildFrame_sameCores.constrainedTesselation threshold sorts bound _)
  have hanti := (h.sameCores hframe).leafAntichain hpart
  rw [run_rebuildIndex_returned hret] at hcounts ⊢
  refine ⟨hcounts, ?_, ?_⟩
  · unfold Db.LeafAntichain
    rw [tiles_buildIndexDB]
    exact hanti
  · unfold Db.IndexMatches Db.leafNames
    rw [indexNames_buildIndexDB, tiles_buildIndexDB]

/-- The coarser names of a document are paths of their level. -/
theorem TileDoc.WellNamed.isPath_key {d : TileDoc} (h : d.WellNamed) {l : ℕ} (hl : l < d.level) :
    IsPath (l + 2) (d.key l) := by
  unfold TileDoc.WellNamed at h
  -- a tile keeps the names of its ancestors, each computed from the one below
  match hlevel : d.level with
  | 0 => omega
  | 1 =>
    rw [hlevel] at h
    obtain rfl : l = 0 := by omega
    change IsPath 2 d.name100
    rw [h.2.1]
    exact isPath_name100Of _
  | 2 =>
    rw [hlevel] at h
    match l with
    | 0 =>
      change IsPath 2 d.name100
      rw [h.2.2]
      exact isPath_name100Of _
    | 1 =>
      change IsPath 3 d.name10
      rw [h.2.1]
      exact isPath_name10Of _
    | l + 2 => omega
  | k + 3 =>
    rw [hlevel] at h
    exact h.elim

/-- Documents have different names. -/
theorem Counts.eq_of_indexName (h : Counts live db) {d e : TileDoc}
    (hd : d ∈ db.fullTileCollection) (he : e ∈ db.fullTileCollection)
    (hname : d.indexName = e.indexName) : d = e := by
  have hl : d.level = e.level := by
    by_contra hne
    exact (h.wellNamed d hd).isPath_indexName.ne (h.wellNamed e he).isPath_indexName
      (by omega) hname
  refine h.oneDocumentEach.eq he hd hl ?_
  unfold TileDoc.indexName at hname
  rw [hname, hl]

/-- The index names exactly the leaves. -/
theorem AntichainIndex.mem_iff (h : AntichainIndex live db) (m : Str) :
    m ∈ db.indexNames ↔ ∃ d ∈ db.fullTileCollection, d.leaf = true ∧ d.indexName = m := by
  rw [h.index.mem_iff, Db.leafNames]
  simp [and_assoc]

/-- The index names each leaf once, and none inside another. -/
theorem AntichainIndex.indexedByLeaves (h : AntichainIndex live db) : db.IndexedByLeaves where
  nodup := by
    rw [h.index.nodup_iff]
    have hdocs : db.fullTileCollection.Nodup := List.Nodup.of_map _ h.counts.oneDocumentEach
    refine List.Nodup.map_on (fun d hd e he hname => ?_) (hdocs.filter _)
    exact h.counts.eq_of_indexName (List.mem_filter.mp hd).1 (List.mem_filter.mp he).1 hname
  mem_iff := h.mem_iff
  antichain d hd hleaf l hlt hmem := by
    obtain ⟨e, he, heleaf, hname⟩ := (h.mem_iff _).mp hmem
    -- the name is that of a leaf of level `l`
    have hel : e.level = l := by
      by_contra hne
      exact (h.counts.wellNamed e he).isPath_indexName.ne
        ((h.counts.wellNamed d hd).isPath_key hlt) (by omega) hname
    subst hel
    exact h.antichain d hd hleaf e he hlt ⟨heleaf, hname⟩

/-- In the one bad case the new tile and its level-0 tile are both in the index. -/
theorem AntichainIndex.not_unsheltered (h : AntichainIndex live db)
    (hs : (db.insertObject n).SameIndex db') (hP : db'.IndexedByLeaves) : ¬db.Unsheltered n := by
  rintro ⟨hnew, hleaf0, hne1, hleaf1⟩
  have hann : db.Announces [] n := by
    intro _
    refine ⟨fun _ => hleaf1, fun hno => absurd (Or.inl hne1) hno⟩
  have hinsert : db.insertObject n = db.addTile n := if_pos hnew
  -- the level-0 leaf is in the index, and stays there
  obtain ⟨e, he, heleaf⟩ : ∃ e ∈ db.tiles 0 (name100Of n), e.leaf = true := by
    unfold Db.leafAt at hleaf0
    cases htiles : db.tiles 0 (name100Of n) with
    | nil => simp [htiles] at hleaf0
    | cons e es =>
      rw [htiles] at hleaf0
      exact ⟨e, List.mem_cons_self, hleaf0⟩
  obtain ⟨he, hkey, hel⟩ := (db.mem_tiles_iff _ _).mp he
  have hname : e.indexName = name100Of n := by
    unfold TileDoc.indexName
    rw [hel, hkey]
  have hin : name100Of n ∈ db'.indexNames := by
    rw [Db.indexNames, hs.2, hinsert]
    exact (mem_indexNames_addTile n (name100Of n) db).mpr
      (Or.inl ((h.mem_iff _).mpr ⟨e, he, heleaf, hname⟩))
  have hmem := Db.mem_addTile hann
  rw [← hinsert, ← hs.1] at hmem
  exact hP.antichain _ hmem rfl 0 (Nat.zero_lt_succ 1) hin

end AntichainIndex

/-! ### The exact condition -/

/-- The indexer of a repository that takes points in and rebuilds its index. -/
def insertionIndexer (threshold : ℤ) : System IndexerState IndexerOp where
  init s := s = .start
  step s op s' := IndexerStep threshold s op s' ∧ ∀ p, op ≠ .delete p

/-- An insertion whose tile is not new, or has no leaf for a level-0 tile, or no level-1 tile, or
a leaf for that. -/
def KeepsAntichain (s : IndexerState) : IndexerOp → Prop
  | .insert p => ¬s.db.Unsheltered (tileOf p)
  | _ => True

/-- **The index is an antichain of leaves, exactly.** A run of insertions and rebuilds keeps it
one throughout if and only if no insertion of it meets a new tile whose level-0 tile is a leaf
and whose level-1 tile is there and is none. -/
theorem indexedByLeaves_throughout_iff {threshold : ℤ} {h : List (IndexerState × IndexerOp)}
    {s : IndexerState} (hrun : Run (insertionIndexer threshold) h s) :
    Throughout (fun s => s.db.IndexedByLeaves) h s ↔ Admitted KeepsAntichain h := by
  refine Run.throughout_iff (I := fun s => AntichainIndex s.tiles s.db) ?_
    (fun s hI => hI.indexedByLeaves) ?_ ?_ hrun
  · rintro s rfl
    refine ⟨Counts.empty, ?_, List.Perm.nil⟩
    intro d hd
    exact absurd hd List.not_mem_nil
  -- the insertion is the only step that may break it, and the condition is about it alone
  · rintro s op s' hI hok ⟨hstep, hdelete⟩
    cases hstep with
    | insert p =>
      exact (hI.insert (isTileName_tileOf p) hok).congr (insert_sameIndex threshold p s.db)
    | delete p hp => exact absurd rfl (hdelete p)
    | rebuild sorts bound hret => exact hI.counts.antichainIndex_rebuild hret
  · rintro s op s' hI ⟨hstep, -⟩ hP
    cases hstep with
    | insert p => exact hI.not_unsheltered (insert_sameIndex threshold p s.db) hP
    | delete p hp => trivial
    | rebuild sorts bound hret => trivial

section Examples

/-- Two points come in, far from each other. -/
theorem indexedByLeaves_two_points :
    let p : Coord := (12341 / 1000, 4180 / 100)
    let q : Coord := (13341 / 1000, 4180 / 100)
    let s₁ := IndexerState.start.insert 10 p
    Throughout (fun s => s.db.IndexedByLeaves)
      [(IndexerState.start, IndexerOp.insert p), (s₁, .insert q)] (s₁.insert 10 q) := by
  intro p q s₁
  have hrun : Run (insertionIndexer 10) [] .start := .nil rfl
  have hp := hrun.snoc (a := .insert p) ⟨IndexerStep.insert _ p, by simp⟩
  have hq := hp.snoc (a := .insert q) ⟨IndexerStep.insert _ q, by simp⟩
  refine (indexedByLeaves_throughout_iff hq).mpr ?_
  have hkeep₁ : ¬IndexerState.start.db.Unsheltered (tileOf p) := by decide
  have hkeep₂ : ¬s₁.db.Unsheltered (tileOf q) := by decide +kernel
  simp only [Admitted, List.nil_append, List.cons_append, List.mem_cons, List.not_mem_nil,
    or_false, forall_eq_or_imp, forall_eq]
  exact ⟨hkeep₁, hkeep₂⟩

/-- Two level-1 tiles are aggregated into their level-0 tile, then a point comes in at a new
level-2 tile of one of them. -/
theorem leaf_beneath_leaf :
    ∃ h s, Run (insertionIndexer 1) h s ∧ ¬s.db.IndexedByLeaves := by
  let p : Coord := (12341 / 1000, 4180 / 100)
  let q : Coord := (12441 / 1000, 4180 / 100)
  let r : Coord := (12351 / 1000, 4180 / 100)
  let s := (IndexerState.start.insert 1 p).insert 1 q
  let s' := s.rebuild 1 (fun _ _ => .stable) 1
  have hrun : Run (insertionIndexer 1) [] .start := .nil rfl
  have hp := hrun.snoc (a := .insert p) ⟨IndexerStep.insert _ p, by simp⟩
  have hq := hp.snoc (a := .insert q) ⟨IndexerStep.insert _ q, by simp⟩
  have hrebuild := hq.snoc (a := .rebuild (fun _ _ => .stable) 1)
    ⟨IndexerStep.rebuild s _ _ (by decide +kernel), by simp⟩
  have hr := hrebuild.snoc (a := .insert r) ⟨IndexerStep.insert s' r, by simp⟩
  refine ⟨_, _, hr, fun h => ?_⟩
  -- the new leaf, and the name of its level-0 tile in the index
  have hleaf : ∃ d ∈ (s'.insert 1 r).db.fullTileCollection,
      d.leaf = true ∧ d.level = 2 ∧ d.name100 = "/012/041".toList := by decide +kernel
  have hname : "/012/041".toList ∈ (s'.insert 1 r).db.indexNames := by decide +kernel
  obtain ⟨d, hd, hleaf, hl, h100⟩ := hleaf
  refine h.antichain d hd hleaf 0 (by omega) ?_
  rw [← h100] at hname
  exact hname

end Examples

end OpenGeoBase
