import OpenGeoBase.Lib.Tally
import OpenGeoBase.Lib.Transition
import OpenGeoBase.Repo.GeometryIndex
import OpenGeoBase.Repo.ShardIndexer
import Mathlib.Tactic.IntervalCases

/-!
# The tile hierarchy

The full-tile collection summarises the stored objects. For a finite multiset
`live` of level-2 tiles, one entry for each object, `Counts live db` says that the
documents and their counters are the ones `live` calls for, and `Children live db`
says the same of the numbers of children. A level-2 tile counts its objects; a
tile of an upper level counts the inhabited level-2 tiles beneath it, and a
level-0 tile has the inhabited level-1 tiles for children.

Both are read off a tile's own documents (`Db.counters`, `Db.childCounts`), so each
effect of the shard indexer is described by what it does at every level and name:
`counters_insertTile`, `childCounts_insertTile` for a new tile, and one equation
for each way a deletion can go (`Db.delete_of_…`). The insertion keeps both. Of the
four ways a deletion can go, two keep both (`shrink`, `clear`), one loses a child
(`prune`), and one counts a level-0 tile down twice (`cut`).
-/

namespace OpenGeoBase

open Text AtomicCalls Collection Tally

/-! ### Views of a tile -/

namespace Db

/-- The counters of the documents of a tile. -/
def counters (db : Db) (l : ℕ) (n : Str) : List ℤ := (db.tiles l n).map TileDoc.counter

/-- The numbers of children of the documents of a tile. -/
def childCounts (db : Db) (l : ℕ) (n : Str) : List ℤ := (db.tiles l n).map TileDoc.children

end Db

/-- A new document is found under its own name and level. -/
theorem isTile_tileDocument (name1 name10 name100 : Str) (l l' : ℕ) (b : Bool) (n : Str) :
    (tileDocument name1 name10 name100 l b).isTile l' n = true ↔
      l' = l ∧ n = levelName name1 name10 name100 l := by
  rw [TileDoc.isTile_iff]
  match l, l' with
  | 0, 0 => simp [tileDocument, TileDoc.key, levelName, eq_comm]
  | 0, l' + 1 => simp [tileDocument]
  | 1, 1 => simp [tileDocument, TileDoc.key, levelName, eq_comm]
  | 1, 0 => simp [tileDocument]
  | 1, l' + 2 => simp [tileDocument]
  | l + 2, 0 => simp [tileDocument]
  | l + 2, 1 => simp [tileDocument]
  | l + 2, l' + 2 => simp [tileDocument, TileDoc.key, levelName, eq_comm, and_comm]

/-- Growing a document does not hide it. -/
theorem isTile_grow (level : ℕ) (newChild : Bool) (d : TileDoc) (l : ℕ) (n : Str) :
    (d.grow level newChild).isTile l n = d.isTile l n := by
  unfold TileDoc.grow
  split
  · split <;> exact TileDoc.isTile_congr rfl rfl rfl rfl l n
  · split <;> exact TileDoc.isTile_congr rfl rfl rfl rfl l n

@[simp] theorem counter_grow (level : ℕ) (newChild : Bool) (d : TileDoc) :
    (d.grow level newChild).counter = d.counter + 1 := by
  unfold TileDoc.grow
  split
  · split <;> rfl
  · split <;> rfl

/-- A tile gains a child in `updateExistingTile` at level 1, and at level 0 when asked to. -/
theorem children_grow (level : ℕ) (newChild : Bool) (d : TileDoc) :
    (d.grow level newChild).children =
      d.children + if level = 1 ∨ (level = 0 ∧ newChild) then 1 else 0 := by
  unfold TileDoc.grow
  split
  · next h => subst h; cases newChild <;> simp
  · next h => split <;> simp_all

theorem map_modifyHead {α β : Type} {g : α → β} {f : α → α} {f' : β → β}
    (h : ∀ a, g (f a) = f' (g a)) (c : List α) :
    (c.modifyHead f).map g = (c.map g).modifyHead f' := by
  cases c <;> simp [h]

namespace Db

variable (name1 name10 name100 n m : Str) (l l' : ℕ) (b : Bool) (db : Db)

/-- The documents under a name when a tile is created. -/
theorem tiles_createTile :
    (db.createTile name1 name10 name100 l b).tiles l' m =
      db.tiles l' m ++ if l' = l ∧ m = levelName name1 name10 name100 l then
        [tileDocument name1 name10 name100 l b] else [] := by
  unfold createTile
  rw [tiles_mapIndex, tiles_mapTiles_insertOne]
  simp only [isTile_tileDocument]

theorem tiles_growTile :
    (db.growTile n l b).tiles l' m =
      if l' = l ∧ m = n then (db.tiles l' m).modifyHead (TileDoc.grow l b) else db.tiles l' m :=
  tiles_mapTiles_updateOne db l' l m n (isTile_grow l b)

theorem tiles_shrinkTile :
    (db.shrinkTile n l).tiles l' m =
      if l' = l ∧ m = n then
        (db.tiles l' m).modifyHead fun d => { d with counter := d.counter - 1 }
      else db.tiles l' m :=
  tiles_mapTiles_updateOne db l' l m n fun _ => TileDoc.isTile_congr rfl rfl rfl rfl

theorem tiles_removeTile :
    (db.removeTile n l).tiles l' m =
      if l' = l ∧ m = n then (db.tiles l' m).tail else db.tiles l' m := by
  unfold removeTile
  rw [tiles_mapIndex, tiles_mapTiles_deleteOne]

/-- The counter of a tile that is created is 1. -/
theorem counters_createTile :
    (db.createTile name1 name10 name100 l b).counters l' m =
      db.counters l' m ++ if l' = l ∧ m = levelName name1 name10 name100 l then [1] else [] := by
  unfold counters
  rw [tiles_createTile, List.map_append]
  split <;> rfl

/-- An object more counts up at its tile. -/
theorem counters_growTile :
    (db.growTile n l b).counters l' m =
      if l' = l ∧ m = n then (db.counters l' m).modifyHead (· + 1) else db.counters l' m := by
  unfold counters
  rw [tiles_growTile]
  split
  · exact map_modifyHead (counter_grow l b) _
  · rfl

/-- An object less counts down at its tile. -/
theorem counters_shrinkTile :
    (db.shrinkTile n l).counters l' m =
      if l' = l ∧ m = n then (db.counters l' m).modifyHead (· - 1) else db.counters l' m := by
  unfold counters
  rw [tiles_shrinkTile]
  split
  · cases db.tiles l' m <;> rfl
  · rfl

/-- A tile that is removed takes its counter with it. -/
theorem counters_removeTile :
    (db.removeTile n l).counters l' m =
      if l' = l ∧ m = n then (db.counters l' m).tail else db.counters l' m := by
  unfold counters
  rw [tiles_removeTile]
  split
  · exact List.map_tail
  · rfl

/-- The number of children of a tile that is created is 1. -/
theorem childCounts_createTile :
    (db.createTile name1 name10 name100 l b).childCounts l' m =
      db.childCounts l' m ++
        if l' = l ∧ m = levelName name1 name10 name100 l then [1] else [] := by
  unfold childCounts
  rw [tiles_createTile, List.map_append]
  split <;> rfl

/-- The number of children goes up with a new child only. -/
theorem childCounts_growTile :
    (db.growTile n l b).childCounts l' m =
      if l' = l ∧ m = n then
        (db.childCounts l' m).modifyHead (· + if l = 1 ∨ (l = 0 ∧ b) then 1 else 0)
      else db.childCounts l' m := by
  unfold childCounts
  rw [tiles_growTile]
  split
  · exact map_modifyHead (children_grow l b) _
  · rfl

/-- The number of children stays when the counter goes down. -/
theorem childCounts_shrinkTile :
    (db.shrinkTile n l).childCounts l' m = db.childCounts l' m := by
  unfold childCounts
  rw [tiles_shrinkTile]
  split
  · cases db.tiles l' m <;> rfl
  · rfl

/-- A tile that is removed takes its number of children with it. -/
theorem childCounts_removeTile :
    (db.removeTile n l).childCounts l' m =
      if l' = l ∧ m = n then (db.childCounts l' m).tail else db.childCounts l' m := by
  unfold childCounts
  rw [tiles_removeTile]
  split
  · exact List.map_tail
  · rfl

/-! ### Insertions at one tile -/

/-- One more: a first document counting one, or one more on the document there is. -/
def bump (c : List ℤ) : List ℤ := if c = [] then [1] else c.modifyHead (· + 1)

variable {db name1 name10 name100} in
/-- A new tile is counted once on each level, provided that no level-1 tile has
lost the level-0 tile around it. -/
theorem counters_insertTile (h2 : db.tiles 2 name1 = [])
    (h01 : db.tiles 0 name100 = [] → db.tiles 1 name10 = []) {l : ℕ} (hl : l ≤ 2) (m : Str) :
    (db.insertTile name1 name10 name100).counters l m =
      if m = levelName name1 name10 name100 l then bump (db.counters l m)
      else db.counters l m := by
  have h2' : db.counters 2 name1 = [] := by simp [counters, h2]
  unfold insertTile
  cases ht0 : db.tiles 0 name100 with
  | nil =>
    -- no level-0 tile: all three documents are new
    have h0 : db.counters 0 name100 = [] := by simp [counters, ht0]
    have h1 : db.counters 1 name10 = [] := by simp [counters, h01 ht0]
    simp only [List.head?_nil, counters_createTile]
    by_cases hm : m = levelName name1 name10 name100 l <;> interval_cases l <;>
      simp_all [levelName, bump]
  | cons d0 ds0 =>
    have h0 : db.counters 0 name100 ≠ [] := by simp [counters, ht0]
    cases ht1 : db.tiles 1 name10 with
    | nil =>
      -- the level-0 tile gains a child, the other two documents are new
      have h1 : db.counters 1 name10 = [] := by simp [counters, ht1]
      simp only [List.head?_cons, List.head?_nil, counters_createTile, counters_growTile]
      by_cases hm : m = levelName name1 name10 name100 l <;> interval_cases l <;>
        simp_all [levelName, bump]
    | cons d1 ds1 =>
      -- only the level-2 document is new
      have h1 : db.counters 1 name10 ≠ [] := by simp [counters, ht1]
      simp only [List.head?_cons, counters_createTile, counters_growTile]
      by_cases hm : m = levelName name1 name10 name100 l <;> interval_cases l <;>
        simp_all [levelName, bump]

variable {db name1 name10 name100} in
/-- The tiles around a new tile gain a child, a level-0 tile only with a new level-1 tile. -/
theorem childCounts_insertTile (h2 : db.tiles 2 name1 = [])
    (h01 : db.tiles 0 name100 = [] → db.tiles 1 name10 = []) {l : ℕ} (hl : l ≤ 2) (m : Str) :
    (db.insertTile name1 name10 name100).childCounts l m =
      if m = levelName name1 name10 name100 l ∧ (l = 0 → db.tiles 1 name10 = []) then
        bump (db.childCounts l m)
      else db.childCounts l m := by
  have h2' : db.childCounts 2 name1 = [] := by simp [childCounts, h2]
  unfold insertTile
  cases ht0 : db.tiles 0 name100 with
  | nil =>
    have h0 : db.childCounts 0 name100 = [] := by simp [childCounts, ht0]
    have h1 : db.childCounts 1 name10 = [] := by simp [childCounts, h01 ht0]
    simp only [List.head?_nil, childCounts_createTile]
    by_cases hm : m = levelName name1 name10 name100 l <;> interval_cases l <;>
      simp_all [levelName, bump]
  | cons d0 ds0 =>
    have h0 : db.childCounts 0 name100 ≠ [] := by simp [childCounts, ht0]
    cases ht1 : db.tiles 1 name10 with
    | nil =>
      have h1 : db.childCounts 1 name10 = [] := by simp [childCounts, ht1]
      simp only [List.head?_cons, List.head?_nil, childCounts_createTile, childCounts_growTile]
      by_cases hm : m = levelName name1 name10 name100 l <;> interval_cases l <;>
        simp_all [levelName, bump]
    | cons d1 ds1 =>
      -- the level-1 tile was there, so the level-0 tile gains no child
      have h1 : db.childCounts 1 name10 ≠ [] := by simp [childCounts, ht1]
      have hid : ∀ c : List ℤ, c.modifyHead (fun x => x) = c := fun c => by cases c <;> rfl
      simp only [List.head?_cons, childCounts_createTile, childCounts_growTile]
      by_cases hm : m = levelName name1 name10 name100 l <;> interval_cases l <;>
        simp_all [levelName, bump]

end Db

/-! ### The hierarchy a set of objects calls for -/

/-- One document showing `k` when there is something to count, none otherwise. -/
def tally (k : ℕ) : List ℤ := if k = 0 then [] else [(k : ℤ)]

@[simp] theorem tally_zero : tally 0 = [] := rfl

@[simp] theorem tally_succ (k : ℕ) : tally (k + 1) = [((k + 1 : ℕ) : ℤ)] := rfl

/-- The tally of something is one number. -/
theorem tally_of_pos {k : ℕ} (h : 0 < k) : tally k = [(k : ℤ)] := if_neg h.ne'

theorem tally_eq_nil_iff {k : ℕ} : tally k = [] ↔ k = 0 := by
  cases k <;> simp

theorem tally_injective {j k : ℕ} (h : tally j = tally k) : j = k := by
  cases j <;> cases k <;> simp_all

/-- Counting up a tally gives the tally of one more. -/
theorem bump_tally (k : ℕ) : Db.bump (tally k) = tally (k + 1) := by
  cases k with
  | zero => rfl
  | succ k => simp [Db.bump]

theorem modifyHead_tally {k : ℕ} (h : 1 < k) : (tally k).modifyHead (· - 1) = tally (k - 1) := by
  obtain ⟨k, rfl⟩ := Nat.exists_eq_add_of_lt h
  simp [tally]

theorem sum_tally (k : ℕ) : (tally k).sum = k := by
  cases k with
  | zero => rfl
  | succ k => exact List.sum_singleton

theorem tail_tally (k : ℕ) : (tally k).tail = [] := by
  cases k <;> rfl

/-- The names of a tile document are those of one tile and of the tiles around it. -/
def TileDoc.WellNamed (d : TileDoc) : Prop :=
  match d.level with
  | 0 => IsPath 2 d.name100 ∧ d.name10 = xx ∧ d.name1 = xx
  | 1 => IsPath 3 d.name10 ∧ d.name100 = name100Of d.name10 ∧ d.name1 = xx
  | 2 => IsTileName d.name1 ∧ d.name10 = name10Of d.name1 ∧ d.name100 = name100Of d.name1
  | _ => False

/-- Every document of the full-tile collection is well named. -/
def Db.WellNamed (db : Db) : Prop := ∀ d ∈ db.fullTileCollection, d.WellNamed

/-- The counters are those of the objects: `live` lists the level-2 tiles of the
stored objects, one entry for each object. A level-2 tile counts its objects, a
tile of an upper level the inhabited level-2 tiles beneath it, and a tile has one
document exactly when it has something to count. -/
structure Counts (live : List Str) (db : Db) : Prop where
  isTileName : ∀ n ∈ live, IsTileName n
  wellNamed : db.WellNamed
  level2 : ∀ n, db.counters 2 n = tally (live.count n)
  level1 : ∀ n, db.counters 1 n = tally (beneath name10Of live.toFinset n)
  level0 : ∀ n, db.counters 0 n = tally (beneath name100Of live.toFinset n)

/-- The children are those of the objects: one for a level-2 tile, the inhabited
level-2 tiles for a level-1 tile, the inhabited level-1 tiles for a level-0 tile. -/
structure Children (live : List Str) (db : Db) : Prop where
  level2 : ∀ n, db.childCounts 2 n = if n ∈ live then [1] else []
  level1 : ∀ n, db.childCounts 1 n = tally (beneath name10Of live.toFinset n)
  level0 : ∀ n, db.childCounts 0 n =
    tally (beneath name100Of (live.toFinset.image name10Of) n)

section Hierarchy

variable {live live' : List Str} {db db' : Db} {n : Str}

/-- The empty index counts right. -/
theorem Counts.empty : Counts [] Db.empty where
  isTileName := by simp
  wellNamed := by simp [Db.WellNamed, Db.empty]
  level2 n := by simp [Db.counters]
  level1 n := by simp [Db.counters]
  level0 n := by simp [Db.counters]

theorem Children.empty : Children [] Db.empty where
  level2 n := by simp [Db.childCounts]
  level1 n := by simp [Db.childCounts]
  level0 n := by simp [Db.childCounts]

/-- The order of the objects does not matter. -/
theorem Counts.perm (h : Counts live db) (hp : live.Perm live') : Counts live' db where
  isTileName n hn := h.isTileName n (hp.mem_iff.mpr hn)
  wellNamed := h.wellNamed
  level2 n := by rw [h.level2, hp.count_eq]
  level1 n := by rw [h.level1, List.toFinset_eq_of_perm _ _ hp]
  level0 n := by rw [h.level0, List.toFinset_eq_of_perm _ _ hp]

/-- The order of the tiles in use does not matter. -/
theorem Children.perm (h : Children live db) (hp : live.Perm live') : Children live' db where
  level2 n := by rw [h.level2]; simp only [hp.mem_iff]
  level1 n := by rw [h.level1, List.toFinset_eq_of_perm _ _ hp]
  level0 n := by rw [h.level0, List.toFinset_eq_of_perm _ _ hp]

/-- Only the full-tile collection matters. -/
theorem Counts.congr (h : Counts live db)
    (ht : db'.fullTileCollection = db.fullTileCollection) : Counts live db' where
  isTileName := h.isTileName
  wellNamed := by rw [Db.WellNamed, ht]; exact h.wellNamed
  level2 n := by rw [← h.level2, Db.counters, Db.counters, Db.tiles, Db.tiles, ht]
  level1 n := by rw [← h.level1, Db.counters, Db.counters, Db.tiles, Db.tiles, ht]
  level0 n := by rw [← h.level0, Db.counters, Db.counters, Db.tiles, Db.tiles, ht]

theorem Children.congr (h : Children live db)
    (ht : db'.fullTileCollection = db.fullTileCollection) : Children live db' where
  level2 n := by rw [← h.level2, Db.childCounts, Db.childCounts, Db.tiles, Db.tiles, ht]
  level1 n := by rw [← h.level1, Db.childCounts, Db.childCounts, Db.tiles, Db.tiles, ht]
  level0 n := by rw [← h.level0, Db.childCounts, Db.childCounts, Db.tiles, Db.tiles, ht]

/-- There is at most one counter under a name. -/
theorem length_tally_le_one (k : ℕ) : (tally k).length ≤ 1 := by
  cases k <;> simp

/-- A tile has one document at most. -/
theorem Counts.length_tiles_le_one (h : Counts live db) {l : ℕ} (hl : l ≤ 2) (n : Str) :
    (db.tiles l n).length ≤ 1 := by
  rw [← List.length_map (f := TileDoc.counter)]
  change (db.counters l n).length ≤ 1
  interval_cases l
  · rw [h.level0]
    exact length_tally_le_one _
  · rw [h.level1]
    exact length_tally_le_one _
  · rw [h.level2]
    exact length_tally_le_one _

/-- A level-2 tile has a document exactly when an object lies in it. -/
theorem Counts.tiles_two_eq_nil_iff (h : Counts live db) : db.tiles 2 n = [] ↔ n ∉ live := by
  rw [← List.map_eq_nil_iff (f := TileDoc.counter), ← List.count_eq_zero, ← tally_eq_nil_iff,
    ← h.level2]
  rfl

/-- A level-1 name has no document if no tile beneath it is in use. -/
theorem Counts.tiles_one_eq_nil_iff (h : Counts live db) :
    db.tiles 1 n = [] ↔ n ∉ live.toFinset.image name10Of := by
  rw [← List.map_eq_nil_iff (f := TileDoc.counter), ← beneath_eq_zero_iff, ← tally_eq_nil_iff,
    ← h.level1]
  rfl

theorem Counts.tiles_zero_eq_nil_iff (h : Counts live db) :
    db.tiles 0 n = [] ↔ n ∉ live.toFinset.image name100Of := by
  rw [← List.map_eq_nil_iff (f := TileDoc.counter), ← beneath_eq_zero_iff, ← tally_eq_nil_iff,
    ← h.level0]
  rfl

/-- No level-1 tile outlives the level-0 tile around it. -/
theorem Counts.tiles_one_of_zero (h : Counts live db) (h0 : db.tiles 0 (name100Of n) = []) :
    db.tiles 1 (name10Of n) = [] := by
  rw [h.tiles_one_eq_nil_iff]
  rw [h.tiles_zero_eq_nil_iff] at h0
  intro hm
  have h100 := Finset.mem_image_of_mem name100Of hm
  rw [Finset.image_image, name100Of_comp_name10Of, name100Of_name10Of] at h100
  exact h0 h100

/-! ### Insertions keep the hierarchy -/

/-- A document made from a tile name is well-named. -/
theorem wellNamed_tileDocument (hn : IsTileName n) {l : ℕ} (hl : l ≤ 2) (b : Bool) :
    (tileDocument n (name10Of n) (name100Of n) l b).WellNamed := by
  have h10 : name100Of n = name100Of (name10Of n) := (name100Of_name10Of n).symm
  interval_cases l
  · exact ⟨isPath_name100Of n, rfl, rfl⟩
  · exact ⟨isPath_name10Of n, h10, rfl⟩
  · exact ⟨hn, rfl, rfl⟩

theorem TileDoc.WellNamed.congr {d e : TileDoc} (h : d.WellNamed) (h100 : e.name100 = d.name100)
    (h10 : e.name10 = d.name10) (h1 : e.name1 = d.name1) (hl : e.level = d.level) :
    e.WellNamed := by
  unfold TileDoc.WellNamed at h ⊢
  rw [h100, h10, h1, hl]
  exact h

/-- So it stays so when it grows. -/
theorem TileDoc.WellNamed.grow {d : TileDoc} (h : d.WellNamed) (l : ℕ) (b : Bool) :
    (d.grow l b).WellNamed := by
  unfold TileDoc.grow
  split
  · split <;> exact h.congr rfl rfl rfl rfl
  · split <;> exact h.congr rfl rfl rfl rfl

namespace Db.WellNamed

variable (h : db.WellNamed)

include h

/-- Collections stay well-named when a tile is created. -/
theorem createTile (hn : IsTileName n) {l : ℕ} (hl : l ≤ 2) (b : Bool) :
    (db.createTile n (name10Of n) (name100Of n) l b).WellNamed := by
  intro d hd
  rcases mem_insertOne.mp hd with hd | rfl
  · exact h d hd
  · exact wellNamed_tileDocument hn hl b

/-- A collection stays well-named when a tile grows. -/
theorem growTile (m : Str) (l : ℕ) (b : Bool) : (db.growTile m l b).WellNamed := by
  intro d hd
  rcases mem_updateOne hd with hd | ⟨e, he, -, rfl⟩
  · exact h d hd
  · exact (h e he).grow l b

/-- A collection stays well-named when a tile shrinks. -/
theorem shrinkTile (m : Str) (l : ℕ) : (db.shrinkTile m l).WellNamed := by
  intro d hd
  rcases mem_updateOne hd with hd | ⟨e, he, -, rfl⟩
  · exact h d hd
  · exact (h e he).congr rfl rfl rfl rfl

theorem removeTile (m : Str) (l : ℕ) : (db.removeTile m l).WellNamed :=
  fun d hd => h d (mem_of_mem_deleteOne hd)

/-- A collection stays well-named by the insertion of a tile with its own coarser names. -/
theorem insertTile (hn : IsTileName n) :
    (db.insertTile n (name10Of n) (name100Of n)).WellNamed := by
  unfold Db.insertTile
  split
  · exact ((h.createTile hn (by omega) _).createTile hn (by omega) _).createTile hn (by omega) _
  · split
    · exact ((h.growTile _ _ _).createTile hn (by omega) _).createTile hn (by omega) _
    · exact ((h.growTile _ _ _).growTile _ _ _).createTile hn (by omega) _

end Db.WellNamed

/-- A tally with one more item of a tile. -/
theorem tally_beneath_insert {par : Str → Str} {T : Finset Str} (hn : n ∉ T) (m : Str) :
    tally (beneath par (insert n T) m) =
      if m = par n then Db.bump (tally (beneath par T m)) else tally (beneath par T m) := by
  rw [beneath_insert hn]
  by_cases hm : m = par n
  · rw [if_pos hm, if_pos hm.symm, bump_tally]
  · rw [if_neg hm, if_neg (Ne.symm hm), Nat.add_zero]

/-- A first object in a tile. -/
theorem Counts.insert_new (h : Counts live db) (hn : IsTileName n) (hnew : n ∉ live) :
    Counts (n :: live) (db.insertTile n (name10Of n) (name100Of n)) := by
  have h2 : db.tiles 2 n = [] := h.tiles_two_eq_nil_iff.mpr hnew
  have hT : n ∉ live.toFinset := by simpa using hnew
  have h01 := fun h0 => h.tiles_one_of_zero (n := n) h0
  refine ⟨?_, Db.WellNamed.insertTile h.wellNamed hn, fun m => ?_, fun m => ?_, fun m => ?_⟩
  · intro m hm
    rcases List.mem_cons.mp hm with rfl | hm
    · exact hn
    · exact h.isTileName m hm
  · rw [Db.counters_insertTile h2 h01 le_rfl, h.level2, List.count_cons,
      show levelName n (name10Of n) (name100Of n) 2 = n from rfl]
    -- the new tile is counted once, and the tallies above it gain one child each
    by_cases hm : m = n
    · rw [if_pos hm, bump_tally, if_pos (by simp [hm])]
    · rw [if_neg hm, if_neg (by simpa using Ne.symm hm), Nat.add_zero]
  · rw [Db.counters_insertTile h2 h01 (by omega), h.level1, List.toFinset_cons,
      tally_beneath_insert hT]
    rfl
  · rw [Db.counters_insertTile h2 h01 (by omega), h.level0, List.toFinset_cons,
      tally_beneath_insert hT]
    rfl

/-- A tile that was not in use is one child more of each parent that gains it. -/
theorem Children.insert_new (h : Children live db) (hc : Counts live db) (hnew : n ∉ live) :
    Children (n :: live) (db.insertTile n (name10Of n) (name100Of n)) := by
  have h2 : db.tiles 2 n = [] := hc.tiles_two_eq_nil_iff.mpr hnew
  have hT : n ∉ live.toFinset := by simpa using hnew
  -- a level-1 tile is there only with its level-0 tile
  have h01 := fun h0 => hc.tiles_one_of_zero (n := n) h0
  refine ⟨fun m => ?_, fun m => ?_, fun m => ?_⟩
  · rw [Db.childCounts_insertTile h2 h01 le_rfl, h.level2]
    by_cases hm : m = n
    · subst hm
      simp [levelName, hnew, Db.bump]
    · simp [levelName, hm]
  · rw [Db.childCounts_insertTile h2 h01 (by omega), h.level1, List.toFinset_cons,
      tally_beneath_insert hT]
    simp [levelName]
  · rw [Db.childCounts_insertTile h2 h01 (by omega), h.level0, List.toFinset_cons,
      Finset.image_insert]
    by_cases h1 : db.tiles 1 (name10Of n) = []
    · -- a first tile under its level-1 tile, which is a new child of the level-0 tile
      rw [tally_beneath_insert (hc.tiles_one_eq_nil_iff.mp h1), name100Of_name10Of]
      simp [levelName, h1]
    · -- the level-1 tile was a child already
      rw [Finset.insert_eq_of_mem (not_not.mp (mt hc.tiles_one_eq_nil_iff.mpr h1))]
      simp [h1]

/-- One more object in a tile that has some. -/
theorem Counts.insert_existing (h : Counts live db) (hn : n ∈ live) :
    Counts (n :: live) (db.growTile n 2 false) := by
  -- another object in a tile that is there adds no tile to the set
  have hT : (n :: live).toFinset = live.toFinset := by simp [hn]
  refine ⟨?_, Db.WellNamed.growTile h.wellNamed n 2 false, fun m => ?_, fun m => ?_, fun m => ?_⟩
  · intro m hm
    rcases List.mem_cons.mp hm with rfl | hm
    · exact h.isTileName m hn
    · exact h.isTileName m hm
  · rw [Db.counters_growTile, h.level2, List.count_cons]
    by_cases hm : m = n
    · subst hm
      have hpos : 0 < live.count m := List.count_pos_iff.mpr hn
      rw [if_pos ⟨rfl, rfl⟩, if_pos (by simp), ← bump_tally, Db.bump,
        if_neg (by rw [tally_of_pos hpos]; simp)]
    · rw [if_neg (by simp [hm]), if_neg (by simpa using Ne.symm hm), Nat.add_zero]
  · rw [Db.counters_growTile, if_neg (by omega), h.level1, hT]
  · rw [Db.counters_growTile, if_neg (by omega), h.level0, hT]

/-- A tile that was in use is no child more. -/
theorem Children.insert_existing (h : Children live db) (hn : n ∈ live) :
    Children (n :: live) (db.growTile n 2 false) := by
  have hT : (n :: live).toFinset = live.toFinset := by simp [hn]
  refine ⟨fun m => ?_, fun m => ?_, fun m => ?_⟩
  · rw [Db.childCounts_growTile, h.level2]
    by_cases hm : m = n <;> simp [hm, hn]
  · rw [Db.childCounts_growTile, if_neg (by omega), h.level1, hT]
  · rw [Db.childCounts_growTile, if_neg (by omega), h.level0, hT]

/-- The insertion of an object, by its tile. -/
def Db.insertObject (n : Str) (db : Db) : Db :=
  if db.tiles 2 n = [] then db.insertTile n (name10Of n) (name100Of n) else db.growTile n 2 false

/-- An insertion keeps the counters right. -/
theorem Counts.insert (h : Counts live db) (hn : IsTileName n) :
    Counts (n :: live) (db.insertObject n) := by
  unfold Db.insertObject
  split
  · next h2 => exact h.insert_new hn (h.tiles_two_eq_nil_iff.mp h2)
  · next h2 => exact h.insert_existing (not_not.mp (mt h.tiles_two_eq_nil_iff.mpr h2))

/-- An insertion keeps the numbers of children right. -/
theorem Children.insert (h : Children live db) (hc : Counts live db) :
    Children (n :: live) (db.insertObject n) := by
  unfold Db.insertObject
  split
  · next h2 => exact h.insert_new hc (hc.tiles_two_eq_nil_iff.mp h2)
  · next h2 => exact h.insert_existing (not_not.mp (mt hc.tiles_two_eq_nil_iff.mpr h2))

/-! ### Deletions

A deletion first counts the level-2 tile down. With its last object the tile goes,
and the loop of `decreaseCounter` counts the tiles around it down. It visits the
level-0 tile a second time if the level-1 tile goes as well.
-/

namespace Db

variable {m : Str} {l : ℕ} {lower : Db → Db}

/-- Where there is a counter there is a document with it. -/
private theorem head?_tiles_of_counters_cons {k : ℤ} {ks : List ℤ}
    (h : db.counters l m = k :: ks) : ∃ d, (db.tiles l m).head? = some d ∧ d.counter = k := by
  obtain ⟨d, ds, htiles, hd, -⟩ := List.map_eq_cons_iff.mp h
  exact ⟨d, by rw [htiles]; rfl, hd⟩

/-- A countdown at a missing tile does nothing. -/
theorem decrease_of_nil (h : db.counters l m = []) : db.decrease m l lower = db := by
  unfold decrease
  rw [List.map_eq_nil_iff.mp h]
  rfl

/-- At a counter above one a countdown stays at its level. -/
theorem decrease_of_one_lt {k : ℕ} (h : db.counters l m = tally k) (hk : 1 < k) :
    db.decrease m l lower = db.shrinkTile m l := by
  rw [tally_of_pos (by omega)] at h
  obtain ⟨d, hd, hc⟩ := head?_tiles_of_counters_cons h
  unfold decrease
  rw [hd]
  exact if_pos (by omega)

/-- At a counter of one it removes the tile and goes on beneath. -/
theorem decrease_of_one (h : db.counters l m = tally 1) :
    db.decrease m l lower = lower (db.removeTile m l) := by
  obtain ⟨d, hd, hc⟩ := head?_tiles_of_counters_cons h
  unfold decrease
  rw [hd]
  exact if_neg (by omega)

end Db

/-- Deleting one of several objects only counts down at level 2. -/
theorem Counts.deleteObject_shrink (h : Counts live db) (hk : 1 < live.count n) :
    db.deleteObject n = db.shrinkTile n 2 :=
  Db.decrease_of_one_lt (h.level2 n) hk

/-- With the last object of the tile the loop runs: the level-1 tile is counted
down, which may run the loop for level 0, and the level-0 tile is. -/
theorem Counts.deleteObject_last (h : Counts live db) (hk : live.count n = 1) :
    db.deleteObject n =
      ((db.removeTile n 2).decrease (name10Of n) 1
        fun db => db.decrease (name100Of n) 0 fun db => db).decrease (name100Of n) 0
          fun db => db := by
  have h2 : db.counters 2 n = tally 1 := by rw [h.level2, hk]
  unfold Db.deleteObject
  rw [Db.decrease_of_one h2]
  rfl

/-- A tile with one object is in use. -/
theorem mem_of_count_eq_one (hk : live.count n = 1) : n ∈ live :=
  List.count_pos_iff.mp (by omega)

/-- Two tiles under one level-1 tile are under one level-0 tile. -/
theorem one_lt_beneath_name100Of {T : Finset Str} (hn : n ∈ T)
    (h : 1 < beneath name10Of T (name10Of n)) : 1 < beneath name100Of T (name100Of n) := by
  rw [← not_alone_iff hn] at h ⊢
  rw [← name100Of_comp_name10Of]
  exact mt Alone.of_comp h

/-- Deleting the last object of a tile with siblings takes its level-2 document. -/
theorem Counts.deleteObject_prune (h : Counts live db) (hk : live.count n = 1)
    (h10 : 1 < beneath name10Of live.toFinset (name10Of n)) :
    db.deleteObject n =
      ((db.removeTile n 2).shrinkTile (name10Of n) 1).shrinkTile (name100Of n) 0 := by
  have h100 := one_lt_beneath_name100Of (by simpa using mem_of_count_eq_one hk) h10
  have h1 : (db.removeTile n 2).counters 1 (name10Of n) =
      tally (beneath name10Of live.toFinset (name10Of n)) := by
    rw [Db.counters_removeTile, if_neg (by omega), h.level1]
  have h0 : ((db.removeTile n 2).shrinkTile (name10Of n) 1).counters 0 (name100Of n) =
      tally (beneath name100Of live.toFinset (name100Of n)) := by
    rw [Db.counters_shrinkTile, if_neg (by omega), Db.counters_removeTile, if_neg (by omega),
      h.level0]
  rw [h.deleteObject_last hk, Db.decrease_of_one_lt h1 h10, Db.decrease_of_one_lt h0 h100]

/-- The level-1 tile goes: the level-0 tile is counted down twice. -/
theorem Counts.deleteObject_lone (h : Counts live db) (hk : live.count n = 1)
    (h10 : beneath name10Of live.toFinset (name10Of n) = 1) :
    db.deleteObject n =
      (((db.removeTile n 2).removeTile (name10Of n) 1).decrease (name100Of n) 0
        fun db => db).decrease (name100Of n) 0 fun db => db := by
  have h1 : (db.removeTile n 2).counters 1 (name10Of n) = tally 1 := by
    rw [Db.counters_removeTile, if_neg (by omega), h.level1, h10]
  rw [h.deleteObject_last hk, Db.decrease_of_one h1]

/-- Removals below leave the level-0 counters. -/
private theorem Counts.counters_zero_removeTile (h : Counts live db) (m : Str) :
    ((db.removeTile n 2).removeTile (name10Of n) 1).counters 0 m =
      tally (beneath name100Of live.toFinset m) := by
  rw [Db.counters_removeTile, if_neg (by omega), Db.counters_removeTile, if_neg (by omega),
    h.level0]

/-- A tile alone beneath its level-0 name is alone beneath its level-1 name. -/
theorem Counts.beneath_name10Of_of_alone (hk : live.count n = 1)
    (h100 : beneath name100Of live.toFinset (name100Of n) = 1) :
    beneath name10Of live.toFinset (name10Of n) = 1 := by
  have hn : n ∈ live.toFinset := by simpa using mem_of_count_eq_one hk
  rw [← alone_iff hn] at h100 ⊢
  rw [← name100Of_comp_name10Of] at h100
  exact h100.of_comp

/-- Deleting the last object beneath a level-0 name takes all three documents. -/
theorem Counts.deleteObject_clear (h : Counts live db) (hk : live.count n = 1)
    (h100 : beneath name100Of live.toFinset (name100Of n) = 1) :
    db.deleteObject n =
      ((db.removeTile n 2).removeTile (name10Of n) 1).removeTile (name100Of n) 0 := by
  have h0 := h.counters_zero_removeTile (n := n) (name100Of n)
  rw [h100] at h0
  have hgone : ((((db.removeTile n 2).removeTile (name10Of n) 1)).removeTile (name100Of n)
      0).counters 0 (name100Of n) = [] := by
    rw [Db.counters_removeTile, if_pos ⟨rfl, rfl⟩, h0, tail_tally]
  -- the second visit finds no level-0 tile
  rw [h.deleteObject_lone hk (beneath_name10Of_of_alone hk h100), Db.decrease_of_one h0,
    Db.decrease_of_nil hgone]

/-- The level-0 tile keeps some tiles, and is counted down for the one that went twice over. -/
theorem Counts.deleteObject_cut (h : Counts live db) (hk : live.count n = 1)
    (h10 : beneath name10Of live.toFinset (name10Of n) = 1)
    (h100 : 1 < beneath name100Of live.toFinset (name100Of n)) :
    db.deleteObject n =
      (((db.removeTile n 2).removeTile (name10Of n) 1).shrinkTile (name100Of n) 0).decrease
        (name100Of n) 0 fun db => db := by
  rw [h.deleteObject_lone hk h10, Db.decrease_of_one_lt (h.counters_zero_removeTile _) h100]

/-! ### Which deletions keep the hierarchy -/

section Erase

variable {par : Str → Str} {T : Finset Str}

/-- With the last tile beneath a name the tally goes. -/
theorem tally_beneath_erase_of_alone (hn : n ∈ T) (h : beneath par T (par n) = 1) (m : Str) :
    tally (beneath par (T.erase n) m) =
      if m = par n then (tally (beneath par T m)).tail else tally (beneath par T m) := by
  have he := beneath_erase (f := par) (b := m) hn
  by_cases hm : m = par n
  · subst hm
    rw [if_pos rfl] at he ⊢
    rw [tail_tally, tally_eq_nil_iff]
    omega
  · rw [if_neg (Ne.symm hm)] at he
    rw [if_neg hm, ← he, Nat.add_zero]

/-- With one of several tiles beneath a name the tally counts down. -/
theorem tally_beneath_erase_of_sibling (hn : n ∈ T) (h : 1 < beneath par T (par n)) (m : Str) :
    tally (beneath par (T.erase n) m) =
      if m = par n then (tally (beneath par T m)).modifyHead (· - 1)
      else tally (beneath par T m) := by
  have he := beneath_erase (f := par) (b := m) hn
  by_cases hm : m = par n
  · subst hm
    rw [if_pos rfl] at he ⊢
    rw [modifyHead_tally h]
    congr 1
    omega
  · rw [if_neg (Ne.symm hm)] at he
    rw [if_neg hm, ← he, Nat.add_zero]

end Erase

/-- The tile keeps some object. -/
theorem Counts.shrink (h : Counts live db) (hk : 1 < live.count n) :
    Counts (live.erase n) (db.deleteObject n) := by
  have hT : (live.erase n).toFinset = live.toFinset := toFinset_erase_of_one_lt hk
  rw [h.deleteObject_shrink hk]
  refine ⟨fun m hm => h.isTileName m (List.mem_of_mem_erase hm),
    Db.WellNamed.shrinkTile h.wellNamed n 2, fun m => ?_, fun m => ?_, fun m => ?_⟩
  · rw [Db.counters_shrinkTile, h.level2]
    by_cases hm : m = n
    · subst hm
      rw [if_pos ⟨rfl, rfl⟩, List.count_erase_self, modifyHead_tally hk]
    · rw [if_neg (by simp [hm]), List.count_erase_of_ne hm]
  · rw [Db.counters_shrinkTile, if_neg (by omega), h.level1, hT]
  · rw [Db.counters_shrinkTile, if_neg (by omega), h.level0, hT]

/-- Counting down at level 2 keeps the children right. -/
theorem Children.shrink (h : Children live db) (hc : Counts live db) (hk : 1 < live.count n) :
    Children (live.erase n) (db.deleteObject n) := by
  have hT : (live.erase n).toFinset = live.toFinset := toFinset_erase_of_one_lt hk
  have hmem : ∀ m, m ∈ live.erase n ↔ m ∈ live := fun m => by
    rw [← List.mem_toFinset, hT, List.mem_toFinset]
  rw [hc.deleteObject_shrink hk]
  refine ⟨fun m => ?_, fun m => ?_, fun m => ?_⟩
  · rw [Db.childCounts_shrinkTile, h.level2]
    simp only [hmem]
  · rw [Db.childCounts_shrinkTile, h.level1, hT]
  · rw [Db.childCounts_shrinkTile, h.level0, hT]

/-- The last object of a tile takes its counter with it. -/
private theorem tally_count_erase_of_one (hk : live.count n = 1) (m : Str) :
    (if m = n then (tally (live.count m)).tail else tally (live.count m)) =
      tally ((live.erase n).count m) := by
  by_cases hm : m = n
  · subst hm
    rw [if_pos rfl, tail_tally, List.count_erase_self, hk]
    rfl
  · rw [if_neg hm, List.count_erase_of_ne hm]

/-- The tile loses its last object and leaves others under its level-1 tile. The
counters are right; the level-1 tile has a child too many. -/
theorem Counts.prune (h : Counts live db) (hk : live.count n = 1)
    (h10 : 1 < beneath name10Of live.toFinset (name10Of n)) :
    Counts (live.erase n) (db.deleteObject n) := by
  have hT := toFinset_erase_of_eq_one hk
  have hn : n ∈ live.toFinset := by simpa using mem_of_count_eq_one hk
  have h100 := one_lt_beneath_name100Of hn h10
  rw [h.deleteObject_prune hk h10]
  refine ⟨fun m hm => h.isTileName m (List.mem_of_mem_erase hm),
    ((Db.WellNamed.removeTile h.wellNamed _ _).shrinkTile _ _).shrinkTile _ _,
    fun m => ?_, fun m => ?_, fun m => ?_⟩
  · rw [Db.counters_shrinkTile, if_neg (by omega), Db.counters_shrinkTile, if_neg (by omega),
      Db.counters_removeTile, h.level2, ← tally_count_erase_of_one hk]
    simp
  -- the tile goes, and the tiles above it have one fewer beneath them
  · rw [hT, tally_beneath_erase_of_sibling hn h10, ← h.level1]
    simp [Db.counters_shrinkTile, Db.counters_removeTile]
  · rw [hT, tally_beneath_erase_of_sibling hn h100, ← h.level0]
    simp [Db.counters_shrinkTile, Db.counters_removeTile]

/-- Taking a level-2 document only leaves its parent with a child too many. -/
theorem Children.not_prune (h : Children live db) (hc : Counts live db) (hk : live.count n = 1)
    (h10 : 1 < beneath name10Of live.toFinset (name10Of n)) :
    (db.deleteObject n).childCounts 1 (name10Of n) ≠
      tally (beneath name10Of (live.erase n).toFinset (name10Of n)) := by
  have hn : n ∈ live.toFinset := by simpa using mem_of_count_eq_one hk
  have he := beneath_erase (f := name10Of) (b := name10Of n) hn
  rw [hc.deleteObject_prune hk h10, Db.childCounts_shrinkTile, Db.childCounts_shrinkTile,
    Db.childCounts_removeTile, if_neg (by omega), h.level1, toFinset_erase_of_eq_one hk]
  intro heq
  rw [← tally_injective heq, if_pos rfl] at he
  omega

/-- The tile loses its last object and leaves none in its level-0 tile. -/
theorem Counts.clear (h : Counts live db) (hk : live.count n = 1)
    (h100 : beneath name100Of live.toFinset (name100Of n) = 1) :
    Counts (live.erase n) (db.deleteObject n) := by
  have hT := toFinset_erase_of_eq_one hk
  have hn : n ∈ live.toFinset := by simpa using mem_of_count_eq_one hk
  -- alone under its level-0 tile, it is alone under its level-1 tile
  have h10 := Counts.beneath_name10Of_of_alone hk h100
  rw [h.deleteObject_clear hk h100]
  refine ⟨fun m hm => h.isTileName m (List.mem_of_mem_erase hm),
    ((Db.WellNamed.removeTile h.wellNamed _ _).removeTile _ _).removeTile _ _,
    fun m => ?_, fun m => ?_, fun m => ?_⟩
  · rw [Db.counters_removeTile, if_neg (by omega), Db.counters_removeTile, if_neg (by omega),
      Db.counters_removeTile, h.level2, ← tally_count_erase_of_one hk]
    simp
  · rw [hT, tally_beneath_erase_of_alone hn h10, ← h.level1]
    simp [Db.counters_removeTile]
  · rw [hT, tally_beneath_erase_of_alone hn h100, ← h.level0]
    simp [Db.counters_removeTile]

/-- Taking all three documents keeps the numbers of children right. -/
theorem Children.clear (h : Children live db) (hc : Counts live db) (hk : live.count n = 1)
    (h100 : beneath name100Of live.toFinset (name100Of n) = 1) :
    Children (live.erase n) (db.deleteObject n) := by
  have hT := toFinset_erase_of_eq_one hk
  have hn : n ∈ live.toFinset := by simpa using mem_of_count_eq_one hk
  have h10 := Counts.beneath_name10Of_of_alone hk h100
  -- the level-1 tile is the only one under the level-0 tile
  have hn10 : name10Of n ∈ live.toFinset.image name10Of := Finset.mem_image_of_mem _ hn
  have h0 : beneath name100Of (live.toFinset.image name10Of) (name100Of (name10Of n)) = 1 := by
    rw [← alone_iff hn, ← name100Of_comp_name10Of] at h100
    exact (alone_iff hn10).mp h100.image
  have himg := image_erase_of_alone ((alone_iff hn).mpr h10)
  rw [hc.deleteObject_clear hk h100]
  refine ⟨fun m => ?_, fun m => ?_, fun m => ?_⟩
  · rw [Db.childCounts_removeTile, if_neg (by omega), Db.childCounts_removeTile,
      if_neg (by omega), Db.childCounts_removeTile, h.level2]
    by_cases hm : m = n
    · subst hm
      have hgone : m ∉ live.erase m := by
        rw [← List.count_eq_zero, List.count_erase_self, hk]
      rw [if_pos ⟨rfl, rfl⟩, if_neg hgone]
      split <;> rfl
    · rw [if_neg (by simp [hm])]
      simp only [List.mem_erase_of_ne hm]
  · rw [hT, tally_beneath_erase_of_alone hn h10, ← h.level1]
    simp [Db.childCounts_removeTile]
  · rw [hT, himg, tally_beneath_erase_of_alone hn10 h0, name100Of_name10Of, ← h.level0]
    simp [Db.childCounts_removeTile]

/-- The tile loses its last object and so does its level-1 tile, in a level-0 tile
that keeps others. The level-0 tile counts one too few, or is gone. -/
theorem Counts.not_cut (h : Counts live db) (hk : live.count n = 1)
    (h10 : beneath name10Of live.toFinset (name10Of n) = 1)
    (h100 : 1 < beneath name100Of live.toFinset (name100Of n)) :
    (db.deleteObject n).counters 0 (name100Of n) =
      tally (beneath name100Of (live.erase n).toFinset (name100Of n) - 1) := by
  have hn : n ∈ live.toFinset := by simpa using mem_of_count_eq_one hk
  have he := beneath_erase (f := name100Of) (b := name100Of n) hn
  rw [if_pos rfl] at he
  -- pruning the lone child has lowered the counter above once already
  have h0 : (((db.removeTile n 2).removeTile (name10Of n) 1).shrinkTile (name100Of n) 0).counters 0
      (name100Of n) = tally (beneath name100Of (live.toFinset.erase n) (name100Of n)) := by
    rw [Db.counters_shrinkTile, if_pos ⟨rfl, rfl⟩, h.counters_zero_removeTile,
      tally_beneath_erase_of_sibling hn h100, if_pos rfl]
  rw [h.deleteObject_cut hk h10 h100, toFinset_erase_of_eq_one hk]
  -- and `decrease` lowers it again, down to the removal of the tile
  rcases Nat.lt_or_ge 1 (beneath name100Of (live.toFinset.erase n) (name100Of n)) with h1 | h1
  · rw [Db.decrease_of_one_lt h0 h1, Db.counters_shrinkTile, if_pos ⟨rfl, rfl⟩, h0,
      modifyHead_tally h1]
  · have h1 : beneath name100Of (live.toFinset.erase n) (name100Of n) = 1 := by omega
    rw [h1] at h0 ⊢
    rw [Db.decrease_of_one h0, Db.counters_removeTile, if_pos ⟨rfl, rfl⟩, h0]
    rfl

end Hierarchy

end OpenGeoBase
