import OpenGeoBase.Repo.Database
import OpenGeoBase.Repo.Naming
import Mathlib.Data.List.Sort

/-!
# The advertised index and its rebuild

`constrainedTesselation` picks the tiles to advertise. Starting from a collection
in which exactly the level-2 tiles are leaves (`resetFullTileDB`), it aggregates
tiles with many tiles beneath them into their level-0 or level-1 ancestor until at
most `threshold` leaves are left; `buildIndexDB` then advertises the leaves and
bumps the version.

The outer loop of the tessellation need not end. `constrainedTesselation` takes a
bound on the number of its iterations and says how it ended: it returned, it left
the process through `exit`, or it was still running at the bound. Ties in the sort
by counter may be broken in any way, a new one at each call (`CounterSort`).
-/

namespace OpenGeoBase

open Text AtomicCalls Collection

/-- How a bounded run of the code ended. -/
inductive Ended where
  | returned
  | exited
  | running
  deriving DecidableEq

/-- The finest level of the tessellation. -/
def maxTessellationLevel : ℕ := 2

/-- A way to sort tile documents by descending counter. -/
structure CounterSort where
  /-- The sorted collection. -/
  sort : List TileDoc → List TileDoc
  perm : ∀ c, (sort c).Perm c
  sorted : ∀ c, (sort c).Pairwise fun d e => e.counter ≤ d.counter

/-- The stable sort by descending counter. -/
def CounterSort.stable : CounterSort where
  sort := List.insertionSort fun d e => e.counter ≤ d.counter
  perm := List.perm_insertionSort _
  sorted c :=
    have : Std.Total fun d e : TileDoc => e.counter ≤ d.counter :=
      ⟨fun d e => le_total e.counter d.counter⟩
    have : IsTrans TileDoc fun d e => e.counter ≤ d.counter := ⟨fun _ _ _ h₁ h₂ => h₂.trans h₁⟩
    List.pairwise_insertionSort _ c

/-! ### The version -/

/-- `MongoStorage::versionUpdater`. The version is taken as unbounded. -/
def versionUpdater : Prog Db Unit := do
  let entry ← Prog.query fun db => db.indexVersionCollection.find? VersionDoc.isVersion
  match entry with
  | none =>
    onVersion (insertOne ⟨indexVersionName, 1⟩)
    sendVersionInterest 1
  | some doc =>
    let indexVersionValue := doc.indexVersion + 1
    onVersion (updateOne VersionDoc.isVersion ({ · with indexVersion := indexVersionValue }))
    sendVersionInterest indexVersionValue

/-! ### The rebuild -/

/-- `MongoStorage::resetFullTileDB`: nothing is cancelled, the leaves are the level-2 tiles. -/
def resetFullTileDB : Prog Db Unit := do
  onTiles (updateMany (fun _ => true) ({ · with leaf := false, cancelled := false }))
  onTiles (updateMany (·.level == maxTessellationLevel) ({ · with leaf := true }))

/-- The aggregation of one tile: it becomes a leaf, the tiles beneath it are cancelled. -/
def aggregateTile (i : ℕ) (name : Str) : Prog Db Unit := do
  onTiles (updateOne (fun d => d.isTile i name && !d.cancelled) ({ · with leaf := true }))
  onTiles (updateMany (fun d => d.key i == name && decide (i < d.level))
    ({ · with leaf := false, cancelled := true }))

/-- The loop over the sorted tiles of a level; `false` on `exit(EXIT_FAILURE)`. -/
def aggregateTiles (threshold : ℤ) (i : ℕ) : List TileDoc → ℤ → ℤ → Prog Db Bool
  | [], _, _ => pure true
  | doc :: docs, x, y =>
    if doc.key i = xx then pure false
    else do
      aggregateTile i (doc.key i)
      if x - doc.children + (y + 1) ≤ threshold then pure true
      else aggregateTiles threshold i docs (x - doc.children) (y + 1)

/-- One level of the tessellation. `x` and `y` are the tiles of level `i + 1` and
the leaves down to level `i`, of those not cancelled. -/
def tesselateLevel (threshold : ℤ) (sort : CounterSort) (i : ℕ) : Prog Db Bool := do
  let y ← countTiles fun d => decide (d.level ≤ i) && d.leaf && !d.cancelled
  let x ← countTiles fun d => d.level == i + 1 && !d.cancelled
  if x + y > threshold then do
    let docs ← findTiles fun d => d.level == i && !d.cancelled && !d.leaf
    aggregateTiles threshold i (sort.sort docs) x y
  else pure true

/-- The inner loop: the levels above the finest one, then the number of leaves. -/
def tesselateLevels (threshold : ℤ) (sorts : ℕ → CounterSort) : List ℕ → ℤ → Prog Db (Option ℤ)
  | [], nLeaf => pure (some nLeaf)
  | i :: is, _ => do
    let ok ← tesselateLevel threshold (sorts i) i
    if ok then do
      let nLeaf ← countTiles (·.leaf)
      tesselateLevels threshold sorts is nLeaf
    else pure none

/-- The outer loop, for at most the given number of iterations. -/
def tesselationLoop (threshold : ℤ) (sorts : ℕ → ℕ → CounterSort) : ℕ → ℤ → Prog Db Ended
  | 0, nLeaf => pure (if nLeaf > threshold then .running else .returned)
  | n + 1, nLeaf =>
    if nLeaf > threshold then do
      let nLeaf? ← tesselateLevels threshold (sorts n) (List.range maxTessellationLevel) nLeaf
      match nLeaf? with
      | some nLeaf => tesselationLoop threshold sorts n nLeaf
      | none => pure .exited
    else pure .returned

/-- `constrainedTesselation`, cut off after `bound` iterations of its outer loop. -/
def constrainedTesselation (threshold : ℤ) (sorts : ℕ → ℕ → CounterSort) (bound : ℕ) :
    Prog Db Ended := do
  let nLeaf ← countTiles (·.leaf)
  tesselationLoop threshold sorts bound nLeaf

/-- The name a leaf is advertised under. -/
def TileDoc.indexName (d : TileDoc) : Str := d.key d.level

/-- The loop of `buildIndexDB` over the leaves. -/
def insertIndexNames : List TileDoc → Prog Db Unit
  | [] => pure ()
  | doc :: docs => do
    onIndex (insertOne ⟨doc.indexName, 1000⟩)
    insertIndexNames docs

/-- `MongoStorage::buildIndexDB`. -/
def buildIndexDB : Prog Db Unit := do
  onIndex fun _ => []
  let docs ← findTiles (·.leaf)
  insertIndexNames docs
  versionUpdater

/-- The rebuild of the index: reset, tessellation, new index. -/
def rebuildIndex (threshold : ℤ) (sorts : ℕ → ℕ → CounterSort) (bound : ℕ) : Prog Db Ended := do
  resetFullTileDB
  let ended ← constrainedTesselation threshold sorts bound
  match ended with
  | .returned => do
    buildIndexDB
    pure .returned
  | e => pure e

end OpenGeoBase
