import Mathlib.Data.List.Basic
import Mathlib.Order.Lattice
import Mathlib.Tactic.Common

/-!
# Blocks of a list

A list is cut into blocks of a size `b`; all of them are full but the last one, which may be
shorter and is not empty. There is a block `k` if and only if the list goes on after `k * b`
elements (`lt_count_iff`), the first blocks are the beginning of the list (`flatten_blocks`), and
all of them are the list (`flatten_blocks_of_count_le`).
-/

namespace Blocks

variable {α : Type} {b k : ℕ} {xs : List α}

/-- A block. -/
def block (b : ℕ) (xs : List α) (k : ℕ) : List α := (xs.drop (k * b)).take b

/-- The number of blocks. -/
def count (b : ℕ) (xs : List α) : ℕ := (xs.length + b - 1) / b

/-- A block is there if there is something behind the ones before it. -/
theorem lt_count_iff (hb : 0 < b) : k < count b xs ↔ k * b < xs.length := by
  unfold count
  rw [← Nat.succ_le_iff, Nat.le_div_iff_mul_le hb, Nat.succ_mul]
  omega

/-- So many blocks are enough if nothing is behind them. -/
theorem count_le_iff (hb : 0 < b) : count b xs ≤ k ↔ xs.drop (k * b) = [] := by
  rw [List.drop_eq_nil_iff, ← not_lt, lt_count_iff hb, not_lt]

/-- A list that is not empty has a block. -/
theorem count_pos (hb : 0 < b) (h : xs ≠ []) : 0 < count b xs := by
  rw [lt_count_iff hb, Nat.zero_mul]
  exact List.length_pos_iff.mpr h

/-- The blocks that are there are the ones that are not empty. -/
theorem block_eq_nil_iff (hb : 0 < b) : block b xs k = [] ↔ count b xs ≤ k := by
  rw [count_le_iff hb, block, List.take_eq_nil_iff]
  exact or_iff_right (Nat.ne_of_gt hb)

/-- What comes after a block. -/
theorem drop_drop_block (b : ℕ) (xs : List α) (k : ℕ) :
    (xs.drop (k * b)).drop b = xs.drop ((k + 1) * b) := by
  rw [List.drop_drop, Nat.succ_mul]

/-- The first blocks are the beginning of the list. -/
theorem flatten_blocks (b : ℕ) (xs : List α) (k : ℕ) :
    ((List.range k).map (block b xs)).flatten = xs.take (k * b) := by
  induction k with
  | zero => simp
  | succ k ih =>
    rw [List.range_succ, List.map_append, List.flatten_append, ih, List.map_singleton,
      List.flatten_singleton, Nat.succ_mul, List.take_add, block]

/-- All the blocks together are the list. -/
theorem flatten_blocks_of_count_le (hb : 0 < b) (h : count b xs ≤ k) :
    ((List.range k).map (block b xs)).flatten = xs := by
  rw [flatten_blocks]
  exact List.take_of_length_le (List.drop_eq_nil_iff.mp ((count_le_iff hb).mp h))

/-- One block more. -/
theorem flatten_blocks_succ (b : ℕ) (xs : List α) (k : ℕ) :
    ((List.range (k + 1)).map (block b xs)).flatten =
      ((List.range k).map (block b xs)).flatten ++ block b xs k := by
  rw [List.range_succ, List.map_append, List.flatten_append, List.map_singleton,
    List.flatten_singleton]

end Blocks
