import Mathlib.Data.Int.ModEq
import Mathlib.Tactic.Linarith
import Mathlib.Tactic.Ring

/-!
# Intervals on a grid

An interval `[a, b)` of whole numbers is cut at the multiples of a width. The pieces cover it
(`exists_mem_cells`), there are as many as there are cells of the grid that meet it
(`length_cells`), and none is longer than a cell. If there is a multiple between `a` and `b`, ends
included, each piece has an end on the grid (`dvd_of_mem_cells`).

Rounded to the grid, from `down` to `up`, the interval is as long as the cells that meet it
(`up_sub_down`).
-/

namespace Grid

/-- The piece of `[a, b)` in the `i`-th cell of width `w`. -/
def cell (w a b i : ℤ) : ℤ × ℤ := (max a (i * w), min b ((i + 1) * w))

/-- The pieces in `n` cells from the `i`-th on. -/
def cellsFrom (w a b : ℤ) : ℤ → ℕ → List (ℤ × ℤ)
  | _, 0 => []
  | i, n + 1 => cell w a b i :: cellsFrom w a b (i + 1) n

/-- The number of the cells that meet `[a, b)`. -/
def count (w a b : ℤ) : ℤ := (b - 1) / w - a / w + 1

/-- The pieces of `[a, b)`. -/
def cells (w a b : ℤ) : List (ℤ × ℤ) := cellsFrom w a b (a / w) (count w a b).toNat

/-- There is a multiple of the width between `a` and `b`. -/
def Cut (w a b : ℤ) : Prop := a ≤ b / w * w

instance (w a b : ℤ) : Decidable (Cut w a b) := inferInstanceAs (Decidable (a ≤ b / w * w))

/-- The last multiple of the width that is not greater. -/
def down (w a : ℤ) : ℤ := a / w * w

/-- The first multiple of the width that is not less. -/
def up (w b : ℤ) : ℤ := ((b - 1) / w + 1) * w

variable {w a b : ℤ}

/-- The cells of a run of cells are those at its positions. -/
theorem mem_cellsFrom {i : ℤ} {n : ℕ} {p : ℤ × ℤ} :
    p ∈ cellsFrom w a b i n ↔ ∃ k < n, p = cell w a b (i + k) := by
  -- over the number of cells, the first of them apart
  induction n generalizing i with
  | zero => simp [cellsFrom]
  | succ n ih =>
    unfold cellsFrom
    rw [List.mem_cons, ih]
    constructor
    · rintro (rfl | ⟨k, hk, rfl⟩)
      · exact ⟨0, Nat.succ_pos n, by simp⟩
      · refine ⟨k + 1, Nat.succ_lt_succ hk, ?_⟩
        push_cast
        ring_nf
    · rintro ⟨k, hk, rfl⟩
      cases k with
      | zero => exact Or.inl (by simp)
      | succ k =>
        refine Or.inr ⟨k, Nat.lt_of_succ_lt_succ hk, ?_⟩
        push_cast
        ring_nf

@[simp] theorem length_cellsFrom (i : ℤ) (n : ℕ) : (cellsFrom w a b i n).length = n := by
  induction n generalizing i with
  | zero => rfl
  | succ n ih => rw [cellsFrom, List.length_cons, ih]

section Width

variable (hw : 0 < w)
include hw

/-- The pieces, by the numbers of their cells. -/
theorem mem_cells {p : ℤ × ℤ} :
    p ∈ cells w a b ↔ ∃ i, a / w ≤ i ∧ i * w < b ∧ p = cell w a b i := by
  unfold cells count
  rw [mem_cellsFrom]
  have hlast : ∀ i, i ≤ (b - 1) / w ↔ i * w < b := fun i => by
    rw [Int.le_ediv_iff_mul_le hw]
    omega
  constructor
  · rintro ⟨k, hk, rfl⟩
    exact ⟨a / w + k, by omega, (hlast _).mp (by omega), rfl⟩
  · rintro ⟨i, hfirst, hlt, rfl⟩
    have hle := (hlast i).mpr hlt
    refine ⟨(i - a / w).toNat, by omega, ?_⟩
    congr 1
    omega

/-- **The pieces cover the interval.** -/
theorem exists_mem_cells {t : ℤ} (hle : a ≤ t) (hlt : t < b) :
    ∃ p ∈ cells w a b, p.1 ≤ t ∧ t < p.2 := by
  have hfloor : t / w * w ≤ t := Int.ediv_mul_le t hw.ne'
  have hceil : t < (t / w + 1) * w := Int.lt_ediv_add_one_mul_self t hw
  refine ⟨cell w a b (t / w), (mem_cells hw).mpr ⟨t / w, ?_, by omega, rfl⟩, ?_, ?_⟩
  · exact Int.ediv_le_ediv hw hle
  · exact max_le hle hfloor
  · exact lt_min hlt hceil

/-- A piece lies in the interval, is not empty, and is at most as long as a cell. -/
theorem of_mem_cells (hab : a < b) {p : ℤ × ℤ} (hp : p ∈ cells w a b) :
    a ≤ p.1 ∧ p.1 < p.2 ∧ p.2 ≤ b ∧ p.2 - p.1 ≤ w := by
  obtain ⟨i, hfirst, hlt, rfl⟩ := (mem_cells hw).mp hp
  have hnext : a < (i + 1) * w := by
    have hceil := Int.lt_ediv_add_one_mul_self a hw
    have hmul := mul_le_mul_of_nonneg_right (by omega : a / w + 1 ≤ i + 1) hw.le
    omega
  have hadd : (i + 1) * w = i * w + w := by ring
  unfold cell
  dsimp only
  omega

/-- The number of the pieces. -/
theorem length_cells (hab : a < b) : ((cells w a b).length : ℤ) = count w a b := by
  have hle : a / w ≤ (b - 1) / w := Int.ediv_le_ediv hw (by omega)
  unfold cells
  rw [length_cellsFrom, Int.toNat_of_nonneg]
  unfold count
  omega

/-- With a multiple, one of the ends of a piece is on the grid. -/
theorem dvd_of_mem_cells (h : Cut w a b) {p : ℤ × ℤ} (hp : p ∈ cells w a b) :
    w ∣ p.1 ∨ w ∣ p.2 := by
  obtain ⟨i, hfirst, hlt, rfl⟩ := (mem_cells hw).mp hp
  unfold Cut at h
  unfold cell
  dsimp only
  -- a cell that begins at a multiple is done
  by_cases hstart : a ≤ i * w
  · rw [max_eq_right hstart]
    exact Or.inl (Dvd.intro_left i rfl)
  · -- the cell begins before the interval, so the multiple is behind it
    have hnext : (i + 1) * w ≤ b := by
      have hi : i < b / w := by
        by_contra hge
        have hmul := mul_le_mul_of_nonneg_right (not_lt.mp hge) hw.le
        omega
      exact (Int.le_ediv_iff_mul_le hw).mp hi
    rw [min_eq_right hnext]
    exact Or.inr (Dvd.intro_left (i + 1) rfl)

/-- An interval that is at least as long as a cell has a multiple in it. -/
theorem cut_of_le (h : w ≤ b - a) : Cut w a b := by
  have hceil := Int.lt_ediv_add_one_mul_self b hw
  have hadd : (b / w + 1) * w = b / w * w + w := by ring
  unfold Cut
  omega

/-- There are at most two pieces that are no whole cells. -/
theorem count_le : count w a b ≤ (b - a) / w + 2 := by
  have hlast := Int.ediv_mul_le (b - 1) hw.ne'
  have hfirst := Int.lt_ediv_add_one_mul_self a hw
  have hle : count w a b - 2 ≤ (b - a) / w := by
    rw [Int.le_ediv_iff_mul_le hw]
    unfold count
    have hring : ((b - 1) / w - a / w + 1 - 2) * w = (b - 1) / w * w - (a / w + 1) * w := by ring
    omega
  omega

/-- An interval that is no longer than a cell, and has an end on the grid, meets one cell. -/
theorem count_eq_one (hab : a < b) (hle : b - a ≤ w) (h : w ∣ a ∨ w ∣ b) : count w a b = 1 := by
  have hmono : a / w ≤ (b - 1) / w := Int.ediv_le_ediv hw (by omega)
  -- an interval no longer than a cell with a multiple at one end stays within one cell
  have hge : (b - 1) / w ≤ a / w := by
    rcases h with ⟨q, rfl⟩ | ⟨q, rfl⟩
    · rw [Int.mul_ediv_cancel_left q hw.ne', ← Int.lt_add_one_iff, Int.ediv_lt_iff_lt_mul hw]
      have hring : (q + 1) * w = w * q + w := by ring
      omega
    · have hlast : (w * q - 1) / w < q := by
        rw [Int.ediv_lt_iff_lt_mul hw, mul_comm q]
        omega
      have hfirst : q - 1 ≤ a / w := by
        rw [Int.le_ediv_iff_mul_le hw]
        have hring : (q - 1) * w = w * q - w := by ring
        omega
      omega
  unfold count
  omega

/-! ### Rounding to the grid -/

omit hw in
/-- The cells fill what is between the outer ends. -/
theorem up_sub_down : up w b - down w a = count w a b * w := by
  unfold up down count
  ring

/-- The lower end is rounded down. -/
theorem down_le (a : ℤ) : down w a ≤ a := Int.ediv_mul_le a hw.ne'

theorem le_up (b : ℤ) : b ≤ up w b := by
  have hceil := Int.lt_ediv_add_one_mul_self (b - 1) hw
  unfold up
  omega

/-- Rounding down does not go below zero. -/
theorem down_nonneg (h : 0 ≤ a) : 0 ≤ down w a :=
  mul_nonneg (Int.ediv_nonneg h hw.le) hw.le

/-- A bound on the grid stays one. -/
theorem up_le {limit : ℤ} (hdvd : w ∣ limit) (h : b ≤ limit) : up w b ≤ limit := by
  obtain ⟨q, rfl⟩ := hdvd
  have hlt : (b - 1) / w < q := by
    rw [Int.ediv_lt_iff_lt_mul hw, mul_comm q]
    omega
  have hmul := mul_le_mul_of_nonneg_right (by omega : (b - 1) / w + 1 ≤ q) hw.le
  unfold up
  rwa [mul_comm w]

omit hw in
/-- Rounding by the remainder. -/
theorem down_eq : down w a = if a % w ≠ 0 then a - a % w else a := by
  have hdiv := Int.ediv_mul_add_emod a w
  unfold down
  split
  all_goals omega

/-- The upper end as the remainder gives it. -/
theorem up_eq : up w b = if b % w ≠ 0 then b - b % w + w else b := by
  have hdiv := Int.ediv_mul_add_emod b w
  have hpos := Int.emod_nonneg b hw.ne'
  have hlt := Int.emod_lt_of_pos b hw
  unfold up
  split
  · next hne =>
    -- off the grid the last point is in the cell of the end
    have hquot : (b - 1) / w = b / w := by
      rw [Int.ediv_eq_iff_of_pos hw]
      have hring : (b / w + 1) * w = b / w * w + w := by ring
      omega
    rw [hquot, add_mul]
    omega
  · next heq =>
    -- on the grid it is in the cell before
    have hquot : (b - 1) / w = b / w - 1 := by
      rw [Int.ediv_eq_iff_of_pos hw]
      have hring : (b / w - 1) * w = b / w * w - w := by ring
      have hring' : (b / w - 1 + 1) * w = b / w * w := by ring
      omega
    rw [hquot, sub_add_cancel]
    omega

end Width

end Grid
