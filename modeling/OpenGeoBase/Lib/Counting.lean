import Mathlib.Data.Int.ModEq
import Mathlib.Data.List.Nodup
import Mathlib.Data.List.Range
import Mathlib.Tactic.Common
import Mathlib.Tactic.Linarith
import Mathlib.Tactic.Ring

/-!
# Counting loops

A loop `for (; condition; i++)` over a counter that starts again at 0 when it gets to `W`. Its body
changes a state, or does not return. If the condition holds from the start up to a number and not
there, the loop goes over the numbers in between (`loop_eq`). A condition that always holds makes
it endless, whatever the body does (`loop_endless`).

The values of a counter that goes up to a number in steps are a list (`steps`), which is that of the
loop (`steps_eq`).
-/

namespace Counting

variable {σ : Type}

/-- The counter and the state after the loop; `none` when the fuel runs out or the body does not
return. -/
def loop (W : ℕ) (condition : ℕ → Bool) (body : ℕ → σ → Option σ) : ℕ → ℕ → σ → Option (ℕ × σ)
  | 0, _, _ => none
  | fuel + 1, i, s =>
    if condition i then (body i s).bind (loop W condition body fuel ((i + 1) % W))
    else some (i, s)

variable {W : ℕ} {condition : ℕ → Bool} {body : ℕ → σ → Option σ}

/-- The loop goes over the numbers for which its condition holds. -/
theorem loop_eq {i e fuel : ℕ} (hle : i ≤ e) (hlt : e < W)
    (hholds : ∀ j, i ≤ j → j < e → condition j = true) (hends : condition e = false)
    (hfuel : e - i < fuel) (s : σ) :
    loop W condition body fuel i s =
      ((List.range' i (e - i)).foldlM (fun s i => body i s) s).map (e, ·) := by
  induction fuel generalizing i s with
  | zero => exact absurd hfuel (Nat.not_lt_zero _)
  | succ fuel ih =>
    rcases Nat.eq_or_lt_of_le hle with rfl | hlt'
    · rw [Nat.sub_self, loop, hends, if_neg (by simp)]
      rfl
    · obtain ⟨n, hn⟩ : ∃ n, e - i = n + 1 := ⟨e - i - 1, by omega⟩
      have hn' : e - (i + 1) = n := by omega
      rw [loop, if_pos (hholds i le_rfl hlt'), Nat.mod_eq_of_lt (by omega : i + 1 < W), hn,
        List.range'_succ, List.foldlM_cons]
      cases hbody : body i s with
      | none => rfl
      | some s' =>
        have hrest := ih hlt' (fun j hj => hholds j (Nat.le_of_succ_le hj)) (by omega) s'
        rw [hn'] at hrest
        exact hrest

/-- The loop never ends. -/
theorem loop_endless (hholds : ∀ j < W, condition j = true) {i : ℕ} (hi : i < W) (fuel : ℕ)
    (s : σ) : loop W condition body fuel i s = none := by
  induction fuel generalizing i s with
  | zero => rfl
  | succ fuel ih =>
    rw [loop, if_pos (hholds i hi)]
    cases body i s with
    | none => rfl
    | some s' => exact ih (Nat.mod_lt _ (Nat.zero_lt_of_lt hi)) s'

/-! ### Steps -/

/-- The values of `i` in `for (i = start; i < stop; i += step)`. -/
def steps (start stop step : ℤ) : List ℤ :=
  (List.range ((stop - start + step - 1) / step).toNat).map fun n : ℕ => start + step * n

section Steps

variable {start stop step x : ℤ}

/-- One round of the loop. -/
theorem steps_eq (hstep : 0 < step) :
    steps start stop step =
      if start < stop then start :: steps (start + step) stop step else [] := by
  unfold steps
  split
  · next hlt =>
    have hrounds : ((stop - start + step - 1) / step).toNat =
        ((stop - (start + step) + step - 1) / step).toNat + 1 := by
      have hone : stop - start + step - 1 = stop - (start + step) + step - 1 + step * 1 := by ring
      have hnonneg : 0 ≤ (stop - (start + step) + step - 1) / step :=
        Int.ediv_nonneg (by omega) hstep.le
      rw [hone, Int.add_mul_ediv_left _ _ hstep.ne']
      omega
    rw [hrounds, List.range_succ_eq_map, List.map_cons, List.map_map]
    congr 1
    · simp
    · refine List.map_congr_left fun n _ => ?_
      simp only [Function.comp_apply]
      push_cast
      ring
  · next hge =>
    have hrounds : (stop - start + step - 1) / step ≤ 0 := by
      rw [← Int.lt_add_one_iff, Int.ediv_lt_iff_lt_mul hstep]
      omega
    rw [Int.toNat_of_nonpos hrounds]
    rfl

/-- The values of the counter: those from the start up to the end, in steps. -/
theorem mem_steps (hstep : 0 < step) :
    x ∈ steps start stop step ↔ start ≤ x ∧ x < stop ∧ step ∣ x - start := by
  unfold steps
  simp only [List.mem_map, List.mem_range]
  have hlast : ∀ n : ℕ, n < ((stop - start + step - 1) / step).toNat ↔ start + step * n < stop := by
    intro n
    rw [Int.lt_toNat, Int.lt_iff_add_one_le, Int.le_ediv_iff_mul_le hstep]
    have hring : ((n : ℤ) + 1) * step = step * n + step := by ring
    omega
  constructor
  · rintro ⟨n, hn, rfl⟩
    refine ⟨?_, (hlast n).mp hn, ⟨n, by ring⟩⟩
    have := mul_nonneg hstep.le (Int.natCast_nonneg n)
    omega
  · rintro ⟨hle, hlt, q, hq⟩
    have hq' : 0 ≤ q := by
      by_contra hneg
      have := mul_neg_of_pos_of_neg hstep (not_le.mp hneg)
      omega
    obtain ⟨n, rfl⟩ := Int.eq_ofNat_of_zero_le hq'
    exact ⟨n, (hlast n).mpr (by omega), by omega⟩

/-- Between multiples of the step these are the multiples. -/
theorem mem_steps_mul (hstep : 0 < step) {a b : ℤ} :
    x ∈ steps (step * a) (step * b) step ↔ ∃ y, x = step * y ∧ a ≤ y ∧ y < b := by
  rw [mem_steps hstep]
  constructor
  · rintro ⟨hle, hlt, q, hq⟩
    have hx : x = step * (a + q) := by
      rw [mul_add]
      omega
    rw [hx] at hle hlt
    exact ⟨a + q, hx, le_of_mul_le_mul_left hle hstep, lt_of_mul_lt_mul_left hlt hstep.le⟩
  · rintro ⟨y, rfl, hle, hlt⟩
    exact ⟨mul_le_mul_of_nonneg_left hle hstep.le, mul_lt_mul_of_pos_left hlt hstep, y - a, by ring⟩

/-- Between multiples of the step there are as many turns as multiples. -/
theorem length_steps (hstep : 0 < step) (a b : ℤ) :
    (steps (step * a) (step * b) step).length = (b - a).toNat := by
  have hrounds : step * b - step * a + step - 1 = step - 1 + step * (b - a) := by ring
  unfold steps
  rw [List.length_map, List.length_range, hrounds,
    Int.add_mul_ediv_left _ _ hstep.ne', Int.ediv_eq_zero_of_lt (by omega) (by omega), zero_add]

/-- The counter has no value twice. -/
theorem nodup_steps (hstep : step ≠ 0) : (steps start stop step).Nodup := by
  refine List.Nodup.map (fun m n h => ?_) List.nodup_range
  exact_mod_cast mul_left_cancel₀ hstep (add_left_cancel h)

end Steps

end Counting
