import OpenGeoBase.Lib.Counting
import Mathlib.Algebra.Ring.Divisibility.Basic

/-!
# Loops over an `int`

An `int` has 32 bits. What is calculated with it wraps around at its ends (`wrap`), and a number
that is cast to it from a wider type is taken to the nearer end (`saturate`).

The counter of `for (int i = start; i < stop; i += step)` wraps around too. After 2^32 turns all its
values have come up, so a loop that goes on for so long goes on for ever
(`forLoop_eq_none_iff`). Between multiples of the step the loop goes over what lies between them
(`forLoop_eq_steps`). But it never ends if no value that the counter can have is beyond its bound
(`forLoop_endless`).
-/

namespace JavaInt

open Counting

/-- The number is one of an `int`. -/
def Fits (z : ℤ) : Prop := -2 ^ 31 ≤ z ∧ z < 2 ^ 31

instance : DecidablePred Fits := fun _ => inferInstanceAs (Decidable (_ ∧ _))

/-- The result of an operation on `int`s. -/
def wrap (z : ℤ) : ℤ := z.bmod (2 ^ 32)

/-- The cast to an `int` of a whole number that a wider type holds. -/
def saturate (z : ℤ) : ℤ := max (-2 ^ 31) (min z (2 ^ 31 - 1))

variable {z : ℤ}

/-- What wraps around is an `int`. -/
theorem fits_wrap (z : ℤ) : Fits (wrap z) := by
  have hle := Int.le_bmod (x := z) (m := 2 ^ 32) (by decide)
  have hlt := Int.bmod_lt (x := z) (m := 2 ^ 32) (by decide)
  unfold Fits wrap
  omega

theorem wrap_eq_self (h : Fits z) : wrap z = z := by
  unfold Fits at h
  exact Int.bmod_eq_of_le (by omega) (by omega)

/-- Only the last of several operations has to wrap. -/
theorem wrap_wrap_add (x y : ℤ) : wrap (wrap x + y) = wrap (x + y) := Int.bmod_add_bmod

/-- Wrapping around keeps divisibility by powers of two. -/
theorem dvd_wrap {g : ℤ} (hg : g ∣ 2 ^ 32) (h : g ∣ z) : g ∣ wrap z := by
  have hmod : (2 ^ 32 : ℤ) ∣ wrap z - z := by
    exact_mod_cast Int.dvd_bmod_sub_self (x := z) (m := 2 ^ 32)
  have hsum := dvd_add (hg.trans hmod) h
  rwa [sub_add_cancel] at hsum

/-- A conversion saturates at an `int`. -/
theorem fits_saturate (z : ℤ) : Fits (saturate z) := by
  unfold Fits saturate
  omega

theorem saturate_eq_self (h : Fits z) : saturate z = z := by
  unfold Fits at h
  unfold saturate
  omega

/-! ### The loop -/

/-- The values of `i` in at most so many turns of the loop; `none` when it goes on after them. -/
def turns (stop step : ℤ) : ℕ → ℤ → Option (List ℤ)
  | 0, i => if i < stop then none else some []
  | n + 1, i => if i < stop then (turns stop step n (wrap (i + step))).map (i :: ·) else some []

/-- The values of `i` in `for (int i = start; i < stop; i += step)`; `none` when it never ends. -/
def forLoop (start stop step : ℤ) : Option (List ℤ) := turns stop step (2 ^ 32) start

variable {start stop step : ℤ} {n : ℕ}

/-- The loop ends at once when the start has reached the end. -/
theorem turns_of_le (h : stop ≤ start) (n : ℕ) : turns stop step n start = some [] := by
  cases n <;> exact if_neg (not_lt.mpr h)

/-- So does the whole loop. -/
theorem forLoop_of_le (h : stop ≤ start) : forLoop start stop step = some [] := turns_of_le h _

/-- **The loop without an overflow** goes up in steps. -/
theorem turns_eq_steps (hstep : 0 < step) (hstart : -2 ^ 31 ≤ start)
    (hfits : ∀ i ∈ steps start stop step, i + step < 2 ^ 31)
    (hn : (steps start stop step).length ≤ n) :
    turns stop step n start = some (steps start stop step) := by
  induction n generalizing start with
  | zero =>
    rw [List.length_eq_zero_iff.mp (Nat.le_zero.mp hn)]
    rw [steps_eq hstep] at hn
    refine if_neg fun hlt => ?_
    rw [if_pos hlt] at hn
    exact absurd hn (Nat.not_succ_le_zero _)
  | succ n ih =>
    rw [steps_eq hstep] at hfits hn ⊢
    unfold turns
    split
    · next hlt =>
      rw [if_pos hlt] at hfits hn
      have hnext := hfits start List.mem_cons_self
      -- the counter has not got to the end of its range
      rw [wrap_eq_self ⟨by omega, hnext⟩]
      have hrest := @ih (start + step) (by omega)
        (fun i hi => hfits i (List.mem_cons_of_mem _ hi)) (Nat.le_of_succ_le_succ hn)
      rw [hrest]
      rfl
    · rfl

/-- There are no more turns than `int`s. -/
theorem length_steps_le (hstep : 0 < step) (hstart : Fits start) (hstop : Fits stop) :
    (steps start stop step).length ≤ 2 ^ 32 := by
  unfold Fits at hstart hstop
  have hrounds : (stop - start + step - 1) / step ≤ 2 ^ 32 := by
    refine Int.le_of_lt_add_one ((Int.ediv_lt_iff_lt_mul hstep).mpr ?_)
    have hmul := Int.mul_le_mul_of_nonneg_left (by omega : (1 : ℤ) ≤ step)
      (by norm_num : (0 : ℤ) ≤ 2 ^ 32)
    have hexpand : ((2 : ℤ) ^ 32 + 1) * step = 2 ^ 32 * step + step := by ring
    omega
  unfold steps
  rw [List.length_map, List.length_range]
  omega

/-- **Between multiples of the step** the loop ends. -/
theorem forLoop_eq_steps (hstep : 0 < step) (hstart : Fits start) (hstop : Fits stop)
    (hdvd : step ∣ start) (hdvd' : step ∣ stop) :
    forLoop start stop step = some (steps start stop step) := by
  refine turns_eq_steps hstep hstart.1 (fun i hi => ?_) (length_steps_le hstep hstart hstop)
  obtain ⟨-, hlt, hi⟩ := (mem_steps hstep).mp hi
  -- the last value is a whole step before the bound
  have hle : step ≤ stop - i := by
    have hdiff : step ∣ stop - i := by
      have hsub := dvd_sub (dvd_sub hdvd' hdvd) hi
      rwa [sub_sub_sub_cancel_right] at hsub
    exact Int.le_of_dvd (by omega) hdiff
  have hend := hstop.2
  omega

/-- The loop is still running after `n` turns exactly if every counter so far is below the end. -/
theorem turns_eq_none_iff (hstart : Fits start) :
    turns stop step n start = none ↔ ∀ m : ℕ, m ≤ n → wrap (start + m * step) < stop := by
  have hnow : ∀ {i}, Fits i → wrap (i + (0 : ℕ) * step) = i := fun {i} hi => by
    rw [Nat.cast_zero, zero_mul, add_zero, wrap_eq_self hi]
  induction n generalizing start with
  | zero =>
    have hturns : turns stop step 0 start = none ↔ start < stop := by
      unfold turns
      split <;> simp [*]
    rw [hturns]
    constructor
    · intro h m hm
      obtain rfl := Nat.le_zero.mp hm
      rwa [hnow hstart]
    · intro h
      rw [← hnow hstart]
      exact h 0 le_rfl
  | succ n ih =>
    have hnext : ∀ m : ℕ, wrap (wrap (start + step) + m * step) =
        wrap (start + (m + 1 : ℕ) * step) := by
      intro m
      rw [wrap_wrap_add]
      push_cast
      congr 1
      ring
    unfold turns
    split
    · next hlt =>
      refine Option.map_eq_none_iff.trans ((ih (fits_wrap _)).trans ?_)
      constructor
      · intro h m hm
        cases m with
        | zero => rwa [hnow hstart]
        | succ m =>
          rw [← hnext]
          exact h m (Nat.le_of_succ_le_succ hm)
      · intro h m hm
        rw [hnext]
        exact h (m + 1) (Nat.succ_le_succ hm)
    · next hge =>
      refine iff_of_false (Option.some_ne_none _) fun h => hge ?_
      rw [← hnow hstart]
      exact h 0 (Nat.zero_le _)

/-- **A loop that has not ended after 2^32 turns never ends**, for its counter is where it was. -/
theorem forLoop_eq_none_iff (hstart : Fits start) :
    forLoop start stop step = none ↔ ∀ m : ℕ, wrap (start + m * step) < stop := by
  unfold forLoop
  rw [turns_eq_none_iff hstart]
  refine ⟨fun h m => ?_, fun h m _ => h m⟩
  have hperiod : wrap (start + m * step) = wrap (start + (m % 2 ^ 32 : ℕ) * step) := by
    have hm : (m : ℤ) = (m % 2 ^ 32 : ℕ) + 2 ^ 32 * (m / 2 ^ 32 : ℕ) := by
      exact_mod_cast (Nat.mod_add_div m (2 ^ 32)).symm
    have hsum : start + m * step = start + (m % 2 ^ 32 : ℕ) * step +
        ((2 ^ 32 : ℕ) : ℤ) * ((m / 2 ^ 32 : ℕ) * step) := by
      rw [hm]
      push_cast
      ring
    unfold wrap
    rw [hsum, Int.add_mul_bmod_self_left]
  rw [hperiod]
  exact h _ (Nat.mod_lt m (by decide)).le

/-- **An endless loop**: no multiple of `g` in the range of an `int` is beyond the bound, and the
counter goes over such multiples only. -/
theorem forLoop_endless {g : ℤ} (hg : g ∣ 2 ^ 32) (hstart : Fits start) (hdvd : g ∣ start)
    (hstep : g ∣ step) (hstop : ∀ z, Fits z → g ∣ z → z < stop) :
    forLoop start stop step = none :=
  (forLoop_eq_none_iff hstart).mpr fun m =>
    hstop _ (fits_wrap _) (dvd_wrap hg (dvd_add hdvd (hstep.mul_left m)))

/-! ### Nested loops -/

/-- The values of two counters, one in a loop inside the loop of the other. An inner loop that never
ends does no harm where it is never entered. -/
def nested (outer inner : Option (List ℤ)) : Option (List (ℤ × ℤ)) :=
  outer.bind fun is =>
    if is = [] then some []
    else inner.map fun js => is.flatMap fun i => js.map fun j => (i, j)

@[simp] theorem nested_none (inner : Option (List ℤ)) : nested none inner = none := rfl

@[simp] theorem nested_nil (inner : Option (List ℤ)) : nested (some []) inner = some [] := rfl

/-- Two loops that end go through all pairs. -/
theorem nested_some (is js : List ℤ) :
    nested (some is) (some js) = some (is.flatMap fun i => js.map fun j => (i, j)) := by
  cases is <;> rfl

/-- An inner loop that is entered has to end. -/
theorem nested_endless {is : List ℤ} (h : is ≠ []) : nested (some is) none = none := if_neg h

/-- If the inner loop goes over nothing, then nothing is gone through. -/
theorem nested_of_inner_nil {outer : Option (List ℤ)} (h : outer ≠ none) :
    nested outer (some []) = some [] := by
  obtain ⟨is, rfl⟩ := Option.ne_none_iff_exists'.mp h
  rw [nested_some]
  simp

end JavaInt
