import Mathlib.Data.List.Lex
import Mathlib.Data.List.Sort
import Mathlib.Order.Lattice
import Mathlib.Tactic.Common

/-!
# Ordered sets as sorted lists

A set whose elements are ordered by a key is the list of its elements, the keys increasing. An
iterator is a position in the list, and the position after the last element is the end.
`lowerBound` is the first position whose key is not less than a given one, and `lt_lowerBound_iff`
is what is used of it.

The keys may be lists that are ordered lexicographically. The lists that begin with a given one
then follow each other (`prefix_of_le_of_le`), and if an element has a successor, they end where
the list with its last element replaced by the successor would come (`lt_concat_iff`).
-/

namespace OrderedSet

/-! ### The lexicographic order -/

section Lexicographic

variable {α : Type} [LinearOrder α]

/-- The order of lists looks at the heads first. -/
theorem cons_le_cons_iff {a b : α} {x y : List α} :
    a :: x ≤ b :: y ↔ a < b ∨ a = b ∧ x ≤ y := by
  rw [← not_lt, List.cons_lt_cons_iff]
  constructor
  · intro h
    push Not at h
    rcases h.1.lt_or_eq with hlt | heq
    · exact .inl hlt
    · exact .inr ⟨heq, not_lt.mp (not_lt.mpr (h.2 heq.symm))⟩
  · rintro (hlt | ⟨rfl, hle⟩)
    · rintro (hgt | ⟨rfl, -⟩)
      · exact lt_asymm hlt hgt
      · exact lt_irrefl _ hlt
    · rintro (hgt | ⟨-, hgt⟩)
      · exact lt_irrefl _ hgt
      · exact not_lt.mpr hle hgt

/-- Nothing comes before the empty list. -/
theorem nil_le (x : List α) : [] ≤ x := by
  cases x with
  | nil => exact le_rfl
  | cons a x => exact (List.nil_lt_cons a x).le

/-- A list comes no earlier than its prefixes. -/
theorem le_of_isPrefix {x y : List α} (h : x <+: y) : x ≤ y := by
  induction x generalizing y with
  | nil => exact nil_le y
  | cons a x ih =>
    obtain ⟨y, rfl⟩ := h
    exact cons_le_cons_iff.mpr (.inr ⟨rfl, ih (List.prefix_append x y)⟩)

/-- What is cut off at the end does not change the order. -/
theorem take_le_take {x y : List α} (h : x ≤ y) (n : ℕ) : x.take n ≤ y.take n := by
  induction n generalizing x y with
  | zero => exact nil_le _
  | succ n ih =>
    cases x with
    | nil => exact nil_le _
    | cons a x =>
      cases y with
      | nil => exact absurd h (not_le.mpr (List.nil_lt_cons a x))
      | cons b y =>
        rw [List.take_succ_cons, List.take_succ_cons, cons_le_cons_iff]
        rw [cons_le_cons_iff] at h
        exact h.imp_right fun h => ⟨h.1, ih h.2⟩

/-- The lists that begin with `p` follow each other. -/
theorem prefix_of_le_of_le {p x y : List α} (hpx : p ≤ x) (hxy : x ≤ y) (hpy : p <+: y) :
    p <+: x := by
  -- over the prefix: `x` lies between it and a list it begins, so it begins `x` as well
  induction p generalizing x y with
  | nil => exact List.nil_prefix
  | cons a p ih =>
    obtain ⟨y, rfl⟩ := hpy
    cases x with
    | nil => exact absurd hpx (not_le.mpr (List.nil_lt_cons a p))
    | cons b x =>
      rw [List.cons_append, cons_le_cons_iff] at hxy
      rw [cons_le_cons_iff] at hpx
      rcases hpx with hlt | ⟨rfl, hpx⟩
      · rcases hxy with hgt | ⟨rfl, -⟩
        · exact absurd hgt (lt_asymm hlt)
        · exact absurd hlt (lt_irrefl _)
      · rcases hxy with hlt | ⟨-, hxy⟩
        · exact absurd hlt (lt_irrefl _)
        · exact List.cons_prefix_cons.mpr ⟨rfl, ih hpx hxy (List.prefix_append p y)⟩

/-- The lists that begin with `p ++ [a]` come before `p ++ [b]`, where `b` is the successor of
`a`. -/
theorem lt_concat_iff {p x : List α} {a b : α} (hsucc : ∀ c, b ≤ c ↔ a < c)
    (h : p ++ [a] ≤ x) : x < p ++ [b] ↔ p ++ [a] <+: x := by
  -- over the common part; at its end the two letters follow each other directly
  induction p generalizing x with
  | nil =>
    cases x with
    | nil => exact absurd h (not_le.mpr (List.nil_lt_cons a []))
    | cons c x =>
      have hab : a < b := (hsucc b).mp le_rfl
      rw [List.nil_append, cons_le_cons_iff] at h
      rw [List.nil_append, List.nil_append, List.cons_lt_cons_iff, List.cons_prefix_cons]
      constructor
      · rintro (hcb | ⟨rfl, hnil⟩)
        · refine ⟨?_, List.nil_prefix⟩
          rcases h with hac | ⟨hac, -⟩
          · exact absurd hcb (not_lt.mpr ((hsucc c).mpr hac))
          · exact hac
        · exact absurd hnil (List.not_lt_nil x)
      · rintro ⟨rfl, -⟩
        exact .inl hab
  | cons d p ih =>
    cases x with
    | nil => exact absurd h (not_le.mpr (List.nil_lt_cons d _))
    | cons c x =>
      rw [List.cons_append, cons_le_cons_iff] at h
      rw [List.cons_append, List.cons_append, List.cons_lt_cons_iff, List.cons_prefix_cons]
      rcases h with hdc | ⟨rfl, h⟩
      -- a greater letter before the end puts `x` behind both
      · refine iff_of_false ?_ ?_
        · rintro (hcd | ⟨rfl, -⟩)
          · exact lt_asymm hdc hcd
          · exact lt_irrefl _ hdc
        · rintro ⟨rfl, -⟩
          exact lt_irrefl _ hdc
      · rw [ih h]
        simp

end Lexicographic

/-! ### Positions -/

section Positions

variable {α κ : Type} [LinearOrder κ] (key : α → κ)

/-- The keys increase. -/
def Increasing (xs : List α) : Prop := xs.Pairwise fun a b => key a < key b

/-- The first position whose key is not less than `k`. -/
def lowerBound (xs : List α) (k : κ) : ℕ := (xs.takeWhile fun a => key a < k).length

/-- The lower bound is a position in the list, or its end. -/
theorem lowerBound_le_length (xs : List α) (k : κ) : lowerBound key xs k ≤ xs.length :=
  (List.takeWhile_sublist _).length_le

variable {key} {xs : List α} {a b : α} {i j : ℕ}

/-- **The lower bound.** The positions before it are those with a smaller key. -/
theorem lt_lowerBound_iff (hxs : Increasing key xs) (hi : xs[i]? = some a) (k : κ) :
    i < lowerBound key xs k ↔ key a < k := by
  unfold lowerBound
  -- over the list: what comes before the bound is what `takeWhile` keeps
  induction xs generalizing i with
  | nil => simp at hi
  | cons b xs ih =>
    obtain ⟨hb, htail⟩ := List.pairwise_cons.mp hxs
    rw [List.takeWhile_cons]
    cases i with
    | zero =>
      obtain rfl : b = a := by simpa using hi
      split
      · next h => simpa using h
      · next h => simpa using h
    | succ i =>
      rw [List.getElem?_cons_succ] at hi
      split
      · rw [List.length_cons, Nat.add_lt_add_iff_right]
        exact ih htail hi
      · next h =>
        -- the first that is not below `k` ends it, and later keys are greater still
        have hba : key b < key a := hb a (List.mem_of_getElem? hi)
        have hkb : k ≤ key b := by simpa using h
        exact iff_of_false (Nat.not_lt_zero _) (not_lt.mpr (hkb.trans hba.le))

/-- Of two positions the earlier one has the smaller key. -/
theorem lt_of_getElem? (hxs : Increasing key xs) (hi : xs[i]? = some a) (hj : xs[j]? = some b)
    (h : i < j) : key a < key b := by
  obtain ⟨hi', rfl⟩ := List.getElem?_eq_some_iff.mp hi
  obtain ⟨hj', rfl⟩ := List.getElem?_eq_some_iff.mp hj
  exact List.pairwise_iff_getElem.mp hxs i j hi' hj' h

/-- An element with a new key is put in its place. -/
theorem increasing_orderedInsert (hxs : Increasing key xs) (hnew : ∀ b ∈ xs, key b ≠ key a) :
    Increasing key (xs.orderedInsert (fun a b => key a ≤ key b) a) := by
  -- the new key goes before the first greater one; equal keys there are none
  induction xs with
  | nil => exact List.pairwise_singleton _ a
  | cons b xs ih =>
    obtain ⟨hb, htail⟩ := List.pairwise_cons.mp hxs
    rw [List.orderedInsert_cons]
    split
    · next hle =>
      have hlt : key a < key b := hle.lt_of_ne (hnew b List.mem_cons_self).symm
      refine List.pairwise_cons.mpr ⟨fun c hc => ?_, hxs⟩
      rcases List.mem_cons.mp hc with rfl | hc
      · exact hlt
      · exact hlt.trans (hb c hc)
    · next hnot =>
      refine List.pairwise_cons.mpr ⟨fun c hc => ?_, ih htail fun c hc => hnew c ?_⟩
      · rcases (List.mem_orderedInsert _).mp hc with rfl | hc
        · exact not_le.mp hnot
        · exact hb c hc
      · exact List.mem_cons_of_mem b hc

end Positions

end OrderedSet
