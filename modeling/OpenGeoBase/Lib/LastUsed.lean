import Mathlib.Data.Finset.Card
import Mathlib.Data.List.Dedup
import Mathlib.Data.List.DropRight
import Mathlib.Order.Lattice

/-!
# The elements used last

A store of limited size makes room for a new element by giving up the one that has not been used
for the longest time. Its elements are listed in the order of their last uses: an element that is
used goes to the end of the list, and the first one is given up when there is no room (`use`).

`lastUsed` says what such a store holds, and leaves out how it has come to it: of all the elements
that have been used the last ones, as many different ones as there is room for. Using one element
after the other leads to it (`foldl_use`). So an element is there exactly if fewer than `limit`
different ones have been used since its last use (`mem_lastUsed_iff`).
-/

namespace LastUsed

variable {α : Type} [DecidableEq α]

/-- An element is used. -/
def use (limit : ℕ) (l : List α) (x : α) : List α :=
  if x ∈ l then l.erase x ++ [x]
  else if l.length < limit then l ++ [x]
  else l.tail ++ [x]

/-- The last different ones of some elements, in the order of their last uses. -/
def lastUsed (limit : ℕ) (us : List α) : List α := us.dedup.rtake limit

variable {limit : ℕ} {x : α} {us vs before after p q : List α}

/-! ### One more use -/

/-- A use brings in no other element. -/
theorem mem_of_mem_use {l : List α} {y : α} (h : y ∈ use limit l x) : y = x ∨ y ∈ l := by
  unfold use at h
  split_ifs at h <;> rcases List.mem_append.mp h with h | h
  · exact Or.inr (List.mem_of_mem_erase h)
  · exact Or.inl (List.mem_singleton.mp h)
  · exact Or.inr h
  · exact Or.inl (List.mem_singleton.mp h)
  · exact Or.inr (List.mem_of_mem_tail h)
  · exact Or.inl (List.mem_singleton.mp h)

/-- An element that is used again is taken away from where it has been. -/
theorem dedup_concat (us : List α) (x : α) : (us ++ [x]).dedup = us.dedup.erase x ++ [x] := by
  induction us with
  | nil => simp
  | cons a us ih =>
    rw [List.cons_append]
    by_cases ha : a ∈ us
    · rw [List.dedup_cons_of_mem (List.mem_append_left _ ha), ih, List.dedup_cons_of_mem ha]
    · by_cases hax : a = x
      · subst hax
        have hnot : a ∉ us.dedup := mt List.mem_dedup.mp ha
        rw [List.dedup_cons_of_mem (by simp), ih, List.dedup_cons_of_notMem ha,
          List.erase_cons_head, List.erase_of_not_mem hnot]
      · have hnot : a ∉ us ++ [x] := by simp [ha, hax]
        rw [List.dedup_cons_of_notMem hnot, ih, List.dedup_cons_of_notMem ha,
          List.erase_cons_tail (by simpa using hax), List.cons_append]

omit [DecidableEq α] in
/-- What is taken from the end is all there is, or as much as fits. -/
theorem rtake_append (h : q.length = limit ∨ q.length ≤ limit ∧ p = []) :
    (p ++ q).rtake limit = q := by
  unfold List.rtake
  rcases h with rfl | ⟨hle, rfl⟩
  · rw [List.length_append, Nat.add_sub_cancel, List.drop_left]
  · rw [List.nil_append, Nat.sub_eq_zero_of_le hle, List.drop_zero]

omit [DecidableEq α] in
/-- What is taken from the end of a list is as much as was asked for, or the whole list. -/
theorem exists_rtake (l : List α) (limit : ℕ) :
    ∃ p, l = p ++ l.rtake limit ∧
      ((l.rtake limit).length = limit ∨ (l.rtake limit).length < limit ∧ p = []) := by
  unfold List.rtake
  refine ⟨_, (List.take_append_drop _ _).symm, ?_⟩
  rw [List.length_drop]
  rcases Nat.lt_or_ge l.length limit with hlt | hge
  · refine Or.inr ⟨by omega, ?_⟩
    rw [Nat.sub_eq_zero_of_le hlt.le, List.take_zero]
  · exact Or.inl (by omega)

/-- **One more use** leads from the elements used last to the elements used last. -/
theorem use_lastUsed (hlimit : 0 < limit) (us : List α) (x : α) :
    use limit (lastUsed limit us) x = lastUsed limit (us ++ [x]) := by
  have hnodup := List.nodup_dedup us
  unfold lastUsed
  rw [dedup_concat]
  obtain ⟨p, hsplit, hroom⟩ := exists_rtake us.dedup limit
  generalize us.dedup.rtake limit = q at hsplit hroom ⊢
  rw [hsplit] at hnodup ⊢
  obtain ⟨-, -, hdisjoint⟩ := List.nodup_append.mp hnodup
  unfold use
  split
  · next hmem =>
    -- it goes to the end, and there are as many as before
    have hnot : x ∉ p := fun hp => hdisjoint x hp x hmem rfl
    have hlength : (q.erase x ++ [x]).length = q.length := by
      rw [List.length_append, List.length_singleton, List.length_erase_add_one hmem]
    rw [List.erase_append_right _ hnot, List.append_assoc]
    refine (rtake_append ?_).symm
    rw [hlength]
    exact hroom.imp_right fun h => ⟨h.1.le, h.2⟩
  · next hmem =>
    split
    · next hlt =>
      -- nothing has been given up yet
      obtain ⟨-, rfl⟩ := hroom.resolve_left hlt.ne
      have hlength : (q ++ [x]).length ≤ limit := by
        rw [List.length_append, List.length_singleton]
        exact hlt
      have hall : ([] ++ (q ++ [x])).rtake limit = q ++ [x] :=
        rtake_append (Or.inr ⟨hlength, rfl⟩)
      rw [List.nil_append, List.erase_of_not_mem hmem]
      exact hall.symm
    · next hfull =>
      have hlength : q.length = limit := hroom.resolve_right fun h => hfull h.1
      have herase : (p ++ q).erase x = p.erase x ++ q := by
        by_cases hp : x ∈ p
        · exact List.erase_append_left _ hp
        · rw [List.erase_of_not_mem (by simp [hp, hmem]), List.erase_of_not_mem hp]
      obtain ⟨a, q, rfl⟩ : ∃ a q', q = a :: q' :=
        List.exists_cons_of_length_pos (by omega)
      have hshift : p.erase x ++ a :: q ++ [x] = p.erase x ++ [a] ++ (q ++ [x]) := by simp
      rw [herase, hshift, List.tail_cons]
      refine (rtake_append (Or.inl ?_)).symm
      rw [List.length_append, List.length_singleton]
      exact hlength

/-- **The store holds what has been used last.** -/
theorem foldl_use (hlimit : 0 < limit) (us vs : List α) :
    vs.foldl (use limit) (lastUsed limit us) = lastUsed limit (us ++ vs) := by
  induction vs generalizing us with
  | nil => rw [List.foldl_nil, List.append_nil]
  | cons x vs ih =>
    rw [List.foldl_cons, use_lastUsed hlimit, ih, List.append_assoc, List.singleton_append]

/-! ### What is there -/

/-- There are no more elements than there is room for. -/
theorem length_lastUsed_le (limit : ℕ) (us : List α) : (lastUsed limit us).length ≤ limit := by
  unfold lastUsed List.rtake
  rw [List.length_drop]
  omega

/-- They have been used. -/
theorem mem_of_mem_lastUsed (h : x ∈ lastUsed limit us) : x ∈ us :=
  List.mem_dedup.mp (List.mem_of_mem_drop h)

/-- What follows a use in the list are the different elements used since. -/
theorem dedup_append_cons (hx : x ∉ after) (before : List α) :
    ∃ p, (before ++ x :: after).dedup = p ++ x :: after.dedup := by
  obtain ⟨p, hp⟩ : (x :: after).dedup <:+ (before ++ x :: after).dedup := by
    rw [List.dedup_append]
    exact List.suffix_union_right _ _
  exact ⟨p, by rw [← hp, List.dedup_cons_of_notMem hx]⟩

/-- An element is there as long as fewer different ones than there is room for have followed it. -/
theorem mem_lastUsed_append_cons (hx : x ∉ after) (before : List α) :
    x ∈ lastUsed limit (before ++ x :: after) ↔ after.toFinset.card < limit := by
  obtain ⟨p, hp⟩ := dedup_append_cons hx before
  have hcard : after.toFinset.card = after.dedup.length := List.card_toFinset after
  unfold lastUsed List.rtake
  rw [hp, hcard, List.length_append, List.length_cons]
  generalize hq : after.dedup = q
  have hnot : x ∉ q := by rwa [← hq, List.mem_dedup]
  constructor
  · intro hmem
    by_contra hge
    -- so many have been used since that `x` is among those left out
    have hdrop : p.length + (q.length + 1) - limit = (p ++ [x]).length + (q.length - limit) := by
      rw [List.length_append, List.length_singleton]
      omega
    have hsplit : p ++ x :: q = p ++ [x] ++ q := by simp
    rw [hdrop, hsplit, ← List.drop_drop, List.drop_left] at hmem
    exact hnot (List.mem_of_mem_drop hmem)
  · intro hlt
    rw [List.drop_append_of_le_length (by omega)]
    exact List.mem_append_right _ List.mem_cons_self

/-- **How long an element stays**: until `limit` different ones have been used after it. -/
theorem mem_lastUsed_iff : x ∈ lastUsed limit us ↔
    ∃ before after, us = before ++ x :: after ∧ x ∉ after ∧ after.toFinset.card < limit := by
  constructor
  · intro h
    obtain ⟨before, after, hus, hx⟩ : ∃ before after, us = before ++ x :: after ∧ x ∉ after := by
      obtain ⟨after, before, hus, hx⟩ := List.eq_append_cons_of_mem
        (List.mem_reverse.mpr (mem_of_mem_lastUsed h))
      refine ⟨before.reverse, after.reverse, ?_, by simpa using hx⟩
      rw [← List.reverse_reverse us, hus]
      simp
    subst hus
    exact ⟨before, after, rfl, hx, (mem_lastUsed_append_cons hx before).mp h⟩
  · rintro ⟨before, after, rfl, hx, hcard⟩
    exact (mem_lastUsed_append_cons hx before).mpr hcard

end LastUsed
