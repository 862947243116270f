import Mathlib.Data.Finset.Card
import Mathlib.Data.Finset.Image
import Mathlib.Data.List.Dedup
import Mathlib.Tactic.Common

/-!
# Tallies of a partitioned set

A map `f : α → β` cuts a finite set `T` of items into groups. `beneath f T b`
is the size of the group of `b`, the number of items of `T` whose parent is `b`.
Counting over two levels is the same function twice: for a second map
`g : β → γ`, the number of inhabited groups under `c` is
`beneath g (T.image f) c`.

The lemmas say how tallies move when one item enters (`beneath_insert`) or leaves
(`beneath_erase`), and that the set of inhabited groups loses the group of the
leaving item when that item was alone in it (`image_erase_of_alone`).

The last section reads a finite multiset, given as a list, through its underlying
set: removing one occurrence removes the item only with its last occurrence.
-/

namespace Tally

variable {α β γ : Type} [DecidableEq α] [DecidableEq β] [DecidableEq γ]

/-- The number of items of `T` with parent `b`. -/
def beneath (f : α → β) (T : Finset α) (b : β) : ℕ := (T.filter (f · = b)).card

variable {f : α → β} {T : Finset α} {a : α} {b : β}

omit [DecidableEq α] in
@[simp] theorem beneath_empty : beneath f (∅ : Finset α) b = 0 := by
  simp [beneath]

omit [DecidableEq α] in
/-- Something is beneath `b` exactly if `b` is an image. -/
theorem beneath_pos_iff : 0 < beneath f T b ↔ b ∈ T.image f := by
  simp [beneath, Finset.card_pos, Finset.Nonempty]

omit [DecidableEq α] in
/-- Nothing is beneath what is no image. -/
theorem beneath_eq_zero_iff : beneath f T b = 0 ↔ b ∉ T.image f := by
  rw [← beneath_pos_iff]
  omega

/-- A new element counts beneath its image only. -/
theorem beneath_insert (ha : a ∉ T) :
    beneath f (insert a T) b = beneath f T b + if f a = b then 1 else 0 := by
  unfold beneath
  rw [Finset.filter_insert]
  split
  · rw [Finset.card_insert_of_notMem]
    exact fun h => ha (Finset.mem_of_mem_filter a h)
  · rfl

/-- An element that is taken out counts beneath its image only. -/
theorem beneath_erase (ha : a ∈ T) :
    beneath f (T.erase a) b + (if f a = b then 1 else 0) = beneath f T b := by
  have h : beneath f (insert a (T.erase a)) b = _ := beneath_insert (Finset.notMem_erase a T)
  rw [Finset.insert_erase ha] at h
  exact h.symm

/-! ### The inhabited groups -/

/-- An item is alone in its group when no other item of the set shares its parent. -/
def Alone (f : α → β) (T : Finset α) (a : α) : Prop := ∀ a' ∈ T, f a' = f a → a' = a

omit [DecidableEq α] in
/-- An element is alone beneath its image if the count is one. -/
theorem alone_iff (ha : a ∈ T) : Alone f T a ↔ beneath f T (f a) = 1 := by
  unfold beneath Alone
  constructor
  · intro h
    refine Finset.card_eq_one.mpr ⟨a, ?_⟩
    ext a'
    simp only [Finset.mem_filter, Finset.mem_singleton]
    refine ⟨fun h' => h a' h'.1 h'.2, ?_⟩
    rintro rfl
    exact ⟨ha, rfl⟩
  · intro h a' ha' hpar
    exact Finset.card_le_one.mp h.le a' (Finset.mem_filter.mpr ⟨ha', hpar⟩) a
      (Finset.mem_filter.mpr ⟨ha, rfl⟩)

omit [DecidableEq α] in
/-- An element is not alone beneath its image if the count is higher than one. -/
theorem not_alone_iff (ha : a ∈ T) : ¬Alone f T a ↔ 1 < beneath f T (f a) := by
  have hpos : 0 < beneath f T (f a) :=
    beneath_pos_iff.mpr (Finset.mem_image_of_mem f ha)
  rw [alone_iff ha]
  omega

/-- The image goes with the last element beneath it. -/
theorem image_erase_of_alone (h : Alone f T a) :
    (T.erase a).image f = (T.image f).erase (f a) := by
  ext b
  simp only [Finset.mem_image, Finset.mem_erase]
  constructor
  · rintro ⟨a', ⟨hne, ha'⟩, rfl⟩
    exact ⟨fun hpar => hne (h a' ha' hpar), a', ha', rfl⟩
  · rintro ⟨hb, a', ha', rfl⟩
    exact ⟨a', ⟨fun heq => hb (heq ▸ rfl), ha'⟩, rfl⟩

omit [DecidableEq α] [DecidableEq β] [DecidableEq γ] in
/-- An item alone in its coarse group is alone in its fine one. -/
theorem Alone.of_comp {g : β → γ} (h : Alone (g ∘ f) T a) : Alone f T a :=
  fun a' ha' hpar => h a' ha' (congrArg g hpar)

omit [DecidableEq α] [DecidableEq γ] in
/-- If the coarse group of `a` holds no item but `a`, it holds no fine group but that of `a`. -/
theorem Alone.image {g : β → γ} (h : Alone (g ∘ f) T a) :
    Alone g (T.image f) (f a) := by
  intro b hb hpar
  obtain ⟨a', ha', rfl⟩ := Finset.mem_image.mp hb
  rw [h a' ha' hpar]

/-! ### Lists as multisets -/

omit [DecidableEq γ] in
/-- The tally of a set given by a list without repetitions. -/
theorem beneath_toFinset {l : List α} (h : l.Nodup) :
    beneath f l.toFinset b = l.countP fun a => f a = b := by
  unfold beneath
  rw [List.countP_eq_length_filter, ← List.toFinset_card_of_nodup (h.filter _)]
  congr 1
  ext a
  simp

omit [DecidableEq β] [DecidableEq γ]

variable [BEq α] [LawfulBEq α]

/-- Of an element that is there twice, one stays. -/
theorem toFinset_erase_of_one_lt {l : List α} (h : 1 < l.count a) :
    (l.erase a).toFinset = l.toFinset := by
  ext x
  simp only [List.mem_toFinset]
  by_cases hx : x = a
  · subst hx
    have h₁ : 0 < (l.erase x).count x := by rw [List.count_erase_self]; omega
    exact ⟨fun _ => List.count_pos_iff.mp (by omega), fun _ => List.count_pos_iff.mp h₁⟩
  · exact List.mem_erase_of_ne hx

/-- An element that is there once goes. -/
theorem toFinset_erase_of_eq_one {l : List α} (h : l.count a = 1) :
    (l.erase a).toFinset = l.toFinset.erase a := by
  ext x
  simp only [List.mem_toFinset, Finset.mem_erase]
  by_cases hx : x = a
  · subst hx
    have h₁ : (l.erase x).count x = 0 := by rw [List.count_erase_self]; omega
    exact ⟨fun hm => absurd hm (List.count_eq_zero.mp h₁), fun hm => absurd rfl hm.1⟩
  · rw [List.mem_erase_of_ne hx]
    exact ⟨fun hm => ⟨hx, hm⟩, fun hm => hm.2⟩

end Tally
