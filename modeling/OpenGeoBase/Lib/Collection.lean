import Mathlib.Data.List.Basic
import Mathlib.Data.List.Perm.Basic
import Mathlib.Tactic.Common

/-!
# Document collections

A collection is the finite list of its documents. The commands that act on one
match (`updateOne`, `deleteOne`) act on the first one; the commands that act on
all of them (`updateMany`, `deleteMany`) are a `map` and a `filter`, and looking a
document up is `List.find?`.

A command is read through *selections*: what it does to `c.filter q` for a
predicate `q` that the command's own predicate `p` either coincides with
(`…_self`) or excludes (`…_of_disjoint`). Two keyed collections with at most one
document for each key are compared by selecting at every key, and the frame
condition of a keyed command is the `…_of_disjoint` lemma at every other key.
-/

namespace Collection

variable {D E : Type} {p q : D → Bool} {f : D → D}

/-- Add a document. -/
def insertOne (d : D) (c : List D) : List D := c ++ [d]

/-- Replace the first match of `p` by its image under `f`. -/
def updateOne (p : D → Bool) (f : D → D) : List D → List D
  | [] => []
  | d :: c => if p d then f d :: c else d :: updateOne p f c

/-- Replace every match of `p` by its image under `f`. -/
def updateMany (p : D → Bool) (f : D → D) (c : List D) : List D :=
  c.map fun d => if p d then f d else d

/-- Remove the first match of `p`. -/
def deleteOne (p : D → Bool) (c : List D) : List D := c.eraseP p

/-- Remove every match of `p`. -/
def deleteMany (p : D → Bool) (c : List D) : List D := c.filter fun d => !p d

/-- Of `c` exactly the documents that meet `P` are gone. -/
def Without (P : D → Prop) (c c' : List D) : Prop :=
  ∃ p, (∀ d ∈ c, p d = true ↔ P d) ∧ c' = deleteMany p c

/-- Of `c` some documents that meet `P` may be gone, the others are in place. -/
def Spares (P : D → Prop) (c c' : List D) : Prop :=
  ∃ p, (∀ d ∈ c, p d = true → P d) ∧ c' = deleteMany p c

@[simp] theorem updateOne_nil : updateOne p f [] = [] := rfl

/-! ### Selections -/

/-- What a filter shows after an insertion. -/
@[simp] theorem filter_insertOne (d : D) (c : List D) :
    (insertOne d c).filter q = c.filter q ++ if q d then [d] else [] := by
  unfold insertOne
  rw [List.filter_append]
  split <;> simp_all

/-- An update that the filter of the call does not notice rewrites the first document found. -/
theorem filter_updateOne_self (hf : ∀ d, p d → p (f d)) (c : List D) :
    (updateOne p f c).filter p = (c.filter p).modifyHead f := by
  induction c with
  | nil => rfl
  | cons d c ih =>
    by_cases h : p d
    · simp [updateOne, h, hf d h]
    · simp [updateOne, h, ih]

/-- An update of other documents is not seen. -/
theorem filter_updateOne_of_disjoint (hq : ∀ d, p d → q d = false ∧ q (f d) = false)
    (c : List D) : (updateOne p f c).filter q = c.filter q := by
  induction c with
  | nil => rfl
  | cons d c ih =>
    by_cases h : p d
    · simp [updateOne, h, (hq d h).1, (hq d h).2]
    · simp only [updateOne, h, Bool.false_eq_true, ↓reduceIte, List.filter_cons, ih]

/-- A deletion takes the first document found. -/
theorem filter_deleteOne_self (c : List D) :
    (deleteOne p c).filter p = (c.filter p).tail := by
  unfold deleteOne
  induction c with
  | nil => rfl
  | cons d c ih =>
    by_cases h : p d
    · simp [h]
    · simp [List.eraseP_cons_of_neg h, h, ih]

/-- A deletion among other documents is not seen. -/
theorem filter_deleteOne_of_disjoint (hq : ∀ d, p d → q d = false) (c : List D) :
    (deleteOne p c).filter q = c.filter q := by
  unfold deleteOne
  induction c with
  | nil => rfl
  | cons d c ih =>
    by_cases h : p d
    · simp [h, hq d h]
    · simp only [List.eraseP_cons_of_neg h, List.filter_cons, ih]

/-- Looking a document up is taking the head of its selection. -/
theorem find?_eq_head?_filter (c : List D) : c.find? p = (c.filter p).head? :=
  List.head?_filter.symm

/-! ### Membership -/

/-- A document after an update was there, or has been made of one found. -/
theorem mem_updateOne {c : List D} {d : D} (h : d ∈ updateOne p f c) :
    d ∈ c ∨ ∃ e ∈ c, p e ∧ d = f e := by
  -- over the collection: only the first document that matches is replaced
  induction c with
  | nil => simp at h
  | cons e c ih =>
    unfold updateOne at h
    split at h
    · next hp =>
      rcases List.mem_cons.mp h with rfl | h
      · exact Or.inr ⟨e, List.mem_cons_self, hp, rfl⟩
      · exact Or.inl (List.mem_cons_of_mem _ h)
    · rcases List.mem_cons.mp h with rfl | h
      · exact Or.inl List.mem_cons_self
      · rcases ih h with h | ⟨e', he', hp, rfl⟩
        · exact Or.inl (List.mem_cons_of_mem _ h)
        · exact Or.inr ⟨e', List.mem_cons_of_mem _ he', hp, rfl⟩

/-- A document comes through an update, as it is or as its image. -/
theorem mem_updateOne_or {c : List D} {d : D} (h : d ∈ c) :
    d ∈ updateOne p f c ∨ (p d ∧ f d ∈ updateOne p f c) := by
  -- over the collection, with the document either before the first match, it, or after
  induction c with
  | nil => simp at h
  | cons e c ih =>
    unfold updateOne
    split
    · next hp =>
      rcases List.mem_cons.mp h with rfl | h
      · exact Or.inr ⟨hp, List.mem_cons_self⟩
      · exact Or.inl (List.mem_cons_of_mem _ h)
    · rcases List.mem_cons.mp h with rfl | h
      · exact Or.inl List.mem_cons_self
      · rcases ih h with h | ⟨hp, h⟩
        · exact Or.inl (List.mem_cons_of_mem _ h)
        · exact Or.inr ⟨hp, List.mem_cons_of_mem _ h⟩

/-- An update finds a document to rewrite whenever there is one. -/
theorem exists_image_mem_updateOne {c : List D} (h : ∃ d ∈ c, p d) :
    ∃ d ∈ c, p d ∧ f d ∈ updateOne p f c := by
  induction c with
  | nil => simp at h
  | cons e c ih =>
    unfold updateOne
    split
    · next hp => exact ⟨e, List.mem_cons_self, hp, List.mem_cons_self⟩
    · next hp =>
      obtain ⟨d, hd, hpd⟩ := h
      rcases List.mem_cons.mp hd with rfl | hd
      · exact absurd hpd hp
      · obtain ⟨d', hd', hp', hm⟩ := ih ⟨d, hd, hpd⟩
        exact ⟨d', List.mem_cons_of_mem _ hd', hp', List.mem_cons_of_mem _ hm⟩

/-- The documents after an update of all that are found. -/
theorem mem_updateMany {c : List D} {d : D} :
    d ∈ updateMany p f c ↔ ∃ e ∈ c, (if p e then f e else e) = d := by
  simp [updateMany]

/-- The documents after an insertion. -/
theorem mem_insertOne {c : List D} {d e : D} : e ∈ insertOne d c ↔ e ∈ c ∨ e = d := by
  simp [insertOne]

/-- A deletion brings in no document. -/
theorem mem_of_mem_deleteOne {c : List D} {d : D} (h : d ∈ deleteOne p c) : d ∈ c :=
  List.mem_of_mem_eraseP h

/-- A document the command does not match survives it. -/
theorem mem_deleteOne_of_not {c : List D} {d : D} (hp : ¬p d) :
    d ∈ deleteOne p c ↔ d ∈ c :=
  List.mem_eraseP_of_neg hp

/-! ### Views the updates do not touch -/

/-- An update does not change what it leaves alone in each document. -/
theorem map_updateOne {g : D → E} (hg : ∀ d, p d → g (f d) = g d) (c : List D) :
    (updateOne p f c).map g = c.map g := by
  induction c with
  | nil => rfl
  | cons d c ih =>
    unfold updateOne
    split
    · next hp => simp [hg d hp]
    · simp [ih]

/-- Nor does an update of all that are found. -/
theorem map_updateMany {g : D → E} (hg : ∀ d, p d → g (f d) = g d) (c : List D) :
    (updateMany p f c).map g = c.map g := by
  unfold updateMany
  rw [List.map_map]
  refine List.map_congr_left fun d _ => ?_
  by_cases h : p d
  · simp [h, hg d h]
  · simp [h]

/-- With one match at most, updating the first one is updating all of them. -/
theorem updateOne_eq_updateMany {c : List D} (h : (c.filter p).length ≤ 1) :
    updateOne p f c = updateMany p f c := by
  induction c with
  | nil => rfl
  | cons d c ih =>
    unfold updateOne
    by_cases hp : p d
    · -- no other document matches
      rw [List.filter_cons_of_pos hp, List.length_cons] at h
      have hnil : c.filter p = [] := List.length_eq_zero_iff.mp (by omega)
      have hrest : updateMany p f c = c :=
        List.map_congr_left (fun e he => if_neg (List.filter_eq_nil_iff.mp hnil e he)) |>.trans
          (List.map_id _)
      rw [if_pos hp]
      calc
        f d :: c = f d :: updateMany p f c := by rw [hrest]
        _ = updateMany p f (d :: c) := by simp [updateMany, hp]
    · rw [List.filter_cons_of_neg hp] at h
      rw [if_neg hp, ih h]
      simp [updateMany, hp]

/-! ### What a deletion leaves in place -/

section Deletion

variable {P : D → Prop} {c : List D}

/-- Two deletions that leave the same remove the same. -/
theorem deleteMany_inj {d : D} (h : deleteMany p c = deleteMany q c) (hd : d ∈ c) :
    p d = true ↔ q d = true := by
  have hmem : d ∈ deleteMany p c ↔ d ∈ deleteMany q c := by rw [h]
  unfold deleteMany at hmem
  simpa [List.mem_filter, hd] using hmem

/-- Exactly the documents wanted are deleted if the filter finds these and no other. -/
theorem without_deleteMany_iff :
    Without P c (deleteMany q c) ↔ ∀ d ∈ c, q d = true ↔ P d := by
  refine ⟨?_, fun h => ⟨q, h, rfl⟩⟩
  rintro ⟨p, hp, heq⟩ d hd
  rw [deleteMany_inj heq hd, hp d hd]

/-- The others are spared if the filter finds only documents wanted. -/
theorem spares_deleteMany_iff :
    Spares P c (deleteMany q c) ↔ ∀ d ∈ c, q d = true → P d := by
  refine ⟨?_, fun h => ⟨q, h, rfl⟩⟩
  rintro ⟨p, hp, heq⟩ d hd hq
  exact hp d hd ((deleteMany_inj heq hd).mp hq)

/-- Nothing is gone: then nothing was to go. -/
theorem Without.of_self {d : D} (h : Without P c c) (hd : d ∈ c) : ¬P d := by
  obtain ⟨p, hp, heq⟩ := h
  rw [← hp d hd]
  rw [heq] at hd
  simpa using (List.mem_filter.mp hd).2

end Deletion

/-! ### Sizes -/

@[simp] theorem length_insertOne (d : D) (c : List D) : (insertOne d c).length = c.length + 1 := by
  simp [insertOne]

/-- What meets `p` is counted in two parts, if it meets one of two exclusive predicates. -/
theorem countP_eq_add {r : D → Bool} {c : List D}
    (hor : ∀ d ∈ c, p d = true ↔ q d = true ∨ r d = true)
    (hnot : ∀ d ∈ c, q d = true → ¬r d = true) : c.countP p = c.countP q + c.countP r := by
  rw [List.countP_eq_countP_filter_add c p q, List.countP_filter, List.countP_filter]
  congr 1
  · refine List.countP_congr fun d hd => ?_
    rw [Bool.and_eq_true, hor d hd]
    exact ⟨And.right, fun hq => ⟨Or.inl hq, hq⟩⟩
  · refine List.countP_congr fun d hd => ?_
    rw [Bool.and_eq_true, hor d hd, Bool.not_eq_true', ← Bool.not_eq_true]
    exact ⟨fun h => h.1.resolve_left h.2, fun hr => ⟨Or.inr hr, fun hq => hnot d hd hq hr⟩⟩

/-- Fewer documents meet `p` than `q` if `p` implies `q` and one of them meets `q` only. -/
theorem countP_lt_countP {c : List D} {d : D} (hle : ∀ e ∈ c, p e = true → q e = true)
    (hd : d ∈ c) (hq : q d = true) (hp : ¬p d = true) : c.countP p < c.countP q := by
  have hadd : c.countP q = c.countP p + c.countP fun e => q e && !p e := by
    refine countP_eq_add (fun e he => ?_) fun e _ hpe => ?_
    · have hle' := hle e he
      cases hpe : p e with
      | false => simp
      | true => simp [hle' hpe]
    · simp [hpe]
  have hpos : 0 < c.countP fun e => q e && !p e :=
    List.countP_pos_iff.mpr ⟨d, hd, by simp [hq, hp]⟩
  omega

end Collection
