import Mathlib.Algebra.Group.Even
import Mathlib.Analysis.Convex.Segment
import Mathlib.Data.Real.Basic
import Mathlib.Tactic.Linarith

/-!
# Polygons in the plane

A ring is the list of its vertices, the first one repeated at the end. Its boundary
is the union of its edges. A point off the boundary is inside when the horizontal
ray to its right crosses an odd number of edges, where an edge counts as crossed by
a horizontal line if exactly one of its ends lies on or below the line.

A closed ring crosses every horizontal line an even number of times
(`even_straddling`), so no point to the left of all vertices is inside, and no
point below all of them: `exists_fst_le_of_mem_region`,
`exists_snd_le_of_mem_region`.
-/

namespace EvenOdd

/-- A point of the plane. -/
abbrev Pt := ℝ × ℝ

/-- A ring comes back to where it started. -/
def Closed {α : Type} (r : List α) : Prop := r.head? = r.getLast?

/-- The edges of a ring. -/
def edges {α : Type} (r : List α) : List (α × α) := r.zip r.tail

/-- The points on the edges. -/
def boundary (r : List Pt) : Set Pt := {p | ∃ e ∈ edges r, p ∈ segment ℝ e.1 e.2}

open Classical in
/-- Exactly one end of the edge lies on or below the horizontal line at `y`. -/
noncomputable def straddles (y : ℝ) (e : Pt × Pt) : Bool :=
  decide (e.1.2 ≤ y) != decide (e.2.2 ≤ y)

open Classical in
/-- The ray to the right of `p` crosses the edge. -/
noncomputable def crosses (p : Pt) (e : Pt × Pt) : Bool :=
  straddles p.2 e &&
    decide (p.1 < e.1.1 + (p.2 - e.1.2) / (e.2.2 - e.1.2) * (e.2.1 - e.1.1))

/-- The points inside a ring. -/
def inside (r : List Pt) : Set Pt := {p | p ∉ boundary r ∧ Odd ((edges r).countP (crosses p))}

/-- The points of a ring: those on it and those inside. -/
def region (r : List Pt) : Set Pt := boundary r ∪ inside r

/-! ### Vertices -/

/-- The edges of a ring are between its vertices. -/
theorem mem_of_mem_edges {α : Type} {r : List α} {e : α × α} (h : e ∈ edges r) :
    e.1 ∈ r ∧ e.2 ∈ r := by
  obtain ⟨h₁, h₂⟩ := List.of_mem_zip (a := e.1) (b := e.2) h
  exact ⟨h₁, List.mem_of_mem_tail h₂⟩

/-- A vertex of a ring with an edge is the end of one. -/
theorem exists_edge {α : Type} {r : List α} (hr : 2 ≤ r.length) {v : α} (hv : v ∈ r) :
    ∃ e ∈ edges r, e.1 = v ∨ e.2 = v := by
  match r, hr with
  | a :: b :: r, _ =>
    induction r generalizing a b with
    | nil =>
      refine ⟨(a, b), List.mem_cons_self, ?_⟩
      simpa [eq_comm] using hv
    | cons c r ih =>
      rcases List.mem_cons.mp hv with rfl | hv
      · exact ⟨(v, b), List.mem_cons_self, Or.inl rfl⟩
      · obtain ⟨e, he, hend⟩ := ih b c (by simp) hv
        exact ⟨e, List.mem_cons_of_mem _ he, hend⟩

/-- The vertices of a ring are on its boundary. -/
theorem mem_boundary_of_vertex {r : List Pt} (hr : 2 ≤ r.length) {v : Pt} (hv : v ∈ r) :
    v ∈ boundary r := by
  obtain ⟨e, he, rfl | rfl⟩ := exists_edge hr hv
  · exact ⟨e, he, left_mem_segment ℝ e.1 e.2⟩
  · exact ⟨e, he, right_mem_segment ℝ e.1 e.2⟩

/-! ### Parity -/

/-- Along a list, a two-valued property changes an even number of times if and only if
it is the same at both ends. -/
theorem even_changes {α : Type} (f : α → Bool) (a : α) (l : List α) :
    Even (((a :: l).zip l).countP fun e => f e.1 != f e.2) ↔
      f a = f ((a :: l).getLast (List.cons_ne_nil a l)) := by
  induction l generalizing a with
  | nil => simp
  | cons b l ih =>
    rw [List.zip_cons_cons, List.countP_cons, List.getLast_cons (List.cons_ne_nil b l)]
    have hb := ih b
    generalize f ((b :: l).getLast (List.cons_ne_nil b l)) = z at hb ⊢
    generalize ((b :: l).zip l).countP (fun e => f e.1 != f e.2) = k at hb ⊢
    clear ih
    generalize f a = x
    generalize f b = y at hb ⊢
    cases x <;> cases y <;> cases z <;> simp_all [Nat.even_add_one]

/-- A closed ring crosses a horizontal line an even number of times. -/
theorem even_straddling {r : List Pt} (hr : Closed r) (y : ℝ) :
    Even ((edges r).countP (straddles y)) := by
  classical
  match r with
  | [] => simp [edges]
  | a :: l =>
    have hlast : a = (a :: l).getLast (List.cons_ne_nil a l) := by
      unfold Closed at hr
      rw [List.head?_cons, List.getLast?_eq_some_getLast (List.cons_ne_nil a l)] at hr
      exact Option.some.inj hr
    have h := even_changes (fun p : Pt => decide (p.2 ≤ y)) a l
    rw [← hlast] at h
    exact h.mpr rfl

/-! ### Bounds -/

variable {r : List Pt} {p : Pt}

/-- A ray from a point inside crosses an edge. -/
theorem exists_crosses_of_mem_inside (h : p ∈ inside r) : ∃ e ∈ edges r, crosses p e = true := by
  have hpos : 0 < (edges r).countP (crosses p) := h.2.pos
  exact List.countP_pos_iff.mp hpos

/-- A point on a segment lies between the ends, on either axis. -/
theorem min_le_of_mem_segment {a b : Pt} (h : p ∈ segment ℝ a b) :
    (a.1 ≤ p.1 ∨ b.1 ≤ p.1) ∧ (a.2 ≤ p.2 ∨ b.2 ≤ p.2) := by
  obtain ⟨s, t, hs, ht, hst, rfl⟩ := h
  have key : ∀ x y : ℝ, x ≤ s * x + t * y ∨ y ≤ s * x + t * y := by
    intro x y
    rcases le_total x y with hxy | hxy
    · have hmul := mul_nonneg ht (sub_nonneg.mpr hxy)
      have hs' : s = 1 - t := by linarith
      exact Or.inl (by rw [hs']; linarith)
    · have hmul := mul_nonneg hs (sub_nonneg.mpr hxy)
      have ht' : t = 1 - s := by linarith
      exact Or.inr (by rw [ht']; linarith)
  exact ⟨key a.1 b.1, key a.2 b.2⟩

/-- Every point of a closed ring lies on or to the right of some vertex. -/
theorem exists_fst_le_of_mem_region (hr : Closed r) (h : p ∈ region r) :
    ∃ v ∈ r, v.1 ≤ p.1 := by
  rcases h with ⟨e, he, hp⟩ | h
  · obtain ⟨h₁, h₂⟩ := mem_of_mem_edges he
    rcases (min_le_of_mem_segment hp).1 with hle | hle
    · exact ⟨e.1, h₁, hle⟩
    · exact ⟨e.2, h₂, hle⟩
  · -- to the left of all vertices the ray crosses whatever the line crosses
    by_contra hnone
    push Not at hnone
    have hall : ∀ e ∈ edges r, straddles p.2 e = true ↔ crosses p e = true := by
      intro e he
      obtain ⟨h₁, h₂⟩ := mem_of_mem_edges he
      have hx₁ := hnone e.1 h₁
      have hx₂ := hnone e.2 h₂
      unfold crosses
      rw [Bool.and_eq_true, decide_eq_true_eq]
      refine ⟨fun hs => ⟨hs, ?_⟩, fun hc => hc.1⟩
      -- the crossing lies between the ends of the edge
      have hratio : 0 ≤ (p.2 - e.1.2) / (e.2.2 - e.1.2) ∧
          (p.2 - e.1.2) / (e.2.2 - e.1.2) ≤ 1 := by
        simp only [straddles, bne_iff_ne, ne_eq, decide_eq_decide] at hs
        by_cases hy : e.1.2 ≤ p.2
        · have hy₂ : p.2 < e.2.2 := by
            by_contra hle
            exact hs ⟨fun _ => not_lt.mp hle, fun _ => hy⟩
          have hd : 0 < e.2.2 - e.1.2 := by linarith
          rw [div_le_one hd]
          exact ⟨div_nonneg (by linarith) hd.le, by linarith⟩
        · have hy₂ : e.2.2 ≤ p.2 := by
            by_contra hle
            exact hs ⟨fun h => absurd h hy, fun h => absurd h hle⟩
          have hd : e.2.2 - e.1.2 < 0 := by linarith [not_le.mp hy]
          rw [div_le_one_of_neg hd]
          exact ⟨div_nonneg_of_nonpos (by linarith [not_le.mp hy]) hd.le, by linarith⟩
      obtain ⟨h0, h1⟩ := hratio
      generalize (p.2 - e.1.2) / (e.2.2 - e.1.2) = t at h0 h1 ⊢
      have ha := mul_nonneg (sub_nonneg.mpr h1) (sub_nonneg.mpr hx₁.le)
      have hb := mul_nonneg h0 (sub_nonneg.mpr hx₂.le)
      rcases lt_or_ge t 1 with ht | ht
      · have hpos := mul_pos (sub_pos.mpr ht) (sub_pos.mpr hx₁)
        linarith
      · obtain rfl : t = 1 := le_antisymm h1 ht
        linarith
    have heven := even_straddling hr p.2
    rw [List.countP_congr hall] at heven
    exact (Nat.not_even_iff_odd.mpr h.2) heven

/-- Every point of a ring lies on or above some vertex. -/
theorem exists_snd_le_of_mem_region (h : p ∈ region r) : ∃ v ∈ r, v.2 ≤ p.2 := by
  rcases h with ⟨e, he, hp⟩ | h
  · obtain ⟨h₁, h₂⟩ := mem_of_mem_edges he
    rcases (min_le_of_mem_segment hp).2 with hle | hle
    · exact ⟨e.1, h₁, hle⟩
    · exact ⟨e.2, h₂, hle⟩
  · -- an edge that straddles the line has an end on or below it
    obtain ⟨e, he, hc⟩ := exists_crosses_of_mem_inside h
    obtain ⟨h₁, h₂⟩ := mem_of_mem_edges he
    have hs : straddles p.2 e = true := (Bool.and_eq_true _ _ ▸ hc).1
    simp only [straddles, bne_iff_ne, ne_eq, decide_eq_decide] at hs
    by_cases hy : e.1.2 ≤ p.2
    · exact ⟨e.1, h₁, hy⟩
    · refine ⟨e.2, h₂, ?_⟩
      by_contra hle
      exact hs ⟨fun h => absurd h hy, fun h => absurd h hle⟩

end EvenOdd
