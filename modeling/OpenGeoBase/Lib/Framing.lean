import Mathlib.Data.List.Basic
import Mathlib.Data.Set.Basic
import Mathlib.Tactic.Common

/-!
# Self-delimiting frames

A stream of symbols that is a concatenation of frames can be read frame by frame, if the
reader can tell from the symbols of a frame where it ends. `Reads F first` says so of a
function `first` that takes the first frame off a stream: it finds a frame of `F` whatever
follows it, and nothing in a stream that breaks off within a frame.

`frames first s` reads as many frames as there are, and the rest. A stream may be cut
anywhere: `exists_breaksOff` says what is on the left of a cut, whole frames and the
beginning of another one, and `Reads.frames_eq` that these frames are what is read there, and
this beginning is the rest. So a reader that keeps the rest for later reads the same frames
in whichever portions the stream arrives.

A reader whose answer no further symbols can change reads the frames it answers with
(`Reads.of_stable`).
-/

namespace Framing

variable {β : Type}

/-- `first` takes the first frame off a stream. -/
structure Reads (F : Set (List β)) (first : List β → Option (List β)) : Prop where
  ne_nil : ∀ e ∈ F, e ≠ []
  complete : ∀ e ∈ F, ∀ rest, first (e ++ rest) = some e
  incomplete : ∀ e ∈ F, ∀ p, p <+: e → p ≠ e → p ≠ [] → first p = none

/-- As many frames as `first` takes off a stream, but at most the given number; and the rest. -/
def split (first : List β → Option (List β)) : ℕ → List β → List (List β) × List β
  | 0, s => ([], s)
  | n + 1, s =>
    if s = [] then ([], [])
    else match first s with
      | none => ([], s)
      | some e =>
        let r := split first n (s.drop e.length)
        (e :: r.1, r.2)

/-- The frames of a stream, and the rest. -/
def frames (first : List β → Option (List β)) (s : List β) : List (List β) × List β :=
  split first (s.length + 1) s

/-- The stream of the frames `es` may break off after `p`: before all of them or within the
first one. -/
def BreaksOff (p : List β) : List (List β) → Prop
  | [] => p = []
  | e :: _ => p <+: e ∧ p ≠ e

section Cuts

variable {p s : List β} {es : List (List β)}

/-- **A stream of frames can be cut anywhere**: there are whole frames on the left, and what
the rest of them may break off after. -/
theorem exists_breaksOff (h : s <+: es.flatten) :
    ∃ es₁ es₂ p, es = es₁ ++ es₂ ∧ s = es₁.flatten ++ p ∧ BreaksOff p es₂ := by
  induction es generalizing s with
  | nil => exact ⟨[], [], [], rfl, List.prefix_nil.mp h, rfl⟩
  | cons e es ih =>
    obtain ⟨u, hu⟩ := h
    rw [List.flatten_cons] at hu
    rcases List.append_eq_append_iff.mp hu with ⟨t, rfl, -⟩ | ⟨t, rfl, ht⟩
    · -- the cut is within the first frame or at its end
      by_cases hend : s = s ++ t
      · obtain ⟨es₁, es₂, p, rfl, hp, hbreaks⟩ := ih List.nil_prefix
        refine ⟨(s ++ t) :: es₁, es₂, p, rfl, ?_, hbreaks⟩
        rw [List.flatten_cons, List.append_assoc, ← hp, List.append_nil]
        exact hend
      · exact ⟨[], (s ++ t) :: es, s, rfl, rfl, List.prefix_append s t, hend⟩
    · obtain ⟨es₁, es₂, p, rfl, rfl, hbreaks⟩ := ih ⟨u, ht.symm⟩
      refine ⟨e :: es₁, es₂, p, rfl, ?_, hbreaks⟩
      rw [List.flatten_cons, List.append_assoc]

/-- The beginning of a frame is shorter than the frames are long. -/
theorem BreaksOff.length_lt {m : ℕ} (h : BreaksOff p es) (hm : 0 < m)
    (hes : ∀ e ∈ es, e.length ≤ m) : p.length < m := by
  cases es with
  | nil =>
    obtain rfl : p = [] := h
    exact hm
  | cons e es =>
    have hne : p.length ≠ e.length := fun hlen => h.2 (h.1.eq_of_length hlen)
    have hle := h.1.length_le
    have he := hes e List.mem_cons_self
    omega

/-- A stream of frames does not break off at its end. -/
theorem BreaksOff.eq_nil (h : BreaksOff es.flatten es) : es = [] := by
  cases es with
  | nil => rfl
  | cons e es =>
    rw [List.flatten_cons] at h
    exact absurd (h.1.eq_of_length_le (List.prefix_append e es.flatten).length_le) h.2

end Cuts

section Reading

variable {F : Set (List β)} {first : List β → Option (List β)} {p s : List β}
  {es : List (List β)}

/-- What a stream of frames breaks off after is no frame. -/
theorem Reads.none_of_breaksOff (h : Reads F first) (hes : ∀ e ∈ es, e ∈ F)
    (hp : BreaksOff p es) (hne : p ≠ []) : first p = none := by
  cases es with
  | nil => exact absurd hp hne
  | cons e es => exact h.incomplete e (hes e List.mem_cons_self) p hp.1 hp.2 hne

/-- There are no more frames than symbols in their stream. -/
theorem Reads.length_le (h : Reads F first) (hes : ∀ e ∈ es, e ∈ F) :
    es.length ≤ es.flatten.length := by
  induction es with
  | nil => exact le_rfl
  | cons e es ih =>
    have hpos := List.length_pos_of_ne_nil (h.ne_nil e (hes e List.mem_cons_self))
    have hrest := ih fun d hd => hes d (List.mem_cons_of_mem e hd)
    rw [List.flatten_cons, List.length_append, List.length_cons]
    omega

/-- The frames of a stream are split off, when enough may be. -/
theorem Reads.split_eq {es₁ es₂ : List (List β)} (h : Reads F first) (hes₁ : ∀ e ∈ es₁, e ∈ F)
    (hes₂ : ∀ e ∈ es₂, e ∈ F) (hp : BreaksOff p es₂) {n : ℕ} (hn : es₁.length < n) :
    split first n (es₁.flatten ++ p) = (es₁, p) := by
  -- the framing takes the elements off one by one; the incomplete rest ends the loop
  induction es₁ generalizing n with
  | nil =>
    obtain ⟨n, rfl⟩ : ∃ k, n = k + 1 := ⟨n - 1, by rw [List.length_nil] at hn; omega⟩
    rw [List.flatten_nil, List.nil_append]
    unfold split
    -- nothing left, or the beginning of an element, which the reader refuses
    by_cases hne : p = []
    · rw [if_pos hne, hne]
    · rw [if_neg hne, h.none_of_breaksOff hes₂ hp hne]
  | cons e es₁ ih =>
    rw [List.length_cons] at hn
    obtain ⟨n, rfl⟩ : ∃ k, n = k + 1 := ⟨n - 1, by omega⟩
    have he := hes₁ e List.mem_cons_self
    have hne : e ++ (es₁.flatten ++ p) ≠ [] := by simp [h.ne_nil e he]
    rw [List.flatten_cons, List.append_assoc]
    unfold split
    rw [if_neg hne, h.complete e he]
    dsimp only
    rw [List.drop_left, ih (fun d hd => hes₁ d (List.mem_cons_of_mem e hd)) (by omega)]

/-- **The frames of a stream are read**, up to where it breaks off. -/
theorem Reads.frames_eq {es₁ es₂ : List (List β)} (h : Reads F first)
    (hes₁ : ∀ e ∈ es₁, e ∈ F) (hes₂ : ∀ e ∈ es₂, e ∈ F) (hp : BreaksOff p es₂) :
    frames first (es₁.flatten ++ p) = (es₁, p) := by
  refine h.split_eq hes₁ hes₂ hp ?_
  have hlength := h.length_le hes₁
  rw [List.length_append]
  omega

/-- **A reader whose answer no further symbols can change** reads the frames that are
their own answer. -/
theorem Reads.of_stable (h_front : ∀ s e, first s = some e → e <+: s ∧ e ≠ [])
    (h_stable : ∀ s e, first s = some e → ∀ t, first (s ++ t) = some e) :
    Reads {e | first e = some e} first where
  ne_nil e he := (h_front e e he).2
  complete e he rest := h_stable e e he rest
  incomplete e he p hp hne _ := by
    cases hfirst : first p with
    | none => rfl
    | some d =>
      -- the answer on the beginning of the frame is the frame, which is longer
      obtain ⟨t, rfl⟩ := hp
      have hsame : d = p ++ t := by
        have hd := h_stable p d hfirst t
        rw [show first (p ++ t) = some (p ++ t) from he] at hd
        exact (Option.some.inj hd).symm
      have hlong : p ++ t <+: p := hsame ▸ (h_front p d hfirst).1
      exact absurd ((List.prefix_append p t).eq_of_length_le hlong.length_le) hne

end Reading

end Framing
