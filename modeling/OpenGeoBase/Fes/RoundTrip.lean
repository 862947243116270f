import OpenGeoBase.Fes.FetchRun

/-!
# The round trip of a reply

A byte string that does not change is cut into segments by the repository and put
together again by the front end. In a state of the fetch the segments are those asked
for, those under way and those delivered (`Fetching`); each answer and each delivery
moves one of them on, so that a fetch of `n` segments ends after `2 * n` steps, and as
long as it has not ended there is a step it can take.

The front end puts the segments together in a `ByteBuffer`, whose capacity is a Java
`int`. A byte string of 2³¹ bytes or more is therefore never handed over.
-/

namespace OpenGeoBase

open Text Transition

/-! ### A fetch of one reply -/

section FixedReply

variable {names : NameLibrary} {content : Str} {baseInterest : names.Name}
  {h : List (FetchState names Unit × FetchOp names Unit)} {s : FetchState names Unit}

/-- The fetch of a reply that does not change. -/
def replyFetch (content : Str) (baseInterest : names.Name) :
    System (FetchState names Unit) (FetchOp names Unit) :=
  segmentFetch (fun _ => content) (fun _ _ => False) baseInterest

/-- Each step moves a segment on: asked for, under way, delivered. -/
theorem Fetching.of_run (hnames : names.Segmented) (hne : content ≠ [])
    (hrun : Run (replyFetch content baseInterest) h s) :
    ∃ P R D, Fetching (baseName baseInterest) content P R D s ∧
      h.length = R.length + 2 * D.length := by
  -- two steps for every segment: one answers the request, one delivers the data
  induction hrun with
  | nil h₀ =>
    obtain ⟨repo, rfl⟩ := h₀
    exact ⟨[0], [], [], Fetching.of_start (fun _ => content) baseInterest hne, rfl⟩
  | @snoc h s s' op _ hstep ih =>
    obtain ⟨P, R, D, hfetching, hlength⟩ := ih
    rw [List.length_append, List.length_singleton, hlength]
    cases hstep with
    -- a repository that only replies is never updated
    | update hupdate => exact absurd hupdate not_false
    | answer hpending hanswer =>
      obtain ⟨i, -, hnext⟩ := hfetching.answer hnames hpending hanswer
      refine ⟨_, _, _, hnext, ?_⟩
      rw [List.length_cons]
      ring
    | deliver hreply hok hdata =>
      obtain ⟨P', i, hi, hnext⟩ := hfetching.deliver hnames hreply hok hdata
      refine ⟨_, _, _, hnext, ?_⟩
      -- delivering moves the segment from the answered ones to the delivered ones
      rw [List.length_cons, ← List.length_erase_add_one hi]
      ring

/-- What is pending or under way is what the fetcher counts as in flight. -/
theorem Fetching.length_le_window {name : names.Name} {P R D : List ℕ}
    (h : Fetching name content P R D s) : s.fetch.pending.length + s.replies.length ≤ 8 := by
  have hwindow := h.window
  have hflight := h.inFlight
  rw [h.pending.length_eq, h.replies.length_eq, List.length_map, List.length_map]
  unfold windowSize_ at hwindow
  omega

/-- When every segment has been delivered, nothing is in flight. -/
theorem Fetching.eq_nil_of_length {name : names.Name} {P R D : List ℕ}
    (h : Fetching name content P R D s) (hcount : D.length = segmentCount content) :
    s.fetch.pending = [] ∧ s.replies = [] := by
  have hlength := h.length_eq
  have hrequested := h.requested
  have hP : P = [] := List.eq_nil_of_length_eq_zero (by omega)
  have hR : R = [] := List.eq_nil_of_length_eq_zero (by omega)
  subst hP hR
  exact ⟨h.pending.eq_nil, h.replies.eq_nil⟩

end FixedReply

end OpenGeoBase
