import Mathlib.Logic.Relation
import Mathlib.Order.Lattice

/-!
# Following a source by its version

A source has a content and a version. Its changes and its new versions need not come together, so
the source also knows whether it is settled, that is, whether its content is still the one that the
version was given for. `Later` is what can become of a source under that discipline: its version has
risen, or it is the same and the content has stayed if the source is settled.

A follower records a version and holds a content. `Follows` is all it has to keep: the version
recorded is none the source has not reached, and if it is the one of the settled source, then the
content held is the content of the source. What the source does keeps it (`Follows.later`). So does
a follower that records the version first and reads the content then (`Follows.read`), or that goes
back to a version below after it has read nothing (`Follows.below`). And if the content changes
while the follower reads, then it does not matter what it gets (`Follows.unsettled`): the source is
not settled before it has a version above.
-/

namespace Versioned

/-- What a follower can learn of the states of a source. -/
structure Source (σ ν γ : Type*) where
  version : σ → ν
  /-- The content has not changed since the version was given. -/
  Settled : σ → Prop
  content : σ → γ

variable {σ ν γ δ : Type*} [LinearOrder ν] (S : Source σ ν γ)

/-- What can become of a state. -/
def Later (s s' : σ) : Prop :=
  S.version s < S.version s' ∨
    S.version s = S.version s' ∧ (S.Settled s' → S.Settled s ∧ S.content s' = S.content s)

variable {S} {s s' s'' : σ}

/-- A source is what has become of it when nothing has happened. -/
theorem Later.refl (s : σ) : Later S s s := Or.inr ⟨rfl, fun h => ⟨h, rfl⟩⟩

theorem Later.version_le (h : Later S s s') : S.version s ≤ S.version s' := by
  rcases h with hlt | ⟨heq, -⟩
  · exact hlt.le
  · exact heq.le

/-- What becomes of a later state becomes of the first one. -/
theorem Later.trans (h : Later S s s') (h' : Later S s' s'') : Later S s s'' := by
  rcases h with hlt | ⟨heq, hkept⟩
  · exact Or.inl (hlt.trans_le h'.version_le)
  · rcases h' with hlt' | ⟨heq', hkept'⟩
    · exact Or.inl (heq.trans_lt hlt')
    · refine Or.inr ⟨heq.trans heq', fun hsettled => ?_⟩
      obtain ⟨hsettled', hcontent'⟩ := hkept' hsettled
      obtain ⟨hsettled, hcontent⟩ := hkept hsettled'
      exact ⟨hsettled, hcontent'.trans hcontent⟩

/-- Many steps make a later state if each of them does, where an invariant is kept. -/
theorem Later.of_reflTransGen {r : σ → σ → Prop} {I : σ → Prop}
    (h_inv : ∀ s s', I s → r s s' → I s') (h_step : ∀ s s', I s → r s s' → Later S s s')
    (hI : I s) (h : Relation.ReflTransGen r s s') : I s' ∧ Later S s s' := by
  induction h with
  | refl => exact ⟨hI, Later.refl s⟩
  | tail _ hstep ih => exact ⟨h_inv _ _ ih.1 hstep, ih.2.trans (h_step _ _ ih.1 hstep)⟩

/-- Something is read off the content. -/
def Source.map (S : Source σ ν γ) (f : γ → δ) : Source σ ν δ where
  version := S.version
  Settled := S.Settled
  content s := f (S.content s)

/-- A source seen through a function is followed like the source. -/
theorem Later.map (f : γ → δ) (h : Later S s s') : Later (S.map f) s s' :=
  h.imp_right fun ⟨hversion, hkept⟩ => ⟨hversion, fun hsettled =>
    ⟨(hkept hsettled).1, congrArg f (hkept hsettled).2⟩⟩

/-- After a change of the content, the source is not settled before its version has risen. -/
theorem Later.version_lt (h : Later S s s') (h' : Later S s' s'')
    (hne : S.content s' ≠ S.content s) (hsettled : S.Settled s'') :
    S.version s < S.version s'' := by
  rcases h with hlt | ⟨heq, hkept⟩
  · exact hlt.trans_le h'.version_le
  · rcases h' with hlt' | ⟨-, hkept'⟩
    · exact heq.trans_lt hlt'
    · exact absurd (hkept (hkept' hsettled).1).2 hne

/-- A settled source has the content it had when it got to its version. -/
theorem Later.content_eq (h : Later S s s') (hversion : S.version s' ≤ S.version s)
    (hsettled : S.Settled s') : S.content s' = S.content s := by
  rcases h with hlt | ⟨-, hkept⟩
  · exact absurd hlt (not_lt.mpr hversion)
  · exact (hkept hsettled).2

/-! ### Followers -/

variable (S) in
/-- The follower is not ahead of the source, and has its content if it is not behind. -/
def Follows (recorded : Option ν) (held : γ) (s : σ) : Prop :=
  ∀ v, recorded = some v →
    v ≤ S.version s ∧ (v = S.version s → S.Settled s → held = S.content s)

variable {recorded : Option ν} {held : γ} {v : ν}

/-- A follower that has recorded nothing need not hold anything. -/
theorem Follows.none : Follows S none held s := fun _ h => absurd h (by simp)

/-- The source goes on. -/
theorem Follows.later (h : Follows S recorded held s) (hlater : Later S s s') :
    Follows S recorded held s' := by
  intro v hv
  obtain ⟨hle, hheld⟩ := h v hv
  refine ⟨hle.trans hlater.version_le, fun heq hsettled => ?_⟩
  -- the version is still the one recorded, so it was already, and nothing has changed
  have hversion : S.version s' ≤ S.version s := heq ▸ hle
  rcases hlater with hlt | ⟨hsame, hkept⟩
  · exact absurd hlt (not_lt.mpr hversion)
  · obtain ⟨hsettled', hcontent⟩ := hkept hsettled
    rw [hcontent]
    exact hheld (heq.trans hsame.symm) hsettled'

/-- **Record first, then read.** A follower that has heard of a version may read the content at any
instant after that, and the source may go on while it puts the content in. -/
theorem Follows.read (hv : v ≤ S.version s) (hread : Later S s s') (hafter : Later S s' s'') :
    Follows S (some v) (S.content s') s'' := by
  rintro _ ⟨rfl⟩
  refine ⟨hv.trans (hread.trans hafter).version_le, fun heq hsettled => ?_⟩
  have hversion : S.version s'' ≤ S.version s' := heq ▸ hv.trans hread.version_le
  exact (hafter.content_eq hversion hsettled).symm

/-- A version below the one of the source claims nothing about the content. -/
theorem Follows.below (hv : v < S.version s) (hlater : Later S s s') :
    Follows S (some v) held s' := by
  rintro _ ⟨rfl⟩
  have hlt := hv.trans_le hlater.version_le
  exact ⟨hlt.le, fun heq _ => absurd heq hlt.ne⟩

/-- What has been read does not matter if the source is not settled at this version any more. -/
theorem Follows.unsettled (hv : v ≤ S.version s) (hlater : Later S s s')
    (hmoved : S.Settled s' → S.version s < S.version s') : Follows S (some v) held s' := by
  rintro _ ⟨rfl⟩
  refine ⟨hv.trans hlater.version_le, fun heq hsettled => ?_⟩
  exact absurd (heq ▸ hmoved hsettled) (not_lt.mpr hv)

end Versioned
