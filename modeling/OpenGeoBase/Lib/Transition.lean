import Mathlib.Data.List.Basic
import Mathlib.Tactic.Common

/-!
# Finite runs of a labelled transition system

A `System` has initial states and labelled steps. `Run S h s` says that the
system can reach `s` by a finite run whose history `h` lists, oldest first, the
state each step was taken from and its label.

Safety comes in two strengths. `Run.invariant` is the induction: what holds
initially and is kept by the steps a guard `ok` admits holds at the end of every
run that took admitted steps only. `Run.throughout_iff` is the exact version, for a
guard that is violated only by steps that break the property: a run shows the
property throughout if and only if every step of it was admitted.
-/

namespace Transition

/-- A labelled transition system. -/
structure System (σ Λ : Type) where
  /-- The initial states. -/
  init : σ → Prop
  /-- The labelled steps. -/
  step : σ → Λ → σ → Prop

variable {σ Λ : Type}

/-- The finite runs of `S`, with the history of the states left and labels taken. -/
inductive Run (S : System σ Λ) : List (σ × Λ) → σ → Prop where
  | nil {s : σ} (h : S.init s) : Run S [] s
  | snoc {h : List (σ × Λ)} {s s' : σ} {a : Λ} (hrun : Run S h s) (hstep : S.step s a s') :
      Run S (h ++ [(s, a)]) s'

/-- A run took steps admitted by `ok` only. -/
def Admitted (ok : σ → Λ → Prop) (h : List (σ × Λ)) : Prop := ∀ e ∈ h, ok e.1 e.2

@[simp] theorem admitted_nil (ok : σ → Λ → Prop) : Admitted ok [] := by
  simp [Admitted]

/-- One more step is admitted, or not. -/
@[simp] theorem admitted_append_singleton {ok : σ → Λ → Prop} {h : List (σ × Λ)} {s : σ} {a : Λ} :
    Admitted ok (h ++ [(s, a)]) ↔ Admitted ok h ∧ ok s a := by
  simp [Admitted, or_imp, forall_and]

/-- A run in two parts is admitted if both are. -/
theorem admitted_append {ok : σ → Λ → Prop} {h h' : List (σ × Λ)} :
    Admitted ok (h ++ h') ↔ Admitted ok h ∧ Admitted ok h' := by
  simp [Admitted, or_imp, forall_and]

/-- `P` holds in every state a run visits, its last one included. -/
def Throughout (P : σ → Prop) (h : List (σ × Λ)) (s : σ) : Prop := (∀ e ∈ h, P e.1) ∧ P s

/-- At the start there is one state to look at. -/
theorem throughout_nil {P : σ → Prop} {s : σ} :
    Throughout P ([] : List (σ × Λ)) s ↔ P s := by
  simp [Throughout]

theorem throughout_append_singleton {P : σ → Prop} {h : List (σ × Λ)} {s s' : σ} {a : Λ} :
    Throughout P (h ++ [(s, a)]) s' ↔ Throughout P h s ∧ P s' := by
  simp [Throughout, or_imp, forall_and]

namespace Run

variable {S : System σ Λ} {h : List (σ × Λ)} {s : σ}

/-- **Invariant induction.** -/
theorem invariant {ok : σ → Λ → Prop} {I : σ → Prop} (h_init : ∀ s, S.init s → I s)
    (h_step : ∀ s a s', I s → ok s a → S.step s a s' → I s') (hrun : Run S h s)
    (hok : Admitted ok h) : I s := by
  induction hrun with
  | nil h₀ => exact h_init _ h₀
  | snoc _ hstep ih =>
    rw [admitted_append_singleton] at hok
    exact h_step _ _ _ (ih hok.1) hok.2 hstep

/-- An invariant that needs no guard holds at the end of every run. -/
theorem invariant' {I : σ → Prop} (h_init : ∀ s, S.init s → I s)
    (h_step : ∀ s a s', I s → S.step s a s' → I s') (hrun : Run S h s) : I s :=
  have hok : Admitted (fun _ _ => True) h := fun _ _ => trivial
  hrun.invariant h_init (fun s a s' hI _ => h_step s a s' hI) hok

/-- A property implied by an invariant holds throughout the runs of admitted steps. -/
theorem throughout {ok : σ → Λ → Prop} {I P : σ → Prop} (h_init : ∀ s, S.init s → I s)
    (h_imp : ∀ s, I s → P s) (h_step : ∀ s a s', I s → ok s a → S.step s a s' → I s')
    (hrun : Run S h s) (hok : Admitted ok h) : Throughout P h s := by
  induction hrun with
  | nil h₀ => exact throughout_nil.mpr (h_imp _ (h_init _ h₀))
  | @snoc h s s' a hrun hstep ih =>
    rw [admitted_append_singleton] at hok
    have hI : I s := hrun.invariant h_init h_step hok.1
    exact throughout_append_singleton.mpr ⟨ih hok.1, h_imp s' (h_step s a s' hI hok.2 hstep)⟩

/-- **Exact safety.** Let `I` be an invariant of the admitted steps that implies
`P`, and suppose that from a state in `I` only admitted steps lead to a state in
`P`. Then a run shows `P` throughout if and only if all its steps were admitted. -/
theorem throughout_iff {ok : σ → Λ → Prop} {I P : σ → Prop}
    (h_init : ∀ s, S.init s → I s) (h_imp : ∀ s, I s → P s)
    (h_step : ∀ s a s', I s → ok s a → S.step s a s' → I s')
    (h_only : ∀ s a s', I s → S.step s a s' → P s' → ok s a) (hrun : Run S h s) :
    Throughout P h s ↔ Admitted ok h := by
  induction hrun with
  | nil h₀ => simp [Throughout, h_imp _ (h_init _ h₀)]
  | @snoc h s s' a hrun hstep ih =>
    rw [admitted_append_singleton, ← ih, throughout_append_singleton]
    refine and_congr_right fun hprev => ?_
    have hI : I s := hrun.invariant h_init h_step (ih.mp hprev)
    exact ⟨h_only s a s' hI hstep, fun hok => h_imp s' (h_step s a s' hI hok hstep)⟩

/-- **Simulation of a part.** If each admitted step with a label that `f` keeps is answered by a
step of `T`, and one with another label by none, then a run of `S` is matched by a run of `T` on
the labels that are kept. -/
theorem simulate {τ Λ' : Type} {T : System τ Λ'} {f : Λ → Option Λ'} {ok : σ → Λ → Prop}
    {R : σ → τ → Prop} (h_init : ∀ s, S.init s → ∃ t, T.init t ∧ R s t)
    (h_step : ∀ s a s' t, R s t → ok s a → S.step s a s' →
      (f a = none ∧ R s' t) ∨ ∃ b t', f a = some b ∧ T.step t b t' ∧ R s' t')
    (hrun : Run S h s) (hok : Admitted ok h) :
    ∃ h' t, Run T h' t ∧ h'.map Prod.snd = (h.map Prod.snd).filterMap f ∧ R s t := by
  induction hrun with
  | nil h₀ =>
    obtain ⟨t, ht, hR⟩ := h_init _ h₀
    exact ⟨[], t, .nil ht, rfl, hR⟩
  | @snoc h s s' a hrun hstep ih =>
    rw [admitted_append_singleton] at hok
    obtain ⟨h', t, hrun', hlabels, hR⟩ := ih hok.1
    rcases h_step s a s' t hR hok.2 hstep with ⟨hnone, hR'⟩ | ⟨b, t', hsome, hstep', hR'⟩
    · exact ⟨h', t, hrun', by simp [hlabels, hnone], hR'⟩
    · exact ⟨_, t', hrun'.snoc hstep', by simp [hlabels, hsome], hR'⟩

end Run

end Transition
