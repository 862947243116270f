import Mathlib.Logic.Basic
import Mathlib.Logic.Relation
import Mathlib.Order.Defs.PartialOrder
import Mathlib.Tactic.Common

/-!
# Programs of atomic calls

A client of a shared store is a program whose only effects are calls, each of
which reads the store, replaces it and hands the client a reply, in one atomic
step. `Prog σ α` is the resumption of such a client over a store `σ`: either it
has returned a value, or it is about to make a call that turns the store `s` into
`f s` and then goes on with `k s`, the continuation chosen by the store found.

The same text of a client carries two meanings. `Prog.run` executes it without
interruption; the calls themselves are kept apart in the `call` nodes, so that a
scheduler can interleave several clients between them.

* `Prog.Step` — one call, the step of a scheduler; `Prog.run_induction` puts the steps
  of a client that is not interrupted together;
* `Prog.run_bind` — running a composition is running the parts in order;
* `Prog.Within R p` — the store a run of `p` ends in is `R`-related to the one it
  started from. For a preorder `R` the judgment composes (`Within.bind`), which
  is how frame conditions are proven: one obligation for each call, none for the
  control flow;
* `Prog.Commutes f p` — a change `f` of the store is not seen by a run of `p` and is still
  there after it; the judgment composes in the same way;
* `Prog.Always I p s` — `I` holds of each store that a run of `p` from `s` goes through
  (`always_iff`). A client that keeps an invariant from every store (`Keeps`) may be put
  together from such clients (`Keeps.bind`).
-/

namespace AtomicCalls

/-- A client of a store `σ` with result `α`, as the calls it makes. -/
inductive Prog (σ α : Type) : Type where
  /-- The client has returned. -/
  | ret (a : α) : Prog σ α
  /-- The client calls: the store `s` becomes `f s`, the client goes on with `k s`. -/
  | call (f : σ → σ) (k : σ → Prog σ α) : Prog σ α

namespace Prog

variable {σ α β γ : Type}

/-- Sequential composition. -/
def bind : Prog σ α → (α → Prog σ β) → Prog σ β
  | ret a, g => g a
  | call f k, g => call f fun s => (k s).bind g

instance : Monad (Prog σ) where
  pure := ret
  bind := bind

/-- An uninterrupted run: the result and the store left behind. -/
def run : Prog σ α → σ → α × σ
  | ret a, s => (a, s)
  | call f k, s => (k s).run (f s)

/-- The call that reads `q` off the store. -/
def query (q : σ → β) : Prog σ β := call id fun s => ret (q s)

/-- The call that replaces the store `s` by `f s`. -/
def modify (f : σ → σ) : Prog σ Unit := call f fun _ => ret ()

@[simp] theorem run_ret (a : α) (s : σ) : (ret a : Prog σ α).run s = (a, s) := rfl

@[simp] theorem run_pure (a : α) (s : σ) : (pure a : Prog σ α).run s = (a, s) := rfl

@[simp] theorem run_query (q : σ → β) (s : σ) : (query q).run s = (q s, s) := rfl

@[simp] theorem run_modify (f : σ → σ) (s : σ) : (modify f).run s = ((), f s) := rfl

/-- A sequence runs its first part, and then what that part's value leads to. -/
@[simp] theorem run_bind (p : Prog σ α) (g : α → Prog σ β) (s : σ) :
    (p >>= g).run s = (g (p.run s).1).run (p.run s).2 := by
  change (p.bind g).run s = _
  induction p generalizing s with
  | ret a => rfl
  | call f k ih => exact ih s (f s)

@[simp] theorem run_map (h : α → β) (p : Prog σ α) (s : σ) :
    (h <$> p).run s = (h (p.run s).1, (p.run s).2) := by
  change (p >>= fun a => pure (h a)).run s = _
  rw [run_bind, run_pure]

@[simp] theorem run_ite (c : Prop) [Decidable c] (p q : Prog σ α) (s : σ) :
    (if c then p else q).run s = if c then p.run s else q.run s := by
  split <;> rfl

/-! ### One call at a time -/

/-- The client makes its next call. -/
inductive Step : Prog σ α → σ → Prog σ α → σ → Prop where
  | call (f : σ → σ) (k : σ → Prog σ α) (s : σ) : Step (call f k) s (k s) (f s)

/-- After a call the rest of the run is that of the rest of the client. -/
theorem Step.run_eq {p p' : Prog σ α} {s s' : σ} (h : Step p s p' s') : p'.run s' = p.run s := by
  cases h with
  | call f k => rfl

/-- Call by call a client gets to the end of its run: what can be reached from the ends of
the calls that follow can be reached from here. -/
theorem run_induction {motive : Prog σ α → σ → Prop} (p : Prog σ α) (s : σ) (h : motive p s)
    (h_step : ∀ p s p' s', motive p s → Step p s p' s' → motive p' s') :
    motive (ret (p.run s).1) (p.run s).2 := by
  induction p generalizing s with
  | ret a => exact h
  | call f k ih => exact ih s (f s) (h_step _ _ _ _ h (Step.call f k s))

/-- Some calls of the client, maybe none, have been made. -/
def Reaches (p : Prog σ α) (s : σ) (p' : Prog σ α) (s' : σ) : Prop :=
  Relation.ReflTransGen (fun a b : Prog σ α × σ => Step a.1 a.2 b.1 b.2) (p, s) (p', s')

/-- **A client returns.** -/
theorem reaches_ret (p : Prog σ α) (s : σ) : p.Reaches s (ret (p.run s).1) (p.run s).2 :=
  run_induction (motive := p.Reaches s) p s .refl fun _ _ _ _ h hstep => h.tail hstep

/-! ### Frame conditions -/

/-- Every run of `p` ends in a store related by `R` to the one it started from. -/
def Within (R : σ → σ → Prop) (p : Prog σ α) : Prop := ∀ s, R s (p.run s).2

section Within

variable {R : σ → σ → Prop}

/-- A program that does nothing stays within a reflexive relation. -/
theorem Within.pure (hrefl : ∀ s, R s s) (a : α) : Within R (Pure.pure a : Prog σ α) :=
  fun s => hrefl s

theorem Within.query (hrefl : ∀ s, R s s) (q : σ → β) : Within R (Prog.query q) :=
  fun s => hrefl s

/-- A write stays within what relates a state to what is written. -/
theorem Within.modify {f : σ → σ} (hf : ∀ s, R s (f s)) : Within R (Prog.modify f) := hf

/-- For a transitive relation the judgment composes. -/
theorem Within.bind (htrans : ∀ {a b c}, R a b → R b c → R a c) {p : Prog σ α}
    {g : α → Prog σ β} (hp : Within R p) (hg : ∀ a, Within R (g a)) :
    Within R (p >>= g) := by
  intro s
  rw [run_bind]
  exact htrans (hp s) (hg _ _)

/-- Of a choice, both sides stay within the relation. -/
theorem Within.ite {c : Prop} [Decidable c] {p q : Prog σ α} (hp : Within R p)
    (hq : Within R q) : Within R (if c then p else q) := by
  split
  · exact hp
  · exact hq

end Within

/-! ### Maps a run does not see -/

/-- The map of the store makes no difference to a run of `p`, before it or after it. -/
def Commutes (f : σ → σ) (p : Prog σ α) : Prop := ∀ s, p.run (f s) = ((p.run s).1, f (p.run s).2)

section Commutes

variable {f : σ → σ}

/-- A change to the state does not matter to a program that does nothing. -/
theorem Commutes.pure (a : α) : Commutes f (Pure.pure a : Prog σ α) := fun _ => rfl

theorem Commutes.query {q : σ → β} (hq : ∀ s, q (f s) = q s) : Commutes f (Prog.query q) :=
  fun s => Prod.ext (hq s) rfl

theorem Commutes.modify {g : σ → σ} (hg : ∀ s, g (f s) = f (g s)) : Commutes f (Prog.modify g) :=
  fun s => Prod.ext rfl (hg s)

theorem Commutes.bind {p : Prog σ α} {g : α → Prog σ β} (hp : Commutes f p)
    (hg : ∀ a, Commutes f (g a)) : Commutes f (p >>= g) := by
  intro s
  rw [run_bind, run_bind, hp s]
  exact hg _ _

theorem Commutes.ite {c : Prop} [Decidable c] {p q : Prog σ α} (hp : Commutes f p)
    (hq : Commutes f q) : Commutes f (if c then p else q) := by
  split
  · exact hp
  · exact hq

end Commutes

/-! ### Every store of a run -/

/-- `I` holds of the store in which each call is made, and of the last one. -/
def Always (I : σ → Prop) : Prog σ α → σ → Prop
  | ret _, s => I s
  | call f k, s => I s ∧ (k s).Always I (f s)

section Always

variable {I : σ → Prop} {p : Prog σ α} {s s' : σ}

/-- What always holds holds at the start. -/
theorem Always.now (h : p.Always I s) : I s := by
  cases p with
  | ret a => exact h
  | call f k => exact h.1

theorem Always.step {p' : Prog σ α} (h : p.Always I s) (hstep : Step p s p' s') :
    p'.Always I s' := by
  cases hstep with
  | call f k => exact h.2

/-- **Exactly the stores that are reached.** -/
theorem always_iff : p.Always I s ↔ ∀ p' s', p.Reaches s p' s' → I s' := by
  constructor
  · intro h p' s' hreaches
    have hlater : ∀ c : Prog σ α × σ,
        Relation.ReflTransGen (fun a b : Prog σ α × σ => Step a.1 a.2 b.1 b.2) (p, s) c →
          c.1.Always I c.2 := by
      intro c hc
      induction hc with
      | refl => exact h
      | tail _ hstep ih => exact ih.step hstep
    exact (hlater _ hreaches).now
  · intro h
    induction p generalizing s with
    | ret a => exact h _ _ .refl
    | call f k ih =>
      refine ⟨h _ _ .refl, ih s fun p' s' hreaches => h p' s' ?_⟩
      exact Relation.ReflTransGen.head (Step.call f k s) hreaches

theorem Always.run (h : p.Always I s) : I (p.run s).2 := always_iff.mp h _ _ (reaches_ret p s)

/-- What holds throughout a sequence holds throughout both of its parts. -/
theorem always_bind {g : α → Prog σ β} :
    (p >>= g).Always I s ↔ p.Always I s ∧ (g (p.run s).1).Always I (p.run s).2 := by
  change (p.bind g).Always I s ↔ _
  induction p generalizing s with
  | ret a => exact ⟨fun h => ⟨h.now, h⟩, And.right⟩
  | call f k ih => exact (and_congr_right fun _ => ih s).trans and_assoc.symm

@[simp] theorem always_pure {a : α} : (Pure.pure a : Prog σ α).Always I s ↔ I s := Iff.rfl

@[simp] theorem always_query_bind {q : σ → α} {g : α → Prog σ β} :
    (query q >>= g).Always I s ↔ I s ∧ (g (q s)).Always I s := Iff.rfl

@[simp] theorem always_modify_bind {f : σ → σ} {g : Unit → Prog σ β} :
    (modify f >>= g).Always I s ↔ I s ∧ (g ()).Always I (f s) := Iff.rfl

/-- From a store in `I` the client goes through such stores only. -/
def Keeps (I : σ → Prop) (p : Prog σ α) : Prop := ∀ s, I s → p.Always I s

/-- A sequence keeps what its parts keep. -/
theorem Keeps.bind {g : α → Prog σ β} (hp : Keeps I p) (hg : ∀ a, Keeps I (g a)) :
    Keeps I (p >>= g) :=
  fun s hs => always_bind.mpr ⟨hp s hs, hg _ _ (hp s hs).run⟩

end Always

end Prog

end AtomicCalls
