import Mathlib.Data.List.Basic
import Mathlib.Tactic.Common

/-!
# Computations that put something out and may throw

A computation with callbacks puts out what it calls them with, and ends with a value or with an
exception: what it has put out before stays. `Emits ω ε` is the monad of these computations.

A machine takes the symbols of a stream one at a time, in a step that is such a computation. A
`pump` takes them in portions, and may call its callbacks in another grain, say once for a portion
in place of once for a symbol. It refines the machine if each portion comes to what its symbols
come to, one after the other, with the grain told away (`Refines`). Then it does not matter which
portions a stream is received in (`Refines.foldlM_eq`).
-/

/-- What a computation has put out, and how it ends. -/
structure Emits (ω ε α : Type) where
  out : List ω
  result : Except ε α

namespace Emits

variable {ω ω' ε α β σ : Type}

@[ext] theorem ext {c d : Emits ω ε α} (hout : c.out = d.out) (hresult : c.result = d.result) :
    c = d := by
  cases c
  cases d
  cases hout
  cases hresult
  rfl

/-- A computation goes on with a value; an exception ends it. -/
def bind (c : Emits ω ε α) (f : α → Emits ω ε β) : Emits ω ε β :=
  match c.result with
  | .ok a => ⟨c.out ++ (f a).out, (f a).result⟩
  | .error e => ⟨c.out, .error e⟩

instance : Monad (Emits ω ε) where
  pure a := ⟨[], .ok a⟩
  bind := bind

/-- The computation that puts `os` out. -/
def emit (os : List ω) : Emits ω ε Unit := ⟨os, .ok ()⟩

/-- The computation that throws `e`. -/
def raise (e : ε) : Emits ω ε α := ⟨[], .error e⟩

theorem pure_def (a : α) : (pure a : Emits ω ε α) = ⟨[], .ok a⟩ := rfl

@[simp] theorem out_pure (a : α) : (pure a : Emits ω ε α).out = [] := rfl

@[simp] theorem result_pure (a : α) : (pure a : Emits ω ε α).result = .ok a := rfl

/-- A sequence whose first part has come to its end. -/
@[simp] theorem mk_ok_bind (os : List ω) (a : α) (f : α → Emits ω ε β) :
    ((⟨os, .ok a⟩ : Emits ω ε α) >>= f) = ⟨os ++ (f a).out, (f a).result⟩ := rfl

/-- A sequence whose first part has failed. -/
@[simp] theorem mk_error_bind (os : List ω) (e : ε) (f : α → Emits ω ε β) :
    ((⟨os, .error e⟩ : Emits ω ε α) >>= f) = ⟨os, .error e⟩ := rfl

@[simp] theorem emit_bind (os : List ω) (f : Unit → Emits ω ε β) :
    (emit os >>= f) = ⟨os ++ (f ()).out, (f ()).result⟩ := rfl

@[simp] theorem raise_bind (e : ε) (f : α → Emits ω ε β) :
    ((raise e : Emits ω ε α) >>= f) = raise e := rfl

/-- What is put out before a result comes first. -/
theorem bind_of_ok {c : Emits ω ε α} {a : α} (h : c.result = .ok a) (f : α → Emits ω ε β) :
    (c >>= f) = ⟨c.out ++ (f a).out, (f a).result⟩ := by
  obtain ⟨os, r⟩ := c
  obtain rfl : r = .ok a := h
  rfl

/-- After an error nothing more is put out. -/
theorem bind_of_error {c : Emits ω ε α} {e : ε} (h : c.result = .error e)
    (f : α → Emits ω ε β) : (c >>= f) = ⟨c.out, .error e⟩ := by
  obtain ⟨os, r⟩ := c
  obtain rfl : r = .error e := h
  rfl

/-- What comes after an exception does not matter. -/
theorem bind_congr {c : Emits ω ε α} {f g : α → Emits ω ε β}
    (h : ∀ a, c.result = .ok a → f a = g a) : (c >>= f) = c >>= g := by
  rcases hresult : c.result with e | a
  · rw [bind_of_error hresult, bind_of_error hresult]
  · rw [bind_of_ok hresult, bind_of_ok hresult, h a hresult]

instance : LawfulMonad (Emits ω ε) := by
  refine LawfulMonad.mk' _ ?_ (fun a f => rfl) ?_
  · rintro α ⟨os, e | a⟩
    · rfl
    · exact ext (List.append_nil os) rfl
  · rintro α β γ ⟨os, a | a⟩ f g
    · rfl
    · show _ = (⟨os ++ ((f a) >>= g).out, ((f a) >>= g).result⟩ : Emits ω ε γ)
      rw [mk_ok_bind]
      obtain ⟨os', b | b⟩ := f a
      · rfl
      · exact ext (List.append_assoc os os' (g b).out) rfl

/-- The first of two values. -/
def first (c : Emits ω ε (α × β)) : Emits ω ε α := ⟨c.out, c.result.map Prod.fst⟩

@[simp] theorem out_first (c : Emits ω ε (α × β)) : c.first.out = c.out := rfl

/-- A second value that is thrown away makes no difference. -/
theorem first_bind_pure (c : Emits ω ε α) (b : β) :
    (c >>= fun a => pure (a, b)).first = c := by
  obtain ⟨os, e | a⟩ := c
  · rfl
  · exact ext (List.append_nil os) rfl

/-! ### Another grain of output -/

/-- What is put out, seen through `f`. -/
def mapOut (f : ω → List ω') (c : Emits ω ε α) : Emits ω' ε α := ⟨c.out.flatMap f, c.result⟩

@[simp] theorem out_mapOut (f : ω → List ω') (c : Emits ω ε α) :
    (c.mapOut f).out = c.out.flatMap f := rfl

@[simp] theorem result_mapOut (f : ω → List ω') (c : Emits ω ε α) :
    (c.mapOut f).result = c.result := rfl

@[simp] theorem mapOut_pure (f : ω → List ω') (a : α) :
    (pure a : Emits ω ε α).mapOut f = pure a := rfl

@[simp] theorem mapOut_emit (f : ω → List ω') (os : List ω) :
    (emit os : Emits ω ε Unit).mapOut f = emit (os.flatMap f) := rfl

@[simp] theorem mapOut_raise (f : ω → List ω') (e : ε) :
    (raise e : Emits ω ε α).mapOut f = raise e := rfl

/-- The output of a sequence is seen part by part. -/
theorem mapOut_bind (f : ω → List ω') (c : Emits ω ε α) (g : α → Emits ω ε β) :
    (c >>= g).mapOut f = c.mapOut f >>= fun a => (g a).mapOut f := by
  obtain ⟨os, a | a⟩ := c
  · rfl
  · exact ext List.flatMap_append rfl

/-! ### Portions of a stream -/

/-- A portion that is not empty comes to what its symbols come to. -/
def Refines (f : ω → List ω') (pump : σ → List β → Emits ω ε σ) (step : σ → β → Emits ω' ε σ) :
    Prop :=
  ∀ s portion, portion ≠ [] → (pump s portion).mapOut f = portion.foldlM step s

/-- **The portions do not matter**: a stream comes to what its symbols come to. -/
theorem Refines.foldlM_eq {f : ω → List ω'} {pump : σ → List β → Emits ω ε σ}
    {step : σ → β → Emits ω' ε σ} (h : Refines f pump step) {portions : List (List β)}
    (hne : ∀ portion ∈ portions, portion ≠ []) (s : σ) :
    (portions.foldlM pump s).mapOut f = portions.flatten.foldlM step s := by
  induction portions generalizing s with
  | nil => rfl
  | cons portion portions ih =>
    have hrest : ∀ s, (portions.foldlM pump s).mapOut f = portions.flatten.foldlM step s :=
      ih fun p hp => hne p (List.mem_cons_of_mem portion hp)
    rw [List.foldlM_cons, mapOut_bind, h s portion (hne portion List.mem_cons_self),
      List.flatten_cons, List.foldlM_append]
    simp only [hrest]

/-! ### What holds along a stream -/

/-- **Invariant of a stream.** What each step carries on from the output so far holds at the end,
if the stream ends with a value; and if it ends with an exception, what the step with the exception
left. -/
theorem foldlM_induction {step : σ → β → Emits ω ε σ} {I : List ω → σ → Prop}
    {E : List ω → ε → Prop}
    (h_ok : ∀ os s b s', I os s → (step s b).result = .ok s' → I (os ++ (step s b).out) s')
    (h_error : ∀ os s b e, I os s → (step s b).result = .error e → E (os ++ (step s b).out) e)
    {os : List ω} {s : σ} (h : I os s) (bs : List β) :
    (∀ s', (bs.foldlM step s).result = .ok s' → I (os ++ (bs.foldlM step s).out) s') ∧
      ∀ e, (bs.foldlM step s).result = .error e → E (os ++ (bs.foldlM step s).out) e := by
  induction bs generalizing os s with
  | nil =>
    rw [List.foldlM_nil, out_pure, List.append_nil]
    refine ⟨fun s' hs' => ?_, fun e he => absurd he (by simp)⟩
    obtain rfl : s = s' := Except.ok.inj hs'
    exact h
  | cons b bs ih =>
    rw [List.foldlM_cons]
    rcases hstep : (step s b).result with e | s'
    · rw [bind_of_error hstep]
      refine ⟨fun s' hs' => absurd hs' (by simp), fun e' he' => ?_⟩
      obtain rfl : e = e' := Except.error.inj he'
      exact h_error os s b e h hstep
    · rw [bind_of_ok hstep]
      dsimp only
      rw [← List.append_assoc]
      exact ih (h_ok os s b s' h hstep)

end Emits
