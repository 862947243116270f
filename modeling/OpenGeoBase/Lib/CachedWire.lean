import OpenGeoBase.Lib.Transition

/-!
# Objects that keep their wire form

An object has fields, some of which may be present, and may keep a wire form that it was decoded
from or encoded to. Setters drop the wire form; `encode` returns it if there is one and makes one
if there is none; `decode` keeps what it was given, also when it fails.

`Codec` lists the calls, `Codec.Lawful` what each of them does to the wire form and to the fields.
The invariant is that the wire form, if there is one, is read as the fields (`Codec.Fresh`). Only a
`decode` that fails breaks it: `throughout_roundTrips_iff`.
-/

namespace CachedWire

open Transition

/-- The calls on an object of the type `O`, with fields of the type `F` and wire forms `W`. -/
structure Codec (O W F : Type) where
  /-- The wire form that is kept. -/
  wire : O → Option W
  /-- The fields that are present. -/
  fields : O → F
  /-- Can the fields be encoded? -/
  Ready : F → Prop
  /-- What a setter makes of an object. -/
  set : O → O → Prop
  /-- The wire form that is returned, `none` for an exception, and the object. -/
  encode : O → Option W × O
  /-- Whether the call returns without an exception, and the object. -/
  decode : W → O → Bool × O

/-- What the calls do. `read` says which fields a wire form has, `none` if it is refused. -/
structure Codec.Lawful {O W F : Type} (c : Codec O W F) (read : W → Option F) : Prop where
  set_drops : ∀ o o', c.set o o' → c.wire o' = none
  encode_kept : ∀ o w, c.wire o = some w → c.encode o = (some w, o)
  encode_fresh : ∀ o, c.wire o = none → c.Ready (c.fields o) → ∃ w, read w = some (c.fields o) ∧
    (c.encode o).1 = some w ∧ c.wire (c.encode o).2 = some w ∧
      c.fields (c.encode o).2 = c.fields o
  encode_refused : ∀ o, c.wire o = none → ¬c.Ready (c.fields o) → (c.encode o).2 = o
  decode_ok : ∀ w f o, read w = some f →
    (c.decode w o).1 = true ∧ c.wire (c.decode w o).2 = some w ∧ c.fields (c.decode w o).2 = f
  decode_fails : ∀ w o, read w = none →
    (c.decode w o).1 = false ∧ c.wire (c.decode w o).2 = some w

/-- The calls of a run. -/
inductive Call (W : Type) where
  | set
  | encode
  | decode (wire : W)

namespace Codec

variable {O W F : Type} (c : Codec O W F)

/-- Any sequence of calls, from an object that keeps no wire form. -/
def calls : System O (Call W) where
  init o := c.wire o = none
  step o call o' :=
    match call with
    | .set => c.set o o'
    | .encode => o' = (c.encode o).2
    | .decode w => o' = (c.decode w o).2

/-- What the object is encoded to is decoded, into any object, to its own fields. -/
def RoundTrips (o : O) : Prop :=
  c.Ready (c.fields o) → ∃ w, (c.encode o).1 = some w ∧ ∀ o',
    (c.decode w o').1 = true ∧ c.fields (c.decode w o').2 = c.fields o

/-- The call is not a `decode` that fails and leaves an object that can be encoded. -/
def Sound (o : O) : Call W → Prop
  | .decode w => (c.decode w o).1 = false → ¬c.Ready (c.fields (c.decode w o).2)
  | _ => True

/-- The wire form that is kept is read as the fields. -/
def Fresh (read : W → Option F) (o : O) : Prop :=
  ∀ w, c.wire o = some w → c.Ready (c.fields o) → read w = some (c.fields o)

variable {c} {read : W → Option F} {o o' : O}

/-- An object whose wire form is fresh is encoded to what is read as its fields. -/
theorem Fresh.roundTrips (h : c.Lawful read) (ho : c.Fresh read o) : c.RoundTrips o := by
  intro hready
  have hencode : ∃ w, (c.encode o).1 = some w ∧ read w = some (c.fields o) := by
    cases hwire : c.wire o with
    | none =>
      obtain ⟨w, hread, hresult, -, -⟩ := h.encode_fresh o hwire hready
      exact ⟨w, hresult, hread⟩
    | some w => exact ⟨w, by rw [h.encode_kept o w hwire], ho w hwire hready⟩
  obtain ⟨w, hresult, hread⟩ := hencode
  refine ⟨w, hresult, fun o' => ?_⟩
  obtain ⟨hreturns, -, hfields⟩ := h.decode_ok w _ o' hread
  exact ⟨hreturns, hfields⟩

/-- A sound call keeps the wire form fresh. -/
theorem Fresh.step (h : c.Lawful read) (ho : c.Fresh read o) {call : Call W}
    (hsound : c.Sound o call) (hstep : c.calls.step o call o') : c.Fresh read o' := by
  intro w hwire hready
  cases call with
  | set =>
    rw [h.set_drops o o' hstep] at hwire
    exact absurd hwire (by simp)
  | encode =>
    obtain rfl : o' = (c.encode o).2 := hstep
    cases hkept : c.wire o with
    | none =>
      by_cases hcan : c.Ready (c.fields o)
      · obtain ⟨w', hread, -, hwire', hfields⟩ := h.encode_fresh o hkept hcan
        rw [hwire', Option.some_inj] at hwire
        rw [← hwire, hread, hfields]
      · rw [h.encode_refused o hkept hcan, hkept] at hwire
        exact absurd hwire (by simp)
    | some w' =>
      rw [h.encode_kept o w' hkept] at hwire hready ⊢
      exact ho w hwire hready
  | decode w' =>
    obtain rfl : o' = (c.decode w' o).2 := hstep
    cases hread : read w' with
    | none =>
      obtain ⟨hfails, -⟩ := h.decode_fails w' o hread
      exact absurd hready (hsound hfails)
    | some f =>
      obtain ⟨-, hwire', hfields⟩ := h.decode_ok w' f o hread
      rw [hwire', Option.some_inj] at hwire
      rw [← hwire, hread, hfields]

/-- After a call the object round-trips only if the call was sound. -/
theorem sound_of_roundTrips (h : c.Lawful read) {call : Call W}
    (hstep : c.calls.step o call o') (hround : c.RoundTrips o') : c.Sound o call := by
  cases call with
  | set => trivial
  | encode => trivial
  | decode w =>
    obtain rfl : o' = (c.decode w o).2 := hstep
    intro hfails hready
    obtain ⟨w', hresult, hdecodes⟩ := hround hready
    cases hread : read w with
    | none =>
      -- What is returned is what was refused.
      obtain ⟨-, hwire⟩ := h.decode_fails w o hread
      rw [h.encode_kept _ w hwire, Option.some_inj] at hresult
      have hreturns := (hdecodes o).1
      rw [← hresult, hfails] at hreturns
      exact absurd hreturns (by simp)
    | some f =>
      obtain ⟨hreturns, -⟩ := h.decode_ok w f o hread
      rw [hfails] at hreturns
      exact absurd hreturns (by simp)

/-- **Cached wire forms.** In a run of calls the object round-trips throughout if and only if no
call was a `decode` that failed and left an object that can be encoded. -/
theorem throughout_roundTrips_iff (h : c.Lawful read) {history : List (O × Call W)}
    (hrun : Run c.calls history o) :
    Throughout c.RoundTrips history o ↔ Admitted c.Sound history := by
  refine Run.throughout_iff (I := c.Fresh read) ?_ ?_ ?_ ?_ hrun
  · intro o hinit w hwire
    rw [show c.wire o = none from hinit] at hwire
    exact absurd hwire (by simp)
  · exact fun o ho => ho.roundTrips h
  · exact fun o call o' ho hsound hstep => ho.step h hsound hstep
  · exact fun o call o' _ hstep hround => sound_of_roundTrips h hstep hround

end Codec

end CachedWire
