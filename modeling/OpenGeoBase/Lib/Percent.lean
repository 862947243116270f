import Mathlib.Data.List.Basic
import Mathlib.Tactic.Common

/-!
# Percent-encoded bytes

An escape is a percent sign and two hexadecimal digits, in either case; it stands for the byte
with these two halves. `Unescapes s t` says that `t` is what is left of `s` when each escape,
found from the left and without overlaps, has given way to its byte. `Escapes keep s t` says
that `t` is `s` with every byte but the kept ones escaped. The first undoes the second, if the
percent sign is not kept (`Escapes.unescapes`).
-/

namespace Percent

def percent : UInt8 := 0x25

/-- `d` is the hexadecimal digit of value `x`. -/
def HexDigit (d : UInt8) (x : ℕ) : Prop :=
  x < 10 ∧ d.toNat = '0'.toNat + x ∨
    10 ≤ x ∧ x < 16 ∧ (d.toNat = 'A'.toNat + (x - 10) ∨ d.toNat = 'a'.toNat + (x - 10))

/-- The byte with the two halves. -/
def ofHalves (x y : ℕ) : UInt8 := UInt8.ofNat (16 * x + y)

/-- There is an escape at the start. -/
def StartsEscape (s : List UInt8) : Prop :=
  ∃ d e rest x y, s = percent :: d :: e :: rest ∧ HexDigit d x ∧ HexDigit e y

/-- Each escape replaced by its byte, from left to right and without overlaps. -/
inductive Unescapes : List UInt8 → List UInt8 → Prop where
  | nil : Unescapes [] []
  | escape {d e : UInt8} {x y : ℕ} {s t : List UInt8} (hd : HexDigit d x) (he : HexDigit e y)
      (h : Unescapes s t) : Unescapes (percent :: d :: e :: s) (ofHalves x y :: t)
  | keep {b : UInt8} {s t : List UInt8} (hb : ¬StartsEscape (b :: s)) (h : Unescapes s t) :
      Unescapes (b :: s) (b :: t)

/-- Each byte escaped, but for the kept ones. -/
inductive Escapes (keep : UInt8 → Prop) : List UInt8 → List UInt8 → Prop where
  | nil : Escapes keep [] []
  | keep {b : UInt8} {s t : List UInt8} (hb : keep b) (h : Escapes keep s t) :
      Escapes keep (b :: s) (b :: t)
  | escape {b d e : UInt8} {x y : ℕ} {s t : List UInt8} (hb : ¬keep b) (hbyte : b = ofHalves x y)
      (hd : HexDigit d x) (he : HexDigit e y) (h : Escapes keep s t) :
      Escapes keep (b :: s) (percent :: d :: e :: t)

/-- The value of a digit is less than 16. -/
theorem HexDigit.lt {d : UInt8} {x : ℕ} (h : HexDigit d x) : x < 16 := by
  unfold HexDigit at h
  omega

/-- A digit has one value. -/
theorem HexDigit.unique {d : UInt8} {x x' : ℕ} (h : HexDigit d x) (h' : HexDigit d x') :
    x = x' := by
  have hzero : '0'.toNat = 48 := rfl
  have hupper : 'A'.toNat = 65 := rfl
  have hlower : 'a'.toNat = 97 := rfl
  unfold HexDigit at h h'
  omega

namespace Unescapes

variable {s t t' : List UInt8}

/-- There is one way to replace the escapes. -/
theorem unique (h : Unescapes s t) (h' : Unescapes s t') : t = t' := by
  induction h generalizing t' with
  | nil =>
    cases h'
    rfl
  | escape hd he h ih =>
    cases h' with
    | escape hd' he' h' => rw [hd.unique hd', he.unique he', ih h']
    | keep hb h' => exact absurd ⟨_, _, _, _, _, rfl, hd, he⟩ hb
  | keep hb h ih =>
    cases h' with
    | escape hd he h' => exact absurd ⟨_, _, _, _, _, rfl, hd, he⟩ hb
    | keep hb' h' => rw [ih h']

/-- A byte comes from three bytes at most. -/
theorem length_le (h : Unescapes s t) : s.length ≤ 3 * t.length := by
  induction h with
  | nil => exact Nat.le_refl _
  | escape hd he h ih =>
    simp only [List.length_cons]
    omega
  | keep hb h ih =>
    simp only [List.length_cons]
    omega

/-- And no byte is made of nothing. -/
theorem length_le' (h : Unescapes s t) : t.length ≤ s.length := by
  induction h with
  | nil => exact Nat.le_refl _
  | escape hd he h ih =>
    simp only [List.length_cons]
    omega
  | keep hb h ih =>
    simp only [List.length_cons]
    omega

end Unescapes

/-- **Replacing the escapes undoes escaping**, if percent signs are escaped. -/
theorem Escapes.unescapes {keep : UInt8 → Prop} {s t : List UInt8} (hkeep : ¬keep percent)
    (h : Escapes keep s t) : Unescapes t s := by
  induction h with
  | nil => exact .nil
  | keep hb h ih =>
    refine .keep ?_ ih
    rintro ⟨d, e, rest, x, y, heq, -, -⟩
    obtain ⟨rfl, -⟩ := List.cons.inj heq
    exact hkeep hb
  | escape hb hbyte hd he h ih =>
    subst hbyte
    exact .escape hd he ih

end Percent
