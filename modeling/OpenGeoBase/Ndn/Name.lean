import OpenGeoBase.Lib.Text

/-!
# Names

A name is a list of components. What the repository and the front end use of the
NDN library on names is a `NameLibrary`, a parameter of everything that deals with
names; its documented behaviour on segment components is `NameLibrary.Segmented`.

`octetNames` is the library over components of octets, with the naming convention
for segments: the octet 0, followed by the segment number as a big-endian number of
1, 2, 4 or 8 octets.
-/

namespace OpenGeoBase

open Text

/-- The part of the NDN library that deals with names, as the code uses it. -/
structure NameLibrary where
  Component : Type
  decEq : DecidableEq Component
  isSegment : Component → Bool
  /-- The segment number, or what the exception says. -/
  toSegment : Component → Except Str ℕ
  fromSegment : ℕ → Component
  toEscapedString : Component → Str
  toUri : List Component → Str
  ofUri : Str → Option (List Component)

namespace NameLibrary

instance (names : NameLibrary) : DecidableEq names.Component := names.decEq

variable (names : NameLibrary)

/-- A name of the library. -/
abbrev Name := List names.Component

/-- Segment components are recognised, and carry their number. -/
structure Segmented : Prop where
  isSegment_fromSegment : ∀ i < 2 ^ 64, names.isSegment (names.fromSegment i) = true
  toSegment_fromSegment : ∀ i < 2 ^ 64, names.toSegment (names.fromSegment i) = .ok i

variable {names}

/-- Different segment numbers have different components. -/
theorem Segmented.fromSegment_injOn (h : names.Segmented) {i j : ℕ} (hi : i < 2 ^ 64)
    (hj : j < 2 ^ 64) (heq : names.fromSegment i = names.fromSegment j) : i = j := by
  have hi' := h.toSegment_fromSegment i hi
  rw [heq, h.toSegment_fromSegment j hj] at hi'
  exact (Except.ok.inj hi').symm

/-- The name without the segment component at its end, if there is one; `none` for the
empty name, whose last component does not exist. -/
def withoutSegment (names : NameLibrary) (name : names.Name) : Option names.Name :=
  name.getLast?.map fun lastComponent =>
    if names.isSegment lastComponent then name.dropLast else name

/-- A segment component that is put behind a name is taken off again. -/
theorem Segmented.withoutSegment_append (h : names.Segmented) (name : names.Name) {i : ℕ}
    (hi : i < 2 ^ 64) : names.withoutSegment (name ++ [names.fromSegment i]) = some name := by
  unfold withoutSegment
  rw [List.getLast?_concat, Option.map_some, if_pos (h.isSegment_fromSegment i hi),
    List.dropLast_concat]

end NameLibrary

/-! ### Components of octets -/

/-- The `k` low octets of a number, the highest first. -/
def bigEndian : ℕ → ℕ → List ℕ
  | 0, _ => []
  | k + 1, n => bigEndian k (n / 256) ++ [n % 256]

/-- The number octets stand for, the highest first. -/
def ofBigEndian (octets : List ℕ) : ℕ := octets.foldl (fun n b => 256 * n + b) 0

@[simp] theorem length_bigEndian (k n : ℕ) : (bigEndian k n).length = k := by
  induction k generalizing n with
  | zero => rfl
  | succ k ih => simp [bigEndian, ih]

/-- Octets stand for the number they were made of, as far as it fits. -/
theorem ofBigEndian_bigEndian (k n : ℕ) : ofBigEndian (bigEndian k n) = n % 256 ^ k := by
  induction k generalizing n with
  | zero => simp [bigEndian, ofBigEndian, Nat.mod_one]
  | succ k ih =>
    calc
      ofBigEndian (bigEndian (k + 1) n) = 256 * ofBigEndian (bigEndian k (n / 256)) + n % 256 := by
        simp [bigEndian, ofBigEndian]
      _ = n % 256 ^ (k + 1) := by
        rw [ih, pow_succ', Nat.mod_mul]
        exact Nat.add_comm _ _

/-- The width of a segment number. -/
def segmentWidth (n : ℕ) : ℕ :=
  if n < 256 then 1 else if n < 256 ^ 2 then 2 else if n < 256 ^ 4 then 4 else 8

/-- A segment number fits into its width. -/
theorem lt_pow_segmentWidth {n : ℕ} (h : n < 2 ^ 64) : n < 256 ^ segmentWidth n := by
  unfold segmentWidth
  split
  · assumption
  · split
    · assumption
    · split
      · assumption
      · exact h

/-- An octet in a URI. -/
def uriOctet (b : ℕ) : Str :=
  let c := Char.ofNat b
  if c.isAlphanum || c == '+' || c == '-' || c == '.' || c == '_' then [c]
  else ['%', toDigit (b / 16), toDigit (b % 16)]
where
  /-- A hexadecimal digit. -/
  toDigit (d : ℕ) : Char := (Nat.digitChar d).toUpper

/-- A component in a URI; one of dots alone is told apart by three more dots. -/
def uriComponent (octets : List ℕ) : Str :=
  if octets.all (· == '.'.toNat) then "...".toList ++ octets.flatMap uriOctet
  else octets.flatMap uriOctet

/-- The octets of a component of a URI; the number counts characters of an escape
that have been read already. -/
def ofUriComponent : ℕ → Str → List ℕ
  | _, [] => []
  | skip + 1, _ :: s => ofUriComponent skip s
  | 0, c :: s =>
    if c = '%' then (digit (s.headD '0') * 16 + digit (s.tail.headD '0')) :: ofUriComponent 2 s
    else c.toNat :: ofUriComponent 0 s
where
  /-- The value of a hexadecimal digit. -/
  digit (c : Char) : ℕ := if c.isDigit then c.toNat - '0'.toNat else c.toNat - 'A'.toNat + 10

/-- The library over components of octets. -/
def octetNames : NameLibrary where
  Component := List ℕ
  decEq := inferInstance
  isSegment octets := octets.head? == some 0 && [2, 3, 5, 9].contains octets.length
  toSegment octets :=
    if octets.head? == some 0 then .ok (ofBigEndian octets.tail)
    else .error "Name component does not have the expected marker".toList
  fromSegment n := 0 :: bigEndian (segmentWidth n) n
  toEscapedString := uriComponent
  toUri name := if name.isEmpty then ['/'] else path (name.map uriComponent)
  ofUri uri := some (((splitPath uri).filter (!·.isEmpty)).map (ofUriComponent 0))

/-- Over octets, segment components are recognised. -/
theorem octetNames_segmented : octetNames.Segmented where
  isSegment_fromSegment i _ := by
    simp only [octetNames, List.head?_cons, List.length_cons, length_bigEndian]
    unfold segmentWidth
    split
    · rfl
    · split
      · rfl
      · split <;> rfl
  toSegment_fromSegment i hi := by
    change Except.ok (ofBigEndian (bigEndian (segmentWidth i) i)) = Except.ok i
    rw [ofBigEndian_bigEndian, Nat.mod_eq_of_lt (lt_pow_segmentWidth hi)]

end OpenGeoBase
