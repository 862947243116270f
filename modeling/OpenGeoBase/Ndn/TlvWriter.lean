import OpenGeoBase.Ndn.Tlv

/-!
# TLV elements that are written

An encoder writes an element from its end: the value, then the number of octets the value took,
then the type. `varNumber` is what a type or a length is written as, `nonNegativeInteger` the value
of an element that is a number, and `element` the whole element.

What is written is read back: `readVarNumber_varNumber`, `readNonNegativeInteger_nonNegativeInteger`
and, for the elements within an element, `parse_element`.
-/

namespace OpenGeoBase

open Framing

/-- A number of variable size, as `prependVarNumber` writes it. -/
def varNumber (n : ℕ) : List ℕ :=
  if n < 253 then [n]
  else if n < 2 ^ 16 then 253 :: bigEndian 2 n
  else if n < 2 ^ 32 then 254 :: bigEndian 4 n
  else 255 :: bigEndian 8 n

/-- The value of an element that is a number, as `prependNonNegativeInteger` writes it. -/
def nonNegativeInteger (n : UInt64) : List ℕ := bigEndian (segmentWidth n.toNat) n.toNat

/-- `readNonNegativeInteger` of the value of an element; an exception is `none`. -/
def readNonNegativeInteger (value : List ℕ) : Option UInt64 :=
  if value.length = 1 ∨ value.length = 2 ∨ value.length = 4 ∨ value.length = 8 then
    some (UInt64.ofNat (ofBigEndian value))
  else none

/-- An element. -/
def element (type : ℕ) (value : List ℕ) : List ℕ :=
  varNumber type ++ (varNumber value.length ++ value)

namespace Block

/-- `Block::value`, the octets after the type and the length. -/
def value (element : List ℕ) : List ℕ :=
  (((readVarNumber element).bind fun afterType => readVarNumber afterType.2).map Prod.snd).getD []

/-- `Block::parse`, the elements within an element; an exception is `none`. -/
def parse (block : List ℕ) : Option (List (List ℕ)) :=
  let (elements, rest) := frames fromBuffer (value block)
  if rest = [] then some elements else none

/-- `Block::find`, the first of the elements with a type. -/
def find (type : ℕ) (elements : List (List ℕ)) : Option (List ℕ) :=
  elements.find? fun e => Block.type e = type

end Block

section Written

variable {n type : ℕ} {value : List ℕ}

/-- **A number of variable size is read back**, whatever follows it. -/
theorem readVarNumber_varNumber (h : n < 2 ^ 64) (t : List ℕ) :
    readVarNumber (varNumber n ++ t) = some (n, t) := by
  -- A number that is marked is read from as many octets as were written.
  have hmarked : ∀ mark k : ℕ, 253 ≤ mark →
      (if mark = 253 then 2 else if mark = 254 then 4 else 8) = k → n < 256 ^ k →
      readVarNumber (mark :: (bigEndian k n ++ t)) = some (n, t) := by
    intro mark k hmark hk hn
    rw [readVarNumber, if_neg (by omega)]
    dsimp only
    rw [hk, if_neg (by simp)]
    have htake : (bigEndian k n ++ t).take k = bigEndian k n :=
      List.take_left' (length_bigEndian k n)
    have hdrop : (bigEndian k n ++ t).drop k = t := List.drop_left' (length_bigEndian k n)
    rw [htake, hdrop, ofBigEndian_bigEndian, Nat.mod_eq_of_lt hn]
  unfold varNumber
  split
  · next hsmall => rw [List.singleton_append, readVarNumber, if_pos hsmall]
  · split
    · exact hmarked 253 2 (by decide) (by decide) (by omega)
    · split
      · exact hmarked 254 4 (by decide) (by decide) (by omega)
      · exact hmarked 255 8 (by decide) (by decide) (by omega)

/-- A number in an element is read back. -/
theorem readNonNegativeInteger_nonNegativeInteger (n : UInt64) :
    readNonNegativeInteger (nonNegativeInteger n) = some n := by
  have hwidth : segmentWidth n.toNat = 1 ∨ segmentWidth n.toNat = 2 ∨ segmentWidth n.toNat = 4 ∨
      segmentWidth n.toNat = 8 := by
    unfold segmentWidth
    split
    · simp
    · split
      · simp
      · split <;> simp
  unfold readNonNegativeInteger nonNegativeInteger
  rw [length_bigEndian, if_pos hwidth, ofBigEndian_bigEndian,
    Nat.mod_eq_of_lt (lt_pow_segmentWidth n.toNat_lt), UInt64.ofNat_toNat]

/-- An integer takes eight octets at most. -/
theorem length_nonNegativeInteger_le (n : UInt64) : (nonNegativeInteger n).length ≤ 8 := by
  rw [nonNegativeInteger, length_bigEndian]
  unfold segmentWidth
  split
  · omega
  · split
    · omega
    · split <;> omega

/-- A number of variable size takes at most nine bytes. -/
theorem length_varNumber_le (n : ℕ) : (varNumber n).length ≤ 9 := by
  unfold varNumber
  split
  · simp
  · split
    · simp
    · split <;> simp

/-- The type of an element that was written. -/
theorem type_element (h : type < 2 ^ 64) : Block.type (element type value) = type := by
  rw [Block.type, element, readVarNumber_varNumber h]
  rfl

theorem value_element (h : type < 2 ^ 64) (hvalue : value.length < 2 ^ 64) :
    Block.value (element type value) = value := by
  rw [Block.value, element, readVarNumber_varNumber h, Option.bind_some,
    readVarNumber_varNumber hvalue]
  rfl

/-- What is written is an element. -/
theorem element_mem (h : type < 2 ^ 64) (hvalue : value.length < 2 ^ 64) :
    element type value ∈ Block.Elements := by
  have htype : readVarNumber (element type value) =
      some (type, varNumber value.length ++ value) := readVarNumber_varNumber h _
  refine Block.fromBuffer_eq_some.mpr
    ⟨type, _, value.length, value, htype, readVarNumber_varNumber hvalue value, le_rfl, ?_⟩
  have hle : value.length ≤ (element type value).length := by
    rw [element, List.length_append, List.length_append]
    omega
  rw [Nat.sub_add_cancel hle, List.take_length]

/-- **The elements within an element** are read back. -/
theorem parse_element {elements : List (List ℕ)} (h : type < 2 ^ 64)
    (hvalue : elements.flatten.length < 2 ^ 64) (helements : ∀ e ∈ elements, e ∈ Block.Elements) :
    Block.parse (element type elements.flatten) = some elements := by
  have hend : BreaksOff ([] : List ℕ) [] := rfl
  have hframes := Block.reads_fromBuffer.frames_eq helements (by simp) hend
  rw [List.append_nil] at hframes
  simp [Block.parse, value_element h hvalue, hframes]

end Written

end OpenGeoBase
