import OpenGeoBase.Lib.Framing
import OpenGeoBase.Ndn.Name

/-!
# TLV elements

A TLV element is a type, the length of its value, and the value. Type and length are
numbers of variable size: an octet below 253 is the number itself, and 253, 254 and 255 are
followed by a number of 2, 4 or 8 octets, the highest first.

`Block.fromBuffer` reads the element a buffer starts with. That the elements are frames,
which it takes off a stream one by one, is `Block.reads_fromBuffer`.
-/

namespace OpenGeoBase

open Framing

/-- A number of variable size, and what follows it. -/
def readVarNumber : List ℕ → Option (ℕ × List ℕ)
  | [] => none
  | b :: octets =>
    if b < 253 then some (b, octets)
    else
      let width := if b = 253 then 2 else if b = 254 then 4 else 8
      if octets.length < width then none
      else some (ofBigEndian (octets.take width), octets.drop width)

/-- What follows a number shows where it ends, whatever else follows. -/
theorem readVarNumber_append {s rest : List ℕ} {n : ℕ} (h : readVarNumber s = some (n, rest)) :
    rest.length < s.length ∧ ∀ t, readVarNumber (s ++ t) = some (n, rest ++ t) := by
  cases s with
  | nil => exact absurd h (by simp [readVarNumber])
  | cons b octets =>
    rw [readVarNumber] at h
    -- one octet stands for itself below 253; above, it says how wide the number is
    by_cases hb : b < 253
    · rw [if_pos hb] at h
      obtain ⟨rfl, rfl⟩ := Prod.mk.inj (Option.some.inj h)
      refine ⟨Nat.lt_succ_self _, fun t => ?_⟩
      rw [List.cons_append, readVarNumber, if_pos hb]
    · rw [if_neg hb] at h
      dsimp only at h
      generalize hwidth : (if b = 253 then 2 else if b = 254 then 4 else 8) = width at h
      by_cases hlen : octets.length < width
      · rw [if_pos hlen] at h
        exact absurd h (by simp)
      · rw [if_neg hlen] at h
        obtain ⟨rfl, rfl⟩ := Prod.mk.inj (Option.some.inj h)
        -- the number was complete, so what follows it does not reach into it
        have hle : width ≤ octets.length := not_lt.mp hlen
        refine ⟨?_, fun t => ?_⟩
        · rw [List.length_drop, List.length_cons]
          omega
        · rw [List.cons_append, readVarNumber, if_neg hb]
          dsimp only
          rw [hwidth, if_neg (by rw [List.length_append]; omega),
            List.take_append_of_le_length hle, List.drop_append_of_le_length hle]

namespace Block

/-- `Block::fromBuffer`, the octets of the element a buffer starts with. -/
def fromBuffer (buffer : List ℕ) : Option (List ℕ) := do
  let (_, afterType) ← readVarNumber buffer
  let (length, value) ← readVarNumber afterType
  if value.length < length then none
  else pure (buffer.take (buffer.length - value.length + length))

/-- `Block::type`. -/
def type (element : List ℕ) : ℕ := ((readVarNumber element).map Prod.fst).getD 0

/-- The TLV elements: the sequences of octets that are wholly the element they start with. -/
def Elements : Set (List ℕ) := {element | fromBuffer element = some element}

/-- An element is a type, a length and so many octets. -/
theorem fromBuffer_eq_some {s e : List ℕ} : fromBuffer s = some e ↔
    ∃ type afterType length value, readVarNumber s = some (type, afterType) ∧
      readVarNumber afterType = some (length, value) ∧ length ≤ value.length ∧
      e = s.take (s.length - value.length + length) := by
  unfold fromBuffer
  constructor
  · intro h
    simp only [Option.bind_eq_bind, Option.bind_eq_some_iff] at h
    obtain ⟨⟨type, afterType⟩, htype, ⟨length, value⟩, hlength, h⟩ := h
    dsimp only at hlength h
    split at h
    · exact absurd h (by simp)
    · next hle =>
      exact ⟨type, afterType, length, value, htype, hlength, not_lt.mp hle,
        (Option.some.inj h).symm⟩
  · rintro ⟨type, afterType, length, value, htype, hlength, hle, rfl⟩
    rw [htype, Option.bind_eq_bind, Option.bind_some]
    dsimp only
    rw [hlength, Option.bind_some]
    exact if_neg (not_lt.mpr hle)

/-- **Elements are frames** for `fromBuffer`. -/
theorem reads_fromBuffer : Reads Elements fromBuffer := by
  refine Reads.of_stable (fun s e h => ?_) fun s e h t => ?_
  · obtain ⟨type, afterType, length, value, htype, hlength, hle, rfl⟩ := fromBuffer_eq_some.mp h
    have hshort := (readVarNumber_append htype).1
    have hshort' := (readVarNumber_append hlength).1
    refine ⟨List.take_prefix _ _, List.ne_nil_of_length_pos ?_⟩
    rw [List.length_take]
    omega
  · obtain ⟨type, afterType, length, value, htype, hlength, hle, rfl⟩ := fromBuffer_eq_some.mp h
    obtain ⟨hshort, htype'⟩ := readVarNumber_append htype
    obtain ⟨hshort', hlength'⟩ := readVarNumber_append hlength
    refine fromBuffer_eq_some.mpr
      ⟨type, afterType ++ t, length, value ++ t, htype' t, hlength' t, ?_, ?_⟩
    · rw [List.length_append]
      omega
    · rw [List.length_append, List.length_append, Nat.add_sub_add_right]
      exact (List.take_append_of_le_length (by omega)).symm

end Block

end OpenGeoBase
