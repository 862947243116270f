import Mathlib.Data.List.Basic
import Mathlib.Tactic.Common

/-!
# UTF-8 with replacement

A text is written as bytes by `encode`, and read by `decode`, which puts the replacement character
in place of what is no encoded character. Reading undoes writing (`decode_encode`). Bytes that are
read and written again, `recode`, come out as they were if they are an encoded text
(`recode_eq_iff`), and never get fewer: a replacement takes three bytes, and stands for three at
most.

So a sequence of bytes that is cut into pieces, each of them recoded by itself, comes out as it was
if and only if each piece is an encoded text (`flatten_map_recode_iff`); for the bytes of a text
this says that no character has been cut (`pieces_encoded_iff`).
-/

namespace Utf8

/-- `U+FFFD`. -/
def replacement : Char := '\uFFFD'

/-- The bytes of a text. -/
def encode (s : List Char) : List UInt8 := s.flatMap String.utf8EncodeChar

/-- The character whose bytes come first. -/
def first? (b : List UInt8) : Option Char := b.toByteArray.utf8DecodeChar? 0

def IsContinuation (b : UInt8) : Prop := 0x80 ≤ b ∧ b < 0xC0

instance : DecidablePred IsContinuation := fun _ => inferInstanceAs (Decidable (_ ∧ _))

/-- Two bytes that three or four may begin with. -/
def StartsLonger (b₁ b₂ : UInt8) : Prop :=
  IsContinuation b₂ ∧
    (0xE0 ≤ b₁ ∧ b₁ ≤ 0xEF ∧ (b₁ = 0xE0 → 0xA0 ≤ b₂) ∨
      0xF0 ≤ b₁ ∧ b₁ ≤ 0xF4 ∧ (b₁ = 0xF0 → 0x90 ≤ b₂) ∧ (b₁ = 0xF4 → b₂ < 0x90))

instance (b₁ b₂ : UInt8) : Decidable (StartsLonger b₁ b₂) :=
  inferInstanceAs (Decidable (_ ∧ (_ ∨ _)))

/-- The number of bytes that one replacement stands for. -/
def malformedLength : List UInt8 → ℕ
  | b₁ :: b₂ :: b =>
    if StartsLonger b₁ b₂ then if ∃ b₃ ∈ b.head?, IsContinuation b₃ then 3 else 2 else 1
  | _ => 1

/-- The loop of `decode`; `skip` bytes of a character are still to be passed. -/
def decodeFrom : ℕ → List UInt8 → List Char
  | _, [] => []
  | skip + 1, _ :: b => decodeFrom skip b
  | 0, b₁ :: b =>
    match first? (b₁ :: b) with
    | some c => c :: decodeFrom (c.utf8Size - 1) b
    | none => replacement :: decodeFrom (malformedLength (b₁ :: b) - 1) b

/-- The text of a sequence of bytes. -/
def decode (b : List UInt8) : List Char := decodeFrom 0 b

/-- Read, and written again. -/
def recode (b : List UInt8) : List UInt8 := encode (decode b)

/-! ### Writing and reading -/

@[simp] theorem encode_nil : encode [] = [] := rfl

/-- A text is encoded character by character. -/
theorem encode_cons (c : Char) (s : List Char) :
    encode (c :: s) = String.utf8EncodeChar c ++ encode s :=
  List.flatMap_cons

theorem encode_append (s t : List Char) : encode (s ++ t) = encode s ++ encode t :=
  List.flatMap_append

/-- The first character is read, whatever bytes follow it. -/
theorem first?_append (c : Char) (b : List UInt8) :
    first? (String.utf8EncodeChar c ++ b) = some c := by
  unfold first?
  rw [List.toByteArray_append]
  exact ByteArray.utf8DecodeChar?_utf8EncodeChar_append

/-- The bytes that are skipped do not matter. -/
theorem decodeFrom_length (b t : List UInt8) : decodeFrom b.length (b ++ t) = decodeFrom 0 t := by
  induction b with
  | nil => rfl
  | cons b₁ b ih => exact ih

/-- Whole characters are read, whatever bytes follow them. -/
theorem decode_append (s : List Char) (b : List UInt8) :
    decode (encode s ++ b) = s ++ decode b := by
  induction s with
  | nil => rfl
  | cons c s ih =>
    have hfirst := first?_append c (encode s ++ b)
    have hlength : (String.utf8EncodeChar c).length = c.utf8Size := String.length_utf8EncodeChar c
    have hpos := c.utf8Size_pos
    obtain ⟨b₁, bs, hb⟩ : ∃ b₁ bs, String.utf8EncodeChar c = b₁ :: bs :=
      List.exists_cons_of_length_pos (hlength ▸ hpos)
    have hskip : c.utf8Size - 1 = bs.length := by
      rw [← hlength, hb, List.length_cons, Nat.add_sub_cancel]
    unfold decode at ih ⊢
    rw [hb, List.cons_append] at hfirst
    rw [encode_cons, List.append_assoc, hb, List.cons_append, decodeFrom, hfirst]
    dsimp only
    rw [hskip, decodeFrom_length, ih, List.cons_append]

/-- **Reading undoes writing.** -/
theorem decode_encode (s : List Char) : decode (encode s) = s := by
  have h := decode_append s []
  rwa [List.append_nil, show decode [] = [] from rfl, List.append_nil] at h

/-- Different texts have different encodings. -/
theorem encode_injective {s t : List Char} (h : encode s = encode t) : s = t := by
  rw [← decode_encode s, h, decode_encode]

/-- At most three bytes are replaced by one character. -/
theorem malformedLength_le (b : List UInt8) : malformedLength b ≤ 3 := by
  unfold malformedLength
  split
  · split_ifs <;> omega
  · omega

/-- Replacing bytes does not make them fewer. -/
theorem length_le_encode_decodeFrom (skip : ℕ) (b : List UInt8) :
    b.length ≤ skip + (encode (decodeFrom skip b)).length := by
  induction b generalizing skip with
  | nil => exact Nat.zero_le _
  | cons b₁ b ih =>
    cases skip with
    | succ skip =>
      have hrest := ih skip
      rw [decodeFrom, List.length_cons]
      omega
    | zero =>
      rw [decodeFrom, List.length_cons]
      cases first? (b₁ :: b) with
      | some c =>
        have hrest := ih (c.utf8Size - 1)
        have hpos := c.utf8Size_pos
        dsimp only
        rw [encode_cons, List.length_append, String.length_utf8EncodeChar]
        omega
      | none =>
        have hrest := ih (malformedLength (b₁ :: b) - 1)
        have hle := malformedLength_le (b₁ :: b)
        have hthree : (String.utf8EncodeChar replacement).length = 3 := by decide
        dsimp only
        rw [encode_cons, List.length_append, hthree]
        omega

/-- Bytes do not get fewer. -/
theorem length_le_recode (b : List UInt8) : b.length ≤ (recode b).length := by
  have h := length_le_encode_decodeFrom 0 b
  rwa [Nat.zero_add] at h

/-- An encoding is left as it is. -/
theorem recode_encode (s : List Char) : recode (encode s) = encode s := by
  rw [recode, decode_encode]

/-- Bytes come out as they were if they are the bytes of a text. -/
theorem recode_eq_iff {b : List UInt8} : recode b = b ↔ ∃ s, b = encode s := by
  constructor
  · intro h
    exact ⟨decode b, h.symm⟩
  · rintro ⟨s, rfl⟩
    exact recode_encode s

/-! ### Pieces -/

/-- Pieces that are recoded do not get shorter in all. -/
theorem length_flatten_le (pieces : List (List UInt8)) :
    pieces.flatten.length ≤ (pieces.map recode).flatten.length := by
  induction pieces with
  | nil => exact Nat.zero_le _
  | cons b pieces ih =>
    rw [List.map_cons, List.flatten_cons, List.flatten_cons, List.length_append,
      List.length_append]
    exact Nat.add_le_add (length_le_recode b) ih

/-- **Pieces that are recoded one by one** are what they were, all together, if each is the bytes of
a text. -/
theorem flatten_map_recode_iff {pieces : List (List UInt8)} :
    (pieces.map recode).flatten = pieces.flatten ↔ ∀ b ∈ pieces, ∃ s, b = encode s := by
  constructor
  · intro h
    induction pieces with
    | nil => exact fun b hb => absurd hb List.not_mem_nil
    | cons b pieces ih =>
      rw [List.map_cons, List.flatten_cons, List.flatten_cons] at h
      -- neither the first piece nor the others have a byte to spare
      have hlength := congrArg List.length h
      rw [List.length_append, List.length_append] at hlength
      have hfirst := length_le_recode b
      have hrest := length_flatten_le pieces
      obtain ⟨hb, hpieces⟩ := List.append_inj h (by omega)
      exact List.forall_mem_cons.mpr ⟨recode_eq_iff.mp hb, ih hpieces⟩
  · intro h
    have hsame : ∀ b ∈ pieces, recode b = id b := fun b hb => recode_eq_iff.mpr (h b hb)
    rw [List.map_congr_left hsame, List.map_id]

/-- A character of the text ends, or the text begins, after `n` bytes. -/
def IsBoundary (s : List Char) (n : ℕ) : Prop := ∃ t, t <+: s ∧ (encode t).length = n

/-- A text may be cut at its start. -/
theorem isBoundary_zero (s : List Char) : IsBoundary s 0 := ⟨[], List.nil_prefix, rfl⟩

theorem isBoundary_length (s : List Char) : IsBoundary s (encode s).length :=
  ⟨s, List.prefix_rfl, rfl⟩

/-- The bytes up to a boundary are those of a beginning of the text. -/
theorem IsBoundary.take {s : List Char} {n : ℕ} (h : IsBoundary s n) :
    ∃ t, t <+: s ∧ (encode s).take n = encode t := by
  obtain ⟨t, ⟨u, rfl⟩, rfl⟩ := h
  refine ⟨t, List.prefix_append t u, ?_⟩
  rw [encode_append, List.take_left]

/-- A text that has been cut where its bytes are those of a text has been cut at a boundary. -/
theorem isBoundary_of_encode_append {s t : List Char} {b : List UInt8}
    (h : encode s = encode t ++ b) (hb : ∃ u, b = encode u) : IsBoundary s (encode t).length := by
  obtain ⟨u, rfl⟩ := hb
  rw [← encode_append] at h
  exact ⟨t, ⟨u, (encode_injective h).symm⟩, rfl⟩

/-- Encodings behind each other are an encoding. -/
theorem exists_encode_flatten {pieces : List (List UInt8)}
    (h : ∀ b ∈ pieces, ∃ s, b = encode s) : ∃ s, pieces.flatten = encode s := by
  induction pieces with
  | nil => exact ⟨[], rfl⟩
  | cons b pieces ih =>
    obtain ⟨⟨s, rfl⟩, hpieces⟩ := List.forall_mem_cons.mp h
    obtain ⟨t, ht⟩ := ih hpieces
    exact ⟨s ++ t, by rw [List.flatten_cons, ht, encode_append]⟩

/-- Between two boundaries there is a text. -/
theorem exists_encode_between {s t t' : List Char} {b : List UInt8} (ht : t <+: s) (ht' : t' <+: s)
    (h : encode t' = encode t ++ b) : ∃ u, b = encode u := by
  rcases List.prefix_or_prefix_of_prefix ht ht' with ⟨u, rfl⟩ | ⟨u, rfl⟩
  · rw [encode_append] at h
    exact ⟨u, (List.append_cancel_left h).symm⟩
  · rw [encode_append, List.append_assoc] at h
    have hnil := List.append_right_eq_self.mp h.symm
    exact ⟨[], (List.append_eq_nil_iff.mp hnil).2⟩

/-- **The pieces of a text are texts** if it has been cut between its characters. -/
theorem pieces_encoded_iff {s : List Char} {pieces : List (List UInt8)}
    (hpieces : pieces.flatten = encode s) :
    (∀ b ∈ pieces, ∃ t, b = encode t) ↔
      ∀ k < pieces.length, IsBoundary s (pieces.take k).flatten.length := by
  constructor
  · intro h k hk
    obtain ⟨t, ht⟩ := exists_encode_flatten fun b hb => h b (List.mem_of_mem_take hb)
    rw [ht]
    refine isBoundary_of_encode_append (b := (pieces.drop k).flatten) ?_
      (exists_encode_flatten fun b hb => h b (List.mem_of_mem_drop hb))
    rw [← ht, ← List.flatten_append, List.take_append_drop, hpieces]
  · intro h b hb
    obtain ⟨k, hk, rfl⟩ := List.mem_iff_getElem.mp hb
    have hcut : ∀ j ≤ pieces.length, ∃ t, t <+: s ∧ (pieces.take j).flatten = encode t := by
      intro j hj
      have hboundary : IsBoundary s (pieces.take j).flatten.length := by
        rcases Nat.lt_or_eq_of_le hj with hj | rfl
        · exact h j hj
        · rw [List.take_length, hpieces]
          exact isBoundary_length s
      obtain ⟨t, ht, htake⟩ := hboundary.take
      refine ⟨t, ht, ?_⟩
      have hsplit : pieces.flatten = (pieces.take j).flatten ++ (pieces.drop j).flatten := by
        rw [← List.flatten_append, List.take_append_drop]
      rw [← htake, ← hpieces, hsplit, List.take_left]
    -- the piece lies between its own beginning and that of the next one
    obtain ⟨t, ht, hfirst⟩ := hcut k (Nat.le_of_lt hk)
    obtain ⟨t', ht', hnext⟩ := hcut (k + 1) hk
    refine exists_encode_between ht ht' ?_
    rw [← hnext, ← hfirst, List.take_succ_eq_append_getElem hk, List.flatten_append,
      List.flatten_singleton]

end Utf8
