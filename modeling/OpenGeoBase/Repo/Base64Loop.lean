import OpenGeoBase.Repo.StoredPacket

/-!
# base64, with the counters of the code

`base64_encode` and `base64_decode` go over their input with a counter and gather the characters of
a group in an array. What they make of a group they compute with masks and shifts. Here they are
with these arrays, masks and counters; the group by group versions, by which packets are stored and
read, are what they come to (`Machine.base64_encode_eq`, `Machine.base64_decodeWith_eq`).

Both counters of `base64_decode` are an `int`. A text of 2^31 characters or more makes a negative
number of its length, and the count goes down from there until it overflows
(`Machine.base64_decodeWith_encode_eq_none`). So a packet is decoded to itself if and only if its
text is shorter than that (`Machine.base64_roundtrip_iff`).
-/

namespace OpenGeoBase

open Text

namespace Machine

/-- The largest `int`. -/
def INT_MAX : ℤ := 2 ^ 31 - 1

/-- The smallest `int`. -/
def INT_MIN : ℤ := -2 ^ 31

/-- A number stored in an `unsigned char`. -/
def uchar (n : ℕ) : ℕ := n % 256

/-! ### The encoder -/

/-- `char_array_4` as it is made of `char_array_3`. -/
def pack (a b c : ℕ) : List ℕ :=
  [(a &&& 0xfc) >>> 2, ((a &&& 0x03) <<< 4) + ((b &&& 0xf0) >>> 4),
    ((b &&& 0x0f) <<< 2) + ((c &&& 0xc0) >>> 6), c &&& 0x3f].map uchar

/-- The digits of some values. -/
def digits (char_array_4 : List ℕ) : Str := char_array_4.map fun d => base64_chars.getD d '='

/-- What is written for a group that is not full: nothing if it is empty. -/
def encodeRest (char_array_3 : List ℕ) : Str :=
  let i := char_array_3.length
  if i = 0 then []
  else digits ((pack (char_array_3.getD 0 0) (char_array_3.getD 1 0) (char_array_3.getD 2 0)).take
    (i + 1)) ++ List.replicate (3 - i) '='

/-- The loop of `base64_encode`, with what has been gathered of a group. -/
def encodeLoop : List ℕ → List ℕ → Str
  | char_array_3, [] => encodeRest char_array_3
  | [a, b], c :: bytes_to_encode => digits (pack a b c) ++ encodeLoop [] bytes_to_encode
  | char_array_3, c :: bytes_to_encode => encodeLoop (char_array_3 ++ [c]) bytes_to_encode

def base64_encode (bytes_to_encode : List ℕ) : Str := encodeLoop [] bytes_to_encode

/-! ### The decoder -/

/-- `char_array_3` as it is made of `char_array_4`. -/
def unpack (d₀ d₁ d₂ d₃ : ℕ) : List ℕ :=
  [(d₀ <<< 2) + ((d₁ &&& 0x30) >>> 4), ((d₁ &&& 0xf) <<< 4) + ((d₂ &&& 0x3c) >>> 2),
    ((d₂ &&& 0x3) <<< 6) + d₃].map uchar

section Decoder

variable (npos : ℕ)

/-- `base64_chars.find`, with the value of `npos` in an `unsigned char`. -/
def find (c : Char) : ℕ := if c ∈ base64_chars then base64_chars.idxOf c else npos

/-- The octets of the characters in `char_array_4`. -/
def octets (c₀ c₁ c₂ c₃ : Char) : List ℕ :=
  unpack (find npos c₀) (find npos c₁) (find npos c₂) (find npos c₃)

/-- What is made of a group that is not full. It is filled up with zeros. -/
def decodeRest (char_array_4 : Str) : List ℕ :=
  (octets npos (char_array_4.getD 0 '\x00') (char_array_4.getD 1 '\x00')
    (char_array_4.getD 2 '\x00') (char_array_4.getD 3 '\x00')).take (char_array_4.length - 1)

/-- The loop of `base64_decode`, with what has been gathered of a group; `none` when one of the
counters overflows. -/
def decodeLoop : Str → ℤ → ℤ → Str → Option (List ℕ)
  | encoded_string, in_len, in_, char_array_4 =>
    if in_len = INT_MIN then none
    else if in_len = 0 then some (decodeRest npos char_array_4)
    else match encoded_string with
      -- the character behind the last one is 0, which is no digit
      | [] => some (decodeRest npos char_array_4)
      | c :: encoded_string =>
        if c = '=' ∨ is_base64 c = false then some (decodeRest npos char_array_4)
        else if in_ = INT_MAX then none
        else match char_array_4 with
          | [c₀, c₁, c₂] => (decodeLoop encoded_string (in_len - 1) (in_ + 1) []).map
              (octets npos c₀ c₁ c₂ c ++ ·)
          | _ => decodeLoop encoded_string (in_len - 1) (in_ + 1) (char_array_4 ++ [c])

/-- `base64_decode`, whatever the value of `npos` in an `unsigned char`. -/
def base64_decodeWith (encoded_string : Str) : Option (List ℕ) :=
  decodeLoop npos encoded_string ((encoded_string.length : ℤ).bmod (2 ^ 32)) 0 []

end Decoder

/-- `base64_decode`. Of `npos` an `unsigned char` takes the lowest eight bits. -/
def base64_decode (encoded_string : Str) : Option (List ℕ) :=
  base64_decodeWith (uchar (2 ^ 64 - 1)) encoded_string

/-! ### Masks and shifts -/

section Masks

/-- A mask of some bits in a row, shifted down. -/
theorem and_shiftRight {x m k n : ℕ} (h : m >>> k = 2 ^ n - 1) :
    (x &&& m) >>> k = x / 2 ^ k % 2 ^ n := by
  rw [Nat.shiftRight_and_distrib, h, Nat.and_two_pow_sub_one_eq_mod, Nat.shiftRight_eq_div_pow]

/-- A mask of the lowest bits. -/
theorem and_mask {x m n : ℕ} (h : m = 2 ^ n - 1) : x &&& m = x % 2 ^ n := by
  rw [h, Nat.and_two_pow_sub_one_eq_mod]

variable {a b c : ℕ}

/-- The digits of a group. -/
theorem digits_pack (ha : a < 256) (hb : b < 256) (hc : c < 256) :
    digits (pack a b c) = base64_digits a b c := by
  have h₀ : (a &&& 0xfc) >>> 2 = a / 2 ^ 2 % 2 ^ 6 := and_shiftRight rfl
  have h₁ : a &&& 0x03 = a % 2 ^ 2 := and_mask rfl
  have h₁' : (b &&& 0xf0) >>> 4 = b / 2 ^ 4 % 2 ^ 4 := and_shiftRight rfl
  have h₂ : b &&& 0x0f = b % 2 ^ 4 := and_mask rfl
  have h₂' : (c &&& 0xc0) >>> 6 = c / 2 ^ 6 % 2 ^ 2 := and_shiftRight rfl
  have h₃ : c &&& 0x3f = c % 2 ^ 6 := and_mask rfl
  have hpack : pack a b c = [a / 4, a % 4 * 16 + b / 16, b % 16 * 4 + c / 64, c % 64] := by
    unfold pack
    rw [h₀, h₁, h₁', h₂, h₂', h₃, Nat.shiftLeft_eq, Nat.shiftLeft_eq]
    simp only [uchar, List.map_cons, List.map_nil, List.cons.injEq, and_true]
    omega
  unfold digits base64_digits
  rw [hpack]

/-- The octets of a group. -/
theorem unpack_eq (d₀ d₁ d₂ d₃ : ℕ) : unpack d₀ d₁ d₂ d₃ =
    [d₀ * 4 + d₁ / 16 % 4, d₁ % 16 * 16 + d₂ / 4 % 16, d₂ % 4 * 64 + d₃].map (· % 256) := by
  have h₀ : (d₁ &&& 0x30) >>> 4 = d₁ / 2 ^ 4 % 2 ^ 2 := and_shiftRight rfl
  have h₁ : d₁ &&& 0xf = d₁ % 2 ^ 4 := and_mask rfl
  have h₁' : (d₂ &&& 0x3c) >>> 2 = d₂ / 2 ^ 2 % 2 ^ 4 := and_shiftRight rfl
  have h₂ : d₂ &&& 0x3 = d₂ % 2 ^ 2 := and_mask rfl
  unfold unpack
  rw [h₀, h₁, h₁', h₂, Nat.shiftLeft_eq, Nat.shiftLeft_eq, Nat.shiftLeft_eq]
  rfl

end Masks

/-! ### The encoder, group by group -/

/-- **The loop of the encoder** writes what is written group by group. -/
theorem base64_encode_eq {bytes : List ℕ} (h : AreOctets bytes) :
    base64_encode bytes = OpenGeoBase.base64_encode bytes := by
  unfold base64_encode
  -- in groups of three, as the buffer fills; the last group is padded
  induction bytes using OpenGeoBase.base64_encode.induct with
  | case1 => rfl
  | case2 a =>
    have hdigits := digits_pack (h a (by simp)) (b := 0) (c := 0) (by norm_num) (by norm_num)
    show digits ((pack a 0 0).take 2) ++ ['=', '='] = _
    unfold OpenGeoBase.base64_encode
    rw [← hdigits, digits, digits, List.map_take]
  | case3 a b =>
    have hdigits := digits_pack (h a (by simp)) (h b (by simp)) (c := 0) (by norm_num)
    show digits ((pack a b 0).take 3) ++ ['='] = _
    unfold OpenGeoBase.base64_encode
    rw [← hdigits, digits, digits, List.map_take]
  -- a full buffer is written out and emptied before the next byte
  | case4 a b c bytes ih =>
    show digits (pack a b c) ++ encodeLoop [] bytes = _
    unfold OpenGeoBase.base64_encode
    rw [digits_pack (h a (by simp)) (h b (by simp)) (h c (by simp)),
      ih fun d hd => h d (by simp [hd])]

/-! ### The decoder, group by group -/

section Decode

variable {npos : ℕ} {c c₀ c₁ c₂ c₃ : Char}

set_option maxRecDepth 4000 in
/-- What passes for a digit has a value. -/
theorem mem_base64_chars (h : is_base64 c = true) : c ∈ base64_chars := by
  have hbelow : ∀ k < 128, is_base64 (Char.ofNat k) = true → Char.ofNat k ∈ base64_chars := by
    decide
  have hc : c.toNat < 128 := by
    unfold is_base64 Char.isAlphanum Char.isAlpha Char.isUpper Char.isLower Char.isDigit at h
    simp only [Bool.or_eq_true, Bool.and_eq_true, decide_eq_true_eq, beq_iff_eq] at h
    rcases h with (((⟨-, h⟩ | ⟨-, h⟩) | ⟨-, h⟩) | rfl) | rfl
    all_goals first | exact lt_of_le_of_lt (UInt32.le_iff_toNat_le.mp h) (by decide) | decide
  have hchar := hbelow c.toNat hc
  rw [Char.ofNat_toNat] at hchar
  exact hchar h

/-- A character of the alphabet is found at its value. -/
theorem find_eq (h : is_base64 c = true) : find npos c = base64_value c := by
  have hmem := mem_base64_chars h
  unfold find base64_value
  rw [if_pos hmem, if_pos hmem]

/-- Four digits. -/
theorem octets_eq (h₀ : is_base64 c₀ = true) (h₁ : is_base64 c₁ = true) (h₂ : is_base64 c₂ = true)
    (h₃ : is_base64 c₃ = true) : octets npos c₀ c₁ c₂ c₃ = base64_octets c₀ c₁ c₂ c₃ := by
  unfold octets
  rw [find_eq h₀, find_eq h₁, find_eq h₂, find_eq h₃, unpack_eq]
  rfl

/-- The zeros in a group that is not full, and what is found for them, do not matter: only octets
that lie in its digits are taken. -/
theorem decodeRest_eq {char_array_4 : Str} (hlength : char_array_4.length < 4)
    (h : ∀ c ∈ char_array_4, is_base64 c = true) :
    decodeRest npos char_array_4 = base64_groups char_array_4 := by
  match char_array_4 with
  | [] => rfl
  | [c₀] => rfl
  | [c₀, c₁] =>
    show (unpack (find npos c₀) (find npos c₁) _ _).take 1 = _
    rw [find_eq (h c₀ (by simp)), find_eq (h c₁ (by simp)), unpack_eq]
    rfl
  | [c₀, c₁, c₂] =>
    show (unpack (find npos c₀) (find npos c₁) (find npos c₂) _).take 2 = _
    rw [find_eq (h c₀ (by simp)), find_eq (h c₁ (by simp)), find_eq (h c₂ (by simp)), unpack_eq]
    rfl
  | _ :: _ :: _ :: _ :: _ => exact absurd hlength (by simp)

/-- The loop comes to the end of the text, or of its digits, before a counter overflows. -/
theorem decodeLoop_eq {text : Str} {in_ : ℤ} {char_array_4 : Str}
    (hlength : char_array_4.length < 4) (h : ∀ c ∈ char_array_4, is_base64 c = true)
    (hlt : in_ + text.length ≤ INT_MAX) (hpos : 0 ≤ in_) :
    decodeLoop npos text text.length in_ char_array_4 =
      some (base64_groups (char_array_4 ++ text.takeWhile isDecoded)) := by
  induction text generalizing in_ char_array_4 with
  | nil =>
    rw [List.takeWhile_nil, List.append_nil, ← decodeRest_eq hlength h]
    rfl
  | cons c text ih =>
    have hcast : ((c :: text).length : ℤ) - 1 = text.length := by simp
    have hmin : ¬((c :: text).length : ℤ) = INT_MIN := by
      rw [INT_MIN]
      omega
    have hzero : ¬((c :: text).length : ℤ) = 0 := by
      simp only [List.length_cons, Nat.cast_add, Nat.cast_one]
      omega
    have hmax : ¬in_ = INT_MAX := by
      simp only [List.length_cons, Nat.cast_add, Nat.cast_one] at hlt
      omega
    have hnext : in_ + 1 + text.length ≤ INT_MAX := by
      simp only [List.length_cons, Nat.cast_add, Nat.cast_one] at hlt
      omega
    unfold decodeLoop
    rw [if_neg hmin, if_neg hzero]
    dsimp only
    by_cases hc : isDecoded c = true
    · obtain ⟨hequals, hdigit⟩ : c ≠ '=' ∧ is_base64 c = true := by simpa [isDecoded] using hc
      have hstop : ¬(c = '=' ∨ is_base64 c = false) := by simp [hequals, hdigit]
      have hgathered : ∀ d ∈ char_array_4 ++ [c], is_base64 d = true := by
        intro d hd
        rcases List.mem_append.mp hd with hd | hd
        · exact h d hd
        · rwa [List.mem_singleton.mp hd]
      rw [if_neg hstop, if_neg hmax, hcast, List.takeWhile_cons_of_pos hc]
      -- the fourth digit ends the group, the others are gathered
      match char_array_4, hlength, h, hgathered with
      | [c₀, c₁, c₂], _, h, _ =>
        have hrest : decodeLoop npos text text.length (in_ + 1) [] = _ :=
          ih (by simp) (by simp) hnext (by omega)
        show (decodeLoop npos text text.length (in_ + 1) []).map (octets npos c₀ c₁ c₂ c ++ ·) = _
        rw [hrest, octets_eq (h c₀ (by simp)) (h c₁ (by simp)) (h c₂ (by simp)) hdigit]
        rfl
      | [], _, _, hgathered => exact ih (by simp) hgathered hnext (by omega)
      | [c₀], _, _, hgathered => exact ih (by simp) hgathered hnext (by omega)
      | [c₀, c₁], _, _, hgathered => exact ih (by simp) hgathered hnext (by omega)
      | _ :: _ :: _ :: _ :: _, hlength, _, _ => exact absurd hlength (by simp)
    · have hstop : c = '=' ∨ is_base64 c = false := by
        by_contra hno
        simp [not_or, isDecoded] at hno hc
        exact absurd hno.2 (by simp [hc hno.1])
      rw [if_pos hstop, List.takeWhile_cons_of_neg hc, List.append_nil, decodeRest_eq hlength h]

/-- **The decoder** of a text whose length is an `int` comes to the groups of its digits. -/
theorem base64_decodeWith_eq {text : Str} (h : text.length < 2 ^ 31) :
    base64_decodeWith npos text = some (OpenGeoBase.base64_decode text) := by
  have hbmod : ((text.length : ℤ).bmod (2 ^ 32)) = text.length := by
    refine Int.bmod_eq_of_le ?_ ?_
    all_goals omega
  have hlt : (0 : ℤ) + text.length ≤ INT_MAX := by
    rw [INT_MAX]
    omega
  unfold base64_decodeWith
  rw [hbmod, decodeLoop_eq (by simp) (by simp) hlt le_rfl]
  rfl

/-- A count that starts below zero overflows, if there are digits enough. -/
theorem decodeLoop_eq_none {s text : Str} {in_ : ℤ} {char_array_4 : Str}
    (hs : ∀ c ∈ s, isDecoded c = true) (hlength : s.length < 2 ^ 31) :
    decodeLoop npos (s ++ text) (INT_MIN + s.length) in_ char_array_4 = none := by
  -- over the text: the count is negative, and comes down to the smallest int with its last
  -- character
  induction s generalizing in_ char_array_4 with
  | nil =>
    unfold decodeLoop
    rw [if_pos (by simp)]
  | cons c s ih =>
    -- one character on, the counter is one less and still negative
    have hnext : INT_MIN + ((c :: s).length : ℤ) - 1 = INT_MIN + s.length := by
      simp only [List.length_cons, Nat.cast_add, Nat.cast_one]
      omega
    have hmin : ¬INT_MIN + ((c :: s).length : ℤ) = INT_MIN := by
      simp only [List.length_cons, Nat.cast_add, Nat.cast_one]
      omega
    have hzero : ¬INT_MIN + ((c :: s).length : ℤ) = 0 := by
      rw [INT_MIN]
      omega
    obtain ⟨hequals, hdigit⟩ : c ≠ '=' ∧ is_base64 c = true := by
      simpa [isDecoded] using hs c List.mem_cons_self
    have hstop : ¬(c = '=' ∨ is_base64 c = false) := by simp [hequals, hdigit]
    have hnone : ∀ {in_ : ℤ} {char_array_4 : Str},
        decodeLoop npos (s ++ text) (INT_MIN + s.length) in_ char_array_4 = none :=
      ih (fun d hd => hs d (List.mem_cons_of_mem c hd)) (Nat.lt_of_succ_lt hlength)
    rw [List.cons_append]
    unfold decodeLoop
    rw [if_neg hmin, if_neg hzero]
    dsimp only
    rw [if_neg hstop, hnext]
    split
    · rfl
    · split
      · rw [hnone]
        rfl
      · exact hnone

end Decode

/-! ### The round trip -/

section RoundTrip

variable {bytes : List ℕ}

/-- The text of some octets: digits, and at most two characters more. -/
theorem exists_base64_encode (h : AreOctets bytes) :
    ∃ s t, OpenGeoBase.base64_encode bytes = s ++ t ∧ (∀ c ∈ s, isDecoded c = true) ∧
      t.length ≤ 2 ∧ (s ++ t).length = 4 * ((bytes.length + 2) / 3) := by
  -- the text is digits, then at most two signs of padding
  induction bytes using OpenGeoBase.base64_encode.induct with
  | case1 => exact ⟨[], [], rfl, by simp, by simp, rfl⟩
  | case2 a =>
    refine ⟨(base64_digits a 0 0).take 2, ['=', '='], rfl, fun c hc => ?_, le_rfl,
      by simp [base64_digits]⟩
    exact isDecoded_digits (h a (by simp)) (by norm_num) (by norm_num) c (List.mem_of_mem_take hc)
  | case3 a b =>
    refine ⟨(base64_digits a b 0).take 3, ['='], rfl, fun c hc => ?_, by simp,
      by simp [base64_digits]⟩
    exact isDecoded_digits (h a (by simp)) (h b (by simp)) (by norm_num) c
      (List.mem_of_mem_take hc)
  | case4 a b c bytes ih =>
    obtain ⟨s, t, hst, hs, ht, hlength⟩ := ih fun d hd => h d (by simp [hd])
    refine ⟨base64_digits a b c ++ s, t, ?_, fun d hd => ?_, ht, ?_⟩
    · unfold OpenGeoBase.base64_encode
      rw [hst, List.append_assoc]
    · rcases List.mem_append.mp hd with hd | hd
      · exact isDecoded_digits (h a (by simp)) (h b (by simp)) (h c (by simp)) d hd
      · exact hs d hd
    · have hfour : (base64_digits a b c).length = 4 := rfl
      rw [List.append_assoc, List.length_append, hfour, hlength]
      simp only [List.length_cons]
      omega

/-- A text that is too long for an `int` makes the decoder overflow. -/
theorem base64_decodeWith_encode_eq_none {npos : ℕ} (h : AreOctets bytes)
    (hlt : bytes.length < 2 ^ 31) (hlong : 2 ^ 31 ≤ 4 * ((bytes.length + 2) / 3)) :
    base64_decodeWith npos (base64_encode bytes) = none := by
  obtain ⟨s, t, hst, hs, ht, hlength⟩ := exists_base64_encode h
  -- so many digits are counted down until the count is the smallest `int`
  obtain ⟨n, hn⟩ : ∃ n, n + 2 ^ 31 = 4 * ((bytes.length + 2) / 3) := ⟨_, Nat.sub_add_cancel hlong⟩
  have hle : n ≤ s.length := by
    rw [List.length_append] at hlength
    omega
  have htake : (s.take n).length = n := List.length_take_of_le hle
  have hbmod : (((s ++ t).length : ℤ).bmod (2 ^ 32)) = INT_MIN + (s.take n).length := by
    rw [hlength, ← hn, htake, INT_MIN]
    have hadd : ((n + 2 ^ 31 : ℕ) : ℤ) = (-2 ^ 31 + n) + (2 ^ 32 : ℕ) := by
      push_cast
      ring
    rw [hadd, Int.add_bmod_right]
    refine Int.bmod_eq_of_le ?_ ?_
    all_goals omega
  have hsplit : s ++ t = s.take n ++ (s.drop n ++ t) := by
    rw [← List.append_assoc, List.take_append_drop]
  unfold base64_decodeWith
  rw [base64_encode_eq h, hst, hbmod, hsplit]
  exact decodeLoop_eq_none (fun c hc => hs c (List.mem_of_mem_take hc)) (by rw [htake]; omega)

/-- **The round trip, exactly.** A packet of less than 2^31 octets is decoded to itself, whatever
is found for a padding zero, if and only if it has at most 1610612733 of them. -/
theorem base64_roundtrip_iff (h : AreOctets bytes) (hlt : bytes.length < 2 ^ 31) :
    (base64_decode (base64_encode bytes) = some bytes ∧
      ∀ npos, base64_decodeWith npos (base64_encode bytes) = some bytes) ↔
        bytes.length ≤ 1610612733 := by
  constructor
  · rintro ⟨hdecode, -⟩
    -- the text of more bytes has more characters than an int counts
    by_contra hlong
    have hnone : base64_decode (base64_encode bytes) = none :=
      base64_decodeWith_encode_eq_none h hlt (by omega)
    exact Option.some_ne_none _ (hdecode.symm.trans hnone)
  · intro hle
    obtain ⟨s, t, hst, -, -, hlength⟩ := exists_base64_encode h
    -- below that the int loop does what the plain one does
    have hshort : (OpenGeoBase.base64_encode bytes).length < 2 ^ 31 := by
      rw [hst, hlength]
      omega
    have hall : ∀ npos, base64_decodeWith npos (base64_encode bytes) = some bytes := by
      intro npos
      rw [base64_encode_eq h, base64_decodeWith_eq hshort, base64_decode_encode h]
    exact ⟨hall _, hall⟩

/-- Two octets, of which one is not a character. -/
theorem base64_roundtrip_two : base64_decode (base64_encode [255, 65]) = some [255, 65] ∧
    ∀ npos, base64_decodeWith npos (base64_encode [255, 65]) = some [255, 65] :=
  (base64_roundtrip_iff (by decide) (by decide)).mpr (by decide)

/-- A packet of zeros that is too long. -/
theorem base64_decode_replicate {n : ℕ} (hlong : 1610612734 ≤ n) (hlt : n < 2 ^ 31) :
    AreOctets (List.replicate n 0) ∧ (List.replicate n 0).length < 2 ^ 31 ∧
      base64_decode (base64_encode (List.replicate n 0)) ≠ some (List.replicate n 0) := by
  have hoctets : AreOctets (List.replicate n 0) := by
    intro b hb
    rw [List.eq_of_mem_replicate hb]
    norm_num
  have hlength : (List.replicate n 0).length < 2 ^ 31 := by rwa [List.length_replicate]
  have hlong' : 2 ^ 31 ≤ 4 * (((List.replicate n 0).length + 2) / 3) := by
    rw [List.length_replicate]
    omega
  have hnone : base64_decode (base64_encode (List.replicate n 0)) = none :=
    base64_decodeWith_encode_eq_none hoctets hlength hlong'
  refine ⟨hoctets, hlength, fun h => ?_⟩
  exact Option.some_ne_none _ (h.symm.trans hnone)

/-- A packet of 2147483647 zeros is not decoded. -/
theorem base64_overflow : AreOctets (List.replicate 2147483647 0) ∧
    (List.replicate 2147483647 0).length < 2 ^ 31 ∧
      base64_decode (base64_encode (List.replicate 2147483647 0)) ≠
        some (List.replicate 2147483647 0) :=
  base64_decode_replicate (by norm_num) (by norm_num)

end RoundTrip

end Machine

end OpenGeoBase
