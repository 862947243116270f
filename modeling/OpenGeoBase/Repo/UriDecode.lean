import OpenGeoBase.Fes.SegmentFetcher
import OpenGeoBase.Lib.Percent
import OpenGeoBase.Repo.InterestDispatch

/-!
# `uriDecode`

The function stands twice in the repository, in the read handle and in the storage. Its first
loop goes on as long as three bytes are left, which is what an escape takes, and looks the last
two of them up in a table; its second loop copies the rest. This is the replacement of all
escapes, of a string that an `int` can count: the length is kept in one. A longer string has a
negative length, which no array can have, or one that is short of a multiple of 2³².
-/

namespace OpenGeoBase

open Percent

/-! ### The function -/

/-- `HEX2DEC`. -/
def HEX2DEC : List ℤ :=
  List.replicate 48 (-1) ++ [0, 1, 2, 3, 4, 5, 6, 7, 8, 9] ++ List.replicate 7 (-1) ++
    [10, 11, 12, 13, 14, 15] ++ List.replicate 26 (-1) ++ [10, 11, 12, 13, 14, 15] ++
    List.replicate 153 (-1)

namespace ByteString

/-- The loops of `uriDecode`, from `pSrc` on. -/
def decodeFrom : List UInt8 → List UInt8
  | [] => []
  | [b] => [b]
  | [b, c] => [b, c]
  | b :: c :: d :: pSrc =>
    let dec1 := HEX2DEC.getD c.toNat 0
    let dec2 := HEX2DEC.getD d.toNat 0
    if b = percent ∧ -1 ≠ dec1 ∧ -1 ≠ dec2 then
      UInt8.ofNat (16 * dec1 + dec2).toNat :: decodeFrom pSrc
    else b :: decodeFrom (c :: d :: pSrc)

/-- `uriDecode`; `none` if `new` fails. -/
def uriDecode (sSrc : List UInt8) : Option (List UInt8) :=
  let SRC_LEN := toInt32 sSrc.length
  if SRC_LEN < 0 then none else some (decodeFrom (sSrc.take SRC_LEN.toNat))

end ByteString

/-! ### The table -/

/-- The table has the values of the hexadecimal digits, and -1 elsewhere. -/
theorem getD_HEX2DEC : ∀ n < 256, HEX2DEC.getD n 0 =
    if 48 ≤ n ∧ n < 58 then (n : ℤ) - 48 else if 65 ≤ n ∧ n < 71 then (n : ℤ) - 55
    else if 97 ≤ n ∧ n < 103 then (n : ℤ) - 87 else -1 := by
  decide +kernel

/-- The table has the values of the digits, and -1 for any other byte. -/
theorem hexDigit_iff {d : UInt8} {x : ℕ} : HexDigit d x ↔ HEX2DEC.getD d.toNat 0 = x := by
  have hd := UInt8.toNat_lt d
  rw [getD_HEX2DEC d.toNat (by omega)]
  have hzero : '0'.toNat = 48 := rfl
  have hupper : 'A'.toNat = 65 := rfl
  have hlower : 'a'.toNat = 97 := rfl
  unfold HexDigit
  constructor
  · intro h
    split_ifs <;> omega
  · intro h
    split_ifs at h <;> omega

/-- So the code's test asks for such a digit. -/
theorem exists_hexDigit_iff {d : UInt8} : (∃ x, HexDigit d x) ↔ -1 ≠ HEX2DEC.getD d.toNat 0 := by
  have hd := UInt8.toNat_lt d
  constructor
  · rintro ⟨x, hx⟩
    rw [hexDigit_iff.mp hx]
    omega
  · intro h
    refine ⟨(HEX2DEC.getD d.toNat 0).toNat, hexDigit_iff.mpr ?_⟩
    rw [getD_HEX2DEC d.toNat (by omega)] at h ⊢
    split_ifs at h ⊢ <;> omega

namespace ByteString

/-! ### Decoding -/

/-- **The loops replace the escapes.** The last two bytes, which the first loop leaves to the
second, begin no escape. -/
theorem unescapes_decodeFrom (s : List UInt8) : Unescapes s (decodeFrom s) := by
  induction s using decodeFrom.induct with
  | case1 => exact .nil
  | case2 b =>
    refine .keep ?_ .nil
    rintro ⟨d, e, rest, x, y, h, -, -⟩
    simp at h
  | case3 b c =>
    refine .keep ?_ (.keep ?_ .nil)
    · rintro ⟨d, e, rest, x, y, h, -, -⟩
      simp at h
    · rintro ⟨d, e, rest, x, y, h, -, -⟩
      simp at h
  | case4 b c d pSrc dec1 dec2 h ih =>
    have hdecode : decodeFrom (b :: c :: d :: pSrc) =
        UInt8.ofNat (16 * dec1 + dec2).toNat :: decodeFrom pSrc := by
      rw [decodeFrom, if_pos h]
    obtain ⟨rfl, hdec1, hdec2⟩ := h
    obtain ⟨x, hx⟩ := exists_hexDigit_iff.mpr hdec1
    obtain ⟨y, hy⟩ := exists_hexDigit_iff.mpr hdec2
    have hbyte : UInt8.ofNat (16 * dec1 + dec2).toNat = ofHalves x y := by
      have hvalue1 : dec1 = x := hexDigit_iff.mp hx
      have hvalue2 : dec2 = y := hexDigit_iff.mp hy
      have hnat : (16 * dec1 + dec2).toNat = 16 * x + y := by omega
      rw [hnat, ofHalves]
    rw [hdecode, hbyte]
    exact .escape hx hy ih
  | case5 b c d pSrc dec1 dec2 h ih =>
    have hdecode : decodeFrom (b :: c :: d :: pSrc) = b :: decodeFrom (c :: d :: pSrc) := by
      rw [decodeFrom, if_neg h]
    rw [hdecode]
    refine .keep ?_ ih
    rintro ⟨c', d', rest, x, y, heq, hx, hy⟩
    simp only [List.cons.injEq] at heq
    obtain ⟨hb, rfl, rfl, -⟩ := heq
    exact h ⟨hb, exists_hexDigit_iff.mp ⟨x, hx⟩, exists_hexDigit_iff.mp ⟨y, hy⟩⟩

/-- A string that an `int` can count is decoded from end to end. -/
theorem uriDecode_of_lt {s : List UInt8} (h : s.length < 2 ^ 31) :
    uriDecode s = some (decodeFrom s) := by
  simp only [uriDecode, toInt32_of_lt h]
  rw [if_neg (by omega), Int.toNat_natCast, List.take_length]

/-- And no other: what is left of the string is too short for what comes out. -/
theorem length_lt_of_uriDecode {s t : List UInt8} (hdecode : uriDecode s = some t)
    (h : Unescapes s t) : s.length < 2 ^ 31 := by
  simp only [uriDecode] at hdecode
  have hlt := toInt32_lt s.length
  split_ifs at hdecode with hneg
  obtain rfl := Option.some.inj hdecode
  have hread := (unescapes_decodeFrom (s.take (toInt32 s.length).toNat)).length_le'
  rw [List.length_take] at hread
  have hlength := h.length_le
  have hdvd : ((2 : ℤ) ^ 32) ∣ s.length - toInt32 s.length := by
    exact Int.dvd_self_sub_bmod
  obtain ⟨q, hq⟩ := hdvd
  -- a length that went round 2³² is more than three times what was kept of it
  omega

/-- The bytes that an escaped string keeps. -/
def Unreserved (b : UInt8) : Prop :=
  'a'.toNat ≤ b.toNat ∧ b.toNat ≤ 'z'.toNat ∨ 'A'.toNat ≤ b.toNat ∧ b.toNat ≤ 'Z'.toNat ∨
    '0'.toNat ≤ b.toNat ∧ b.toNat ≤ '9'.toNat ∨ b.toNat ∈ ['-', '.', '_', '~'].map Char.toNat

instance : DecidablePred Unreserved := fun b => by
  unfold Unreserved
  infer_instance

/-- A percent sign is always escaped. -/
theorem not_unreserved_percent : ¬Unreserved percent := by decide

/-- **`uriDecode` replaces the escapes, and undoes escaping, exactly for the strings whose length
an `int` can hold.** -/
theorem uriDecode_unescapes_iff (s : List UInt8) :
    ((∃ t, uriDecode s = some t ∧ Unescapes s t) ∧
      ∀ b, Escapes Unreserved b s → uriDecode s = some b) ↔ s.length < 2 ^ 31 := by
  constructor
  · rintro ⟨⟨t, hdecode, h⟩, -⟩
    exact length_lt_of_uriDecode hdecode h
  · intro hlength
    have hdecode := uriDecode_of_lt hlength
    refine ⟨⟨_, hdecode, unescapes_decodeFrom s⟩, fun b hb => ?_⟩
    rw [hdecode, (unescapes_decodeFrom s).unique (hb.unescapes not_unreserved_percent)]

/-- A string of 2³¹ letters is not decoded: there is no array of its negative length. -/
theorem uriDecode_long :
    ¬((∃ t, uriDecode (List.replicate (2 ^ 31) 0x61) = some t ∧
        Unescapes (List.replicate (2 ^ 31) 0x61) t) ∧
      ∀ b, Escapes Unreserved b (List.replicate (2 ^ 31) 0x61) →
        uriDecode (List.replicate (2 ^ 31) 0x61) = some b) := by
  rintro ⟨⟨t, hdecode, h⟩, -⟩
  have hlength := length_lt_of_uriDecode hdecode h
  rw [List.length_replicate] at hlength
  omega

/-- An escape may end with the string, and need not be one: the digits may be of either case, and
what comes out is not looked at again. -/
example : decodeFrom ("a%2Fb%2g%%4%252f%7e".toList.map fun c => UInt8.ofNat c.toNat) =
    "a/b%2g%%4%2f~".toList.map fun c => UInt8.ofNat c.toNat := by
  decide

end ByteString

/-! ### Decoding a name

The read handle and the storage decode the URI of a name, a text whose characters are bytes. -/

/-- The character of a byte. -/
def byteChar (b : UInt8) : Char := Char.ofNat b.toNat

/-- The character of a byte has its code. -/
theorem toNat_byteChar (b : UInt8) : (byteChar b).toNat = b.toNat := by
  have hb := UInt8.toNat_lt b
  have hvalid : b.toNat.isValidChar := Or.inl (by omega)
  rw [byteChar, Char.ofNat, dif_pos hvalid]
  rfl

/-- The character of a byte is the percent sign if the byte is. -/
theorem byteChar_eq_percent {b : UInt8} : byteChar b = '%' ↔ b = percent := by
  constructor
  · intro h
    have hnat := congrArg Char.toNat h
    rw [toNat_byteChar] at hnat
    exact UInt8.toNat_inj.mp hnat
  · rintro rfl
    rfl

/-- The digits of the two models are the same. -/
theorem hex2dec_byteChar {b : UInt8} {x : ℕ} : hex2dec (byteChar b) = some x ↔ HexDigit b x := by
  have hzero : '0'.toNat = 48 := rfl
  have hupper : 'A'.toNat = 65 := rfl
  have hlower : 'a'.toNat = 97 := rfl
  have hle (c d : Char) : c ≤ d ↔ c.toNat ≤ d.toNat := UInt32.le_iff_toNat_le
  simp only [hex2dec, hle, toNat_byteChar]
  have hnine : '9'.toNat = 57 := rfl
  have hF : 'F'.toNat = 70 := rfl
  have hf : 'f'.toNat = 102 := rfl
  rw [hzero, hupper, hlower, hnine, hF, hf]
  unfold HexDigit
  split_ifs <;> simp only [Option.some.injEq, false_iff] <;> omega

/-- **The decoding of a name is that of its bytes.** -/
theorem uriDecode_map_byteChar (s : List UInt8) :
    uriDecode (s.map byteChar) = (ByteString.decodeFrom s).map byteChar := by
  have h := ByteString.unescapes_decodeFrom s
  generalize ByteString.decodeFrom s = t at h
  induction h with
  | nil => rfl
  | @escape d e x y s t hd he h ih =>
    have hx := hex2dec_byteChar.mpr hd
    have hy := hex2dec_byteChar.mpr he
    have hpercent : byteChar percent = '%' := byteChar_eq_percent.mpr rfl
    have hbyte : Char.ofNat (x * 16 + y) = byteChar (ofHalves x y) := by
      have hlt := hd.lt
      have hlt' := he.lt
      rw [byteChar, ofHalves, UInt8.toNat_ofNat', Nat.mod_eq_of_lt (by omega), Nat.mul_comm]
    simp only [List.map_cons, uriDecode, hpercent, decide_true, hx, hy, ih, hbyte]
  | @keep b s t hb h ih =>
    rw [List.map_cons, uriDecode_keep, ih, List.map_cons]
    -- the characters of an escape would be those of one of the bytes
    intro d e u dec1 dec2 hpercent heq hdec1 hdec2
    obtain ⟨c, s, rfl, rfl, hrest⟩ := List.map_eq_cons_iff.mp heq
    obtain ⟨c', s, rfl, rfl, -⟩ := List.map_eq_cons_iff.mp hrest
    refine hb ⟨c, c', s, dec1, dec2, ?_, hex2dec_byteChar.mp hdec1, hex2dec_byteChar.mp hdec2⟩
    rw [byteChar_eq_percent.mp hpercent]

end OpenGeoBase
