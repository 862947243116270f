import OpenGeoBase.Lib.Numeral

/-!
# Integers of the C library

`strtol` reads an integer in a given base: white space, a sign that may be missing, `0x` for base
16, which may be missing as well, and digits, as many as there are. It never fails; a text that is
no integer gives 0, and one beyond the range of a `long` the nearest bound. `atoi` reads in base
ten, and gives an `int`.

What follows the digits does not matter (`strtol_append`).
-/

namespace Text

/-- The value of a digit, letters being the digits from ten on. -/
def digitOf (c : Char) : Option ℕ :=
  if '0' ≤ c ∧ c ≤ '9' then some (c.toNat - '0'.toNat)
  else if 'A' ≤ c ∧ c ≤ 'Z' then some (c.toNat - 'A'.toNat + 10)
  else if 'a' ≤ c ∧ c ≤ 'z' then some (c.toNat - 'a'.toNat + 10)
  else none

/-- A digit in this base. -/
def isDigitIn (base : ℕ) (c : Char) : Bool := (digitOf c).any (· < base)

/-- The number with these digits. -/
def valueIn (base : ℕ) (digits : Str) : ℕ :=
  digits.foldl (fun n c => n * base + (digitOf c).getD 0) 0

/-- The text behind `0x`, which may be missing. -/
def skipHexPrefix : Str → Str
  | '0' :: 'x' :: t => t
  | '0' :: 'X' :: t => t
  | t => t

/-- A `long` as near as possible. -/
def clampLong (n : ℤ) : ℤ := max (-2 ^ 63) (min n (2 ^ 63 - 1))

/-- `strtol` -/
def strtol (base : ℕ) (s : Str) : ℤ :=
  let (neg, t) := readSign (s.dropWhile isSpace)
  let t := if base = 16 then skipHexPrefix t else t
  let n : ℤ := valueIn base (t.takeWhile (isDigitIn base))
  clampLong (if neg then -n else n)

/-- `atoi` -/
def atoi (s : Str) : ℤ := (strtol 10 s).bmod (2 ^ 32)

/-- The text up to the first NUL, which is what `c_str` gives. -/
def cStr (s : Str) : Str := s.takeWhile (· ≠ '\x00')

/-- A text without the character 0 is read to its end. -/
theorem cStr_eq_self {s : Str} (h : '\x00' ∉ s) : cStr s = s := by
  refine List.takeWhile_eq_self_iff.mpr fun c hc => ?_
  exact decide_eq_true fun heq => h (heq ▸ hc)

section Digits

variable {base : ℕ} {digits rest : Str} {c : Char}

/-- A digit in a base is a digit. -/
theorem isSome_of_isDigitIn (h : isDigitIn base c = true) : (digitOf c).isSome := by
  unfold isDigitIn at h
  cases hdigit : digitOf c with
  | none => exact absurd (hdigit ▸ h) (by simp)
  | some d => rfl

/-- Where the digits stand, in any base. -/
theorem bounds_of_digitOf (h : (digitOf c).isSome) : '0' ≤ c ∧ c ≤ 'z' := by
  unfold digitOf at h
  split_ifs at h with h₀ h₁ h₂
  · exact ⟨h₀.1, Char.le_trans h₀.2 (by decide)⟩
  · exact ⟨Char.le_trans (by decide : '0' ≤ 'A') h₁.1, Char.le_trans h₁.2 (by decide)⟩
  · exact ⟨Char.le_trans (by decide : '0' ≤ 'a') h₂.1, h₂.2⟩
  · exact absurd h (by simp)

/-- A digit is none of the characters before `0`. -/
theorem ne_of_digitOf {d : Char} (h : (digitOf c).isSome) (hd : ¬ '0' ≤ d) : c ≠ d := fun heq =>
  hd (heq ▸ (bounds_of_digitOf h).1)

/-- A digit is no space. -/
theorem isSpace_of_digitOf (h : (digitOf c).isSome) : isSpace c = false := by
  have hreturn : ¬c ≤ '\r' := fun hle =>
    absurd (Char.le_trans (bounds_of_digitOf h).1 hle) (by decide)
  simp [isSpace, ne_of_digitOf h (by decide : ¬ '0' ≤ ' '), hreturn]

/-- A text that begins with a digit has neither blanks nor a sign. -/
theorem readSign_of_digit (h : (digitOf c).isSome) (t : Str) :
    readSign ((c :: t).dropWhile isSpace) = (false, c :: t) := by
  rw [List.dropWhile_cons_of_neg (by simp [isSpace_of_digitOf h])]
  unfold readSign
  split
  · next heq => exact absurd (List.cons.inj heq).1 (ne_of_digitOf h (by decide))
  · next heq => exact absurd (List.cons.inj heq).1 (ne_of_digitOf h (by decide))
  · rfl

/-- `0x` is in front of a number only if the digits are a single 0, and `x` comes next. -/
theorem skipHexPrefix_digits (hdigits : ∀ c ∈ digits, isDigitIn 16 c = true) (hne : digits ≠ [])
    (hrest : ∀ c ∈ rest.head?, c ≠ 'x' ∧ c ≠ 'X') :
    skipHexPrefix (digits ++ rest) = digits ++ rest := by
  have hx : ∀ c, isDigitIn 16 c = true → c ≠ 'x' ∧ c ≠ 'X' := by
    rintro c hc
    refine ⟨?_, ?_⟩ <;>
    · rintro rfl
      exact absurd hc (by decide)
  obtain ⟨c, ds, rfl⟩ := List.exists_cons_of_ne_nil hne
  have hnext : ∀ d ∈ (ds ++ rest).head?, d ≠ 'x' ∧ d ≠ 'X' := by
    intro d hd
    cases ds with
    | nil => exact hrest d hd
    | cons e ds =>
      obtain rfl := Option.some.inj hd
      exact hx e (hdigits e (by simp))
  rw [List.cons_append]
  unfold skipHexPrefix
  split
  · next heq =>
    obtain ⟨-, htail⟩ := List.cons.inj heq
    exact absurd rfl (hnext 'x' (by rw [htail]; rfl)).1
  · next heq =>
    obtain ⟨-, htail⟩ := List.cons.inj heq
    exact absurd rfl (hnext 'X' (by rw [htail]; rfl)).2
  · rfl

/-- **A number is read**, whatever follows its digits, unless it looks like more of it. -/
theorem strtol_append (hdigits : ∀ c ∈ digits, isDigitIn base c = true) (hne : digits ≠ [])
    (hlt : valueIn base digits < 2 ^ 63)
    (hrest : ∀ c ∈ rest.head?, isDigitIn base c = false ∧ c ≠ 'x' ∧ c ≠ 'X') :
    strtol base (digits ++ rest) = valueIn base digits := by
  obtain ⟨c, ds, rfl⟩ := List.exists_cons_of_ne_nil hne
  have hc : (digitOf c).isSome := isSome_of_isDigitIn (hdigits c List.mem_cons_self)
  have hskip : (if base = 16 then skipHexPrefix (c :: ds ++ rest) else c :: ds ++ rest) =
      c :: ds ++ rest := by
    split
    · next hbase =>
      subst hbase
      exact skipHexPrefix_digits hdigits hne fun c hc => (hrest c hc).2
    · rfl
  have htake : (c :: ds ++ rest).takeWhile (isDigitIn base) = c :: ds := by
    rw [List.takeWhile_append_of_pos hdigits]
    cases rest with
    | nil => simp
    | cons d rest =>
      rw [List.takeWhile_cons_of_neg (by simp [(hrest d rfl).1]), List.append_nil]
  have hclamp : clampLong (valueIn base (c :: ds) : ℤ) = valueIn base (c :: ds) := by
    unfold clampLong
    omega
  unfold strtol
  rw [List.cons_append, readSign_of_digit hc, ← List.cons_append]
  dsimp only
  rw [hskip, htake, if_neg Bool.false_ne_true, hclamp]

end Digits

end Text
