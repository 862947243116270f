import OpenGeoBase.Lib.Text

/-!
# Substrings and integers of a text

Two functions of the standard library on strings, with the exceptions they throw: `substr` from a
position on, which must not lie behind the end, and `stoi`, which reads an `int`.

`ReadsInt s n` says what `stoi` looks for: white space, a sign that may be missing, and a digit or
more, whose value is `n`; what follows them does not matter. `stoi` returns `n` if it is an `int`
(`stoi_eq_ok_iff`); one that is not is out of range, and a text without such a beginning is an
invalid argument.
-/

namespace Text

/-- The exceptions of the standard library that functions on strings throw. -/
inductive StdException where
  | out_of_range
  | invalid_argument
  deriving DecidableEq

/-- `std::string::substr` with a position only. -/
def substr (s : Str) (pos : ℕ) : Except StdException Str :=
  if s.length < pos then .error .out_of_range else .ok (s.drop pos)

/-- A substring from a position in the text, or from its end. -/
theorem substr_of_le {s : Str} {pos : ℕ} (h : pos ≤ s.length) :
    substr s pos = .ok (s.drop pos) := if_neg (not_lt.mpr h)

theorem substr_of_lt {s : Str} {pos : ℕ} (h : s.length < pos) :
    substr s pos = .error .out_of_range := if_pos h

/-- `isspace`. -/
def isSpace (c : Char) : Bool := c == ' ' || (decide ('\t' ≤ c) && decide (c ≤ '\r'))

/-- `std::stoi`, in base ten. -/
def stoi (s : Str) : Except StdException ℤ :=
  let (neg, t) := readSign (s.dropWhile isSpace)
  let digits := t.takeWhile Char.isDigit
  let n : ℤ := if neg then -(digitsValue digits : ℤ) else digitsValue digits
  if digits = [] then .error .invalid_argument
  else if n < -2 ^ 31 ∨ 2 ^ 31 ≤ n then .error .out_of_range
  else .ok n

/-! ### What is read -/

/-- The signs in front of a numeral, and whether they are those of a negative one. -/
def numeralSigns : List (Str × Bool) := [([], false), (['+'], false), (['-'], true)]

/-- The text begins with the numeral of an integer, behind white space. -/
inductive ReadsInt : Str → ℤ → Prop where
  | intro {blanks text digits rest : Str} {neg : Bool} (hblanks : ∀ c ∈ blanks, isSpace c = true)
      (hsign : (text, neg) ∈ numeralSigns) (hne : digits ≠ []) (hdigits : IsDigits digits)
      (hrest : ∀ c ∈ rest.head?, c.isDigit = false) :
      ReadsInt (blanks ++ (text ++ (digits ++ rest)))
        (if neg then -(digitsValue digits : ℤ) else digitsValue digits)

variable {s t : Str} {n : ℤ}

/-- A sign is taken off the text; one is always there, though it may be empty. -/
theorem exists_readSign (s : Str) :
    ∃ text, (text, (readSign s).1) ∈ numeralSigns ∧ s = text ++ (readSign s).2 := by
  unfold readSign
  split
  · exact ⟨['-'], by simp [numeralSigns], rfl⟩
  · exact ⟨['+'], by simp [numeralSigns], rfl⟩
  · exact ⟨[], by simp [numeralSigns], rfl⟩

/-- The sign in front of a digit is read. -/
theorem readSign_digits {text digits : Str} {neg : Bool} (hsign : (text, neg) ∈ numeralSigns)
    (hne : digits ≠ []) (hdigits : IsDigits digits) (rest : Str) :
    readSign (text ++ (digits ++ rest)) = (neg, digits ++ rest) := by
  simp only [numeralSigns, List.mem_cons, Prod.mk.injEq, List.not_mem_nil, or_false] at hsign
  obtain ⟨rfl, rfl⟩ | ⟨rfl, rfl⟩ | ⟨rfl, rfl⟩ := hsign
  · exact readSign_sign false hdigits hne rest
  · rfl
  · exact readSign_sign true hdigits hne rest

/-- A digit is no space. -/
theorem isSpace_of_isDigit {c : Char} (h : c.isDigit = true) : isSpace c = false := by
  have hblank : ¬c ≤ ' ' := not_blank_of_isDigit h
  have hspace : c ≠ ' ' := fun heq => hblank (heq ▸ Char.le_refl c)
  have hbefore : '\r' ≤ ' ' := by decide
  have hreturn : ¬c ≤ '\r' := fun hle => hblank (Char.le_trans hle hbefore)
  simp [isSpace, hspace, hreturn]

/-- Neither a sign nor a digit is white space. -/
theorem dropWhile_isSpace {blanks text digits : Str} {neg : Bool}
    (hblanks : ∀ c ∈ blanks, isSpace c = true) (hsign : (text, neg) ∈ numeralSigns)
    (hne : digits ≠ []) (hdigits : IsDigits digits) (rest : Str) :
    (blanks ++ (text ++ (digits ++ rest))).dropWhile isSpace = text ++ (digits ++ rest) := by
  rw [List.dropWhile_append_of_pos hblanks]
  obtain ⟨d, digits, rfl⟩ := List.exists_cons_of_ne_nil hne
  have hd : isSpace d = false := isSpace_of_isDigit (hdigits d List.mem_cons_self)
  simp only [numeralSigns, List.mem_cons, Prod.mk.injEq, List.not_mem_nil, or_false] at hsign
  obtain ⟨rfl, -⟩ | ⟨rfl, -⟩ | ⟨rfl, -⟩ := hsign
  · exact List.dropWhile_cons_of_neg (by simp [hd])
  · exact List.dropWhile_cons_of_neg (by decide)
  · exact List.dropWhile_cons_of_neg (by decide)

/-- **What `stoi` makes of a numeral.** -/
theorem ReadsInt.stoi_eq (h : ReadsInt s n) :
    stoi s = if n < -2 ^ 31 ∨ 2 ^ 31 ≤ n then .error .out_of_range else .ok n := by
  obtain ⟨hblanks, hsign, hne, hdigits, hrest⟩ := h
  rename_i blanks text digits rest neg
  have htake : (digits ++ rest).takeWhile Char.isDigit = digits := by
    have hspan := span_digits hdigits hrest
    rw [List.span_eq_takeWhile_dropWhile] at hspan
    exact congrArg Prod.fst hspan
  unfold stoi
  rw [dropWhile_isSpace hblanks hsign hne hdigits rest, readSign_digits hsign hne hdigits rest]
  dsimp only
  rw [htake, if_neg hne]

/-- Any text with a digit behind the white space and the sign begins with a numeral. -/
theorem exists_readsInt (h : (readSign (s.dropWhile isSpace)).2.takeWhile Char.isDigit ≠ []) :
    ∃ n, ReadsInt s n := by
  obtain ⟨text, hsign, htext⟩ := exists_readSign (s.dropWhile isSpace)
  have hblanks : ∀ c ∈ s.takeWhile isSpace, isSpace c = true := fun c hc =>
    List.mem_takeWhile_imp hc
  have hdigits : IsDigits ((readSign (s.dropWhile isSpace)).2.takeWhile Char.isDigit) :=
    fun c hc => List.mem_takeWhile_imp hc
  have hrest : ∀ c ∈ ((readSign (s.dropWhile isSpace)).2.dropWhile Char.isDigit).head?,
      c.isDigit = false := by
    intro c hc
    have hhead := List.head?_dropWhile_not Char.isDigit (readSign (s.dropWhile isSpace)).2
    rw [Option.mem_def.mp hc] at hhead
    simpa using hhead
  have hread := ReadsInt.intro hblanks hsign h hdigits hrest
  rw [List.takeWhile_append_dropWhile, ← htext, List.takeWhile_append_dropWhile] at hread
  exact ⟨_, hread⟩

/-- **`stoi` returns** the integer the text begins with, if it is an `int`. -/
theorem stoi_eq_ok_iff : stoi s = .ok n ↔ ReadsInt s n ∧ -2 ^ 31 ≤ n ∧ n < 2 ^ 31 := by
  constructor
  · intro h
    have hdigits : (readSign (s.dropWhile isSpace)).2.takeWhile Char.isDigit ≠ [] := by
      intro hnil
      unfold stoi at h
      dsimp only at h
      rw [if_pos hnil] at h
      exact absurd h (by simp)
    obtain ⟨m, hm⟩ := exists_readsInt hdigits
    rw [hm.stoi_eq] at h
    split at h
    · exact absurd h (by simp)
    · next hrange =>
      obtain rfl := Except.ok.inj h
      rw [not_or, not_lt, not_le] at hrange
      exact ⟨hm, hrange⟩
  · rintro ⟨h, hlow, hhigh⟩
    rw [h.stoi_eq, if_neg (by omega)]

end Text
