import OpenGeoBase.Repo.JsonReader
import Mathlib.Tactic.IntervalCases

/-!
# Writing a JSON text

The front end writes its values with Jackson: no blanks, and in a string only the quote, the
backslash and the control characters are escaped. How a number is written depends on its Java type,
and is a parameter; a number is written exactly if it is read back (`WritesNumber`).

What is written is read back by the reader of the repository (`parseValue_write`).
-/

namespace OpenGeoBase

open Text

/-! ### The writer -/

/-- A control character in a string. -/
def writeControl (c : Char) : Str :=
  if c = Char.ofNat 8 then "\\b".toList
  else if c = '\t' then "\\t".toList
  else if c = '\n' then "\\n".toList
  else if c = Char.ofNat 12 then "\\f".toList
  else if c = '\r' then "\\r".toList
  else "\\u00".toList ++ [hex (c.toNat / 16), hex (c.toNat % 16)]
where
  /-- A hexadecimal digit. -/
  hex (d : ℕ) : Char := (Nat.digitChar d).toUpper

/-- A character in a string. -/
def writeChar (c : Char) : Str :=
  if c = '"' ∨ c = '\\' then ['\\', c] else if c < ' ' then writeControl c else [c]

/-- The characters of a string. -/
def writeChars (s : Str) : Str := s.flatMap writeChar

/-- A string. -/
def writeString (s : Str) : Str := '"' :: (writeChars s ++ ['"'])

section Writer

variable (number : ℚ → Str)

mutual

/-- `ObjectMapper.writeValueAsString`. -/
def writeValue : Value → Str
  | .null => "null".toList
  | .bool true => "true".toList
  | .bool false => "false".toList
  | .number q => number q
  | .string s => writeString s
  | .array vs => '[' :: (writeElements vs ++ [']'])
  | .object ms => '{' :: (writeMembers ms ++ ['}'])

/-- The elements of an array. -/
def writeElements : List Value → Str
  | [] => []
  | v :: vs => writeValue v ++ writeMoreElements vs

/-- The elements behind the first one. -/
def writeMoreElements : List Value → Str
  | [] => []
  | v :: vs => ',' :: (writeValue v ++ writeMoreElements vs)

/-- The members of an object. -/
def writeMembers : List (Str × Value) → Str
  | [] => []
  | (name, v) :: ms => writeString name ++ ':' :: (writeValue v ++ writeMoreMembers ms)

/-- The members behind the first one. -/
def writeMoreMembers : List (Str × Value) → Str
  | [] => []
  | (name, v) :: ms => ',' :: (writeString name ++ ':' :: (writeValue v ++ writeMoreMembers ms))

end

end Writer

namespace Value

mutual

/-- The numbers in a value. -/
def numbers : Value → List ℚ
  | .number q => [q]
  | .array vs => numbersOfElements vs
  | .object ms => numbersOfMembers ms
  | _ => []

def numbersOfElements : List Value → List ℚ
  | [] => []
  | v :: vs => v.numbers ++ numbersOfElements vs

def numbersOfMembers : List (Str × Value) → List ℚ
  | [] => []
  | (_, v) :: ms => v.numbers ++ numbersOfMembers ms

end

mutual

/-- The strings in a value at any depth, the names of members included. -/
def strings : Value → List Str
  | .string s => [s]
  | .array vs => stringsOfElements vs
  | .object ms => stringsOfMembers ms
  | _ => []

def stringsOfElements : List Value → List Str
  | [] => []
  | v :: vs => v.strings ++ stringsOfElements vs

def stringsOfMembers : List (Str × Value) → List Str
  | [] => []
  | (name, v) :: ms => name :: (v.strings ++ stringsOfMembers ms)

end

end Value

/-- A number ends in front of this text. -/
def NumberEnd (text : Str) : Prop :=
  ∀ c ∈ text.head?, c.isDigit = false ∧ c ≠ '.' ∧ c ≠ 'e' ∧ c ≠ 'E'

/-- The number is written in digits, signs, points and exponents, and read back. -/
structure WritesNumber (number : ℚ → Str) (q : ℚ) : Prop where
  plain : ∀ c ∈ number q, c.isDigit = true ∨ c = '-' ∨ c = '+' ∨ c = '.' ∨ c = 'e' ∨ c = 'E'
  starts : ∀ c ∈ (number q).head?, c.isDigit = true ∨ c = '-'
  parse : ∀ text, NumberEnd text → parseNumber (number q ++ text) = some (q, text)

/-! ### What is written is read -/

/-- The control characters are the first thirty-two. -/
theorem exists_ofNat_of_control {c : Char} (h : c < ' ') : ∃ k < 32, c = Char.ofNat k :=
  ⟨c.toNat, UInt32.lt_iff_toNat_lt.mp h, (Char.ofNat_toNat c).symm⟩

/-- The reader takes one written character back, escaped or not. -/
theorem parseStringFrom_writeChar (s : Str) (c : Char) (text : Str) :
    parseStringFrom .plain s (writeChar c ++ text) = parseStringFrom .plain (s ++ [c]) text := by
  unfold writeChar
  split
  · next h =>
    rcases h with rfl | rfl
    · rfl
    · rfl
  · next h =>
    rw [not_or] at h
    split
    · next hcontrol =>
      -- each of them has an escape of its own
      obtain ⟨k, hk, rfl⟩ := exists_ofNat_of_control hcontrol
      interval_cases k <;> rfl
    · next hcontrol =>
      rw [List.singleton_append, parseStringFrom, if_neg h.2, if_neg h.1, if_neg hcontrol]

/-- The reader takes a whole written text back, character by character. -/
theorem parseStringFrom_writeChars (s t text : Str) :
    parseStringFrom .plain s (writeChars t ++ text) = parseStringFrom .plain (s ++ t) text := by
  induction t generalizing s with
  | nil =>
    rw [List.append_nil]
    rfl
  | cons c t ih =>
    unfold writeChars at ih ⊢
    rw [List.flatMap_cons, List.append_assoc, parseStringFrom_writeChar, ih, List.append_assoc]
    rfl

theorem parseString_writeString (s text : Str) :
    parseString (writeChars s ++ '"' :: text) = some (s, text) := by
  unfold parseString
  rw [parseStringFrom_writeChars]
  rfl

section Values

variable {number : ℚ → Str} {text w : Str} {n : ℕ}

/-- A text that begins with a value: no blank, no closing bracket, no comma. -/
def BeginsValue (text : Str) : Prop :=
  ∃ c s, text = c :: s ∧ (c.isDigit = true ∨ c ∈ ['n', 't', 'f', '"', '{', '[', '-'])

/-- A value begins with none of the characters that are left out by `BeginsValue`. -/
theorem ne_of_beginsValue {c d : Char}
    (hc : c.isDigit = true ∨ c ∈ ['n', 't', 'f', '"', '{', '[', '-'])
    (hdigit : d.isDigit = false) (hd : d ∉ ['n', 't', 'f', '"', '{', '[', '-']) : c ≠ d := by
  rintro rfl
  rcases hc with hc | hc
  · rw [hdigit] at hc
    exact nomatch hc
  · exact hd hc

/-- What follows a value does not change how it begins. -/
theorem BeginsValue.append (h : BeginsValue text) : BeginsValue (text ++ w) := by
  obtain ⟨c, s, rfl, hc⟩ := h
  exact ⟨c, s ++ w, rfl, hc⟩

/-- There is no whitespace to skip before a value. -/
theorem BeginsValue.skipWhitespace_eq (h : BeginsValue text) : skipWhitespace text = text := by
  obtain ⟨c, s, rfl, hc⟩ := h
  have hblank : c ≠ ' ' := ne_of_beginsValue hc (by decide) (by decide)
  have hnewline : c ≠ '\n' := ne_of_beginsValue hc (by decide) (by decide)
  have hreturn : c ≠ '\r' := ne_of_beginsValue hc (by decide) (by decide)
  have htab : c ≠ '\t' := ne_of_beginsValue hc (by decide) (by decide)
  exact List.dropWhile_cons_of_neg (by simp [hblank, hnewline, hreturn, htab])

theorem BeginsValue.consume_bracket (h : BeginsValue text) : consume ']' text = none := by
  obtain ⟨c, s, rfl, hc⟩ := h
  exact if_neg (ne_of_beginsValue hc (by decide) (by decide))

/-- A number begins with its sign or a digit. -/
theorem WritesNumber.beginsValue {q : ℚ} (h : WritesNumber number q) :
    BeginsValue (number q) := by
  cases htext : number q with
  | nil =>
    -- nothing is read off an empty text
    have hparse := h.parse [] (fun c hc => nomatch hc)
    rw [htext] at hparse
    exact nomatch hparse
  | cons c s =>
    refine ⟨c, s, rfl, (h.starts c (by rw [htext]; rfl)).imp_right fun hc => ?_⟩
    rw [hc]
    decide

/-- Every written value begins as the reader expects. -/
theorem beginsValue_writeValue : ∀ {v : Value}, (∀ q ∈ v.numbers, WritesNumber number q) →
    BeginsValue (writeValue number v)
  | .null, _ => ⟨_, _, rfl, Or.inr (by decide)⟩
  | .bool true, _ => ⟨_, _, rfl, Or.inr (by decide)⟩
  | .bool false, _ => ⟨_, _, rfl, Or.inr (by decide)⟩
  | .number q, h => (h q List.mem_cons_self).beginsValue
  | .string _, _ => ⟨_, _, rfl, Or.inr (by decide)⟩
  | .array _, _ => ⟨_, _, rfl, Or.inr (by decide)⟩
  | .object _, _ => ⟨_, _, rfl, Or.inr (by decide)⟩

/-- A number ends at each of the three characters that follow a value. -/
theorem numberEnd_cons {c : Char} (h : c = ',' ∨ c = ']' ∨ c = '}') (text : Str) :
    NumberEnd (c :: text) := by
  intro d hd
  obtain rfl := Option.some.inj hd
  rcases h with rfl | rfl | rfl
  · decide
  · decide
  · decide

/-- The items behind a comma are read on. -/
theorem parseNext_comma {α : Type} {close : Char} {items : Str → Option (List α × Str)} {a : α}
    (hskip : skipWhitespace text = text) :
    parseNext close items a (',' :: text) = (items text).map fun r => (a :: r.1, r.2) := by
  change (items (skipWhitespace text)).map _ = _
  rw [hskip]

/-- A written number is read back whole, whatever reads the elements and members. -/
theorem peekValue_number {q : ℚ} (h : WritesNumber number q) (hw : NumberEnd w)
    (elements : Str → Option (List Value × Str))
    (members : Str → Option (List (Str × Value) × Str)) :
    peekValue elements members (number q ++ w) = some (.number q, w) := by
  have hparse := h.parse w hw
  obtain ⟨c, s, htext, -⟩ := h.beginsValue
  have hstarts := h.starts c (by rw [htext]; rfl)
  rw [htext] at hparse ⊢
  -- the text begins with a digit or a minus, so no other case takes it
  have hne : ∀ d : Char, d.isDigit = false → d ≠ '-' → c ≠ d := by
    rintro d hdigit hminus rfl
    rcases hstarts with hc | hc
    · rw [hdigit] at hc
      exact nomatch hc
    · exact hminus hc
  rw [List.cons_append] at hparse ⊢
  unfold peekValue
  dsimp only
  rw [if_neg (hne 'n' (by decide) (by decide)), if_neg (hne 't' (by decide) (by decide)),
    if_neg (hne 'f' (by decide) (by decide)), if_neg (hne '"' (by decide) (by decide)),
    if_neg (hne '{' (by decide) (by decide)), if_neg (hne '[' (by decide) (by decide)), hparse]
  rfl

/-- What stands behind an element ends a number. -/
theorem numberEnd_moreElements (vs : List Value) :
    NumberEnd (writeMoreElements number vs ++ ']' :: w) := by
  cases vs with
  | nil => exact numberEnd_cons (Or.inr (Or.inl rfl)) w
  | cons v vs => exact numberEnd_cons (Or.inl rfl) _

/-- What stands behind a member ends a number. -/
theorem numberEnd_moreMembers (ms : List (Str × Value)) :
    NumberEnd (writeMoreMembers number ms ++ '}' :: w) := by
  cases ms with
  | nil => exact numberEnd_cons (Or.inr (Or.inr rfl)) w
  | cons m ms => exact numberEnd_cons (Or.inl rfl) _

/-- A text with a value in it is not empty, which pays for the next step of the reader. -/
theorem BeginsValue.length_pos (h : BeginsValue text) : 0 < (text ++ w).length := by
  obtain ⟨c, s, rfl, -⟩ := h
  exact Nat.succ_pos _

/-- Behind a bracket and no closing one, elements are read. -/
theorem BeginsValue.parseArray_eq (h : BeginsValue text)
    (elements : Str → Option (List Value × Str)) :
    parseArray elements text = (elements text).map fun r => (.array r.1, r.2) := by
  unfold parseArray
  dsimp only
  rw [h.skipWhitespace_eq, h.consume_bracket]

/-- Behind the name of a member, its value is read. -/
theorem BeginsValue.parseMember_eq (h : BeginsValue text) (value : Str → Option (Value × Str))
    (members : Str → Option (List (Str × Value) × Str)) (name : Str) :
    parseMember value members ('"' :: (writeChars name ++ '"' :: ':' :: text)) =
      (value text).bind fun r => parseNext '}' members (name, r.1) r.2 := by
  change ((parseString (writeChars name ++ '"' :: ':' :: text)).bind _) = _
  rw [parseString_writeString]
  change ((value (skipWhitespace text)).bind _) = _
  rw [h.skipWhitespace_eq]

/-- The text of an object's members, up to what stands behind the first one. -/
theorem writeMembers_cons (name : Str) (v : Value) (ms : List (Str × Value)) (w : Str) :
    writeMembers number ((name, v) :: ms) ++ w =
      '"' :: (writeChars name ++
        '"' :: ':' :: (writeValue number v ++ (writeMoreMembers number ms ++ w))) := by
  simp [writeMembers, writeString]

-- The induction is on the bound, as in the reader: each reading hands on one less than it got.

mutual

/-- **What is written is read back**, whatever follows it. -/
theorem parseValue_write : ∀ (n : ℕ) (v : Value) {w : Str},
    (∀ q ∈ v.numbers, WritesNumber number q) → NumberEnd w →
      2 * (writeValue number v ++ w).length ≤ n →
        parseValue n (writeValue number v ++ w) = some (v, w)
  | 0, v, w, hv, _, hn => by
    have hpos := (beginsValue_writeValue hv).length_pos (w := w)
    omega
  | n + 1, .null, w, _, _, _ => rfl
  | n + 1, .bool true, w, _, _, _ => rfl
  | n + 1, .bool false, w, _, _, _ => rfl
  | n + 1, .number q, w, hv, hw, _ => peekValue_number (hv q List.mem_cons_self) hw _ _
  | n + 1, .string s, w, _, _, _ => by
    change (parseString (writeChars s ++ ['"'] ++ w)).map _ = _
    rw [List.append_assoc]
    exact congrArg _ (parseString_writeString s w)
  -- an array is read element by element, with the bracket as the end of the last
  | n + 1, .array [], w, _, _, _ => rfl
  | n + 1, .array (v :: vs), w, hv, _, hn => by
    have hbegins : BeginsValue (writeElements number (v :: vs) ++ ']' :: w) :=
      (beginsValue_writeValue fun q hq => hv q (List.mem_append_left _ hq)).append.append
    have hread : parseElements n (writeElements number (v :: vs) ++ ']' :: w) =
        some (v :: vs, w) := by
      refine parseElements_write n v vs hv ?_
      simp only [writeValue, List.cons_append, List.append_assoc, List.length_cons,
        List.length_append, List.length_nil] at hn ⊢
      omega
    change parseArray (parseElements n) (writeElements number (v :: vs) ++ [']'] ++ w) = _
    rw [List.append_assoc, List.singleton_append, hbegins.parseArray_eq, hread]
    rfl
  -- and an object member by member
  | n + 1, .object [], w, _, _, _ => rfl
  | n + 1, .object (m :: ms), w, hv, _, hn => by
    have hread : parseMembers n (writeMembers number (m :: ms) ++ '}' :: w) =
        some (m :: ms, w) := by
      refine parseMembers_write n m ms hv ?_
      simp only [writeValue, List.cons_append, List.append_assoc, List.length_cons,
        List.length_append, List.length_nil] at hn ⊢
      omega
    change parseObject (parseMembers n) (writeMembers number (m :: ms) ++ ['}'] ++ w) = _
    rw [List.append_assoc]
    change (parseMembers n (writeMembers number (m :: ms) ++ '}' :: w)).map _ = _
    rw [hread]
    rfl

/-- The elements of an array are read back. -/
theorem parseElements_write : ∀ (n : ℕ) (v : Value) (vs : List Value) {w : Str},
    (∀ q ∈ Value.numbersOfElements (v :: vs), WritesNumber number q) →
      2 * (writeElements number (v :: vs) ++ ']' :: w).length < n →
        parseElements n (writeElements number (v :: vs) ++ ']' :: w) = some (v :: vs, w)
  | 0, v, vs, w, _, hn => absurd hn (Nat.not_lt_zero _)
  | n + 1, v, vs, w, hvs, hn => by
    have hassoc : writeElements number (v :: vs) ++ ']' :: w =
        writeValue number v ++ (writeMoreElements number vs ++ ']' :: w) := List.append_assoc _ _ _
    rw [hassoc] at hn ⊢
    have hvalue := parseValue_write n v (fun q hq => hvs q (List.mem_append_left _ hq))
      (numberEnd_moreElements vs) (Nat.lt_succ_iff.mp hn)
    change (parseValue n _).bind _ = _
    rw [hvalue]
    -- behind the first element stands the bracket, or a comma with the next one
    cases vs with
    | nil => rfl
    | cons v' vs =>
      have hvs' : ∀ q ∈ Value.numbersOfElements (v' :: vs), WritesNumber number q :=
        fun q hq => hvs q (List.mem_append_right _ hq)
      have hbegins : BeginsValue (writeElements number (v' :: vs) ++ ']' :: w) :=
        (beginsValue_writeValue fun q hq => hvs' q (List.mem_append_left _ hq)).append.append
      have hread := parseElements_write n v' vs hvs' (w := w) (by
        simp only [writeElements, writeMoreElements, List.cons_append, List.append_assoc,
          List.length_cons, List.length_append] at hn ⊢
        omega)
      change parseNext ']' _ v (',' :: (writeElements number (v' :: vs) ++ ']' :: w)) = _
      rw [parseNext_comma hbegins.skipWhitespace_eq, hread]
      rfl

/-- The members of an object are read back. -/
theorem parseMembers_write : ∀ (n : ℕ) (m : Str × Value) (ms : List (Str × Value)) {w : Str},
    (∀ q ∈ Value.numbersOfMembers (m :: ms), WritesNumber number q) →
      2 * (writeMembers number (m :: ms) ++ '}' :: w).length < n →
        parseMembers n (writeMembers number (m :: ms) ++ '}' :: w) = some (m :: ms, w)
  | 0, m, ms, w, _, hn => absurd hn (Nat.not_lt_zero _)
  | n + 1, (name, v), ms, w, hms, hn => by
    have hv : ∀ q ∈ v.numbers, WritesNumber number q :=
      fun q hq => hms q (List.mem_append_left _ hq)
    rw [writeMembers_cons] at hn ⊢
    have hlt :
        2 * (writeValue number v ++ (writeMoreMembers number ms ++ '}' :: w)).length ≤ n := by
      rw [List.length_cons, List.length_append] at hn
      simp only [List.length_cons] at hn
      omega
    have hvalue := parseValue_write n v hv (numberEnd_moreMembers ms) hlt
    change parseMember (parseValue n) (parseMembers n) _ = _
    rw [(beginsValue_writeValue hv).append.parseMember_eq, hvalue]
    -- behind the first member stands the brace, or a comma with the next one
    cases ms with
    | nil => rfl
    | cons m ms =>
      have hread := parseMembers_write n m ms
        (fun q hq => hms q (List.mem_append_right _ hq)) (w := w) (by
          simp only [writeMembers, writeMoreMembers, List.cons_append, List.append_assoc,
            List.length_cons, List.length_append] at hlt ⊢
          omega)
      change parseNext '}' _ (name, v) (',' :: (writeMembers number (m :: ms) ++ '}' :: w)) = _
      rw [parseNext_comma rfl, hread]
      rfl

end

/-- **The document that has been written is parsed to the value**, whether or not the parser looks
at what follows it. -/
theorem parseDocument_write (stopWhenDone : Bool) {v : Value}
    (h : ∀ q ∈ v.numbers, WritesNumber number q) :
    parseDocument stopWhenDone (writeValue number v) = some v := by
  have hread := parseValue_write (2 * (writeValue number v).length) v (w := []) h
    (fun c hc => nomatch hc) (by rw [List.append_nil])
  rw [List.append_nil] at hread
  unfold parseDocument
  rw [(beginsValue_writeValue h).skipWhitespace_eq, hread]
  exact if_pos (Or.inr rfl)

end Values

/-! ### Decimal fractions -/

section Decimal

variable {neg : Bool} {ip fp text : Str}

/-- The sign of a number is read back before its digits. -/
theorem readMinus_sign (hip : IsDigits ip) (hne : ip ≠ []) :
    readMinus (sign neg ++ (ip ++ text)) = (neg, ip ++ text) := by
  cases neg with
  | true => rfl
  | false =>
    obtain ⟨c, s, rfl⟩ := List.exists_cons_of_ne_nil hne
    have hc := hip c List.mem_cons_self
    change readMinus (c :: (s ++ text)) = _
    unfold readMinus
    split
    · next heq =>
      rw [(List.cons.inj heq).1] at hc
      exact absurd hc (by decide)
    · rfl

/-- A zero in front is the only digit in front of the point. -/
theorem readInt_digits (hip : IsDigits ip) (hzero : ip.head? = some '0' → ip = ['0'])
    (hne : ip ≠ []) (htext : ∀ c ∈ text.head?, c.isDigit = false) :
    readInt (ip ++ text) = (ip, text) := by
  obtain ⟨c, s, rfl⟩ := List.exists_cons_of_ne_nil hne
  unfold readInt
  by_cases hc : c = '0'
  · subst hc
    obtain rfl : s = [] := (List.cons.inj (hzero rfl)).2
    rfl
  · have hhead : ¬(c :: s ++ text).head? = some '0' := fun h => hc (Option.some.inj h)
    rw [if_neg hhead, span_digits hip htext]

/-- Where a number ends there is no exponent. -/
theorem readExponent_numberEnd (h : NumberEnd text) : readExponent text = some (0, text) := by
  cases text with
  | nil => rfl
  | cons c s =>
    obtain ⟨-, -, he, hE⟩ := h c rfl
    exact if_neg (not_or.mpr ⟨he, hE⟩)

/-- A number in digits with a point is read exactly. -/
theorem parseNumber_decimal (hip : IsDigits ip) (hzero : ip.head? = some '0' → ip = ['0'])
    (hne : ip ≠ []) (hfp : IsDigits fp) (hfne : fp ≠ []) (htext : NumberEnd text) :
    parseNumber (sign neg ++ (ip ++ '.' :: (fp ++ text))) =
      some (signed neg (digitsValue (ip ++ fp) / 10 ^ fp.length), text) := by
  -- the digits before the point end at the point, those after it at the end of the number
  have hpoint : ∀ c ∈ ('.' :: (fp ++ text)).head?, c.isDigit = false := by
    intro c hc
    rw [← Option.some.inj hc]
    decide
  have hfraction : readFraction ('.' :: (fp ++ text)) = (fp, text) :=
    span_digits hfp fun c hc => (htext c hc).1
  unfold parseNumber
  rw [readMinus_sign hip hne]
  dsimp only
  rw [readInt_digits hip hzero hne hpoint]
  dsimp only
  rw [if_neg hne, hfraction]
  dsimp only
  rw [if_neg (fun h => hfne h.2), readExponent_numberEnd htext]
  dsimp only
  rw [zpow_zero, mul_one]

/-- A writer that puts the number down in digits with a point writes it exactly. -/
theorem writesNumber_of_decimal {number : ℚ → Str} {q : ℚ}
    (hq : number q = sign neg ++ (ip ++ '.' :: fp)) (hip : IsDigits ip)
    (hzero : ip.head? = some '0' → ip = ['0']) (hne : ip ≠ []) (hfp : IsDigits fp) (hfne : fp ≠ [])
    (hvalue : signed neg (digitsValue (ip ++ fp) / 10 ^ fp.length) = q) :
    WritesNumber number q where
  plain c hc := by
    rw [hq, List.mem_append, List.mem_append, List.mem_cons] at hc
    rcases hc with hc | hc | rfl | hc
    · cases neg with
      | true => exact Or.inr (Or.inl (List.mem_singleton.mp hc))
      | false => exact nomatch hc
    · exact Or.inl (hip c hc)
    · exact Or.inr (Or.inr (Or.inr (Or.inl rfl)))
    · exact Or.inl (hfp c hc)
  -- a sign or a digit, and nothing a literal or a bracket starts with
  starts c hc := by
    rw [hq] at hc
    cases neg with
    | true => exact Or.inr (Option.some.inj hc).symm
    | false =>
      obtain ⟨d, s, rfl⟩ := List.exists_cons_of_ne_nil hne
      obtain rfl : d = c := Option.some.inj hc
      exact Or.inl (hip d List.mem_cons_self)
  parse text htext := by
    rw [hq, List.append_assoc, List.append_assoc, List.cons_append,
      parseNumber_decimal hip hzero hne hfp hfne htext, hvalue]

end Decimal

end OpenGeoBase
