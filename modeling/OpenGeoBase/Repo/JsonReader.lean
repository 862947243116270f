import OpenGeoBase.Repo.Json

/-!
# Reading a JSON text

The reader of the repository's JSON library, with its default flags: no comments, no trailing
commas, no `NaN`. It goes through the text once, and gives the value it has read with what follows
it. A text is taken without the character 0, which ends it.

Numbers are read exactly. The recursion is on a bound. Twice the length of the text is as good as
any higher one (`parseValue_eq_of_le`), because each value takes a character at least off the text.
-/

namespace OpenGeoBase

open Text

/-! ### Strings -/

/-- What stands behind a backslash, and for which character. -/
def escapedChar (e : Char) : Option Char :=
  if e = '"' ∨ e = '/' ∨ e = '\\' then some e
  else if e = 'b' then some (Char.ofNat 8)
  else if e = 'f' then some (Char.ofNat 12)
  else if e = 'n' then some '\n'
  else if e = 'r' then some '\r'
  else if e = 't' then some '\t'
  else none

/-- A hexadecimal digit. -/
def hexDigit (c : Char) : Option ℕ :=
  if '0' ≤ c ∧ c ≤ '9' then some (c.toNat - '0'.toNat)
  else if 'A' ≤ c ∧ c ≤ 'F' then some (c.toNat - 'A'.toNat + 10)
  else if 'a' ≤ c ∧ c ≤ 'f' then some (c.toNat - 'a'.toNat + 10)
  else none

/-- Where the loop of `ParseStringToStream` is. -/
inductive StringState where
  /-- Between two characters of the string. -/
  | plain
  /-- Behind a backslash. -/
  | escape
  /-- In `ParseHex4`, after some digits; a high surrogate may have come before. -/
  | hex (high : Option ℕ) (digits codepoint : ℕ)
  /-- Behind a high surrogate. -/
  | surrogate (high : ℕ)
  /-- Behind a high surrogate and a backslash. -/
  | surrogateEscape (high : ℕ)

/-- `ParseStringToStream` behind the opening quote, with what has been read so far: the string, and
what follows its closing quote. A low surrogate on its own stands for no character. -/
def parseStringFrom : StringState → Str → Str → Option (Str × Str)
  | _, _, [] => none
  | .plain, s, c :: text =>
    if c = '\\' then parseStringFrom .escape s text
    else if c = '"' then some (s, text)
    else if c < ' ' then none
    else parseStringFrom .plain (s ++ [c]) text
  | .escape, s, e :: text =>
    match escapedChar e with
    | some c => parseStringFrom .plain (s ++ [c]) text
    | none => if e = 'u' then parseStringFrom (.hex none 0 0) s text else none
  | .hex high digits codepoint, s, c :: text =>
    match hexDigit c with
    | none => none
    | some d =>
      let codepoint := codepoint * 16 + d
      if digits < 3 then parseStringFrom (.hex high (digits + 1) codepoint) s text
      else match high with
        | none =>
          if 0xD800 ≤ codepoint ∧ codepoint ≤ 0xDBFF then
            parseStringFrom (.surrogate codepoint) s text
          else parseStringFrom .plain (s ++ [Char.ofNat codepoint]) text
        | some high =>
          if codepoint < 0xDC00 ∨ 0xDFFF < codepoint then none
          else
            let codepoint := (high - 0xD800) * 1024 + (codepoint - 0xDC00) + 0x10000
            parseStringFrom .plain (s ++ [Char.ofNat codepoint]) text
  | .surrogate high, s, c :: text =>
    if c = '\\' then parseStringFrom (.surrogateEscape high) s text else none
  | .surrogateEscape high, s, c :: text =>
    if c = 'u' then parseStringFrom (.hex (some high) 0 0) s text else none

/-- `ParseString`, behind the opening quote. -/
def parseString (text : Str) : Option (Str × Str) := parseStringFrom .plain [] text

/-- What has been read stays, and the closing quote at least is taken off the text. -/
theorem parseStringFrom_spec {state : StringState} {s t text rest : Str}
    (h : parseStringFrom state s text = some (t, rest)) :
    s <+: t ∧ rest.length < text.length := by
  induction text generalizing state s with
  | nil =>
    unfold parseStringFrom at h
    exact nomatch h
  | cons c text ih =>
    -- A step takes a character and adds none or one to the text.
    have hnext : ∀ {state}, parseStringFrom state s text = some (t, rest) →
        s <+: t ∧ rest.length < (c :: text).length :=
      fun h => ⟨(ih h).1, (ih h).2.trans (Nat.lt_succ_self _)⟩
    have happend : ∀ {d}, parseStringFrom .plain (s ++ [d]) text = some (t, rest) →
        s <+: t ∧ rest.length < (c :: text).length :=
      fun h => ⟨(List.prefix_append s _).trans (ih h).1, (ih h).2.trans (Nat.lt_succ_self _)⟩
    unfold parseStringFrom at h
    -- Each state of the reader goes on, stops at a quote, or fails.
    cases state with
    | plain =>
      dsimp only at h
      split at h
      · exact hnext h
      · split at h
        · obtain ⟨rfl, rfl⟩ := Prod.mk.inj (Option.some.inj h)
          exact ⟨List.prefix_refl _, Nat.lt_succ_self _⟩
        · split at h
          · exact nomatch h
          · exact happend h
    | escape =>
      dsimp only at h
      split at h
      · exact happend h
      · split at h
        · exact hnext h
        · exact nomatch h
    | hex high digits codepoint =>
      dsimp only at h
      split at h
      · exact nomatch h
      · split at h
        · exact hnext h
        · split at h
          · split at h
            · exact hnext h
            · exact happend h
          · split at h
            · exact nomatch h
            · exact happend h
    | surrogate high =>
      dsimp only at h
      split at h
      · exact hnext h
      · exact nomatch h
    | surrogateEscape high =>
      dsimp only at h
      split at h
      · exact hnext h
      · exact nomatch h

/-! ### Numbers and literals -/

/-- The minus sign of a number, if there is one, and what follows it. -/
def readMinus : Str → Bool × Str
  | '-' :: text => (true, text)
  | text => (false, text)

/-- The digits in front of the point: a zero, or any digits that do not begin with one. -/
def readInt (text : Str) : Str × Str :=
  if text.head? = some '0' then (['0'], text.tail) else text.span Char.isDigit

/-- `ParseNumber`, with exact numbers. -/
def parseNumber (text : Str) : Option (ℚ × Str) :=
  let (minus, text) := readMinus text
  let (ip, text) := readInt text
  if ip = [] then none
  else
    let (fp, rest) := readFraction text
    if text.head? = some '.' ∧ fp = [] then none
    else match readExponent rest with
      | none => none
      | some (e, rest) =>
        some (signed minus (digitsValue (ip ++ fp) / 10 ^ fp.length * (10 : ℚ) ^ e), rest)

/-- `ParseNull`, `ParseTrue` and `ParseFalse`. -/
def parseLiteral (word : Str) (v : Value) (text : Str) : Option (Value × Str) :=
  if word <+: text then some (v, text.drop word.length) else none

/-! ### Values -/

/-- `SkipWhitespace`. -/
def skipWhitespace (text : Str) : Str :=
  text.dropWhile fun c => c == ' ' || c == '\n' || c == '\r' || c == '\t'

/-- `Consume`. -/
def consume (c : Char) : Str → Option Str
  | [] => none
  | d :: text => if d = c then some text else none

/-- Behind an item of an array or an object: the next item, or the end. -/
def parseNext {α : Type} (close : Char) (items : Str → Option (List α × Str)) (a : α)
    (text : Str) : Option (List α × Str) :=
  let text := skipWhitespace text
  match consume ',' text with
  | some text => (items (skipWhitespace text)).map fun r => (a :: r.1, r.2)
  | none => (consume close text).map fun text => ([a], text)

section Values

variable (value : Str → Option (Value × Str)) (elements : Str → Option (List Value × Str))
  (members : Str → Option (List (Str × Value) × Str))

/-- The loop of `ParseArray`. -/
def parseElement (text : Str) : Option (List Value × Str) :=
  (value text).bind fun r => parseNext ']' elements r.1 r.2

/-- The loop of `ParseObject`. -/
def parseMember (text : Str) : Option (List (Str × Value) × Str) := do
  let text ← consume '"' text
  let (name, text) ← parseString text
  let text ← consume ':' (skipWhitespace text)
  let (v, text) ← value (skipWhitespace text)
  parseNext '}' members (name, v) text

/-- `ParseArray`, behind the bracket. -/
def parseArray (text : Str) : Option (Value × Str) :=
  let text := skipWhitespace text
  match consume ']' text with
  | some text => some (.array [], text)
  | none => (elements text).map fun r => (.array r.1, r.2)

/-- `ParseObject`, behind the brace. -/
def parseObject (text : Str) : Option (Value × Str) :=
  let text := skipWhitespace text
  match consume '}' text with
  | some text => some (.object [], text)
  | none => (members text).map fun r => (.object r.1, r.2)

/-- `ParseValue`: the first character says what the value is. -/
def peekValue : Str → Option (Value × Str)
  | [] => none
  | c :: text =>
    if c = 'n' then parseLiteral "null".toList .null (c :: text)
    else if c = 't' then parseLiteral "true".toList (.bool true) (c :: text)
    else if c = 'f' then parseLiteral "false".toList (.bool false) (c :: text)
    else if c = '"' then (parseString text).map fun r => (.string r.1, r.2)
    else if c = '{' then parseObject members text
    else if c = '[' then parseArray elements text
    else (parseNumber (c :: text)).map fun r => (.number r.1, r.2)

end Values

mutual

/-- `ParseValue`, with a bound on the recursion. -/
def parseValue : ℕ → Str → Option (Value × Str)
  | 0, _ => none
  | n + 1, text => peekValue (parseElements n) (parseMembers n) text

/-- The elements of an array, the first of them at hand. -/
def parseElements : ℕ → Str → Option (List Value × Str)
  | 0, _ => none
  | n + 1, text => parseElement (parseValue n) (parseElements n) text

/-- The members of an object, the first of them at hand. -/
def parseMembers : ℕ → Str → Option (List (Str × Value) × Str)
  | 0, _ => none
  | n + 1, text => parseMember (parseValue n) (parseMembers n) text

end

/-- `Document::Parse`. With `kParseStopWhenDoneFlag` nothing is asked of what follows the value. -/
def parseDocument (stopWhenDone : Bool) (text : Str) : Option Value :=
  match parseValue (2 * text.length) (skipWhitespace text) with
  | none => none
  | some (v, rest) => if stopWhenDone ∨ skipWhitespace rest = [] then some v else none

/-! ### The bound -/

section Bound

/-- Skipping whitespace never lengthens the text. -/
theorem length_skipWhitespace_le (text : Str) : (skipWhitespace text).length ≤ text.length :=
  (List.dropWhile_suffix _).length_le

/-- Consuming a character shortens the text. -/
theorem length_consume {c : Char} {text rest : Str} (h : consume c text = some rest) :
    rest.length < text.length := by
  cases text with
  | nil => exact nomatch h
  | cons d text =>
    change (if d = c then some text else none) = some rest at h
    split at h
    · obtain rfl := Option.some.inj h
      exact Nat.lt_succ_self _
    · exact nomatch h

/-- Reading a literal shortens the text. -/
theorem length_parseLiteral {word text rest : Str} {v w : Value} (hword : word ≠ [])
    (h : parseLiteral word v text = some (w, rest)) : rest.length < text.length := by
  unfold parseLiteral at h
  split at h
  · next hstart =>
    obtain ⟨-, rfl⟩ := Prod.mk.inj (Option.some.inj h)
    have hpos := List.length_pos_iff.mpr hword
    have hle := hstart.length_le
    rw [List.length_drop]
    omega
  · exact nomatch h

/-- A span leaves nothing out. -/
theorem length_span (p : Char → Bool) (text : Str) :
    (text.span p).1.length + (text.span p).2.length = text.length := by
  rw [List.span_eq_takeWhile_dropWhile, ← List.length_append, List.takeWhile_append_dropWhile]

/-- Reading the sign of a number never lengthens the text. -/
theorem length_readMinus_le (text : Str) : (readMinus text).2.length ≤ text.length := by
  unfold readMinus
  split
  · exact Nat.le_succ _
  · exact le_rfl

/-- An integer part has a digit, so reading it shortens the text. -/
theorem length_readInt {text : Str} (h : (readInt text).1 ≠ []) :
    (readInt text).2.length < text.length := by
  unfold readInt at h ⊢
  -- A leading zero is the whole integer part; other digits are read as far as they go.
  split
  · next hzero =>
    have hne : text ≠ [] := by
      rintro rfl
      exact absurd hzero (by simp)
    rw [List.length_tail]
    exact Nat.sub_lt (List.length_pos_iff.mpr hne) Nat.one_pos
  · next hzero =>
    rw [if_neg hzero] at h
    have hspan := length_span Char.isDigit text
    have hpos := List.length_pos_iff.mpr h
    omega

/-- Reading a fraction never lengthens the text. -/
theorem length_readFraction_le (text : Str) : (readFraction text).2.length ≤ text.length := by
  unfold readFraction
  split
  · next s =>
    have hspan := length_span Char.isDigit s
    rw [List.length_cons]
    omega
  · exact le_rfl

/-- Nor does reading an exponent. -/
theorem length_readExponent_le {text rest : Str} {e : ℤ} (h : readExponent text = some (e, rest)) :
    rest.length ≤ text.length := by
  unfold readExponent at h
  split at h
  · next c s =>
    split at h
    · dsimp only at h
      split at h
      · exact nomatch h
      · obtain rfl := congrArg Prod.snd (Option.some.inj h)
        have hspan := length_span Char.isDigit (readSign s).2
        -- The letter, a sign that may be missing, and at least one digit.
        have hsign : (readSign s).2.length ≤ s.length := by
          unfold readSign
          split
          · exact Nat.le_succ _
          · exact Nat.le_succ _
          · exact le_rfl
        dsimp only
        rw [List.length_cons]
        omega
    · obtain rfl := congrArg Prod.snd (Option.some.inj h)
      exact le_rfl
  · obtain rfl := congrArg Prod.snd (Option.some.inj h)
    exact le_rfl

/-- Reading a number shortens the text, by its digits at least. -/
theorem length_parseNumber {text rest : Str} {q : ℚ} (h : parseNumber text = some (q, rest)) :
    rest.length < text.length := by
  unfold parseNumber at h
  dsimp only at h
  have hminus := length_readMinus_le text
  generalize readMinus text = m at h hminus
  split at h
  · exact nomatch h
  · next hint =>
    -- Only the integer part must be there.
    have hlt := length_readInt hint
    have hfraction := length_readFraction_le (readInt m.2).2
    split at h
    · exact nomatch h
    · split at h
      · exact nomatch h
      · next e rest' hexponent =>
        have hle := length_readExponent_le hexponent
        obtain rfl : rest' = rest := congrArg Prod.snd (Option.some.inj h)
        omega

variable {α : Type} {close : Char} {items items' : Str → Option (List α × Str)} {a : α}
  {text rest : Str} {as : List α}

/-- Reading what follows a comma shortens the text. -/
theorem length_parseNext (hitems : ∀ {text as rest}, items text = some (as, rest) →
      rest.length < text.length) (h : parseNext close items a text = some (as, rest)) :
    rest.length < text.length := by
  have hskip := length_skipWhitespace_le text
  unfold parseNext at h
  dsimp only at h
  -- A comma and the items behind it, or the closing bracket.
  split at h
  · next text' hcomma =>
    obtain ⟨r, hr, heq⟩ := Option.map_eq_some_iff.mp h
    obtain rfl : r.2 = rest := congrArg Prod.snd heq
    have hshort := hitems hr
    have hskip' := length_skipWhitespace_le text'
    have hcomma' := length_consume hcomma
    omega
  · obtain ⟨text', hclose, heq⟩ := Option.map_eq_some_iff.mp h
    obtain rfl : text' = rest := congrArg Prod.snd heq
    have hclose' := length_consume hclose
    omega

/-- The items behind an item are read from what follows it. -/
theorem parseNext_congr
    (hitems : ∀ text', text'.length < text.length → items text' = items' text') :
    parseNext close items a text = parseNext close items' a text := by
  unfold parseNext
  dsimp only
  cases hcomma : consume ',' (skipWhitespace text) with
  | none => rfl
  | some text' =>
    have hcomma' := length_consume hcomma
    have hskip := length_skipWhitespace_le text
    have hskip' := length_skipWhitespace_le text'
    dsimp only
    rw [hitems _ (by omega)]

section Values

variable {value value' : Str → Option (Value × Str)}
  {elements elements' : Str → Option (List Value × Str)}
  {members members' : Str → Option (List (Str × Value) × Str)} {v : Value} {vs : List Value}
  {ms : List (Str × Value)}

theorem length_parseElement
    (hvalue : ∀ {text v rest}, value text = some (v, rest) → rest.length < text.length)
    (helements : ∀ {text vs rest}, elements text = some (vs, rest) → rest.length < text.length)
    (h : parseElement value elements text = some (vs, rest)) : rest.length < text.length := by
  obtain ⟨r, hr, hnext⟩ := Option.bind_eq_some_iff.mp h
  exact (length_parseNext helements hnext).trans (hvalue hr)

/-- An element is read the same if shorter texts are. -/
theorem parseElement_congr (hvalue : value text = value' text)
    (hshort : ∀ {v rest}, value text = some (v, rest) → rest.length < text.length)
    (helements : ∀ text', text'.length + 1 < text.length → elements text' = elements' text') :
    parseElement value elements text = parseElement value' elements' text := by
  unfold parseElement
  rw [← hvalue]
  cases hr : value text with
  | none => rfl
  | some r =>
    have hlt := hshort hr
    exact parseNext_congr fun text' hlt' => helements text' (by omega)

/-- The pieces of a member that has been read. -/
theorem exists_of_parseMember (h : parseMember value members text = some (ms, rest)) :
    ∃ name v text₁ text₂ text₃ text₄, consume '"' text = some text₁ ∧
      parseString text₁ = some (name, text₂) ∧ consume ':' (skipWhitespace text₂) = some text₃ ∧
        value (skipWhitespace text₃) = some (v, text₄) ∧
          parseNext '}' members (name, v) text₄ = some (ms, rest) := by
  unfold parseMember at h
  simp only [Option.bind_eq_bind, Option.bind_eq_some_iff, Prod.exists] at h
  obtain ⟨text₁, h₁, name, text₂, h₂, text₃, h₃, v, text₄, h₄, hnext⟩ := h
  exact ⟨name, v, text₁, text₂, text₃, text₄, h₁, h₂, h₃, h₄, hnext⟩

/-- Reading a member shortens the text. -/
theorem length_parseMember
    (hvalue : ∀ {text v rest}, value text = some (v, rest) → rest.length < text.length)
    (hmembers : ∀ {text ms rest}, members text = some (ms, rest) → rest.length < text.length)
    (h : parseMember value members text = some (ms, rest)) : rest.length < text.length := by
  obtain ⟨name, v, text₁, text₂, text₃, text₄, h₁, h₂, h₃, h₄, hnext⟩ := exists_of_parseMember h
  have hquote := length_consume h₁
  have hname := (parseStringFrom_spec h₂).2
  have hcolon := length_consume h₃
  have hv := hvalue h₄
  have hrest := length_parseNext hmembers hnext
  have hskip := length_skipWhitespace_le text₂
  have hskip' := length_skipWhitespace_le text₃
  omega

/-- A member is read the same if shorter texts are. -/
theorem parseMember_congr
    (hvalue : ∀ text', text'.length < text.length → value text' = value' text')
    (hshort : ∀ {text v rest}, value text = some (v, rest) → rest.length < text.length)
    (hmembers : ∀ text', text'.length < text.length → members text' = members' text') :
    parseMember value members text = parseMember value' members' text := by
  unfold parseMember
  -- The parts of a member in their order; what is left gets shorter with each.
  cases h₁ : consume '"' text with
  | none => rfl
  | some text₁ =>
    have hquote := length_consume h₁
    simp only [Option.bind_eq_bind, Option.bind_some]
    cases h₂ : parseString text₁ with
    | none => rfl
    | some r =>
      have hname := (parseStringFrom_spec h₂).2
      have hskip := length_skipWhitespace_le r.2
      simp only [Option.bind_some]
      cases h₃ : consume ':' (skipWhitespace r.2) with
      | none => rfl
      | some text₃ =>
        have hcolon := length_consume h₃
        have hskip' := length_skipWhitespace_le text₃
        simp only [Option.bind_some]
        rw [← hvalue _ (by omega)]
        cases h₄ : value (skipWhitespace text₃) with
        | none => rfl
        | some r' =>
          have hv := hshort h₄
          exact parseNext_congr fun text' hlt => hmembers text' (by omega)

/-- Reading an array shortens the text. -/
theorem length_parseArray
    (helements : ∀ {text vs rest}, elements text = some (vs, rest) → rest.length < text.length)
    (h : parseArray elements text = some (v, rest)) : rest.length < text.length := by
  have hskip := length_skipWhitespace_le text
  unfold parseArray at h
  dsimp only at h
  split at h
  · next text' hclose =>
    obtain rfl : text' = rest := congrArg Prod.snd (Option.some.inj h)
    exact (length_consume hclose).trans_le hskip
  · obtain ⟨r, hr, heq⟩ := Option.map_eq_some_iff.mp h
    obtain rfl : r.2 = rest := congrArg Prod.snd heq
    exact (helements hr).trans_le hskip

/-- Reading an object shortens the text. -/
theorem length_parseObject
    (hmembers : ∀ {text ms rest}, members text = some (ms, rest) → rest.length < text.length)
    (h : parseObject members text = some (v, rest)) : rest.length < text.length := by
  have hskip := length_skipWhitespace_le text
  unfold parseObject at h
  dsimp only at h
  split at h
  · next text' hclose =>
    obtain rfl : text' = rest := congrArg Prod.snd (Option.some.inj h)
    exact (length_consume hclose).trans_le hskip
  · obtain ⟨r, hr, heq⟩ := Option.map_eq_some_iff.mp h
    obtain rfl : r.2 = rest := congrArg Prod.snd heq
    exact (hmembers hr).trans_le hskip

/-- Reading a value of any kind shortens the text. -/
theorem length_peekValue
    (helements : ∀ {text vs rest}, elements text = some (vs, rest) → rest.length < text.length)
    (hmembers : ∀ {text ms rest}, members text = some (ms, rest) → rest.length < text.length)
    (h : peekValue elements members text = some (v, rest)) : rest.length < text.length := by
  cases text with
  | nil => exact nomatch h
  | cons c text =>
    unfold peekValue at h
    dsimp only at h
    -- The first character tells the kind of value.
    split at h
    · exact length_parseLiteral (by decide) h
    · split at h
      · exact length_parseLiteral (by decide) h
      · split at h
        · exact length_parseLiteral (by decide) h
        · split at h
          · obtain ⟨r, hr, heq⟩ := Option.map_eq_some_iff.mp h
            obtain rfl : r.2 = rest := congrArg Prod.snd heq
            exact (parseStringFrom_spec hr).2.trans (Nat.lt_succ_self _)
          · split at h
            · exact (length_parseObject hmembers h).trans (Nat.lt_succ_self _)
            · split at h
              · exact (length_parseArray helements h).trans (Nat.lt_succ_self _)
              · obtain ⟨r, hr, heq⟩ := Option.map_eq_some_iff.mp h
                obtain rfl : r.2 = rest := congrArg Prod.snd heq
                exact length_parseNumber hr

/-- Reading a value asks only how shorter texts are read. -/
theorem peekValue_congr
    (helements : ∀ text', text'.length < text.length → elements text' = elements' text')
    (hmembers : ∀ text', text'.length < text.length → members text' = members' text') :
    peekValue elements members text = peekValue elements' members' text := by
  cases text with
  | nil => rfl
  | cons c text =>
    have hlt : (skipWhitespace text).length < (c :: text).length :=
      (length_skipWhitespace_le text).trans_lt (Nat.lt_succ_self _)
    unfold peekValue parseArray parseObject
    dsimp only
    rw [helements _ hlt, hmembers _ hlt]

end Values

/-- Something is read off the text. -/
theorem length_parse (n : ℕ) :
    (∀ {text v rest}, parseValue n text = some (v, rest) → rest.length < text.length) ∧
      (∀ {text vs rest}, parseElements n text = some (vs, rest) → rest.length < text.length) ∧
        ∀ {text ms rest}, parseMembers n text = some (ms, rest) → rest.length < text.length := by
  induction n with
  | zero => exact ⟨fun h => (nomatch h), fun h => (nomatch h), fun h => (nomatch h)⟩
  | succ n ih =>
    obtain ⟨hvalue, helements, hmembers⟩ := ih
    refine ⟨fun h => ?_, fun h => ?_, fun h => ?_⟩
    · exact length_peekValue helements hmembers h
    · exact length_parseElement hvalue helements h
    · exact length_parseMember hvalue hmembers h

/-- Once the bound is twice the length of the text, one more makes no difference. -/
theorem parse_succ (n : ℕ) :
    (∀ text, 2 * text.length ≤ n → parseValue (n + 1) text = parseValue n text) ∧
      (∀ text, 2 * text.length < n → parseElements (n + 1) text = parseElements n text) ∧
        ∀ text, 2 * text.length < n → parseMembers (n + 1) text = parseMembers n text := by
  -- More steps than twice the length are never needed, as every value takes a character and each
  -- list one step more.
  induction n with
  | zero =>
    refine ⟨fun text h => ?_, fun text h => absurd h (Nat.not_lt_zero _),
      fun text h => absurd h (Nat.not_lt_zero _)⟩
    obtain rfl : text = [] := List.eq_nil_of_length_eq_zero (by omega)
    rfl
  | succ n ih =>
    obtain ⟨hvalue, helements, hmembers⟩ := ih
    have hshort : ∀ {text v rest}, parseValue (n + 1) text = some (v, rest) →
        rest.length < text.length := fun h => (length_parse (n + 1)).1 h
    refine ⟨fun text h => ?_, fun text h => ?_, fun text h => ?_⟩
    · exact peekValue_congr (fun text' hlt => helements text' (by omega))
        fun text' hlt => hmembers text' (by omega)
    · exact parseElement_congr (hvalue text (by omega)) hshort
        fun text' hlt => helements text' (by omega)
    · exact parseMember_congr (fun text' hlt => hvalue text' (by omega)) hshort
        fun text' hlt => hmembers text' (by omega)

/-- **The bound is high enough.** -/
theorem parseValue_eq_of_le {n : ℕ} (h : 2 * text.length ≤ n) :
    parseValue n text = parseValue (2 * text.length) text := by
  induction n, h using Nat.le_induction with
  | base => rfl
  | succ n hle ih => rw [(parse_succ n).1 text hle, ih]

end Bound

end OpenGeoBase
