import Mathlib.Data.List.Basic
import Mathlib.Data.List.DropRight
import Mathlib.Data.List.Infix
import Mathlib.Data.Rat.Floor
import Mathlib.Tactic.Common
import Mathlib.Tactic.Positivity
import Mathlib.Tactic.Ring

/-!
# Text

Text is a list of characters. Four pieces of text handling are shared by the
components of a distributed name space and developed here.

* Slash-separated paths: `path cs` writes `/c₁/…/cₙ`, `splitPath` cuts at every
  slash, and `splitPath_path` says the latter undoes the former for components
  without a slash in them.
* Parts: `splitText` cuts a text at the occurrences of another one, which undoes joining
  (`splitText_intercalate`).
* Replacement: `replaceAll` and `eraseAll` scan a text once, from left to right.
* Decimal literals: `toDecimal` prints a natural number, `padLeft` pads a text on
  the left, and `parseDouble` reads a signed decimal literal with an optional
  fraction, exponent and type suffix. `parseDouble_fraction` and
  `parseDouble_whole` give the value it reads off a sign, digits, and a point
  followed by digits.
-/

namespace Text

/-- A text. -/
abbrev Str := List Char

/-- Texts are compared character by character, wherever membership in a list is decided. -/
instance : LawfulBEq Str := inferInstance

/-! ### Paths -/

/-- The path `/c₁/…/cₙ`. -/
def path (cs : List Str) : Str := cs.flatMap fun c => '/' :: c

/-- The pieces of a text between its slashes, empty ones included. -/
def splitPath (s : Str) : List Str := s.splitOn '/'

/-- No slash occurs in the text. -/
def SlashFree (s : Str) : Prop := '/' ∉ s

instance (s : Str) : Decidable (SlashFree s) := inferInstanceAs (Decidable ('/' ∉ s))

/-- A path is its components between slashes, the first slash before all of them. -/
theorem path_eq_intercalate (cs : List Str) : path cs = ['/'].intercalate ([] :: cs) := by
  induction cs with
  | nil => rfl
  | cons c cs ih =>
    rw [path, List.flatMap_cons]
    cases cs with
    | nil => simp [List.intercalate]
    | cons d cs =>
      simp only [path, List.flatMap_cons] at ih ⊢
      simp [List.intercalate] at ih ⊢
      exact ih

/-- A path is split into its components, behind an empty piece. -/
theorem splitPath_path {cs : List Str} (h : ∀ c ∈ cs, SlashFree c) :
    splitPath (path cs) = [] :: cs := by
  unfold splitPath
  rw [path_eq_intercalate]
  refine List.splitOn_intercalate '/' ?_ (List.cons_ne_nil _ _)
  intro l hl
  rcases List.mem_cons.mp hl with rfl | hl
  · exact List.not_mem_nil
  · exact h l hl

/-- The pieces of a split text are slash-free. -/
theorem slashFree_of_mem_splitPath {s c : Str} (h : c ∈ splitPath s) : SlashFree c := by
  unfold splitPath at h
  induction s generalizing c with
  | nil =>
    obtain rfl : c = [] := by simpa using h
    exact List.not_mem_nil
  | cons x s ih =>
    rw [List.splitOn_cons_eq_if_modifyHead] at h
    -- at a slash a new component begins, otherwise the character joins the first one
    split at h
    · rcases List.mem_cons.mp h with rfl | h
      · exact List.not_mem_nil
      · exact ih h
    · next hx =>
      have hx' : '/' ≠ x := fun heq => hx (by simp [← heq])
      cases hs : s.splitOn '/' with
      | nil => exact absurd hs (List.splitOn_ne_nil '/' s)
      | cons d ds =>
        rw [hs, List.modifyHead_cons] at h
        rcases List.mem_cons.mp h with rfl | h
        -- the new character is no slash, the rest of the component has none by induction
        · intro hm
          rcases List.mem_cons.mp hm with hm | hm
          · exact hx' hm
          · exact ih (by rw [hs]; exact List.mem_cons_self) hm
        · exact ih (by rw [hs]; exact List.mem_cons_of_mem _ h)

/-- Paths over slash-free components are equal only component by component. -/
theorem path_injective {cs ds : List Str} (hc : ∀ c ∈ cs, SlashFree c)
    (hd : ∀ d ∈ ds, SlashFree d) (h : path cs = path ds) : cs = ds := by
  have h' := congrArg splitPath h
  rw [splitPath_path hc, splitPath_path hd] at h'
  exact (List.cons.inj h').2

/-- The piece before the first slash tells what the text starts with, up to there. -/
theorem prefix_iff_of_splitPath {k s c : Str} {cs : List Str} (hk : SlashFree k)
    (h : splitPath s = c :: cs) : k <+: s ↔ k <+: c := by
  induction s generalizing k c cs with
  | nil =>
    obtain ⟨rfl, -⟩ : [] = c ∧ [] = cs := by simpa [splitPath] using h
    rfl
  | cons x s ih =>
    cases k with
    | nil => exact iff_of_true List.nil_prefix List.nil_prefix
    | cons y k =>
      have hy : '/' ≠ y := fun hslash => hk (List.mem_cons.mpr (Or.inl hslash))
      have hk' : SlashFree k := fun hmem => hk (List.mem_cons_of_mem y hmem)
      unfold splitPath at h
      rw [List.splitOn_cons_eq_if_modifyHead] at h
      -- the key has no slash: at one it cannot match, and before it both sides read on together
      split at h
      · next hx =>
        obtain ⟨rfl, -⟩ := List.cons.inj h
        rw [List.cons_prefix_cons, List.prefix_nil]
        exact iff_of_false (fun heq => hy (heq.1.trans (by simpa using hx)).symm)
          (List.cons_ne_nil y k)
      · cases hs : s.splitOn '/' with
        | nil => exact absurd hs (List.splitOn_ne_nil '/' s)
        | cons d ds =>
          rw [hs, List.modifyHead_cons] at h
          obtain ⟨rfl, -⟩ := List.cons.inj h
          rw [List.cons_prefix_cons, List.cons_prefix_cons, ih hk' hs]

/-- A slash and what follows it occur in a text at the start of one of its components. -/
theorem slash_infix_iff {k s : Str} (hk : SlashFree k) :
    '/' :: k <:+: s ↔ ∃ c ∈ (splitPath s).tail, k <+: c := by
  induction s with
  | nil => simp [splitPath]
  | cons x s ih =>
    rw [List.infix_cons_iff, ih, List.cons_prefix_cons]
    cases hs : splitPath s with
    | nil => exact absurd hs (List.splitOn_ne_nil '/' s)
    | cons d ds =>
      -- a key right after a slash begins a component, and any component but the first is one
      have hsplit : splitPath (x :: s) =
          if (x == '/') = true then [] :: d :: ds else (x :: d) :: ds := by
        unfold splitPath at hs ⊢
        rw [List.splitOn_cons_eq_if_modifyHead, hs, List.modifyHead_cons]
      rw [hsplit, prefix_iff_of_splitPath hk hs]
      split
      · next hx =>
        have hx : '/' = x := by simpa using (beq_iff_eq.mp hx).symm
        rw [List.tail_cons, List.tail_cons, List.exists_mem_cons_iff]
        exact or_congr_left (and_iff_right hx)
      · next hx =>
        have hx : '/' ≠ x := fun heq => hx (beq_iff_eq.mpr heq.symm)
        rw [List.tail_cons, List.tail_cons]
        exact or_iff_right fun h => hx h.1

/-- A slash splits. -/
theorem splitPath_append_slash (s t : Str) :
    splitPath (s ++ '/' :: t) = splitPath s ++ splitPath t :=
  List.splitOn_append_cons_self s t

/-- Without a slash there is one piece. -/
theorem splitPath_of_slashFree {s : Str} (h : SlashFree s) : splitPath s = [s] :=
  List.splitOn_eq_singleton h

/-- `String.split` at slashes: empty parts at the end are left out. -/
def splitSlash (s : Str) : List Str :=
  if '/' ∈ s then (splitPath s).rdropWhile List.isEmpty else [s]

/-- The parts that `split` leaves are the first ones of all the parts. -/
theorem splitSlash_first_parts (s : Str) : splitSlash s <+: splitPath s := by
  unfold splitSlash
  split
  · exact List.rdropWhile_prefix _ _
  · next h => rw [splitPath_of_slashFree h]

/-- No piece has a slash. -/
theorem slashFree_of_mem_splitSlash {s part : Str} (h : part ∈ splitSlash s) : SlashFree part :=
  slashFree_of_mem_splitPath ((splitSlash_first_parts s).subset h)

/-- A path whose last part is not empty is split into its parts, behind the empty one before the
first slash. -/
theorem splitSlash_path {cs : List Str} {c : Str} (h : ∀ d ∈ cs ++ [c], SlashFree d)
    (hne : c ≠ []) : splitSlash (path (cs ++ [c])) = [] :: (cs ++ [c]) := by
  have hslash : '/' ∈ path (cs ++ [c]) := by
    refine List.mem_flatMap.mpr ⟨c, List.mem_append_right _ (List.mem_singleton_self c), ?_⟩
    exact List.mem_cons_self
  unfold splitSlash
  rw [if_pos hslash, splitPath_path h, ← List.cons_append]
  refine List.rdropWhile_concat_neg _ _ _ ?_
  rwa [List.isEmpty_iff]

/-! ### Search -/

/-- `std::string::find`: the position of the first occurrence of `pat`. -/
def find (pat : Str) : Str → Option ℕ
  | [] => if pat = [] then some 0 else none
  | c :: s => if pat <+: c :: s then some 0 else (find pat s).map Nat.succ

/-- What is not found does not occur. -/
theorem find_eq_none_iff {pat s : Str} : find pat s = none ↔ ¬pat <:+: s := by
  induction s with
  | nil =>
    unfold find
    rw [List.infix_nil]
    split
    · next h => exact iff_of_false (by simp) (not_not.mpr h)
    · next h => exact iff_of_true rfl h
  | cons c s ih =>
    unfold find
    rw [List.infix_cons_iff, not_or]
    split
    · next h => exact iff_of_false (by simp) fun hnot => hnot.1 h
    · next h => rw [Option.map_eq_none_iff, ih, and_iff_right h]

/-- The parts of a text between the occurrences of `pat`; `skip` characters of an occurrence are
still to be dropped. -/
def splitFrom (pat : Str) : ℕ → Str → List Str
  | _, [] => [[]]
  | skip + 1, _ :: s => splitFrom pat skip s
  | 0, c :: s =>
    if pat <+: c :: s then [] :: splitFrom pat (pat.length - 1) s
    else (splitFrom pat 0 s).modifyHead (c :: ·)

/-- `String.split` at a text: empty parts at the end are left out. -/
def splitText (pat s : Str) : List Str :=
  if pat <:+: s then (splitFrom pat 0 s).rdropWhile List.isEmpty else [s]

section Split

variable {c : Char} {pat s : Str} {parts : List Str}

/-- A text without the separator is one part. -/
theorem splitFrom_of_not_infix (h : ¬pat <:+: s) : splitFrom pat 0 s = [s] := by
  induction s with
  | nil => rfl
  | cons d s ih =>
    rw [List.infix_cons_iff, not_or] at h
    rw [splitFrom, if_neg h.1, ih h.2]
    rfl

/-- A text without the first character of the separator is one piece. -/
theorem splitFrom_of_not_mem (h : c ∉ s) : splitFrom (c :: pat) 0 s = [s] :=
  splitFrom_of_not_infix fun hpat => h (hpat.subset List.mem_cons_self)

/-- What is left of an occurrence is dropped. -/
theorem splitFrom_skip (pat u t : Str) : splitFrom pat u.length (u ++ t) = splitFrom pat 0 t := by
  induction u with
  | nil => rfl
  | cons d u ih => exact ih

/-- The first part ends at the first separator. -/
theorem splitFrom_append (h : c ∉ s) (t : Str) :
    splitFrom (c :: pat) 0 (s ++ (c :: pat ++ t)) = s :: splitFrom (c :: pat) 0 t := by
  induction s with
  | nil =>
    rw [List.nil_append, List.cons_append, splitFrom, if_pos ⟨t, rfl⟩, List.length_cons,
      Nat.add_sub_cancel, splitFrom_skip]
  | cons d s ih =>
    rw [List.mem_cons, not_or] at h
    rw [List.cons_append, splitFrom, if_neg, ih h.2]
    · rfl
    · intro hprefix
      exact h.1 (List.cons_prefix_cons.mp hprefix).1

/-- Parts between separators are split into the parts. -/
theorem splitFrom_intercalate (hne : parts ≠ []) (h : ∀ part ∈ parts, c ∉ part) :
    splitFrom (c :: pat) 0 ((c :: pat).intercalate parts) = parts := by
  induction parts with
  | nil => exact absurd rfl hne
  | cons part parts ih =>
    have hpart := h part List.mem_cons_self
    cases parts with
    | nil => rw [List.intercalate_singleton, splitFrom_of_not_mem hpart]
    | cons next parts =>
      rw [List.intercalate_cons_cons, List.append_assoc, splitFrom_append hpart,
        ih (List.cons_ne_nil _ _) fun p hp => h p (List.mem_cons_of_mem _ hp)]

/-- **Cutting undoes joining**, for parts that are there and have no first character of a separator
in them. -/
theorem splitText_intercalate (hne : parts ≠ []) (h : ∀ part ∈ parts, c ∉ part ∧ part ≠ []) :
    splitText (c :: pat) ((c :: pat).intercalate parts) = parts := by
  have hsplit := @splitFrom_intercalate c pat _ hne fun part hpart => (h part hpart).1
  unfold splitText
  split
  · rw [hsplit, List.rdropWhile_eq_self_iff]
    intro _ hempty
    exact (h _ (List.getLast_mem hne)).2 (List.isEmpty_iff.mp hempty)
  · next hinfix => rw [← splitFrom_of_not_infix hinfix, hsplit]

/-- A character of a joined text is one of a part or of the separator. -/
theorem mem_intercalate {sep : Str} (h : c ∈ sep.intercalate parts) :
    c ∈ sep ∨ ∃ part ∈ parts, c ∈ part := by
  induction parts with
  | nil => exact absurd h List.not_mem_nil
  | cons part parts ih =>
    cases parts with
    | nil =>
      rw [List.intercalate_singleton] at h
      exact Or.inr ⟨part, List.mem_cons_self, h⟩
    | cons next parts =>
      rw [List.intercalate_cons_cons, List.mem_append, List.mem_append] at h
      rcases h with (h | h) | h
      · exact Or.inr ⟨part, List.mem_cons_self, h⟩
      · exact Or.inl h
      · exact (ih h).imp_right fun ⟨p, hp, hc⟩ => ⟨p, List.mem_cons_of_mem _ hp, hc⟩

/-- One part more is joined to the end. -/
theorem intercalate_concat (sep : Str) (hne : parts ≠ []) (part : Str) :
    sep.intercalate (parts ++ [part]) = sep.intercalate parts ++ (sep ++ part) := by
  induction parts with
  | nil => exact absurd rfl hne
  | cons first parts ih =>
    cases parts with
    | nil => simp
    | cons next parts =>
      rw [List.cons_append, List.intercalate_cons_of_ne_nil (by simp), ih (List.cons_ne_nil _ _),
        List.intercalate_cons_cons, List.append_assoc, List.append_assoc, List.append_assoc]

/-- A part is no longer than the joined text. -/
theorem length_le_intercalate {part : Str} (sep : Str) (h : part ∈ parts) :
    part.length ≤ (sep.intercalate parts).length := by
  induction parts with
  | nil => exact absurd h List.not_mem_nil
  | cons first parts ih =>
    cases parts with
    | nil => rw [List.intercalate_singleton, List.mem_singleton.mp h]
    | cons next parts =>
      rw [List.intercalate_cons_cons, List.length_append, List.length_append]
      rcases List.mem_cons.mp h with rfl | h
      · omega
      · have hrest := ih h
        omega

end Split

/-! ### Replacement -/

/-- The loop of `replaceAll`; `skip` characters of an occurrence are still to be dropped. -/
def replaceFrom (pat rep : Str) : ℕ → Str → Str
  | _, [] => []
  | skip + 1, _ :: s => replaceFrom pat rep skip s
  | 0, c :: s =>
    if pat ≠ [] ∧ pat <+: c :: s then rep ++ replaceFrom pat rep (pat.length - 1) s
    else c :: replaceFrom pat rep 0 s

/-- Every occurrence of `pat` replaced by `rep`, from left to right and without overlaps. -/
def replaceAll (pat rep s : Str) : Str := replaceFrom pat rep 0 s

/-- Every occurrence of `pat` taken out. -/
def eraseAll (pat s : Str) : Str := replaceAll pat [] s

example : eraseAll "ab".toList "xababyb".toList = "xyb".toList := by decide

section Replace

variable {pat rep s : Str}

/-- A character at which no occurrence begins stays. -/
theorem replaceAll_cons {c : Char} (h : ¬pat <+: c :: s) :
    replaceAll pat rep (c :: s) = c :: replaceAll pat rep s := by
  unfold replaceAll
  rw [replaceFrom, if_neg fun hprefix => h hprefix.2]

private theorem replaceFrom_length (rep t : Str) :
    replaceFrom pat rep s.length (s ++ t) = replaceFrom pat rep 0 t := by
  induction s with
  | nil => rfl
  | cons c s ih => exact ih

/-- An occurrence is replaced. -/
theorem replaceAll_pattern (h : pat ≠ []) (t : Str) :
    replaceAll pat rep (pat ++ t) = rep ++ replaceAll pat rep t := by
  obtain ⟨c, s, rfl⟩ := List.exists_cons_of_ne_nil h
  have hprefix : c :: s <+: c :: (s ++ t) := List.prefix_append (c :: s) t
  unfold replaceAll
  rw [List.cons_append, replaceFrom, if_pos ⟨h, hprefix⟩]
  exact congrArg _ (replaceFrom_length rep t)

end Replace

/-- Taking `pat` out of a text that starts with `s` leaves `s'` of it. -/
def Erases (pat s s' : Str) : Prop := ∀ t, eraseAll pat (s ++ t) = s' ++ eraseAll pat t

section Erases

variable {pat s s' u u' : Str}

/-- What erasing comes to is the text without the pattern. -/
theorem Erases.eq (h : Erases pat s s') : eraseAll pat s = s' := by
  have h' := h []
  rwa [List.append_nil, show eraseAll pat [] = [] from rfl, List.append_nil] at h'

theorem Erases.nil : Erases pat [] [] := fun _ => rfl

/-- Two texts are erased one after the other if no occurrence is across them. -/
theorem Erases.append (h : Erases pat s s') (h' : Erases pat u u') :
    Erases pat (s ++ u) (s' ++ u') := by
  intro t
  rw [List.append_assoc, h, h', List.append_assoc]

/-- An occurrence goes. -/
theorem Erases.pattern (h : pat ≠ []) : Erases pat pat [] := replaceAll_pattern h

/-- What does not contain the first character stays. -/
theorem Erases.of_not_mem {c : Char} (h : c ∉ s) : Erases (c :: pat) s s := by
  intro t
  induction s with
  | nil => rfl
  | cons d s ih =>
    rw [List.mem_cons, not_or] at h
    unfold eraseAll at ih ⊢
    rw [List.cons_append, replaceAll_cons, ih h.2]
    · rfl
    · intro hprefix
      exact h.1 (List.cons_prefix_cons.mp hprefix).1

/-- A list with something in between is erased if its parts are. -/
theorem Erases.intercalate {α : Type} {f g : α → Str} {xs : List α} (hsep : Erases pat u u')
    (h : ∀ x ∈ xs, Erases pat (f x) (g x)) :
    Erases pat (u.intercalate (xs.map f)) (u'.intercalate (xs.map g)) := by
  match xs with
  | [] => exact Erases.nil
  | [x] => simpa [List.intercalate] using h x List.mem_cons_self
  | x :: y :: xs =>
    have hrest : Erases pat (u.intercalate ((y :: xs).map f)) (u'.intercalate ((y :: xs).map g)) :=
      Erases.intercalate hsep fun z hz => h z (List.mem_cons_of_mem x hz)
    have hsplit : ∀ (v : Str) (k : α → Str), v.intercalate ((x :: y :: xs).map k) =
        k x ++ (v ++ v.intercalate ((y :: xs).map k)) := by
      intro v k
      simp [List.intercalate]
    rw [hsplit, hsplit]
    exact (h x List.mem_cons_self).append (hsep.append hrest)

end Erases

/-! ### Decimal literals -/

/-- The decimal digits of a natural number. -/
def toDecimal (n : ℕ) : Str := Nat.toDigits 10 n

/-- The decimal form of an integer. -/
def toDecimalInt (z : ℤ) : Str := if z < 0 then '-' :: toDecimal z.natAbs else toDecimal z.natAbs

/-- `s` filled up with `c` on the left to a width of at least `w`. -/
def padLeft (c : Char) (w : ℕ) (s : Str) : Str := List.replicate (w - s.length) c ++ s

/-- All characters are decimal digits. -/
def IsDigits (s : Str) : Prop := ∀ c ∈ s, c.isDigit = true

/-- A number is printed in digits. -/
theorem isDigits_toDecimal (n : ℕ) : IsDigits (toDecimal n) :=
  fun _ hc => Nat.isDigit_of_mem_toDigits (by decide) (by decide) hc

/-- Zeros in front are digits, too. -/
theorem IsDigits.padLeft {s : Str} (h : IsDigits s) (w : ℕ) : IsDigits (padLeft '0' w s) := by
  intro c hc
  rcases List.mem_append.mp hc with hc | hc
  · rw [List.eq_of_mem_replicate hc]
    decide
  · exact h c hc

/-- Digits behind digits are digits. -/
theorem IsDigits.append {s t : Str} (hs : IsDigits s) (ht : IsDigits t) : IsDigits (s ++ t) :=
  fun c hc => (List.mem_append.mp hc).elim (hs c) (ht c)

/-- Digits have no slash. -/
theorem IsDigits.slashFree {s : Str} (h : IsDigits s) : SlashFree s := fun hm => by
  have := h '/' hm
  revert this
  decide

/-- A number below ten has one digit. -/
theorem toDecimal_of_lt_ten {n : ℕ} (h : n < 10) : toDecimal n = [n.digitChar] :=
  Nat.toDigits_of_lt_base h

/-- Every number is printed. -/
theorem toDecimal_ne_nil (n : ℕ) : toDecimal n ≠ [] := Nat.toDigits_ne_nil

/-- The natural number a digit sequence denotes. -/
def digitsValue (s : Str) : ℕ := Nat.ofDigitChars 10 s 0

@[simp] theorem digitsValue_toDecimal (n : ℕ) : digitsValue (toDecimal n) = n :=
  Nat.ofDigitChars_ten_toDigits

/-- What the digits in front stand for is shifted by the digits behind. -/
theorem digitsValue_append (s t : Str) :
    digitsValue (s ++ t) = 10 ^ t.length * digitsValue s + digitsValue t := by
  unfold digitsValue
  rw [Nat.ofDigitChars_append, Nat.ofDigitChars_eq_ofDigitChars_zero]

@[simp] theorem digitsValue_padLeft (w : ℕ) (s : Str) :
    digitsValue (padLeft '0' w s) = digitsValue s := by
  unfold padLeft
  rw [digitsValue_append]
  simp [digitsValue, Nat.ofDigitChars_replicate_zero]

/-- A digit stands for its number. -/
theorem digitsValue_digitChar {n : ℕ} (h : n < 10) : digitsValue [n.digitChar] = n := by
  simp [digitsValue, Nat.ofDigitChars_cons_digitChar_of_lt_ten h]

/-- The sign in front of a literal, and what follows it. -/
def readSign : Str → Bool × Str
  | '-' :: s => (true, s)
  | '+' :: s => (false, s)
  | s => (false, s)

/-- The digits after a decimal point, if there is one, and what follows them. -/
def readFraction : Str → Str × Str
  | '.' :: s => s.span Char.isDigit
  | s => ([], s)

/-- The exponent part, if there is one, and what follows it. -/
def readExponent : Str → Option (ℤ × Str)
  | c :: s =>
    if c = 'e' ∨ c = 'E' then
      let (neg, s) := readSign s
      let (ds, s) := s.span Char.isDigit
      if ds = [] then none
      else some (if neg then -(digitsValue ds : ℤ) else digitsValue ds, s)
    else some (0, c :: s)
  | [] => some (0, [])

/-- `s` without the blanks and control characters at its ends. -/
def trim (s : Str) : Str := ((s.dropWhile (· ≤ ' ')).reverse.dropWhile (· ≤ ' ')).reverse

/-- `Double.parseDouble` on decimal literals, with exact values. Hexadecimal
literals, `NaN` and the infinities are not decimal and are rejected here. -/
def parseDouble (s : Str) : Option ℚ :=
  let (neg, s) := readSign (trim s)
  let (ip, s) := s.span Char.isDigit
  let (fp, s) := readFraction s
  if ip = [] ∧ fp = [] then none
  else
    match readExponent s with
    | none => none
    | some (e, s) =>
      if s = [] ∨ s = ['f'] ∨ s = ['F'] ∨ s = ['d'] ∨ s = ['D'] then
        let m : ℚ := digitsValue (ip ++ fp) / 10 ^ fp.length * (10 : ℚ) ^ e
        some (if neg then -m else m)
      else none

/-- A minus sign, or nothing. -/
def sign (neg : Bool) : Str := if neg then ['-'] else []

/-- `q`, or `-q` behind a minus sign. -/
def signed (neg : Bool) (q : ℚ) : ℚ := if neg then -q else q

/-- There is nothing to trim between two characters that are no blanks. -/
theorem trim_eq_self_of_ends {s : Str} (hhead : ∀ c ∈ s.head?, ¬c ≤ ' ')
    (hlast : ∀ c ∈ s.getLast?, ¬c ≤ ' ') : trim s = s := by
  have hdrop : ∀ t : Str, (∀ c ∈ t.head?, ¬c ≤ ' ') → t.dropWhile (· ≤ ' ') = t := by
    intro t ht
    cases t with
    | nil => rfl
    | cons c t => exact List.dropWhile_cons_of_neg (by simpa using ht c rfl)
  unfold trim
  rw [hdrop s hhead, hdrop s.reverse (by rwa [List.head?_reverse]), List.reverse_reverse]

/-- A text without blanks is not trimmed. -/
theorem trim_eq_self {s : Str} (h : ∀ c ∈ s, ¬c ≤ ' ') : trim s = s :=
  trim_eq_self_of_ends (fun c hc => h c (List.mem_of_head? hc))
    fun c hc => h c (List.mem_of_getLast? hc)

/-- What comes after the blank is not blank. -/
theorem not_blank_of_lt {c : Char} (h : ' '.toNat < c.toNat) : ¬c ≤ ' ' := by
  intro hle
  exact absurd (UInt32.le_iff_toNat_le.mp hle) (Nat.not_le.mpr h)

/-- A digit is no blank. -/
theorem not_blank_of_isDigit {c : Char} (h : c.isDigit = true) : ¬c ≤ ' ' := by
  have hdigit : 48 ≤ c.val.toNat := by
    simp only [Char.isDigit, Bool.and_eq_true, decide_eq_true_eq] at h
    exact h.1
  exact not_blank_of_lt (Nat.lt_of_lt_of_le (by decide) hdigit)

/-- A sign in front of digits is read back. -/
theorem readSign_sign (neg : Bool) {s : Str} (h : IsDigits s) (hne : s ≠ []) (t : Str) :
    readSign (sign neg ++ (s ++ t)) = (neg, s ++ t) := by
  -- without a sign the first digit is neither `-` nor `+`
  cases neg with
  | true => rfl
  | false =>
    cases s with
    | nil => exact absurd rfl hne
    | cons c s =>
      have hc := h c List.mem_cons_self
      simp only [sign, Bool.false_eq_true, ↓reduceIte, List.nil_append, List.cons_append]
      unfold readSign
      split
      · next heq =>
        rw [(List.cons.inj heq).1] at hc
        exact absurd hc (by decide)
      · next heq =>
        rw [(List.cons.inj heq).1] at hc
        exact absurd hc (by decide)
      · rfl

/-- The digits end where the other text begins. -/
theorem span_digits {s t : Str} (h : IsDigits s) (ht : ∀ c ∈ t.head?, c.isDigit = false) :
    (s ++ t).span Char.isDigit = (s, t) := by
  rw [List.span_eq_takeWhile_dropWhile, List.takeWhile_append_of_pos h,
    List.dropWhile_append_of_pos h]
  cases t with
  | nil => simp
  | cons c t => simp [ht c (by simp)]

/-- The value read off a sign, digits, a point and more digits. -/
theorem parseDouble_fraction (neg : Bool) {ip fp : Str} (hi : IsDigits ip) (hne : ip ≠ [])
    (hf : IsDigits fp) : parseDouble (sign neg ++ (ip ++ '.' :: fp)) =
      some (signed neg (digitsValue (ip ++ fp) / 10 ^ fp.length)) := by
  -- no character of the text is blank, so trimming does nothing
  have htrim : trim (sign neg ++ (ip ++ '.' :: fp)) = sign neg ++ (ip ++ '.' :: fp) := by
    refine trim_eq_self fun c hc => ?_
    rcases List.mem_append.mp hc with hc | hc
    · cases neg
      · simp [sign] at hc
      · obtain rfl : c = '-' := by simpa [sign] using hc
        decide
    · rcases List.mem_append.mp hc with hc | hc
      · exact not_blank_of_isDigit (hi c hc)
      · rcases List.mem_cons.mp hc with rfl | hc
        · decide
        · exact not_blank_of_isDigit (hf c hc)
  have hfrac : readFraction ('.' :: fp) = (fp, []) := by
    have := span_digits (t := []) hf (by simp)
    rwa [List.append_nil] at this
  unfold parseDouble
  rw [htrim, readSign_sign neg hi hne]
  simp only
  rw [span_digits hi (by simp)]
  simp only
  rw [hfrac]
  simp [hne, readExponent, signed]

/-- The value read off a sign and digits. -/
theorem parseDouble_whole (neg : Bool) {ip : Str} (hi : IsDigits ip) (hne : ip ≠ []) :
    parseDouble (sign neg ++ ip) = some (signed neg (digitsValue ip)) := by
  -- a sign and digits have no blanks to trim
  have htrim : trim (sign neg ++ ip) = sign neg ++ ip := by
    refine trim_eq_self fun c hc => ?_
    rcases List.mem_append.mp hc with hc | hc
    · cases neg
      · simp [sign] at hc
      · obtain rfl : c = '-' := by simpa [sign] using hc
        decide
    · exact not_blank_of_isDigit (hi c hc)
  have hsign := readSign_sign neg hi hne []
  have hspan := span_digits (t := []) hi (by simp)
  rw [List.append_nil] at hsign hspan
  unfold parseDouble
  rw [htrim, hsign]
  simp only
  rw [hspan]
  simp [readFraction, hne, readExponent, signed]

end Text
