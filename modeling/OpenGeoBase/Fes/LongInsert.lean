import OpenGeoBase.Fes.JsonWriter
import OpenGeoBase.Repo.ObjectStore

/-!
# Inserting a long object

An object that does not fit in one packet is sent as a JSON document. Its content is the text of a
second document, in which the object and its name stand; its segments are the packets. The
repository parses the first document, replaces each `\"` in the text of the content by `"`, and
parses what it gets (`contentJson`).

To parse the first document takes its escapes away, so what the replacement meets are the escapes
of the second one. In front of a quote inside a string it takes the backslash off, and the string
ends there. Behind a string that ends with a backslash it takes one off as well, and the string
goes on past its closing quote. All other strings stay (`Survives`), and with them what is written
between them, so the object comes back if and only if all its strings are of this kind
(`obtains_iff`).
-/

namespace OpenGeoBase

open Text

/-! ### The front end -/

section FrontEnd

variable (number : ℚ → Str)

/-- The map `contentMap` of `ExecutionTaskInsert.run`. It is gone through by the hashes of its keys,
and that puts the reference in front. -/
def contentObject (objectName : Str) (executionParamsContent : Value) : Value :=
  .object [("reference".toList, .string objectName), ("content".toList, executionParamsContent)]

/-- The text of the content, from `ExecutionTaskInsert.run`. -/
def contentText (objectName : Str) (executionParamsContent : Value) : Str :=
  writeValue number (contentObject objectName executionParamsContent)

/-- The document that `HttpInsertion` sends, with the packets in base64. -/
def HttpInsertion (contentObjectList : List (List ℕ)) (content : Str) : Str :=
  writeValue number <| .object
    [("content".toList, .string content),
      ("segments".toList, .array (contentObjectList.map fun segment =>
        .string (base64_encode segment)))]

end FrontEnd

/-! ### The repository -/

/-- The parser of the library, on exact numbers. -/
structure ExactJson (lib : StorageLibrary) : Prop where
  parse : ∀ text, lib.parse text = parseDocument false text
  parseStopWhenDone : ∀ text, lib.parseStopWhenDone text = parseDocument true text

/-- `insertLongData` gets the object `g` with the reference `r` out of a document. -/
def Obtains (lib : StorageLibrary) (data_string : Str) (g : Value) (r : Str) : Prop :=
  ∃ content_json name,
    (lib.parseStopWhenDone data_string).bind (contentJson lib) = some (content_json, r, name) ∧
      content_json.member? "content".toList = some g

/-- The replacement in `insertLongData`. -/
def deEscaped (text : Str) : Str := replaceAll "\\\"".toList "\"".toList text

/-! ### The replacement -/

section Replacement

variable {s t text : Str} {c : Char}

/-- A character that is no backslash stays. -/
theorem deEscaped_cons (h : c ≠ '\\') : deEscaped (c :: text) = c :: deEscaped text :=
  replaceAll_cons fun hprefix => h (List.cons_prefix_cons.mp hprefix).1.symm

/-- A backslash stays, unless a quote follows it. -/
theorem deEscaped_backslash (h : text.head? ≠ some '"') :
    deEscaped ('\\' :: text) = '\\' :: deEscaped text := by
  refine replaceAll_cons fun hprefix => h ?_
  obtain ⟨u, hu⟩ := (List.cons_prefix_cons.mp hprefix).2
  rw [← hu]
  rfl

theorem deEscaped_quote : deEscaped ('\\' :: '"' :: text) = '"' :: deEscaped text :=
  replaceAll_pattern (by decide) text

/-- The replacement leaves the text alone, whatever follows it. -/
def Stays (s : Str) : Prop := ∀ text, deEscaped (s ++ text) = s ++ deEscaped text

/-- The empty text stays. -/
theorem Stays.nil : Stays [] := fun _ => rfl

theorem Stays.eq (h : Stays s) : deEscaped s = s := by
  have h' := h []
  rwa [List.append_nil, show deEscaped [] = [] from rfl, List.append_nil] at h'

theorem Stays.append (hs : Stays s) (ht : Stays t) : Stays (s ++ t) := by
  intro text
  rw [List.append_assoc, hs, ht, List.append_assoc]

theorem Stays.cons (h : c ≠ '\\') (hs : Stays s) : Stays (c :: s) := by
  intro text
  rw [List.cons_append, deEscaped_cons h, hs]
  rfl

/-- Without a backslash there is nothing to remove. -/
theorem Stays.of_not_mem (h : '\\' ∉ s) : Stays s := by
  induction s with
  | nil => exact Stays.nil
  | cons c s ih =>
    rw [List.mem_cons, not_or] at h
    exact (ih h.2).cons (Ne.symm h.1)

/-- What is written for a control character has no backslash but its first. -/
theorem stays_writeControl (h : c < ' ') : Stays (writeControl c) := by
  intro text
  obtain ⟨k, hk, rfl⟩ := exists_ofNat_of_control h
  interval_cases k <;> rfl

/-- A backslash that is written twice stays, unless a quote follows the second one. -/
theorem deEscaped_writeChar (hquote : c ≠ '"') (hnext : c = '\\' → text.head? ≠ some '"') :
    deEscaped (writeChar c ++ text) = writeChar c ++ deEscaped text := by
  unfold writeChar
  by_cases hbackslash : c = '\\'
  · subst hbackslash
    have hsecond : deEscaped ('\\' :: text) = '\\' :: deEscaped text :=
      deEscaped_backslash (hnext rfl)
    show deEscaped ('\\' :: '\\' :: text) = '\\' :: '\\' :: deEscaped text
    rw [deEscaped_backslash (by simp), hsecond]
  · rw [if_neg (not_or.mpr ⟨hquote, hbackslash⟩)]
    split
    · next hcontrol => exact stays_writeControl hcontrol text
    · exact deEscaped_cons hbackslash

/-- What is written for a character does not begin with a quote. -/
theorem head?_writeChar (c : Char) (text : Str) : (writeChar c ++ text).head? ≠ some '"' := by
  unfold writeChar
  -- An escape begins with a backslash, and a plain character is no quote.
  split
  · intro h
    exact absurd (Option.some.inj h) (by decide)
  · next hplain =>
    rw [not_or] at hplain
    split
    · next hcontrol =>
      obtain ⟨k, hk, rfl⟩ := exists_ofNat_of_control hcontrol
      interval_cases k <;> exact fun h => absurd (Option.some.inj h) (by decide)
    · intro h
      exact hplain.1 (Option.some.inj h)

/-- A string without a quote stays, unless it ends with a backslash and a quote follows it. -/
theorem deEscaped_writeChars (hquote : '"' ∉ s)
    (hend : s.getLast? = some '\\' → text.head? ≠ some '"') :
    deEscaped (writeChars s ++ text) = writeChars s ++ deEscaped text := by
  induction s with
  | nil => rfl
  | cons c s ih =>
    rw [List.mem_cons, not_or] at hquote
    -- The characters are written one after the other.
    have hchars : ∀ u, writeChars (c :: s) ++ u = writeChar c ++ (writeChars s ++ u) := by
      intro u
      unfold writeChars
      rw [List.flatMap_cons, List.append_assoc]
    rw [hchars, hchars, deEscaped_writeChar (Ne.symm hquote.1), ih hquote.2]
    · intro hlast
      refine hend ?_
      cases s with
      | nil => exact nomatch hlast
      | cons d s => rwa [List.getLast?_cons_cons]
    · -- what follows the character is the next one, or the end
      rintro rfl
      cases s with
      | nil => exact hend rfl
      | cons d s =>
        unfold writeChars
        rw [List.flatMap_cons, List.append_assoc]
        exact head?_writeChar d _

end Replacement

/-! ### The strings that survive -/

/-- The replacement does nothing to the string. -/
def Survives (s : Str) : Prop := '"' ∉ s ∧ s.getLast? ≠ some '\\'

instance (s : Str) : Decidable (Survives s) := inferInstanceAs (Decidable (_ ∧ _))

/-- A string that survives is written so that nothing of it is removed. -/
theorem Survives.stays {s : Str} (h : Survives s) : Stays (writeString s) := by
  intro text
  have hquote : deEscaped ('"' :: text) = '"' :: deEscaped text := deEscaped_cons (by decide)
  have hchars :
      deEscaped (writeChars s ++ '"' :: text) = writeChars s ++ '"' :: deEscaped text := by
    rw [deEscaped_writeChars h.1 (fun hlast => absurd hlast h.2), hquote]
  show deEscaped ('"' :: (writeChars s ++ ['"'] ++ text)) = '"' :: (writeChars s ++ ['"'] ++ _)
  rw [deEscaped_cons (by decide), List.append_assoc, List.append_assoc]
  exact congrArg _ hchars

/-- **A string that is read back has survived.** -/
theorem survives_of_parseString {s text rest : Str}
    (h : parseString (deEscaped (writeChars s ++ '"' :: text)) = some (s, rest)) : Survives s := by
  have hquote : '"' ∉ s := by
    intro hmem
    obtain ⟨p, q, rfl, hp⟩ := List.eq_append_cons_of_mem hmem
    -- the string ends at its first quote
    have hchars : writeChars (p ++ '"' :: q) ++ '"' :: text =
        writeChars p ++ '\\' :: '"' :: (writeChars q ++ '"' :: text) := by
      simp [writeChars, writeChar]
    rw [hchars, deEscaped_writeChars hp (fun _ => by simp), deEscaped_quote,
      parseString_writeString] at h
    have heq : p = p ++ '"' :: q := congrArg Prod.fst (Option.some.inj h)
    exact absurd (List.self_eq_append_right.mp heq) (List.cons_ne_nil _ _)
  refine ⟨hquote, fun hlast => ?_⟩
  obtain ⟨p, rfl⟩ := List.getLast?_eq_some_iff.mp hlast
  -- a quote is read in the place of the backslash
  have hchars : writeChars (p ++ ['\\']) ++ '"' :: text =
      writeChars p ++ '\\' :: '\\' :: '"' :: text := by
    simp [writeChars, writeChar]
  have hp : '"' ∉ p := fun hmem => hquote (List.mem_append_left _ hmem)
  rw [hchars, deEscaped_writeChars hp (fun _ => by simp), deEscaped_backslash (by simp),
    deEscaped_quote] at h
  unfold parseString at h
  rw [parseStringFrom_writeChars] at h
  change parseStringFrom .plain (p ++ ['"']) (deEscaped text) = _ at h
  have hprefix := (parseStringFrom_spec h).1
  exact absurd ((List.prefix_append_right_inj p).mp hprefix) (by decide)

/-! ### The values that survive -/

/-- All strings of the value survive. -/
def Value.Clean (v : Value) : Prop := ∀ s ∈ v.strings, Survives s

section Values

variable {number : ℚ → Str}

/-- There is no backslash in a number. -/
theorem WritesNumber.stays {q : ℚ} (h : WritesNumber number q) : Stays (number q) := by
  refine Stays.of_not_mem fun hmem => ?_
  exact absurd (h.plain '\\' hmem) (by decide)

/-- The elements behind the first one stand behind a comma. -/
theorem Stays.moreElements {vs : List Value} (h : Stays (writeElements number vs)) :
    Stays (writeMoreElements number vs) := by
  cases vs with
  | nil => exact Stays.nil
  | cons v vs => exact h.cons (by decide)

/-- The members behind the first one stand behind a comma. -/
theorem Stays.moreMembers {ms : List (Str × Value)} (h : Stays (writeMembers number ms)) :
    Stays (writeMoreMembers number ms) := by
  cases ms with
  | nil => exact Stays.nil
  | cons m ms => exact h.cons (by decide)

mutual

/-- What is written for a value of which all strings survive stays. -/
theorem stays_writeValue : ∀ v : Value, (∀ q ∈ v.numbers, WritesNumber number q) →
    (∀ s ∈ v.strings, Survives s) → Stays (writeValue number v)
  | .null, _, _ => Stays.of_not_mem (s := "null".toList) (by decide)
  | .bool true, _, _ => Stays.of_not_mem (s := "true".toList) (by decide)
  | .bool false, _, _ => Stays.of_not_mem (s := "false".toList) (by decide)
  | .number q, hv, _ => (hv q List.mem_cons_self).stays
  | .string s, _, hs => (hs s List.mem_cons_self).stays
  | .array vs, hv, hs =>
    ((stays_writeElements vs hv hs).append (Stays.of_not_mem (by decide))).cons (by decide)
  | .object ms, hv, hs =>
    ((stays_writeMembers ms hv hs).append (Stays.of_not_mem (by decide))).cons (by decide)

/-- The elements of a clean array stay as they are written. -/
theorem stays_writeElements : ∀ vs : List Value,
    (∀ q ∈ Value.numbersOfElements vs, WritesNumber number q) →
      (∀ s ∈ Value.stringsOfElements vs, Survives s) → Stays (writeElements number vs)
  | [], _, _ => Stays.nil
  | v :: vs, hvs, hs =>
    have hv : Stays (writeValue number v) :=
      stays_writeValue v (fun q hq => hvs q (List.mem_append_left _ hq))
        fun s hmem => hs s (List.mem_append_left _ hmem)
    have hrest : Stays (writeElements number vs) :=
      stays_writeElements vs (fun q hq => hvs q (List.mem_append_right _ hq))
        fun s hmem => hs s (List.mem_append_right _ hmem)
    hv.append hrest.moreElements

/-- The members of a clean object stay as they are written. -/
theorem stays_writeMembers : ∀ ms : List (Str × Value),
    (∀ q ∈ Value.numbersOfMembers ms, WritesNumber number q) →
      (∀ s ∈ Value.stringsOfMembers ms, Survives s) → Stays (writeMembers number ms)
  | [], _, _ => Stays.nil
  | (name, v) :: ms, hms, hs =>
    have hname : Stays (writeString name) := (hs name List.mem_cons_self).stays
    have hv : Stays (writeValue number v) :=
      stays_writeValue v (fun q hq => hms q (List.mem_append_left _ hq))
        fun s hmem => hs s (List.mem_cons_of_mem _ (List.mem_append_left _ hmem))
    have hrest : Stays (writeMembers number ms) :=
      stays_writeMembers ms (fun q hq => hms q (List.mem_append_right _ hq))
        fun s hmem => hs s (List.mem_cons_of_mem _ (List.mem_append_right _ hmem))
    hname.append ((hv.append hrest.moreMembers).cons (by decide))

end

variable {text rest : Str} {n : ℕ}

/-- De-escaping does not touch how a value begins. -/
theorem beginsValue_deEscaped (h : BeginsValue text) : BeginsValue (deEscaped text) := by
  obtain ⟨c, s, rfl, hc⟩ := h
  have hbackslash : c ≠ '\\' := ne_of_beginsValue hc (by decide) (by decide)
  exact ⟨c, deEscaped s, deEscaped_cons hbackslash, hc⟩

/-- De-escaping leaves what ends a number, so a number is read to the same place. -/
theorem numberEnd_deEscaped (h : NumberEnd text) : NumberEnd (deEscaped text) := by
  cases text with
  | nil => exact h
  | cons c text =>
    by_cases hbackslash : c = '\\'
    · subst hbackslash
      -- the first character is the backslash or the quote behind it
      by_cases hquote : text.head? = some '"'
      · obtain ⟨text, rfl⟩ := List.head?_eq_some_iff.mp hquote
        rw [deEscaped_quote]
        exact fun d hd => Option.some.inj hd ▸ by decide
      · rw [deEscaped_backslash hquote]
        exact h
    · rw [deEscaped_cons hbackslash]
      exact h

/-- Behind a value of which all strings survive, the reader is at what follows it. -/
theorem rest_of_parseValue {v v' : Value} (hv : ∀ q ∈ v.numbers, WritesNumber number q)
    (hclean : ∀ s ∈ v.strings, Survives s) (hend : NumberEnd text)
    (hn : 2 * (deEscaped (writeValue number v ++ text)).length ≤ n)
    (h : parseValue n (deEscaped (writeValue number v ++ text)) = some (v', rest)) :
    rest = deEscaped text := by
  rw [stays_writeValue v hv hclean] at h hn
  have hwrite := parseValue_write n v hv (numberEnd_deEscaped hend) hn
  exact congrArg Prod.snd (Option.some.inj (h.symm.trans hwrite))

/-- The items begin with the one at hand. -/
theorem exists_of_parseNext {α : Type} {close : Char} {items : Str → Option (List α × Str)} {a : α}
    {as : List α} (h : parseNext close items a text = some (as, rest)) :
    ∃ as', as = a :: as' := by
  unfold parseNext at h
  dsimp only at h
  split at h
  · obtain ⟨r, -, heq⟩ := Option.map_eq_some_iff.mp h
    exact ⟨r.1, (congrArg Prod.fst heq).symm⟩
  · obtain ⟨t, -, heq⟩ := Option.map_eq_some_iff.mp h
    exact ⟨[], (congrArg Prod.fst heq).symm⟩

/-- The items that are read behind a comma. -/
theorem of_parseNext_comma {α : Type} {close : Char} {items : Str → Option (List α × Str)}
    {a a' : α} {as : List α} (hskip : skipWhitespace text = text)
    (h : parseNext close items a (',' :: text) = some (a' :: as, rest)) :
    items text = some (as, rest) := by
  rw [parseNext_comma hskip] at h
  obtain ⟨⟨as', t⟩, hitems, heq⟩ := Option.map_eq_some_iff.mp h
  obtain ⟨hcons, rfl⟩ := Prod.mk.inj heq
  rw [hitems, ← (List.cons.inj hcons).2]

/-- The replacement in front of a member's name. -/
theorem deEscaped_quote_cons : deEscaped ('"' :: text) = '"' :: deEscaped text :=
  deEscaped_cons (by decide)

/-- **A name that is read back has survived.** -/
theorem survives_of_parseMember {value : Str → Option (Value × Str)}
    {members : Str → Option (List (Str × Value) × Str)} {name : Str} {v : Value}
    {ms : List (Str × Value)}
    (h : parseMember value members ('"' :: deEscaped (writeChars name ++ '"' :: text)) =
      some ((name, v) :: ms, rest)) : Survives name := by
  obtain ⟨name', v', text₁, text₂, text₃, text₄, h₁, h₂, -, -, hnext⟩ := exists_of_parseMember h
  obtain rfl : deEscaped (writeChars name ++ '"' :: text) = text₁ := Option.some.inj h₁
  obtain ⟨ms', heq⟩ := exists_of_parseNext hnext
  obtain rfl : name = name' := congrArg Prod.fst (List.cons.inj heq).1
  exact survives_of_parseString h₂

/-- The replacement up to the value of the first member. -/
theorem deEscaped_writeMembers {name : Str} (h : Survives name) (v : Value)
    (ms : List (Str × Value)) (text : Str) :
    deEscaped (writeMembers number ((name, v) :: ms) ++ text) =
      '"' :: (writeChars name ++
        '"' :: ':' :: deEscaped (writeValue number v ++ (writeMoreMembers number ms ++ text))) := by
  rw [writeMembers_cons, deEscaped_quote_cons, deEscaped_writeChars h.1
    (fun hlast => absurd hlast h.2), deEscaped_quote_cons, deEscaped_cons (by decide)]

/-- The first member leaves a shorter text for the others to be read from. -/
theorem length_value_writeMembers (number : ℚ → Str) {name : Str} (h : Survives name) (v : Value)
    (ms : List (Str × Value)) (text : Str) :
    (deEscaped (writeValue number v ++ (writeMoreMembers number ms ++ text))).length + 2 <
      (deEscaped (writeMembers number ((name, v) :: ms) ++ text)).length := by
  rw [deEscaped_writeMembers h]
  simp only [List.length_cons, List.length_append]
  omega

/-- Behind the brace, the members of the object are read. -/
theorem exists_of_parseObject {members : Str → Option (List (Str × Value) × Str)} {name : Str}
    {v w : Value} {ms : List (Str × Value)}
    (h : parseObject members (deEscaped (writeMembers number ((name, v) :: ms) ++ text)) =
      some (w, rest)) :
    ∃ items, w = .object items ∧
      members (deEscaped (writeMembers number ((name, v) :: ms) ++ text)) = some (items, rest) := by
  rw [writeMembers_cons, deEscaped_quote_cons] at h ⊢
  obtain ⟨⟨items, t⟩, hread, heq⟩ := Option.map_eq_some_iff.mp h
  obtain ⟨rfl, rfl⟩ := Prod.mk.inj heq
  exact ⟨items, rfl, hread⟩

/-- The first member has the name that was written, and a value read off what was written. -/
theorem exists_of_parseMembers {name : Str} {v : Value} {ms items : List (Str × Value)}
    (hname : Survives name) (hv : ∀ q ∈ v.numbers, WritesNumber number q)
    (h : parseMembers (n + 1) (deEscaped (writeMembers number ((name, v) :: ms) ++ text)) =
      some (items, rest)) :
    ∃ v' text' items', items = (name, v') :: items' ∧
      parseValue n (deEscaped (writeValue number v ++ (writeMoreMembers number ms ++ text))) =
          some (v', text') ∧
        parseNext '\x7d' (parseMembers n) (name, v') text' = some (items, rest) := by
  have hbegins : BeginsValue (writeValue number v ++ (writeMoreMembers number ms ++ text)) :=
    (beginsValue_writeValue hv).append
  rw [deEscaped_writeMembers hname] at h
  change parseMember (parseValue n) (parseMembers n) _ = _ at h
  rw [(beginsValue_deEscaped hbegins).parseMember_eq] at h
  obtain ⟨⟨v', text'⟩, hread, hnext⟩ := Option.bind_eq_some_iff.mp h
  obtain ⟨items', heq⟩ := exists_of_parseNext hnext
  exact ⟨v', text', items', heq, hread, hnext⟩

/-- Behind the first member, the members that follow it are read. -/
theorem of_parseNext_moreMembers {name : Str} {v : Value} {m : Str × Value}
    {ms items : List (Str × Value)}
    (h : parseNext '\x7d' (parseMembers n) (name, v)
      (deEscaped (writeMoreMembers number (m :: ms) ++ text)) = some ((name, v) :: items, rest)) :
    parseMembers n (deEscaped (writeMembers number (m :: ms) ++ text)) = some (items, rest) := by
  have hmore : deEscaped (writeMoreMembers number (m :: ms) ++ text) =
      ',' :: deEscaped (writeMembers number (m :: ms) ++ text) := deEscaped_cons (by decide)
  have hskip : skipWhitespace (deEscaped (writeMembers number (m :: ms) ++ text)) =
      deEscaped (writeMembers number (m :: ms) ++ text) := by
    rw [writeMembers_cons, deEscaped_quote_cons]
    rfl
  rw [hmore] at h
  exact of_parseNext_comma hskip h

/-- What follows a member is shorter than its value with what follows it. -/
theorem length_moreMembers {v : Value} (hv : ∀ q ∈ v.numbers, WritesNumber number q)
    (hclean : ∀ s ∈ v.strings, Survives s) (m : Str × Value) (ms : List (Str × Value))
    (text : Str) :
    (deEscaped (writeMembers number (m :: ms) ++ text)).length <
      (deEscaped (writeValue number v ++ (writeMoreMembers number (m :: ms) ++ text))).length := by
  have hmore : deEscaped (writeMoreMembers number (m :: ms) ++ text) =
      ',' :: deEscaped (writeMembers number (m :: ms) ++ text) := deEscaped_cons (by decide)
  rw [stays_writeValue v hv hclean, hmore, List.length_append, List.length_cons]
  omega

-- What is read first has survived, so the replacement leaves its text alone, and what is read next
-- begins where its text was written.

mutual

/-- **A value that is read back has survived.** -/
theorem survives_of_parseValue : ∀ (n : ℕ) (v : Value) {text rest : Str},
    (∀ q ∈ v.numbers, WritesNumber number q) →
      2 * (deEscaped (writeValue number v ++ text)).length ≤ n →
        parseValue n (deEscaped (writeValue number v ++ text)) = some (v, rest) →
          ∀ s ∈ v.strings, Survives s
  | 0, _, _, _, _, _, h => nomatch h
  | n + 1, .null, _, _, _, _, _ => fun s hs => nomatch hs
  | n + 1, .bool _, _, _, _, _, _ => fun s hs => nomatch hs
  | n + 1, .number _, _, _, _, _, _ => fun s hs => nomatch hs
  -- A string has to be read back whole;
  | n + 1, .string s, text, rest, _, _, h => by
    have htext : deEscaped (writeValue number (.string s) ++ text) =
        '"' :: deEscaped (writeChars s ++ '"' :: text) := by
      simp [writeValue, writeString, deEscaped_quote_cons]
    rw [htext] at h
    change (parseString (deEscaped (writeChars s ++ '"' :: text))).map _ = _ at h
    obtain ⟨⟨s', t⟩, hread, heq⟩ := Option.map_eq_some_iff.mp h
    obtain rfl : s' = s := Value.string.inj (congrArg Prod.fst heq)
    intro s hs
    rw [List.mem_singleton.mp hs]
    exact survives_of_parseString hread
  | n + 1, .array [], _, _, _, _, _ => fun s hs => nomatch hs
  -- an array and an object are read back part by part.
  | n + 1, .array (v :: vs), text, rest, hv, hn, h => by
    have hbegins : BeginsValue (writeElements number (v :: vs) ++ ']' :: text) :=
      (beginsValue_writeValue fun q hq => hv q (List.mem_append_left _ hq)).append.append
    have htext : deEscaped (writeValue number (.array (v :: vs)) ++ text) =
        '[' :: deEscaped (writeElements number (v :: vs) ++ ']' :: text) := by
      rw [← deEscaped_cons (by decide)]
      simp [writeValue]
    rw [htext] at h hn
    change parseArray (parseElements n) _ = _ at h
    rw [(beginsValue_deEscaped hbegins).parseArray_eq] at h
    obtain ⟨⟨vs', t⟩, hread, heq⟩ := Option.map_eq_some_iff.mp h
    obtain rfl : vs' = v :: vs := Value.array.inj (congrArg Prod.fst heq)
    rw [List.length_cons] at hn
    exact survives_of_parseElements n v vs hv (by omega) hread
  | n + 1, .object [], _, _, _, _, _ => fun s hs => nomatch hs
  | n + 1, .object ((name, v) :: ms), text, rest, hv, hn, h => by
    have htext : deEscaped (writeValue number (.object ((name, v) :: ms)) ++ text) =
        '\x7b' :: deEscaped (writeMembers number ((name, v) :: ms) ++ '\x7d' :: text) := by
      rw [← deEscaped_cons (by decide)]
      simp [writeValue]
    rw [htext] at h hn
    change parseObject (parseMembers n)
      (deEscaped (writeMembers number ((name, v) :: ms) ++ '\x7d' :: text)) = _ at h
    obtain ⟨items, hitems, hread⟩ := exists_of_parseObject h
    obtain rfl : (name, v) :: ms = items := Value.object.inj hitems
    rw [List.length_cons] at hn
    exact survives_of_parseMembers n name v ms hv (by omega) hread

/-- If an array is read back from its de-escaped form, all its elements were clean. -/
theorem survives_of_parseElements : ∀ (n : ℕ) (v : Value) (vs : List Value) {text rest : Str},
    (∀ q ∈ Value.numbersOfElements (v :: vs), WritesNumber number q) →
      2 * (deEscaped (writeElements number (v :: vs) ++ ']' :: text)).length < n →
        parseElements n (deEscaped (writeElements number (v :: vs) ++ ']' :: text)) =
            some (v :: vs, rest) →
          ∀ s ∈ Value.stringsOfElements (v :: vs), Survives s
  | 0, _, _, _, _, _, _, h => nomatch h
  | n + 1, v, vs, text, rest, hvs, hn, h => by
    have hv : ∀ q ∈ v.numbers, WritesNumber number q :=
      fun q hq => hvs q (List.mem_append_left _ hq)
    have hassoc : writeElements number (v :: vs) ++ ']' :: text =
        writeValue number v ++ (writeMoreElements number vs ++ ']' :: text) :=
      List.append_assoc _ _ _
    rw [hassoc] at h hn
    obtain ⟨⟨v', text'⟩, hread, hnext⟩ := Option.bind_eq_some_iff.mp h
    obtain ⟨vs', heq⟩ := exists_of_parseNext hnext
    obtain rfl : v = v' := (List.cons.inj heq).1
    -- The first element is clean, so it stays as it was written and the reader goes on behind it.
    have hclean := survives_of_parseValue n v hv (Nat.lt_succ_iff.mp hn) hread
    obtain rfl := rest_of_parseValue hv hclean (numberEnd_moreElements vs)
      (Nat.lt_succ_iff.mp hn) hread
    intro s hs
    rcases List.mem_append.mp hs with hs | hs
    · exact hclean s hs
    · cases vs with
      | nil => exact nomatch hs
      | cons v' vs =>
        have hvs' : ∀ q ∈ Value.numbersOfElements (v' :: vs), WritesNumber number q :=
          fun q hq => hvs q (List.mem_append_right _ hq)
        have hbegins : BeginsValue (writeElements number (v' :: vs) ++ ']' :: text) :=
          (beginsValue_writeValue fun q hq => hvs' q (List.mem_append_left _ hq)).append.append
        -- The next one is read with less text left.
        have hmore : deEscaped (writeMoreElements number (v' :: vs) ++ ']' :: text) =
            ',' :: deEscaped (writeElements number (v' :: vs) ++ ']' :: text) :=
          deEscaped_cons (by decide)
        rw [stays_writeValue v hv hclean, hmore, List.length_append, List.length_cons] at hn
        rw [hmore] at hnext
        have hitems := of_parseNext_comma (beginsValue_deEscaped hbegins).skipWhitespace_eq hnext
        exact survives_of_parseElements n v' vs hvs' (by omega) hitems s hs

/-- If an object is read back from its de-escaped form, its members and their names were clean. -/
theorem survives_of_parseMembers : ∀ (n : ℕ) (name : Str) (v : Value) (ms : List (Str × Value))
    {text rest : Str}, (∀ q ∈ Value.numbersOfMembers ((name, v) :: ms), WritesNumber number q) →
      2 * (deEscaped (writeMembers number ((name, v) :: ms) ++ '\x7d' :: text)).length < n →
        parseMembers n (deEscaped (writeMembers number ((name, v) :: ms) ++ '\x7d' :: text)) =
            some ((name, v) :: ms, rest) →
          ∀ s ∈ Value.stringsOfMembers ((name, v) :: ms), Survives s
  | 0, _, _, _, _, _, _, _, h => nomatch h
  | n + 1, name, v, ms, text, rest, hms, hn, h => by
    have hv : ∀ q ∈ v.numbers, WritesNumber number q :=
      fun q hq => hms q (List.mem_append_left _ hq)
    -- The name has to be read back before its value.
    have hname : Survives name := by
      rw [writeMembers_cons, deEscaped_quote_cons] at h
      exact survives_of_parseMember h
    obtain ⟨v', text', ms', heq, hread, hnext⟩ := exists_of_parseMembers hname hv h
    obtain rfl : v = v' := congrArg Prod.snd (List.cons.inj heq).1
    have hlength := length_value_writeMembers number hname v ms ('\x7d' :: text)
    -- The value is clean, so the reader goes on behind it.
    have hclean := survives_of_parseValue n v hv (by omega) hread
    obtain rfl := rest_of_parseValue hv hclean (numberEnd_moreMembers ms) (by omega) hread
    intro s hs
    rcases List.mem_cons.mp hs with rfl | hs
    · exact hname
    · rcases List.mem_append.mp hs with hs | hs
      · exact hclean s hs
      · cases ms with
        | nil => exact nomatch hs
        | cons m ms =>
          obtain ⟨name', v'⟩ := m
          have hms' : ∀ q ∈ Value.numbersOfMembers ((name', v') :: ms), WritesNumber number q :=
            fun q hq => hms q (List.mem_append_right _ hq)
          have hmore := length_moreMembers hv hclean (name', v') ms ('\x7d' :: text)
          exact survives_of_parseMembers n name' v' ms hms' (by omega)
            (of_parseNext_moreMembers hnext) s hs

end

end Values

/-! ### The round trip -/

section RoundTrip

variable {number : ℚ → Str} {g : Value} {r : Str}

/-- The only numbers of the content are those of the geometry. -/
theorem numbers_contentObject (r : Str) (g : Value) :
    (contentObject r g).numbers = g.numbers := by
  simp [contentObject, Value.numbers, Value.numbersOfMembers]

/-- The content is clean if its reference and its geometry are. -/
theorem clean_contentObject_iff (r : Str) (g : Value) :
    (contentObject r g).Clean ↔ Survives r ∧ g.Clean := by
  have hreference : Survives "reference".toList := by decide
  have hcontent : Survives "content".toList := by decide
  have hstrings : (contentObject r g).strings =
      "reference".toList :: r :: "content".toList :: g.strings := by
    simp [contentObject, Value.strings, Value.stringsOfMembers]
  unfold Value.Clean
  rw [hstrings, List.forall_mem_cons, List.forall_mem_cons, List.forall_mem_cons]
  exact ⟨fun h => ⟨h.2.1, h.2.2.2⟩, fun h => ⟨hreference, h.1, hcontent, h.2⟩⟩

/-- What is read as the reference and the content has survived. -/
theorem survives_of_parse_contentText {n : ℕ} {v : Value} {rest : Str}
    (hg : ∀ q ∈ g.numbers, WritesNumber number q)
    (hn : 2 * (deEscaped (contentText number r g)).length ≤ n)
    (hread : parseValue n (deEscaped (contentText number r g)) = some (v, rest))
    (hreference : v.member? "reference".toList = some (.string r))
    (hcontent : v.member? "content".toList = some g) : Survives r ∧ g.Clean := by
  have hname : Survives "reference".toList := by decide
  have hname' : Survives "content".toList := by decide
  have hr : ∀ q ∈ (Value.string r).numbers, WritesNumber number q := fun q hq => nomatch hq
  have htext : deEscaped (contentText number r g) = '\x7b' :: deEscaped (writeMembers number
      [("reference".toList, .string r), ("content".toList, g)] ++ ['\x7d']) :=
    deEscaped_cons (by decide)
  have hlength :=
    length_value_writeMembers number hname (.string r) [("content".toList, g)] ['\x7d']
  have hlength' := length_value_writeMembers number hname' g [] ['\x7d']
  rw [htext] at hread hn
  rw [List.length_cons] at hn
  obtain ⟨i, rfl⟩ : ∃ i, n = i + 3 := ⟨n - 3, by omega⟩
  change parseObject (parseMembers (i + 2)) (deEscaped (writeMembers number
    [("reference".toList, .string r), ("content".toList, g)] ++ ['\x7d'])) = _ at hread
  obtain ⟨items, rfl, hmembers⟩ := exists_of_parseObject hread
  -- the reference is the first member
  obtain ⟨v₁, text₁, items₁, rfl, hread₁, hnext₁⟩ := exists_of_parseMembers hname hr hmembers
  obtain rfl : v₁ = .string r := Option.some.inj hreference
  have hclean₁ := survives_of_parseValue (i + 1) (.string r) hr (by omega) hread₁
  obtain rfl := rest_of_parseValue hr hclean₁ (numberEnd_moreMembers _) (by omega) hread₁
  have hshorter := length_moreMembers hr hclean₁ ("content".toList, g) [] ['\x7d']
  -- and the content the second
  obtain ⟨v₂, text₂, items₂, rfl, hread₂, -⟩ :=
    exists_of_parseMembers hname' hg (of_parseNext_moreMembers hnext₁)
  obtain rfl : v₂ = g := Option.some.inj hcontent
  exact ⟨hclean₁ r List.mem_cons_self, survives_of_parseValue i v₂ hg (by omega) hread₂⟩

/-- **The content is read back if and only if all its strings survive.** -/
theorem parse_contentText_iff (hg : ∀ q ∈ g.numbers, WritesNumber number q) :
    (∃ content_json, parseDocument false (deEscaped (contentText number r g)) = some content_json ∧
      content_json.member? "reference".toList = some (.string r) ∧
        content_json.member? "content".toList = some g) ↔ Survives r ∧ g.Clean := by
  have hnumbers : ∀ q ∈ (contentObject r g).numbers, WritesNumber number q := by
    intro q hq
    rw [numbers_contentObject] at hq
    exact hg q hq
  constructor
  -- A value that was read has the two members only if nothing of them was lost.
  · rintro ⟨content_json, hparse, hreference, hcontent⟩
    have hbegins := beginsValue_deEscaped (beginsValue_writeValue hnumbers)
    unfold parseDocument at hparse
    rw [contentText, hbegins.skipWhitespace_eq] at hparse
    split at hparse
    · exact nomatch hparse
    · next v rest hread =>
      split at hparse
      · obtain rfl := Option.some.inj hparse
        exact survives_of_parse_contentText hg le_rfl hread hreference hcontent
      · exact nomatch hparse
  -- A clean text is not changed by the de-escaping, so it is read as it was written.
  · rintro ⟨hr, hclean⟩
    have hstays := (stays_writeValue (contentObject r g) hnumbers
      ((clean_contentObject_iff r g).mpr ⟨hr, hclean⟩)).eq
    refine ⟨contentObject r g, ?_, rfl, rfl⟩
    rw [contentText, hstays]
    exact parseDocument_write false hnumbers

variable {lib : StorageLibrary}

/-- A list of strings has no numbers. -/
theorem numbersOfElements_strings {α : Type} (f : α → Str) (xs : List α) :
    Value.numbersOfElements (xs.map fun x => .string (f x)) = [] := by
  induction xs with
  | nil => rfl
  | cons x xs ih => exact ih

/-- The repository reads back the two members of the document it fetched. -/
theorem parseStopWhenDone_httpInsertion (hlib : ExactJson lib)
    (contentObjectList : List (List ℕ)) (content : Str) :
    lib.parseStopWhenDone (HttpInsertion number contentObjectList content) = some (.object
      [("content".toList, .string content), ("segments".toList,
        .array (contentObjectList.map fun segment => .string (base64_encode segment)))]) := by
  rw [hlib.parseStopWhenDone]
  refine parseDocument_write true fun q hq => ?_
  simp [Value.numbers, Value.numbersOfMembers, numbersOfElements_strings] at hq

/-- A value with a text is a string. -/
theorem eq_string_of_getString? {v : Value} {s : Str} (h : v.getString? = some s) :
    v = .string s := by
  cases v with
  | string t => exact congrArg Value.string (Option.some.inj h)
  | _ => exact nomatch h

/-- The steps of `contentJson`. -/
theorem contentJson_eq_some_iff {data_json content_json : Value} {content orig_name : Str}
    {name : lib.names.Name}
    (hcontent : data_json.member? "content".toList = some (.string content)) :
    contentJson lib data_json = some (content_json, orig_name, name) ↔
      lib.parse (deEscaped content) = some content_json ∧
        content_json.member? "reference".toList = some (.string orig_name) ∧
          (lib.names.ofUri orig_name).bind lib.names.withoutSegment = some name := by
  unfold contentJson
  rw [hcontent]
  change (lib.parse (deEscaped content)).bind _ = _ ↔ _
  constructor
  -- The source throws at the first of these steps that fails.
  · intro h
    obtain ⟨v, hparse, h⟩ := Option.bind_eq_some_iff.mp h
    obtain ⟨w, hreference, h⟩ := Option.bind_eq_some_iff.mp h
    obtain ⟨s, hstring, h⟩ := Option.bind_eq_some_iff.mp h
    obtain ⟨name', hname, h⟩ := Option.bind_eq_some_iff.mp h
    obtain ⟨rfl, hrest⟩ := Prod.mk.inj (Option.some.inj h)
    obtain ⟨rfl, rfl⟩ := Prod.mk.inj hrest
    rw [eq_string_of_getString? hstring] at hreference
    exact ⟨hparse, hreference, hname⟩
  · rintro ⟨hparse, hreference, hname⟩
    refine Option.bind_eq_some_iff.mpr ⟨_, hparse, ?_⟩
    refine Option.bind_eq_some_iff.mpr ⟨_, hreference, ?_⟩
    refine Option.bind_eq_some_iff.mpr ⟨_, rfl, ?_⟩
    exact Option.bind_eq_some_iff.mpr ⟨_, hname, rfl⟩

/-- `insertLongData` parses the text of the content, after the replacement. -/
theorem obtains_httpInsertion_iff (hlib : ExactJson lib)
    (hr : ((lib.names.ofUri r).bind lib.names.withoutSegment).isSome)
    (contentObjectList : List (List ℕ)) (content : Str) :
    Obtains lib (HttpInsertion number contentObjectList content) g r ↔
      ∃ content_json, parseDocument false (deEscaped content) = some content_json ∧
        content_json.member? "reference".toList = some (.string r) ∧
          content_json.member? "content".toList = some g := by
  obtain ⟨name, hname⟩ := Option.isSome_iff_exists.mp hr
  unfold Obtains
  rw [parseStopWhenDone_httpInsertion hlib, Option.bind_some]
  -- The document has two members, and the content is the first.
  have hmember : ∀ v, (Value.object [("content".toList, .string content), v]).member?
      "content".toList = some (.string content) := fun _ => rfl
  constructor
  · rintro ⟨content_json, name', hobtain, hcontent⟩
    obtain ⟨hparse, hreference, -⟩ := (contentJson_eq_some_iff (hmember _)).mp hobtain
    exact ⟨content_json, hlib.parse _ ▸ hparse, hreference, hcontent⟩
  · rintro ⟨content_json, hparse, hreference, hcontent⟩
    exact ⟨content_json, name, (contentJson_eq_some_iff (hmember _)).mpr
      ⟨(hlib.parse _).trans hparse, hreference, hname⟩, hcontent⟩

/-- **The object comes back if and only if all strings survive**: those of the object at any
depth, names of members included, and its reference. -/
theorem obtains_iff (hlib : ExactJson lib) (hg : ∀ q ∈ g.numbers, WritesNumber number q)
    (hr : ((lib.names.ofUri r).bind lib.names.withoutSegment).isSome)
    (contentObjectList : List (List ℕ)) :
    Obtains lib (HttpInsertion number contentObjectList (contentText number r g)) g r ↔
      Survives r ∧ g.Clean :=
  (obtains_httpInsertion_iff hlib hr contentObjectList _).trans (parse_contentText_iff hg)

end RoundTrip

section Examples

/-- The parser itself, and names over octets. -/
private def exactLibrary : StorageLibrary where
  names := octetNames
  parse := parseDocument false
  parseStopWhenDone := parseDocument true
  regexMatches _ _ := false
  intersects _ _ _ := false

private theorem exactJson_exactLibrary : ExactJson exactLibrary := ⟨fun _ => rfl, fun _ => rfl⟩

/-- A number with one digit behind the point. -/
private def oneDecimal (q : ℚ) : Str :=
  sign (q < 0) ++ (toDecimal ⌊|q|⌋.toNat ++ '.' :: toDecimal (⌊10 * |q|⌋.toNat % 10))

private theorem writesNumber_oneDecimal {ip : Str} {q : ℚ}
    (hq : oneDecimal q = ip ++ ['.', '5']) (hip : ip.all Char.isDigit = true)
    (hzero : ip.head? = some '0' → ip = ['0']) (hne : ip ≠ [])
    (hvalue : (digitsValue (ip ++ ['5']) : ℚ) / 10 = q) : WritesNumber oneDecimal q := by
  have hfp : IsDigits ['5'] := by
    intro c hc
    rw [List.mem_singleton.mp hc]
    decide
  have hsigned : signed false (digitsValue (ip ++ ['5']) / 10 ^ ['5'].length) = q := by
    rw [List.length_singleton, pow_one]
    exact hvalue
  exact writesNumber_of_decimal hq (List.all_eq_true.mp hip) hzero hne hfp (List.cons_ne_nil _ _)
    hsigned

/-- A feature with a point and a name. -/
private def namedFeature (name : String) : Value := .object
  [("type".toList, .string "Feature".toList),
    ("geometry".toList, .object
      [("type".toList, .string "Point".toList),
        ("coordinates".toList, .array [.number (25 / 2), .number (83 / 2)])]),
    ("properties".toList, .object [("name".toList, .string name.toList)])]

private theorem writesNumber_namedFeature (name : String) :
    ∀ q ∈ (namedFeature name).numbers, WritesNumber oneDecimal q := by
  have hnumbers : (namedFeature name).numbers = [25 / 2, 83 / 2] := rfl
  rw [hnumbers, List.forall_mem_cons, List.forall_mem_singleton]
  have hfirst : oneDecimal (25 / 2) = ['1', '2'] ++ ['.', '5'] := by decide +kernel
  have hsecond : oneDecimal (83 / 2) = ['4', '1'] ++ ['.', '5'] := by decide +kernel
  have hvalue : digitsValue (['1', '2'] ++ ['5']) = 125 := by decide
  have hvalue' : digitsValue (['4', '1'] ++ ['5']) = 415 := by decide
  constructor
  · refine writesNumber_oneDecimal hfirst (by decide) (by decide) (by decide) ?_
    rw [hvalue]
    norm_num
  · refine writesNumber_oneDecimal hsecond (by decide) (by decide) (by decide) ?_
    rw [hvalue']
    norm_num

private def featureName : Str := "/OGB/test/cities/user/1".toList

private theorem isName_featureName :
    ((exactLibrary.names.ofUri featureName).bind exactLibrary.names.withoutSegment).isSome := by
  decide

/-- A feature without quotes comes back. -/
theorem obtains_plain : Obtains exactLibrary
    (HttpInsertion oneDecimal [[6, 1], [6, 2]]
      (contentText oneDecimal featureName (namedFeature "Via Appia")))
    (namedFeature "Via Appia") featureName := by
  refine (obtains_iff exactJson_exactLibrary (writesNumber_namedFeature _) isName_featureName
    _).mpr ⟨by decide, ?_⟩
  unfold Value.Clean
  decide

/-- A quote in the name of the feature is lost with all that follows it. -/
theorem not_obtains_quoted : ExactJson exactLibrary ∧
    (∀ q ∈ (namedFeature "Via \"Appia\"").numbers, WritesNumber oneDecimal q) ∧
      ((exactLibrary.names.ofUri featureName).bind exactLibrary.names.withoutSegment).isSome ∧
        ¬Obtains exactLibrary
          (HttpInsertion oneDecimal [[6, 1], [6, 2]]
            (contentText oneDecimal featureName (namedFeature "Via \"Appia\"")))
          (namedFeature "Via \"Appia\"") featureName := by
  refine ⟨exactJson_exactLibrary, writesNumber_namedFeature _, isName_featureName, fun h => ?_⟩
  have hparse := (obtains_httpInsertion_iff exactJson_exactLibrary isName_featureName _ _).mp h
  obtain ⟨-, hclean⟩ := (parse_contentText_iff (writesNumber_namedFeature _)).mp hparse
  have hname := hclean "Via \"Appia\"".toList (by decide)
  exact absurd hname (by decide)

end Examples

end OpenGeoBase
