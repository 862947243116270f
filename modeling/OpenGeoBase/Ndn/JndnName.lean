import OpenGeoBase.Ndn.Name
import Mathlib.Data.List.DropRight

/-!
# Names in the front end

The front end makes names of texts, and texts of names, with jndn. A text is split at its
slashes. Each part has its blanks trimmed and its escapes decoded; one of at most two dots is
no component and is left out, and one that starts with `sha256digest=` is a digest. Octets other
than letters, digits and `+-._` are printed as escapes.

So a part may be printed as something else than it was, or not at all. But what a component is
printed as is parsed as this component (`parseComponent_toEscapedString`), and a printed name has
one part for each component (`splitPath_toUri`).
-/

namespace OpenGeoBase

namespace Jndn

open Text

/-- The UTF-16 units of a character. -/
def utf16 (c : Char) : List ℕ :=
  if c.toNat < 0x10000 then [c.toNat]
  else [0xD800 + (c.toNat - 0x10000) / 0x400, 0xDC00 + (c.toNat - 0x10000) % 0x400]

/-- `Name.fromHexChar`; -1 is `none`. -/
def fromHexChar (u : ℕ) : Option ℕ :=
  if '0'.toNat ≤ u ∧ u ≤ '9'.toNat then some (u - '0'.toNat)
  else if 'A'.toNat ≤ u ∧ u ≤ 'F'.toNat then some (u - 'A'.toNat + 10)
  else if 'a'.toNat ≤ u ∧ u ≤ 'f'.toNat then some (u - 'a'.toNat + 10)
  else none

/-- `Name.unescape`: what follows a percent sign is left alone when it is no escape. A unit that
is no octet loses its high octet. -/
def unescape : List ℕ → List ℕ
  | [] => []
  | [u] => [u % 256]
  | [u, v] => [u % 256, v % 256]
  | u :: v :: w :: us =>
    if u = '%'.toNat then
      match fromHexChar v, fromHexChar w with
      | some hi, some lo => (hi * 16 + lo) :: unescape us
      | _, _ => u % 256 :: v % 256 :: w % 256 :: unescape us
    else u % 256 :: unescape (v :: w :: us)

/-- `Name.fromHex`. Blanks in front of a pair of digits are skipped, a single digit is dropped. -/
def fromHex : List ℕ → Option (List ℕ)
  | [] => some []
  | [_] => some []
  | u :: v :: us =>
    if u = ' '.toNat then fromHex (v :: us)
    else match fromHexChar u, fromHexChar v with
      | some hi, some lo => (fromHex us).map fun bytes => (16 * hi + lo) :: bytes
      | _, _ => none

/-- `Name.fromEscapedString`; a part without a component is `none`. -/
def fromEscapedString (escapedString : Str) : Option (List ℕ) :=
  let value := unescape ((trim escapedString).flatMap utf16)
  if value.all (· == '.'.toNat) then if value.length ≤ 2 then none else some (value.drop 3)
  else some value

/-- `Name.Component`. -/
inductive Component where
  | generic (value : List ℕ)
  | implicitSha256Digest (value : List ℕ)
  deriving DecidableEq

def sha256digestPrefix : Str := "sha256digest=".toList

/-- `Blob.toHex`. -/
def toHex (value : List ℕ) : Str :=
  value.flatMap fun b => [Nat.digitChar (b / 16), Nat.digitChar (b % 16)]

/-- `Name.Component.toEscapedString`. -/
def Component.toEscapedString : Component → Str
  | .generic value => uriComponent value
  | .implicitSha256Digest value => sha256digestPrefix ++ toHex value

/-- The component of a part in the loop of `Name.set`, if it has one; an error is `none`. -/
def parseComponent (part : Str) : Option (Option Component) :=
  if sha256digestPrefix <+: part then
    match fromHex ((part.drop sha256digestPrefix.length).flatMap utf16) with
    | none => none
    | some digest =>
      if digest.length = 32 then some (some (.implicitSha256Digest digest)) else none
  else some ((fromEscapedString part).map .generic)

/-- The components of the parts. -/
def parseParts (parts : List Str) : Option (List Component) :=
  (parts.mapM parseComponent).map List.reduceOption

/-- `Name.set`: the components of the name that a text stands for. -/
def set (uri : Str) : Option (List Component) :=
  let uri := trim uri
  if uri = [] then some []
  else
    let uri := match find [':'] uri, find ['/'] uri with
      | none, _ => uri
      | some iColon, none => trim (uri.drop (iColon + 1))
      | some iColon, some iFirstSlash =>
        if iColon < iFirstSlash then trim (uri.drop (iColon + 1)) else uri
    match uri with
    | [] => none
    | '/' :: '/' :: authority =>
      match find ['/'] authority with
      | none => some []
      | some iAfterAuthority => parseParts (splitPath (trim (authority.drop (iAfterAuthority + 1))))
    | '/' :: rest => parseParts (splitPath (trim rest))
    | _ => parseParts (splitPath uri)

/-- `Name.toUri`. -/
def toUri (components : List Component) : Str :=
  if components = [] then ['/'] else path (components.map Component.toEscapedString)

/-- `Name.Component.fromSegment`, of the segment 0. -/
def segmentZero : Component := .generic [0, 0]

/-! ### Escapes -/

/-- What is no percent sign stands for itself. -/
theorem unescape_cons {u : ℕ} (hu : u ≠ '%'.toNat) (us : List ℕ) :
    unescape (u :: us) = u % 256 :: unescape us := by
  match us with
  | [] => rfl
  | [v] => rfl
  | v :: w :: us =>
    rw [unescape, if_neg hu]

theorem unescape_escape {v w hi lo : ℕ} (hhi : fromHexChar v = some hi)
    (hlo : fromHexChar w = some lo) (us : List ℕ) :
    unescape ('%'.toNat :: v :: w :: us) = (hi * 16 + lo) :: unescape us := by
  rw [unescape, if_pos rfl, hhi, hlo]

/-- Octets are looked through by their two digits. -/
theorem forall_octet {P : ℕ → Prop} (h : ∀ hi < 16, ∀ lo < 16, P (hi * 16 + lo)) :
    ∀ b < 256, P b := by
  intro b hb
  have hdigits := h (b / 16) (by omega) (b % 16) (Nat.mod_lt b (by norm_num))
  rwa [Nat.div_add_mod'] at hdigits

/-- An octet is printed as it is, unless it is a percent sign, or as an escape of its digits. -/
theorem utf16_uriOctet {b : ℕ} (hb : b < 256) :
    ((uriOctet b).flatMap utf16 = [b] ∧ b ≠ '%'.toNat) ∨
    ((uriOctet b).flatMap utf16 = ['%'.toNat, (uriOctet.toDigit (b / 16)).toNat,
        (uriOctet.toDigit (b % 16)).toNat] ∧
      fromHexChar (uriOctet.toDigit (b / 16)).toNat = some (b / 16) ∧
      fromHexChar (uriOctet.toDigit (b % 16)).toNat = some (b % 16)) := by
  revert b
  apply forall_octet
  decide

/-- Printed octets are read back. -/
theorem unescape_uriOctets {octets : List ℕ} (h : ∀ b ∈ octets, b < 256) :
    unescape ((octets.flatMap uriOctet).flatMap utf16) = octets := by
  induction octets with
  | nil => rfl
  | cons b octets ih =>
    have hb := h b List.mem_cons_self
    rw [List.flatMap_cons, List.flatMap_append]
    rcases utf16_uriOctet hb with ⟨hunits, hne⟩ | ⟨hunits, hhi, hlo⟩
    · rw [hunits, List.singleton_append, unescape_cons hne, Nat.mod_eq_of_lt hb,
        ih fun b hb => h b (List.mem_cons_of_mem _ hb)]
    · rw [hunits, List.cons_append, List.cons_append, List.cons_append, List.nil_append,
        unescape_escape hhi hlo, Nat.div_add_mod', ih fun b hb => h b (List.mem_cons_of_mem _ hb)]

/-- What an octet is printed as contains no blank, no slash and no equals sign. -/
theorem mem_uriOctet {b : ℕ} (hb : b < 256) :
    ∀ c ∈ uriOctet b, ' '.toNat < c.toNat ∧ c ≠ '/' ∧ c ≠ '=' := by
  have hall : ∀ b < 256,
      ((uriOctet b).all fun c => decide (' '.toNat < c.toNat ∧ c ≠ '/' ∧ c ≠ '=')) = true := by
    apply forall_octet
    decide
  intro c hc
  exact of_decide_eq_true (List.all_eq_true.mp (hall b hb) c hc)

/-- A component in a URI is printed octet by octet, three dots first if there are only dots. -/
theorem uriComponent_eq (octets : List ℕ) : uriComponent octets =
    ((if octets.all (· == '.'.toNat) then List.replicate 3 '.'.toNat else []) ++ octets).flatMap
      uriOctet := by
  unfold uriComponent
  split
  · rw [List.flatMap_append]
    rfl
  · rfl

/-- The dots that are put in front are octets, too. -/
theorem mem_dots_append {octets : List ℕ} (h : ∀ b ∈ octets, b < 256) :
    ∀ b ∈ (if octets.all (· == '.'.toNat) then List.replicate 3 '.'.toNat else []) ++ octets,
      b < 256 := by
  intro b hb
  rcases List.mem_append.mp hb with hb | hb
  · split at hb
    · rw [List.eq_of_mem_replicate hb]
      decide
    · exact absurd hb List.not_mem_nil
  · exact h b hb

/-- Nor does what a component of octets is printed as. -/
theorem mem_uriComponent {octets : List ℕ} (h : ∀ b ∈ octets, b < 256) :
    ∀ c ∈ uriComponent octets, ¬c ≤ ' ' ∧ c ≠ '/' ∧ c ≠ '=' := by
  intro c hc
  rw [uriComponent_eq] at hc
  obtain ⟨b, hb, hc⟩ := List.mem_flatMap.mp hc
  obtain ⟨hblank, hseparator⟩ := mem_uriOctet (mem_dots_append h b hb) c hc
  exact ⟨not_blank_of_lt hblank, hseparator⟩

/-! ### Components -/

/-- The values of components are octets, 32 of them in a digest. -/
def Component.WellFormed : Component → Prop
  | .generic value => ∀ b ∈ value, b < 256
  | .implicitSha256Digest value => (∀ b ∈ value, b < 256) ∧ value.length = 32

/-- The segment component is well formed. -/
theorem wellFormed_segmentZero : segmentZero.WellFormed := by
  show ∀ b ∈ [0, 0], b < 256
  decide

/-- A printed component has neither blanks nor slashes. -/
theorem mem_toEscapedString {component : Component} (h : component.WellFormed) :
    ∀ c ∈ component.toEscapedString, ¬c ≤ ' ' ∧ c ≠ '/' := by
  intro c hc
  cases component with
  | generic value =>
    obtain ⟨hblank, hslash, -⟩ := mem_uriComponent h c hc
    exact ⟨hblank, hslash⟩
  | implicitSha256Digest value =>
    -- checked for the sixteen digits; the prefix `sha256digest=` is checked by evaluation below
    have hdigit : ∀ d < 16, ' '.toNat < (Nat.digitChar d).toNat ∧ Nat.digitChar d ≠ '/' := by
      decide
    have hfirst : (sha256digestPrefix.all fun c => decide (' '.toNat < c.toNat ∧ c ≠ '/')) =
        true := by
      decide
    refine And.imp_left not_blank_of_lt ?_
    rcases List.mem_append.mp hc with hc | hc
    · exact of_decide_eq_true (List.all_eq_true.mp hfirst c hc)
    · obtain ⟨b, hb, hc⟩ := List.mem_flatMap.mp hc
      have hb : b < 256 := h.1 b hb
      rcases List.mem_cons.mp hc with rfl | hc
      · exact hdigit (b / 16) (by omega)
      · rw [List.mem_singleton.mp hc]
        exact hdigit (b % 16) (by omega)

/-- No component is printed as the empty text. -/
theorem toEscapedString_ne_nil (component : Component) : component.toEscapedString ≠ [] := by
  cases component with
  | generic value =>
    intro hnil
    change uriComponent value = [] at hnil
    rw [uriComponent_eq] at hnil
    have hoctet : ∀ b, uriOctet b ≠ [] := by
      intro b
      unfold uriOctet
      dsimp only
      split
      · exact List.cons_ne_nil _ _
      · exact List.cons_ne_nil _ _
    rw [List.flatMap_eq_nil_iff] at hnil
    -- no octets would be dots only
    cases value with
    | nil => exact hoctet _ (hnil '.'.toNat (by simp))
    | cons b value => exact hoctet b (hnil b (List.mem_append_right _ List.mem_cons_self))
  | implicitSha256Digest value => exact List.cons_ne_nil _ _

/-- A digest is read back from its hexadecimal digits. -/
theorem fromHex_toHex {value : List ℕ} (h : ∀ b ∈ value, b < 256) :
    fromHex ((toHex value).flatMap utf16) = some value := by
  have hdigit : ∀ d < 16, utf16 (Nat.digitChar d) = [(Nat.digitChar d).toNat] ∧
      (Nat.digitChar d).toNat ≠ ' '.toNat ∧ fromHexChar (Nat.digitChar d).toNat = some d := by
    decide
  induction value with
  | nil => rfl
  | cons b value ih =>
    have hb : b < 256 := h b List.mem_cons_self
    obtain ⟨hunit, hblank, hhi⟩ := hdigit (b / 16) (by omega)
    obtain ⟨hunit', -, hlo⟩ := hdigit (b % 16) (by omega)
    unfold toHex at ih ⊢
    rw [List.flatMap_cons, List.cons_append, List.cons_append, List.nil_append, List.flatMap_cons,
      List.flatMap_cons, hunit, hunit', List.singleton_append, List.singleton_append, fromHex,
      if_neg hblank, hhi, hlo, ih fun b hb => h b (List.mem_cons_of_mem _ hb)]
    dsimp only
    rw [Option.map_some, Nat.div_add_mod]

/-- **A component is read back** from what it is printed as. -/
theorem fromEscapedString_uriComponent {value : List ℕ} (h : ∀ b ∈ value, b < 256) :
    fromEscapedString (uriComponent value) = some value := by
  have htrim : trim (uriComponent value) = uriComponent value :=
    trim_eq_self fun c hc => (mem_uriComponent h c hc).1
  unfold fromEscapedString
  dsimp only
  rw [htrim, uriComponent_eq, unescape_uriOctets]
  · by_cases hdots : value.all (· == '.'.toNat) = true
    · rw [if_pos hdots, if_pos (by simpa using hdots), if_neg (by simp)]
      rfl
    · rw [if_neg hdots, List.nil_append, if_neg hdots]
  · exact mem_dots_append h

/-- **A printed component is parsed as this component.** -/
theorem parseComponent_toEscapedString {component : Component} (h : component.WellFormed) :
    parseComponent component.toEscapedString = some (some component) := by
  cases component with
  | generic value =>
    -- an equals sign is printed as an escape
    have hnot : ¬sha256digestPrefix <+: uriComponent value := by
      intro hprefix
      have hmem : '=' ∈ uriComponent value := hprefix.subset (by decide)
      exact (mem_uriComponent h '=' hmem).2.2 rfl
    show parseComponent (uriComponent value) = _
    unfold parseComponent
    rw [if_neg hnot, fromEscapedString_uriComponent h]
    rfl
  | implicitSha256Digest value =>
    show parseComponent (sha256digestPrefix ++ toHex value) = _
    unfold parseComponent
    rw [if_pos (List.prefix_append _ _), List.drop_left, fromHex_toHex h.1]
    dsimp only
    rw [if_pos h.2]

/-- What is parsed is octets. -/
theorem fromHexChar_lt {u d : ℕ} (h : fromHexChar u = some d) : d < 16 := by
  unfold fromHexChar at h
  have h0 : '0'.toNat = 48 ∧ '9'.toNat = 57 ∧ 'A'.toNat = 65 ∧ 'F'.toNat = 70 ∧ 'a'.toNat = 97 ∧
      'f'.toNat = 102 := by decide
  split_ifs at h with hdigit hupper hlower
  · have := Option.some.inj h
    omega
  · have := Option.some.inj h
    omega
  · have := Option.some.inj h
    omega

/-- What is read from an escaped text are octets. -/
theorem unescape_lt (us : List ℕ) : ∀ b ∈ unescape us, b < 256 := by
  have hmod : ∀ u, u % 256 < 256 := fun u => Nat.mod_lt u (by norm_num)
  -- the cases of `unescape`: only a `%` with two hexadecimal digits makes a new octet
  induction us using unescape.induct with
  | case1 => simp [unescape]
  | case2 u => simp [unescape, hmod]
  | case3 u v => simp [unescape, hmod]
  | case4 v w us hi lo hlo hhi ih =>
    rw [unescape_escape hhi hlo, List.forall_mem_cons]
    have hhi := fromHexChar_lt hhi
    have hlo := fromHexChar_lt hlo
    exact ⟨by omega, ih⟩
  | case5 v w us hnot ih =>
    rw [unescape, if_pos rfl]
    split
    · next hi lo hhi hlo => exact absurd hlo (hnot hi lo hhi)
    · simp only [List.forall_mem_cons]
      exact ⟨hmod _, hmod _, hmod _, ih⟩
  | case6 u v w us hu ih =>
    rw [unescape_cons hu, List.forall_mem_cons]
    exact ⟨hmod u, ih⟩

/-- What is read from two hexadecimal digits is a byte. -/
theorem fromHex_lt {us value : List ℕ} (h : fromHex us = some value) : ∀ b ∈ value, b < 256 := by
  -- the cases of `fromHex`, which skips blanks and reads the digits in pairs
  induction us using fromHex.induct generalizing value with
  | case1 =>
    obtain rfl := Option.some.inj h
    exact fun b hb => absurd hb List.not_mem_nil
  | case2 u =>
    obtain rfl := Option.some.inj h
    exact fun b hb => absurd hb List.not_mem_nil
  | case3 v us ih =>
    rw [fromHex, if_pos rfl] at h
    exact ih h
  | case4 u v us hu hi lo hlo hhi ih =>
    rw [fromHex, if_neg hu, hhi, hlo] at h
    obtain ⟨bytes, hbytes, rfl⟩ := Option.map_eq_some_iff.mp h
    have hhi := fromHexChar_lt hhi
    have hlo := fromHexChar_lt hlo
    exact List.forall_mem_cons.mpr ⟨by omega, ih hbytes⟩
  | case5 u v us hu hnot =>
    rw [fromHex, if_neg hu] at h
    split at h
    · next hi lo hhi hlo => exact absurd hlo (hnot hi lo hhi)
    · exact absurd h (by simp)

/-- The component of a part is well formed. -/
theorem wellFormed_of_parseComponent {part : Str} {component : Component}
    (h : parseComponent part = some (some component)) : component.WellFormed := by
  unfold parseComponent at h
  -- a digest is 32 octets read as hexadecimal; any other component is unescaped
  split at h
  · cases hdigest : fromHex ((part.drop sha256digestPrefix.length).flatMap utf16) with
    | none =>
      rw [hdigest] at h
      exact absurd h (by simp)
    | some digest =>
      rw [hdigest] at h
      dsimp only at h
      split at h
      · next hlength =>
        obtain rfl := Option.some.inj (Option.some.inj h)
        exact ⟨fromHex_lt hdigest, hlength⟩
      · exact absurd h (by simp)
  · obtain ⟨value, hvalue, rfl⟩ := Option.map_eq_some_iff.mp (Option.some.inj h)
    unfold fromEscapedString at hvalue
    dsimp only at hvalue
    -- a value of periods alone: up to two are no component, of more of them three are dropped
    split at hvalue
    · split at hvalue
      · exact absurd hvalue (by simp)
      · obtain rfl := Option.some.inj hvalue
        exact fun b hb => unescape_lt _ b (List.mem_of_mem_drop hb)
    · obtain rfl := Option.some.inj hvalue
      exact unescape_lt _

/-! ### Names -/

/-- A part in front: its component, if it has one, comes first. -/
theorem parseParts_cons (part : Str) (parts : List Str) : parseParts (part :: parts) =
    (parseComponent part).bind fun component =>
      (parseParts parts).map fun components => component.toList ++ components := by
  unfold parseParts
  rw [List.mapM_cons]
  cases parseComponent part with
  | none => rfl
  | some component =>
    cases parts.mapM parseComponent with
    | none => rfl
    | some components =>
      cases component with
      | none => rfl
      | some component => rfl

/-- Parts are parsed one after the other. -/
theorem parseParts_append (parts parts' : List Str) : parseParts (parts ++ parts') =
    (parseParts parts).bind fun components =>
      (parseParts parts').map fun components' => components ++ components' := by
  induction parts with
  | nil =>
    show parseParts parts' = (parseParts parts').map fun components' => [] ++ components'
    cases parseParts parts' with
    | none => rfl
    | some components' => rfl
  | cons part parts ih =>
    rw [List.cons_append, parseParts_cons, ih, parseParts_cons]
    -- one part that does not parse fails the whole, wherever the cut is
    cases parseComponent part with
    | none => rfl
    | some component =>
      cases parseParts parts with
      | none => rfl
      | some components =>
        cases parseParts parts' with
        | none => rfl
        | some components' => simp

/-- What is parsed is well formed. -/
theorem wellFormed_of_parseParts {parts : List Str} {components : List Component}
    (h : parseParts parts = some components) : ∀ c ∈ components, c.WellFormed := by
  induction parts generalizing components with
  | nil =>
    obtain rfl := Option.some.inj h
    exact fun c hc => absurd hc List.not_mem_nil
  | cons part parts ih =>
    rw [parseParts_cons] at h
    obtain ⟨component, hpart, h⟩ := Option.bind_eq_some_iff.mp h
    obtain ⟨rest, hrest, rfl⟩ := Option.map_eq_some_iff.mp h
    intro c hc
    rcases List.mem_append.mp hc with hc | hc
    · exact wellFormed_of_parseComponent (hpart.trans (congrArg some (Option.mem_toList.mp hc)))
    · exact ih hrest c hc

/-- The components of a name that has been parsed are octets. -/
theorem wellFormed_of_set {uri : Str} {components : List Component}
    (h : set uri = some components) : ∀ c ∈ components, c.WellFormed := by
  have hnone : ∀ c ∈ ([] : List Component), c.WellFormed := fun c hc =>
    absurd hc List.not_mem_nil
  unfold set at h
  dsimp only at h
  split at h
  · obtain rfl := Option.some.inj h
    exact hnone
  · generalize (match find [':'] (trim uri), find ['/'] (trim uri) with
      | none, _ => trim uri
      | some iColon, none => trim ((trim uri).drop (iColon + 1))
      | some iColon, some iFirstSlash =>
        if iColon < iFirstSlash then trim ((trim uri).drop (iColon + 1)) else trim uri) = rest at h
    split at h
    · exact absurd h (by simp)
    · split at h
      · obtain rfl := Option.some.inj h
        exact hnone
      · exact wellFormed_of_parseParts h
    · exact wellFormed_of_parseParts h
    · exact wellFormed_of_parseParts h

/-- A printed name has one part for each component, behind the first slash. -/
theorem splitPath_toUri {components : List Component} (hne : components ≠ [])
    (h : ∀ c ∈ components, c.WellFormed) :
    splitPath (toUri components) = [] :: components.map Component.toEscapedString := by
  unfold toUri
  rw [if_neg hne, splitPath_path]
  intro part hpart
  obtain ⟨c, hc, rfl⟩ := List.mem_map.mp hpart
  exact fun hslash => (mem_toEscapedString (h c hc) '/' hslash).2 rfl

/-- The parts of a text that starts with a slash, but not with two, and has no blanks to trim. -/
theorem set_slash {c d : Char} {s : Str} (hhead : s.head? = some c) (hc : ¬c ≤ ' ')
    (hslash : c ≠ '/') (hlast : s.getLast? = some d) (hd : ¬d ≤ ' ') :
    set ('/' :: s) = parseParts (splitPath s) := by
  have htrim : trim s = s := by
    refine trim_eq_self_of_ends ?_ ?_
    · rw [hhead]
      exact fun x hx => Option.some.inj hx ▸ hc
    · rw [hlast]
      exact fun x hx => Option.some.inj hx ▸ hd
  have htrim' : trim ('/' :: s) = '/' :: s := by
    refine trim_eq_self_of_ends (fun x hx => ?_) ?_
    · obtain rfl := Option.some.inj hx
      decide
    · rw [List.getLast?_cons, hlast]
      exact fun x hx => Option.some.inj hx ▸ hd
  have hfirst : find ['/'] ('/' :: s) = some 0 := by
    unfold find
    exact if_pos (List.cons_prefix_cons.mpr ⟨rfl, List.nil_prefix⟩)
  obtain ⟨t, rfl⟩ : ∃ t, s = c :: t := by
    cases s with
    | nil => exact absurd hhead (by simp)
    | cons x t => exact ⟨t, congrArg (· :: t) (Option.some.inj hhead)⟩
  unfold set
  dsimp only
  rw [htrim', if_neg (List.cons_ne_nil _ _), hfirst]
  -- no colon comes before the first slash
  have hcolon : (match find [':'] ('/' :: c :: t), some 0 with
      | none, _ => '/' :: c :: t
      | some iColon, none => trim (('/' :: c :: t).drop (iColon + 1))
      | some iColon, some iFirstSlash =>
        if iColon < iFirstSlash then trim (('/' :: c :: t).drop (iColon + 1)) else '/' :: c :: t) =
      '/' :: c :: t := by
    cases find [':'] ('/' :: c :: t) with
    | none => rfl
    | some iColon => exact if_neg (Nat.not_lt_zero iColon)
  rw [hcolon]
  split
  · next h => exact absurd h (List.cons_ne_nil _ _)
  · next h => exact absurd (List.cons.inj (List.cons.inj h).2).1 hslash
  · next h =>
    obtain rfl := (List.cons.inj h).2
    rw [htrim]
  · next h => exact absurd rfl (h _)

/-- Printed components are parsed back. -/
theorem parseParts_toEscapedString {components : List Component}
    (h : ∀ c ∈ components, c.WellFormed) :
    parseParts (components.map Component.toEscapedString) = some components := by
  induction components with
  | nil => rfl
  | cons c components ih =>
    have hrest := ih fun d hd => h d (List.mem_cons_of_mem _ hd)
    rw [List.map_cons, parseParts_cons, hrest,
      parseComponent_toEscapedString (h c List.mem_cons_self)]
    rfl

/-- **A printed name is parsed as this name.** -/
theorem set_toUri {components : List Component} (hne : components ≠ [])
    (h : ∀ c ∈ components, c.WellFormed) : set (toUri components) = some components := by
  have huri : toUri components = path (components.map Component.toEscapedString) := if_neg hne
  obtain ⟨s, hs⟩ : ∃ s, toUri components = '/' :: s := by
    rw [huri]
    cases components with
    | nil => exact absurd rfl hne
    | cons c components => exact ⟨_, rfl⟩
  have hparts : splitPath s = components.map Component.toEscapedString := by
    have hsplit := splitPath_toUri hne h
    rw [hs, ← List.nil_append ('/' :: s), splitPath_append_slash] at hsplit
    exact (List.cons.inj hsplit).2
  have hblank : ∀ c ∈ s, ¬c ≤ ' ' := by
    intro c hc
    have hmem : c ∈ path (components.map Component.toEscapedString) := by
      rw [← huri, hs]
      exact List.mem_cons_of_mem _ hc
    obtain ⟨part, hpart, hc⟩ := List.mem_flatMap.mp hmem
    obtain ⟨component, hcomponent, rfl⟩ := List.mem_map.mp hpart
    rcases List.mem_cons.mp hc with rfl | hc
    · decide
    · exact (mem_toEscapedString (h component hcomponent) c hc).1
  have hfirst : ∀ rest : List Str, splitPath s ≠ [] :: rest := by
    intro rest hsplit
    obtain ⟨component, _, heq⟩ : ∃ component ∈ components, component.toEscapedString = [] := by
      refine List.mem_map.mp ?_
      rw [← hparts, hsplit]
      exact List.mem_cons_self
    exact toEscapedString_ne_nil component heq
  -- the first part is not empty, so that neither the text is nor a second slash follows the first
  cases s with
  | nil => exact absurd rfl (hfirst [])
  | cons c s =>
    have hslash : c ≠ '/' := by
      rintro rfl
      exact hfirst (splitPath s) (splitPath_append_slash [] s)
    have hlast := List.getLast?_eq_some_getLast (List.cons_ne_nil c s)
    rw [hs, set_slash rfl (hblank c List.mem_cons_self) hslash hlast
      (hblank _ (List.getLast_mem _)), hparts]
    exact parseParts_toEscapedString h

end Jndn

end OpenGeoBase
