import OpenGeoBase.Fes.ContentObject
import OpenGeoBase.Fes.LongInsert
import OpenGeoBase.Lib.Utf8
import OpenGeoBase.Ndn.JndnName
import OpenGeoBase.Repo.HttpMessage
import OpenGeoBase.Repo.InterestSafety

/-!
# How a long object is transferred

The front end puts the document of a long object into a file, in a gzip stream, and sends an
interest with the address of this file. The repository reads the address out of the name, fetches
the file over HTTP, unpacks it, and parses the document.

The name is one of jndn: the address is a component of its own, whose slashes and colons are
printed as escapes. The repository decodes the whole URI and looks for the word in front of the
address. It finds the address again (`onInterest_insertRequest`), unless the name of the repository
has one of the words in it.

What is unpacked stands at the start of an array, and what the array held before follows it, as far
as the first zero. The parser stops at the end of the document, so this does no harm
(`insertLongData_downloaded`).
-/

namespace OpenGeoBase

open Text AtomicCalls Happyhttp

/-! ### The interest -/

/-- The octets of a text. -/
def utf8Octets (s : Str) : List ℕ := (Utf8.encode s).map UInt8.toNat

/-- The path of a file in the front end, without the slash in front. -/
def zipPath (fileName : Str) : Str := "OGB/files/gz/download/".toList ++ fileName

/-- The address that `createZipFile` returns. -/
def zipURL (FES_IP FES_PORT fileName : Str) : Str :=
  FES_IP ++ ':' :: (FES_PORT ++ '/' :: zipPath fileName)

/-- The name of the interest of `sendInsertInterest`, behind the name of the repository. -/
def insertRequest (repoName : List (List ℕ)) (zipURL : Str) : List (List ℕ) :=
  repoName ++ [utf8Octets "INSERT_REQUEST".toList, utf8Octets zipURL]

/-! ### Reading a printed name -/

section Printed

variable {b : ℕ} {octets : List ℕ} {s w p : Str}

/-- An octet is printed as it is, unless it is a percent sign, or as an escape of its digits. -/
theorem uriOctet_cases (hb : b < 256) :
    (uriOctet b = [Char.ofNat b] ∧ Char.ofNat b ≠ '%') ∨
      (uriOctet b = ['%', uriOctet.toDigit (b / 16), uriOctet.toDigit (b % 16)] ∧
        hex2dec (uriOctet.toDigit (b / 16)) = some (b / 16) ∧
        hex2dec (uriOctet.toDigit (b % 16)) = some (b % 16)) := by
  revert b
  apply Jndn.forall_octet
  decide

/-- Decoding undoes the escapes of a URI byte by byte. -/
theorem uriDecode_uriOctets (h : ∀ b ∈ octets, b < 256) :
    uriDecode (octets.flatMap uriOctet) = octets.map Char.ofNat := by
  induction octets with
  | nil => rfl
  | cons b octets ih =>
    have hb := h b List.mem_cons_self
    have hrest := ih fun b' hb' => h b' (List.mem_cons_of_mem b hb')
    rw [List.flatMap_cons, List.map_cons, ← hrest]
    rcases uriOctet_cases hb with ⟨hprint, hne⟩ | ⟨hprint, hhi, hlo⟩
    · rw [hprint]
      exact uriDecode_append (by simpa using Ne.symm hne)
    · rw [hprint, List.cons_append, List.cons_append, List.cons_append, List.nil_append, uriDecode]
      simp only [hhi, hlo, decide_true, Nat.div_add_mod']

/-- What a component comes to, when it is printed and decoded: its octets, with three more dots if
it has no others. -/
def decodedComponent (octets : List ℕ) : Str :=
  ((if octets.all (· == '.'.toNat) then List.replicate 3 '.'.toNat else []) ++ octets).map
    Char.ofNat

theorem uriDecode_uriComponent (h : ∀ b ∈ octets, b < 256) :
    uriDecode (uriComponent octets) = decodedComponent octets := by
  rw [Jndn.uriComponent_eq, uriDecode_uriOctets (Jndn.mem_dots_append h), decodedComponent]

/-- The parts between the slashes are decoded apart. -/
theorem uriDecode_path (cs : List Str) : uriDecode (path cs) = path (cs.map uriDecode) := by
  have hslash : ∀ t, uriDecode ('/' :: t) = '/' :: uriDecode t := fun t =>
    uriDecode_append (w := ['/']) (by decide)
  induction cs with
  | nil => rfl
  | cons c cs ih =>
    have hcons : ∀ (c : Str) cs, path (c :: cs) = '/' :: (c ++ path cs) := fun _ _ => rfl
    rw [List.map_cons, hcons, hcons, hslash, ← ih]
    cases cs with
    | nil => simp [path, uriDecode]
    | cons d cs => rw [hcons, uriDecode_append_slash, hslash]

theorem toUri_of_ne_nil {name : List (List ℕ)} (hne : name ≠ []) :
    octetNames.toUri name = path (name.map uriComponent) := by
  obtain ⟨c, name, rfl⟩ := List.exists_cons_of_ne_nil hne
  rfl

theorem uriDecode_toUri {name : List (List ℕ)} (hne : name ≠ [])
    (h : ∀ c ∈ name, ∀ b ∈ c, b < 256) :
    uriDecode (octetNames.toUri name) = path (name.map decodedComponent) := by
  rw [toUri_of_ne_nil hne, uriDecode_path, List.map_map]
  refine congrArg path (List.map_congr_left fun c hc => ?_)
  exact uriDecode_uriComponent (h c hc)

/-- The path of two lists is one path after the other. -/
theorem path_append (cs ds : List Str) : path (cs ++ ds) = path cs ++ path ds := List.flatMap_append

/-- **The first occurrence of a word** behind its slash. -/
theorem find_append (hw : '/' ∉ w) (hp : ¬('/' :: w) <:+: p) (rest : Str) :
    find ('/' :: w) (p ++ ('/' :: w ++ rest)) = some p.length := by
  induction p with
  | nil => exact if_pos (List.prefix_append _ rest)
  | cons c p ih =>
    rw [List.infix_cons_iff, not_or] at hp
    obtain ⟨hnot, hp⟩ := hp
    rw [List.cons_append, find, if_neg, ih hp]
    · rfl
    · -- an occurrence would end in `p`, or have the second slash in it
      intro hprefix
      obtain ⟨hc, htail⟩ := List.cons_prefix_cons.mp hprefix
      rcases List.prefix_or_prefix_of_prefix htail (List.prefix_append p _) with h | ⟨t, rfl⟩
      · exact hnot (List.cons_prefix_cons.mpr ⟨hc, h⟩)
      · rw [List.prefix_append_right_inj] at htail
        cases t with
        | nil => exact hnot (List.cons_prefix_cons.mpr ⟨hc, by rw [List.append_nil]⟩)
        | cons d t =>
          obtain rfl := (List.cons_prefix_cons.mp htail).1
          exact hw (List.mem_append_right p List.mem_cons_self)

/-- What comes behind a character of a text. -/
theorem substr_append (p q : Str) (c : Char) (t : Str) :
    substr (p ++ (q ++ c :: t)) (p.length + q.length + 1) = .ok t := by
  have hwhole : p ++ (q ++ c :: t) = p ++ q ++ [c] ++ t := by simp
  have hlength : p.length + q.length + 1 = (p ++ q ++ [c]).length := by simp [add_assoc]
  rw [hwhole, hlength, substr_of_le (by simp), List.drop_left]

end Printed

/-! ### The address is found again -/

section Address

/-- An ASCII text is encoded by the codes of its characters. -/
theorem utf8Octets_eq {s : Str} (h : IsAscii s) : utf8Octets s = s.map Char.toNat := by
  unfold utf8Octets
  induction s with
  | nil => rfl
  | cons c s ih =>
    have hc := h c List.mem_cons_self
    have hone : String.utf8EncodeChar c = [UInt8.ofNat c.toNat] := by
      refine String.utf8EncodeChar_eq_singleton (Char.utf8Size_eq_one_iff.mpr ?_)
      exact UInt32.le_iff_toNat_le.mpr (Nat.lt_succ_iff.mp hc)
    rw [Utf8.encode_cons, List.map_append, ih fun d hd => h d (List.mem_cons_of_mem c hd), hone,
      List.map_cons, List.map_cons, UInt8.toNat_ofNat', Nat.mod_eq_of_lt (by omega)]
    rfl

/-- The encoding consists of bytes. -/
theorem lt_of_mem_utf8Octets {s : Str} {b : ℕ} (hb : b ∈ utf8Octets s) : b < 256 := by
  obtain ⟨byte, -, rfl⟩ := List.mem_map.mp hb
  exact UInt8.toNat_lt byte

/-- A text of such characters comes through as it is, if it is not one of dots alone. -/
theorem decodedComponent_utf8Octets {s : Str} (h : IsAscii s) {c : Char} (hc : c ∈ s)
    (hdot : c ≠ '.') : decodedComponent (utf8Octets s) = s := by
  rw [utf8Octets_eq h]
  have hplain : ¬(s.map Char.toNat).all (· == '.'.toNat) = true := by
    intro hall
    have heq := List.all_eq_true.mp hall c.toNat (List.mem_map_of_mem hc)
    exact hdot (Char.toNat_inj.mp (beq_iff_eq.mp heq))
  unfold decodedComponent
  rw [if_neg hplain, List.nil_append, List.map_map]
  have hid : Char.ofNat ∘ Char.toNat = id := funext Char.ofNat_toNat
  rw [hid, List.map_id]

/-- What the front end and the repository rely on. -/
structure IsAddress (repoName : List (List ℕ)) (FES_IP FES_PORT fileName : Str) : Prop where
  isOctet : ∀ c ∈ repoName, ∀ b ∈ c, b < 256
  /-- The name of the repository is not taken for another word. -/
  noQuery : ∀ c ∈ insertRequest repoName (zipURL FES_IP FES_PORT fileName),
    ¬"QUERY%3D".toList <+: uriComponent c
  noRequest : ¬"/INSERT_REQUEST".toList <:+: path (repoName.map decodedComponent)
  ascii : IsAscii (zipURL FES_IP FES_PORT fileName)
  host : ':' ∉ FES_IP ∧ '/' ∉ FES_IP
  port : FES_PORT ≠ [] ∧ IsDigits FES_PORT
  int : digitsValue FES_PORT < 2 ^ 31

variable {repoName : List (List ℕ)} {FES_IP FES_PORT fileName : Str} (lib : StorageLibrary)
  (threshold : ℤ) (sorts : ℕ → ℕ → CounterSort) (bound : ℕ)

/-- What is done with what has been fetched, behind the reply. -/
def insertFetched (lib : StorageLibrary) (reply : Handled lib.names) :
    Option Str → Prog Db (Handled lib.names)
  | none => pure { reply with ending := .stopped }
  | some data_string => do
    let id ← insertLongData lib data_string
    pure { reply with ending := if id.isSome then .returned else .stopped }

/-- All components of the request consist of bytes. -/
theorem IsAddress.forall_octet (h : IsAddress repoName FES_IP FES_PORT fileName) :
    ∀ c ∈ insertRequest repoName (zipURL FES_IP FES_PORT fileName), ∀ b ∈ c, b < 256 := by
  intro c hc b hb
  rcases List.mem_append.mp hc with hc | hc
  · exact h.isOctet c hc b hb
  · rcases List.mem_cons.mp hc with rfl | hc
    · exact lt_of_mem_utf8Octets hb
    · rw [List.mem_singleton.mp hc] at hb
      exact lt_of_mem_utf8Octets hb

/-- The whole name, printed and decoded. -/
theorem IsAddress.uriDecode_eq (h : IsAddress repoName FES_IP FES_PORT fileName) :
    uriDecode (octetNames.toUri (insertRequest repoName (zipURL FES_IP FES_PORT fileName))) =
      path (repoName.map decodedComponent) ++
        ("/INSERT_REQUEST".toList ++ '/' :: zipURL FES_IP FES_PORT fileName) := by
  -- The two components of the request are ASCII and not dots only, so each is decoded to itself.
  have hword : decodedComponent (utf8Octets "INSERT_REQUEST".toList) = "INSERT_REQUEST".toList :=
    decodedComponent_utf8Octets (c := 'I') (by decide) (by decide)
      (by decide)
  have hurl : decodedComponent (utf8Octets (zipURL FES_IP FES_PORT fileName)) =
      zipURL FES_IP FES_PORT fileName :=
    decodedComponent_utf8Octets (c := ':') h.ascii (by simp [zipURL]) (by decide)
  rw [uriDecode_toUri (by simp [insertRequest]) h.forall_octet, insertRequest, List.map_append,
    path_append,
    List.map_cons, List.map_cons, List.map_nil, hword, hurl]
  have htwo : ∀ c d : Str, path [c, d] = '/' :: c ++ '/' :: d := by
    intro c d
    simp [path]
  rw [htwo]
  rfl

/-- The interest is taken for what it is. -/
theorem IsAddress.dispatch_eq (h : IsAddress repoName FES_IP FES_PORT fileName) :
    dispatch (octetNames.toUri (insertRequest repoName (zipURL FES_IP FES_PORT fileName))) =
      .requestInsert := by
  have hne : insertRequest repoName (zipURL FES_IP FES_PORT fileName) ≠ [] := by
    simp [insertRequest]
  -- Both keywords are looked for with their slash, so they are looked for in the components.
  have hsplit : splitPath
      (octetNames.toUri (insertRequest repoName (zipURL FES_IP FES_PORT fileName))) =
        [] :: (insertRequest repoName (zipURL FES_IP FES_PORT fileName)).map uriComponent := by
    rw [toUri_of_ne_nil hne, splitPath_path]
    intro part hpart
    obtain ⟨c, hc, rfl⟩ := List.mem_map.mp hpart
    exact fun hslash => (Jndn.mem_uriComponent (h.forall_octet c hc) '/' hslash).2.1 rfl
  have hquery : ¬(find "/QUERY%3D".toList (octetNames.toUri
      (insertRequest repoName (zipURL FES_IP FES_PORT fileName)))).isSome = true := by
    rw [show "/QUERY%3D".toList = '/' :: "QUERY%3D".toList from rfl,
      find_isSome_iff List.mem_cons_self, hsplit]
    rintro ⟨part, hpart, hprefix⟩
    obtain ⟨c, hc, rfl⟩ := List.mem_map.mp hpart
    exact h.noQuery c hc hprefix
  have hrequest : (find "/INSERT_REQUEST".toList (octetNames.toUri
      (insertRequest repoName (zipURL FES_IP FES_PORT fileName)))).isSome = true := by
    rw [show "/INSERT_REQUEST".toList = '/' :: "INSERT_REQUEST".toList from rfl,
      find_isSome_iff (by decide), hsplit]
    refine ⟨uriComponent (utf8Octets "INSERT_REQUEST".toList), ?_, by decide⟩
    exact List.mem_map_of_mem (List.mem_append_right repoName List.mem_cons_self)
  unfold dispatch
  rw [if_neg hquery, if_pos hrequest]

/-- **The repository fetches the file that the front end has written**, and inserts what is in
it. -/
theorem onInterest_insertRequest (h : IsAddress repoName FES_IP FES_PORT fileName)
    (ndn : ReadLibrary { lib with names := octetNames })
    (lruCache : List (List ℕ) → Option (Packet octetNames)) (reponame : Str) :
    onInterest { lib with names := octetNames } ndn threshold sorts bound lruCache reponame
        (insertRequest repoName (zipURL FES_IP FES_PORT fileName)) =
      insertFetched { lib with names := octetNames }
        (sendReply octetNames (insertRequest repoName (zipURL FES_IP FES_PORT fileName)) [])
        (ndn.httpGet FES_IP (some (digitsValue FES_PORT)) ('/' :: zipPath fileName)) := by
  have hname := List.append_ne_nil_of_right_ne_nil repoName (List.cons_ne_nil
    (utf8Octets "INSERT_REQUEST".toList) [utf8Octets (zipURL FES_IP FES_PORT fileName)])
  have hreply : (sendReply octetNames (insertRequest repoName (zipURL FES_IP FES_PORT fileName))
      []).ending = .returned :=
    ending_sendReply hname (Nat.zero_le _)
  obtain ⟨hcolon, hslash⟩ := h.host
  obtain ⟨hne, hdigits⟩ := h.port
  -- The handler takes the address apart as it was put together: the keyword,
  have hstart : find "/INSERT_REQUEST".toList (uriDecode (octetNames.toUri
      (insertRequest repoName (zipURL FES_IP FES_PORT fileName)))) =
        some (path (repoName.map decodedComponent)).length := by
    rw [h.uriDecode_eq]
    exact find_append (by decide) h.noRequest _
  -- the URL behind it,
  have hurl : substr (uriDecode (octetNames.toUri
      (insertRequest repoName (zipURL FES_IP FES_PORT fileName))))
        ((path (repoName.map decodedComponent)).length + "/INSERT_REQUEST".toList.length + 1) =
      .ok (zipURL FES_IP FES_PORT fileName) := by
    rw [h.uriDecode_eq]
    exact substr_append _ _ '/' _
  -- the port, which is a number,
  have hport : stoi FES_PORT = .ok (digitsValue FES_PORT) := by
    have hread := @ReadsInt.intro [] [] FES_PORT [] false (by simp)
      (by simp [numeralSigns]) hne hdigits (by simp)
    rw [List.append_nil] at hread
    have hint := h.int
    exact stoi_eq_ok_iff.mpr ⟨hread, by simp, by simpa using by exact_mod_cast hint⟩
  -- and host and port in front of the first slash.
  have hcut : cutAt '/' (zipURL FES_IP FES_PORT fileName) =
      (FES_IP ++ ':' :: FES_PORT, zipPath fileName) := by
    have hfree : '/' ∉ FES_IP ++ ':' :: FES_PORT := by
      intro hmem
      rcases List.mem_append.mp hmem with hmem | hmem
      · exact hslash hmem
      · rcases List.mem_cons.mp hmem with heq | hmem
        · exact absurd heq (by decide)
        · exact absurd (hdigits '/' hmem) (by decide)
    have hsame : zipURL FES_IP FES_PORT fileName =
        FES_IP ++ ':' :: FES_PORT ++ '/' :: zipPath fileName := by simp [zipURL]
    rw [hsame]
    exact cutAt_append hfree
  have hcut' : cutAt ':' (FES_IP ++ ':' :: FES_PORT) = (FES_IP, FES_PORT) := cutAt_append hcolon
  have hhas : '/' ∈ zipURL FES_IP FES_PORT fileName := by simp [zipURL]
  have hhas' : ':' ∈ FES_IP ++ ':' :: FES_PORT := by simp
  unfold onInterest
  rw [show dispatch (octetNames.toUri _) = _ from h.dispatch_eq]
  dsimp only
  unfold requestInsert
  dsimp only
  rw [if_neg (not_not.mpr hreply), hstart]
  dsimp only
  rw [hurl]
  dsimp only
  rw [hcut, if_pos hhas, hcut', if_pos hhas', hport]
  dsimp only [Except.map]
  cases ndn.httpGet FES_IP (some (digitsValue FES_PORT)) ('/' :: zipPath fileName) with
  | none => rfl
  | some data_string => rfl

end Address

/-! ### The document is obtained -/

section Document

variable {number : ℚ → Str} {c : Char}

/-- No control characters. -/
def IsPrintable (s : Str) : Prop := ∀ c ∈ s, ¬c < ' '

instance (s : Str) : Decidable (IsPrintable s) := List.decidableBAll _ _

/-- Two printable texts are one. -/
theorem IsPrintable.append {s t : Str} (hs : IsPrintable s) (ht : IsPrintable t) :
    IsPrintable (s ++ t) := by
  intro c hc
  rcases List.mem_append.mp hc with hc | hc
  · exact hs c hc
  · exact ht c hc

theorem IsPrintable.cons {s : Str} (hc : ¬c < ' ') (hs : IsPrintable s) : IsPrintable (c :: s) :=
  IsPrintable.append (s := [c]) (by simpa [IsPrintable] using hc) hs

/-- A control character is written as an escape, which is printable. -/
theorem isPrintable_writeControl (h : c < ' ') : IsPrintable (writeControl c) := by
  obtain ⟨k, hk, rfl⟩ := exists_ofNat_of_control h
  have hall : ∀ k < 32, (writeControl (Char.ofNat k)).all (fun c => !decide (c < ' ')) = true := by
    decide
  intro c hc
  simpa using List.all_eq_true.mp (hall k hk) c hc

/-- Control characters in a string are escaped. -/
theorem isPrintable_writeString (s : Str) : IsPrintable (writeString s) := by
  -- What would not be printable is escaped.
  have hchar : ∀ c, IsPrintable (writeChar c) := by
    intro c
    unfold writeChar
    split_ifs with hescape hcontrol
    · refine .cons (by decide) (.cons ?_ fun d hd => absurd hd List.not_mem_nil)
      rcases hescape with rfl | rfl <;> decide
    · exact isPrintable_writeControl hcontrol
    · exact .cons hcontrol fun d hd => absurd hd List.not_mem_nil
  have hchars : IsPrintable (writeChars s) := by
    intro c hc
    obtain ⟨d, -, hc⟩ := List.mem_flatMap.mp hc
    exact hchar d c hc
  exact .cons (by decide) (hchars.append (by decide))

/-- Written strings are printable whatever is in them. -/
theorem isPrintable_moreStrings {α : Type} (f : α → Str) (xs : List α) :
    IsPrintable (writeMoreElements number (xs.map fun x => .string (f x))) := by
  induction xs with
  | nil => exact fun c hc => absurd hc List.not_mem_nil
  | cons x xs ih => exact .cons (by decide) ((isPrintable_writeString (f x)).append ih)

/-- The whole document of a long insertion is printable, whatever the content is. -/
theorem isPrintable_httpInsertion (contentObjectList : List (List ℕ)) (content : Str) :
    IsPrintable (HttpInsertion number contentObjectList content) := by
  -- From the inside out: the segments in base64, their array, the two members, the object.
  have hstrings : IsPrintable (writeElements number
      (contentObjectList.map fun segment => .string (base64_encode segment))) := by
    cases contentObjectList with
    | nil => exact fun c hc => absurd hc List.not_mem_nil
    | cons segment segments =>
      exact (isPrintable_writeString _).append (isPrintable_moreStrings base64_encode segments)
  have harray := IsPrintable.cons (c := '[') (by decide)
    (hstrings.append (show IsPrintable [']'] by decide))
  have hsegments := (isPrintable_writeString "segments".toList).append
    (IsPrintable.cons (c := ':') (by decide) (harray.append (show IsPrintable [] by decide)))
  have hcontent := (isPrintable_writeString "content".toList).append
    (IsPrintable.cons (c := ':') (by decide) ((isPrintable_writeString content).append
      (IsPrintable.cons (c := ',') (by decide) hsegments)))
  exact IsPrintable.cons (by decide) (hcontent.append (show IsPrintable ['\x7d'] by decide))

/-- The byte zero stands for the character zero only: all others of one byte are that byte, and the
bytes of longer ones have a bit set. -/
theorem zero_notMem_utf8EncodeChar (h : ¬c < ' ') : 0 ∉ String.utf8EncodeChar c := by
  have hor : ∀ a b : UInt8, b ≠ 0 → 0 ≠ a ||| b := by
    intro a b hb heq
    exact hb (UInt8.or_eq_zero_iff.mp heq.symm).2
  -- A single byte is the code of the character, and every byte of a longer encoding has its top bit
  -- set.
  rcases Char.utf8Size_eq c with hsize | hsize | hsize | hsize
  · have hle : c.toNat ≤ 127 := UInt32.le_iff_toNat_le.mp (Char.utf8Size_eq_one_iff.mp hsize)
    have hge : ' '.toNat ≤ c.toNat := UInt32.le_iff_toNat_le.mp (Char.not_lt.mp h)
    rw [String.utf8EncodeChar_eq_singleton hsize, List.mem_singleton]
    intro hzero
    have hnat := congrArg UInt8.toNat hzero
    rw [UInt32.toNat_toUInt8] at hnat
    change 0 = c.toNat % 256 at hnat
    change 32 ≤ c.toNat at hge
    omega
  · rw [String.utf8EncodeChar_eq_cons_cons hsize]
    simp [hor]
  · rw [String.utf8EncodeChar_eq_cons_cons_cons hsize]
    simp [hor]
  · rw [String.utf8EncodeChar_eq_cons_cons_cons_cons hsize]
    simp [hor]

/-- Only the character 0 is encoded with a zero byte. -/
theorem zero_notMem_encode {s : Str} (h : IsPrintable s) : 0 ∉ Utf8.encode s := by
  intro hmem
  obtain ⟨c, hc, hbyte⟩ := List.mem_flatMap.mp hmem
  exact zero_notMem_utf8EncodeChar (h c hc) hbyte

end Document

/-! ### What follows the document -/

section Garbage

variable {number : ℚ → Str} {lib : StorageLibrary}

/-- **The parser stops behind an object**, and does not look at what follows it. -/
theorem parseDocument_append {m : Str × Value} {ms : List (Str × Value)}
    (h : ∀ q ∈ (Value.object (m :: ms)).numbers, WritesNumber number q) (garbage : Str) :
    parseDocument true (writeValue number (.object (m :: ms)) ++ garbage) =
      some (.object (m :: ms)) := by
  have hbegins : BeginsValue (writeValue number (.object (m :: ms)) ++ garbage) :=
    (beginsValue_writeValue h).append
  have hpos := (beginsValue_writeValue h).length_pos (w := garbage)
  -- The reader has a step for every character twice, more than the members take.
  obtain ⟨n, hn⟩ : ∃ n, 2 * (writeValue number (.object (m :: ms)) ++ garbage).length = n + 1 :=
    Nat.exists_eq_succ_of_ne_zero (by omega)
  have hmembers : parseMembers n (writeMembers number (m :: ms) ++ '}' :: garbage) =
      some (m :: ms, garbage) := by
    refine parseMembers_write n m ms h ?_
    simp only [writeValue, List.cons_append, List.append_assoc, List.length_cons,
      List.length_append, List.length_nil] at hn ⊢
    omega
  have hvalue : parseValue (n + 1) (writeValue number (.object (m :: ms)) ++ garbage) =
      some (.object (m :: ms), garbage) := by
    change parseObject (parseMembers n) (writeMembers number (m :: ms) ++ ['}'] ++ garbage) = _
    rw [List.append_assoc]
    change (parseMembers n (writeMembers number (m :: ms) ++ '}' :: garbage)).map _ = _
    rw [hmembers]
    rfl
  unfold parseDocument
  rw [hn, hbegins.skipWhitespace_eq, hvalue]
  rfl

/-- What follows the document does not matter to the insertion. -/
theorem insertLongData_append (hlib : ExactJson lib) (contentObjectList : List (List ℕ))
    (content garbage : Str) :
    insertLongData lib (HttpInsertion number contentObjectList content ++ garbage) =
      insertLongData lib (HttpInsertion number contentObjectList content) := by
  have hnumbers : ∀ q ∈ (Value.object [("content".toList, .string content), ("segments".toList,
      .array (contentObjectList.map fun segment => .string (base64_encode segment)))]).numbers,
      WritesNumber number q := by
    intro q hq
    simp [Value.numbers, Value.numbersOfMembers, numbersOfElements_strings] at hq
  have hparse : lib.parseStopWhenDone (HttpInsertion number contentObjectList content ++ garbage) =
      lib.parseStopWhenDone (HttpInsertion number contentObjectList content) := by
    rw [hlib.parseStopWhenDone, hlib.parseStopWhenDone, HttpInsertion,
      parseDocument_append hnumbers, parseDocument_write true hnumbers]
  unfold insertLongData
  rw [hparse]

end Garbage

/-! ### The whole way -/

section Transfer

variable {number : ℚ → Str} {lib : StorageLibrary} {zlib : Zlib}

/-- **The repository inserts what the front end has sent**, in whichever portions the file arrives
and whatever the memory for it held before. -/
theorem insertLongData_downloaded (hlib : ExactJson lib) (hdoc : zlib.Documented) {m : Message}
    {portions : List (List UInt8)} (hne : ∀ portion ∈ portions, portion ≠ [])
    (hbytes : portions.flatten = m.encode) {more : List Received}
    (hclosed : m.body.tellsEnd = false → more.head? = some .closed) (hbody : m.body ≠ .sized [])
    {contentObjectList : List (List ℕ)} {content : Str}
    (hinit : (zlib.inflateInit2 m.body.content
      (uncRoom m.body.content m.body.content.length)).isSome)
    (hzip : zlib.content m.body.content =
      some (Utf8.encode (HttpInsertion number contentObjectList content)))
    (hroom : (Utf8.encode (HttpInsertion number contentObjectList content)).length ≤
      uncRoom m.body.content m.body.content.length) (memory : List UInt8) :
    ∃ buffer, (pumpAll requested (portions.map .bytes ++ more)).out.foldlM handle ⟨none, []⟩ =
        some ⟨none, [buffer]⟩ ∧
      ∃ calls uncompressed_json, OnComplete zlib memory calls buffer = some uncompressed_json ∧
        insertLongData lib (Utf8.decode uncompressed_json) =
          insertLongData lib (HttpInsertion number contentObjectList content) := by
  refine ⟨m.body.content, handle_download hne hbytes hclosed hbody, ?_⟩
  -- The download gives the zipped bytes, unzipping gives the document with what the memory held
  -- behind it, and the reader stops at the end of the document.
  obtain ⟨infstream, hstream⟩ := Option.isSome_iff_exists.mp hinit
  obtain ⟨calls, hunzip⟩ : ∃ calls, OnComplete zlib memory calls m.body.content = some _ :=
    exists_OnComplete hdoc hstream hzip hroom
  refine ⟨calls, _, hunzip, ?_⟩
  have hkeep : ∀ b ∈ Utf8.encode (HttpInsertion number contentObjectList content),
      decide (b ≠ 0) = true := by
    intro b hb
    refine decide_eq_true ?_
    rintro rfl
    exact zero_notMem_encode (isPrintable_httpInsertion contentObjectList content) hb
  rw [List.takeWhile_append_of_pos hkeep, Utf8.decode_append, insertLongData_append hlib]

end Transfer

section Examples

/-- The parser itself, and names over octets. -/
private def octetLibrary : StorageLibrary where
  names := octetNames
  parse := parseDocument false
  parseStopWhenDone := parseDocument true
  regexMatches _ _ := false
  intersects _ _ _ := false

/-- A document without an object, and the file it is put into. -/
private def smallDocument : Str := HttpInsertion (fun _ => []) [[6]] ['c']

private def smallFile : List UInt8 :=
  [31, 139, 8, 0, 0, 0, 0, 0, 0, 255, 1, 35, 0, 220, 255] ++
    (Utf8.encode smallDocument ++ [5, 191, 8, 200, 35, 0, 0, 0])

/-- A front end that has this file. -/
private def fileLibrary : ReadLibrary octetLibrary where
  packets := { wireEncode := fun _ _ => [], wireDecode := fun _ => none }
  matchesQuery _ := none
  referenceJson := nameDocument
  nameJson := nameDocument
  httpGet host port path :=
    if host = "127.0.0.1".toList ∧ port = some 8080 ∧
      path = "/OGB/files/gz/download/file".toList then some smallDocument else none

private def fileRequest : List (List ℕ) :=
  insertRequest [utf8Octets "OGB".toList, utf8Octets "repo".toList]
    (zipURL "127.0.0.1".toList "8080".toList "file".toList)

/-- The request of a small file, run through the repository. -/
theorem onInterest_insertRequest_file :
    onInterest octetLibrary fileLibrary 1 (fun _ _ => .stable) 0 (fun _ => none) "repo".toList
        fileRequest =
      insertFetched octetLibrary (sendReply octetNames fileRequest []) (some smallDocument) := by
  have hdigits : "8080".toList ≠ [] ∧ IsDigits "8080".toList :=
    ⟨by decide, List.all_eq_true.mp (by decide)⟩
  have haddress : IsAddress [utf8Octets "OGB".toList, utf8Octets "repo".toList] "127.0.0.1".toList
      "8080".toList "file".toList :=
    ⟨by decide, by decide, by decide, by decide, by decide, hdigits,
      by decide⟩
  have hfile : fileLibrary.httpGet "127.0.0.1".toList (some (digitsValue "8080".toList))
      ('/' :: zipPath "file".toList) = some smallDocument := by decide
  rw [← hfile]
  exact onInterest_insertRequest octetLibrary 1 (fun _ _ => .stable) 0 haddress fileLibrary _ _

private theorem isLine_folded_nil : ∀ s ∈ ([] : List Str), IsLine s := List.forall_mem_nil _

private theorem folded_no_blank_nil : ∀ s ∈ ([] : List Str), ∀ c ∈ s.head?, isSpace c = false :=
  List.forall_mem_nil _

private def lengthHeader : Header where
  name := "Content-Length".toList
  value := "58".toList
  folded := []
  isLine_name := by decide
  isLine_value := by decide
  isLine_folded := isLine_folded_nil
  no_colon := by decide
  no_blank := forall_mem_head? rfl (by decide)
  folded_no_blank := folded_no_blank_nil
  value_no_blank := forall_mem_head? rfl (by decide)

private theorem interim_continue_nil : ∀ h ∈ ([] : List Head), h.status = 100 :=
  List.forall_mem_nil _

private def fileMessage : Message where
  interim := []
  head := okHead [lengthHeader]
  body := .sized smallFile
  interim_continue := interim_continue_nil
  head_final := by decide
  announced := by
    have hlength : smallFile.length = 58 := by decide +kernel
    have hplain : headerMap [lengthHeader] "transfer-encoding".toList = none := by decide
    refine ⟨?_, Or.inr ⟨by decide, hlength ▸ (by decide), "58".toList, by decide, by decide,
      List.all_eq_true.mp (by decide), hlength ▸ (by decide)⟩⟩
    rintro ⟨value, hvalue, -⟩
    exact absurd (hplain.symm.trans hvalue) (by simp)

/-- The array for the document was full of braces. -/
theorem insertLongData_downloaded_file :
    ∃ buffer, (pumpAll requested ([fileMessage.encode].map .bytes ++ [])).out.foldlM handle
        ⟨none, []⟩ = some ⟨none, [buffer]⟩ ∧
      ∃ calls uncompressed_json, OnComplete (streamZlib smallFile (Utf8.encode smallDocument))
          (List.replicate 70 125) calls buffer = some uncompressed_json ∧
        insertLongData octetLibrary (Utf8.decode uncompressed_json) =
          insertLongData octetLibrary smallDocument :=
  insertLongData_downloaded (m := fileMessage) ⟨fun _ => rfl, fun _ => rfl⟩
    (documented_streamZlib _ _) (by decide) (by simp) (fun h => absurd h (by decide))
    (fun h => List.cons_ne_nil _ _ (Body.sized.inj h)) rfl (if_pos rfl) (by decide +kernel) _

end Examples

end OpenGeoBase
