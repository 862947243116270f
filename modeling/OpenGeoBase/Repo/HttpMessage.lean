import OpenGeoBase.Repo.HttpConnection

/-!
# What an HTTP message comes to

A message as a server sends it: responses that say to continue, which are not the last one, then a
response with its headers, and its body. The body comes in chunks, or has the length that a header
tells, or goes on until the server closes the connection.

What is downloaded is the body of the message, in whichever portions it arrives
(`download_message`). One kind of message is never read to its end: a body of length zero. `pump`
looks for the end of a body in a loop over bytes that are still to be read, and there are none, so
the response waits until the server closes the connection, and throws then.
-/

namespace OpenGeoBase.Happyhttp

open Text Emits

/-! ### Messages -/

/-- A text that can stand in a line. -/
def IsLine (s : Str) : Prop := ∀ c ∈ s, c.toNat < 256 ∧ c ≠ '\r' ∧ c ≠ '\n' ∧ c ≠ '\x00'

instance (s : Str) : Decidable (IsLine s) := List.decidableBAll _ _

/-- What holds of the first character holds of every character at the head. -/
theorem forall_mem_head? {P : Char → Prop} {s : Str} {c : Char} (hs : s.head? = some c) (h : P c) :
    ∀ c' ∈ s.head?, P c' := by
  rintro c' hc'
  rw [Option.mem_def, hs] at hc'
  exact Option.some.inj hc' ▸ h

/-- The bytes of a line. -/
def lineBytes (s : Str) : List UInt8 := s.map (fun c => UInt8.ofNat c.toNat) ++ [13, 10]

/-- A header. Its value may go on in further lines, which start with a blank. -/
structure Header where
  name : Str
  value : Str
  folded : List Str
  isLine_name : IsLine name
  isLine_value : IsLine value
  isLine_folded : ∀ s ∈ folded, IsLine s
  no_colon : ':' ∉ name
  no_blank : ∀ c ∈ name.head?, isSpace c = false
  folded_no_blank : ∀ s ∈ folded, ∀ c ∈ s.head?, isSpace c = false
  value_no_blank : ∀ c ∈ (value ++ folded.flatMap (' ' :: ·)).head?, c ≠ ' ' ∧ c ≠ '\t'

namespace Header

variable (h : Header)

/-- The whole value. -/
def text : Str := h.value ++ h.folded.flatMap (' ' :: ·)

def firstLine : Str := h.name ++ ": ".toList ++ h.value

def encode : List UInt8 :=
  lineBytes h.firstLine ++ h.folded.flatMap fun s => lineBytes (' ' :: s)

end Header

/-- The value of each header; the last one counts. -/
def headerMap (headers : List Header) : Str → Option Str :=
  headers.foldl (fun m_Headers h => Function.update m_Headers (toLower h.name) (some h.text))
    fun _ => none

/-- A status line of HTTP/1.0 or HTTP/1.1, and headers. -/
structure Head where
  minor : Str
  digits : Str
  reason : Str
  headers : List Header
  isLine_minor : IsLine minor
  isLine_reason : IsLine reason
  no_space : ' ' ∉ minor
  isDigit : ∀ c ∈ digits, isDigitIn 10 c = true
  status_ge : 100 ≤ valueIn 10 digits
  status_le : valueIn 10 digits ≤ 999

namespace Head

variable (h : Head)

def status : ℕ := valueIn 10 h.digits

def version : Str := "HTTP/1.".toList ++ h.minor

def statusLine : Str := h.version ++ ' ' :: (h.digits ++ ' ' :: h.reason)

def encode : List UInt8 :=
  lineBytes h.statusLine ++ h.headers.flatMap Header.encode ++ lineBytes []

end Head

/-- What may follow the size of a chunk. -/
def IsExtension (s : Str) : Prop := IsLine s ∧ ∀ c ∈ s.head?, c = ';' ∨ c = ' ' ∨ c = '\t'

/-- A chunk, with its size in hexadecimal digits. -/
structure Chunk where
  digits : Str
  extension : Str
  bytes : List UInt8
  isDigit : ∀ c ∈ digits, isDigitIn 16 c = true
  size : valueIn 16 digits = bytes.length
  isExtension : IsExtension extension
  nonempty : bytes ≠ []
  small : bytes.length < 2 ^ 31

def Chunk.encode (c : Chunk) : List UInt8 :=
  lineBytes (c.digits ++ c.extension) ++ (c.bytes ++ lineBytes [])

/-- How a body is sent. The last one of its chunks has size zero, and trailers follow it. -/
inductive Body where
  | chunked (chunks : List Chunk) (zeros : ℕ) (extension : Str) (trailers : List Str)
  | sized (bytes : List UInt8)
  | untilClose (bytes : List UInt8)

namespace Body

def content : Body → List UInt8
  | chunked chunks _ _ _ => chunks.flatMap Chunk.bytes
  | sized bytes => bytes
  | untilClose bytes => bytes

def encode : Body → List UInt8
  | chunked chunks zeros extension trailers =>
    chunks.flatMap Chunk.encode ++ (lineBytes (List.replicate (zeros + 1) '0' ++ extension) ++
      (trailers.flatMap lineBytes ++ lineBytes []))
  | sized bytes => bytes
  | untilClose bytes => bytes

/-- The end of the body can be told without the end of the connection. -/
def tellsEnd : Body → Bool
  | chunked _ _ _ _ => true
  | sized bytes => !bytes.isEmpty
  | untilClose _ => false

/-- The transfer encoding says that there are chunks. -/
def SaysChunked (m_Headers : Str → Option Str) : Prop :=
  ∃ value ∈ m_Headers "transfer-encoding".toList, toLower value = "chunked".toList

/-- Responses with this status have no body. -/
def IsBodiless (status : ℕ) : Prop := status = 204 ∨ status = 304 ∨ status < 200

instance (status : ℕ) : Decidable (IsBodiless status) := inferInstanceAs (Decidable (_ ∨ _ ∨ _))

/-- The head says how the body is sent. -/
def IsAnnounced (m_Headers : Str → Option Str) (status : ℕ) : Body → Prop
  | chunked _ _ extension trailers =>
    SaysChunked m_Headers ∧ IsExtension extension ∧ ∀ s ∈ trailers, IsLine s ∧ s ≠ []
  | sized bytes =>
    ¬SaysChunked m_Headers ∧
      (IsBodiless status ∧ bytes = [] ∨
        ¬IsBodiless status ∧ bytes.length < 2 ^ 31 ∧
          ∃ digits ∈ m_Headers "content-length".toList, digits ≠ [] ∧
            (∀ c ∈ digits, isDigitIn 10 c = true) ∧ valueIn 10 digits = bytes.length)
  | untilClose _ =>
    ¬SaysChunked m_Headers ∧ ¬IsBodiless status ∧ m_Headers "content-length".toList = none

end Body

/-- What a server sends in reply to a request. -/
structure Message where
  interim : List Head
  head : Head
  body : Body
  interim_continue : ∀ h ∈ interim, h.status = 100
  head_final : head.status ≠ 100
  announced :
    body.IsAnnounced (headerMap (interim.flatMap Head.headers ++ head.headers)) head.status

def Message.encode (m : Message) : List UInt8 :=
  m.interim.flatMap Head.encode ++ (m.head.encode ++ m.body.encode)

/-! ### Reading a line -/

section Reading

variable {r r' r₁ : Response} {bytes bytes' : List UInt8} {calls calls' : List Callback}
  {line : Str}

/-- The response reads the bytes, with these calls, and is `r'` then. -/
def Reads (r : Response) (bytes : List UInt8) (calls : List Callback) (r' : Response) : Prop :=
  ∀ rest, r.pump (bytes ++ rest) = ⟨calls ++ (r'.pump rest).out, (r'.pump rest).result⟩

/-- Without bytes nothing is read. -/
theorem Reads.nil (r : Response) : Reads r [] [] r := fun _ => rfl

theorem Reads.append (h : Reads r bytes calls r₁) (h' : Reads r₁ bytes' calls' r') :
    Reads r (bytes ++ bytes') (calls ++ calls') r' := by
  intro rest
  rw [List.append_assoc, h, h', List.append_assoc]

/-- Without calls. -/
theorem Reads.trans (h : Reads r bytes [] r₁) (h' : Reads r₁ bytes' calls' r') :
    Reads r (bytes ++ bytes') calls' r' := h.append h'

/-- The empty line is a line. -/
theorem isLine_nil : IsLine [] := fun c hc => absurd hc (by simp)

/-- Two lines together are a line. -/
theorem IsLine.append {line' : Str} (h : IsLine line) (h' : IsLine line') :
    IsLine (line ++ line') := by
  intro c hc
  rcases List.mem_append.mp hc with hc | hc
  · exact h c hc
  · exact h' c hc

theorem isLine_blank : IsLine [' '] := by
  decide

/-- A line has no character 0 that would cut it short. -/
theorem IsLine.cStr (h : IsLine line) : cStr line = line :=
  cStr_eq_self fun hmem => (h _ hmem).2.2.2 rfl

/-- A line is accumulated whole up to its line feed. -/
theorem accumulateLine_lineBytes (h : IsLine line) (buf : Str) (rest : List UInt8) :
    Response.accumulateLine buf (lineBytes line ++ rest) = (buf ++ line, some rest) := by
  unfold lineBytes
  induction line generalizing buf with
  | nil =>
    rw [List.append_nil]
    rfl
  | cons c line ih =>
    -- No character of a line is a return or a line feed, so each is kept.
    obtain ⟨hlt, hreturn, hnewline, -⟩ := h c List.mem_cons_self
    have hbyte : byteChar (UInt8.ofNat c.toNat) = c := by
      rw [byteChar, UInt8.toNat_ofNat', Nat.mod_eq_of_lt hlt, Char.ofNat_toNat]
    rw [List.map_cons, List.cons_append, List.cons_append, Response.accumulateLine_cons, hbyte,
      if_neg hnewline, if_pos hreturn, ih (fun d hd => h d (List.mem_cons_of_mem c hd)),
      List.append_assoc]
    rfl

theorem lineBytes_ne_nil (line : Str) : lineBytes line ≠ [] := by simp [lineBytes]

/-- In every state but two the client reads lines. -/
theorem readsLine_of {s : ResponseState} (h : r.m_State = s) (hbody : s ≠ .BODY)
    (hcomplete : s ≠ .COMPLETE) : r.ReadsLine := ⟨h ▸ hbody, h ▸ hcomplete⟩

/-- **A whole line is processed.** -/
theorem reads_line (hr : r.ReadsLine) (hbuf : r.m_LineBuf = []) (hline : IsLine line)
    (h : ({ r with m_LineBuf := line } : Response).processLine = ⟨calls, .ok r'⟩) :
    Reads r (lineBytes line) calls r' := by
  intro rest
  have hgoes : r.Goes (lineBytes line ++ rest) :=
    ⟨List.append_ne_nil_of_left_ne_nil (lineBytes_ne_nil line) rest, hr.2⟩
  rw [Response.pump_of_goes hgoes, Response.iteration_line hr, hbuf,
    accumulateLine_lineBytes hline, List.nil_append]
  dsimp only
  rw [h]
  simp only [mk_ok_bind, out_pure, result_pure, List.append_nil]

end Reading

/-! ### Headers -/

section Headers

variable {r : Response} {headers : List Header} {status : ℕ}

/-- The header that is accumulated, when all its lines are read. -/
def Header.accum (h : Header) : Str := h.name ++ ": ".toList ++ h.text

/-- The headers, with the one that is accumulated. -/
def Response.headersSoFar (r : Response) : Str → Option Str :=
  if r.m_HeaderAccum = [] then r.m_Headers
  else
    let (header, value) := splitHeader r.m_HeaderAccum
    Function.update r.m_Headers header (some value)

/-- The response that has gone on to this header. -/
def Response.nextHeader (r : Response) (accum : Str) : Response :=
  { r with m_Headers := r.headersSoFar, m_HeaderAccum := accum }

/-- Flushing is starting another header with nothing in it. -/
theorem flushHeader_eq (r : Response) : r.flushHeader = r.nextHeader [] := by
  unfold Response.flushHeader Response.nextHeader Response.headersSoFar
  split
  · next hnil => rw [← hnil]
  · rfl

/-- A line among the headers is a header line. -/
theorem processLine_headers {r : Response} (h : r.m_State = .HEADERS) :
    r.processLine =
      (r.processHeaderLine r.m_LineBuf >>= fun r' => pure { r' with m_LineBuf := [] }) := by
  unfold Response.processLine
  rw [h]

/-- A line that is not empty and starts with no blank begins a header. -/
theorem reads_firstLine (hstate : r.m_State = .HEADERS) (hbuf : r.m_LineBuf = []) {line : Str}
    (hline : IsLine line) (hne : line ≠ []) (hblank : ∀ c ∈ line.head?, isSpace c = false) :
    Reads r (lineBytes line) [] (r.nextHeader line) := by
  refine reads_line (readsLine_of hstate (by decide) (by decide)) hbuf hline ?_
  -- The line does not begin with a blank, so it begins a new header.
  have hhead : ¬line.head?.any isSpace = true := by
    cases line with
    | nil => exact absurd rfl hne
    | cons c line => simp [hblank c rfl]
  rw [processLine_headers (by exact hstate)]
  unfold Response.processHeaderLine
  dsimp only
  rw [if_neg hne, hline.cStr, if_neg hhead, flushHeader_eq]
  unfold Response.nextHeader
  rw [← hbuf]
  rfl

/-- A line that starts with a blank goes on with the header. -/
theorem reads_foldedLine (hstate : r.m_State = .HEADERS) (hbuf : r.m_LineBuf = []) {line : Str}
    (hline : IsLine line) (hblank : ∀ c ∈ line.head?, isSpace c = false) :
    Reads r (lineBytes (' ' :: line)) []
      { r with m_HeaderAccum := r.m_HeaderAccum ++ ' ' :: line } := by
  have hall : IsLine (' ' :: line) := isLine_blank.append hline
  refine reads_line (readsLine_of hstate (by decide) (by decide)) hbuf hall ?_
  -- The line begins with a blank: it goes on with the header before it, after one blank.
  have hdrop : (' ' :: line).dropWhile isSpace = line := by
    rw [List.dropWhile_cons_of_pos (by decide)]
    cases line with
    | nil => rfl
    | cons c line => rw [List.dropWhile_cons_of_neg (by simp [hblank c rfl])]
  have hhead : (' ' :: line).head?.any isSpace = true := (by decide : isSpace ' ' = true)
  rw [processLine_headers (by exact hstate)]
  unfold Response.processHeaderLine
  dsimp only
  rw [if_neg (List.cons_ne_nil _ _), hall.cStr, if_pos hhead, hdrop, ← hbuf]
  rfl

/-- The first line of a header is a line. -/
theorem isLine_firstLine (h : Header) : IsLine h.firstLine :=
  (h.isLine_name.append (by decide)).append h.isLine_value

/-- **A header with its further lines.** -/
theorem reads_header (hstate : r.m_State = .HEADERS) (hbuf : r.m_LineBuf = []) (h : Header) :
    Reads r h.encode [] (r.nextHeader h.accum) := by
  have hne : h.firstLine ≠ [] := by simp [Header.firstLine]
  have hblank : ∀ c ∈ h.firstLine.head?, isSpace c = false := by
    intro c hc
    unfold Header.firstLine at hc
    cases hname : h.name with
    | nil =>
      rw [hname] at hc
      obtain rfl := Option.some.inj hc
      decide
    | cons d name =>
      rw [hname] at hc
      exact h.no_blank c (hname ▸ hc)
  -- the further lines, one after the other
  have hfolded : ∀ (folded : List Str) (accum : Str), (∀ s ∈ folded, IsLine s) →
      (∀ s ∈ folded, ∀ c ∈ s.head?, isSpace c = false) →
      Reads (r.nextHeader accum) (folded.flatMap fun s => lineBytes (' ' :: s)) []
        (r.nextHeader (accum ++ folded.flatMap (' ' :: ·))) := by
    intro folded
    induction folded with
    | nil =>
      intro accum _ _
      rw [List.flatMap_nil, List.flatMap_nil, List.append_nil]
      exact .nil _
    | cons s folded ih =>
      intro accum hlines hblanks
      have hfirst := reads_foldedLine (r := r.nextHeader accum) hstate hbuf
        (hlines s List.mem_cons_self) (hblanks s List.mem_cons_self)
      have hrest := ih (accum ++ ' ' :: s) (fun t ht => hlines t (List.mem_cons_of_mem s ht))
        fun t ht => hblanks t (List.mem_cons_of_mem s ht)
      rw [List.flatMap_cons, List.flatMap_cons, ← List.append_assoc]
      exact hfirst.trans hrest
  have haccum : h.accum = h.firstLine ++ h.folded.flatMap (' ' :: ·) := by
    simp [Header.accum, Header.firstLine, Header.text]
  rw [haccum]
  exact (reads_firstLine hstate hbuf (isLine_firstLine h) hne hblank).trans
    (hfolded h.folded h.firstLine h.isLine_folded h.folded_no_blank)

/-- A header is taken apart again. -/
theorem splitHeader_accum (h : Header) :
    Response.splitHeader h.accum = (toLower h.name, h.text) := by
  -- The accumulated text has no character 0, so the C string is the whole of it.
  have hline : IsLine h.accum := by
    refine (h.isLine_name.append (by decide)).append (h.isLine_value.append fun c hc => ?_)
    obtain ⟨s, hs, hmem⟩ := List.mem_flatMap.mp hc
    rcases List.mem_cons.mp hmem with rfl | hmem
    · decide
    · exact h.isLine_folded s hs c hmem
  -- It is cut at the first colon, which stands behind the name.
  have hname : ∀ c ∈ h.name, decide (c ≠ ':') = true := fun c hc =>
    decide_eq_true fun heq => h.no_colon (heq ▸ hc)
  unfold Response.splitHeader
  rw [hline.cStr]
  unfold Header.accum
  rw [List.append_assoc]
  dsimp only
  rw [List.takeWhile_append_of_pos hname, List.dropWhile_append_of_pos hname]
  -- The value does not begin with a blank, so nothing is skipped but the one written behind the
  -- colon.
  have hvalue : h.text.dropWhile (fun c => decide (c = ' ' ∨ c = '\t')) = h.text := by
    cases htext : h.text with
    | nil => rfl
    | cons c text =>
      have hc := h.value_no_blank c (by rw [← Header.text, htext]; rfl)
      rw [List.dropWhile_cons_of_neg (by simp [hc])]
  refine Prod.ext (congrArg toLower (List.append_nil h.name)) ?_
  exact hvalue

end Headers

/-! ### Heads -/

section Heads

variable {r r' : Response} {headers : List Header} {status : ℕ}

/-- What the response has read before a status line. -/
structure Starts (r : Response) (headers : List Header) : Prop where
  state : r.m_State = .STATUSLINE
  lineBuf : r.m_LineBuf = []
  method : r.m_Method = "GET".toList
  bytesRead : r.m_BytesRead = 0
  version : r.m_VersionString = [] ∨ r.m_VersionString.take 7 = "HTTP/1.".toList
  headers : r.m_Headers = headerMap headers

/-- What the response has read among the headers. -/
structure Collects (r : Response) (status : ℕ) (headers : List Header) : Prop where
  state : r.m_State = .HEADERS
  lineBuf : r.m_LineBuf = []
  method : r.m_Method = "GET".toList
  bytesRead : r.m_BytesRead = 0
  version : r.m_VersionString.take 7 = "HTTP/1.".toList
  status : r.m_Status = status
  headers : r.headersSoFar = headerMap headers

/-- A later header with the same name replaces the earlier one. -/
theorem headerMap_append_singleton (headers : List Header) (h : Header) :
    headerMap (headers ++ [h]) =
      Function.update (headerMap headers) (toLower h.name) (some h.text) := by
  unfold headerMap
  rw [List.foldl_append]
  rfl

/-- A header that is accumulated counts. -/
theorem headersSoFar_nextHeader (r : Response) (h : Header) :
    (r.nextHeader h.accum).headersSoFar =
      Function.update r.headersSoFar (toLower h.name) (some h.text) := by
  have hne : (r.nextHeader h.accum).m_HeaderAccum ≠ [] := by
    simp [Response.nextHeader, Header.accum]
  have hsplit : Response.splitHeader (r.nextHeader h.accum).m_HeaderAccum =
      (toLower h.name, h.text) := splitHeader_accum h
  rw [Response.headersSoFar, if_neg hne, hsplit]
  rfl

/-- The header that is complete is collected with the next one. -/
theorem Collects.nextHeader (hr : Collects r status headers) (h : Header) :
    Collects (r.nextHeader h.accum) status (headers ++ [h]) where
  state := hr.state
  lineBuf := hr.lineBuf
  method := hr.method
  bytesRead := hr.bytesRead
  version := hr.version
  status := hr.status
  headers := by rw [headersSoFar_nextHeader, hr.headers, headerMap_append_singleton]

/-- **The headers are collected.** -/
theorem Collects.reads_headers (hr : Collects r status headers) (headers' : List Header) :
    ∃ r', Collects r' status (headers ++ headers') ∧
      Reads r (headers'.flatMap Header.encode) [] r' := by
  induction headers' generalizing r headers with
  | nil => exact ⟨r, by rwa [List.append_nil], .nil r⟩
  | cons h headers' ih =>
    obtain ⟨r', hr', hreads⟩ := ih (hr.nextHeader h)
    refine ⟨r', by rwa [List.append_cons], ?_⟩
    rw [List.flatMap_cons]
    exact (reads_header hr.state hr.lineBuf h).trans hreads

/-- Digits make a line. -/
theorem isLine_digits {base : ℕ} {digits : Str} (h : ∀ c ∈ digits, isDigitIn base c = true) :
    IsLine digits := by
  intro c hc
  have hdigit := isSome_of_isDigitIn (h c hc)
  have hle : c.toNat ≤ 'z'.toNat := (bounds_of_digitOf hdigit).2
  refine ⟨hle.trans_lt (by decide), ?_, ?_, ?_⟩ <;> exact ne_of_digitOf hdigit (by decide)

/-- A status line is a line. -/
theorem isLine_statusLine (h : Head) : IsLine h.statusLine := by
  have hversion : IsLine h.version := IsLine.append (by decide) h.isLine_minor
  have hrest : IsLine (' ' :: h.reason) := isLine_blank.append h.isLine_reason
  have hstatus : IsLine (' ' :: (h.digits ++ ' ' :: h.reason)) :=
    isLine_blank.append ((isLine_digits h.isDigit).append hrest)
  exact hversion.append hstatus

/-- A word ends at the first blank. -/
theorem takeWhile_word {w t : Str} (h : ' ' ∉ w) :
    (w ++ ' ' :: t).takeWhile (· ≠ ' ') = w := by
  have hword : ∀ c ∈ w, decide (c ≠ ' ') = true := fun c hc =>
    decide_eq_true fun heq => h (heq ▸ hc)
  rw [List.takeWhile_append_of_pos hword]
  exact List.append_nil w

/-- The rest behind a word begins with the blank. -/
theorem dropWhile_word {w t : Str} (h : ' ' ∉ w) :
    (w ++ ' ' :: t).dropWhile (· ≠ ' ') = ' ' :: t := by
  have hword : ∀ c ∈ w, decide (c ≠ ' ') = true := fun c hc =>
    decide_eq_true fun heq => h (heq ▸ hc)
  rw [List.dropWhile_append_of_pos hword]
  rfl

/-- Spaces are skipped in front of a word. -/
theorem dropWhile_spaces {w t : Str} (h : ' ' ∉ w) (hne : w ≠ []) :
    (w ++ t).dropWhile (· = ' ') = w ++ t := by
  obtain ⟨c, w, rfl⟩ := List.exists_cons_of_ne_nil hne
  have hc : c ≠ ' ' := fun heq => h (by simp [heq])
  rw [List.cons_append, List.dropWhile_cons_of_neg (by simp [hc])]

/-- `atoi` reads a short run of digits as their number. -/
theorem atoi_digits {digits : Str} (hdigits : ∀ c ∈ digits, isDigitIn 10 c = true)
    (hne : digits ≠ []) (hlt : valueIn 10 digits < 2 ^ 31) : atoi digits = valueIn 10 digits := by
  have hread := @strtol_append 10 digits [] hdigits hne (hlt.trans (by decide)) (by simp)
  rw [List.append_nil] at hread
  unfold atoi
  rw [hread]
  exact Int.bmod_eq_of_le (by omega) (by omega)

/-- The version of a status line is not empty. -/
theorem Head.version_ne_nil (h : Head) : h.version ≠ [] :=
  List.append_ne_nil_of_left_ne_nil (by decide) h.minor

/-- The digits of a status line are not empty. -/
theorem Head.digits_ne_nil (h : Head) : h.digits ≠ [] := by
  intro hnil
  have hge := h.status_ge
  rw [hnil] at hge
  exact absurd hge (by decide)

/-- The first line of a message is its status line. -/
theorem processLine_statusLine (h : r.m_State = .STATUSLINE) :
    r.processLine =
      (r.processStatusLine r.m_LineBuf >>= fun r' => pure { r' with m_LineBuf := [] }) := by
  unfold Response.processLine
  rw [h]

/-- **A status line.** -/
theorem Starts.reads_statusLine (hr : Starts r headers) (h : Head) :
    ∃ r', Collects r' h.status headers ∧ Reads r (lineBytes h.statusLine) [] r' := by
  have hspace : ' ' ∉ h.version := by
    intro hmem
    rcases List.mem_append.mp hmem with hmem | hmem
    · exact absurd hmem (by decide)
    · exact h.no_space hmem
  have hdigits : ' ' ∉ h.digits := fun hmem => absurd (h.isDigit _ hmem) (by decide)
  have hstatus : atoi h.digits = h.status := by
    have hle := h.status_le
    exact atoi_digits h.isDigit h.digits_ne_nil (by omega)
  -- an earlier response has left its version
  have hversion : (r.m_VersionString ++ h.version).take 7 = "HTTP/1.".toList := by
    rcases hr.version with hnil | hprefix
    · rw [hnil]
      rfl
    · have hlen : 7 ≤ r.m_VersionString.length := by
        have hlength := congrArg List.length hprefix
        rw [List.length_take] at hlength
        change min 7 r.m_VersionString.length = 7 at hlength
        omega
      rw [List.take_append_of_le_length hlen, hprefix]
  have hone : r.m_VersionString ++ h.version ≠ "HTTP:/1.0".toList := fun heq =>
    absurd (heq ▸ hversion) (by decide)
  have hline := isLine_statusLine h
  let r' : Response := { r with
    m_VersionString := r.m_VersionString ++ h.version
    m_Version := 11
    m_Status := h.status
    m_Reason := r.m_Reason ++ h.reason.dropWhile (· = ' ')
    m_State := .HEADERS
    m_HeaderAccum := [] }
  refine ⟨r', ⟨rfl, hr.lineBuf, hr.method, hr.bytesRead, hversion, rfl, hr.headers⟩, ?_⟩
  refine reads_line (readsLine_of hr.state (by decide) (by decide)) hr.lineBuf hline ?_
  have hfirst : (cStr h.statusLine).dropWhile (· = ' ') = h.statusLine := by
    rw [hline.cStr, Head.statusLine]
    exact dropWhile_spaces hspace h.version_ne_nil
  have hsecond : (' ' :: (h.digits ++ ' ' :: h.reason)).dropWhile (· = ' ') =
      h.digits ++ ' ' :: h.reason := dropWhile_spaces hdigits h.digits_ne_nil
  have hprocess : ({ r with m_LineBuf := h.statusLine } : Response).processStatusLine h.statusLine =
      pure { r' with m_LineBuf := h.statusLine } := by
    unfold Response.processStatusLine
    dsimp only
    rw [hfirst, Head.statusLine, takeWhile_word hspace, dropWhile_word hspace, hsecond,
      takeWhile_word hdigits, dropWhile_word hdigits, hstatus, if_neg hone, if_pos hversion]
    have hrange : ¬((h.status : ℤ) < 100 ∨ (999 : ℤ) < h.status) := by
      have hge := h.status_ge
      have hle := h.status_le
      unfold Head.status
      omega
    rw [if_neg hrange]
    rfl
  rw [processLine_statusLine (by exact hr.state)]
  dsimp only
  rw [hprocess, pure_bind, ← hr.lineBuf]
  rfl

/-- What the response knows of its body when it begins. -/
structure Begun (r : Response) (status : ℕ) (m_Headers : Str → Option Str) : Prop where
  lineBuf : r.m_LineBuf = []
  bytesRead : r.m_BytesRead = 0
  chunked : r.m_Chunked = true ↔ Body.SaysChunked m_Headers
  state : r.m_State = if r.m_Chunked then .CHUNKLEN else .BODY
  length : r.m_Chunked = false → r.m_Length =
    if Body.IsBodiless status then 0
    else match m_Headers "content-length".toList with
      | some contentlen => atoi contentlen
      | none => -1

/-- A blank line is read as the step on the empty line. -/
theorem reads_blank (hr : r.ReadsLine) (hbuf : r.m_LineBuf = []) {calls : List Callback}
    (h : r.processLine = ⟨calls, .ok r'⟩) : Reads r (lineBytes []) calls r' := by
  refine reads_line hr hbuf isLine_nil ?_
  have hsame : ({ r with m_LineBuf := [] } : Response) = r := by rw [← hbuf]
  rw [hsame, h]

/-- Behind the headers of a response that says to continue comes another one. -/
theorem Collects.reads_continue (hr : Collects r status headers) (hstatus : status = 100) :
    ∃ r', Starts r' headers ∧ Reads r (lineBytes []) [] r' := by
  have hcontinue : (r.nextHeader []).m_Status = CONTINUE := by
    rw [CONTINUE, ← Nat.cast_ofNat, ← hstatus]
    exact hr.status
  -- The interim response is dropped, and its headers stay collected.
  refine ⟨{ r.nextHeader [] with m_State := .STATUSLINE, m_LineBuf := [] },
    ⟨rfl, rfl, hr.method, hr.bytesRead, Or.inr hr.version, hr.headers⟩,
    reads_blank (readsLine_of hr.state (by decide) (by decide)) hr.lineBuf ?_⟩
  rw [processLine_headers hr.state, hr.lineBuf]
  unfold Response.processHeaderLine
  rw [if_pos rfl, flushHeader_eq]
  dsimp only
  rw [if_pos hcontinue]
  rfl

/-- Headers are compared without regard to case. -/
theorem headerIs_eq_true {name value : Str} :
    r.headerIs name value = true ↔
      ∃ v ∈ r.m_Headers (toLower name), toLower v = toLower value := by
  unfold Response.headerIs Response.getheader
  cases r.m_Headers (toLower name) with
  | none => simp
  | some v => simp

/-- **The body begins** behind the headers of any other response. -/
theorem Collects.reads_begin (hr : Collects r status headers) (hge : 100 ≤ status)
    (hstatus : status ≠ 100) :
    ∃ r', Begun r' status (headerMap headers) ∧ Reads r (lineBytes []) [.begin] r' := by
  -- The status is final, so the empty line begins the body.
  have hgo : (r.nextHeader []).m_Status ≠ CONTINUE := by
    have heq : (r.nextHeader []).m_Status = status := hr.status
    rw [heq, CONTINUE]
    omega
  obtain ⟨r', hbegin⟩ : ∃ r', (r.nextHeader []).beginBody = ⟨[.begin], .ok r'⟩ := ⟨_, rfl⟩
  refine ⟨{ r' with m_LineBuf := [] }, ?_,
    reads_blank (readsLine_of hr.state (by decide) (by decide)) hr.lineBuf ?_⟩
  · obtain rfl := Except.ok.inj (congrArg Emits.result hbegin)
    have hheaders : (r.nextHeader []).m_Headers = headerMap headers := hr.headers
    -- What the source tests about the status, the method and the headers is what the specification
    -- says.
    have hbodiless : (r.nextHeader []).hasNoBody = true ↔ Body.IsBodiless status := by
      have hcode : (r.nextHeader []).m_Status = status := hr.status
      have hget : (r.nextHeader []).m_Method ≠ "HEAD".toList := by
        rw [show (r.nextHeader []).m_Method = "GET".toList from hr.method]
        decide
      unfold Response.hasNoBody Body.IsBodiless NO_CONTENT NOT_MODIFIED
      rw [decide_eq_true_iff, hcode]
      simp only [hget, or_false]
      omega
    have hchunked : (r.nextHeader []).headerIs "transfer-encoding".toList "chunked".toList = true ↔
        Body.SaysChunked (headerMap headers) := by
      rw [headerIs_eq_true, hheaders]
      exact Iff.rfl
    refine ⟨rfl, hr.bytesRead, hchunked, rfl, fun h => ?_⟩
    dsimp only at h ⊢
    rw [h, Response.getheader, hheaders]
    simp only [hbodiless, Bool.false_eq_true, if_false]
    rfl
  · rw [processLine_headers hr.state, hr.lineBuf]
    unfold Response.processHeaderLine
    rw [if_pos rfl, flushHeader_eq]
    dsimp only
    rw [if_neg hgo, hbegin]
    rfl

/-- A whole head, up to the blank line. -/
theorem Starts.reads_lines (hr : Starts r headers) (h : Head) :
    ∃ r', Collects r' h.status (headers ++ h.headers) ∧
      Reads r (lineBytes h.statusLine ++ h.headers.flatMap Header.encode) [] r' := by
  obtain ⟨r₁, hr₁, hstatusLine⟩ := hr.reads_statusLine h
  obtain ⟨r', hr', hheaders⟩ := hr₁.reads_headers h.headers
  exact ⟨r', hr', hstatusLine.trans hheaders⟩

/-- Any number of interim heads is read before the final one. -/
theorem Starts.reads_interim (hr : Starts r headers) {interim : List Head}
    (hcontinue : ∀ h ∈ interim, h.status = 100) :
    ∃ r', Starts r' (headers ++ interim.flatMap Head.headers) ∧
      Reads r (interim.flatMap Head.encode) [] r' := by
  induction interim generalizing r headers with
  | nil => exact ⟨r, by rwa [List.flatMap_nil, List.append_nil], .nil r⟩
  | cons h interim ih =>
    obtain ⟨r₁, hr₁, hlines⟩ := hr.reads_lines h
    obtain ⟨r₂, hr₂, hblank⟩ := hr₁.reads_continue (hcontinue h List.mem_cons_self)
    obtain ⟨r', hr', hrest⟩ := ih hr₂ fun h' hh' => hcontinue h' (List.mem_cons_of_mem h hh')
    refine ⟨r', by rwa [List.flatMap_cons, ← List.append_assoc], ?_⟩
    rw [List.flatMap_cons]
    exact (hlines.trans hblank).trans hrest

/-- A new response is at the start of a message. -/
theorem starts_fresh : Starts (.fresh "GET".toList) [] := ⟨rfl, rfl, rfl, rfl, Or.inl rfl, rfl⟩

/-- **The heads of a message**: then its body begins. -/
theorem reads_heads (m : Message) :
    ∃ r, Begun r m.head.status (headerMap (m.interim.flatMap Head.headers ++ m.head.headers)) ∧
      Reads (.fresh "GET".toList) (m.interim.flatMap Head.encode ++ m.head.encode) [.begin] r := by
  obtain ⟨r₁, hr₁, hinterim⟩ := starts_fresh.reads_interim m.interim_continue
  obtain ⟨r₂, hr₂, hlines⟩ := hr₁.reads_lines m.head
  obtain ⟨r, hr, hblank⟩ := hr₂.reads_begin m.head.status_ge m.head_final
  exact ⟨r, hr, hinterim.trans (hlines.trans hblank)⟩

end Heads

/-! ### Bodies -/

section Bodies

variable {r r' : Response} {bytes : List UInt8} {status : ℕ} {m_Headers : Str → Option Str}

/-- **Bytes that are expected** are read in one go. -/
theorem reads_bytes (hstate : r.m_State = .BODY) (hleft : r.remaining = some (bytes.length : ℤ))
    (hne : bytes ≠ []) :
    Reads r bytes (.data bytes :: r.endCalls bytes.length) (r.advance bytes.length) := by
  intro rest
  -- One turn of the loop uses all the bytes that remain, whatever follows them.
  have hgoes : r.Goes (bytes ++ rest) :=
    ⟨List.append_ne_nil_of_left_ne_nil hne rest, by simp [hstate]⟩
  have hused : r.used (bytes ++ rest) = bytes.length := by
    unfold Response.used
    rw [hleft, List.length_append]
    dsimp only
    omega
  have hnonneg : ¬(bytes.length : ℤ) < 0 := by omega
  rw [Response.pump_of_goes hgoes, Response.iteration_body hstate, hused, if_neg hnonneg,
    Int.toNat_natCast, List.take_left, List.drop_left]
  rfl

/-- The response reads chunks, and is in front of one. -/
structure InChunks (r : Response) : Prop where
  state : r.m_State = .CHUNKLEN
  lineBuf : r.m_LineBuf = []
  chunked : r.m_Chunked = true

/-- The line with the size of a chunk is read in any case. -/
theorem InChunks.reads_size (hr : InChunks r) {line : Str} (hline : IsLine line) :
    Reads r (lineBytes line) [] (r.processChunkLenLine line) := by
  refine reads_line (readsLine_of hr.state (by decide) (by decide)) hr.lineBuf hline ?_
  have hstate : ({ r with m_LineBuf := line } : Response).m_State = .CHUNKLEN := hr.state
  -- The line buffer is empty before and after, so resetting it changes nothing.
  have hprocess : { ({ r with m_LineBuf := line } : Response).processChunkLenLine line with
      m_LineBuf := [] } = r.processChunkLenLine line := by
    unfold Response.processChunkLenLine
    dsimp only
    rw [← hr.lineBuf]
    split <;> rfl
  rw [← hprocess]
  unfold Response.processLine
  rw [hstate]
  rfl

/-- The size that is read, behind which an extension may follow. -/
theorem chunkLeft_eq {digits extension : Str} (hdigits : ∀ c ∈ digits, isDigitIn 16 c = true)
    (hne : digits ≠ []) (hlt : valueIn 16 digits < 2 ^ 31) (hextension : IsExtension extension) :
    (strtol 16 (cStr (digits ++ extension))).bmod (2 ^ 32) = valueIn 16 digits := by
  have hline : IsLine (digits ++ extension) := (isLine_digits hdigits).append hextension.1
  have hend : ∀ c ∈ extension.head?, isDigitIn 16 c = false ∧ c ≠ 'x' ∧ c ≠ 'X' := by
    intro c hc
    rcases hextension.2 c hc with rfl | rfl | rfl <;> decide
  rw [hline.cStr, strtol_append hdigits hne (hlt.trans (by decide)) hend]
  exact Int.bmod_eq_of_le (by omega) (by omega)

/-- **A chunk**, from its size to the line end behind it. -/
theorem InChunks.reads_chunk (hr : InChunks r) (c : Chunk) :
    ∃ r', InChunks r' ∧ Reads r c.encode [.data c.bytes] r' := by
  have hpos : 0 < c.bytes.length := List.length_pos_of_ne_nil c.nonempty
  have hne : c.digits ≠ [] := by
    intro hnil
    have hsize := c.size
    rw [hnil] at hsize
    exact absurd hsize (Nat.ne_of_lt hpos)
  -- A chunk is read in three parts: the line with its size,
  have hleft := chunkLeft_eq c.isDigit hne (c.size ▸ c.small) c.isExtension
  rw [c.size] at hleft
  have hsize := hr.reads_size ((isLine_digits c.isDigit).append c.isExtension.1)
  have hbody : r.processChunkLenLine (c.digits ++ c.extension) =
      { r with m_ChunkLeft := c.bytes.length, m_State := .BODY } := by
    unfold Response.processChunkLenLine
    dsimp only
    rw [hleft, if_neg (by omega)]
  rw [hbody] at hsize
  let r₁ : Response := { r with m_ChunkLeft := c.bytes.length, m_State := .BODY }
  have hremaining : r₁.remaining = some (c.bytes.length : ℤ) := if_pos hr.chunked
  -- its bytes,
  have hbytes := reads_bytes (r := r₁) rfl hremaining c.nonempty
  have hcalls : r₁.endCalls c.bytes.length = [] := by simp [Response.endCalls, r₁, hr.chunked]
  have hstate : (r₁.advance c.bytes.length).m_State = .CHUNKEND :=
    (if_pos hremaining).trans (if_pos hr.chunked)
  rw [hcalls] at hbytes
  refine ⟨{ r₁.advance c.bytes.length with m_State := .CHUNKLEN, m_LineBuf := [] },
    ⟨rfl, rfl, hr.chunked⟩, ?_⟩
  -- and the line break behind them.
  have hblank : Reads (r₁.advance c.bytes.length) (lineBytes []) []
      { r₁.advance c.bytes.length with m_State := .CHUNKLEN, m_LineBuf := [] } := by
    refine reads_blank (readsLine_of hstate (by decide) (by decide)) hr.lineBuf ?_
    unfold Response.processLine
    rw [hstate]
    rfl
  exact hsize.trans (hbytes.append hblank)

/-- All the chunks before the last are read, each called back as data. -/
theorem InChunks.reads_chunks (hr : InChunks r) (chunks : List Chunk) :
    ∃ r', InChunks r' ∧
      Reads r (chunks.flatMap Chunk.encode) (chunks.map fun c => .data c.bytes) r' := by
  induction chunks generalizing r with
  | nil => exact ⟨r, hr, .nil r⟩
  | cons c chunks ih =>
    obtain ⟨r₁, hr₁, hfirst⟩ := hr.reads_chunk c
    obtain ⟨r', hr', hrest⟩ := ih hr₁
    exact ⟨r', hr', hfirst.append hrest⟩

/-- A line behind the last chunk is a trailer line. -/
theorem processLine_trailers (h : r.m_State = .TRAILERS) :
    r.processLine =
      (r.processTrailerLine r.m_LineBuf >>= fun r' => pure { r' with m_LineBuf := [] }) := by
  unfold Response.processLine
  rw [h]

/-- Trailers are skipped. -/
theorem reads_trailers (hstate : r.m_State = .TRAILERS) (hbuf : r.m_LineBuf = [])
    {trailers : List Str} (h : ∀ s ∈ trailers, IsLine s ∧ s ≠ []) :
    Reads r (trailers.flatMap lineBytes) [] r := by
  induction trailers with
  | nil => exact .nil r
  | cons s trailers ih =>
    obtain ⟨hline, hne⟩ := h s List.mem_cons_self
    -- A trailer is read and forgotten.
    have hfirst : Reads r (lineBytes s) [] r := by
      refine reads_line (readsLine_of hstate (by decide) (by decide)) hbuf hline ?_
      rw [processLine_trailers (by exact hstate)]
      unfold Response.processTrailerLine
      dsimp only
      rw [if_neg hne, ← hbuf]
      rfl
    rw [List.flatMap_cons]
    exact hfirst.trans (ih fun t ht => h t (List.mem_cons_of_mem s ht))

/-- **The end of the chunks.** -/
theorem InChunks.reads_last (hr : InChunks r) (zeros : ℕ) {extension : Str}
    (hextension : IsExtension extension) {trailers : List Str}
    (htrailers : ∀ s ∈ trailers, IsLine s ∧ s ≠ []) :
    ∃ r', r'.m_State = .COMPLETE ∧
      Reads r (lineBytes (List.replicate (zeros + 1) '0' ++ extension) ++
        (trailers.flatMap lineBytes ++ lineBytes [])) [.complete] r' := by
  have hzero : ∀ c ∈ List.replicate (zeros + 1) '0', isDigitIn 16 c = true := by
    intro c hc
    rw [List.eq_of_mem_replicate hc]
    decide
  -- The size of the last chunk is zero in any number of digits.
  have hvalue : ∀ n, valueIn 16 (List.replicate n '0') = 0 := by
    intro n
    induction n with
    | zero => rfl
    | succ n ih => exact ih
  have hleft := chunkLeft_eq hzero (by simp) (by rw [hvalue]; decide) hextension
  rw [hvalue] at hleft
  have hsize := hr.reads_size ((isLine_digits hzero).append hextension.1)
  let r₁ : Response := { r with m_ChunkLeft := 0, m_State := .TRAILERS, m_HeaderAccum := [] }
  have htrailer : r.processChunkLenLine (List.replicate (zeros + 1) '0' ++ extension) = r₁ := by
    unfold Response.processChunkLenLine
    dsimp only
    rw [hleft]
    rfl
  rw [htrailer] at hsize
  refine ⟨{ r₁ with m_State := .COMPLETE, m_LineBuf := [] }, rfl, hsize.trans ?_⟩
  -- Behind the trailers an empty line completes the message.
  have hblank : Reads r₁ (lineBytes []) [.complete]
      { r₁ with m_State := .COMPLETE, m_LineBuf := [] } := by
    have hstate : r₁.m_State = .TRAILERS := rfl
    refine reads_blank (readsLine_of hstate (by decide) (by decide)) hr.lineBuf ?_
    rw [processLine_trailers hstate]
    unfold Response.processTrailerLine
    rw [if_pos hr.lineBuf]
    rfl
  exact (reads_trailers (r := r₁) rfl hr.lineBuf htrailers).trans hblank

/-- A sized body has all its bytes ahead. -/
theorem Begun.remaining_of_sized (hr : Begun r status m_Headers) (hchunked : r.m_Chunked = false)
    (hlength : r.m_Length = bytes.length) :
    r.remaining = some (bytes.length : ℤ) := by
  have hknown : r.m_Length ≠ -1 := by omega
  unfold Response.remaining
  rw [hchunked, if_neg Bool.false_ne_true, if_pos hknown, hr.bytesRead, sub_zero, hlength]

/-- Without the word for it a body is not read in chunks. -/
theorem Begun.chunked_eq_false (hr : Begun r status m_Headers)
    (h : ¬Body.SaysChunked m_Headers) : r.m_Chunked = false := by
  rw [← Bool.not_eq_true, hr.chunked]
  exact h

theorem Begun.state_of_chunked_eq_false (hr : Begun r status m_Headers) (h : r.m_Chunked = false) :
    r.m_State = .BODY := by
  rw [hr.state, h]
  rfl

/-- The response has the length the headers announce. -/
theorem Begun.length_of_sized (hr : Begun r status m_Headers)
    (h : (Body.sized bytes).IsAnnounced m_Headers status) : r.m_Length = bytes.length := by
  obtain ⟨hplain, ⟨hbodiless, rfl⟩ | ⟨hbody, hlt, digits, hdigits, hne, hdecimal, hvalue⟩⟩ := h
  · rw [hr.length (hr.chunked_eq_false hplain), if_pos hbodiless]
    rfl
  · rw [hr.length (hr.chunked_eq_false hplain), if_neg hbody, hdigits]
    dsimp only
    rw [atoi_digits hdecimal hne (hvalue ▸ hlt), hvalue]

/-- **A body that tells its end** is read to it. -/
theorem Begun.reads_body (hr : Begun r status m_Headers) {body : Body}
    (hbody : body.IsAnnounced m_Headers status) (hends : body.tellsEnd = true) :
    ∃ calls r', calls.flatMap Callback.atoms = body.content.map .byte ∧ r'.m_State = .COMPLETE ∧
      Reads r body.encode (calls ++ [.complete]) r' := by
  -- The kind of body decides how its end is found; one that only the closed connection ends is not
  -- read here.
  match body with
  | .chunked chunks zeros extension trailers =>
    obtain ⟨hchunked, hextension, htrailers⟩ := hbody
    have hyes : r.m_Chunked = true := hr.chunked.mpr hchunked
    have hstate : r.m_State = .CHUNKLEN := by
      rw [hr.state, hyes]
      rfl
    obtain ⟨r₁, hr₁, hchunks⟩ := InChunks.reads_chunks ⟨hstate, hr.lineBuf, hyes⟩ chunks
    obtain ⟨r', hcomplete, hlast⟩ := hr₁.reads_last zeros hextension htrailers
    refine ⟨chunks.map fun c : Chunk => .data c.bytes, r', ?_, hcomplete, hchunks.append hlast⟩
    rw [Body.content, List.flatMap_map, List.map_flatMap]
    rfl
  | .sized bytes =>
    have hne : bytes ≠ [] := by
      rintro rfl
      exact absurd hends (by decide)
    have hplain := hr.chunked_eq_false hbody.1
    have hremaining := hr.remaining_of_sized hplain (hr.length_of_sized hbody)
    have hreads := reads_bytes (hr.state_of_chunked_eq_false hplain) hremaining hne
    have hcalls : r.endCalls bytes.length = [.complete] := if_pos ⟨hplain, hremaining⟩
    rw [hcalls] at hreads
    refine ⟨[.data bytes], _, List.append_nil _, ?_, hreads⟩
    unfold Response.advance
    dsimp only
    rw [if_pos hremaining, hplain]
    rfl
  | .untilClose _ => exact absurd hends Bool.false_ne_true

/-- A body that does not tell its end leaves the response waiting. -/
theorem Begun.pump_body (hr : Begun r status m_Headers) {body : Body}
    (hbody : body.IsAnnounced m_Headers status) (hends : body.tellsEnd = false) :
    ∃ calls r', calls.flatMap Callback.atoms = body.content.map .byte ∧ r'.m_State = .BODY ∧
      r'.m_Chunked = false ∧ (r'.m_Length = -1 ↔ body ≠ .sized []) ∧
      r.pump body.encode = ⟨calls, .ok (r', [])⟩ := by
  -- Only two kinds of body have no end of their own: an empty sized one, whose end is not noticed,
  -- and one that goes on until the connection is closed.
  match body with
  | .chunked _ _ _ _ => exact absurd hends (by simp [Body.tellsEnd])
  | .sized (b :: bytes) => exact absurd hends (by simp [Body.tellsEnd])
  | .sized [] =>
    have hplain := hr.chunked_eq_false hbody.1
    have hlength : r.m_Length = 0 := hr.length_of_sized hbody
    refine ⟨[], r, rfl, hr.state_of_chunked_eq_false hplain, hplain, by simp [hlength], ?_⟩
    exact Response.pump_of_not fun h => h.1 rfl
  | .untilClose bytes =>
    obtain ⟨hplain, hbodied, hnone⟩ := hbody
    have hchunked := hr.chunked_eq_false hplain
    have hstate := hr.state_of_chunked_eq_false hchunked
    have hlength : r.m_Length = -1 := by rw [hr.length hchunked, if_neg hbodied, hnone]
    -- Nothing may come at all before the connection is closed.
    by_cases hne : bytes = []
    · subst hne
      exact ⟨[], r, rfl, hstate, hchunked, by simp [hlength], Response.pump_of_not fun h => h.1 rfl⟩
    -- Without a length all bytes are used, and the body stays open.
    have hremaining : r.remaining = none := by simp [Response.remaining, hchunked, hlength]
    have hused : r.used bytes = bytes.length := by rw [Response.used, hremaining]
    have hopen : ∀ n, r.remaining ≠ some n := by simp [hremaining]
    refine ⟨[.data bytes], r.advance bytes.length, List.append_nil _, ?_, hchunked, ?_, ?_⟩
    · exact (if_neg (hopen _)).trans hstate
    · have hsame : (r.advance bytes.length).m_Length = -1 := hlength
      simp [hsame]
    · have hcalls : r.endCalls bytes.length = [] := if_neg fun h => hopen _ h.2
      have hnonneg : ¬(bytes.length : ℤ) < 0 := by omega
      have hnot : ¬(r.advance bytes.length).Goes [] := fun h => h.1 rfl
      rw [Body.encode, Response.pump_of_goes ⟨hne, by simp [hstate]⟩,
        Response.iteration_body hstate, hused, if_neg hnonneg, hcalls, Int.toNat_natCast,
        List.take_length, List.drop_length, mk_ok_bind]
      dsimp only
      rw [Response.pump_of_not hnot]
      rfl

end Bodies

/-! ### The download -/

section Download

/-- What the loop comes to once nothing is outstanding. -/
theorem pumpAll_nil (received : List Received) : pumpAll [] received = pure [] := by
  unfold pumpAll
  induction received with
  | nil => rfl
  | cons recv received ih =>
    rw [List.foldlM_cons, if_pos rfl, pure_bind]
    exact ih

/-- What is received first is pumped first. -/
theorem pumpAll_cons (r : Response) (recv : Received) (received : List Received) :
    pumpAll [r] (recv :: received) =
      pump [r] recv >>= fun m_Outstanding => pumpAll m_Outstanding received := by
  unfold pumpAll
  rw [List.foldlM_cons, if_neg (List.cons_ne_nil r [])]

/-- **What is downloaded is the body of the message**, in whichever portions the bytes arrive, and
whatever comes after them; the end of the connection comes after them if the body does not tell its
own end. But a body of length zero is waited for until the connection is closed, and this is an
exception then. -/
theorem download_message (m : Message) {portions : List (List UInt8)}
    (hne : ∀ portion ∈ portions, portion ≠ []) (hbytes : portions.flatten = m.encode)
    (more : List Received) (hclosed : m.body.tellsEnd = false → more.head? = some .closed) :
    (pumpAll requested (portions.map .bytes ++ more)).mapOut Callback.atoms =
      match m.body with
      | .sized [] => ⟨[.begin], .error (.Wobbly "Connection closed unexpectedly".toList)⟩
      | body => ⟨.begin :: (body.content.map .byte ++ [.complete]), .ok []⟩ := by
  obtain ⟨r, hbegun, hheads⟩ := reads_heads m
  have hencode : m.encode = m.interim.flatMap Head.encode ++ m.head.encode ++ m.body.encode :=
    (List.append_assoc _ _ _).symm
  have hnonempty : m.encode ≠ [] := by
    rw [hencode, Head.encode]
    simp [lineBytes]
  -- all in one portion
  have hone : (pumpAll requested (portions.map .bytes ++ more)).mapOut Callback.atoms =
      (pumpAll requested (.bytes m.encode :: more)).mapOut Callback.atoms := by
    refine @received_portions_eq _ [m.encode] hne ?_ ?_ more requested
    · simpa using hnonempty
    · simpa using hbytes
  have hserve : pumpAll requested (.bytes m.encode :: more) =
      ((Response.fresh "GET".toList).pump m.encode).first >>= fun r' =>
        pumpAll (stillOutstanding r') more := by
    rw [requested, pumpAll_cons, pump, serve_singleton _ hnonempty, bind_assoc]
    rfl
  rw [hone, hserve]
  cases hends : m.body.tellsEnd with
  | true =>
    obtain ⟨calls, r', hcalls, hcomplete, hbody⟩ := hbegun.reads_body m.announced hends
    have hdone : stillOutstanding r' = [] := if_pos hcomplete
    have hpump : (Response.fresh "GET".toList).pump m.encode =
        ⟨.begin :: (calls ++ [.complete]), .ok (r', [])⟩ := by
      have hall := (hheads.append hbody) []
      rw [List.append_nil, ← hencode, Response.pump_of_not fun h => h.1 rfl] at hall
      rw [hall]
      simp
    rw [hpump, first]
    dsimp only [Except.map]
    rw [mk_ok_bind, hdone, pumpAll_nil]
    split
    · next hbody => exact absurd (hbody ▸ hends) (by simp [Body.tellsEnd])
    · refine Emits.ext ?_ rfl
      simp [Callback.atoms, ← hcalls]
  | false =>
    obtain ⟨calls, r', hcalls, hstate, hchunked, hlength, hbody⟩ :=
      hbegun.pump_body m.announced hends
    have hcomplete : r'.m_State ≠ .COMPLETE := by simp [hstate]
    have hwaits : stillOutstanding r' = [r'] := if_neg hcomplete
    have hpump : (Response.fresh "GET".toList).pump m.encode = ⟨.begin :: calls, .ok (r', [])⟩ := by
      rw [hencode, hheads, hbody]
      rfl
    obtain ⟨more, rfl⟩ : ∃ more', more = .closed :: more' := by
      cases more with
      | nil => exact absurd (hclosed hends) (by simp)
      | cons recv more => exact ⟨more, by rw [Option.some.inj (hclosed hends)]⟩
    rw [hpump, first]
    dsimp only [Except.map]
    rw [mk_ok_bind, hwaits, pumpAll_cons]
    have hfinish : pump [r'] .closed =
        r'.notifyconnectionclosed >>= fun _ => pure [] := rfl
    rw [hfinish, Response.notifyconnectionclosed, if_neg hcomplete]
    by_cases hsized : m.body = .sized []
    · -- the length is known to be zero, but nothing has looked for it
      have hknown : r'.m_Length ≠ -1 := fun h => hlength.mp h hsized
      rw [if_neg (fun h => hknown h.2.2)]
      rw [hsized] at hcalls ⊢
      refine Emits.ext ?_ rfl
      simp [Callback.atoms, hcalls, Body.content, wobbly, raise]
    · have hunknown : r'.m_Length = -1 := hlength.mpr hsized
      have hdone : (r'.finish >>= fun _ => pure ([] : List Response)) = ⟨[.complete], .ok []⟩ := rfl
      rw [if_pos ⟨hstate, hchunked, hunknown⟩, hdone, mk_ok_bind, pumpAll_nil]
      split
      · next hbody => exact absurd hbody hsized
      · refine Emits.ext ?_ rfl
        simp [Callback.atoms, ← hcalls]

/-- A call of the callbacks, told without the portions. -/
def handleAtom : Userdata → Atom → Option Userdata
  | ⟨none, inserted⟩, .begin => some ⟨some OnBegin, inserted⟩
  | ⟨some buffer, inserted⟩, .byte b => some ⟨some (OnData buffer [b]), inserted⟩
  | ⟨some buffer, inserted⟩, .complete => some ⟨none, inserted ++ [buffer]⟩
  | _, _ => none

/-- The handler gathers the bytes of a body in its buffer. -/
theorem foldlM_handleAtom_bytes (bytes buffer : List UInt8) (inserted : List (List UInt8)) :
    (bytes.map Atom.byte).foldlM handleAtom ⟨some buffer, inserted⟩ =
      some ⟨some (buffer ++ bytes), inserted⟩ := by
  induction bytes generalizing buffer with
  | nil => rw [List.append_nil]; rfl
  | cons b bytes ih =>
    rw [List.map_cons, List.foldlM_cons]
    refine (ih (buffer ++ [b])).trans ?_
    rw [List.append_assoc, List.singleton_append]

/-- The calls that are in order do what their bytes do. -/
theorem foldlM_handleAtom {calls : List Callback} {u u' : Userdata}
    (h : calls.foldlM handle u = some u') :
    (calls.flatMap Callback.atoms).foldlM handleAtom u = some u' := by
  induction calls generalizing u with
  | nil => exact h
  | cons call calls ih =>
    rw [List.foldlM_cons] at h
    obtain ⟨u₁, hcall, hrest⟩ := Option.bind_eq_some_iff.mp h
    -- One call does what its bytes do one by one; calls the handler does not expect have failed
    -- already.
    have hone : call.atoms.foldlM handleAtom u = some u₁ := by
      match u, call with
      | ⟨none, inserted⟩, .begin => exact hcall
      | ⟨none, inserted⟩, .data bytes => exact absurd hcall (by simp [handle])
      | ⟨none, inserted⟩, .complete => exact absurd hcall (by simp [handle])
      | ⟨some buffer, inserted⟩, .begin => exact absurd hcall (by simp [handle])
      | ⟨some buffer, inserted⟩, .data bytes =>
        exact (foldlM_handleAtom_bytes bytes buffer inserted).trans hcall
      | ⟨some buffer, inserted⟩, .complete => exact hcall
    rw [List.flatMap_cons, List.foldlM_append, hone]
    exact ih hrest

/-- **What is inserted is the body of the message.** -/
theorem handle_download {m : Message} {portions : List (List UInt8)}
    (hne : ∀ portion ∈ portions, portion ≠ []) (hbytes : portions.flatten = m.encode)
    {more : List Received} (hclosed : m.body.tellsEnd = false → more.head? = some .closed)
    (hbody : m.body ≠ .sized []) :
    (pumpAll requested (portions.map .bytes ++ more)).out.foldlM handle ⟨none, []⟩ =
      some ⟨none, [m.body.content]⟩ := by
  obtain ⟨u, hcalls, -⟩ := handles_download (portions.map .bytes ++ more)
  have hatoms := foldlM_handleAtom hcalls
  -- All calls together are the beginning, the bytes of the content and the end, however they were
  -- cut.
  have hout : (pumpAll requested (portions.map .bytes ++ more)).out.flatMap Callback.atoms =
      .begin :: (m.body.content.map .byte ++ [.complete]) := by
    have hmessage := download_message m hne hbytes more hclosed
    split at hmessage
    · next hsized => exact absurd hsized hbody
    · exact congrArg Emits.out hmessage
  rw [hcalls, ← hatoms, hout, List.foldlM_cons]
  change (m.body.content.map Atom.byte ++ [Atom.complete]).foldlM handleAtom ⟨some [], []⟩ = _
  rw [List.foldlM_append, foldlM_handleAtom_bytes]
  rfl

end Download

section Examples

private def chunkedHeader : Header where
  name := "Transfer-Encoding".toList
  value := "chunked".toList
  folded := []
  isLine_name := by decide
  isLine_value := by decide
  isLine_folded := by decide
  no_colon := by decide
  no_blank := forall_mem_head? rfl (by decide)
  folded_no_blank := by decide
  value_no_blank := forall_mem_head? rfl (by decide)

/-- The head of a response that is fine. -/
def okHead (headers : List Header) : Head where
  minor := ['1']
  digits := "200".toList
  reason := "OK".toList
  headers := headers
  isLine_minor := by decide
  isLine_reason := by decide
  no_space := by decide
  isDigit := List.all_eq_true.mp (by decide)
  status_ge := by decide
  status_le := by decide

private def chunkOfThree : Chunk where
  digits := ['0', '3']
  extension := ";q".toList
  bytes := [13, 10, 0]
  isDigit := List.all_eq_true.mp (by decide)
  size := by decide
  isExtension := ⟨by decide, forall_mem_head? rfl (by decide)⟩
  nonempty := by decide
  small := by decide

private def messageInChunks : Message where
  interim := []
  head := okHead [chunkedHeader]
  body := .chunked [chunkOfThree, chunkOfThree] 0 [] []
  interim_continue := by simp
  head_final := by decide
  announced := ⟨⟨"chunked".toList, by decide, by decide⟩, ⟨by decide, by simp⟩, by simp⟩

/-- Two chunks of three bytes, in two portions. -/
theorem download_message_chunks :
    (pumpAll requested ([messageInChunks.encode.take 7, messageInChunks.encode.drop 7].map .bytes ++
        [])).mapOut Callback.atoms =
      ⟨.begin :: ([13, 10, 0, 13, 10, 0].map .byte ++ [.complete]), .ok []⟩ :=
  download_message messageInChunks (by decide) (by simp) [] (fun h => absurd h (by decide))

end Examples

end OpenGeoBase.Happyhttp
