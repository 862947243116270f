import OpenGeoBase.Lib.Emits
import OpenGeoBase.Lib.Strtol
import OpenGeoBase.Repo.UriDecode

/-!
# Reading an HTTP response

`Response::pump` takes the bytes of a response as they arrive. It collects lines while it reads the
status line, the headers, the size of a chunk, what stands behind a chunk, and the trailers; the
bytes of the body it hands to a callback as they are. The response tells from its headers how its
body ends: with a chunk of size 0, after as many bytes as the length supplied, or when the
connection is closed.

A number of bytes is an `int`. (`m_BytesRead` is not bounded here: it is only compared with a
length, which it does not go beyond.) The size of a chunk may be negative, if it says so or is too
large for an `int`, and so may the length. The data callback is then called with a negative number
of bytes, for which it copies more than there is (`Fault.negativeCount`).

Assertions are compiled out (`NDEBUG`).
-/

namespace OpenGeoBase.Happyhttp

open Text Emits

/-- The states of a response. -/
inductive ResponseState where
  | STATUSLINE
  | HEADERS
  | BODY
  | CHUNKLEN
  | CHUNKEND
  | TRAILERS
  | COMPLETE
  deriving DecidableEq

/-- The calls of the three callbacks. -/
inductive Callback where
  | begin
  | data (bytes : List UInt8)
  | complete
  deriving DecidableEq

/-- What ends the reading of a response before its end. -/
inductive Fault where
  /-- The exception, with its message. -/
  | Wobbly (message : Str)
  /-- The data callback gets a negative number of bytes. -/
  | negativeCount
  deriving DecidableEq

structure Response where
  m_State : ResponseState
  m_Method : Str
  m_VersionString : Str
  m_Version : ℕ
  m_Status : ℤ
  m_Reason : Str
  m_Headers : Str → Option Str
  m_BytesRead : ℤ
  m_Chunked : Bool
  m_ChunkLeft : ℤ
  m_Length : ℤ
  m_WillClose : Bool
  m_LineBuf : Str
  m_HeaderAccum : Str

/-- The status codes that are looked at. -/
def CONTINUE : ℤ := 100
def NO_CONTENT : ℤ := 204
def NOT_MODIFIED : ℤ := 304

/-- `Wobbly::MAXLEN` -/
def maxMessage : ℕ := 256

/-- The exception with a message, cut off where its array ends. -/
def wobbly {α : Type} (message : Str) : Emits Callback Fault α :=
  raise (.Wobbly (message.take (maxMessage - 1)))

def toLower (s : Str) : Str := s.map Char.toLower

namespace Response

/-- The response to a request with this method. -/
def fresh (method : Str) : Response where
  m_State := .STATUSLINE
  m_Method := method
  m_VersionString := []
  m_Version := 0
  m_Status := 0
  m_Reason := []
  m_Headers := fun _ => none
  m_BytesRead := 0
  m_Chunked := false
  m_ChunkLeft := 0
  m_Length := -1
  m_WillClose := false
  m_LineBuf := []
  m_HeaderAccum := []

variable (r : Response)

def getheader (name : Str) : Option Str := r.m_Headers (toLower name)

/-- `_stricmp` on the value of a header, if there is one. -/
def headerIs (name value : Str) : Bool := (r.getheader name).any fun v => toLower v == toLower value

def finish : Emits Callback Fault Response := do
  emit [.complete]
  pure { r with m_State := .COMPLETE }

def processStatusLine (line : Str) : Emits Callback Fault Response :=
  let p := (cStr line).dropWhile (· = ' ')
  let m_VersionString := r.m_VersionString ++ p.takeWhile (· ≠ ' ')
  let p := (p.dropWhile (· ≠ ' ')).dropWhile (· = ' ')
  let m_Status := atoi (p.takeWhile (· ≠ ' '))
  let p := (p.dropWhile (· ≠ ' ')).dropWhile (· = ' ')
  if m_Status < 100 ∨ 999 < m_Status then
    wobbly ("BadStatusLine (".toList ++ cStr line ++ ")".toList)
  else do
    let m_Version ←
      if m_VersionString = "HTTP:/1.0".toList then pure 10
      else if m_VersionString.take 7 = "HTTP/1.".toList then pure 11
      else wobbly ("UnknownProtocol (".toList ++ m_VersionString ++ ")".toList)
    pure { r with
      m_VersionString := m_VersionString
      m_Version := m_Version
      m_Status := m_Status
      m_Reason := r.m_Reason ++ p
      m_State := .HEADERS
      m_HeaderAccum := [] }

/-- A header and its value, in the data that have been accumulated for it. -/
def splitHeader (accum : Str) : Str × Str :=
  let p := cStr accum
  (toLower (p.takeWhile (· ≠ ':')),
    ((p.dropWhile (· ≠ ':')).drop 1).dropWhile fun c => c = ' ' ∨ c = '\t')

def flushHeader : Response :=
  if r.m_HeaderAccum = [] then r
  else
    let (header, value) := splitHeader r.m_HeaderAccum
    { r with
      m_Headers := Function.update r.m_Headers header (some value)
      m_HeaderAccum := [] }

/-- Does the server close the connection? -/
def checkClose : Bool :=
  if r.m_Version = 11 then r.headerIs "connection".toList "close".toList
  else (r.getheader "keep-alive".toList).isNone

/-- Responses without a body, by their status or by the method of the request. -/
def hasNoBody : Bool :=
  r.m_Status = NO_CONTENT ∨ r.m_Status = NOT_MODIFIED ∨ (100 ≤ r.m_Status ∧ r.m_Status < 200) ∨
    r.m_Method = "HEAD".toList

def beginBody : Emits Callback Fault Response := do
  let m_Chunked := r.headerIs "transfer-encoding".toList "chunked".toList
  let m_Length :=
    if r.hasNoBody then 0
    else match r.getheader "content-length".toList with
      | some contentlen => if m_Chunked then -1 else atoi contentlen
      | none => -1
  let m_WillClose := r.checkClose
  emit [.begin]
  pure { r with
    m_Chunked := m_Chunked
    m_ChunkLeft := if m_Chunked then -1 else r.m_ChunkLeft
    m_Length := m_Length
    m_WillClose := m_WillClose || (!m_Chunked && m_Length == -1)
    m_State := if m_Chunked then .CHUNKLEN else .BODY }

def processHeaderLine (line : Str) : Emits Callback Fault Response :=
  if line = [] then
    let r := r.flushHeader
    -- the headers of a response that says to continue are not the last ones
    if r.m_Status = CONTINUE then pure { r with m_State := .STATUSLINE } else r.beginBody
  else
    let p := cStr line
    if p.head?.any isSpace then
      pure { r with m_HeaderAccum := r.m_HeaderAccum ++ ' ' :: p.dropWhile isSpace }
    else pure { r.flushHeader with m_HeaderAccum := p }

def processTrailerLine (line : Str) : Emits Callback Fault Response :=
  if line = [] then r.finish else pure r

def processChunkLenLine (line : Str) : Response :=
  let m_ChunkLeft := (strtol 16 (cStr line)).bmod (2 ^ 32)
  if m_ChunkLeft = 0 then
    { r with m_ChunkLeft := m_ChunkLeft, m_State := .TRAILERS, m_HeaderAccum := [] }
  else { r with m_ChunkLeft := m_ChunkLeft, m_State := .BODY }

/-- What `pump` does at the end of a line. -/
def processLine : Emits Callback Fault Response := do
  let r' ← match r.m_State with
    | .STATUSLINE => r.processStatusLine r.m_LineBuf
    | .HEADERS => r.processHeaderLine r.m_LineBuf
    | .TRAILERS => r.processTrailerLine r.m_LineBuf
    | .CHUNKLEN => pure (r.processChunkLenLine r.m_LineBuf)
    | .CHUNKEND => pure { r with m_State := .CHUNKLEN }
    | _ => pure r
  pure { r' with m_LineBuf := [] }

/-- The data callback, with the first `n` bytes. -/
def callData (n : ℤ) (data : List UInt8) : Emits Callback Fault Unit :=
  if n < 0 then raise .negativeCount else emit [.data (data.take n.toNat)]

/-- Body data in chunks; and the number of bytes used. -/
def processDataChunked (data : List UInt8) : Emits Callback Fault (Response × ℕ) := do
  let n := min (data.length : ℤ) r.m_ChunkLeft
  callData n data
  let m_ChunkLeft := r.m_ChunkLeft - n
  pure ({ r with
    m_BytesRead := r.m_BytesRead + n
    m_ChunkLeft := m_ChunkLeft
    m_State := if m_ChunkLeft = 0 then .CHUNKEND else r.m_State }, n.toNat)

/-- Body data that are not in chunks; and the number of bytes used. -/
def processDataNonChunked (data : List UInt8) : Emits Callback Fault (Response × ℕ) := do
  let n := if r.m_Length ≠ -1 then min (data.length : ℤ) (r.m_Length - r.m_BytesRead)
    else data.length
  callData n data
  let r := { r with m_BytesRead := r.m_BytesRead + n }
  let r ← if r.m_Length ≠ -1 ∧ r.m_BytesRead = r.m_Length then r.finish else pure r
  pure (r, n.toNat)

/-- The line as far as it has come, and what is behind it once it is whole. -/
def accumulateLine : Str → List UInt8 → Str × Option (List UInt8)
  | m_LineBuf, [] => (m_LineBuf, none)
  | m_LineBuf, b :: data =>
    let c := byteChar b
    if c = '\n' then (m_LineBuf, some data)
    else accumulateLine (if c ≠ '\r' then m_LineBuf ++ [c] else m_LineBuf) data

/-- One iteration of the outer loop of `pump`, and the bytes that are left. -/
def iteration (data : List UInt8) : Emits Callback Fault (Response × List UInt8) :=
  match r.m_State with
  | .BODY => do
    let (r', bytesused) ←
      if r.m_Chunked then r.processDataChunked data else r.processDataNonChunked data
    pure (r', data.drop bytesused)
  | _ =>
    match accumulateLine r.m_LineBuf data with
    | (m_LineBuf, none) => pure ({ r with m_LineBuf := m_LineBuf }, [])
    | (m_LineBuf, some data) => do
      let r' ← { r with m_LineBuf := m_LineBuf }.processLine
      pure (r', data)

/-- The outer loop goes on: there are bytes left for a response that is not complete. -/
def Goes (data : List UInt8) : Prop := data ≠ [] ∧ r.m_State ≠ .COMPLETE

instance (data : List UInt8) : Decidable (r.Goes data) := inferInstanceAs (Decidable (_ ∧ _))

end Response

end OpenGeoBase.Happyhttp
