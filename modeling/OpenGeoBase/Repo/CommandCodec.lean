import OpenGeoBase.Lib.CachedWire
import OpenGeoBase.Ndn.TlvWriter
import Mathlib.Logic.Function.Basic

/-!
# The codecs of the commands

`RepoCommandParameter` and `RepoCommandResponse` are what the commands of the repository and their
answers are sent as. Each has a number of fields, a flag for each field that says whether it is
present, and the wire form it was last encoded to or decoded from.

The template `wireEncode` goes over the fields from the last one to the first one and is run twice,
with an `estimator` that only counts and with a `buffer` that is written into from its end.
`wireDecode` looks for the elements by their types. The fields that are numbers are handled alike,
so `prependNumbers` and `readNumbers` go over a list of them; `numberAt_numberElements` is the
round trip of one number.

The setters drop the wire form. But `wireDecode` keeps the block it is given before it has looked
into it: a block that is refused stays, and is what `wireEncode` returns. `roundTrips_iff` says
that nothing else goes wrong.
-/

namespace OpenGeoBase

namespace CommandCodec

open CachedWire Transition

/-! ### Types -/

namespace tlv

def Name : ℕ := 7
def Selectors : ℕ := 9
def InterestLifetime : ℕ := 12
def RepoCommandParameter : ℕ := 201
def StartBlockId : ℕ := 204
def EndBlockId : ℕ := 205
def ProcessId : ℕ := 206
def RepoCommandResponse : ℕ := 207
def StatusCode : ℕ := 208
def InsertNum : ℕ := 209
def DeleteNum : ℕ := 210
def MaxInterestNum : ℕ := 211
def WatchTimeout : ℕ := 212

end tlv

/-- What the codecs use of the NDN library: names and selectors are encoded to elements and decoded
from them, and fit into the memory. -/
structure WireLibrary where
  Name : Type
  encodeName : Name → List ℕ
  /-- `Name::wireDecode`; an exception is `none`. -/
  decodeName : List ℕ → Option Name
  /-- What an exception leaves of a name. -/
  brokenName : List ℕ → Name → Name
  encodeName_mem : ∀ name, encodeName name ∈ Block.Elements
  type_encodeName : ∀ name, Block.type (encodeName name) = tlv.Name
  length_encodeName : ∀ name, (encodeName name).length < 2 ^ 62
  decode_encodeName : ∀ name, decodeName (encodeName name) = some name
  Selectors : Type
  noSelectors : Selectors
  empty : Selectors → Bool
  encodeSelectors : Selectors → List ℕ
  /-- `Selectors::wireDecode`; an exception is `none`. -/
  decodeSelectors : List ℕ → Option Selectors
  /-- What an exception leaves of selectors. -/
  brokenSelectors : List ℕ → Selectors → Selectors
  empty_noSelectors : empty noSelectors = true
  encodeSelectors_mem : ∀ selectors, encodeSelectors selectors ∈ Block.Elements
  type_encodeSelectors : ∀ selectors, Block.type (encodeSelectors selectors) = tlv.Selectors
  length_encodeSelectors : ∀ selectors, (encodeSelectors selectors).length < 2 ^ 62
  decode_encodeSelectors : ∀ selectors, empty selectors = false →
    decodeSelectors (encodeSelectors selectors) = some selectors

/-! ### Encoders -/

/-- `EncodingImpl`: what is prepended, and the number of octets that it takes. -/
structure Encoder (σ : Type) where
  prependVarNumber : ℕ → σ → ℕ × σ
  prependNonNegativeInteger : UInt64 → σ → ℕ × σ
  /-- `wireEncode` of a name or of selectors. -/
  prependElement : List ℕ → σ → ℕ × σ

def sizeOfVarNumber (n : ℕ) : ℕ := if n < 253 then 1 else if n < 2 ^ 16 then 3 else
  if n < 2 ^ 32 then 5 else 9

def sizeOfNonNegativeInteger (n : UInt64) : ℕ :=
  if n.toNat < 256 then 1 else if n.toNat < 256 ^ 2 then 2 else if n.toNat < 256 ^ 4 then 4 else 8

/-- `EncodingEstimator`. -/
def estimator : Encoder Unit where
  prependVarNumber n _ := (sizeOfVarNumber n, ())
  prependNonNegativeInteger n _ := (sizeOfNonNegativeInteger n, ())
  prependElement octets _ := (octets.length, ())

/-- `EncodingBuffer`, with the octets that are written. -/
def buffer : Encoder (List ℕ) where
  prependVarNumber n octets := ((varNumber n).length, varNumber n ++ octets)
  prependNonNegativeInteger n octets :=
    ((nonNegativeInteger n).length, nonNegativeInteger n ++ octets)
  prependElement element octets := (element.length, element ++ octets)

section Encoding

variable {σ κ : Type} (encoder : Encoder σ)

/-- The fields that are numbers: a field has a value also when it is not present. A duration is
kept as the 64 bits of its number of milliseconds. -/
structure Numbers (κ : Type) where
  has : κ → Bool
  value : κ → UInt64

/-- A field that is a number; `totalLength` is what has been written. -/
def prependNumber (type : ℕ) (n : UInt64) : ℕ × σ → ℕ × σ
  | (totalLength, s) =>
    let (variableLength, s) := encoder.prependNonNegativeInteger n s
    let (lengthSize, s) := encoder.prependVarNumber variableLength s
    let (typeSize, s) := encoder.prependVarNumber type s
    (totalLength + variableLength + lengthSize + typeSize, s)

/-- The fields of a list that are present. -/
def prependNumbers (type : κ → ℕ) (numbers : Numbers κ) : List κ → ℕ × σ → ℕ × σ
  | [], written => written
  | k :: ks, written =>
    prependNumbers type numbers ks
      (if numbers.has k then prependNumber encoder (type k) (numbers.value k) written else written)

/-- A name or selectors, if they are present. -/
def prependElement (present : Bool) (element : List ℕ) : ℕ × σ → ℕ × σ
  | (totalLength, s) =>
    if present then
      let (size, s) := encoder.prependElement element s
      (totalLength + size, s)
    else (totalLength, s)

/-- The length and the type of the whole block. -/
def prependHeader (type : ℕ) : ℕ × σ → ℕ × σ
  | (totalLength, s) =>
    let (lengthSize, s) := encoder.prependVarNumber totalLength s
    let (typeSize, s) := encoder.prependVarNumber type s
    (totalLength + lengthSize + typeSize, s)

/-- The fields of a list that are among the elements; the `Bool` says whether there was no
exception. -/
def readNumbers [DecidableEq κ] (type : κ → ℕ) (elements : List (List ℕ)) :
    List κ → Numbers κ → Bool × Numbers κ
  | [], numbers => (true, numbers)
  | k :: ks, numbers =>
    match Block.find (type k) elements with
    | none => readNumbers type elements ks numbers
    | some val =>
      match readNonNegativeInteger (Block.value val) with
      | none => (false, ⟨Function.update numbers.has k true, numbers.value⟩)
      | some n => readNumbers type elements ks
          ⟨Function.update numbers.has k true, Function.update numbers.value k n⟩

end Encoding

/-! ### RepoCommandParameter -/

/-- The fields of a parameter that are numbers. -/
inductive ParameterField where
  | startBlockId
  | endBlockId
  | processId
  | maxInterestNum
  | watchTimeout
  | interestLifetime
  deriving DecidableEq

def ParameterField.type : ParameterField → ℕ
  | .startBlockId => tlv.StartBlockId
  | .endBlockId => tlv.EndBlockId
  | .processId => tlv.ProcessId
  | .maxInterestNum => tlv.MaxInterestNum
  | .watchTimeout => tlv.WatchTimeout
  | .interestLifetime => tlv.InterestLifetime

/-- `RepoCommandParameter`. -/
structure RepoCommandParameter (lib : WireLibrary) where
  m_name : lib.Name
  m_selectors : lib.Selectors
  m_hasName : Bool
  numbers : Numbers ParameterField
  m_wire : Option (List ℕ)

namespace RepoCommandParameter

variable {lib : WireLibrary} {σ : Type}

def setName (name : lib.Name) (p : RepoCommandParameter lib) : RepoCommandParameter lib :=
  ⟨name, p.m_selectors, true, p.numbers, none⟩

def setSelectors (selectors : lib.Selectors) (p : RepoCommandParameter lib) :
    RepoCommandParameter lib :=
  ⟨p.m_name, selectors, p.m_hasName, p.numbers, none⟩

/-- The setter of a field that is a number. -/
def setNumber (k : ParameterField) (n : UInt64) (p : RepoCommandParameter lib) :
    RepoCommandParameter lib :=
  ⟨p.m_name, p.m_selectors, p.m_hasName,
    ⟨Function.update p.numbers.has k true, Function.update p.numbers.value k n⟩, none⟩

def setStartBlockId (startBlockId : UInt64) : RepoCommandParameter lib → RepoCommandParameter lib :=
  setNumber .startBlockId startBlockId

def setEndBlockId (endBlockId : UInt64) : RepoCommandParameter lib → RepoCommandParameter lib :=
  setNumber .endBlockId endBlockId

def setProcessId (processId : UInt64) : RepoCommandParameter lib → RepoCommandParameter lib :=
  setNumber .processId processId

def setMaxInterestNum (maxInterestNum : UInt64) :
    RepoCommandParameter lib → RepoCommandParameter lib :=
  setNumber .maxInterestNum maxInterestNum

def setWatchTimeout (watchTimeout : Int64) : RepoCommandParameter lib → RepoCommandParameter lib :=
  setNumber .watchTimeout watchTimeout.toUInt64

def setInterestLifetime (interestLifetime : Int64) :
    RepoCommandParameter lib → RepoCommandParameter lib :=
  setNumber .interestLifetime interestLifetime.toUInt64

/-- The template `wireEncode`. -/
def encodeWith (encoder : Encoder σ) (p : RepoCommandParameter lib) (s : σ) : ℕ × σ :=
  prependHeader encoder tlv.RepoCommandParameter
    (prependElement encoder p.m_hasName (lib.encodeName p.m_name)
      (prependElement encoder (!lib.empty p.m_selectors) (lib.encodeSelectors p.m_selectors)
        (prependNumbers encoder ParameterField.type p.numbers
          [.processId, .endBlockId, .startBlockId, .maxInterestNum, .watchTimeout,
            .interestLifetime] (0, s))))

/-- The size that the first pass of `wireEncode` estimates. -/
def estimatedSize (p : RepoCommandParameter lib) : ℕ := (encodeWith estimator p ()).1

/-- The octets that the second pass writes. -/
def written (p : RepoCommandParameter lib) : List ℕ := (encodeWith buffer p []).2

/-- `wireEncode`; there is no exception. -/
def wireEncode (p : RepoCommandParameter lib) : Option (List ℕ) × RepoCommandParameter lib :=
  match p.m_wire with
  | some wire => (some wire, p)
  | none => (some p.written, ⟨p.m_name, p.m_selectors, p.m_hasName, p.numbers, some p.written⟩)

/-- The part of `wireDecode` that reads the name. -/
def readName (elements : List (List ℕ)) (p : RepoCommandParameter lib) :
    Bool × RepoCommandParameter lib :=
  match Block.find tlv.Name elements with
  | none => (true, p)
  | some val =>
    match lib.decodeName val with
    | none => (false, ⟨lib.brokenName val p.m_name, p.m_selectors, true, p.numbers, p.m_wire⟩)
    | some name => (true, ⟨name, p.m_selectors, true, p.numbers, p.m_wire⟩)

/-- The part of `wireDecode` that reads the selectors. -/
def readSelectors (elements : List (List ℕ)) (p : RepoCommandParameter lib) :
    Bool × RepoCommandParameter lib :=
  match Block.find tlv.Selectors elements with
  | none => (true, ⟨p.m_name, lib.noSelectors, p.m_hasName, p.numbers, p.m_wire⟩)
  | some val =>
    match lib.decodeSelectors val with
    | none =>
      (false, ⟨p.m_name, lib.brokenSelectors val p.m_selectors, p.m_hasName, p.numbers, p.m_wire⟩)
    | some selectors => (true, ⟨p.m_name, selectors, p.m_hasName, p.numbers, p.m_wire⟩)

/-- `wireDecode`; the `Bool` says whether it returns without an exception. -/
def wireDecode (wire : List ℕ) (p : RepoCommandParameter lib) : Bool × RepoCommandParameter lib :=
  let p : RepoCommandParameter lib :=
    ⟨p.m_name, p.m_selectors, false, ⟨fun _ => false, p.numbers.value⟩, some wire⟩
  match Block.parse wire with
  | none => (false, p)
  | some elements =>
    if Block.type wire ≠ tlv.RepoCommandParameter then (false, p)
    else
      match readName elements p with
      | (false, p) => (false, p)
      | (true, p) =>
        match readSelectors elements p with
        | (false, p) => (false, p)
        | (true, p) =>
          let (returns, numbers) := readNumbers ParameterField.type elements
            [.startBlockId, .endBlockId, .processId, .maxInterestNum, .watchTimeout,
              .interestLifetime] p.numbers
          (returns, ⟨p.m_name, p.m_selectors, p.m_hasName, numbers, p.m_wire⟩)

end RepoCommandParameter

/-! ### RepoCommandResponse -/

/-- The fields of a response. -/
inductive ResponseField where
  | statusCode
  | startBlockId
  | endBlockId
  | processId
  | insertNum
  | deleteNum
  deriving DecidableEq

def ResponseField.type : ResponseField → ℕ
  | .statusCode => tlv.StatusCode
  | .startBlockId => tlv.StartBlockId
  | .endBlockId => tlv.EndBlockId
  | .processId => tlv.ProcessId
  | .insertNum => tlv.InsertNum
  | .deleteNum => tlv.DeleteNum

/-- `RepoCommandResponse`. -/
structure RepoCommandResponse where
  numbers : Numbers ResponseField
  m_wire : Option (List ℕ)

namespace RepoCommandResponse

variable {σ : Type}

/-- The setter of a field. -/
def setNumber (k : ResponseField) (n : UInt64) (r : RepoCommandResponse) : RepoCommandResponse :=
  ⟨⟨Function.update r.numbers.has k true, Function.update r.numbers.value k n⟩, none⟩

def setStatusCode (statusCode : UInt64) : RepoCommandResponse → RepoCommandResponse :=
  setNumber .statusCode statusCode

def setStartBlockId (startBlockId : UInt64) : RepoCommandResponse → RepoCommandResponse :=
  setNumber .startBlockId startBlockId

def setEndBlockId (endBlockId : UInt64) : RepoCommandResponse → RepoCommandResponse :=
  setNumber .endBlockId endBlockId

def setProcessId (processId : UInt64) : RepoCommandResponse → RepoCommandResponse :=
  setNumber .processId processId

def setInsertNum (insertNum : UInt64) : RepoCommandResponse → RepoCommandResponse :=
  setNumber .insertNum insertNum

def setDeleteNum (deleteNum : UInt64) : RepoCommandResponse → RepoCommandResponse :=
  setNumber .deleteNum deleteNum

/-- The template `wireEncode`; without a status code there is an exception. -/
def encodeWith (encoder : Encoder σ) (r : RepoCommandResponse) (s : σ) : Option (ℕ × σ) :=
  let written := prependNumbers encoder ResponseField.type r.numbers
    [.deleteNum, .insertNum, .endBlockId, .startBlockId] (0, s)
  if r.numbers.has .statusCode then
    some (prependHeader encoder tlv.RepoCommandResponse
      (prependNumbers encoder ResponseField.type r.numbers [.statusCode, .processId] written))
  else none

/-- `wireEncode`; an exception is `none`. -/
def wireEncode (r : RepoCommandResponse) : Option (List ℕ) × RepoCommandResponse :=
  match r.m_wire with
  | some wire => (some wire, r)
  | none =>
    match encodeWith estimator r () with
    | none => (none, r)
    | some _ =>
      match encodeWith buffer r [] with
      | none => (none, r)
      | some (_, octets) => (some octets, ⟨r.numbers, some octets⟩)

/-- `wireDecode`; the `Bool` says whether it returns without an exception. -/
def wireDecode (wire : List ℕ) (r : RepoCommandResponse) : Bool × RepoCommandResponse :=
  let numbers : Numbers ResponseField := ⟨fun _ => false, r.numbers.value⟩
  match Block.parse wire with
  | none => (false, ⟨numbers, some wire⟩)
  | some elements =>
    if Block.type wire ≠ tlv.RepoCommandResponse then (false, ⟨numbers, some wire⟩)
    else
      match readNumbers ResponseField.type elements
        [.startBlockId, .endBlockId, .processId, .statusCode] numbers with
      | (false, numbers) => (false, ⟨numbers, some wire⟩)
      | (true, numbers) =>
        if Block.find tlv.StatusCode elements = none then (false, ⟨numbers, some wire⟩)
        else
          let (returns, numbers) := readNumbers ResponseField.type elements
            [.insertNum, .deleteNum] numbers
          (returns, ⟨numbers, some wire⟩)

end RepoCommandResponse

/-! ### The two passes -/

section Passes

variable {κ : Type} {type : ℕ} {n : UInt64} {octets : List ℕ}

/-- The size the encoder assumes for a number is that of its encoding. -/
theorem sizeOfVarNumber_eq (n : ℕ) : sizeOfVarNumber n = (varNumber n).length := by
  unfold sizeOfVarNumber varNumber
  split
  · rfl
  · split
    · simp
    · split <;> simp

theorem sizeOfNonNegativeInteger_eq (n : UInt64) :
    sizeOfNonNegativeInteger n = (nonNegativeInteger n).length := by
  rw [nonNegativeInteger, length_bigEndian]
  rfl

/-- The estimator counts what the buffer writes for a number. -/
theorem prependNumber_estimator (type : ℕ) (n : UInt64) (written : ℕ × List ℕ) :
    prependNumber estimator type n (written.1, ()) =
      ((prependNumber buffer type n written).1, ()) := by
  simp [prependNumber, estimator, buffer, sizeOfVarNumber_eq, sizeOfNonNegativeInteger_eq]

/-- The estimator counts what the buffer writes for all numbers. -/
theorem prependNumbers_estimator (type : κ → ℕ) (numbers : Numbers κ) (ks : List κ)
    (written : ℕ × List ℕ) :
    prependNumbers estimator type numbers ks (written.1, ()) =
      ((prependNumbers buffer type numbers ks written).1, ()) := by
  induction ks generalizing written with
  | nil => rfl
  | cons k ks ih =>
    rw [prependNumbers, prependNumbers, ← ih]
    split
    · rw [prependNumber_estimator]
    · rfl

theorem prependElement_estimator (present : Bool) (element : List ℕ) (written : ℕ × List ℕ) :
    prependElement estimator present element (written.1, ()) =
      ((prependElement buffer present element written).1, ()) := by
  cases present <;> rfl

theorem prependHeader_estimator (type : ℕ) (written : ℕ × List ℕ) :
    prependHeader estimator type (written.1, ()) =
      ((prependHeader buffer type written).1, ()) := by
  simp [prependHeader, estimator, buffer, sizeOfVarNumber_eq]

/-- The elements of the fields that are present. -/
def numberElements (type : κ → ℕ) (numbers : Numbers κ) (ks : List κ) : List (List ℕ) :=
  ks.filterMap fun k =>
    if numbers.has k then some (element (type k) (nonNegativeInteger (numbers.value k))) else none

/-- The element of a name or of selectors, if they are present. -/
def optionalElement (present : Bool) (element : List ℕ) : List (List ℕ) :=
  if present then [element] else []

/-- What the buffer holds after a number was put in front. -/
theorem prependNumber_buffer (type : ℕ) (n : UInt64) (totalLength : ℕ) (octets : List ℕ) :
    prependNumber buffer type n (totalLength, octets) =
      (totalLength + (element type (nonNegativeInteger n)).length,
        element type (nonNegativeInteger n) ++ octets) := by
  simp only [prependNumber, buffer, element, List.length_append, List.append_assoc, Prod.mk.injEq,
    and_true]
  omega

/-- The elements are written from the last field of the list to the first one. -/
theorem prependNumbers_buffer (type : κ → ℕ) (numbers : Numbers κ) (ks : List κ)
    (totalLength : ℕ) (octets : List ℕ) :
    prependNumbers buffer type numbers ks (totalLength, octets) =
      (totalLength + (numberElements type numbers ks.reverse).flatten.length,
        (numberElements type numbers ks.reverse).flatten ++ octets) := by
  induction ks generalizing totalLength octets with
  | nil => simp [prependNumbers, numberElements]
  | cons k ks ih =>
    -- The last field is written first, as the buffer grows to the front.
    have hsplit : numberElements type numbers (k :: ks).reverse =
        numberElements type numbers ks.reverse ++ numberElements type numbers [k] := by
      rw [List.reverse_cons, numberElements, List.filterMap_append]
      rfl
    rw [prependNumbers, hsplit, List.flatten_append, List.length_append, List.append_assoc]
    by_cases hk : numbers.has k = true
    · rw [if_pos hk, prependNumber_buffer, ih]
      simp only [numberElements, hk, if_true, List.filterMap_cons, List.filterMap_nil,
        List.flatten_cons, List.flatten_nil, List.append_nil, Prod.mk.injEq, and_true]
      omega
    · rw [if_neg hk, ih]
      simp [numberElements, hk]

theorem prependElement_buffer (present : Bool) (e : List ℕ) (totalLength : ℕ)
    (octets : List ℕ) :
    prependElement buffer present e (totalLength, octets) =
      (totalLength + (optionalElement present e).flatten.length,
        (optionalElement present e).flatten ++ octets) := by
  cases present <;> simp [prependElement, optionalElement, buffer]

theorem prependHeader_buffer (type : ℕ) (octets : List ℕ) :
    prependHeader buffer type (octets.length, octets) =
      ((element type octets).length, element type octets) := by
  simp only [prependHeader, buffer, element, List.length_append, Prod.mk.injEq, and_true]
  omega

end Passes

/-! ### Numbers are read back -/

section ReadBack

variable {κ : Type} [DecidableEq κ] {type : κ → ℕ} {elements : List (List ℕ)}
  {numbers : Numbers κ} {k : κ} {ks : List κ}

/-- A field that is a number, if it is present. -/
def Numbers.present (numbers : Numbers κ) (k : κ) : Option UInt64 :=
  if numbers.has k then some (numbers.value k) else none

/-- What the elements say of a field; an exception is `none`. -/
def numberAt (type : κ → ℕ) (elements : List (List ℕ)) (k : κ) : Option (Option UInt64) :=
  match Block.find (type k) elements with
  | none => some none
  | some val => (readNonNegativeInteger (Block.value val)).map some

/-- What the elements say of the fields of a list; an exception is `none`. -/
def numbersAt (type : κ → ℕ) (elements : List (List ℕ)) (ks : List κ) :
    Option (κ → Option UInt64) :=
  if ks.all fun k => (numberAt type elements k).isSome then
    some fun k => (numberAt type elements k).join
  else none

variable (numbers) in
/-- The reading of a list of fields, if there is no exception. -/
theorem readNumbers_of_isSome (h : ∀ k ∈ ks, (numberAt type elements k).isSome) :
    (readNumbers type elements ks numbers).1 = true ∧ ∀ k,
      (readNumbers type elements ks numbers).2.present k =
        if k ∈ ks then (numberAt type elements k).join.or (numbers.present k)
        else numbers.present k := by
  induction ks generalizing numbers with
  | nil => exact ⟨rfl, fun k => by simp [readNumbers]⟩
  | cons k₀ ks ih =>
    have hrest : ∀ k ∈ ks, (numberAt type elements k).isSome :=
      fun k hk => h k (List.mem_cons_of_mem _ hk)
    have hfirst := h k₀ List.mem_cons_self
    -- A field that is not there keeps its value, and one that is there takes the number that was
    -- read.
    cases hfind : Block.find (type k₀) elements with
    | none =>
      have hat : numberAt type elements k₀ = some none := by simp [numberAt, hfind]
      rw [readNumbers, hfind]
      refine ⟨(ih _ hrest).1, fun k => ?_⟩
      rw [(ih _ hrest).2 k]
      by_cases hk : k = k₀
      · subst hk
        simp [hat]
      · simp [hk]
    | some val =>
      have hat : numberAt type elements k₀ =
          (readNonNegativeInteger (Block.value val)).map some := by simp [numberAt, hfind]
      rw [hat, Option.isSome_map, Option.isSome_iff_exists] at hfirst
      obtain ⟨n, hn⟩ := hfirst
      rw [hn] at hat
      simp only [readNumbers, hfind, hn]
      refine ⟨(ih _ hrest).1, fun k => ?_⟩
      rw [(ih _ hrest).2 k]
      by_cases hk : k = k₀
      · subst hk
        simp [hat, Numbers.present]
      · simp [hk, Numbers.present]

/-- The reading of a list of fields fails if that of one of them fails. -/
theorem readNumbers_of_none (hk : k ∈ ks) (h : numberAt type elements k = none) :
    (readNumbers type elements ks numbers).1 = false := by
  induction ks generalizing numbers with
  | nil => exact absurd hk List.not_mem_nil
  | cons k₀ ks ih =>
    rw [readNumbers]
    -- The reading fails at the bad field, if it has not failed before.
    rcases List.mem_cons.mp hk with rfl | hk
    · unfold numberAt at h
      cases hfind : Block.find (type k) elements with
      | none => simp [hfind] at h
      | some val =>
        rw [hfind] at h
        have hread : readNonNegativeInteger (Block.value val) = none := by simpa using h
        simp only [hread]
    · split
      · exact ih hk
      · split
        · rfl
        · exact ih hk

/-- A list of fields is read from left to right. -/
theorem readNumbers_append (type : κ → ℕ) (elements : List (List ℕ)) (numbers : Numbers κ)
    (ks ks' : List κ) :
    readNumbers type elements (ks ++ ks') numbers =
      match readNumbers type elements ks numbers with
      | (false, numbers) => (false, numbers)
      | (true, numbers) => readNumbers type elements ks' numbers := by
  induction ks generalizing numbers with
  | nil => rfl
  | cons k ks ih =>
    rw [List.cons_append, readNumbers, readNumbers]
    cases Block.find (type k) elements with
    | none => exact ih numbers
    | some val =>
      cases hread : readNonNegativeInteger (Block.value val) with
      | none => simp only [hread]
      | some n => simp only [hread, ih]

variable (ks) in
/-- The reading of all fields, of which none was present. -/
theorem readNumbers_cases (type : κ → ℕ) (elements : List (List ℕ)) (hks : ∀ k, k ∈ ks)
    (hnumbers : ∀ k, numbers.present k = none) :
    (numbersAt type elements ks = none ∧ (readNumbers type elements ks numbers).1 = false) ∨
      (readNumbers type elements ks numbers).1 = true ∧
        numbersAt type elements ks = some (readNumbers type elements ks numbers).2.present := by
  unfold numbersAt
  -- Either all fields are read or one of them is bad.
  by_cases hall : ks.all fun k => (numberAt type elements k).isSome
  · right
    obtain ⟨hreturns, hpresent⟩ :=
      readNumbers_of_isSome numbers (List.all_eq_true.mp hall)
    refine ⟨hreturns, ?_⟩
    rw [if_pos hall, Option.some_inj]
    ext1 k
    rw [hpresent k, if_pos (hks k), hnumbers k, Option.or_none]
  · left
    refine ⟨if_neg hall, ?_⟩
    rw [List.all_eq_true] at hall
    push Not at hall
    obtain ⟨k, hk, hnone⟩ := hall
    exact readNumbers_of_none hk (Option.not_isSome_iff_eq_none.mp hnone)

/-- An element is looked for in the first part, then in the second. -/
theorem find_append (t : ℕ) (xs ys : List (List ℕ)) :
    Block.find t (xs ++ ys) = (Block.find t xs).or (Block.find t ys) :=
  List.find?_append

/-- An optional element is found if it was written. -/
theorem find_optionalElement {t : ℕ} {e : List ℕ} (h : Block.type e = t) (present : Bool) :
    Block.find t (optionalElement present e) = if present then some e else none := by
  cases present <;> simp [optionalElement, Block.find, h]

theorem find_optionalElement_of_ne {t : ℕ} {e : List ℕ} (h : Block.type e ≠ t) (present : Bool) :
    Block.find t (optionalElement present e) = none := by
  cases present <;> simp [optionalElement, Block.find, h]

omit [DecidableEq κ] in
/-- No number is found under a type that is not its own. -/
theorem find_numberElements_of_ne {t : ℕ} (hlt : ∀ k, type k < 2 ^ 64) (h : ∀ k, type k ≠ t)
    (numbers : Numbers κ) (ks : List κ) :
    Block.find t (numberElements type numbers ks) = none := by
  refine List.find?_eq_none.mpr fun e he => ?_
  obtain ⟨k, -, hk⟩ := List.mem_filterMap.mp he
  split at hk
  · rw [← Option.some_inj.mp hk, type_element (hlt k)]
    simpa using h k
  · exact absurd hk (by simp)

omit [DecidableEq κ] in
/-- Each number that was written is found under its own type. -/
theorem find_numberElements (hlt : ∀ k, type k < 2 ^ 64) (hinj : Function.Injective type)
    (numbers : Numbers κ) (hk : k ∈ ks) :
    Block.find (type k) (numberElements type numbers ks) =
      if numbers.has k then some (element (type k) (nonNegativeInteger (numbers.value k)))
      else none := by
  induction ks with
  | nil => exact absurd hk List.not_mem_nil
  | cons k₀ ks ih =>
    have hcons : numberElements type numbers (k₀ :: ks) =
        numberElements type numbers [k₀] ++ numberElements type numbers ks :=
      List.filterMap_append (l := [k₀])
    rw [hcons, find_append]
    -- The elements before that of `k` have another type, as the types are different.
    by_cases hsame : k₀ = k
    · subst hsame
      by_cases hhas : numbers.has k₀ = true
      · simp [numberElements, Block.find, hhas, type_element (hlt k₀)]
      · by_cases hmem : k₀ ∈ ks
        · rw [ih hmem]
          simp [numberElements, Block.find, hhas]
        · have hrest : Block.find (type k₀) (numberElements type numbers ks) = none := by
            refine List.find?_eq_none.mpr fun e he => ?_
            obtain ⟨k, hk, he⟩ := List.mem_filterMap.mp he
            split at he
            · rw [← Option.some_inj.mp he, type_element (hlt k)]
              have hne : type k ≠ type k₀ := fun heq => hmem (hinj heq ▸ hk)
              simpa using hne
            · exact absurd he (by simp)
          rw [hrest]
          simp [numberElements, Block.find, hhas]
    · have hother : Block.find (type k) (numberElements type numbers [k₀]) = none := by
        have hne : type k₀ ≠ type k := fun heq => hsame (hinj heq)
        by_cases hhas : numbers.has k₀ = true
        · simp [numberElements, Block.find, hhas, type_element (hlt k₀), hne]
        · simp [numberElements, Block.find, hhas]
      rw [hother, Option.none_or]
      exact ih ((List.mem_cons.mp hk).resolve_left (Ne.symm hsame))

omit [DecidableEq κ] in
/-- **A number is read back.** -/
theorem numberAt_of_find (hlt : ∀ k, type k < 2 ^ 64)
    (h : Block.find (type k) elements = if numbers.has k then
      some (element (type k) (nonNegativeInteger (numbers.value k))) else none) :
    numberAt type elements k = some (numbers.present k) := by
  have hvalue : (nonNegativeInteger (numbers.value k)).length < 2 ^ 64 :=
    (length_nonNegativeInteger_le _).trans_lt (by norm_num)
  unfold numberAt Numbers.present
  rw [h]
  cases numbers.has k with
  | false => rfl
  | true => simp [value_element (hlt k) hvalue, readNonNegativeInteger_nonNegativeInteger]

omit [DecidableEq κ] in
/-- If each number is read as it was set, all of them are. -/
theorem numbersAt_of_numberAt (h : ∀ k, numberAt type elements k = some (numbers.present k)) :
    numbersAt type elements ks = some numbers.present := by
  have hall : ks.all fun k => (numberAt type elements k).isSome :=
    List.all_eq_true.mpr fun k _ => by simp [h k]
  rw [numbersAt, if_pos hall, Option.some_inj]
  ext1 k
  rw [h k, Option.join_some]

end ReadBack

section Lengths

variable {κ : Type} (type : κ → ℕ) (numbers : Numbers κ) (ks : List κ)

/-- A number takes at most 26 bytes. -/
theorem length_numberElements_le : (numberElements type numbers ks).flatten.length ≤
    26 * ks.length := by
  induction ks with
  | nil => simp [numberElements]
  | cons k ks ih =>
    have hcons : numberElements type numbers (k :: ks) =
        numberElements type numbers [k] ++ numberElements type numbers ks :=
      List.filterMap_append (l := [k])
    -- A type and a length of nine bytes each, and a number of eight.
    have hone : (numberElements type numbers [k]).flatten.length ≤ 26 := by
      by_cases hhas : numbers.has k = true
      · have htype := length_varNumber_le (type k)
        have hlength := length_varNumber_le (nonNegativeInteger (numbers.value k)).length
        have hvalue := length_nonNegativeInteger_le (numbers.value k)
        simp only [numberElements, hhas, if_true, List.filterMap_cons, List.filterMap_nil,
          List.flatten_cons, List.flatten_nil, List.append_nil, element, List.length_append]
        omega
      · simp [numberElements, hhas]
    rw [hcons, List.flatten_append, List.length_append, List.length_cons]
    omega

variable {type numbers ks}

/-- The encoded numbers are elements a block can have. -/
theorem numberElements_mem (hlt : ∀ k, type k < 2 ^ 64) {e : List ℕ}
    (he : e ∈ numberElements type numbers ks) : e ∈ Block.Elements := by
  obtain ⟨k, -, hk⟩ := List.mem_filterMap.mp he
  split at hk
  · rw [← Option.some_inj.mp hk]
    refine element_mem (hlt k) ((length_nonNegativeInteger_le _).trans_lt (by norm_num))
  · exact absurd hk (by simp)

theorem length_optionalElement_le (present : Bool) (e : List ℕ) :
    (optionalElement present e).flatten.length ≤ e.length := by
  cases present <;> simp [optionalElement]

/-- An optional element is one a block can have. -/
theorem optionalElement_mem {e e' : List ℕ} (h : e ∈ Block.Elements) {present : Bool}
    (he : e' ∈ optionalElement present e) : e' ∈ Block.Elements := by
  cases present with
  | false => exact absurd he (by simp [optionalElement])
  | true =>
    rw [List.mem_singleton.mp he]
    exact h

end Lengths

/-! ### The round trip of a parameter -/

/-- The types of the parameter fields fit their encoding. -/
theorem ParameterField.type_lt (k : ParameterField) : k.type < 2 ^ 64 := by
  cases k <;> exact Nat.lt_of_lt_of_le (by decide : _ < 256) (by norm_num)

theorem ParameterField.type_injective : Function.Injective ParameterField.type := by
  intro k k' h
  cases k <;> cases k' <;> first | rfl | exact absurd h (by decide)

theorem ResponseField.type_lt (k : ResponseField) : k.type < 2 ^ 64 := by
  cases k <;> exact Nat.lt_of_lt_of_le (by decide : _ < 256) (by norm_num)

theorem ResponseField.type_injective : Function.Injective ResponseField.type := by
  intro k k' h
  cases k <;> cases k' <;> first | rfl | exact absurd h (by decide)

namespace RepoCommandParameter

variable {lib : WireLibrary} {wire : List ℕ} {p : RepoCommandParameter lib}

/-- The fields of a parameter that are present. -/
structure Fields (lib : WireLibrary) where
  name : Option lib.Name
  selectors : Option lib.Selectors
  number : ParameterField → Option UInt64

def presentName (p : RepoCommandParameter lib) : Option lib.Name :=
  if p.m_hasName then some p.m_name else none

def presentSelectors (p : RepoCommandParameter lib) : Option lib.Selectors :=
  if lib.empty p.m_selectors then none else some p.m_selectors

def fields (p : RepoCommandParameter lib) : Fields lib :=
  ⟨p.presentName, p.presentSelectors, p.numbers.present⟩

/-- The elements that a parameter is encoded to. -/
def elements (p : RepoCommandParameter lib) : List (List ℕ) :=
  optionalElement p.m_hasName (lib.encodeName p.m_name) ++
    (optionalElement (!lib.empty p.m_selectors) (lib.encodeSelectors p.m_selectors) ++
      numberElements ParameterField.type p.numbers
        [.interestLifetime, .watchTimeout, .maxInterestNum, .startBlockId, .endBlockId,
          .processId])

/-- The encoding is one element that holds the fields in order. -/
theorem encodeWith_buffer (p : RepoCommandParameter lib) :
    encodeWith buffer p [] =
      ((element tlv.RepoCommandParameter p.elements.flatten).length,
        element tlv.RepoCommandParameter p.elements.flatten) := by
  rw [encodeWith, prependNumbers_buffer, prependElement_buffer, prependElement_buffer,
    ← prependHeader_buffer]
  congr 1
  simp only [elements, List.flatten_append, List.length_append, List.reverse_cons,
    List.reverse_nil, List.nil_append, List.cons_append, List.append_nil, Prod.mk.injEq, and_true]
  omega

/-- **The first pass estimates what the second one writes.** -/
theorem estimatedSize_eq (p : RepoCommandParameter lib) : p.estimatedSize = p.written.length := by
  have hpasses : encodeWith estimator p () = ((encodeWith buffer p []).1, ()) := by
    unfold encodeWith
    rw [show ((0, ()) : ℕ × Unit) = (((0, []) : ℕ × List ℕ).1, ()) from rfl,
      prependNumbers_estimator, prependElement_estimator, prependElement_estimator,
      prependHeader_estimator]
  rw [estimatedSize, written, hpasses, encodeWith_buffer]

/-- What the elements say of the name; an exception is `none`. -/
def nameAt (lib : WireLibrary) (elements : List (List ℕ)) : Option (Option lib.Name) :=
  match Block.find tlv.Name elements with
  | none => some none
  | some val => (lib.decodeName val).map some

/-- What the elements say of the selectors; an exception is `none`. -/
def selectorsAt (lib : WireLibrary) (elements : List (List ℕ)) : Option (Option lib.Selectors) :=
  match Block.find tlv.Selectors elements with
  | none => some none
  | some val => (lib.decodeSelectors val).map fun selectors =>
      if lib.empty selectors then none else some selectors

/-- What a block says of the fields; an exception is `none`. -/
def readFields (lib : WireLibrary) (wire : List ℕ) : Option (Fields lib) :=
  match Block.parse wire with
  | none => none
  | some elements =>
    if Block.type wire ≠ tlv.RepoCommandParameter then none
    else do
      let name ← nameAt lib elements
      let selectors ← selectorsAt lib elements
      let number ← numbersAt ParameterField.type elements
        [.startBlockId, .endBlockId, .processId, .maxInterestNum, .watchTimeout,
          .interestLifetime]
      pure ⟨name, selectors, number⟩

/-- Reading the name either fails or sets it, and touches no wire. -/
theorem readName_cases (elements : List (List ℕ)) (hname : p.m_hasName = false) :
    (nameAt lib elements = none ∧ (readName elements p).1 = false ∧
      (readName elements p).2.m_wire = p.m_wire) ∨
    ∃ p', readName elements p = (true, p') ∧ nameAt lib elements = some p'.presentName ∧
      p'.numbers = p.numbers ∧ p'.m_wire = p.m_wire := by
  unfold nameAt readName
  cases Block.find tlv.Name elements with
  | none => exact .inr ⟨p, rfl, by simp [presentName, hname], rfl, rfl⟩
  | some val =>
    cases hdecode : lib.decodeName val with
    | none => exact .inl ⟨by simp [hdecode], by simp [hdecode], by simp [hdecode]⟩
    | some name =>
      exact .inr ⟨⟨name, p.m_selectors, true, p.numbers, p.m_wire⟩, by simp [hdecode],
        by simp [hdecode, presentName], rfl, rfl⟩

/-- The selectors are read in the same way. -/
theorem readSelectors_cases (elements : List (List ℕ)) (p : RepoCommandParameter lib) :
    (selectorsAt lib elements = none ∧ (readSelectors elements p).1 = false ∧
      (readSelectors elements p).2.m_wire = p.m_wire) ∨
    ∃ p', readSelectors elements p = (true, p') ∧
      selectorsAt lib elements = some p'.presentSelectors ∧ p'.presentName = p.presentName ∧
      p'.numbers = p.numbers ∧ p'.m_wire = p.m_wire := by
  unfold selectorsAt readSelectors
  cases Block.find tlv.Selectors elements with
  | none =>
    exact .inr ⟨⟨p.m_name, lib.noSelectors, p.m_hasName, p.numbers, p.m_wire⟩, rfl,
      by simp [presentSelectors, lib.empty_noSelectors], rfl, rfl, rfl⟩
  | some val =>
    cases hdecode : lib.decodeSelectors val with
    | none => exact .inl ⟨by simp [hdecode], by simp [hdecode], by simp [hdecode]⟩
    | some selectors =>
      exact .inr ⟨⟨p.m_name, selectors, p.m_hasName, p.numbers, p.m_wire⟩, by simp [hdecode],
        by simp [hdecode, presentSelectors], rfl, rfl, rfl⟩

/-- **What `wireDecode` does**: it keeps the block, and reads the fields that the block says, if
there is no exception. -/
theorem wireDecode_cases (wire : List ℕ) (p : RepoCommandParameter lib) :
    (wireDecode wire p).2.m_wire = some wire ∧
      match readFields lib wire with
      | none => (wireDecode wire p).1 = false
      | some f => (wireDecode wire p).1 = true ∧ (wireDecode wire p).2.fields = f := by
  unfold wireDecode readFields
  dsimp only
  cases Block.parse wire with
  | none => exact ⟨rfl, rfl⟩
  | some elements =>
    dsimp only
    by_cases htype : Block.type wire = tlv.RepoCommandParameter
    · rw [if_neg (not_not.mpr htype), if_neg (not_not.mpr htype)]
      -- All fields are dropped and the wire is set before any field is read.
      generalize hp₀ : (⟨p.m_name, p.m_selectors, false, ⟨fun _ => false, p.numbers.value⟩,
        some wire⟩ : RepoCommandParameter lib) = p₀
      have hname₀ : p₀.m_hasName = false := by rw [← hp₀]
      have hwire₀ : p₀.m_wire = some wire := by rw [← hp₀]
      have hnumbers₀ : ∀ k, p₀.numbers.present k = none := by
        intro k
        rw [← hp₀]
        rfl
      -- The source reads the name, the selectors and the numbers, and throws at the first that is
      -- bad.
      obtain ⟨hat, hfails, hwire⟩ | ⟨p₁, hreturns, hat, hnumbers₁, hwire₁⟩ :=
        readName_cases elements hname₀
      · rw [hat, show readName elements p₀ = (false, (readName elements p₀).2) from
          Prod.ext hfails rfl]
        exact ⟨hwire.trans hwire₀, rfl⟩
      · rw [hat, hreturns]
        dsimp only
        obtain ⟨hat, hfails, hwire⟩ | ⟨p₂, hreturns, hat, hname₂, hnumbers₂, hwire₂⟩ :=
          readSelectors_cases elements p₁
        · rw [hat, show readSelectors elements p₁ = (false, (readSelectors elements p₁).2) from
            Prod.ext hfails rfl]
          exact ⟨hwire.trans (hwire₁.trans hwire₀), rfl⟩
        · rw [hat, hreturns]
          dsimp only
          have hnumbers : ∀ k, p₂.numbers.present k = none := by
            intro k
            rw [hnumbers₂, hnumbers₁]
            exact hnumbers₀ k
          refine ⟨hwire₂.trans (hwire₁.trans hwire₀), ?_⟩
          obtain ⟨hat, hfails⟩ | ⟨hreturns, hat⟩ := readNumbers_cases
            [.startBlockId, .endBlockId, .processId, .maxInterestNum, .watchTimeout,
              .interestLifetime] ParameterField.type elements (by intro k; cases k <;> simp)
            hnumbers
          · rw [hat]
            exact hfails
          · rw [hat]
            refine ⟨hreturns, ?_⟩
            rw [← hname₂]
            rfl
    · rw [if_pos htype, if_pos htype]
      exact ⟨rfl, rfl⟩

/-- Each field is an element a block can have. -/
theorem elements_mem {e : List ℕ} (he : e ∈ p.elements) : e ∈ Block.Elements := by
  rw [elements, List.mem_append, List.mem_append] at he
  rcases he with he | he | he
  · exact optionalElement_mem (lib.encodeName_mem _) he
  · exact optionalElement_mem (lib.encodeSelectors_mem _) he
  · exact numberElements_mem ParameterField.type_lt he

/-- The fields are never too long for a block. -/
theorem length_elements_lt (p : RepoCommandParameter lib) : p.elements.flatten.length < 2 ^ 64 := by
  have hname := length_optionalElement_le p.m_hasName (lib.encodeName p.m_name)
  have hname' := lib.length_encodeName p.m_name
  have hselectors := length_optionalElement_le (!lib.empty p.m_selectors)
    (lib.encodeSelectors p.m_selectors)
  have hselectors' := lib.length_encodeSelectors p.m_selectors
  have hnumbers := length_numberElements_le ParameterField.type p.numbers
    [.interestLifetime, .watchTimeout, .maxInterestNum, .startBlockId, .endBlockId, .processId]
  rw [elements, List.flatten_append, List.flatten_append, List.length_append, List.length_append]
  simp only [List.length_cons, List.length_nil] at hnumbers
  omega

/-- From the encoding the name is read back. -/
theorem nameAt_elements (p : RepoCommandParameter lib) :
    nameAt lib p.elements = some p.presentName := by
  have hselectors : Block.type (lib.encodeSelectors p.m_selectors) ≠ tlv.Name := by
    rw [lib.type_encodeSelectors]
    decide
  have hnumber : ∀ k : ParameterField, k.type ≠ tlv.Name := by
    intro k
    cases k <;> decide
  -- No other field has the type of a name.
  have hfind : Block.find tlv.Name p.elements =
      if p.m_hasName then some (lib.encodeName p.m_name) else none := by
    rw [elements, find_append, find_append, find_optionalElement (lib.type_encodeName _),
      find_optionalElement_of_ne hselectors,
      find_numberElements_of_ne ParameterField.type_lt hnumber, Option.none_or, Option.or_none]
  unfold nameAt presentName
  rw [hfind]
  cases p.m_hasName with
  | false => rfl
  | true => simp [lib.decode_encodeName]

/-- From the encoding the selectors are read back. -/
theorem selectorsAt_elements (p : RepoCommandParameter lib) :
    selectorsAt lib p.elements = some p.presentSelectors := by
  have hname : Block.type (lib.encodeName p.m_name) ≠ tlv.Selectors := by
    rw [lib.type_encodeName]
    decide
  have hnumber : ∀ k : ParameterField, k.type ≠ tlv.Selectors := by
    intro k
    cases k <;> decide
  -- No other field has the type of selectors.
  have hfind : Block.find tlv.Selectors p.elements =
      if !lib.empty p.m_selectors then some (lib.encodeSelectors p.m_selectors) else none := by
    rw [elements, find_append, find_append, find_optionalElement_of_ne hname,
      find_optionalElement (lib.type_encodeSelectors _),
      find_numberElements_of_ne ParameterField.type_lt hnumber, Option.none_or, Option.or_none]
  unfold selectorsAt presentSelectors
  rw [hfind]
  cases hempty : lib.empty p.m_selectors with
  | true => rfl
  | false => simp [lib.decode_encodeSelectors _ hempty, hempty]

/-- From the encoding every number is read back. -/
theorem numberAt_elements (p : RepoCommandParameter lib) (k : ParameterField) :
    numberAt ParameterField.type p.elements k = some (p.numbers.present k) := by
  have hname : Block.type (lib.encodeName p.m_name) ≠ k.type := by
    rw [lib.type_encodeName]
    cases k <;> decide
  have hselectors : Block.type (lib.encodeSelectors p.m_selectors) ≠ k.type := by
    rw [lib.type_encodeSelectors]
    cases k <;> decide
  refine numberAt_of_find ParameterField.type_lt ?_
  rw [elements, find_append, find_append, find_optionalElement_of_ne hname,
    find_optionalElement_of_ne hselectors, Option.none_or, Option.none_or]
  refine find_numberElements ParameterField.type_lt ParameterField.type_injective p.numbers ?_
  cases k <;> simp

/-- **What is written is read back.** -/
theorem readFields_written (p : RepoCommandParameter lib) :
    readFields lib p.written = some p.fields := by
  have htype : tlv.RepoCommandParameter < 2 ^ 64 :=
    Nat.lt_of_lt_of_le (by decide : _ < 256) (by norm_num)
  have hwritten : p.written = element tlv.RepoCommandParameter p.elements.flatten := by
    rw [written, encodeWith_buffer]
  rw [readFields, hwritten, parse_element htype p.length_elements_lt fun e => elements_mem]
  dsimp only
  rw [if_neg (not_not.mpr (type_element htype)), nameAt_elements, selectorsAt_elements,
    numbersAt_of_numberAt (numberAt_elements p)]
  rfl

variable (lib) in
/-- The calls on a parameter. -/
def codec : Codec (RepoCommandParameter lib) (List ℕ) (Fields lib) where
  wire := m_wire
  fields := fields
  Ready _ := True
  set p p' := (∃ name, p' = p.setName name) ∨ (∃ selectors, p' = p.setSelectors selectors) ∨
    ∃ k n, p' = p.setNumber k n
  encode := wireEncode
  decode := wireDecode

/-- The codec of the parameters is lawful. -/
theorem codec_lawful : (codec lib).Lawful (readFields lib) where
  set_drops p p' h := by
    rcases h with ⟨name, rfl⟩ | ⟨selectors, rfl⟩ | ⟨k, n, rfl⟩ <;> rfl
  encode_kept p wire h := by
    have hwire : p.m_wire = some wire := h
    simp [codec, wireEncode, hwire]
  encode_fresh p h _ := by
    have hwire : p.m_wire = none := h
    refine ⟨p.written, p.readFields_written, ?_⟩
    simp only [codec, wireEncode, hwire, true_and]
    rfl
  encode_refused p _ h := absurd trivial h
  decode_ok wire f p h := by
    obtain ⟨hwire, hcases⟩ := wireDecode_cases wire p
    rw [h] at hcases
    exact ⟨hcases.1, hwire, hcases.2⟩
  decode_fails wire p h := by
    obtain ⟨hwire, hcases⟩ := wireDecode_cases wire p
    rw [h] at hcases
    exact ⟨hcases, hwire⟩

end RepoCommandParameter

/-! ### The round trip of a response -/

namespace RepoCommandResponse

variable {wire : List ℕ} {r : RepoCommandResponse}

/-- The fields of a response that are present. -/
def fields (r : RepoCommandResponse) : ResponseField → Option UInt64 := r.numbers.present

/-- The elements that a response is encoded to. -/
def elements (r : RepoCommandResponse) : List (List ℕ) :=
  numberElements ResponseField.type r.numbers [.processId, .statusCode] ++
    numberElements ResponseField.type r.numbers
      [.startBlockId, .endBlockId, .insertNum, .deleteNum]

/-- The octets that are written for a response with a status code. -/
def written (r : RepoCommandResponse) : List ℕ :=
  element tlv.RepoCommandResponse r.elements.flatten

/-- A response with a status code is encoded as one element. -/
theorem encodeWith_buffer (h : r.numbers.has .statusCode = true) :
    encodeWith buffer r [] = some (r.written.length, r.written) := by
  rw [encodeWith, if_pos h, prependNumbers_buffer, prependNumbers_buffer, written,
    ← prependHeader_buffer]
  congr 2
  simp only [elements, List.flatten_append, List.length_append, List.reverse_cons,
    List.reverse_nil, List.nil_append, List.cons_append, List.append_nil, Prod.mk.injEq, and_true]
  omega

/-- **The first pass estimates what the second one writes**, and fails if that one does. -/
theorem encodeWith_estimator (r : RepoCommandResponse) :
    encodeWith estimator r () = (encodeWith buffer r []).map fun written => (written.1, ()) := by
  unfold encodeWith
  dsimp only
  rw [show ((0, ()) : ℕ × Unit) = (((0, []) : ℕ × List ℕ).1, ()) from rfl,
    prependNumbers_estimator, prependNumbers_estimator, prependHeader_estimator]
  split <;> rfl

/-- What a block says of the fields; an exception is `none`. -/
def readFields (wire : List ℕ) : Option (ResponseField → Option UInt64) :=
  match Block.parse wire with
  | none => none
  | some elements =>
    if Block.type wire ≠ tlv.RepoCommandResponse ∨ Block.find tlv.StatusCode elements = none then
      none
    else numbersAt ResponseField.type elements
      [.startBlockId, .endBlockId, .processId, .statusCode, .insertNum, .deleteNum]

/-- **What `wireDecode` does**: it keeps the block, and reads the fields that the block says, if
there is no exception. -/
theorem wireDecode_cases (wire : List ℕ) (r : RepoCommandResponse) :
    (wireDecode wire r).2.m_wire = some wire ∧
      match readFields wire with
      | none => (wireDecode wire r).1 = false
      | some f => (wireDecode wire r).1 = true ∧ (wireDecode wire r).2.fields = f := by
  unfold wireDecode readFields
  dsimp only
  cases Block.parse wire with
  | none => exact ⟨rfl, rfl⟩
  | some elements =>
    dsimp only
    by_cases htype : Block.type wire = tlv.RepoCommandResponse
    · rw [if_neg (not_not.mpr htype)]
      generalize hnumbers : (⟨fun _ => false, r.numbers.value⟩ : Numbers ResponseField) = numbers
      have habsent : ∀ k, numbers.present k = none := by
        intro k
        rw [← hnumbers]
        rfl
      -- The fields are read in two lists, with the test of the status code between them.
      have happend := readNumbers_append ResponseField.type elements numbers
        [.startBlockId, .endBlockId, .processId, .statusCode] [.insertNum, .deleteNum]
      have hcases := readNumbers_cases
        [.startBlockId, .endBlockId, .processId, .statusCode, .insertNum, .deleteNum]
        ResponseField.type elements (by intro k; cases k <;> simp) habsent
      rw [List.cons_append, List.cons_append, List.cons_append, List.cons_append,
        List.nil_append] at happend
      rw [happend] at hcases
      generalize readNumbers ResponseField.type elements
        [.startBlockId, .endBlockId, .processId, .statusCode] numbers = first at hcases ⊢
      obtain ⟨returns, numbers'⟩ := first
      by_cases hstatus : Block.find tlv.StatusCode elements = none
      · rw [if_pos (.inr hstatus)]
        cases returns with
        | false => exact ⟨rfl, rfl⟩
        | true =>
          dsimp only
          rw [if_pos hstatus]
          exact ⟨rfl, rfl⟩
      · rw [if_neg (not_or.mpr ⟨not_not.mpr htype, hstatus⟩)]
        cases returns with
        | false =>
          obtain ⟨hat, -⟩ | ⟨hreturns, -⟩ := hcases
          · rw [hat]
            exact ⟨rfl, rfl⟩
          · exact absurd hreturns (by simp)
        | true =>
          dsimp only at hcases ⊢
          rw [if_neg hstatus]
          refine ⟨rfl, ?_⟩
          obtain ⟨hat, hfails⟩ | ⟨hreturns, hat⟩ := hcases
          · rw [hat]
            exact hfails
          · rw [hat]
            exact ⟨hreturns, rfl⟩
    · rw [if_pos htype, if_pos (.inl htype)]
      exact ⟨rfl, rfl⟩

/-- Each of its fields is an element a block can have. -/
theorem elements_mem {e : List ℕ} (he : e ∈ r.elements) : e ∈ Block.Elements := by
  rcases List.mem_append.mp he with he | he
  · exact numberElements_mem ResponseField.type_lt he
  · exact numberElements_mem ResponseField.type_lt he

/-- They are never too long for a block. -/
theorem length_elements_lt (r : RepoCommandResponse) : r.elements.flatten.length < 2 ^ 64 := by
  have hfirst := length_numberElements_le ResponseField.type r.numbers [.processId, .statusCode]
  have hsecond := length_numberElements_le ResponseField.type r.numbers
    [.startBlockId, .endBlockId, .insertNum, .deleteNum]
  rw [elements, List.flatten_append, List.length_append]
  simp only [List.length_cons, List.length_nil] at hfirst hsecond
  omega

/-- A field is found in the encoding if it was set. -/
theorem find_elements (r : RepoCommandResponse) (k : ResponseField) :
    Block.find k.type r.elements =
      if r.numbers.has k then
        some (element k.type (nonNegativeInteger (r.numbers.value k)))
      else none := by
  have hone : r.elements = numberElements ResponseField.type r.numbers
      [.processId, .statusCode, .startBlockId, .endBlockId, .insertNum, .deleteNum] := by
    rw [elements, numberElements, numberElements, ← List.filterMap_append]
    rfl
  rw [hone]
  refine find_numberElements ResponseField.type_lt ResponseField.type_injective r.numbers ?_
  cases k <;> simp

/-- **What is written is read back.** -/
theorem readFields_written (h : r.numbers.has .statusCode = true) :
    readFields r.written = some r.fields := by
  have htype : tlv.RepoCommandResponse < 2 ^ 64 :=
    Nat.lt_of_lt_of_le (by decide : _ < 256) (by norm_num)
  have hstatus : Block.find tlv.StatusCode r.elements ≠ none := by
    rw [show tlv.StatusCode = ResponseField.statusCode.type from rfl, find_elements, if_pos h]
    simp
  rw [readFields, written, parse_element htype r.length_elements_lt fun e => elements_mem]
  dsimp only
  rw [if_neg (not_or.mpr ⟨not_not.mpr (type_element htype), hstatus⟩)]
  exact numbersAt_of_numberAt fun k => numberAt_of_find ResponseField.type_lt (r.find_elements k)

-- the octets that the repository's own test expects
example :
    (setDeleteNum 100 (setInsertNum 100 (setProcessId 1234567890 (setEndBlockId 100
      (setStartBlockId 1 (setStatusCode 404 ⟨⟨fun _ => false, fun _ => 0⟩, none⟩)))))).written =
      [0xcf, 0x16, 0xce, 0x04, 0x49, 0x96, 0x02, 0xd2, 0xd0, 0x02, 0x01, 0x94, 0xcc, 0x01, 0x01,
        0xcd, 0x01, 0x64, 0xd1, 0x01, 0x64, 0xd2, 0x01, 0x64] := by
  decide

/-- The calls on a response; one with a status code can be encoded. -/
def codec : Codec RepoCommandResponse (List ℕ) (ResponseField → Option UInt64) where
  wire := m_wire
  fields := fields
  Ready number := number .statusCode ≠ none
  set r r' := ∃ k n, r' = r.setNumber k n
  encode := wireEncode
  decode := wireDecode

/-- The codec asks for nothing but the status code. -/
theorem has_statusCode_iff : codec.Ready (codec.fields r) ↔ r.numbers.has .statusCode = true := by
  change r.numbers.present .statusCode ≠ none ↔ _
  unfold Numbers.present
  cases r.numbers.has .statusCode <;> simp

/-- The codec of the responses is lawful. -/
theorem codec_lawful : codec.Lawful readFields where
  set_drops r r' h := by
    obtain ⟨k, n, rfl⟩ := h
    rfl
  encode_kept r wire h := by
    have hwire : r.m_wire = some wire := h
    simp [codec, wireEncode, hwire]
  encode_fresh r h hready := by
    have hwire : r.m_wire = none := h
    have hstatus := has_statusCode_iff.mp hready
    have hencode : wireEncode r = (some r.written, ⟨r.numbers, some r.written⟩) := by
      unfold wireEncode
      rw [hwire, encodeWith_estimator, encodeWith_buffer hstatus]
      rfl
    refine ⟨r.written, readFields_written hstatus, ?_⟩
    change (wireEncode r).1 = _ ∧ (wireEncode r).2.m_wire = _ ∧ (wireEncode r).2.fields = r.fields
    rw [hencode]
    exact ⟨rfl, rfl, rfl⟩
  encode_refused r h hready := by
    have hwire : r.m_wire = none := h
    have hstatus : ¬r.numbers.has .statusCode = true := fun hhas =>
      hready (has_statusCode_iff.mpr hhas)
    change (wireEncode r).2 = r
    unfold wireEncode
    rw [hwire, encodeWith, if_neg hstatus]
  decode_ok wire f r h := by
    obtain ⟨hwire, hcases⟩ := wireDecode_cases wire r
    rw [h] at hcases
    exact ⟨hcases.1, hwire, hcases.2⟩
  decode_fails wire r h := by
    obtain ⟨hwire, hcases⟩ := wireDecode_cases wire r
    rw [h] at hcases
    exact ⟨hcases, hwire⟩

end RepoCommandResponse

/-! ### Runs -/

/-- **The codecs of the commands.** In a run of calls on a parameter or on a response, what
`wireEncode` returns is decoded to the fields that are present, throughout, if and only if no
`wireDecode` failed and left an object that can be encoded. The first pass of the encoder estimates
the size that the second one writes. -/
theorem roundTrips_iff (lib : WireLibrary) :
    (∀ history p, Run (RepoCommandParameter.codec lib).calls history p →
      (Throughout (RepoCommandParameter.codec lib).RoundTrips history p ↔
        Admitted (RepoCommandParameter.codec lib).Sound history)) ∧
    (∀ history r, Run RepoCommandResponse.codec.calls history r →
      (Throughout RepoCommandResponse.codec.RoundTrips history r ↔
        Admitted RepoCommandResponse.codec.Sound history)) ∧
    (∀ p : RepoCommandParameter lib, p.estimatedSize = p.written.length) ∧
    ∀ r : RepoCommandResponse, r.encodeWith estimator () =
      (r.encodeWith buffer []).map fun written => (written.2.length, ()) := by
  refine ⟨fun history p hrun => ?_, fun history r hrun => ?_,
    RepoCommandParameter.estimatedSize_eq, fun r => ?_⟩
  · exact Codec.throughout_roundTrips_iff RepoCommandParameter.codec_lawful hrun
  · exact Codec.throughout_roundTrips_iff RepoCommandResponse.codec_lawful hrun
  · rw [RepoCommandResponse.encodeWith_estimator]
    by_cases h : r.numbers.has .statusCode = true
    · rw [RepoCommandResponse.encodeWith_buffer h]
      rfl
    · rw [RepoCommandResponse.encodeWith, if_neg h]
      rfl

/-- The empty name, and no selectors. -/
def emptyLibrary : WireLibrary where
  Name := Unit
  encodeName _ := [7, 0]
  decodeName octets := if octets = [7, 0] then some () else none
  brokenName _ _ := ()
  encodeName_mem _ := by
    change Block.fromBuffer [7, 0] = some [7, 0]
    decide
  type_encodeName _ := by decide
  length_encodeName _ := by norm_num
  decode_encodeName _ := rfl
  Selectors := Unit
  noSelectors := ()
  empty _ := true
  encodeSelectors _ := [9, 0]
  decodeSelectors octets := if octets = [9, 0] then some () else none
  brokenSelectors _ _ := ()
  empty_noSelectors := rfl
  encodeSelectors_mem _ := by
    change Block.fromBuffer [9, 0] = some [9, 0]
    decide
  type_encodeSelectors _ := by decide
  length_encodeSelectors _ := by norm_num
  decode_encodeSelectors _ _ := rfl

/-- A parameter that was just made. -/
def freshParameter : RepoCommandParameter emptyLibrary :=
  ⟨(), (), false, ⟨fun _ => false, fun _ => 0⟩, none⟩

/-- A response that was just made. -/
def freshResponse : RepoCommandResponse := ⟨⟨fun _ => false, fun _ => 0⟩, none⟩

/-- A number is set and the parameter is encoded; a status code is set and the response is
encoded. -/
theorem roundTrips_encoded :
    Throughout (RepoCommandParameter.codec emptyLibrary).RoundTrips
        ([(freshParameter, .set), (freshParameter.setStartBlockId 5, .encode)] :
          List (RepoCommandParameter emptyLibrary × Call (List ℕ)))
        (freshParameter.setStartBlockId 5).wireEncode.2 ∧
      Throughout RepoCommandResponse.codec.RoundTrips
        ([(freshResponse, .set), (freshResponse.setStatusCode 200, .encode)] :
          List (RepoCommandResponse × Call (List ℕ)))
        (freshResponse.setStatusCode 200).wireEncode.2 := by
  -- Both histories set a number in a fresh object and encode it.
  refine ⟨((roundTrips_iff emptyLibrary).1 _ _ ?_).mpr ?_,
    ((roundTrips_iff emptyLibrary).2.1 _ _ ?_).mpr ?_⟩
  · have hset : Run (RepoCommandParameter.codec emptyLibrary).calls [(freshParameter, .set)]
        (freshParameter.setStartBlockId 5) :=
      (Run.nil rfl).snoc (.inr (.inr ⟨.startBlockId, 5, rfl⟩))
    exact hset.snoc rfl
  · simp [Admitted, Codec.Sound]
  · have hset : Run RepoCommandResponse.codec.calls [(freshResponse, .set)]
        (freshResponse.setStatusCode 200) :=
      (Run.nil rfl).snoc ⟨.statusCode, 200, rfl⟩
    exact hset.snoc rfl
  · simp [Admitted, Codec.Sound]

/-- A parameter that refused the block of a response is encoded to that block. -/
theorem refused_block_encoded :
    ∃ history p, Run (RepoCommandParameter.codec emptyLibrary).calls history p ∧
      ¬Throughout (RepoCommandParameter.codec emptyLibrary).RoundTrips history p := by
  have hrun : Run (RepoCommandParameter.codec emptyLibrary).calls
      [(freshParameter, .decode [207, 3, 208, 1, 200])]
      (freshParameter.wireDecode [207, 3, 208, 1, 200]).2 :=
    (Run.nil (show freshParameter.m_wire = none from rfl)).snoc rfl
  refine ⟨_, _, hrun, ?_⟩
  rintro ⟨-, hround⟩
  obtain ⟨wire, hwire, hdecodes⟩ := hround trivial
  -- The refused block is kept as the wire, so it is what the object encodes to.
  have hkept : (freshParameter.wireDecode [207, 3, 208, 1, 200]).2.wireEncode.1 =
      some [207, 3, 208, 1, 200] := by decide
  obtain rfl : [207, 3, 208, 1, 200] = wire := Option.some_inj.mp (hkept.symm.trans hwire)
  have hrefused : (freshParameter.wireDecode [207, 3, 208, 1, 200]).1 = false := by decide
  have hreturns := (hdecodes freshParameter).1
  exact absurd (hrefused.symm.trans hreturns) (by simp)

end CommandCodec

end OpenGeoBase
