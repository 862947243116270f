import Mathlib.Data.List.GetD
import Mathlib.Order.Basic
import Mathlib.Tactic.Common

/-!
# Unpacking what was fetched

A long object comes over HTTP in a gzip stream. Its last four bytes tell how long the content is,
and `unzip` makes room for twice as many bytes, sets zlib to work, and calls `inflate` until it says
`Z_STREAM_END`.

`inflate` is a machine with a state, of which only its documentation is used (`Zlib.Documented`): it
makes progress as long as it says `Z_OK`, it says `Z_STREAM_END` when the whole content is out, and
an error stays one. What decides about the loop is whether the rest of the input gives a content
that fits into the rest of the room (`Zlib.Fits`). Each `Z_OK` keeps this as it is, so the loop ends
if and only if it holds at the start (`exists_inflateLoop_iff`). If it does not, each call gives the
same error, to a loop that does not ask for one.
-/

namespace OpenGeoBase

/-- What the functions of zlib return. -/
inductive ReturnCode where
  | Z_OK
  | Z_STREAM_END
  | Z_NEED_DICT
  | Z_STREAM_ERROR
  | Z_DATA_ERROR
  | Z_MEM_ERROR
  | Z_BUF_ERROR
  deriving DecidableEq

/-- Neither success. -/
def ReturnCode.IsError (err : ReturnCode) : Prop := err ≠ .Z_OK ∧ err ≠ .Z_STREAM_END

/-- The library zlib, set to gzip streams. -/
structure Zlib where
  z_stream : Type
  /-- `inflateInit2`, with the input and the room for the output; `none` on an error. -/
  inflateInit2 : List UInt8 → ℕ → Option z_stream
  /-- `inflate`, without flushing. -/
  inflate : z_stream → ReturnCode × z_stream
  avail_in : z_stream → ℕ
  avail_out : z_stream → ℕ
  /-- What has been put into the room so far. -/
  output : z_stream → List UInt8
  /-- The content of the gzip stream that the data begin with, if there is a whole and valid one. -/
  content : List UInt8 → Option (List UInt8)
  /-- What is still to come, if the input that is left is the rest of such a stream. -/
  pending : z_stream → Option (List UInt8)

namespace Zlib

variable (zlib : Zlib)

/-- What is still to come fits into the room that is left. -/
def Fits (infstream : zlib.z_stream) : Prop :=
  ∃ rest, zlib.pending infstream = some rest ∧ rest.length ≤ zlib.avail_out infstream

/-- The library does what its documentation says. There is memory enough, so an error comes of the
data, of their end, or of the room. -/
structure Documented : Prop where
  start {data : List UInt8} {room : ℕ} {infstream : zlib.z_stream} :
    zlib.inflateInit2 data room = some infstream →
    zlib.avail_out infstream = room ∧ zlib.output infstream = [] ∧
      zlib.pending infstream = zlib.content data
  progress {s s' : zlib.z_stream} : zlib.inflate s = (.Z_OK, s') →
    zlib.avail_in s' + zlib.avail_out s' < zlib.avail_in s + zlib.avail_out s
  resume {s s' : zlib.z_stream} : zlib.inflate s = (.Z_OK, s') →
    ∃ written, zlib.output s' = zlib.output s ++ written ∧
      zlib.avail_out s = zlib.avail_out s' + written.length ∧
      zlib.pending s = (zlib.pending s').map (written ++ ·)
  streamEnd {s s' : zlib.z_stream} : zlib.inflate s = (.Z_STREAM_END, s') →
    zlib.Fits s ∧ ∀ rest ∈ zlib.pending s, zlib.output s' = zlib.output s ++ rest
  error {s s' : zlib.z_stream} {err : ReturnCode} : zlib.inflate s = (err, s') → err.IsError →
    ¬zlib.Fits s ∧ (zlib.inflate s').1 = err

end Zlib

/-! ### The code -/

section Code

variable (zlib : Zlib)

/-- The length that the last four of `count` bytes tell, in an `int`, whose sums wrap around. -/
def uncDataSize (compressed_data : List UInt8) (count : ℕ) : UInt32 :=
  let byte := fun i => (compressed_data.getD (count - i) 0).toUInt32
  (byte 1 <<< 24) + (byte 2 <<< 16) + (byte 3 <<< 8) + byte 4

/-- `infstream.avail_out`, when `unzip` starts. -/
def uncRoom (compressed_data : List UInt8) (count : ℕ) : ℕ :=
  (uncDataSize compressed_data count * 2).toNat

/-- The loop of `unzip`; `none` if it is still running after the calls listed. -/
def inflateLoop : ℕ → ReturnCode → zlib.z_stream → Option zlib.z_stream
  | 0, err, infstream => if err = .Z_STREAM_END then some infstream else none
  | calls + 1, err, infstream =>
    if err = .Z_STREAM_END then some infstream
    else inflateLoop calls (zlib.inflate infstream).1 (zlib.inflate infstream).2

/-- `unzip`. The array has not been initialised and holds what was in the `memory` before; the
string ends at the first zero. -/
def unzip (memory : List UInt8) (calls : ℕ) (compressed_data : List UInt8) (count : ℕ) :
    Option (List UInt8) :=
  match zlib.inflateInit2 (compressed_data.take count) (uncRoom compressed_data count) with
  | none => some []
  | some infstream =>
    (inflateLoop zlib calls .Z_OK infstream).map fun infstream =>
      let written := zlib.output infstream
      (written ++ memory.drop written.length).takeWhile (· ≠ 0)

/-- `OnBegin` -/
def OnBegin : List UInt8 := []

/-- `OnData` -/
def OnData (buffer data : List UInt8) : List UInt8 := buffer ++ data

/-- What `OnComplete` hands to `makeLongInsert`. -/
def OnComplete (memory : List UInt8) (calls : ℕ) (buffer : List UInt8) : Option (List UInt8) :=
  unzip zlib memory calls (buffer ++ [0]) buffer.length

/-- The buffer after the data have come in these parts. -/
def downloaded (parts : List (List UInt8)) : List UInt8 := parts.foldl OnData OnBegin

end Code

/-- What was downloaded are the parts one after the other. -/
theorem downloaded_eq (parts : List (List UInt8)) : downloaded parts = parts.flatten := by
  have hfrom : ∀ buffer, parts.foldl OnData buffer = buffer ++ parts.flatten := by
    induction parts with
    | nil => simp
    | cons part parts ih =>
      intro buffer
      rw [List.foldl_cons, ih, List.flatten_cons, OnData, List.append_assoc]
  exact hfrom []

/-! ### The loop -/

section Loop

variable {zlib : Zlib} {infstream s s' : zlib.z_stream} {err : ReturnCode} {calls : ℕ}

/-- The loop stops at the end of the stream. -/
theorem inflateLoop_stop : inflateLoop zlib calls .Z_STREAM_END infstream = some infstream := by
  cases calls with
  | zero => rfl
  | succ calls => rfl

theorem inflateLoop_call (h : err ≠ .Z_STREAM_END) :
    inflateLoop zlib (calls + 1) err s =
      inflateLoop zlib calls (zlib.inflate s).1 (zlib.inflate s).2 := if_neg h

theorem inflateLoop_zero (h : err ≠ .Z_STREAM_END) : inflateLoop zlib 0 err s = none := if_neg h

section Documented

variable (hdoc : zlib.Documented)
include hdoc

/-- An error is repeated, and the loop goes on. -/
theorem inflateLoop_of_isError (herr : err.IsError) (h : (zlib.inflate s).1 = err) (calls : ℕ) :
    inflateLoop zlib calls err s = none := by
  induction calls generalizing s with
  | zero => exact inflateLoop_zero herr.2
  | succ calls ih =>
    have hagain := (hdoc.error (Prod.ext h rfl) herr).2
    rw [inflateLoop_call herr.2, h]
    exact ih hagain

/-- `Z_OK` neither makes nor spoils a content that fits. -/
theorem fits_iff_of_ok (h : zlib.inflate s = (.Z_OK, s')) : zlib.Fits s ↔ zlib.Fits s' := by
  -- what the call writes is taken off the content and off the room alike
  obtain ⟨written, -, hroom, hpending⟩ := hdoc.resume h
  unfold Zlib.Fits
  rw [hpending]
  constructor
  · rintro ⟨rest, hrest, hle⟩
    obtain ⟨rest', hrest', rfl⟩ := Option.map_eq_some_iff.mp hrest
    refine ⟨rest', hrest', ?_⟩
    rw [List.length_append] at hle
    omega
  · rintro ⟨rest', hrest', hle⟩
    refine ⟨written ++ rest', by rw [hrest', Option.map_some], ?_⟩
    rw [List.length_append]
    omega

/-- A content that does not fit keeps the loop going. -/
theorem inflateLoop_of_not_fits (h : ¬zlib.Fits s) (calls : ℕ) :
    inflateLoop zlib calls .Z_OK s = none := by
  -- over the calls made; the stream never gets to its end
  induction calls generalizing s with
  | zero => exact inflateLoop_zero (by decide)
  | succ calls ih =>
    rw [inflateLoop_call (by decide)]
    obtain ⟨err, s', hcall⟩ : ∃ err s', zlib.inflate s = (err, s') := ⟨_, _, rfl⟩
    rw [hcall]
    by_cases hok : err = .Z_OK
    · -- the rest does not fit either
      subst hok
      exact ih (mt (fits_iff_of_ok hdoc hcall).mpr h)
    by_cases hend : err = .Z_STREAM_END
    · subst hend
      exact absurd (hdoc.streamEnd hcall).1 h
    · -- the loop does not look at the error, and the next call repeats it
      have herr : err.IsError := ⟨hok, hend⟩
      exact inflateLoop_of_isError hdoc herr (hdoc.error hcall herr).2 calls

/-- A content that fits is put out, and the loop ends. -/
theorem exists_inflateLoop {rest : List UInt8} (hpending : zlib.pending s = some rest)
    (hle : rest.length ≤ zlib.avail_out s) :
    ∃ calls s', inflateLoop zlib calls .Z_OK s = some s' ∧
      zlib.output s' = zlib.output s ++ rest := by
  -- what is left of the input and of the room gets less with each call
  induction hn : zlib.avail_in s + zlib.avail_out s using Nat.strongRecOn
    generalizing s rest with
  | _ n ih =>
    have hfits : zlib.Fits s := ⟨rest, hpending, hle⟩
    obtain ⟨err, s₁, hcall⟩ : ∃ err s₁, zlib.inflate s = (err, s₁) := ⟨_, _, rfl⟩
    have hfirst : ∀ calls,
        inflateLoop zlib (calls + 1) .Z_OK s = inflateLoop zlib calls err s₁ := by
      intro calls
      rw [inflateLoop_call (by decide), hcall]
    by_cases hok : err = .Z_OK
    · subst hok
      obtain ⟨written, houtput, hroom, hmap⟩ := hdoc.resume hcall
      obtain ⟨rest', hrest', rfl⟩ := Option.map_eq_some_iff.mp (hmap.symm.trans hpending)
      rw [List.length_append] at hle
      obtain ⟨calls, s', hloop, hout⟩ := ih _ (hn ▸ hdoc.progress hcall) hrest' (by omega) rfl
      exact ⟨calls + 1, s', by rw [hfirst, hloop], by rw [hout, houtput, List.append_assoc]⟩
    by_cases hend : err = .Z_STREAM_END
    · -- all is out
      subst hend
      exact ⟨1, s₁, by rw [hfirst, inflateLoop_stop], (hdoc.streamEnd hcall).2 rest hpending⟩
    · exact absurd hfits (hdoc.error hcall ⟨hok, hend⟩).1

/-- The loop ends exactly if the content fits the room. -/
theorem exists_inflateLoop_iff :
    (∃ calls, (inflateLoop zlib calls .Z_OK s).isSome) ↔ zlib.Fits s := by
  constructor
  · rintro ⟨calls, hsome⟩
    by_contra hnot
    rw [inflateLoop_of_not_fits hdoc hnot] at hsome
    exact absurd hsome (by simp)
  · rintro ⟨rest, hpending, hle⟩
    obtain ⟨calls, s', hloop, -⟩ := exists_inflateLoop hdoc hpending hle
    exact ⟨calls, Option.isSome_of_eq_some hloop⟩

end Documented

end Loop

/-! ### What is unpacked -/

section Unpacked

variable {zlib : Zlib} {memory buffer content : List UInt8}

/-- The zero behind the buffer is not read. -/
theorem uncRoom_append (buffer : List UInt8) :
    uncRoom (buffer ++ [0]) buffer.length = uncRoom buffer buffer.length := by
  have hbyte : ∀ i, (buffer ++ [0]).getD (buffer.length - (i + 1)) 0 =
      buffer.getD (buffer.length - (i + 1)) 0 := by
    intro i
    cases buffer with
    | nil => simp
    | cons b buffer => exact List.getD_append _ _ _ _ (by rw [List.length_cons]; omega)
  unfold uncRoom uncDataSize
  simp only [hbyte]

/-- The download ends as its loop does. -/
theorem OnComplete_eq (calls : ℕ) :
    OnComplete zlib memory calls buffer =
      match zlib.inflateInit2 buffer (uncRoom buffer buffer.length) with
      | none => some []
      | some infstream =>
        (inflateLoop zlib calls .Z_OK infstream).map fun infstream =>
          (zlib.output infstream ++ memory.drop (zlib.output infstream).length).takeWhile
            (· ≠ 0) := by
  unfold OnComplete unzip
  rw [uncRoom_append, List.take_left]

/-- The content comes back as far as its first zero; without one, what the memory held follows. -/
theorem exists_OnComplete (hdoc : zlib.Documented) {infstream : zlib.z_stream}
    (hinit : zlib.inflateInit2 buffer (uncRoom buffer buffer.length) = some infstream)
    (hcontent : zlib.content buffer = some content)
    (hle : content.length ≤ uncRoom buffer buffer.length) :
    ∃ calls, OnComplete zlib memory calls buffer =
      some ((content ++ memory.drop content.length).takeWhile (· ≠ 0)) := by
  obtain ⟨hroom, hempty, hpending⟩ := hdoc.start hinit
  obtain ⟨calls, s', hloop, hout⟩ := exists_inflateLoop hdoc (hpending.trans hcontent)
    (hle.trans_eq hroom.symm)
  refine ⟨calls, ?_⟩
  rw [hempty, List.nil_append] at hout
  rw [OnComplete_eq, hinit]
  dsimp only
  rw [hloop, Option.map_some, hout]

/-- **The loop ends** if and only if the buffer begins with a whole gzip stream and the content fits
into twice the room that the last four bytes tell; or if it is not entered. -/
theorem unzip_ends_iff (hdoc : zlib.Documented) (memory : List UInt8) (parts : List (List UInt8)) :
    (∃ calls, (OnComplete zlib memory calls (downloaded parts)).isSome) ↔
      zlib.inflateInit2 (downloaded parts)
          (uncRoom (downloaded parts) (downloaded parts).length) = none ∨
        ∃ content, zlib.content (downloaded parts) = some content ∧
          content.length ≤ uncRoom (downloaded parts) (downloaded parts).length := by
  generalize downloaded parts = buffer
  simp only [OnComplete_eq]
  -- without a stream the function returns at once
  cases hinit : zlib.inflateInit2 buffer (uncRoom buffer buffer.length) with
  | none => simp
  | some infstream =>
    obtain ⟨hroom, -, hpending⟩ := hdoc.start hinit
    have hfits : zlib.Fits infstream ↔ ∃ content, zlib.content buffer = some content ∧
        content.length ≤ uncRoom buffer buffer.length := by
      unfold Zlib.Fits
      rw [hpending, hroom]
    rw [← hfits, ← exists_inflateLoop_iff hdoc]
    simp

end Unpacked

/-! ### A library that knows one stream -/

/-- It unpacks one stream and takes all other data for invalid. -/
def streamZlib (stream content : List UInt8) : Zlib where
  z_stream := List UInt8 × ℕ × List UInt8
  inflateInit2 data room := some (data, room, [])
  inflate s :=
    if s.1 = stream ∧ content.length ≤ s.2.1 then (.Z_STREAM_END, s.1, s.2.1, s.2.2 ++ content)
    else (.Z_DATA_ERROR, s)
  avail_in s := s.1.length
  avail_out s := s.2.1
  output s := s.2.2
  content data := if data = stream then some content else none
  pending s := if s.1 = stream then some content else none

/-- What the example's library does in one call. -/
theorem inflate_streamZlib {stream content : List UInt8}
    {s s' : (streamZlib stream content).z_stream} {err : ReturnCode}
    (h : (streamZlib stream content).inflate s = (err, s')) :
    ((s.1 = stream ∧ content.length ≤ s.2.1) ∧ err = .Z_STREAM_END ∧
        s' = (s.1, s.2.1, s.2.2 ++ content)) ∨
      (¬(s.1 = stream ∧ content.length ≤ s.2.1) ∧ err = .Z_DATA_ERROR ∧ s' = s) := by
  have hcall : (if s.1 = stream ∧ content.length ≤ s.2.1 then
      (ReturnCode.Z_STREAM_END, (s.1, s.2.1, s.2.2 ++ content))
    else (.Z_DATA_ERROR, s)) = (err, s') := h
  split at hcall
  · next hfits =>
    obtain ⟨rfl, rfl⟩ := Prod.mk.inj hcall
    exact Or.inl ⟨hfits, rfl, rfl⟩
  · next hnot =>
    obtain ⟨rfl, rfl⟩ := Prod.mk.inj hcall
    exact Or.inr ⟨hnot, rfl, rfl⟩

/-- What fits the example's library. -/
theorem fits_streamZlib {stream content : List UInt8}
    {s : (streamZlib stream content).z_stream} :
    (streamZlib stream content).Fits s ↔ s.1 = stream ∧ content.length ≤ s.2.1 := by
  have hpending : (streamZlib stream content).pending s =
      if s.1 = stream then some content else none := rfl
  unfold Zlib.Fits
  rw [hpending]
  split
  · next hstream =>
    refine ⟨fun ⟨rest, hrest, hle⟩ => ⟨hstream, ?_⟩, fun h => ⟨content, rfl, h.2⟩⟩
    obtain rfl := Option.some.inj hrest
    exact hle
  · next hother => exact ⟨fun ⟨rest, hrest, _⟩ => (nomatch hrest), fun h => absurd h.1 hother⟩

/-- The example's library behaves as documented. -/
theorem documented_streamZlib (stream content : List UInt8) :
    (streamZlib stream content).Documented where
  -- a stream that unpacks everything in one call, or reports an error and stays where it is
  start h := by
    obtain rfl := Option.some.inj h
    exact ⟨rfl, rfl, rfl⟩
  progress h := by
    rcases inflate_streamZlib h with ⟨-, hcode, -⟩ | ⟨-, hcode, -⟩ <;> exact nomatch hcode
  resume h := by
    rcases inflate_streamZlib h with ⟨-, hcode, -⟩ | ⟨-, hcode, -⟩ <;> exact nomatch hcode
  streamEnd {s s'} h := by
    rcases inflate_streamZlib h with ⟨hfits, -, rfl⟩ | ⟨-, hcode, -⟩
    · refine ⟨fits_streamZlib.mpr hfits, fun rest hrest => ?_⟩
      have hpending : (streamZlib stream content).pending s = some content := if_pos hfits.1
      obtain rfl := Option.some.inj (hpending.symm.trans hrest)
      rfl
    · exact nomatch hcode
  error {s s' err} h herr := by
    rcases inflate_streamZlib h with ⟨-, hcode, -⟩ | ⟨hnot, rfl, rfl⟩
    · exact absurd hcode herr.2
    · exact ⟨fun hfits => hnot (fits_streamZlib.mp hfits), congrArg Prod.fst h⟩

/-- Five letters. -/
def hello : List UInt8 := [104, 101, 108, 108, 111]

/-- The gzip stream of the five letters, in one stored block. -/
def helloStream : List UInt8 :=
  [31, 139, 8, 0, 0, 0, 0, 0, 0, 3, 1, 5, 0, 250, 255, 104, 101, 108, 108, 111, 134, 166, 16, 54, 5,
    0, 0, 0]

/-- The stream comes in two parts. -/
theorem unzip_ends_iff_hello :
    ∃ calls, (OnComplete (streamZlib helloStream hello) []
      calls (downloaded [helloStream.take 10, helloStream.drop 10])).isSome := by
  have hwhole : downloaded [helloStream.take 10, helloStream.drop 10] = helloStream := by
    rw [downloaded_eq]
    decide
  have hdocumented := documented_streamZlib helloStream hello
  refine (unzip_ends_iff hdocumented [] _).mpr (Or.inr ⟨hello, ?_, ?_⟩)
  · rw [hwhole]
    change (if helloStream = helloStream then some hello else none) = some hello
    exact if_pos rfl
  · rw [hwhole]
    decide

/-- Four zeros are no gzip stream. -/
theorem unzip_endless :
    ¬∃ calls, (OnComplete (streamZlib helloStream hello) [] calls
      (downloaded [[0, 0, 0, 0]])).isSome := by
  rintro ⟨calls, hsome⟩
  -- four zeros are no compressed stream, so every call is an error
  have hinvalid : ([0, 0, 0, 0] : List UInt8) ≠ helloStream := by decide
  have hloop := inflateLoop_of_not_fits (documented_streamZlib helloStream hello)
    (fun hfits => hinvalid (fits_streamZlib (s := (([0, 0, 0, 0], 0, []) :
      List UInt8 × ℕ × List UInt8)).mp hfits).1) calls
  have hnone : OnComplete (streamZlib helloStream hello) [] calls
      (downloaded [[0, 0, 0, 0]]) = none := by
    rw [OnComplete_eq]
    exact congrArg (Option.map _) hloop
  rw [hnone] at hsome
  exact absurd hsome (by simp)

end OpenGeoBase
