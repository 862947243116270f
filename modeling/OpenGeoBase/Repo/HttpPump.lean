import OpenGeoBase.Repo.HttpResponse

/-!
# The loop over the bytes of a response

`Response::pump` goes on while there are bytes for a response that is not complete. Each iteration
uses a byte, or ends a body that is complete without one (`iteration_progress`), so it ends.

The bytes may arrive in any portions. An iteration over two portions either ends in the first one,
or goes on in the second one from where it stood (`iteration_append`). So what a response makes of
two portions, one after the other, is what it makes of them together, but for the grain of the data
callbacks (`pump_append`).
-/

namespace OpenGeoBase.Happyhttp

open Text Emits

/-! ### An iteration -/

namespace Response

variable (r : Response)

/-- How many bytes of the body, or of the chunk, are still to come, if this is known. -/
def remaining : Option ℤ :=
  if r.m_Chunked then some r.m_ChunkLeft
  else if r.m_Length ≠ -1 then some (r.m_Length - r.m_BytesRead)
  else none

/-- How many bytes of the data belong to the body. -/
def used (data : List UInt8) : ℤ :=
  match r.remaining with
  | some left => min data.length left
  | none => data.length

/-- The response `n` bytes of body later. -/
def advance (n : ℤ) : Response :=
  { r with
    m_BytesRead := r.m_BytesRead + n
    m_ChunkLeft := if r.m_Chunked then r.m_ChunkLeft - n else r.m_ChunkLeft
    m_State :=
      if r.remaining = some n then if r.m_Chunked then .CHUNKEND else .COMPLETE else r.m_State }

/-- The completion callback, if the body ends after `n` bytes. -/
def endCalls (n : ℤ) : List Callback :=
  if r.m_Chunked = false ∧ r.remaining = some n then [.complete] else []

variable {r}
variable {r' : Response} {data rest : List UInt8} {n : ℤ}

/-- A negative count throws. -/
theorem callData_of_neg (h : n < 0) (data : List UInt8) : callData n data = raise .negativeCount :=
  if_pos h

theorem callData_of_nonneg (h : ¬n < 0) (data : List UInt8) :
    callData n data = emit [.data (data.take n.toNat)] := if_neg h

/-- **An iteration in the body.** -/
theorem iteration_body (h : r.m_State = .BODY) (data : List UInt8) :
    r.iteration data =
      if r.used data < 0 then raise .negativeCount
      else ⟨.data (data.take (r.used data).toNat) :: r.endCalls (r.used data),
        .ok (r.advance (r.used data), data.drop (r.used data).toNat)⟩ := by
  unfold iteration
  rw [h]
  dsimp only
  -- The two branches of the source, for chunks and for a plain body, are one formula in
  -- `remaining`.
  cases hchunked : r.m_Chunked with
  | true =>
    have hremaining : r.remaining = some r.m_ChunkLeft := by simp [remaining, hchunked]
    have hused : r.used data = min (data.length : ℤ) r.m_ChunkLeft := by simp [used, hremaining]
    rw [if_pos rfl]
    unfold processDataChunked
    dsimp only
    rw [← hused]
    by_cases hneg : r.used data < 0
    · rw [callData_of_neg hneg, if_pos hneg]
      rfl
    · rw [callData_of_nonneg hneg, if_neg hneg]
      have hadvance : r.advance (r.used data) = { r with
          m_BytesRead := r.m_BytesRead + r.used data
          m_ChunkLeft := r.m_ChunkLeft - r.used data
          m_State := if r.m_ChunkLeft - r.used data = 0 then .CHUNKEND else r.m_State } := by
        simp [advance, hchunked, hremaining, sub_eq_zero]
      have hend : r.endCalls (r.used data) = [] := by simp [endCalls, hchunked]
      rw [hadvance, hend]
      rfl
  | false =>
    rw [if_neg Bool.false_ne_true]
    have hused : (if r.m_Length ≠ -1 then min (data.length : ℤ) (r.m_Length - r.m_BytesRead)
        else data.length) = r.used data := by
      unfold used remaining
      split <;> simp_all
    unfold processDataNonChunked
    dsimp only
    rw [hused]
    by_cases hneg : r.used data < 0
    · rw [callData_of_neg hneg, if_pos hneg]
      rfl
    · rw [callData_of_nonneg hneg, if_neg hneg]
      -- The length tells the end of a plain body if there is one.
      have hiff : r.m_Length ≠ -1 ∧ r.m_BytesRead + r.used data = r.m_Length ↔
          r.remaining = some (r.used data) := by
        unfold remaining
        rw [hchunked, if_neg Bool.false_ne_true]
        split
        · next hlength =>
          rw [Option.some_inj]
          exact ⟨fun h => by omega, fun h => ⟨hlength, by omega⟩⟩
        · next hlength => simp [hlength]
      have hadvance : r.advance (r.used data) = { r with
          m_BytesRead := r.m_BytesRead + r.used data
          m_State := if r.remaining = some (r.used data) then .COMPLETE else r.m_State } := by
        simp [advance, hchunked]
      simp only [hiff, hadvance, endCalls, hchunked]
      by_cases hend : r.remaining = some (r.used data)
      · simp only [hend, if_true, true_and]
        rfl
      · simp only [hend, if_false, and_false]
        rfl

/-- No more is used than there is. -/
theorem used_le (r : Response) (data : List UInt8) : r.used data ≤ data.length := by
  unfold used
  split
  · exact min_le_left _ _
  · exact le_rfl

/-- The body goes on unless the last byte of it was read. -/
theorem state_advance (h : r.m_State = .BODY) :
    (r.advance n).m_State = .BODY ↔ r.remaining ≠ some n := by
  unfold advance
  dsimp only
  split_ifs with hend hchunked
  · simp [hend]
  · simp [hend]
  · simp [h, hend]

/-- It collects a line, unless it reads the body or is complete. -/
def ReadsLine (r : Response) : Prop := r.m_State ≠ .BODY ∧ r.m_State ≠ .COMPLETE

/-- **An iteration at a line.** -/
theorem iteration_line (h : r.ReadsLine) (data : List UInt8) :
    r.iteration data =
      match accumulateLine r.m_LineBuf data with
      | (m_LineBuf, none) => pure ({ r with m_LineBuf := m_LineBuf }, [])
      | (m_LineBuf, some data) =>
        { r with m_LineBuf := m_LineBuf }.processLine >>= fun r' => pure (r', data) := by
  obtain ⟨hbody, hcomplete⟩ := h
  unfold iteration
  cases hstate : r.m_State with
  | BODY => exact absurd hstate hbody
  | COMPLETE => exact absurd hstate hcomplete
  | _ => rfl

/-- A complete line leaves less behind. -/
theorem length_lt_of_accumulateLine {buf buf' : Str}
    (h : accumulateLine buf data = (buf', some rest)) : rest.length < data.length := by
  induction data generalizing buf with
  | nil => exact absurd (congrArg Prod.snd h) (by simp [accumulateLine])
  | cons b data ih =>
    unfold accumulateLine at h
    dsimp only at h
    split at h
    · obtain rfl : data = rest := Option.some.inj (congrArg Prod.snd h)
      exact Nat.lt_succ_self _
    · exact Nat.lt_succ_of_lt (ih h)

/-- What is left to do, with the bytes that are left: a body may be ended without one. -/
def toDo (r : Response) (data : List UInt8) : ℕ :=
  2 * data.length + if r.m_State = .BODY then 1 else 0

theorem toDo_lt_of_length (h : rest.length < data.length) : toDo r' rest < toDo r data := by
  unfold toDo
  split_ifs <;> omega

/-- **An iteration uses a byte**, or leaves the body. -/
theorem iteration_progress (hgoes : r.Goes data)
    (h : (r.iteration data).result = .ok (r', rest)) : toDo r' rest < toDo r data := by
  obtain ⟨hne, hstate⟩ := hgoes
  have hpos : 0 < data.length := List.length_pos_of_ne_nil hne
  -- In the body bytes are used or the body ends; elsewhere a line is taken off, or all that is left
  -- of one.
  by_cases hbody : r.m_State = .BODY
  · rw [iteration_body hbody] at h
    split at h
    · exact absurd h (by simp [raise])
    · next hneg =>
      obtain ⟨rfl, rfl⟩ := Prod.mk.inj (Except.ok.inj h)
      by_cases hend : r.remaining = some (r.used data)
      · have hleft : ¬(r.advance (r.used data)).m_State = .BODY := by
          simp [state_advance hbody, hend]
        unfold toDo
        rw [if_pos hbody, if_neg hleft, List.length_drop]
        omega
      · -- bytes are missing, so all of them are used
        have hall : r.used data = data.length := by
          unfold used at hend ⊢
          cases hremaining : r.remaining with
          | none => rfl
          | some left =>
            rw [hremaining] at hend
            dsimp only at hend ⊢
            rcases le_total (data.length : ℤ) left with hle | hle
            · exact min_eq_left hle
            · exact absurd (by rw [min_eq_right hle]) hend
        refine toDo_lt_of_length ?_
        rw [hall, List.length_drop]
        omega
  · rw [iteration_line ⟨hbody, hstate⟩] at h
    split at h
    · next buf' heq =>
      obtain ⟨rfl, rfl⟩ := Prod.mk.inj (Except.ok.inj h)
      exact toDo_lt_of_length hpos
    · next buf' rest' heq =>
      have hrest : rest' = rest := by
        rcases hline : ({ r with m_LineBuf := buf' } : Response).processLine with ⟨os, e | r₁⟩
        · rw [hline, mk_error_bind] at h
          exact absurd h (by simp)
        · rw [hline] at h
          exact (Prod.mk.inj (Except.ok.inj h)).2
      exact toDo_lt_of_length (hrest ▸ length_lt_of_accumulateLine heq)

/-- `Response::pump`; and the bytes that are not used. -/
def pump (r : Response) (data : List UInt8) : Emits Callback Fault (Response × List UInt8) :=
  if hgoes : r.Goes data then
    match h : (r.iteration data).result with
    | .error e => ⟨(r.iteration data).out, .error e⟩
    | .ok (r', rest) =>
      have := iteration_progress hgoes h
      ⟨(r.iteration data).out ++ (r'.pump rest).out, (r'.pump rest).result⟩
  else pure (r, data)
termination_by toDo r data

/-- The loop stops where its condition fails. -/
theorem pump_of_not (h : ¬r.Goes data) : r.pump data = pure (r, data) := by
  rw [pump, dif_neg h]

/-- The loop goes round once more where its condition holds. -/
theorem pump_of_goes (h : r.Goes data) :
    r.pump data = r.iteration data >>= fun next => next.1.pump next.2 := by
  rw [pump, dif_pos h]
  split
  · next e heq => exact (bind_of_error heq fun next => next.1.pump next.2).symm
  · next r' rest heq => exact (bind_of_ok heq fun next => next.1.pump next.2).symm

/-- **What is not used** is left to the next response. -/
theorem rest_of_pump (h : (r.pump data).result = .ok (r', rest)) :
    rest = [] ∨ r'.m_State = .COMPLETE := by
  -- By induction on what is left to do, which every turn lessens.
  induction hn : toDo r data using Nat.strongRecOn generalizing r data with
  | _ n ih =>
    by_cases hgoes : r.Goes data
    · rw [pump_of_goes hgoes] at h
      rcases hresult : (r.iteration data).result with e | next
      · rw [bind_of_error hresult] at h
        exact absurd h (by simp)
      · rw [bind_of_ok hresult] at h
        exact ih _ (hn ▸ iteration_progress hgoes hresult) h rfl
    · rw [pump_of_not hgoes] at h
      obtain ⟨rfl, rfl⟩ := Prod.mk.inj (Except.ok.inj h)
      by_contra hnot
      exact hgoes (not_or.mp hnot)

end Response

/-! ### Two portions -/

/-- A byte of the body, or one of the other calls: what a callback is called with, told without
the portions. -/
inductive Atom where
  | begin
  | byte (b : UInt8)
  | complete
  deriving DecidableEq

/-- The bytes of a call, one by one. -/
def Callback.atoms : Callback → List Atom
  | .begin => [.begin]
  | .data bytes => bytes.map .byte
  | .complete => [.complete]

namespace Response

variable {r r' : Response} {a b rest : List UInt8}

/-- A line grows by one character at a time. -/
theorem accumulateLine_cons (buf : Str) (c : UInt8) (a : List UInt8) :
    accumulateLine buf (c :: a) =
      if byteChar c = '\n' then (buf, some a)
      else accumulateLine (if byteChar c ≠ '\r' then buf ++ [byteChar c] else buf) a := rfl

/-- A line may be cut in two anywhere. -/
theorem accumulateLine_append (buf : Str) (a b : List UInt8) :
    accumulateLine buf (a ++ b) =
      match accumulateLine buf a with
      | (buf', none) => accumulateLine buf' b
      | (buf', some rest) => (buf', some (rest ++ b)) := by
  induction a generalizing buf with
  | nil => rfl
  | cons c a ih =>
    rw [List.cons_append, accumulateLine_cons, accumulateLine_cons]
    split
    · rfl
    · exact ih _

/-- Bytes that are read do not remain. -/
theorem remaining_advance (r : Response) (n : ℤ) :
    (r.advance n).remaining = r.remaining.map (· - n) := by
  unfold remaining advance
  dsimp only
  split_ifs
  · rfl
  · rw [Option.map_some, sub_sub]
  · rfl

/-- What remains after them is known from what remained before. -/
theorem remaining_advance_eq_some {m n : ℤ} :
    (r.advance m).remaining = some n ↔ r.remaining = some (m + n) := by
  rw [remaining_advance]
  cases r.remaining with
  | none => simp
  | some left =>
    rw [Option.map_some, Option.some_inj, Option.some_inj]
    omega

/-- Two advances are one if the first does not end the body. -/
theorem advance_advance {m : ℤ} (h : r.remaining ≠ some m) (n : ℤ) :
    (r.advance m).advance n = r.advance (m + n) := by
  have hstate : (r.advance m).m_State = r.m_State := if_neg h
  have hleft : (if r.m_Chunked then (r.advance m).m_ChunkLeft - n else (r.advance m).m_ChunkLeft) =
      if r.m_Chunked then r.m_ChunkLeft - (m + n) else r.m_ChunkLeft := by
    unfold advance
    split_ifs
    · exact sub_sub _ _ _
    · rfl
  -- Only the state could differ, and the first advance does not end the body.
  have htwice : (r.advance m).advance n = { r with
      m_BytesRead := r.m_BytesRead + m + n
      m_ChunkLeft :=
        if r.m_Chunked then (r.advance m).m_ChunkLeft - n else (r.advance m).m_ChunkLeft
      m_State :=
        if (r.advance m).remaining = some n then if r.m_Chunked then .CHUNKEND else .COMPLETE
        else (r.advance m).m_State } := rfl
  rw [htwice, hstate, hleft, add_assoc]
  simp only [remaining_advance_eq_some]
  rfl

/-- Two advances make the same calls at the end as one. -/
theorem endCalls_advance (r : Response) (m n : ℤ) :
    (r.advance m).endCalls n = r.endCalls (m + n) := by
  have hchunked : (r.advance m).m_Chunked = r.m_Chunked := rfl
  unfold endCalls
  rw [hchunked]
  simp only [remaining_advance_eq_some]

/-- Where bytes are missing, all there are have been used. -/
theorem used_of_ne (h : r.remaining ≠ some (r.used a)) :
    r.used a = a.length ∧ ∀ left ∈ r.remaining, (a.length : ℤ) < left := by
  unfold used at h ⊢
  cases hremaining : r.remaining with
  | none => exact ⟨rfl, fun left hleft => absurd hleft (by simp)⟩
  | some left =>
    rw [hremaining] at h
    dsimp only at h ⊢
    rcases lt_or_ge (a.length : ℤ) left with hlt | hle
    · exact ⟨min_eq_left hlt.le, fun _ hleft => Option.some.inj hleft ▸ hlt⟩
    · exact absurd (by rw [min_eq_right hle]) h

/-- Where no bytes are missing, those that come with them do not matter. -/
theorem used_append_of_eq (h : r.remaining = some (r.used a)) (b : List UInt8) :
    r.used (a ++ b) = r.used a := by
  have hle := used_le r a
  unfold used at h hle ⊢
  rw [h]
  dsimp only
  rw [List.length_append]
  push_cast
  omega

/-- Where bytes are missing, the next ones are used as if they had come with those that are
there. -/
theorem used_append_of_ne (h : r.remaining ≠ some (r.used a)) (b : List UInt8) :
    r.used (a ++ b) = a.length + (r.advance a.length).used b := by
  obtain ⟨-, hlt⟩ := used_of_ne h
  unfold used
  rw [remaining_advance, List.length_append]
  push_cast
  cases hremaining : r.remaining with
  | none => rfl
  | some left =>
    have hleft := hlt left hremaining
    dsimp only [Option.map_some]
    omega

/-- After an advance within the body the next use is not negative. -/
theorem used_advance_nonneg (h : r.remaining ≠ some (r.used a)) (b : List UInt8) :
    0 ≤ (r.advance a.length).used b := by
  obtain ⟨-, hlt⟩ := used_of_ne h
  unfold used
  rw [remaining_advance]
  cases hremaining : r.remaining with
  | none => exact Int.natCast_nonneg _
  | some left =>
    have hleft := hlt left hremaining
    dsimp only [Option.map_some]
    omega

/-- The calls for a body, byte by byte. -/
theorem atoms_data (bytes : List UInt8) (calls : List Callback) :
    (Callback.data bytes :: calls).flatMap Callback.atoms =
      bytes.map .byte ++ calls.flatMap Callback.atoms := rfl

/-- **An iteration over two portions**: either it ends in the first one, or it goes on in the second
one from where it stood. -/
theorem iteration_append (hgoes : r.Goes a) (b : List UInt8) :
    ((r.iteration (a ++ b)).mapOut Callback.atoms =
      (r.iteration a).mapOut Callback.atoms >>= fun next => pure (next.1, next.2 ++ b)) ∨
    ∃ r₁, (r.iteration a).result = .ok (r₁, []) ∧ r₁.m_State ≠ .COMPLETE ∧
      (r.iteration (a ++ b)).mapOut Callback.atoms =
        (r.iteration a).mapOut Callback.atoms >>= fun next =>
          (next.1.iteration b).mapOut Callback.atoms := by
  by_cases hbody : r.m_State = .BODY
  · rw [iteration_body hbody, iteration_body hbody]
    by_cases hend : r.remaining = some (r.used a)
    · -- the body, or the chunk, ends in the first portion
      left
      rw [used_append_of_eq hend]
      split
      · rfl
      · next hneg =>
        have hle : (r.used a).toNat ≤ a.length := by have := used_le r a; omega
        rw [List.take_append_of_le_length hle, List.drop_append_of_le_length hle]
        exact Emits.ext (List.append_nil _).symm rfl
    · right
      obtain ⟨hall, -⟩ := used_of_ne hend
      have hbody' : (r.advance a.length).m_State = .BODY :=
        (state_advance hbody).mpr (hall ▸ hend)
      have hmore := used_advance_nonneg hend b
      have htogether := used_append_of_ne hend b
      rw [hall, htogether, if_neg (by omega), if_neg (by omega)]
      refine ⟨r.advance a.length, ?_, by rw [hbody']; decide, ?_⟩
      · rw [Int.toNat_natCast, List.drop_length]
      · -- the second portion goes on with the bytes that are missing
        have hcut : ((a.length : ℤ) + (r.advance a.length).used b).toNat =
            a.length + ((r.advance a.length).used b).toNat := by omega
        have hend' : r.endCalls a.length = [] := by
          unfold endCalls
          rw [if_neg fun h => hend (h.2.trans (by rw [hall]))]
        rw [hend', hcut, List.take_length_add_append, List.drop_length_add_append,
          Int.toNat_natCast, List.take_length, List.drop_length]
        have hsecond : (r.advance a.length).iteration b =
            ⟨.data (b.take ((r.advance a.length).used b).toNat) ::
              r.endCalls (a.length + (r.advance a.length).used b),
            .ok (r.advance (a.length + (r.advance a.length).used b),
              b.drop ((r.advance a.length).used b).toNat)⟩ := by
          rw [iteration_body hbody', if_neg (by omega), endCalls_advance,
            advance_advance (hall ▸ hend)]
        have hbind : ∀ f : Response × List UInt8 → Emits Atom Fault (Response × List UInt8),
            (mapOut Callback.atoms ⟨[.data a], .ok (r.advance a.length, [])⟩ >>= f) =
              ⟨a.map .byte ++ (f (r.advance a.length, [])).out,
                (f (r.advance a.length, [])).result⟩ := fun f => by
          refine Emits.ext ?_ rfl
          exact congrArg (· ++ _) (List.append_nil _)
        rw [hbind]
        dsimp only
        rw [hsecond]
        refine Emits.ext ?_ rfl
        rw [out_mapOut, out_mapOut, atoms_data, atoms_data, List.map_append, List.append_assoc]
  -- Outside the body a line ends in the first portion, or goes on in the second.
  · have hline : r.ReadsLine := ⟨hbody, hgoes.2⟩
    rw [iteration_line hline, iteration_line hline, accumulateLine_append]
    rcases accumulateLine r.m_LineBuf a with ⟨buf, _ | rest⟩
    · right
      refine ⟨_, rfl, hgoes.2, ?_⟩
      rw [mapOut_pure, pure_bind]
      dsimp only
      rw [iteration_line (r := { r with m_LineBuf := buf }) hline]
    · left
      dsimp only
      rw [mapOut_bind, mapOut_bind, bind_assoc]
      rfl

/-- More data does not stop the loop. -/
theorem goes_append (h : r.Goes a) (b : List UInt8) : r.Goes (a ++ b) :=
  ⟨List.append_ne_nil_of_left_ne_nil h.1 b, h.2⟩

/-- **The portions of a response.** -/
theorem pump_append (r : Response) (a b : List UInt8) :
    (r.pump (a ++ b)).mapOut Callback.atoms =
      (r.pump a).mapOut Callback.atoms >>= fun next =>
        (next.1.pump (next.2 ++ b)).mapOut Callback.atoms := by
  -- By induction on what is left to do with the first portion: one turn on both portions together
  -- is a turn on the first, or one turn on each.
  induction hn : toDo r a using Nat.strongRecOn generalizing r a with
  | _ n ih =>
    by_cases hgoes : r.Goes a
    swap
    · rw [pump_of_not hgoes, mapOut_pure, pure_bind]
    by_cases hb : b = []
    · -- nothing more comes, so the second call ends at once
      subst hb
      rw [List.append_nil]
      refine (bind_pure _).symm.trans (bind_congr fun next hnext => ?_)
      have hnot : ¬next.1.Goes (next.2 ++ []) := by
        rw [List.append_nil]
        rcases rest_of_pump hnext with hrest | hcomplete
        · exact fun h => h.1 hrest
        · exact fun h => h.2 hcomplete
      rw [pump_of_not hnot, mapOut_pure, List.append_nil]
    rw [pump_of_goes hgoes, pump_of_goes (goes_append hgoes b), mapOut_bind, mapOut_bind,
      bind_assoc]
    rcases iteration_append hgoes b with heq | ⟨r₁, hresult, hstate, heq⟩
    · rw [heq, bind_assoc]
      refine bind_congr fun next hnext => ?_
      rw [pure_bind]
      exact ih _ (hn ▸ iteration_progress hgoes hnext) next.1 next.2 rfl
    · rw [heq, bind_assoc]
      refine bind_congr fun next hnext => ?_
      obtain rfl : (r₁, []) = next := Except.ok.inj (hresult.symm.trans hnext)
      have hnot : ¬r₁.Goes [] := fun h => h.1 rfl
      rw [pump_of_not hnot, mapOut_pure, pure_bind, List.nil_append, pump_of_goes ⟨hb, hstate⟩,
        mapOut_bind]

end Response

end OpenGeoBase.Happyhttp
