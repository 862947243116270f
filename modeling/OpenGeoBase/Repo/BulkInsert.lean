import OpenGeoBase.Lib.Transition
import OpenGeoBase.Ndn.Tlv
import OpenGeoBase.Repo.ReadHandle
import OpenGeoBase.Repo.RepoStorage
import OpenGeoBase.Repo.InsertAtomic

/-!
# Bulk insertion over TCP

A `TcpBulkInsertClient` receives a stream of TLV elements into a buffer as large as the
largest packet. After each reception it takes the elements that have arrived off the buffer,
hands those that are packets to `insertData`, and moves what is left to the front.

What is left after a reception is the beginning of one element, so it does not fill the
buffer, and the next reception has room. Whatever the portions the stream arrives in, the
packets handed over are those of the whole stream, as far as the client gets
(`holds_of_run`).

How far it gets is up to `insertData`. It may insert the packet or refuse it, and a
`std::runtime_error` is caught; but any other exception leaves `handleReceive` before the next
reception is posted. A content without a geometry is such a case. So the client sees the whole
stream if and only if every packet but the last comes back from there
(`inserted_eq_frames_iff`).
-/

namespace OpenGeoBase

open Text Transition Framing AtomicCalls

/-- What the client uses of the NDN library on blocks of octets. -/
structure BlockLibrary (names : NameLibrary) where
  /-- `Block::fromBuffer`, the octets of the element; `none` when it fails. -/
  fromBuffer : List ℕ → Option (List ℕ)
  /-- `Block::type`. -/
  type : List ℕ → ℕ
  /-- The constructor of `Data`; `none` when it throws. -/
  wireDecode : List ℕ → Option (Data names)

/-- `ndn::tlv::Data`. -/
def tlvData : ℕ := 6

/-- What comes of a call of `insertData`. -/
inductive InsertOutcome where
  | returned (isInserted : Bool)
  /-- A `std::runtime_error`, which `handleReceive` catches. -/
  | runtimeError
  /-- Another exception, an abort, or an update of the index that does not end. -/
  | lost
  deriving DecidableEq

/-- `handleReceive` goes on after the call. -/
def InsertOutcome.comesBack : InsertOutcome → Bool
  | returned _ => true
  | runtimeError => true
  | lost => false

/-- The state of the socket. -/
inductive Socket where
  /-- `async_receive` has been posted, with this much free space. -/
  | receiving (space : ℕ)
  | closed
  /-- An assertion has failed, or the loop does not end. -/
  | failed
  /-- `handleReceive` has not come back from `insertData`, so nothing has been posted. -/
  | abandoned
  deriving DecidableEq

/-- The client, with the packets it has called `insertData` with. -/
structure TcpBulkInsertClient (names : NameLibrary) where
  m_inputBuffer : List ℕ
  m_inputBufferSize : ℕ
  inserted : List (Data names)
  socket : Socket

section Client

variable {names : NameLibrary} (blocks : BlockLibrary names)
  -- what comes of each call of `insertData`, by its number: the storage may be in any state
  (insertData : ℕ → Data names → InsertOutcome)

/-- The packet the client makes of an element. -/
def BlockLibrary.dataOf (element : List ℕ) : Option (Data names) :=
  if blocks.type element = tlvData then blocks.wireDecode element else none

namespace TcpBulkInsertClient

/-- `startReceive`, with whatever is in the buffer. -/
def startReceive (m_inputBuffer : List ℕ) : TcpBulkInsertClient names where
  m_inputBuffer := m_inputBuffer
  m_inputBufferSize := 0
  inserted := []
  socket := .receiving MAX_NDN_PACKET_SIZE

/-- An element is handed to `insertData` if it is a packet. Does the loop go on? -/
def handOver (inserted : List (Data names)) (element : List ℕ) : List (Data names) × Bool :=
  match blocks.dataOf element with
  | none => (inserted, true)
  | some data => (inserted ++ [data], (insertData inserted.length data).comesBack)

/-- How the loop of `handleReceive` ends. -/
inductive LoopEnd where
  | left (offset : ℕ) (isOk : Bool)
  | failed
  | abandoned

/-- The loop of `handleReceive`, in a number of iterations. It fails if an element is longer
than what is in the buffer. -/
def takeElements (m_inputBuffer : List ℕ) (m_inputBufferSize : ℕ) :
    ℕ → ℕ → List (Data names) → List (Data names) × LoopEnd
  | 0, _, inserted => (inserted, .failed)
  | iterations + 1, offset, inserted =>
    if m_inputBufferSize - offset > 0 then
      match blocks.fromBuffer ((m_inputBuffer.drop offset).take (m_inputBufferSize - offset)) with
      | none => (inserted, .left offset false)
      | some element =>
        if m_inputBufferSize < offset + element.length then (inserted, .failed)
        else
          let (inserted, goesOn) := handOver blocks insertData inserted element
          if goesOn then
            takeElements m_inputBuffer m_inputBufferSize iterations (offset + element.length)
              inserted
          else (inserted, .abandoned)
    else (inserted, .left offset true)

/-- `std::copy` of the octets from one position to another to the front. -/
def copyToFront (buffer : List ℕ) (first last : ℕ) : List ℕ :=
  (buffer.drop first).take (last - first) ++ buffer.drop (last - first)

/-- `handleReceive` without an error. -/
def handleReceive (nBytesReceived : ℕ) (s : TcpBulkInsertClient names) :
    TcpBulkInsertClient names :=
  let m_inputBufferSize := s.m_inputBufferSize + nBytesReceived
  let stopped inserted socket := { s with m_inputBufferSize, inserted, socket }
  match takeElements blocks insertData s.m_inputBuffer m_inputBufferSize (m_inputBufferSize + 1) 0
    s.inserted with
  | (inserted, .failed) => stopped inserted .failed
  | (inserted, .abandoned) => stopped inserted .abandoned
  | (inserted, .left offset isOk) =>
    if isOk = false ∧ m_inputBufferSize = MAX_NDN_PACKET_SIZE ∧ offset = 0 then
      stopped inserted .closed
    else
      let (m_inputBuffer, m_inputBufferSize) :=
        if offset > 0 then
          if offset ≠ m_inputBufferSize then
            (copyToFront s.m_inputBuffer offset m_inputBufferSize, m_inputBufferSize - offset)
          else (s.m_inputBuffer, 0)
        else (s.m_inputBuffer, m_inputBufferSize)
      { m_inputBuffer := m_inputBuffer
        m_inputBufferSize := m_inputBufferSize
        inserted := inserted
        socket := .receiving (MAX_NDN_PACKET_SIZE - m_inputBufferSize) }

/-- Octets arrive: the socket writes them into the free space. -/
def write (chunk : List ℕ) (s : TcpBulkInsertClient names) : TcpBulkInsertClient names :=
  { s with m_inputBuffer := s.m_inputBuffer.take s.m_inputBufferSize ++ chunk ++
      s.m_inputBuffer.drop (s.m_inputBufferSize + chunk.length) }

/-- The octets that are in the buffer. -/
def buffered (s : TcpBulkInsertClient names) : List ℕ :=
  s.m_inputBuffer.take s.m_inputBufferSize

end TcpBulkInsertClient

/-- A reception of some octets, no more than there is room for. -/
inductive ReceiveStep :
    TcpBulkInsertClient names → List ℕ → TcpBulkInsertClient names → Prop where
  | receive {s : TcpBulkInsertClient names} {space : ℕ} {chunk : List ℕ}
      (hsocket : s.socket = .receiving space) (hne : chunk ≠ []) (hspace : chunk.length ≤ space) :
    ReceiveStep s chunk ((s.write chunk).handleReceive blocks insertData chunk.length)

/-- A connection, from its start on. -/
def bulkInsertion : System (TcpBulkInsertClient names) (List ℕ) where
  init s := ∃ m_inputBuffer, m_inputBuffer.length = MAX_NDN_PACKET_SIZE ∧
    s = .startReceive m_inputBuffer
  step := ReceiveStep blocks insertData

/-- The octets received in a run. -/
def octetsReceived (h : List (TcpBulkInsertClient names × List ℕ)) : List ℕ :=
  h.flatMap Prod.snd

/-! ### How far the client gets -/

section Calls

/-- Every call for the packets comes back, the first of them being the `k`-th call. -/
def comeBack : ℕ → List (Data names) → Bool
  | _, [] => true
  | k, d :: ds => (insertData k d).comesBack && comeBack (k + 1) ds

/-- The packets that are handed over: up to the first call that does not come back. -/
def handed : ℕ → List (Data names) → List (Data names)
  | _, [] => []
  | k, d :: ds => d :: if (insertData k d).comesBack then handed (k + 1) ds else []

variable {insertData} {k : ℕ} {d : Data names} {ds es : List (Data names)}

/-- The insertions of two lists come back if those of each do. -/
theorem comeBack_append :
    comeBack insertData k (ds ++ es) =
      (comeBack insertData k ds && comeBack insertData (k + ds.length) es) := by
  induction ds generalizing k with
  | nil => rfl
  | cons d ds ih =>
    rw [List.cons_append, comeBack, comeBack, ih, List.length_cons, Bool.and_assoc,
      Nat.add_right_comm, Nat.add_assoc]

/-- As long as every call comes back, all of the packets are handed over. -/
theorem handed_append (h : comeBack insertData k ds = true) :
    handed insertData k (ds ++ es) = ds ++ handed insertData (k + ds.length) es := by
  induction ds generalizing k with
  | nil => rfl
  | cons d ds ih =>
    rw [comeBack, Bool.and_eq_true] at h
    rw [List.cons_append, handed, if_pos h.1, ih h.2, List.cons_append, List.length_cons,
      Nat.add_right_comm, Nat.add_assoc]

/-- Nothing is handed over after a call that does not come back. -/
theorem handed_append_of_lost (h : comeBack insertData k ds = false) :
    handed insertData k (ds ++ es) = handed insertData k ds := by
  induction ds generalizing k with
  | nil => exact absurd h (by simp [comeBack])
  | cons d ds ih =>
    rw [List.cons_append, handed, handed]
    by_cases hd : (insertData k d).comesBack = true
    · rw [comeBack, hd, Bool.true_and] at h
      rw [if_pos hd, if_pos hd, ih h]
    · rw [if_neg hd, if_neg hd]

/-- **All of the packets are handed over** if and only if every call but the last comes back. -/
theorem handed_eq_self_iff :
    handed insertData k ds = ds ↔ comeBack insertData k ds.dropLast = true := by
  induction ds generalizing k with
  | nil => exact iff_of_true rfl rfl
  | cons d ds ih =>
    rw [handed, List.cons.injEq, eq_self_iff_true, true_and]
    cases ds with
    | nil => simp [handed, comeBack]
    | cons e ds =>
      rw [List.dropLast_cons_cons, comeBack, Bool.and_eq_true, ← ih]
      by_cases hd : (insertData k d).comesBack = true
      · rw [if_pos hd]
        exact (and_iff_right hd).symm
      · rw [if_neg hd]
        exact iff_of_false (by simp) fun h => hd h.1

end Calls

/-! ### One reception -/

section Reception

variable {blocks insertData} {F : Set (List ℕ)} (hreads : Reads F blocks.fromBuffer)
  {taken left : List (List ℕ)} {p : List ℕ}

namespace TcpBulkInsertClient

include hreads

/-- The loop takes off the elements that are there, and stops where the buffer breaks off; or
at the first packet whose insertion does not come back. -/
theorem takeElements_eq {m_inputBuffer : List ℕ} {m_inputBufferSize : ℕ}
    (iterations offset : ℕ) (inserted : List (Data names)) (htaken : ∀ e ∈ taken, e ∈ F)
    (hleft : ∀ e ∈ left, e ∈ F) (hp : BreaksOff p left)
    (hsize : m_inputBufferSize ≤ m_inputBuffer.length)
    (hbuffered : (m_inputBuffer.take m_inputBufferSize).drop offset = taken.flatten ++ p)
    (hn : taken.length < iterations) :
    takeElements blocks insertData m_inputBuffer m_inputBufferSize iterations offset inserted =
      (inserted ++ handed insertData inserted.length (taken.filterMap blocks.dataOf),
        if comeBack insertData inserted.length (taken.filterMap blocks.dataOf) then
          .left (offset + taken.flatten.length) (decide (p = []))
        else .abandoned) := by
  -- one round of the loop per element taken; what is left is a beginning of the next
  induction taken generalizing offset iterations inserted with
  | nil =>
    obtain ⟨iterations, rfl⟩ : ∃ k, iterations = k + 1 :=
      ⟨iterations - 1, by rw [List.length_nil] at hn; omega⟩
    rw [List.flatten_nil, List.nil_append] at hbuffered
    have hlength : p.length = m_inputBufferSize - offset := by
      rw [← hbuffered, List.length_drop, List.length_take_of_le hsize]
    rw [List.drop_take] at hbuffered
    rw [takeElements, hbuffered, List.filterMap_nil, handed, comeBack, List.append_nil,
      if_pos rfl]
    -- the loop ends at the end of the buffer, or at an element that is not complete yet
    by_cases hne : p = []
    · subst hne
      rw [if_neg (by rw [← hlength]; exact lt_irrefl 0)]
      rfl
    · have hpos := List.length_pos_of_ne_nil hne
      rw [if_pos (by omega), hreads.none_of_breaksOff hleft hp hne, decide_eq_false hne]
      rfl
  | cons e taken ih =>
    rw [List.length_cons] at hn
    obtain ⟨iterations, rfl⟩ : ∃ k, iterations = k + 1 := ⟨iterations - 1, by omega⟩
    have he : e ∈ F := htaken e List.mem_cons_self
    have hpos := List.length_pos_of_ne_nil (hreads.ne_nil e he)
    rw [List.flatten_cons, List.append_assoc] at hbuffered
    have hlength : e.length + (taken.flatten ++ p).length = m_inputBufferSize - offset := by
      rw [← List.length_append, ← hbuffered, List.length_drop, List.length_take_of_le hsize]
    -- the offset moves past the element, to the rest of the same buffer
    have hrest : (m_inputBuffer.take m_inputBufferSize).drop (offset + e.length) =
        taken.flatten ++ p := by
      rw [← List.drop_drop, hbuffered, List.drop_left]
    have hloop := fun inserted => ih iterations _ inserted
      (fun d hd => htaken d (List.mem_cons_of_mem e hd)) hrest (Nat.lt_of_succ_lt_succ hn)
    rw [List.drop_take] at hbuffered
    rw [takeElements, if_pos (by omega), hbuffered, hreads.complete e he]
    dsimp only
    rw [if_neg (by omega), List.flatten_cons, List.length_append, ← Nat.add_assoc]
    unfold handOver
    -- a packet is handed over, and the loop goes on if the call comes back
    cases hdata : blocks.dataOf e with
    | none => rw [List.filterMap_cons_none hdata, if_pos rfl, hloop]
    | some data =>
      rw [List.filterMap_cons_some hdata, handed, comeBack]
      dsimp only
      by_cases hback : (insertData inserted.length data).comesBack = true
      · rw [if_pos hback, if_pos hback, hback, Bool.true_and, hloop, List.length_append,
          List.length_singleton, List.append_assoc, List.singleton_append]
      · rw [if_neg hback, if_neg hback, Bool.eq_false_iff.mpr hback, Bool.false_and]
        rfl

/-- The elements a reception completes, as the loop finds them. -/
theorem takeElements_received {s : TcpBulkInsertClient names} {nBytesReceived : ℕ}
    (htaken : ∀ e ∈ taken, e ∈ F) (hleft : ∀ e ∈ left, e ∈ F) (hp : BreaksOff p left)
    (hbuffer : s.m_inputBuffer.length = MAX_NDN_PACKET_SIZE)
    (hsize : s.m_inputBufferSize + nBytesReceived ≤ MAX_NDN_PACKET_SIZE)
    (hbuffered : s.m_inputBuffer.take (s.m_inputBufferSize + nBytesReceived) =
      taken.flatten ++ p) :
    takeElements blocks insertData s.m_inputBuffer (s.m_inputBufferSize + nBytesReceived)
        (s.m_inputBufferSize + nBytesReceived + 1) 0 s.inserted =
      (s.inserted ++ handed insertData s.inserted.length (taken.filterMap blocks.dataOf),
        if comeBack insertData s.inserted.length (taken.filterMap blocks.dataOf) then
          .left taken.flatten.length (decide (p = []))
        else .abandoned) := by
  have hcount := hreads.length_le htaken
  have hlength : taken.flatten.length + p.length = s.m_inputBufferSize + nBytesReceived := by
    rw [← List.length_append, ← hbuffered, List.length_take_of_le (by omega)]
  have hn : taken.length < s.m_inputBufferSize + nBytesReceived + 1 := by omega
  rw [takeElements_eq hreads _ 0 _ htaken hleft hp (hsize.trans_eq hbuffer.symm) hbuffered hn,
    Nat.zero_add]

/-- What a reception leaves in the buffer is what the stream has broken off after. -/
theorem handleReceive_eq {s : TcpBulkInsertClient names} {nBytesReceived : ℕ}
    (htaken : ∀ e ∈ taken, e ∈ F)
    (hleft : ∀ e ∈ left, e ∈ F ∧ e.length ≤ MAX_NDN_PACKET_SIZE) (hp : BreaksOff p left)
    (hbuffer : s.m_inputBuffer.length = MAX_NDN_PACKET_SIZE)
    (hsize : s.m_inputBufferSize + nBytesReceived ≤ MAX_NDN_PACKET_SIZE)
    (hbuffered : s.m_inputBuffer.take (s.m_inputBufferSize + nBytesReceived) =
      taken.flatten ++ p)
    (hback : comeBack insertData s.inserted.length (taken.filterMap blocks.dataOf) = true) :
    ∃ m_inputBuffer, m_inputBuffer.length = MAX_NDN_PACKET_SIZE ∧
      m_inputBuffer.take p.length = p ∧ s.handleReceive blocks insertData nBytesReceived =
        ⟨m_inputBuffer, p.length, s.inserted ++ taken.filterMap blocks.dataOf,
          .receiving (MAX_NDN_PACKET_SIZE - p.length)⟩ := by
  have hlength : taken.flatten.length + p.length = s.m_inputBufferSize + nBytesReceived := by
    rw [← List.length_append, ← hbuffered, List.length_take_of_le (by omega)]
  have hroom : p.length < MAX_NDN_PACKET_SIZE :=
    hp.length_lt (by decide) fun e he => (hleft e he).2
  have hall : handed insertData s.inserted.length (taken.filterMap blocks.dataOf) =
      taken.filterMap blocks.dataOf := by
    rw [← List.append_nil (taken.filterMap blocks.dataOf), handed_append hback, handed]
  unfold handleReceive
  dsimp only
  rw [takeElements_received hreads htaken (fun e he => (hleft e he).1) hp hbuffer hsize hbuffered,
    hall, if_pos hback]
  dsimp only
  -- the buffer is full of the beginning of one element only if that is too long
  rw [if_neg (by omega)]
  by_cases hnone : taken.flatten.length = 0
  · have hsame : s.m_inputBufferSize + nBytesReceived = p.length := by omega
    rw [if_neg (by omega)]
    refine ⟨s.m_inputBuffer, hbuffer, ?_, ?_⟩
    · rw [← hsame, hbuffered, List.length_eq_zero_iff.mp hnone, List.nil_append]
    · rw [hsame]
  · rw [if_pos (by omega)]
    by_cases hwhole : taken.flatten.length = s.m_inputBufferSize + nBytesReceived
    · obtain rfl : p = [] := List.length_eq_zero_iff.mp (by omega)
      rw [if_neg (not_not.mpr hwhole)]
      exact ⟨s.m_inputBuffer, hbuffer, rfl, rfl⟩
    · rw [if_pos hwhole]
      have hrest : s.m_inputBufferSize + nBytesReceived - taken.flatten.length = p.length := by
        omega
      have hmoved : (s.m_inputBuffer.drop taken.flatten.length).take p.length = p := by
        rw [← hrest, ← List.drop_take, hbuffered, List.drop_left]
      refine ⟨_, ?_, ?_, by rw [hrest]⟩
      · rw [copyToFront, hrest, hmoved, List.length_append, List.length_drop]
        omega
      · rw [copyToFront, hrest, hmoved, List.take_left]

/-- A reception with a packet whose insertion does not come back is the last one. -/
theorem handleReceive_abandoned {s : TcpBulkInsertClient names} {nBytesReceived : ℕ}
    (htaken : ∀ e ∈ taken, e ∈ F) (hleft : ∀ e ∈ left, e ∈ F) (hp : BreaksOff p left)
    (hbuffer : s.m_inputBuffer.length = MAX_NDN_PACKET_SIZE)
    (hsize : s.m_inputBufferSize + nBytesReceived ≤ MAX_NDN_PACKET_SIZE)
    (hbuffered : s.m_inputBuffer.take (s.m_inputBufferSize + nBytesReceived) =
      taken.flatten ++ p)
    (hback : comeBack insertData s.inserted.length (taken.filterMap blocks.dataOf) = false) :
    (s.handleReceive blocks insertData nBytesReceived).socket = .abandoned ∧
      (s.handleReceive blocks insertData nBytesReceived).inserted =
        s.inserted ++ handed insertData s.inserted.length (taken.filterMap blocks.dataOf) := by
  unfold handleReceive
  dsimp only
  rw [takeElements_received hreads htaken hleft hp hbuffer hsize hbuffered, hback]
  exact ⟨rfl, rfl⟩

end TcpBulkInsertClient

/-! ### The whole connection -/

/-- After the octets received, the elements `taken` have been taken off, and the buffer holds
the beginning of the elements `left`. -/
structure Holds (blocks : BlockLibrary names) (insertData : ℕ → Data names → InsertOutcome)
    (taken left : List (List ℕ)) (received : List ℕ) (s : TcpBulkInsertClient names) :
    Prop where
  received : received = taken.flatten ++ s.buffered
  breaksOff : BreaksOff s.buffered left
  inserted : s.inserted = taken.filterMap blocks.dataOf
  back : comeBack insertData 0 (taken.filterMap blocks.dataOf) = true
  buffer : s.m_inputBuffer.length = MAX_NDN_PACKET_SIZE
  room : s.m_inputBufferSize < MAX_NDN_PACKET_SIZE
  socket : s.socket = .receiving (MAX_NDN_PACKET_SIZE - s.m_inputBufferSize)

/-- The client has not come back from `insertData`, which it has called for the packets up to
there. -/
structure Abandoned (insertData : ℕ → Data names → InsertOutcome) (packets : List (Data names))
    (s : TcpBulkInsertClient names) : Prop where
  inserted : s.inserted = handed insertData 0 packets
  socket : s.socket = .abandoned

/-- The octets are written behind those in the buffer. -/
theorem TcpBulkInsertClient.write_spec {s : TcpBulkInsertClient names} {chunk : List ℕ}
    (hbuffer : s.m_inputBuffer.length = MAX_NDN_PACKET_SIZE)
    (hsize : s.m_inputBufferSize + chunk.length ≤ MAX_NDN_PACKET_SIZE) :
    (s.write chunk).m_inputBuffer.length = MAX_NDN_PACKET_SIZE ∧
      (s.write chunk).m_inputBuffer.take (s.m_inputBufferSize + chunk.length) =
        s.buffered ++ chunk := by
  have hlength : (s.buffered ++ chunk).length = s.m_inputBufferSize + chunk.length := by
    unfold buffered
    rw [List.length_append, List.length_take_of_le (by omega)]
  unfold write
  constructor
  · change (s.buffered ++ chunk ++ _).length = _
    rw [List.length_append, hlength, List.length_drop]
    omega
  · exact List.take_left' hlength

include hreads in
/-- A reception takes off the elements that it completes, or is the last one. -/
theorem Holds.receive {received chunk : List ℕ} {s s' : TcpBulkInsertClient names}
    (h : Holds blocks insertData taken left received s)
    (helements : ∀ e ∈ taken ++ left, e ∈ F ∧ e.length ≤ MAX_NDN_PACKET_SIZE)
    (hstream : received ++ chunk <+: (taken ++ left).flatten)
    (hstep : ReceiveStep blocks insertData s chunk s') :
    (∃ more left', left = more ++ left' ∧
      Holds blocks insertData (taken ++ more) left' (received ++ chunk) s') ∨
      Abandoned insertData ((taken ++ left).filterMap blocks.dataOf) s' := by
  cases hstep with
  | receive hsocket hne hspace =>
    rw [h.received, List.flatten_append, List.append_assoc, List.prefix_append_right_inj]
      at hstream
    obtain ⟨more, left', p, rfl, hp, hbreaks⟩ := exists_breaksOff hstream
    -- the free space is that behind the octets in the buffer
    rw [Socket.receiving.inj (hsocket.symm.trans h.socket)] at hspace
    have hroom := h.room
    have hfits : s.m_inputBufferSize + chunk.length ≤ MAX_NDN_PACKET_SIZE := by omega
    obtain ⟨hbuffer, hbuffered⟩ := TcpBulkInsertClient.write_spec h.buffer hfits
    rw [hp] at hbuffered
    have hmore : ∀ e ∈ more, e ∈ F := fun e he => (helements e (by simp [he])).1
    have hleft' : ∀ e ∈ left', e ∈ F ∧ e.length ≤ MAX_NDN_PACKET_SIZE := fun e he =>
      helements e (by simp [he])
    -- the calls so far are those for the packets taken
    have hcalls : (s.write chunk).inserted = taken.filterMap blocks.dataOf := h.inserted
    cases hback : comeBack insertData (s.write chunk).inserted.length
      (more.filterMap blocks.dataOf) with
    | true =>
      obtain ⟨m_inputBuffer, hlength, hkept, hreceive⟩ :=
        TcpBulkInsertClient.handleReceive_eq hreads hmore hleft' hbreaks hbuffer hfits hbuffered
          hback
      refine Or.inl ⟨more, left', rfl, ?_⟩
      rw [hreceive]
      have hsmall : p.length < MAX_NDN_PACKET_SIZE :=
        hbreaks.length_lt (by decide) fun e he => (hleft' e he).2
      refine ⟨?_, ?_, ?_, ?_, hlength, hsmall, rfl⟩
      · change _ = _ ++ m_inputBuffer.take p.length
        rw [hkept, h.received, List.append_assoc, hp, List.flatten_append, List.append_assoc]
      · change BreaksOff (m_inputBuffer.take p.length) left'
        rw [hkept]
        exact hbreaks
      · change (s.write chunk).inserted ++ _ = _
        rw [hcalls, List.filterMap_append]
      · rw [List.filterMap_append, comeBack_append, h.back, Bool.true_and, Nat.zero_add, ← hcalls,
          hback]
    | false =>
      obtain ⟨hsocket', hinserted⟩ :=
        TcpBulkInsertClient.handleReceive_abandoned hreads hmore (fun e he => (hleft' e he).1)
          hbreaks hbuffer hfits hbuffered hback
      refine Or.inr ⟨?_, hsocket'⟩
      rw [hinserted, List.filterMap_append, List.filterMap_append, handed_append h.back,
        Nat.zero_add, ← hcalls, handed_append_of_lost hback]

/-- The connection has not been closed, nor has the client failed; and if more is to be received,
there is room for it. -/
def TcpBulkInsertClient.HasRoom (s : TcpBulkInsertClient names) : Prop :=
  s.socket ≠ .closed ∧ s.socket ≠ .failed ∧ ∀ space, s.socket = .receiving space → 0 < space

/-- There is room for the next read as long as the client has not given up. -/
theorem Holds.hasRoom {received : List ℕ} {s : TcpBulkInsertClient names}
    (h : Holds blocks insertData taken left received s) : s.HasRoom := by
  unfold TcpBulkInsertClient.HasRoom
  rw [h.socket]
  refine ⟨nofun, nofun, fun space hspace => ?_⟩
  rw [← Socket.receiving.inj hspace]
  exact Nat.sub_pos_of_lt h.room

theorem Abandoned.hasRoom {packets : List (Data names)} {s : TcpBulkInsertClient names}
    (h : Abandoned insertData packets s) : s.HasRoom := by
  unfold TcpBulkInsertClient.HasRoom
  rw [h.socket]
  exact ⟨nofun, nofun, nofun⟩

variable {elements : List (List ℕ)}
  (helements : ∀ e ∈ elements, e ∈ F ∧ e.length ≤ MAX_NDN_PACKET_SIZE)
  {h : List (TcpBulkInsertClient names × List ℕ)} {s : TcpBulkInsertClient names}

include hreads helements

/-- As long as a stream of elements arrives, the client holds what it has not taken off, unless it
has not come back from `insertData`. -/
theorem holds_of_run (hrun : Run (bulkInsertion blocks insertData) h s)
    (hstream : octetsReceived h <+: elements.flatten) :
    ((∃ taken left, elements = taken ++ left ∧
      Holds blocks insertData taken left (octetsReceived h) s) ∨
        Abandoned insertData (elements.filterMap blocks.dataOf) s) ∧
      Throughout TcpBulkInsertClient.HasRoom h s := by
  -- the elements split into those taken and those left; the buffer holds the start of the next
  induction hrun with
  | nil hinit =>
    obtain ⟨m_inputBuffer, hlength, rfl⟩ := hinit
    have hbreaks : BreaksOff [] elements := by
      cases elements with
      | nil => rfl
      | cons e elements =>
        have he := (helements e List.mem_cons_self).1
        exact ⟨List.nil_prefix, (hreads.ne_nil e he).symm⟩
    have hholds : Holds blocks insertData [] elements [] (.startReceive m_inputBuffer) :=
      ⟨rfl, hbreaks, rfl, rfl, hlength, show 0 < 8800 by norm_num, rfl⟩
    exact ⟨Or.inl ⟨[], elements, rfl, hholds⟩, throughout_nil.mpr hholds.hasRoom⟩
  | @snoc h s s' chunk hrun hstep ih =>
    have hreceived : octetsReceived (h ++ [(s, chunk)]) = octetsReceived h ++ chunk := by
      simp [octetsReceived]
    rw [hreceived] at hstream ⊢
    rw [throughout_append_singleton]
    obtain ⟨⟨taken, left, rfl, hholds⟩ | habandoned, hroom⟩ :=
      ih ((List.prefix_append _ _).trans hstream)
    · -- a chunk takes some more of them, and the room in the buffer is there again
      rcases hholds.receive hreads helements hstream hstep with ⟨more, left', rfl, hholds'⟩ | hlast
      · refine ⟨Or.inl ⟨taken ++ more, left', ?_, hholds'⟩, hroom, hholds'.hasRoom⟩
        rw [List.append_assoc]
      · exact ⟨Or.inr hlast, hroom, hlast.hasRoom⟩
    · -- nothing is received any more
      cases hstep with
      | receive hsocket => exact absurd (hsocket.symm.trans habandoned.socket) nofun

/-- At the end of the stream, or when nothing is received any more, the packets up to the first
call that does not come back have been handed over. -/
theorem inserted_eq_handed (hrun : Run (bulkInsertion blocks insertData) h s)
    (hstream : octetsReceived h <+: elements.flatten)
    (hend : octetsReceived h = elements.flatten ∨ ∀ space, s.socket ≠ .receiving space) :
    s.inserted = handed insertData 0 (elements.filterMap blocks.dataOf) := by
  obtain ⟨⟨taken, left, rfl, hholds⟩ | habandoned, -⟩ :=
    holds_of_run hreads helements hrun hstream
  · have hall := hend.resolve_right fun hnone => hnone _ hholds.socket
    -- at the end of the stream nothing is left in the buffer
    have hbuffered : s.buffered = left.flatten := by
      have hreceived := hholds.received
      rw [hall, List.flatten_append] at hreceived
      exact (List.append_cancel_left hreceived).symm
    obtain rfl : left = [] := (hbuffered ▸ hholds.breaksOff).eq_nil
    have happend : handed _ _ (_ ++ []) = _ := handed_append hholds.back
    rw [List.append_nil, handed, List.append_nil] at happend
    rw [List.append_nil, happend, hholds.inserted]
  · exact habandoned.inserted

/-- **The packets handed over are those of the stream**, in whatever portions it arrives, and
every reception has room, if and only if `insertData` comes back for every packet but the last
one. -/
theorem inserted_eq_frames_iff (hrun : Run (bulkInsertion blocks insertData) h s)
    (hstream : octetsReceived h <+: elements.flatten)
    (hend : octetsReceived h = elements.flatten ∨ ∀ space, s.socket ≠ .receiving space) :
    (s.inserted = (frames blocks.fromBuffer elements.flatten).1.filterMap blocks.dataOf ∧
      Throughout TcpBulkInsertClient.HasRoom h s) ↔
      comeBack insertData 0
        ((frames blocks.fromBuffer elements.flatten).1.filterMap blocks.dataOf).dropLast =
          true := by
  have hframes := hreads.frames_eq (fun e he => (helements e he).1)
    (fun e he => absurd he List.not_mem_nil) (show BreaksOff [] [] from rfl)
  rw [List.append_nil] at hframes
  rw [hframes, inserted_eq_handed hreads helements hrun hstream hend]
  dsimp only
  rw [handed_eq_self_iff]
  exact and_iff_left (holds_of_run hreads helements hrun hstream).2

end Reception

end Client

/-! ### What does not come back -/

section Storage

variable (lib : StorageLibrary) (threshold : ℤ) (sorts : ℕ → ℕ → CounterSort) (bound : ℕ)

/-- `bsoncxx::from_json` throws a `std::runtime_error`: the content is no document. -/
def throwsRuntimeError (data : Data lib.names) : Bool :=
  match lib.parse data.content with
  | none => false
  | some json_data =>
    (indexReference json_data (lib.names.toUri data.name)).isSome &&
      (indexContent json_data).document?.isNone

/-- What comes of `insertData` on a storage. -/
def insertOutcome (db : Db) (data : Data lib.names) : InsertOutcome :=
  match ((insertData lib threshold sorts bound data).run db).1 with
  | some isInserted => .returned isInserted
  | none => if throwsRuntimeError lib data then .runtimeError else .lost

variable {lib threshold sorts bound} {db : Db} {data : Data lib.names} {json_data : Value}

/-- **A packet without a geometry does not come back**, once it is stored. -/
theorem insertOutcome_of_no_geometry (haccepted : data.Accepted lib)
    (hparse : lib.parse data.content = some json_data)
    (hgeometry : calculateGeometryIndex lib.intersects json_data = none) :
    insertOutcome lib threshold sorts bound db data = .lost := by
  obtain ⟨hid, htenant, json, element, hjson, hindex⟩ := haccepted
  obtain rfl := Option.some.inj (hparse.symm.trans hjson)
  have hrun : ((insertData lib threshold sorts bound data).run db).1 = none := by
    unfold insertData
    rw [Prog.run_bind, run_insert_accepted hid htenant hparse hindex,
      run_callCalculateIndex_none hgeometry]
    rfl
  -- it has been stored, so its content is a document
  have hdocument : throwsRuntimeError lib data = false := by
    unfold indexElement at hindex
    simp only [Option.bind_eq_bind, Option.bind_eq_some_iff] at hindex
    obtain ⟨-, -, content, hcontent, -⟩ := hindex
    unfold throwsRuntimeError
    rw [hparse]
    dsimp only
    rw [hcontent, Option.isNone_some, Bool.and_false]
  unfold insertOutcome
  rw [hrun, hdocument]
  rfl

end Storage

section Examples

/-- The packet of the name `/A`, without a content. -/
private def packetA : List ℕ :=
  [6, 16, 7, 3, 8, 1, 65, 20, 0, 21, 0, 22, 3, 27, 1, 0, 23, 0]

/-- An interest for it. -/
private def interestA : List ℕ := [5, 11, 7, 3, 8, 1, 65, 10, 4, 1, 2, 3, 4]

/-- A packet with the name of an object and an empty JSON object in it. -/
private def emptyObject : Data octetNames where
  name := cityData.name
  content := "\x7b\x7d".toList
  wire := shortPacket cityData.name "\x7b\x7d".toList

/-- The JSON library on this content. -/
private def emptyObjectLibrary : StorageLibrary where
  names := octetNames
  parse s := if s = "\x7b\x7d".toList then some (.object []) else none
  parseStopWhenDone s := if s = "\x7b\x7d".toList then some (.object []) else none
  regexMatches pattern s := pattern.head? == some '^' && pattern.tail.isPrefixOf s
  intersects _ _ _ := false

/-- The NDN library on these elements. -/
private def blocksA : BlockLibrary octetNames where
  fromBuffer := Block.fromBuffer
  type := Block.type
  wireDecode element :=
    if element = packetA then some ⟨[[65]], [], packetA⟩
    else if element = emptyObject.wire then some emptyObject
    else none

/-- A storage that refuses the first packet, and does not come back with the second. -/
private def secondLost : ℕ → Data octetNames → InsertOutcome
  | 0, _ => .returned false
  | _, _ => .lost

private def startA : TcpBulkInsertClient octetNames := .startReceive (List.replicate 8800 0)

/-- After the first part of a stream of two packets with an interest in between. -/
private def partA : TcpBulkInsertClient octetNames :=
  (startA.write (packetA ++ [5, 11])).handleReceive blocksA secondLost 20

theorem inserted_eq_frames_iff_parts :
    ((partA.write (interestA.drop 2 ++ packetA)).handleReceive blocksA secondLost 29).inserted =
      (frames blocksA.fromBuffer [packetA, interestA, packetA].flatten).1.filterMap
        blocksA.dataOf := by
  have hstart : (bulkInsertion blocksA secondLost).init startA := ⟨_, List.length_replicate, rfl⟩
  have hfirst : ReceiveStep blocksA secondLost startA (packetA ++ [5, 11]) partA :=
    .receive rfl (by decide) (by decide)
  have hsecond : ReceiveStep blocksA secondLost partA (interestA.drop 2 ++ packetA)
      ((partA.write (interestA.drop 2 ++ packetA)).handleReceive blocksA secondLost 29) :=
    .receive (show partA.socket = .receiving 8798 by decide) (by decide) (by decide)
  have helements : ∀ e ∈ [packetA, interestA, packetA],
      e ∈ Block.Elements ∧ e.length ≤ MAX_NDN_PACKET_SIZE := by
    intro e he
    change Block.fromBuffer e = some e ∧ _
    revert e
    decide
  exact ((inserted_eq_frames_iff Block.reads_fromBuffer helements
    (((Run.nil hstart).snoc hfirst).snoc hsecond) List.prefix_rfl (Or.inl rfl)).mpr
      (by decide)).1

/-- What the storage makes of the packets, its index in order. -/
private def storageOutcome (_ : ℕ) : Data octetNames → InsertOutcome :=
  insertOutcome emptyObjectLibrary 1 (fun _ _ => .stable) 0 Db.empty

private theorem storageOutcome_emptyObject : storageOutcome 0 emptyObject = .lost := by
  have haccepted : emptyObject.Accepted emptyObjectLibrary :=
    ⟨by decide, by decide, .object [], _, rfl, rfl⟩
  exact insertOutcome_of_no_geometry haccepted rfl rfl

/-- The empty object is stored, and the packet behind it is never handed over. -/
theorem packet_after_empty_object_lost :
    ∃ h s, Run (bulkInsertion blocksA storageOutcome) h s ∧
      octetsReceived h = [emptyObject.wire, packetA].flatten ∧
      (∀ e ∈ [emptyObject.wire, packetA],
        e ∈ Block.Elements ∧ e.length ≤ MAX_NDN_PACKET_SIZE) ∧
      s.inserted ≠
        (frames blocksA.fromBuffer [emptyObject.wire, packetA].flatten).1.filterMap
          blocksA.dataOf := by
  have hstart : (bulkInsertion blocksA storageOutcome).init startA :=
    ⟨_, List.length_replicate, rfl⟩
  have hstep : ReceiveStep blocksA storageOutcome startA [emptyObject.wire, packetA].flatten _ :=
    .receive rfl (by decide) (by decide)
  have hrun := (Run.nil hstart).snoc hstep
  have helements : ∀ e ∈ [emptyObject.wire, packetA],
      e ∈ Block.Elements ∧ e.length ≤ MAX_NDN_PACKET_SIZE := by
    intro e he
    change Block.fromBuffer e = some e ∧ _
    revert e
    decide
  refine ⟨_, _, hrun, rfl, helements, ?_⟩
  have hpackets : [emptyObject.wire, packetA].filterMap blocksA.dataOf =
      [emptyObject, ⟨[[65]], [], packetA⟩] := rfl
  have hframes := Block.reads_fromBuffer.frames_eq (fun e he => (helements e he).1)
    (fun e he => absurd he List.not_mem_nil) (show BreaksOff [] [] from rfl)
  rw [List.append_nil] at hframes
  rw [inserted_eq_handed Block.reads_fromBuffer helements hrun List.prefix_rfl (Or.inl rfl),
    show (frames blocksA.fromBuffer _).1 = _ from congrArg Prod.fst hframes, hpackets, handed,
    storageOutcome_emptyObject]
  exact nofun

end Examples

end OpenGeoBase
