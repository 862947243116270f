import OpenGeoBase.Repo.HttpPump
import OpenGeoBase.Repo.Unzip

/-!
# The connection to an HTTP server

`Connection::pump` hands what it receives to the first response that is outstanding, and what this
one leaves to the next. The repository calls it while its one response is outstanding, with
callbacks that collect the body in a buffer.

It makes no difference in which portions the server's bytes arrive (`received_portions_eq`). And
whatever these bytes are, the callbacks are called in their order: the buffer is there when data are
put into it, and the object is inserted once, when the loop ends (`handles_download`).
-/

namespace OpenGeoBase.Happyhttp

open Text Emits

/-! ### The code -/

/-- What `select` and `recv` come to: bytes, the end of the connection, or an error. -/
inductive Received where
  | bytes (buf : List UInt8)
  | closed
  | failed (context msg : Str)

/-- `BailOnSocketError`, with the text of the error. -/
def bailOnSocketError {α : Type} (context msg : Str) : Emits Callback Fault α :=
  wobbly (context ++ ": ".toList ++ msg)

/-- `Response::notifyconnectionclosed` -/
def Response.notifyconnectionclosed (r : Response) : Emits Callback Fault Response :=
  if r.m_State = .COMPLETE then pure r
  else if r.m_State = .BODY ∧ r.m_Chunked = false ∧ r.m_Length = -1 then r.finish
  else wobbly "Connection closed unexpectedly".toList

/-- The loop of `Connection::pump` over the bytes received. A response that is not complete has
used them all (`Response.rest_of_pump`); those that no response is outstanding for are lost. -/
def serve : List Response → List UInt8 → Emits Callback Fault (List Response)
  | [], _ => pure []
  | r :: m_Outstanding, data =>
    if data = [] then pure (r :: m_Outstanding)
    else do
      let (r', rest) ← r.pump data
      if r'.m_State = .COMPLETE then serve m_Outstanding rest else pure (r' :: m_Outstanding)

/-- `Connection::pump`, when there is something to receive. At the end of the connection the
responses that are still outstanding are discarded. -/
def pump (m_Outstanding : List Response) : Received → Emits Callback Fault (List Response)
  | .bytes buf => serve m_Outstanding buf
  | .closed =>
    match m_Outstanding with
    | [] => pure []
    | r :: _ => do
      let _ ← r.notifyconnectionclosed
      pure []
  | .failed context msg =>
    match m_Outstanding with
    | [] => pure []
    | _ :: _ => bailOnSocketError context msg

/-- The loop of `ReadHandle::requestInsert`, over what is received. It ends when nothing is
outstanding any more. -/
def pumpAll (m_Outstanding : List Response) (received : List Received) :
    Emits Callback Fault (List Response) :=
  received.foldlM (fun m_Outstanding recv =>
    if m_Outstanding = [] then pure [] else pump m_Outstanding recv) m_Outstanding

/-- The responses outstanding after the request of `ReadHandle::requestInsert`. -/
def requested : List Response := [.fresh "GET".toList]

/-! ### Portions -/

section Portions

variable {a b : List UInt8} {m_Outstanding : List Response}

/-- **The portions of a connection.** -/
theorem serve_append (m_Outstanding : List Response) (a b : List UInt8) :
    (serve m_Outstanding (a ++ b)).mapOut Callback.atoms =
      (serve m_Outstanding a).mapOut Callback.atoms >>= fun m_Outstanding =>
        (serve m_Outstanding b).mapOut Callback.atoms := by
  induction m_Outstanding generalizing a with
  | nil => rfl
  | cons r m_Outstanding ih =>
    -- An empty portion changes nothing, first or second.
    by_cases ha : a = []
    · subst ha
      rfl
    by_cases hb : b = []
    · subst hb
      have hnothing : ∀ rs : List Response, serve rs [] = pure rs := by
        intro rs
        cases rs <;> rfl
      simp only [List.append_nil, hnothing, mapOut_pure, bind_pure]
    rw [serve, serve, if_neg ha, if_neg (List.append_ne_nil_of_left_ne_nil ha b), mapOut_bind,
      mapOut_bind, Response.pump_append, bind_assoc, bind_assoc]
    refine bind_congr fun next hnext => ?_
    obtain ⟨r', rest⟩ := next
    dsimp only
    by_cases hcomplete : r'.m_State = .COMPLETE
    · -- it ends in the first portion, and the others take over
      have hnot : ¬r'.Goes (rest ++ b) := fun h => h.2 hcomplete
      rw [Response.pump_of_not hnot, mapOut_pure, pure_bind]
      dsimp only
      rw [if_pos hcomplete, if_pos hcomplete, ih]
    -- It does not end, so it has used up the first portion.
    · obtain rfl : rest = [] := (Response.rest_of_pump hnext).resolve_right hcomplete
      rw [if_neg hcomplete, mapOut_pure, pure_bind, List.nil_append, serve, if_neg hb, mapOut_bind]

/-- A connection takes the bytes of a portion as it would take them one by one. -/
theorem refines_serve :
    Refines Callback.atoms serve fun m_Outstanding b =>
      (serve m_Outstanding [b]).mapOut Callback.atoms := by
  intro m_Outstanding portion hne
  -- Byte after byte, each cut off in front.
  induction portion generalizing m_Outstanding with
  | nil => exact absurd rfl hne
  | cons b portion ih =>
    rw [List.foldlM_cons]
    by_cases hlast : portion = []
    · subst hlast
      exact (bind_pure _).symm
    · have happend := serve_append m_Outstanding [b] portion
      rw [List.singleton_append] at happend
      rw [happend]
      exact bind_congr fun m_Outstanding _ => ih m_Outstanding hlast

/-- Portions that arrive are served one after the other. -/
theorem pumpAll_bytes (portions : List (List UInt8)) (m_Outstanding : List Response) :
    pumpAll m_Outstanding (portions.map .bytes) = portions.foldlM serve m_Outstanding := by
  unfold pumpAll
  rw [List.foldlM_map]
  congr
  funext m_Outstanding buf
  cases m_Outstanding with
  | nil => rfl
  | cons r m_Outstanding => rfl

/-- **The portions do not matter**: whatever bytes a server sends, the loop comes to the same calls
and the same end in whichever portions they are received, also if the connection is closed or more
is received after them. -/
theorem received_portions_eq {portions portions' : List (List UInt8)}
    (hne : ∀ portion ∈ portions, portion ≠ []) (hne' : ∀ portion ∈ portions', portion ≠ [])
    (hsame : portions.flatten = portions'.flatten) (more : List Received)
    (m_Outstanding : List Response) :
    (pumpAll m_Outstanding (portions.map .bytes ++ more)).mapOut Callback.atoms =
      (pumpAll m_Outstanding (portions'.map .bytes ++ more)).mapOut Callback.atoms := by
  have hsplit : ∀ portions : List (List UInt8), (∀ portion ∈ portions, portion ≠ []) →
      (pumpAll m_Outstanding (portions.map .bytes ++ more)).mapOut Callback.atoms =
        portions.flatten.foldlM (fun m_Outstanding b =>
          (serve m_Outstanding [b]).mapOut Callback.atoms) m_Outstanding >>= fun m_Outstanding =>
            (pumpAll m_Outstanding more).mapOut Callback.atoms := by
    intro portions hne
    rw [← refines_serve.foldlM_eq hne, ← pumpAll_bytes, ← mapOut_bind]
    unfold pumpAll
    rw [List.foldlM_append]
  rw [hsplit portions hne, hsplit portions' hne', hsame]

/-- A status line, in one portion and in three. -/
theorem received_portions_eq_statusLine :
    (pumpAll requested ([[72, 84, 84, 80, 47, 49, 46, 49, 32, 50, 48, 48, 13, 10]].map .bytes ++
        [.closed])).mapOut Callback.atoms =
      (pumpAll requested ([[72, 84, 84, 80], [47, 49, 46, 49, 32, 50, 48, 48, 13], [10]].map
        .bytes ++ [.closed])).mapOut Callback.atoms :=
  received_portions_eq (by decide) (by decide) (by decide) _ _

end Portions

/-! ### The order of the calls -/

/-- What the callbacks of the read handle work on: the buffer, while it is allocated, and the
objects that `OnComplete` has inserted. -/
structure Userdata where
  buffer : Option (List UInt8)
  inserted : List (List UInt8)

/-- A call of the callbacks of the read handle; `none` if it uses a buffer that is not allocated, or
loses one that is. -/
def handle : Userdata → Callback → Option Userdata
  | ⟨none, inserted⟩, .begin => some ⟨some OnBegin, inserted⟩
  | ⟨some buffer, inserted⟩, .data bytes => some ⟨some (OnData buffer bytes), inserted⟩
  | ⟨some buffer, inserted⟩, .complete => some ⟨none, inserted ++ [buffer]⟩
  | _, _ => none

/-- The body has begun, and not ended. -/
def Response.opened (r : Response) : Bool :=
  match r.m_State with
  | .STATUSLINE | .HEADERS | .COMPLETE => false
  | .BODY | .CHUNKLEN | .CHUNKEND | .TRAILERS => true

/-- From `u`, the calls leave the callbacks with `u'`: the buffer is allocated while the body is
open, and the end of the response inserts an object. -/
structure Serves (u u' : Userdata) (result : Except Fault Response) : Prop where
  opened {r' : Response} : result = .ok r' → u'.buffer.isSome = r'.opened
  completed {r' : Response} : result = .ok r' → r'.m_State = .COMPLETE →
    ∃ object, u'.inserted = u.inserted ++ [object]
  pending : (∀ r', result = .ok r' → r'.m_State ≠ .COMPLETE) → u'.inserted = u.inserted

/-- The calls of a computation on this response are in order. -/
def InOrder (r : Response) (c : Emits Callback Fault Response) : Prop :=
  ∀ u : Userdata, u.buffer.isSome = r.opened → ∃ u', c.out.foldlM handle u = some u' ∧
    Serves u u' c.result

section Order

variable {r r' : Response} {data : List UInt8} {u : Userdata}

/-- Without a call, the body stays open or closed. -/
theorem InOrder.of_pure (hopened : r'.opened = r.opened) (hpending : r'.m_State ≠ .COMPLETE) :
    InOrder r (pure r') := by
  intro u hu
  refine ⟨u, rfl, fun h => ?_, fun h hcomplete => ?_, fun _ => rfl⟩
  · obtain rfl := Except.ok.inj h
    rw [hu, hopened]
  · obtain rfl := Except.ok.inj h
    exact absurd hcomplete hpending

/-- A fault calls nothing back. -/
theorem InOrder.of_raise (e : Fault) : InOrder r (raise e) := fun u _ =>
  ⟨u, rfl, fun h => absurd h (by simp [raise]), fun h => absurd h (by simp [raise]), fun _ => rfl⟩

/-- The end of a message is called back if its body has begun. -/
theorem InOrder.finish (hopened : r.opened = true) : InOrder r r'.finish := by
  rintro ⟨buffer, inserted⟩ hu
  rw [hopened] at hu
  obtain ⟨buffer, rfl⟩ := Option.isSome_iff_exists.mp hu
  refine ⟨⟨none, inserted ++ [buffer]⟩, rfl, fun h => ?_, fun _ _ => ⟨buffer, rfl⟩, fun h => ?_⟩
  · obtain rfl := Except.ok.inj h
    rfl
  · exact absurd rfl (h _ rfl)

/-- The beginning of a body is called back if it has not begun. -/
theorem InOrder.beginBody (hopened : r.opened = false) : InOrder r r'.beginBody := by
  rintro ⟨buffer, inserted⟩ hu
  rw [hopened] at hu
  obtain rfl : buffer = none := by simpa using hu
  refine ⟨⟨some OnBegin, inserted⟩, rfl, fun h => ?_, fun h hcomplete => ?_, fun _ => rfl⟩
  · obtain rfl := Except.ok.inj h
    unfold Response.opened
    dsimp only
    split_ifs <;> rfl
  · obtain rfl := Except.ok.inj h
    dsimp only at hcomplete
    split_ifs at hcomplete

/-- What a change that keeps the state makes of the response does not matter. -/
theorem InOrder.map {c : Emits Callback Fault Response} (h : InOrder r c)
    {f : Response → Response} (hf : ∀ r', (f r').m_State = r'.m_State) :
    InOrder r (c >>= fun r' => pure (f r')) := by
  intro u hu
  obtain ⟨u', hcalls, hserves⟩ := h u hu
  -- Whether a body has begun is seen from the state, which `f` keeps.
  have hopened : ∀ r' : Response, (f r').opened = r'.opened := by
    intro r'
    unfold Response.opened
    rw [hf]
  rcases hresult : c.result with e | r₁
  · rw [bind_of_error hresult]
    rw [hresult] at hserves
    exact ⟨u', hcalls, fun h => absurd h (by simp), fun h => absurd h (by simp),
      fun _ => hserves.pending fun _ h => absurd h (by simp)⟩
  · rw [bind_of_ok hresult]
    rw [hresult] at hserves
    refine ⟨u', by rw [out_pure, List.append_nil]; exact hcalls, fun h => ?_, fun h hstate => ?_,
      fun h => ?_⟩
    · obtain rfl := Except.ok.inj h
      rw [hserves.opened rfl, hopened]
    · obtain rfl := Except.ok.inj h
      exact hserves.completed rfl (hf r₁ ▸ hstate)
    · refine hserves.pending fun r' hr' => ?_
      obtain rfl := Except.ok.inj hr'
      exact hf r₁ ▸ h _ rfl

/-- The status line calls nothing back. -/
theorem inOrder_processStatusLine (hopened : r.opened = false) (line : Str) :
    InOrder r (r.processStatusLine line) := by
  unfold Response.processStatusLine
  dsimp only
  split_ifs
  · exact .of_raise _
  · exact .of_pure hopened.symm (by simp)
  · exact .of_pure hopened.symm (by simp)
  · exact .of_raise _

/-- Flushing a header leaves the state. -/
theorem state_flushHeader (r : Response) : r.flushHeader.m_State = r.m_State := by
  unfold Response.flushHeader
  split
  · rfl
  · rfl

/-- Header lines call back at the end of the headers only. -/
theorem inOrder_processHeaderLine (hstate : r.m_State = .HEADERS) (line : Str) :
    InOrder r (r.processHeaderLine line) := by
  have hopened : r.opened = false := by simp [Response.opened, hstate]
  have hflush : ∀ accum, ({ r.flushHeader with m_HeaderAccum := accum } : Response).opened =
      r.opened := by
    intro accum
    simp [Response.opened, state_flushHeader]
  unfold Response.processHeaderLine
  dsimp only
  -- An empty line ends the headers or an interim response; other lines call nothing back.
  split_ifs
  · exact .of_pure hopened.symm (by simp)
  · exact .beginBody hopened
  · exact .of_pure rfl (by simp [hstate])
  · exact .of_pure (hflush _) (by simp [state_flushHeader, hstate])

/-- Every line calls back in order. -/
theorem inOrder_processLine (h : r.ReadsLine) : InOrder r r.processLine := by
  obtain ⟨hbody, hcomplete⟩ := h
  -- the line buffer is emptied in the end
  have hclear : ∀ c, InOrder r c →
      InOrder r (c >>= fun r' => pure { r' with m_LineBuf := [] }) := fun c hc =>
    hc.map fun _ => rfl
  unfold Response.processLine
  cases hstate : r.m_State with
  | STATUSLINE => exact hclear _ (inOrder_processStatusLine (by simp [Response.opened, hstate]) _)
  | HEADERS => exact hclear _ (inOrder_processHeaderLine hstate _)
  | BODY => exact absurd hstate hbody
  | COMPLETE => exact absurd hstate hcomplete
  | CHUNKEND => exact hclear _ (.of_pure (by simp [Response.opened, hstate]) (by simp))
  | CHUNKLEN =>
    refine hclear (pure _) ?_
    unfold Response.processChunkLenLine
    dsimp only
    split_ifs
    · exact .of_pure (by simp [Response.opened, hstate]) (by simp)
    · exact .of_pure (by simp [Response.opened, hstate]) (by simp)
  | TRAILERS =>
    refine hclear _ ?_
    unfold Response.processTrailerLine
    split_ifs
    · exact .finish (by simp [Response.opened, hstate])
    · exact .of_pure rfl (by simp [hstate])

/-- The completion callback is called when the response is complete; until then its body is open. -/
theorem endCalls_cases (hbody : r.m_State = .BODY) (n : ℤ) :
    (r.endCalls n = [.complete] ∧ (r.advance n).m_State = .COMPLETE) ∨
      (r.endCalls n = [] ∧ (r.advance n).m_State ≠ .COMPLETE ∧ (r.advance n).opened = true) := by
  unfold Response.endCalls Response.advance Response.opened
  dsimp only
  -- The end of a chunk is not the end of the message.
  cases hchunked : r.m_Chunked with
  | true =>
    right
    split_ifs <;> simp_all
  | false =>
    by_cases hend : r.remaining = some n
    · left
      simp [hend]
    · right
      simp [hend, hbody]

/-- Every turn of the loop calls back in order. -/
theorem inOrder_iteration (hstate : r.m_State ≠ .COMPLETE) (data : List UInt8) :
    InOrder r (r.iteration data).first := by
  -- In the body the bytes are called back, then the end if they were the last; elsewhere a line is
  -- processed.
  by_cases hbody : r.m_State = .BODY
  · have hopened : r.opened = true := by simp [Response.opened, hbody]
    rw [Response.iteration_body hbody]
    split
    · exact .of_raise _
    · rintro ⟨buffer, inserted⟩ hu
      rw [hopened] at hu
      obtain ⟨buffer, rfl⟩ := Option.isSome_iff_exists.mp hu
      rcases endCalls_cases hbody (r.used data) with ⟨hcalls, hend⟩ | ⟨hcalls, hmore, hopen⟩
      · rw [hcalls]
        refine ⟨⟨none, _⟩, rfl, fun h => ?_, fun _ _ => ⟨_, rfl⟩, fun h => absurd hend (h _ rfl)⟩
        obtain rfl := Except.ok.inj h
        simp [Response.opened, hend]
      · rw [hcalls]
        refine ⟨⟨some _, inserted⟩, rfl, fun h => ?_, fun h hcomplete => ?_, fun _ => rfl⟩
        · obtain rfl := Except.ok.inj h
          exact hopen.symm
        · obtain rfl := Except.ok.inj h
          exact absurd hcomplete hmore
  · have hline : r.ReadsLine := ⟨hbody, hstate⟩
    rw [Response.iteration_line hline]
    split
    · exact .of_pure rfl hstate
    · next buf rest _ =>
      have hprocess : InOrder r ({ r with m_LineBuf := buf } : Response).processLine :=
        inOrder_processLine (r := { r with m_LineBuf := buf }) hline
      rw [first_bind_pure]
      exact hprocess

/-- **The calls of a response are in order**, whatever bytes it is pumped with. -/
theorem inOrder_pump (hstate : r.m_State ≠ .COMPLETE) (data : List UInt8) :
    InOrder r (r.pump data).first := by
  -- By induction on what is left to do, one turn in front of the others.
  induction hn : r.toDo data using Nat.strongRecOn generalizing r data with
  | _ n ih =>
    by_cases hgoes : r.Goes data
    swap
    · rw [Response.pump_of_not hgoes]
      exact .of_pure rfl hstate
    intro u hu
    obtain ⟨u₁, hcalls₁, hserves₁⟩ := inOrder_iteration hstate data u hu
    rw [Response.pump_of_goes hgoes]
    rcases hresult : (r.iteration data).result with e | ⟨r₁, rest⟩
    · rw [bind_of_error hresult]
      have hfirst : (r.iteration data).first.result = .error e := by
        simp [first, hresult, Except.map]
      rw [hfirst] at hserves₁
      exact ⟨u₁, hcalls₁, hserves₁⟩
    · rw [bind_of_ok hresult]
      have hfirst : (r.iteration data).first.result = .ok r₁ := by simp [first, hresult, Except.map]
      rw [hfirst] at hserves₁
      by_cases hcomplete : r₁.m_State = .COMPLETE
      · -- there is nothing more to do
        have hnot : ¬r₁.Goes rest := fun h => h.2 hcomplete
        rw [Response.pump_of_not hnot]
        refine ⟨u₁, ?_, hserves₁⟩
        rw [out_first]
        dsimp only
        rw [out_pure, List.append_nil]
        exact hcalls₁
      · have hpending : u₁.inserted = u.inserted := hserves₁.pending fun r' hr' => by
          obtain rfl := Except.ok.inj hr'
          exact hcomplete
        obtain ⟨u₂, hcalls₂, hserves₂⟩ := ih _ (hn ▸ Response.iteration_progress hgoes hresult)
          hcomplete rest rfl u₁ (hserves₁.opened rfl)
        refine ⟨u₂, ?_, hserves₂.opened, fun h => ?_, fun h => ?_⟩
        · rw [out_first]
          dsimp only
          rw [List.foldlM_append]
          exact (congrArg (· >>= _) hcalls₁).trans hcalls₂
        · exact hpending ▸ hserves₂.completed h
        · exact hpending ▸ hserves₂.pending h

end Order

/-! ### What the request of the repository comes to -/

section Download

/-- While the response is outstanding nothing has been inserted; then one object has. -/
def Awaits (calls : List Callback) (m_Outstanding : List Response) : Prop :=
  ∃ u, calls.foldlM handle ⟨none, []⟩ = some u ∧
    (m_Outstanding = [] ∧ u.buffer = none ∧ (∃ object, u.inserted = [object]) ∨
      ∃ r : Response, m_Outstanding = [r] ∧ r.m_State ≠ .COMPLETE ∧
        u.buffer.isSome = r.opened ∧ u.inserted = [])

/-- The calls have inserted nothing. -/
def Abandoned (calls : List Callback) : Prop :=
  ∃ u, calls.foldlM handle ⟨none, []⟩ = some u ∧ u.inserted = []

/-- What is outstanding when there was one response, and it has become this one. -/
def stillOutstanding (r : Response) : List Response := if r.m_State = .COMPLETE then [] else [r]

variable {calls : List Callback} {r : Response} {c : Emits Callback Fault Response} {u : Userdata}

/-- Calls in order leave the handler waiting for what is still outstanding. -/
theorem InOrder.awaits (h : InOrder r c) (hcalls : calls.foldlM handle ⟨none, []⟩ = some u)
    (hopened : u.buffer.isSome = r.opened) (hpending : u.inserted = []) :
    (∀ r', c.result = .ok r' → Awaits (calls ++ c.out) (stillOutstanding r')) ∧
      ∀ e, c.result = .error e → Abandoned (calls ++ c.out) := by
  obtain ⟨u', hcalls', hserves⟩ := h u hopened
  -- The handler has seen the calls so far and then those of this step.
  have hall : (calls ++ c.out).foldlM handle ⟨none, []⟩ = some u' := by
    rw [List.foldlM_append, hcalls]
    exact hcalls'
  refine ⟨fun r' hr' => ⟨u', hall, ?_⟩, fun e he => ⟨u', hall, ?_⟩⟩
  · have hopened' := hserves.opened hr'
    unfold stillOutstanding
    split
    · next hcomplete =>
      obtain ⟨object, hobject⟩ := hserves.completed hr' hcomplete
      rw [hpending] at hobject
      refine Or.inl ⟨rfl, ?_, object, hobject⟩
      simpa [Response.opened, hcomplete] using hopened'
    · next hmore =>
      refine Or.inr ⟨r', rfl, hmore, hopened', (hserves.pending fun r'' hr'' => ?_).trans hpending⟩
      obtain rfl := Except.ok.inj (hr'.symm.trans hr'')
      exact hmore
  · exact (hserves.pending fun r' hr' => absurd (he.symm.trans hr') (by simp)).trans hpending

/-- For one response, the connection does what the response does. -/
theorem serve_singleton (r : Response) {data : List UInt8} (hne : data ≠ []) :
    serve [r] data = (r.pump data).first >>= fun r' => pure (stillOutstanding r') := by
  rw [serve, if_neg hne]
  obtain ⟨os, e | ⟨r', rest⟩⟩ := r.pump data
  · rfl
  · refine Emits.ext ?_ ?_ <;>
    · unfold stillOutstanding
      dsimp only [first, mk_ok_bind, Except.map]
      split <;> rfl

/-- A closed connection ends the message in order. -/
theorem inOrder_notifyconnectionclosed (hstate : r.m_State ≠ .COMPLETE) :
    InOrder r r.notifyconnectionclosed := by
  unfold Response.notifyconnectionclosed
  rw [if_neg hstate]
  split
  · next h => exact .finish (by simp [Response.opened, h.1])
  · exact .of_raise _

/-- A response whose connection was closed without a fault is complete. -/
theorem complete_of_notifyconnectionclosed {r' : Response}
    (h : r.notifyconnectionclosed.result = .ok r') : r'.m_State = .COMPLETE := by
  unfold Response.notifyconnectionclosed at h
  split_ifs at h with hcomplete
  · obtain rfl := Except.ok.inj h
    exact hcomplete
  · obtain rfl := Except.ok.inj h
    rfl
  · exact absurd h (by simp [wobbly, raise])

/-- **Each reception keeps the books.** -/
theorem Awaits.pump {m_Outstanding : List Response} (h : Awaits calls m_Outstanding)
    (recv : Received) {c : Emits Callback Fault (List Response)}
    (hc : c = if m_Outstanding = [] then pure [] else pump m_Outstanding recv) :
    (∀ m_Outstanding', c.result = .ok m_Outstanding' → Awaits (calls ++ c.out) m_Outstanding') ∧
      ∀ e, c.result = .error e → Abandoned (calls ++ c.out) := by
  have hsame : c = pure m_Outstanding → (∀ m_Outstanding', c.result = .ok m_Outstanding' →
      Awaits (calls ++ c.out) m_Outstanding') ∧
      ∀ e, c.result = .error e → Abandoned (calls ++ c.out) := by
    rintro rfl
    refine ⟨fun rs hrs => ?_, fun e he => absurd he (by simp)⟩
    obtain rfl := Except.ok.inj hrs
    rw [out_pure, List.append_nil]
    exact h
  obtain ⟨u, hcalls, ⟨rfl, hbuffer, hobject⟩ | ⟨r, rfl, hstate, hopened, hpending⟩⟩ := h
  · exact hsame (hc.trans (if_pos rfl))
  rw [if_neg (List.cons_ne_nil r [])] at hc
  match recv with
  | .bytes data =>
    by_cases hne : data = []
    · subst hne
      exact hsame hc
    · have hserve : c = (r.pump data).first >>= fun r' => pure (stillOutstanding r') :=
        hc.trans (serve_singleton r hne)
      obtain ⟨hok, herror⟩ := (inOrder_pump hstate data).awaits hcalls hopened hpending
      rcases hresult : (r.pump data).first.result with e | r'
      · rw [bind_of_error hresult] at hserve
        subst hserve
        refine ⟨fun rs hrs => absurd hrs (by simp), fun e' he' => ?_⟩
        obtain rfl := Except.error.inj he'
        exact herror _ hresult
      · rw [bind_of_ok hresult, out_pure, List.append_nil] at hserve
        subst hserve
        refine ⟨fun rs hrs => ?_, fun e he => absurd he (by simp)⟩
        obtain rfl := Except.ok.inj hrs
        exact hok _ hresult
  | .closed =>
    obtain ⟨hok, herror⟩ := (inOrder_notifyconnectionclosed hstate).awaits hcalls hopened hpending
    have hclosed : c = r.notifyconnectionclosed >>= fun _ => pure [] := hc
    rcases hresult : r.notifyconnectionclosed.result with e | r'
    · rw [bind_of_error hresult] at hclosed
      subst hclosed
      refine ⟨fun rs hrs => absurd hrs (by simp), fun e' he' => ?_⟩
      obtain rfl := Except.error.inj he'
      exact herror _ hresult
    · rw [bind_of_ok hresult, out_pure, List.append_nil] at hclosed
      subst hclosed
      refine ⟨fun rs hrs => ?_, fun e he => absurd he (by simp)⟩
      obtain rfl := Except.ok.inj hrs
      have hcomplete := complete_of_notifyconnectionclosed hresult
      have hleft := hok _ hresult
      rwa [stillOutstanding, if_pos hcomplete] at hleft
  | .failed context msg =>
    -- the exception comes before any call
    have hfailed : c = bailOnSocketError context msg := hc
    subst hfailed
    refine ⟨fun rs hrs => absurd hrs (by simp [bailOnSocketError, wobbly, raise]), fun e _ => ?_⟩
    exact ⟨u, (List.append_nil calls).symm ▸ hcalls, hpending⟩

/-- **The callbacks are called in their order**, whatever is received: no buffer is used before it
is allocated or after it is freed, and none is lost. An object is inserted once, when the loop
ends. -/
theorem handles_download (received : List Received) :
    ∃ u, (pumpAll requested received).out.foldlM handle ⟨none, []⟩ = some u ∧
      match (pumpAll requested received).result with
      | .ok [] => u.buffer = none ∧ ∃ object, u.inserted = [object]
      | _ => u.inserted = [] := by
  -- The handler waits for one response from the start, and each portion keeps it waiting or
  -- completes it.
  have hstart : Awaits [] requested :=
    ⟨⟨none, []⟩, rfl, Or.inr ⟨_, rfl, by simp [Response.fresh], rfl, rfl⟩⟩
  have hend := foldlM_induction (E := fun calls (_ : Fault) => Abandoned calls)
    (fun calls rs recv rs' h => (h.pump recv rfl).1 rs')
    (fun calls rs recv e h => (h.pump recv rfl).2 e) hstart received
  obtain ⟨hok, herror⟩ := hend
  unfold pumpAll
  split
  · next hresult =>
    obtain ⟨u, hcalls, h | ⟨r, hr, -⟩⟩ := hok _ hresult
    · exact ⟨u, hcalls, h.2⟩
    · exact absurd hr (by simp)
  · next result hother =>
    rcases hresult : (received.foldlM (fun m_Outstanding recv =>
        if m_Outstanding = [] then pure [] else pump m_Outstanding recv)
          requested).result with e | rs
    · exact herror e hresult
    · obtain ⟨u, hcalls, h | ⟨r, hr, -, -, hpending⟩⟩ := hok rs hresult
      · exact absurd (h.1 ▸ hresult) hother
      · exact ⟨u, hcalls, hpending⟩

end Download

end OpenGeoBase.Happyhttp
