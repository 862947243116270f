import OpenGeoBase.Repo.WriteHandle

/-!
# The watch handle

`WatchHandle` keeps fetching what is new under a name: a watch has one interest out, and each
packet, failure or timeout that ends it sends the next one, until a command, the timeout of the
watch or the number of its interests stops it. The handle has an entry for each name, but only
one set of counters and limits (`WatchFields`), whatever watches are running.

A watch that has stopped by itself leaves a deletion of the entry of its name behind, for ten
seconds later. It is the entry of the name that is deleted then, and not that of the watch, so
a watch that is started again in the meantime loses its entry (`early_start_loses_entry`);
`sparesLater_of_awaits` says that this is the only way.

Commands that fail validation or carry no parameter change nothing, and are left out.
-/

namespace OpenGeoBase

open Transition

/-- `RepoCommandParameter` without the name, as far as the watch handle reads it. -/
structure WatchParameter (names : NameLibrary) where
  selectors : Option (Selectors names)
  maxInterestNum : Option UInt64
  watchTimeout : Option UInt64
  interestLifetime : Option UInt64

/-- An unsigned number in a field that is signed. -/
def signed (n : UInt64) : ℤ := n.toInt64.toInt

/-- The nanoseconds of a number of milliseconds, in a field of 64 bits. -/
def nanoseconds (milliseconds : ℤ) : ℤ := (milliseconds * 10 ^ 6).bmod (2 ^ 64)

/-- No selectors. -/
def Selectors.unset (names : NameLibrary) : Selectors names := ⟨-1, -1, none, none⟩

/-- An interest with its lifetime. -/
structure WatchInterest (names : NameLibrary) extends Interest names where
  interestLifetime : ℤ

/-- What comes out of the handle for a name. -/
inductive WatchOutput (names : NameLibrary) where
  | reply (response : InsertResponse)
  | interest (interest : WatchInterest names)
  | stored (data : names.Name)

/-- An entry of `m_processes`. -/
structure WatchEntry where
  response : InsertResponse
  running : Bool

/-- The entry that `m_processes[name]` makes up. -/
def WatchEntry.absent : WatchEntry := ⟨.status 0, false⟩

/-- A scheduled deletion, and how many watches had been started on the name by then. -/
structure WatchDeletion where
  due : ℕ
  generation : ℕ

/-- What the handle has for a name, and what has come of the name so far. -/
structure Watch (names : NameLibrary) where
  entry : Option WatchEntry
  /-- The outstanding interests. -/
  pending : List (WatchInterest names)
  deletions : List WatchDeletion
  outputs : List (WatchOutput names)
  /-- The last watch command, and when it came. -/
  command : Option (WatchParameter names × ℕ)
  /-- The number of watch commands. -/
  generation : ℕ

/-- The fields of the handle that its watches share. -/
structure WatchFields where
  interestNum : ℤ
  maxInterestNum : ℤ
  interestLifetime : ℤ
  watchTimeout : ℤ
  startTime : ℕ
  size : ℕ

/-- The lifetime of an interest when the command has none, in milliseconds. -/
def defaultInterestLifetime : ℤ := 4000

/-- An entry is kept for so long after its watch has ended. -/
def watchDeleteTime : ℕ := 10000

namespace WatchFields

variable (now : ℕ) (fields : WatchFields)

/-- The fields at the start, and as `watchStop` leaves them. -/
def reset : WatchFields := ⟨0, 0, defaultInterestLifetime, 0, now, 0⟩

/-- Durations are compared in nanoseconds, and `m_watchTimeout` becomes a number of them. -/
def isTimeout : Bool :=
  fields.watchTimeout != 0 &&
    decide (((now : ℤ) - fields.startTime) * 10 ^ 6 > nanoseconds fields.watchTimeout)

def isMaxInterest : Bool :=
  decide (fields.interestNum ≥ fields.maxInterestNum) && fields.maxInterestNum != 0

/-- Is it time for `onRunning` to stop the watch? -/
def ends : Bool := fields.isTimeout now || fields.isMaxInterest

/-- The fields that a watch command sets. -/
def configure {names : NameLibrary} (parameter : WatchParameter names) : WatchFields :=
  { fields with
    watchTimeout := (parameter.watchTimeout.map signed).getD 0
    maxInterestNum := (parameter.maxInterestNum.map signed).getD 0
    interestLifetime := (parameter.interestLifetime.map signed).getD fields.interestLifetime
    startTime := now }

end WatchFields

section Interest

variable {names : NameLibrary} (upTo : names.Component → names.Component → Bool)

/-- The interest once more. -/
def WatchInterest.again (interest : WatchInterest names) (interestLifetime : ℤ) :
    WatchInterest names :=
  { interest with interestLifetime := interestLifetime }

/-- The interest for what comes after a packet: its name is made longer, or the components up to
that of the packet are excluded. -/
def WatchInterest.beyond (interest : WatchInterest names) (data : names.Name)
    (interestLifetime : ℤ) : WatchInterest names :=
  match data[interest.name.length]? with
  | none => { interest.again interestLifetime with minSuffixComponents := 2 }
  | some component => { interest.again interestLifetime with
      exclude := some fun c => interest.exclude.any (· c) || upTo c component }

end Interest

/-! ### The callbacks -/

namespace Watch

variable {names : NameLibrary} (upTo : names.Component → names.Component → Bool) (now : ℕ)
  (w : Watch names) (fields : WatchFields)

/-- Nothing has happened for the name. -/
def empty (names : NameLibrary) : Watch names := ⟨none, [], [], [], none, 0⟩

def running : Bool := w.entry.any (·.running)

/-- `m_processes[name]` is read. -/
def access : Watch names := { w with entry := some (w.entry.getD .absent) }

def output (output : WatchOutput names) : Watch names :=
  { w with outputs := w.outputs ++ [output] }

def reply (response : InsertResponse) : Watch names := w.output (.reply response)

/-- `WatchHandle::watchStop`. -/
def watchStop : Watch names × WatchFields :=
  ({ w with entry := some { w.entry.getD .absent with running := false } }, .reset now)

/-- `WatchHandle::deferredDeleteProcess`. -/
def deferredDeleteProcess : Watch names :=
  { w with deletions := w.deletions ++ [⟨now + watchDeleteTime, w.generation⟩] }

/-- `WatchHandle::onRunning`. -/
def onRunning : Bool × Watch names × WatchFields :=
  if fields.ends now then (false, (w.deferredDeleteProcess now).watchStop now)
  else (true, w, fields)

/-- The interest is counted and expressed. -/
def expressInterest (interest : WatchInterest names) : Watch names × WatchFields :=
  ({ w.output (.interest interest) with pending := w.pending ++ [interest] },
    { fields with interestNum := fields.interestNum + 1 })

def setInsertNum (insertNum : ℕ) : Watch names :=
  { w with entry := w.entry.map fun entry =>
      { entry with response := { entry.response with insertNum := some insertNum } } }

/-- The next interest, given its lifetime, if the watch is running and goes on. -/
def refetch (interest : ℤ → WatchInterest names) : Watch names × WatchFields :=
  if !w.access.running then (w.access, fields)
  else match w.access.onRunning now fields with
    | (false, stopped) => stopped
    | (true, w, fields) => w.expressInterest fields (interest fields.interestLifetime)

/-- `WatchHandle::onTimeout`. -/
def onTimeout (interest : WatchInterest names) : Watch names × WatchFields :=
  w.refetch now fields interest.again

/-- `WatchHandle::onDataValidationFailed`. -/
def onDataValidationFailed (interest : WatchInterest names) (data : names.Name) :
    Watch names × WatchFields :=
  w.refetch now fields (interest.beyond upTo data)

/-- `WatchHandle::onDataValidated`; `none` when the storage fails, which ends the handle. -/
def onDataValidated (interest : WatchInterest names) (data : names.Name) (inserted : Bool) :
    Option (Watch names × WatchFields) :=
  if !w.access.running then some (w.access, fields)
  else if !inserted then none
  else match (w.access.output (.stored data)).onRunning now
      { fields with size := fields.size + 1 } with
    | (false, stopped) => some stopped
    | (true, w, fields) =>
      let next := w.expressInterest fields (interest.beyond upTo data fields.interestLifetime)
      some (next.1.setInsertNum next.2.size, next.2)

/-- `WatchHandle::processWatchCommand`. -/
def processWatchCommand (name : names.Name) (parameter : WatchParameter names) :
    Watch names × WatchFields :=
  let fields := fields.configure now parameter
  ({ w.reply (.status 100) with
    entry := some ⟨.status 300, true⟩
    command := some (parameter, now)
    generation := w.generation + 1 } : Watch names).expressInterest fields
      { parameter.selectors.getD (.unset names) with
        name := name, interestLifetime := fields.interestLifetime }

/-- `WatchHandle::onStopValidated`. -/
def onStopValidated : Watch names × WatchFields :=
  ((w.watchStop now).1.reply (.status 101), (w.watchStop now).2)

/-- `WatchHandle::onCheckValidated`, for a command with a name. -/
def onCheckValidated : Watch names :=
  match w.entry with
  | none => w.reply (.status 404)
  | some entry =>
    let response := if entry.running then entry.response
      else { entry.response with statusCode := 101 }
    { w with entry := some { entry with response := response } }.reply response

/-- `WatchHandle::deleteProcess`. -/
def deleteProcess : Watch names := { w with entry := none }

end Watch

/-! ### The handle -/

/-- What can happen for a name. Interests and deletions are referred to by their place. -/
inductive WatchEvent (names : NameLibrary) where
  | start (parameter : WatchParameter names)
  | stop
  | check
  | data (place : ℕ) (data : names.Name) (inserted : Bool)
  | dataInvalid (place : ℕ) (data : names.Name)
  | timeout (place : ℕ)
  | delete (place : ℕ)

namespace Watch

variable {names : NameLibrary} (upTo : names.Component → names.Component → Bool) (now : ℕ)
  (name : names.Name) (w : Watch names) (fields : WatchFields)

/-- When an event can occur: an interest ends once, and a deletion runs when it is due. -/
def Enabled : WatchEvent names → Prop
  | .data place data _ | .dataInvalid place data =>
    ∃ interest, w.pending[place]? = some interest ∧ interest.name <+: data
  | .timeout place => place < w.pending.length
  | .delete place => ∃ deletion, w.deletions[place]? = some deletion ∧ deletion.due ≤ now
  | .start _ | .stop | .check => True

/-- The outstanding interest has ended. -/
def endInterest (place : ℕ) : Watch names := { w with pending := w.pending.eraseIdx place }

/-- What an event makes of a watch and the fields of the handle; `none` when the handle ends. -/
def apply : WatchEvent names → Option (Watch names × WatchFields)
  | .start parameter => some (w.processWatchCommand now fields name parameter)
  | .stop => some (w.onStopValidated now)
  | .check => some (w.onCheckValidated, fields)
  | .data place data inserted =>
    match w.pending[place]? with
    | none => some (w, fields)
    | some interest => (w.endInterest place).onDataValidated upTo now fields interest data inserted
  | .dataInvalid place data =>
    match w.pending[place]? with
    | none => some (w, fields)
    | some interest =>
      some ((w.endInterest place).onDataValidationFailed upTo now fields interest data)
  | .timeout place =>
    match w.pending[place]? with
    | none => some (w, fields)
    | some interest => some ((w.endInterest place).onTimeout now fields interest)
  | .delete place =>
    some ({ w with deletions := w.deletions.eraseIdx place }.deleteProcess, fields)

end Watch

/-- The handle: the time, what goes on for each name, and the fields. -/
structure WatchHandle (names : NameLibrary) where
  now : ℕ
  watches : names.Name → Watch names
  fields : WatchFields
  aborted : Bool

/-- The events of the handle. -/
inductive WatchOp (names : NameLibrary) where
  | advance (d : ℕ)
  | watch (name : names.Name) (event : WatchEvent names)

namespace WatchHandle

variable {names : NameLibrary} (s : WatchHandle names)

/-- The handle before the first command. -/
def start (names : NameLibrary) : WatchHandle names := ⟨0, fun _ => .empty names, .reset 0, false⟩

/-- The watch of a name and the fields are replaced. -/
def put (name : names.Name) (w : Watch names) (fields : WatchFields) : WatchHandle names :=
  { s with watches := Function.update s.watches name w, fields := fields }

@[simp] theorem watches_put_self (name : names.Name) (w : Watch names) (fields : WatchFields) :
    (s.put name w fields).watches name = w :=
  Function.update_self ..

/-- Putting a watch leaves the other ones. -/
theorem watches_put_of_ne {name name' : names.Name} (w : Watch names) (fields : WatchFields)
    (h : name' ≠ name) : (s.put name w fields).watches name' = s.watches name' :=
  Function.update_of_ne h ..

end WatchHandle

namespace WatchHandle

variable {names : NameLibrary} (upTo : names.Component → names.Component → Bool)
  (s : WatchHandle names)

/-- When an event can occur. -/
def Enabled : WatchOp names → Prop
  | .advance _ => True
  | .watch name event => (s.watches name).Enabled s.now event

/-- What an event makes of the handle. -/
def next : WatchOp names → WatchHandle names
  | .advance d => { s with now := s.now + d }
  | .watch name event =>
    match (s.watches name).apply upTo s.now name s.fields event with
    | some (w, fields) => s.put name w fields
    | none => { s with aborted := true }

variable {s upTo}

/-- An event that is handled puts the new watch. -/
theorem next_of_some {name : names.Name} {event : WatchEvent names} {w : Watch names}
    {fields : WatchFields}
    (h : (s.watches name).apply upTo s.now name s.fields event = some (w, fields)) :
    s.next upTo (.watch name event) = s.put name w fields := by
  unfold next
  dsimp only
  rw [h]

theorem next_of_none {name : names.Name} {event : WatchEvent names}
    (h : (s.watches name).apply upTo s.now name s.fields event = none) :
    s.next upTo (.watch name event) = { s with aborted := true } := by
  unfold next
  dsimp only
  rw [h]

/-- An event changes the watch of its name. -/
theorem watches_next_self {name : names.Name} (event : WatchEvent names) :
    (s.next upTo (.watch name event)).watches name =
      (((s.watches name).apply upTo s.now name s.fields event).map Prod.fst).getD
        (s.watches name) := by
  cases happly : (s.watches name).apply upTo s.now name s.fields event with
  | none => rw [next_of_none happly, Option.map_none, Option.getD_none]
  | some next => rw [next_of_some happly, watches_put_self, Option.map_some, Option.getD_some]

/-- An event leaves the watches of the other names alone. -/
theorem watches_next_of_ne {name name' : names.Name} (event : WatchEvent names)
    (h : name' ≠ name) : (s.next upTo (.watch name event)).watches name' = s.watches name' := by
  cases happly : (s.watches name).apply upTo s.now name s.fields event with
  | none => rw [next_of_none happly]
  | some next => rw [next_of_some happly, watches_put_of_ne s next.1 next.2 h]

end WatchHandle

/-- The runs of the handle. After a failure of the storage nothing happens any more. -/
def watchHandle {names : NameLibrary} (upTo : names.Component → names.Component → Bool) :
    System (WatchHandle names) (WatchOp names) where
  init s := s = .start names
  step s op s' := s.aborted = false ∧ s.Enabled op ∧ s.next upTo op = s'

/-! ### What the callbacks do -/

namespace Watch

variable {names : NameLibrary} {upTo : names.Component → names.Component → Bool} {now : ℕ}
  {name : names.Name} {w w' : Watch names} {fields fields' : WatchFields}

@[simp] theorem running_access : w.access.running = w.running := by
  unfold running access
  cases w.entry <;> rfl

@[simp] theorem running_watchStop : (w.watchStop now).1.running = false := rfl

/-- What a callback comes to that expresses the next interest. -/
theorem refetch_cases (now : ℕ) (w : Watch names) (fields : WatchFields)
    (interest : ℤ → WatchInterest names) :
    (w.running = false ∧ w.refetch now fields interest = (w.access, fields)) ∨
    (w.running = true ∧ fields.ends now = true ∧
      w.refetch now fields interest = (w.access.deferredDeleteProcess now).watchStop now) ∨
    (w.running = true ∧ fields.ends now = false ∧
      w.refetch now fields interest =
        w.access.expressInterest fields (interest fields.interestLifetime)) := by
  unfold refetch onRunning
  rw [running_access]
  cases hrunning : w.running with
  | false => exact Or.inl ⟨rfl, rfl⟩
  | true =>
    cases hends : fields.ends now with
    | false => exact Or.inr (Or.inr ⟨rfl, rfl, rfl⟩)
    | true => exact Or.inr (Or.inl ⟨rfl, rfl, rfl⟩)

/-- What a packet comes to. -/
theorem onDataValidated_cases (upTo : names.Component → names.Component → Bool) (now : ℕ)
    (w : Watch names) (fields : WatchFields) (interest : WatchInterest names)
    (data : names.Name) (inserted : Bool) :
    (w.running = false ∧
      w.onDataValidated upTo now fields interest data inserted = some (w.access, fields)) ∨
    (w.running = true ∧ inserted = false ∧
      w.onDataValidated upTo now fields interest data inserted = none) ∨
    (w.running = true ∧ inserted = true ∧
      { fields with size := fields.size + 1 }.ends now = true ∧
      w.onDataValidated upTo now fields interest data inserted =
        some (((w.access.output (.stored data)).deferredDeleteProcess now).watchStop now)) ∨
    (w.running = true ∧ inserted = true ∧
      { fields with size := fields.size + 1 }.ends now = false ∧
      ∃ next, next = (w.access.output (.stored data)).expressInterest
          { fields with size := fields.size + 1 }
          (interest.beyond upTo data fields.interestLifetime) ∧
        w.onDataValidated upTo now fields interest data inserted =
          some (next.1.setInsertNum next.2.size, next.2)) := by
  -- the tests in the order of the source: running, inserted, at an end
  unfold onDataValidated onRunning
  rw [running_access]
  cases hrunning : w.running with
  | false => exact Or.inl ⟨rfl, rfl⟩
  | true =>
    cases inserted with
    | false => exact Or.inr (Or.inl ⟨rfl, rfl, rfl⟩)
    | true =>
      cases hends : ({ fields with size := fields.size + 1 } : WatchFields).ends now with
      | false => exact Or.inr (Or.inr (Or.inr ⟨rfl, rfl, rfl, _, rfl, rfl⟩))
      | true => exact Or.inr (Or.inr (Or.inl ⟨rfl, rfl, rfl, rfl⟩))

end Watch

/-! ### Deletions -/

namespace Watch

variable {names : NameLibrary} {upTo : names.Component → names.Component → Bool} {now : ℕ}
  {name : names.Name} {w w' : Watch names} {fields fields' : WatchFields}

/-- The watch is as new as it was, and so are the deletions that have been scheduled. -/
def SameGeneration (w w' : Watch names) : Prop :=
  w'.generation = w.generation ∧
    ∀ deletion ∈ w'.deletions, deletion ∈ w.deletions ∨ deletion.generation = w.generation

/-- A generation is counted by its starts and its pending deletions. -/
theorem sameGeneration_of_eq (hgeneration : w'.generation = w.generation)
    (hdeletions : w'.deletions = w.deletions) : w.SameGeneration w' :=
  ⟨hgeneration, fun _ h => Or.inl (hdeletions ▸ h)⟩

/-- Deferring the deletion begins no generation. -/
theorem sameGeneration_deferredDeleteProcess :
    w.SameGeneration ((w.deferredDeleteProcess now).watchStop now).1 := by
  refine ⟨rfl, fun deletion h => ?_⟩
  rcases List.mem_append.mp h with h | h
  · exact Or.inl h
  · obtain rfl := List.mem_singleton.mp h
    exact Or.inr rfl

/-- Asking once more begins no generation. -/
theorem sameGeneration_refetch (w : Watch names) (interest : ℤ → WatchInterest names) :
    w.SameGeneration (w.refetch now fields interest).1 := by
  rcases refetch_cases now w fields interest with
    ⟨-, heq⟩ | ⟨-, -, heq⟩ | ⟨-, -, heq⟩
  · rw [heq]
    exact sameGeneration_of_eq rfl rfl
  · rw [heq]
    exact sameGeneration_deferredDeleteProcess
  · rw [heq]
    exact sameGeneration_of_eq rfl rfl

/-- Validated data begins no generation. -/
theorem sameGeneration_onDataValidated {interest : WatchInterest names} {data : names.Name}
    {inserted : Bool}
    (h : w.onDataValidated upTo now fields interest data inserted = some (w', fields')) :
    w.SameGeneration w' := by
  rcases onDataValidated_cases upTo now w fields interest data inserted with
    ⟨-, heq⟩ | ⟨-, -, heq⟩ | ⟨-, -, -, heq⟩ | ⟨-, -, -, next, rfl, heq⟩
  · obtain ⟨rfl, -⟩ := Prod.mk.inj (Option.some.inj (heq.symm.trans h))
    exact sameGeneration_of_eq rfl rfl
  · exact absurd (heq.symm.trans h) (by simp)
  · obtain ⟨rfl, -⟩ := Prod.mk.inj (Option.some.inj (heq.symm.trans h))
    exact sameGeneration_deferredDeleteProcess
  · obtain ⟨rfl, -⟩ := Prod.mk.inj (Option.some.inj (heq.symm.trans h))
    exact sameGeneration_of_eq rfl rfl

/-- Only a watch command makes a watch newer; it schedules no deletion. -/
theorem sameGeneration_apply {event : WatchEvent names}
    (h : w.apply upTo now name fields event = some (w', fields')) :
    (∃ parameter, event = .start parameter ∧ w'.generation = w.generation + 1 ∧
      w'.deletions = w.deletions) ∨ w.SameGeneration w' := by
  -- only a start opens a generation; what the others schedule is a deletion of the present one
  cases event with
  | start parameter =>
    obtain ⟨rfl, -⟩ := Prod.mk.inj (Option.some.inj h)
    exact Or.inl ⟨parameter, rfl, rfl, rfl⟩
  | stop =>
    obtain ⟨rfl, -⟩ := Prod.mk.inj (Option.some.inj h)
    exact Or.inr (sameGeneration_of_eq rfl rfl)
  | check =>
    obtain ⟨rfl, -⟩ := Prod.mk.inj (Option.some.inj h)
    unfold onCheckValidated
    split <;> exact Or.inr (sameGeneration_of_eq rfl rfl)
  | data place data inserted =>
    simp only [apply] at h
    split at h
    · obtain ⟨rfl, -⟩ := Prod.mk.inj (Option.some.inj h)
      exact Or.inr (sameGeneration_of_eq rfl rfl)
    · have hsame : (w.endInterest place).SameGeneration w' := sameGeneration_onDataValidated h
      exact Or.inr hsame
  | dataInvalid place data =>
    simp only [apply] at h
    split at h
    · obtain ⟨rfl, -⟩ := Prod.mk.inj (Option.some.inj h)
      exact Or.inr (sameGeneration_of_eq rfl rfl)
    · obtain ⟨heq, -⟩ := Prod.mk.inj (Option.some.inj h)
      rw [← heq]
      exact Or.inr (sameGeneration_refetch (w.endInterest place) _)
  | timeout place =>
    simp only [apply] at h
    split at h
    · obtain ⟨rfl, -⟩ := Prod.mk.inj (Option.some.inj h)
      exact Or.inr (sameGeneration_of_eq rfl rfl)
    · obtain ⟨heq, -⟩ := Prod.mk.inj (Option.some.inj h)
      rw [← heq]
      exact Or.inr (sameGeneration_refetch (w.endInterest place) _)
  | delete place =>
    obtain ⟨rfl, -⟩ := Prod.mk.inj (Option.some.inj h)
    exact Or.inr ⟨rfl, fun deletion h => Or.inl (List.mem_of_mem_eraseIdx h)⟩

end Watch

/-- A deletion that runs does not remove the entry of a watch that was started after the
deletion had been scheduled. -/
def WatchHandle.SparesLater {names : NameLibrary} (s : WatchHandle names) : WatchOp names → Prop
  | .watch name (.delete place) => ∀ deletion, (s.watches name).deletions[place]? = some deletion →
    (s.watches name).entry.isSome → (s.watches name).generation ≤ deletion.generation
  | _ => True

/-- A watch command comes when no deletion is scheduled for its name. -/
def WatchHandle.AwaitsDeletions {names : NameLibrary} (s : WatchHandle names) :
    WatchOp names → Prop
  | .watch name (.start _) => (s.watches name).deletions = []
  | _ => True

section Deletions

open WatchHandle

variable {names : NameLibrary} {upTo : names.Component → names.Component → Bool}
  {s : WatchHandle names} {op : WatchOp names} {name : names.Name}

/-- One event leaves the watch of a name as new as it was, or is a watch command for it. -/
theorem sameGeneration_next (upTo : names.Component → names.Component → Bool)
    (s : WatchHandle names) (op : WatchOp names) (name : names.Name) :
    (∃ parameter, op = .watch name (.start parameter) ∧
      ((s.next upTo op).watches name).generation = (s.watches name).generation + 1 ∧
      ((s.next upTo op).watches name).deletions = (s.watches name).deletions) ∨
    (s.watches name).SameGeneration ((s.next upTo op).watches name) := by
  cases op with
  | advance d => exact Or.inr (Watch.sameGeneration_of_eq rfl rfl)
  | watch name' event =>
    -- the other names keep their watch
    by_cases heq : name = name'
    · subst heq
      rw [watches_next_self]
      cases happly : (s.watches name).apply upTo s.now name s.fields event with
      | none => exact Or.inr (Watch.sameGeneration_of_eq rfl rfl)
      | some next =>
        rcases Watch.sameGeneration_apply happly with ⟨parameter, rfl, hstart⟩ | hsame
        · exact Or.inl ⟨parameter, rfl, hstart⟩
        · exact Or.inr hsame
    · rw [watches_next_of_ne event heq]
      exact Or.inr (Watch.sameGeneration_of_eq rfl rfl)

/-- **Deletions spare later watches.** In every run in which no watch command comes for a name
whose deletion is scheduled, no deletion removes the entry of a watch that was started after the
deletion had been scheduled. -/
theorem sparesLater_of_awaits {h : List (WatchHandle names × WatchOp names)}
    (hrun : Run (watchHandle upTo) h s) (hok : Admitted WatchHandle.AwaitsDeletions h) :
    Admitted WatchHandle.SparesLater h := by
  -- all the deletions of a name belong to its last watch
  have hinv : Throughout (fun s => ∀ name, ∀ deletion ∈ (s.watches name).deletions,
      deletion.generation = (s.watches name).generation) h s := by
    refine hrun.throughout (I := fun s => ∀ name, ∀ deletion ∈ (s.watches name).deletions,
      deletion.generation = (s.watches name).generation) ?_ (fun _ => id) ?_ hok
    · rintro _ rfl name deletion hdeletion
      exact absurd hdeletion List.not_mem_nil
    · rintro s op _ hI hawaits ⟨-, -, rfl⟩ name deletion hdeletion
      rcases sameGeneration_next upTo s op name with
        ⟨parameter, rfl, -, hdeletions⟩ | ⟨hgeneration, hdeletions⟩
      · have hnone : (s.watches name).deletions = [] := hawaits
        rw [hdeletions, hnone] at hdeletion
        exact absurd hdeletion List.not_mem_nil
      · rw [hgeneration]
        rcases hdeletions deletion hdeletion with hold | hnew
        · exact hI name deletion hold
        · exact hnew
  intro e he
  match e, he with
  | (s, .watch name (.delete place)), he =>
    intro deletion hdeletion _
    exact (hinv.1 _ he name deletion (List.mem_of_getElem? hdeletion)).ge
  | (s, .watch _ (.start _)), _ | (s, .watch _ .stop), _ | (s, .watch _ .check), _
  | (s, .watch _ (.data _ _ _)), _ | (s, .watch _ (.dataInvalid _ _)), _
  | (s, .watch _ (.timeout _)), _ | (s, .advance _), _ => trivial

/-- No deletion belongs to a watch that is still to come. -/
theorem generation_le {h : List (WatchHandle names × WatchOp names)}
    (hrun : Run (watchHandle upTo) h s) (name : names.Name) :
    ∀ deletion ∈ (s.watches name).deletions,
      deletion.generation ≤ (s.watches name).generation := by
  refine hrun.invariant' (I := fun s => ∀ deletion ∈ (s.watches name).deletions,
    deletion.generation ≤ (s.watches name).generation) ?_ ?_
  · rintro _ rfl deletion hdeletion
    exact absurd hdeletion List.not_mem_nil
  · rintro s op _ hI ⟨-, -, rfl⟩ deletion hdeletion
    rcases sameGeneration_next upTo s op name with
      ⟨parameter, -, hgeneration, hdeletions⟩ | ⟨hgeneration, hdeletions⟩
    · rw [hgeneration]
      exact (hI deletion (hdeletions ▸ hdeletion)).trans (Nat.le_succ _)
    · rw [hgeneration]
      rcases hdeletions deletion hdeletion with hold | hnew
      · exact hI deletion hold
      · exact hnew.le

/-- A watch that is started while a deletion is scheduled for its name can lose its entry. -/
theorem early_start_loses_entry {h : List (WatchHandle names × WatchOp names)}
    (hrun : Run (watchHandle upTo) h s) (halive : s.aborted = false)
    {place : ℕ} {deletion : WatchDeletion}
    (hdeletion : (s.watches name).deletions[place]? = some deletion)
    (parameter : WatchParameter names) :
    ∃ s₁ s₂ s₃, Run (watchHandle upTo) (h ++ [(s, .watch name (.start parameter)),
        (s₁, .advance deletion.due), (s₂, .watch name (.delete place))]) s₃ ∧
      ¬s₂.SparesLater (.watch name (.delete place)) := by
  have hle := generation_le hrun name deletion (List.mem_of_getElem? hdeletion)
  obtain ⟨w, fields, hw⟩ : ∃ w fields,
      (s.watches name).apply upTo s.now name s.fields (.start parameter) = some (w, fields) :=
    ⟨_, _, rfl⟩
  -- start again, wait until the old deletion is due, and let it happen
  have hstart := hrun.snoc (a := WatchOp.watch name (.start parameter))
    ⟨halive, trivial, next_of_some hw⟩
  have hadvance := hstart.snoc (a := WatchOp.advance deletion.due) ⟨halive, trivial, rfl⟩
  set s₂ := (s.put name w fields).next upTo (.advance deletion.due) with hs₂
  have hwatch : s₂.watches name = w := watches_put_self s name w fields
  have hw' := (Prod.mk.inj (Option.some.inj hw)).1
  have hdeletion' : (s₂.watches name).deletions[place]? = some deletion := by
    rw [hwatch, ← hw']
    exact hdeletion
  have hdelete := hadvance.snoc (a := WatchOp.watch name (.delete place))
    ⟨halive, ⟨deletion, hdeletion', Nat.le_add_left _ _⟩, rfl⟩
  refine ⟨_, _, _, by simpa using hdelete, fun hspares => ?_⟩
  -- the new watch is of a later generation than the deletion scheduled before it
  have hlater := hspares deletion hdeletion'
  rw [hwatch, ← hw'] at hlater
  have hgeneration : (s.watches name).generation + 1 ≤ deletion.generation := hlater rfl
  omega

end Deletions

section Examples

private def itself (c c' : octetNames.Component) : Bool := c == c'

/-- A watch for one interest. -/
private def watchOnce : WatchParameter octetNames := ⟨none, some 1, none, none⟩

private def onRoot (event : WatchEvent octetNames) : WatchOp octetNames := .watch [] event

/-- The states of a watch for one interest, which ends and loses its entry. -/
private def onceStarted : WatchHandle octetNames :=
  (WatchHandle.start octetNames).next itself (onRoot (.start watchOnce))

private def onceEnded : WatchHandle octetNames := onceStarted.next itself (onRoot (.timeout 0))

private def onceDue : WatchHandle octetNames := onceEnded.next itself (.advance 10000)

private def onceDeleted : WatchHandle octetNames := onceDue.next itself (onRoot (.delete 0))

/-- The states of a second watch for the same name. -/
private def twiceStarted : WatchHandle octetNames :=
  onceDeleted.next itself (onRoot (.start watchOnce))

private def twiceEnded : WatchHandle octetNames := twiceStarted.next itself (onRoot (.timeout 0))

private def twiceDue : WatchHandle octetNames := twiceEnded.next itself (.advance 10000)

private theorem run_onceEnded :
    Run (watchHandle itself) [(.start octetNames, onRoot (.start watchOnce)),
      (onceStarted, onRoot (.timeout 0))] onceEnded :=
  have hstarted := (Run.nil rfl : Run (watchHandle itself) [] (.start octetNames)).snoc
    (a := onRoot (.start watchOnce)) ⟨rfl, trivial, rfl⟩
  hstarted.snoc ⟨rfl, Nat.zero_lt_one, rfl⟩

/-- A name is watched for one interest, ten seconds later its entry is deleted, and then it is
watched again: each deletion removes the entry of its own watch. -/
theorem sparesLater_twice :
    ((onceDue.watches []).entry.isSome ∧ (onceDeleted.watches []).entry.isNone ∧
      (twiceDue.watches []).entry.isSome ∧ (twiceDue.watches []).generation = 2) ∧
      Admitted WatchHandle.SparesLater [(.start octetNames, onRoot (.start watchOnce)),
        (onceStarted, onRoot (.timeout 0)), (onceEnded, .advance 10000),
        (onceDue, onRoot (.delete 0)), (onceDeleted, onRoot (.start watchOnce)),
        (twiceStarted, onRoot (.timeout 0)), (twiceEnded, .advance 10000),
        (twiceDue, onRoot (.delete 0))] := by
  have hdue := run_onceEnded.snoc (a := WatchOp.advance 10000) ⟨rfl, trivial, rfl⟩
  have hdeleted := hdue.snoc (a := onRoot (.delete 0)) ⟨rfl, ⟨_, rfl, le_rfl⟩, rfl⟩
  -- the first deletion has happened when the second watch starts
  have hstarted := hdeleted.snoc (a := onRoot (.start watchOnce)) ⟨rfl, trivial, rfl⟩
  have hended := hstarted.snoc (a := onRoot (.timeout 0)) ⟨rfl, Nat.zero_lt_one, rfl⟩
  have hdue' := hended.snoc (a := WatchOp.advance 10000) ⟨rfl, trivial, rfl⟩
  have hdeleted' := hdue'.snoc (a := onRoot (.delete 0)) ⟨rfl, ⟨_, rfl, le_rfl⟩, rfl⟩
  refine ⟨⟨rfl, rfl, rfl, rfl⟩, sparesLater_of_awaits hdeleted' ?_⟩
  refine List.forall_mem_cons.mpr ⟨rfl, List.forall_mem_cons.mpr ⟨trivial, ?_⟩⟩
  refine List.forall_mem_cons.mpr ⟨trivial, List.forall_mem_cons.mpr ⟨trivial, ?_⟩⟩
  refine List.forall_mem_cons.mpr ⟨rfl, List.forall_mem_cons.mpr ⟨trivial, ?_⟩⟩
  exact List.forall_mem_cons.mpr ⟨trivial, List.forall_mem_singleton.mpr trivial⟩

/-- A watch that is started again loses its entry to the deletion that the first has left. -/
theorem deletes_later_watch :
    ∃ h s, Run (watchHandle itself) h s ∧ ¬Admitted WatchHandle.SparesLater h := by
  obtain ⟨s₁, s₂, s₃, hrun, hlost⟩ := early_start_loses_entry run_onceEnded rfl
    (show (onceEnded.watches []).deletions[0]? = some ⟨10000, 1⟩ from rfl) watchOnce
  exact ⟨_, _, hrun, fun hspares => hlost (hspares (s₂, _) (by simp))⟩

end Examples

end OpenGeoBase
