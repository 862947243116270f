import OpenGeoBase.Repo.WatchHandle

/-!
# What an event does to a watch

`Effect` says once what an event can do to the watch of a name and to the fields of the handle;
everything about watches is read off it. A watch that is started once at most has at most one
interest out (`StartedOnce`), and as long as the fields are its own (`Owns`) it keeps within its
limit, ends by its own timeout or number of interests, and reports what it has stored.
-/

namespace OpenGeoBase

open Transition

/-! ### What a watch has sent and stored -/

def WatchOutput.isInterest {names : NameLibrary} : WatchOutput names → Bool
  | .interest _ => true
  | _ => false

def WatchOutput.isStored {names : NameLibrary} : WatchOutput names → Bool
  | .stored _ => true
  | _ => false

/-- Does the event end an interest? -/
def WatchEvent.isCallback {names : NameLibrary} : WatchEvent names → Bool
  | .data .. | .dataInvalid .. | .timeout _ => true
  | _ => false

/-- Is the event a packet that the storage takes? -/
def WatchEvent.storedData {names : NameLibrary} : WatchEvent names → Option names.Name
  | .data _ packet inserted => if inserted then some packet else none
  | _ => none

/-- The number of packets stored becomes the `InsertNum`, if there is a new one. -/
def WatchEntry.report {Name : Type} (entry : WatchEntry) (data : Option Name) (size : ℕ) :
    WatchEntry :=
  if data.isSome then
    { entry with response := { entry.response with insertNum := some size } }
  else entry

/-- The handle keeps the limits of the command as they are: a limit of 0 interests is none to it,
and its fields are signed, the timeout in nanoseconds. -/
structure WatchParameter.Kept {names : NameLibrary} (parameter : WatchParameter names) : Prop where
  maxInterestNum : ∀ n, parameter.maxInterestNum = some n → n ≠ 0 ∧ n.toNat < 2 ^ 63
  watchTimeout : ∀ n, parameter.watchTimeout = some n → n.toNat * 10 ^ 6 < 2 ^ 63

namespace Watch

variable {names : NameLibrary} (now : ℕ) (w : Watch names)

/-- The number of interests sent. -/
def sent : ℕ := w.outputs.countP WatchOutput.isInterest

/-- The number of packets stored. -/
def inserted : ℕ := w.outputs.countP WatchOutput.isStored

/-- The watch has lasted longer than its timeout. -/
def TimedOut : Prop :=
  ∃ parameter startTime watchTimeout, w.command = some (parameter, startTime) ∧
    parameter.watchTimeout = some watchTimeout ∧ (now : ℤ) - startTime > watchTimeout.toNat

/-- The watch has sent as many interests as it should. -/
def CountReached : Prop :=
  ∃ parameter startTime maxInterestNum, w.command = some (parameter, startTime) ∧
    parameter.maxInterestNum = some maxInterestNum ∧ maxInterestNum.toNat ≤ w.sent

/-- The watch has sent no more interests than it should. -/
def WithinLimit : Prop :=
  ∀ parameter startTime maxInterestNum, w.command = some (parameter, startTime) →
    parameter.maxInterestNum = some maxInterestNum → w.sent ≤ maxInterestNum.toNat

/-- The entry has the number of packets stored. -/
def ReportsInserted : Prop :=
  ∀ entry, w.entry = some entry → entry.response.insertNum.getD 0 = w.inserted

/-- The packet is stored, if there is one. -/
def store (data : Option names.Name) : Watch names :=
  match data with
  | none => w
  | some data => w.output (.stored data)

/-- An interest has ended, and with it the watch. -/
def finished (place : ℕ) (data : Option names.Name) : Watch names :=
  { w with
    entry := some { w.entry.getD .absent with running := false }
    pending := w.pending.eraseIdx place
    deletions := w.deletions ++ [⟨now + watchDeleteTime, w.generation⟩]
    outputs := (w.store data).outputs }

/-- An interest has ended, and the next one has been sent. -/
def onward (place : ℕ) (data : Option names.Name) (size : ℕ) (interest : WatchInterest names) :
    Watch names :=
  { w with
    entry := some ((w.entry.getD .absent).report data size)
    pending := w.pending.eraseIdx place ++ [interest]
    outputs := (w.store data).outputs ++ [.interest interest] }

end Watch

/-- The packet is counted, if there is one. -/
def WatchFields.count {Name : Type} (fields : WatchFields) (data : Option Name) : WatchFields :=
  { fields with size := fields.size + if data.isSome then 1 else 0 }

/-! ### The effect of an event -/

section Effect

variable {names : NameLibrary} {upTo : names.Component → names.Component → Bool} {now : ℕ}
  {name : names.Name} {w w' : Watch names} {fields fields' : WatchFields}
  {event : WatchEvent names}

/-- What an event can do. -/
inductive Effect (now : ℕ) (name : names.Name) (w : Watch names) (fields : WatchFields) :
    WatchEvent names → Watch names → WatchFields → Prop where
  | start (parameter : WatchParameter names) :
    Effect now name w fields (.start parameter)
      (w.processWatchCommand now fields name parameter).1
      (w.processWatchCommand now fields name parameter).2
  | stop : Effect now name w fields .stop (w.onStopValidated now).1 (.reset now)
  | check : Effect now name w fields .check w.onCheckValidated fields
  /-- An interest ends when the watch is not running. -/
  | ignored (event : WatchEvent names) (place : ℕ) (hplace : place < w.pending.length)
      (hevent : event.isCallback) (hrunning : w.running = false) :
    Effect now name w fields event (w.endInterest place).access fields
  | ended (event : WatchEvent names) (place : ℕ) (hplace : place < w.pending.length)
      (hevent : event.isCallback) (hrunning : w.running = true) (hends : fields.ends now = true) :
    Effect now name w fields event (w.finished now place event.storedData) (.reset now)
  | continued (event : WatchEvent names) (place : ℕ) (interest : WatchInterest names)
      (hplace : place < w.pending.length) (hevent : event.isCallback)
      (hrunning : w.running = true) (hends : fields.ends now = false) :
    Effect now name w fields event
      (w.onward place event.storedData (fields.count event.storedData).size interest)
      { fields.count event.storedData with interestNum := fields.interestNum + 1 }
  | delete (place : ℕ) (hplace : place < w.deletions.length) :
    Effect now name w fields (.delete place)
      ({ w with deletions := w.deletions.eraseIdx place }.deleteProcess) fields

/-- Asking once more is an effect the event may have. -/
theorem effect_refetch {place : ℕ} (hplace : place < w.pending.length)
    (hevent : event.isCallback) (hstored : event.storedData = none)
    (interest : ℤ → WatchInterest names) :
    Effect now name w fields event ((w.endInterest place).refetch now fields interest).1
      ((w.endInterest place).refetch now fields interest).2 := by
  rcases Watch.refetch_cases now (w.endInterest place) fields interest with
    ⟨hrunning, heq⟩ | ⟨hrunning, hends, heq⟩ | ⟨hrunning, hends, heq⟩
  · rw [heq]
    exact .ignored event place hplace hevent hrunning
  · have heffect : Effect now name w fields event _ _ :=
      .ended event place hplace hevent hrunning hends
    rw [hstored] at heffect
    rw [heq]
    exact heffect
  · have heffect : Effect now name w fields event _ _ :=
      .continued event place (interest fields.interestLifetime) hplace hevent hrunning hends
    rw [hstored] at heffect
    rw [heq]
    exact heffect

/-- An event that can occur, and does not end the handle, has one of these effects. -/
theorem effect_of_apply (henabled : w.Enabled now event)
    (happly : w.apply upTo now name fields event = some (w', fields')) :
    Effect now name w fields event w' fields' := by
  cases event with
  | start parameter =>
    obtain ⟨rfl, rfl⟩ := Prod.mk.inj (Option.some.inj happly)
    exact .start parameter
  | stop =>
    obtain ⟨rfl, rfl⟩ := Prod.mk.inj (Option.some.inj happly)
    exact .stop
  | check =>
    obtain ⟨rfl, rfl⟩ := Prod.mk.inj (Option.some.inj happly)
    exact .check
  | data place data inserted =>
    obtain ⟨interest, hpending, -⟩ := henabled
    obtain ⟨hplace, -⟩ := List.getElem?_eq_some_iff.mp hpending
    simp only [Watch.apply, hpending] at happly
    -- stopped, refused by the storage, ended by this packet, or continued
    rcases Watch.onDataValidated_cases upTo now (w.endInterest place) fields interest data
      inserted with
      ⟨hrunning, heq⟩ | ⟨-, -, heq⟩ | ⟨hrunning, rfl, hends, heq⟩ |
      ⟨hrunning, rfl, hends, next, rfl, heq⟩
    · obtain ⟨rfl, rfl⟩ := Prod.mk.inj (Option.some.inj (heq.symm.trans happly))
      exact .ignored _ place hplace rfl hrunning
    -- a packet that cannot be inserted aborts the process, and the event was applied
    · exact absurd (heq.symm.trans happly) (by simp)
    · obtain ⟨rfl, rfl⟩ := Prod.mk.inj (Option.some.inj (heq.symm.trans happly))
      exact .ended _ place hplace rfl hrunning hends
    · obtain ⟨rfl, rfl⟩ := Prod.mk.inj (Option.some.inj (heq.symm.trans happly))
      exact .continued _ place _ hplace rfl hrunning hends
  | dataInvalid place data =>
    obtain ⟨interest, hpending, -⟩ := henabled
    obtain ⟨hplace, -⟩ := List.getElem?_eq_some_iff.mp hpending
    simp only [Watch.apply, hpending] at happly
    obtain ⟨rfl, rfl⟩ := Prod.mk.inj (Option.some.inj happly)
    exact effect_refetch hplace rfl rfl _
  | timeout place =>
    have hpending := List.getElem?_eq_getElem (show place < w.pending.length from henabled)
    simp only [Watch.apply, hpending] at happly
    obtain ⟨rfl, rfl⟩ := Prod.mk.inj (Option.some.inj happly)
    exact effect_refetch henabled rfl rfl _
  | delete place =>
    obtain ⟨deletion, hdeletion, -⟩ := henabled
    obtain ⟨hplace, -⟩ := List.getElem?_eq_some_iff.mp hdeletion
    obtain ⟨rfl, rfl⟩ := Prod.mk.inj (Option.some.inj happly)
    exact .delete place hplace

end Effect

/-! ### What an event leaves of a watch -/

namespace Watch

variable {names : NameLibrary} {now place size : ℕ} {w : Watch names}

@[simp] theorem sent_output (output : WatchOutput names) :
    (w.output output).sent = w.sent + if output.isInterest then 1 else 0 :=
  List.countP_append.trans (congrArg (w.sent + ·) List.countP_singleton)

@[simp] theorem inserted_output (output : WatchOutput names) :
    (w.output output).inserted = w.inserted + if output.isStored then 1 else 0 :=
  List.countP_append.trans (congrArg (w.inserted + ·) List.countP_singleton)

/-- Storing sends nothing. -/
theorem sent_store (data : Option names.Name) : (w.store data).sent = w.sent := by
  cases data with
  | none => rfl
  | some data => exact sent_output _

theorem inserted_store (data : Option names.Name) :
    (w.store data).inserted = w.inserted + if data.isSome then 1 else 0 := by
  cases data with
  | none => rfl
  | some data => exact inserted_output _

@[simp] theorem sent_finished (data : Option names.Name) :
    (w.finished now place data).sent = w.sent :=
  sent_store data

@[simp] theorem inserted_finished (data : Option names.Name) :
    (w.finished now place data).inserted = w.inserted + if data.isSome then 1 else 0 :=
  inserted_store data

@[simp] theorem sent_onward (data : Option names.Name) (interest : WatchInterest names) :
    (w.onward place data size interest).sent = w.sent + 1 := by
  calc (w.onward place data size interest).sent = (w.store data).sent + 1 :=
        sent_output (w := w.store data) (.interest interest)
    _ = w.sent + 1 := by rw [sent_store]

@[simp] theorem inserted_onward (data : Option names.Name) (interest : WatchInterest names) :
    (w.onward place data size interest).inserted =
      w.inserted + if data.isSome then 1 else 0 := by
  calc (w.onward place data size interest).inserted = (w.store data).inserted + 0 :=
        inserted_output (w := w.store data) (.interest interest)
    _ = w.inserted + if data.isSome then 1 else 0 := by rw [inserted_store, Nat.add_zero]

@[simp] theorem sent_reply (response : InsertResponse) : (w.reply response).sent = w.sent :=
  sent_output (.reply response)

@[simp] theorem inserted_reply (response : InsertResponse) :
    (w.reply response).inserted = w.inserted :=
  inserted_output (.reply response)

@[simp] theorem sent_processWatchCommand (fields : WatchFields) (name : names.Name)
    (parameter : WatchParameter names) :
    (w.processWatchCommand now fields name parameter).1.sent = w.sent + 1 := by
  calc _ = (w.reply (.status 100)).sent + 1 :=
        sent_output (w := w.reply (.status 100)) (.interest _)
    _ = w.sent + 1 := by rw [sent_reply]

@[simp] theorem inserted_processWatchCommand (fields : WatchFields) (name : names.Name)
    (parameter : WatchParameter names) :
    (w.processWatchCommand now fields name parameter).1.inserted = w.inserted := by
  calc _ = (w.reply (.status 100)).inserted :=
        inserted_output (w := w.reply (.status 100)) (.interest _)
    _ = w.inserted := by rw [inserted_reply]

@[simp] theorem sent_onStopValidated : (w.onStopValidated now).1.sent = w.sent :=
  sent_reply (w := (w.watchStop now).1) (.status 101)

@[simp] theorem inserted_onStopValidated : (w.onStopValidated now).1.inserted = w.inserted :=
  inserted_reply (w := (w.watchStop now).1) (.status 101)

/-- A check only replies, and may change the status in the entry. -/
theorem onCheckValidated_eq (w : Watch names) : ∃ response entry,
    w.onCheckValidated = { w.reply response with entry := entry } ∧
      entry.map (·.response.insertNum) = w.entry.map (·.response.insertNum) ∧
      entry.any (·.running) = w.entry.any (·.running) := by
  unfold onCheckValidated
  cases hentry : w.entry with
  | none => exact ⟨.status 404, w.entry, rfl, by rw [hentry], by rw [hentry]⟩
  | some entry =>
    refine ⟨_, _, rfl, ?_, rfl⟩
    dsimp only [Option.map_some]
    split <;> rfl

@[simp] theorem running_onward (data : Option names.Name) (interest : WatchInterest names) :
    (w.onward place data size interest).running = w.running := by
  unfold running onward WatchEntry.report
  cases w.entry <;> cases data <;> rfl

end Watch

/-! ### The watches of one name -/

/-- The fields are as `watchStop` leaves them. -/
def WatchFields.Idle (fields : WatchFields) : Prop := ∃ now, fields = .reset now

namespace Watch

variable {names : NameLibrary} {now : ℕ} {name : names.Name} {w w' : Watch names}
  {fields fields' : WatchFields} {event : WatchEvent names}

/-- The fields are those of the watch. -/
def Owns (w : Watch names) (fields : WatchFields) : Prop :=
  ∃ parameter startTime, w.command = some (parameter, startTime) ∧
    fields = { (WatchFields.reset 0).configure startTime parameter with
      interestNum := w.sent, size := w.inserted }

/-- A watch that was started once at most has one interest out at most, and none when a deletion
is scheduled. -/
structure StartedOnce (w : Watch names) : Prop where
  unused : w.command = none → w.pending = [] ∧ w.deletions = [] ∧ w.sent = 0 ∧
    w.inserted = 0 ∧ w.running = false
  limited : ∀ parameter startTime, w.command = some (parameter, startTime) → parameter.Kept
  pending_le : w.pending.length ≤ 1
  deletions : w.deletions ≠ [] → w.pending = [] ∧ w.running = false
  absent : w.entry = none → w.pending = []
  within : w.WithinLimit

/-- A watch that never started has started at most once. -/
theorem startedOnce_empty : (empty names).StartedOnce where
  unused _ := ⟨rfl, rfl, rfl, rfl, rfl⟩
  limited _ _ h := absurd h nofun
  pending_le := Nat.zero_le 1
  deletions h := absurd rfl h
  absent _ := rfl
  within _ _ _ h := absurd h nofun

/-- A number below 2^63 keeps its value when it is read as signed. -/
theorem signed_eq {n : UInt64} (h : n.toNat < 2 ^ 63) : signed n = n.toNat := by
  have hcond := BitVec.toInt_eq_toNat_cond n.toBitVec
  change signed n = _ at hcond
  change n.toBitVec.toNat < 2 ^ 63 at h
  change signed n = n.toBitVec.toNat
  split at hcond <;> omega

/-- A number of milliseconds that is not too large is compared as it is. -/
theorem nanoseconds_signed {n : UInt64} (h : n.toNat * 10 ^ 6 < 2 ^ 63) :
    nanoseconds (signed n) = n.toNat * 10 ^ 6 := by
  unfold nanoseconds
  rw [signed_eq (by omega)]
  exact Int.bmod_eq_of_le (by omega) (by omega)

/-- Before the limit is reached one more interest may be sent. -/
theorem lt_of_not_ends (hown : w.Owns fields) (hends : fields.ends now = false)
    (hlimited : ∀ parameter startTime, w.command = some (parameter, startTime) → parameter.Kept)
    {parameter : WatchParameter names} {startTime : ℕ} {maxInterestNum : UInt64}
    (hcommand : w.command = some (parameter, startTime))
    (hmax : parameter.maxInterestNum = some maxInterestNum) :
    w.sent < maxInterestNum.toNat := by
  obtain ⟨parameter', startTime', hcommand', rfl⟩ := hown
  obtain ⟨rfl, rfl⟩ := Prod.mk.inj (Option.some.inj (hcommand.symm.trans hcommand'))
  obtain ⟨hne, hlt⟩ := (hlimited _ _ hcommand).maxInterestNum maxInterestNum hmax
  have hsigned := signed_eq hlt
  have hpos : maxInterestNum.toNat ≠ 0 := fun h => hne (UInt64.toNat_inj.mp h)
  unfold WatchFields.ends WatchFields.isMaxInterest at hends
  simp only [Bool.or_eq_false_iff, Bool.and_eq_false_iff, decide_eq_false_iff_not,
    bne_eq_false_iff_eq, WatchFields.configure, hmax, Option.map_some, Option.getD_some] at hends
  omega

/-- The limit speaks of the command and the interests sent. -/
theorem WithinLimit.congr (h : w.WithinLimit) (hcommand : w'.command = w.command)
    (hsent : w'.sent = w.sent) : w'.WithinLimit := by
  intro parameter startTime maxInterestNum hcommand' hmax
  rw [hsent]
  exact h parameter startTime maxInterestNum (hcommand ▸ hcommand') hmax

/-- Nothing that matters here has changed. -/
theorem StartedOnce.congr (h : w.StartedOnce) (hcommand : w'.command = w.command)
    (hpending : w'.pending = w.pending) (hdeletions : w'.deletions = w.deletions)
    (hsent : w'.sent = w.sent) (hinserted : w'.inserted = w.inserted)
    (hrunning : w'.running = true → w.running = true)
    (hentry : w'.entry = none → w.pending = []) : w'.StartedOnce where
  unused hnone := by
    obtain ⟨hp, hd, hs, hi, hr⟩ := h.unused (hcommand ▸ hnone)
    refine ⟨hpending.trans hp, hdeletions.trans hd, hsent.trans hs, hinserted.trans hi, ?_⟩
    exact Bool.eq_false_iff.mpr fun htrue => Bool.eq_false_iff.mp hr (hrunning htrue)
  limited := hcommand ▸ h.limited
  pending_le := hpending ▸ h.pending_le
  deletions hne := by
    obtain ⟨hp, hr⟩ := h.deletions (hdeletions ▸ hne)
    refine ⟨hpending.trans hp, ?_⟩
    exact Bool.eq_false_iff.mpr fun htrue => Bool.eq_false_iff.mp hr (hrunning htrue)
  absent hnone := hpending.trans (hentry hnone)
  within := h.within.congr hcommand hsent

/-- With its one interest ended a watch has none. -/
theorem StartedOnce.eraseIdx_pending (h : w.StartedOnce) {place : ℕ}
    (hplace : place < w.pending.length) : w.pending.eraseIdx place = [] := by
  have hlen := List.length_eraseIdx_of_lt hplace
  have hle := h.pending_le
  exact List.eq_nil_of_length_eq_zero (by omega)

/-- A watch whose interest ends has been started. -/
theorem StartedOnce.command_ne_none (h : w.StartedOnce) {place : ℕ}
    (hplace : place < w.pending.length) : w.command ≠ none := by
  intro hnone
  rw [(h.unused hnone).1] at hplace
  exact absurd hplace (Nat.not_lt_zero place)

/-- An effect on a watch that was started once at most, other than starting it again. -/
theorem StartedOnce.effect (h : w.StartedOnce) (hown : w.running = true → w.Owns fields)
    (heffect : Effect now name w fields event w' fields')
    (hstart : ∀ parameter, event = .start parameter →
      w.command = none ∧ parameter.Kept) : w'.StartedOnce := by
  cases heffect with
  -- the name is unused so far, so the first interest is the only one pending
  | start parameter =>
    obtain ⟨hnone, hlimit⟩ := hstart parameter rfl
    obtain ⟨hpending, hdeletions, hsent, -, -⟩ := h.unused hnone
    refine ⟨nofun, ?_, ?_, ?_, nofun, ?_⟩
    · intro parameter' startTime hcommand
      obtain ⟨rfl, rfl⟩ := Prod.mk.inj (Option.some.inj hcommand)
      exact hlimit
    · change (w.pending ++ [_]).length ≤ 1
      rw [hpending]
      exact le_rfl
    · intro hne
      exact absurd hdeletions hne
    · intro parameter' startTime maxInterestNum hcommand hmax
      obtain ⟨rfl, rfl⟩ := Prod.mk.inj (Option.some.inj hcommand)
      have hne := (hlimit.maxInterestNum maxInterestNum hmax).1
      have hpos : maxInterestNum.toNat ≠ 0 := fun hzero => hne (UInt64.toNat_inj.mp hzero)
      rw [sent_processWatchCommand, hsent]
      omega
  | stop =>
    exact h.congr rfl rfl rfl sent_onStopValidated inserted_onStopValidated nofun nofun
  | check =>
    obtain ⟨response, entry, heq, hinsertNum, hrunning⟩ := w.onCheckValidated_eq
    rw [heq]
    refine h.congr rfl rfl rfl (sent_reply response) (inserted_reply response) ?_ ?_
    · intro htrue
      exact hrunning.symm.trans htrue
    · intro hnone
      have hnone' : entry = none := hnone
      rw [hnone'] at hinsertNum
      exact h.absent (Option.map_eq_none_iff.mp hinsertNum.symm)
  -- the watch was stopped before: its last interest goes and none follows
  | ignored event place hplace hevent hrunning =>
    have hpending := h.eraseIdx_pending hplace
    refine ⟨fun hnone => absurd hnone (h.command_ne_none hplace), h.limited, ?_, ?_, ?_, ?_⟩
    · change (w.pending.eraseIdx place).length ≤ 1
      rw [hpending]
      exact Nat.zero_le 1
    · intro _
      exact ⟨hpending, running_access.trans hrunning⟩
    · nofun
    · exact h.within.congr rfl rfl
  | ended event place hplace hevent hrunning hends =>
    have hpending := h.eraseIdx_pending hplace
    refine ⟨fun hnone => absurd hnone (h.command_ne_none hplace), h.limited, ?_, ?_, nofun, ?_⟩
    · change (w.pending.eraseIdx place).length ≤ 1
      rw [hpending]
      exact Nat.zero_le 1
    · intro _
      exact ⟨hpending, rfl⟩
    · exact h.within.congr rfl (sent_finished _)
  -- the interest that ended is replaced by the next one
  | continued event place interest hplace hevent hrunning hends =>
    have hpending := h.eraseIdx_pending hplace
    refine ⟨fun hnone => absurd hnone (h.command_ne_none hplace), h.limited, ?_, ?_, nofun, ?_⟩
    · change (w.pending.eraseIdx place ++ [interest]).length ≤ 1
      rw [hpending]
      exact le_rfl
    · intro hne
      exact absurd hrunning (by rw [(h.deletions hne).2]; simp)
    · intro parameter startTime maxInterestNum hcommand hmax
      rw [sent_onward]
      exact lt_of_not_ends (hown hrunning) hends h.limited hcommand hmax
  -- a deletion is due only for a watch that has stopped, with nothing pending
  | delete place hplace =>
    have hne : w.deletions ≠ [] := List.ne_nil_of_length_pos (by omega)
    obtain ⟨hpending, hrunning⟩ := h.deletions hne
    refine ⟨fun hnone => absurd (h.unused hnone).2.1 hne, h.limited, h.pending_le, ?_, ?_, ?_⟩
    · intro _
      exact ⟨hpending, rfl⟩
    · intro _
      exact hpending
    · exact h.within.congr rfl rfl

/-- What an event does to the fields: it leaves them alone, it resets them as it stops the watch,
or it makes them those of the watch, which goes on. -/
theorem effect_outcome (h : w.StartedOnce) (hown : w.running = true → w.Owns fields)
    (hidle : ∀ parameter, event = .start parameter → w.command = none ∧ fields.Idle)
    (heffect : Effect now name w fields event w' fields') :
    (w'.running = w.running ∧ fields' = fields ∧ (w.Owns fields → w'.Owns fields)) ∨
    (w'.running = false ∧ fields'.Idle ∧ (w.running = true ∨ event = .stop)) ∨
    (w'.running = true ∧ w'.Owns fields' ∧
      (w.running = true ∨ ∃ parameter, event = .start parameter)) := by
  cases heffect with
  | start parameter =>
    obtain ⟨hnone, t, rfl⟩ := hidle parameter rfl
    obtain ⟨-, -, hsent, hinserted, -⟩ := h.unused hnone
    refine Or.inr (Or.inr ⟨rfl, ⟨parameter, now, rfl, ?_⟩, Or.inr ⟨parameter, rfl⟩⟩)
    rw [sent_processWatchCommand, inserted_processWatchCommand, hsent, hinserted]
    rfl
  | stop => exact Or.inr (Or.inl ⟨rfl, ⟨now, rfl⟩, Or.inr rfl⟩)
  | check =>
    obtain ⟨response, entry, heq, -, hrunning⟩ := w.onCheckValidated_eq
    rw [heq]
    refine Or.inl ⟨hrunning, rfl, ?_⟩
    rintro ⟨parameter, startTime, hcommand, hfields⟩
    refine ⟨parameter, startTime, hcommand, ?_⟩
    have hsent : ({ w.reply response with entry := entry } : Watch names).sent = w.sent :=
      sent_reply response
    have hinserted : ({ w.reply response with entry := entry } : Watch names).inserted =
        w.inserted := inserted_reply response
    rw [hsent, hinserted]
    exact hfields
  -- first outcome: neither the watch nor the fields notice
  | ignored event place hplace hevent hrunning =>
    exact Or.inl ⟨running_access, rfl, id⟩
  -- second outcome: the watch stops and leaves the fields idle
  | ended event place hplace hevent hrunning hends =>
    exact Or.inr (Or.inl ⟨rfl, ⟨now, rfl⟩, Or.inl hrunning⟩)
  -- third outcome: the watch goes on and the fields are still its own
  | continued event place interest hplace hevent hrunning hends =>
    obtain ⟨parameter, startTime, hcommand, hfields⟩ := hown hrunning
    refine Or.inr (Or.inr ⟨(running_onward _ _).trans hrunning,
      ⟨parameter, startTime, hcommand, ?_⟩, Or.inl hrunning⟩)
    rw [sent_onward, inserted_onward, hfields]
    rfl
  | delete place hplace =>
    have hne : w.deletions ≠ [] := List.ne_nil_of_length_pos (by omega)
    exact Or.inl ⟨(h.deletions hne).2.symm, rfl, id⟩

/-- An event of a watch that is not running does not depend on the fields. -/
theorem apply_of_not_running (upTo : names.Component → names.Component → Bool) (now : ℕ)
    (name : names.Name) (hrunning : w.running = false)
    (hevent : ∀ parameter, event ≠ .start parameter) :
    ∃ w', w'.running = false ∧
      ((∀ fields, w.apply upTo now name fields event = some (w', fields)) ∨
        ∀ fields, w.apply upTo now name fields event = some (w', .reset now)) := by
  have hcontra : w.running = true → False := fun h => by simp [hrunning] at h
  have hrefetch : ∀ place (interest : ℤ → WatchInterest names) fields,
      (w.endInterest place).refetch now fields interest =
        ((w.endInterest place).access, fields) := by
    intro place interest fields
    rcases refetch_cases now (w.endInterest place) fields interest with
      ⟨-, heq⟩ | ⟨hgoes, -⟩ | ⟨hgoes, -⟩
    · exact heq
    · exact (hcontra hgoes).elim
    · exact (hcontra hgoes).elim
  -- an interest that ends changes nothing but the list of those out
  have hcallback : ∀ place,
      (∀ fields, w.pending[place]? = none →
        w.apply upTo now name fields event = some (w, fields)) →
      (∀ fields interest, w.pending[place]? = some interest →
        w.apply upTo now name fields event = some ((w.endInterest place).access, fields)) →
      ∃ w', w'.running = false ∧
        ((∀ fields, w.apply upTo now name fields event = some (w', fields)) ∨
          ∀ fields, w.apply upTo now name fields event = some (w', .reset now)) := by
    intro place hnone hsome
    cases hpending : w.pending[place]? with
    | none => exact ⟨w, hrunning, Or.inl fun fields => hnone fields hpending⟩
    | some interest =>
      exact ⟨(w.endInterest place).access, running_access.trans hrunning,
        Or.inl fun fields => hsome fields interest hpending⟩
  cases event with
  | start parameter => exact absurd rfl (hevent parameter)
  | stop => exact ⟨(w.onStopValidated now).1, rfl, Or.inr fun _ => rfl⟩
  | check =>
    obtain ⟨response, entry, heq, -, hsame⟩ := w.onCheckValidated_eq
    refine ⟨w.onCheckValidated, ?_, Or.inl fun _ => rfl⟩
    rw [heq]
    exact hsame.trans hrunning
  | data place packet inserted =>
    refine hcallback place (fun fields hpending => ?_) fun fields interest hpending => ?_
    · simp only [apply, hpending]
    · simp only [apply, hpending]
      rcases onDataValidated_cases upTo now (w.endInterest place) fields interest packet
        inserted with ⟨-, heq⟩ | ⟨hgoes, -⟩ | ⟨hgoes, -⟩ | ⟨hgoes, -⟩
      · exact heq
      · exact (hcontra hgoes).elim
      · exact (hcontra hgoes).elim
      · exact (hcontra hgoes).elim
  | dataInvalid place packet =>
    refine hcallback place (fun fields hpending => ?_) fun fields interest hpending => ?_
    · simp only [apply, hpending]
    · simp only [apply, hpending]
      exact congrArg some (hrefetch place _ fields)
  | timeout place =>
    refine hcallback place (fun fields hpending => ?_) fun fields interest hpending => ?_
    · simp only [apply, hpending]
    · simp only [apply, hpending]
      exact congrArg some (hrefetch place _ fields)
  | delete place => exact ⟨_, rfl, Or.inl fun _ => rfl⟩

end Watch

section Limits

variable {names : NameLibrary}

/-- What makes the fields of a watch end it is its own timeout or its own number of interests. -/
theorem Watch.Owns.ended {now : ℕ} {w : Watch names} {fields : WatchFields} (h : w.Owns fields)
    (hlimited : ∀ parameter startTime, w.command = some (parameter, startTime) → parameter.Kept)
    (hends : fields.ends now = true) : w.TimedOut now ∨ w.CountReached := by
  obtain ⟨parameter, startTime, hcommand, rfl⟩ := h
  have hkept := hlimited parameter startTime hcommand
  -- the fields are those of its command, so the limit that was reached is the limit it set
  rcases (Bool.or_eq_true _ _).mp hends with htimeout | hmax
  · left
    obtain ⟨hne, hlong⟩ := (Bool.and_eq_true _ _).mp htimeout
    cases hparameter : parameter.watchTimeout with
    | none =>
      simp only [WatchFields.configure, hparameter] at hne
      exact absurd hne (by decide)
    | some watchTimeout =>
      simp only [WatchFields.configure, hparameter, Option.map_some, Option.getD_some,
        nanoseconds_signed (hkept.watchTimeout watchTimeout hparameter), decide_eq_true_eq] at hlong
      exact ⟨parameter, startTime, watchTimeout, hcommand, hparameter, by omega⟩
  · right
    obtain ⟨hreached, hne⟩ := (Bool.and_eq_true _ _).mp hmax
    cases hparameter : parameter.maxInterestNum with
    | none =>
      simp only [WatchFields.configure, hparameter] at hne
      exact absurd hne (by decide)
    | some maxInterestNum =>
      simp only [WatchFields.configure, hparameter, Option.map_some, Option.getD_some,
        signed_eq (hkept.maxInterestNum maxInterestNum hparameter).2, decide_eq_true_eq] at hreached
      exact ⟨parameter, startTime, maxInterestNum, hcommand, hparameter, by omega⟩

/-- Only data that came and was stored is stored. -/
theorem exists_of_storedData {event : WatchEvent names} {packet : names.Name}
    (h : event.storedData = some packet) : ∃ place, event = .data place packet true := by
  cases event with
  | data place packet' inserted =>
    cases inserted with
    | false => exact absurd h nofun
    | true =>
      obtain rfl := Option.some.inj h
      exact ⟨place, rfl⟩
  | _ => exact absurd h nofun

/-- The entry keeps the number of packets stored. -/
theorem Watch.ReportsInserted.effect {now : ℕ} {name : names.Name} {w w' : Watch names}
    {fields fields' : WatchFields} {event : WatchEvent names} (h : w.ReportsInserted)
    (honce : w.StartedOnce) (hown : w.running = true → w.Owns fields)
    (heffect : Effect now name w fields event w' fields')
    (hstart : ∀ parameter, event = .start parameter → w.command = none)
    (hstop : event = .stop → w.entry = none → w.inserted = 0)
    (hdata : event.storedData.isSome → w.running = true → fields.ends now = false) :
    w'.ReportsInserted := by
  -- the entry of a watch with an interest out has not been made up
  have hentry : ∀ place < w.pending.length,
      (w.entry.getD .absent).response.insertNum.getD 0 = w.inserted := by
    intro place hplace
    cases hentry : w.entry with
    | none =>
      rw [honce.absent hentry] at hplace
      exact absurd hplace (Nat.not_lt_zero place)
    | some entry => exact h entry hentry
  intro entry' hentry'
  cases heffect with
  | start parameter =>
    obtain rfl := Option.some.inj hentry'
    rw [Watch.inserted_processWatchCommand, (honce.unused (hstart parameter rfl)).2.2.2.1]
    rfl
  | stop =>
    obtain rfl := Option.some.inj hentry'
    rw [Watch.inserted_onStopValidated]
    cases hnone : w.entry with
    | none => exact (hstop rfl hnone).symm
    | some entry => exact h entry hnone
  | check =>
    obtain ⟨response, entry, hcheck, hsame, -⟩ := w.onCheckValidated_eq
    have hinserted : ({ w.reply response with entry := entry } : Watch names).inserted =
        w.inserted := Watch.inserted_reply response
    rw [hcheck] at hentry' ⊢
    rw [hinserted]
    have hentry'' : entry = some entry' := hentry'
    rw [hentry''] at hsame
    obtain ⟨old, hold, heq⟩ := Option.map_eq_some_iff.mp hsame.symm
    have hnum : old.response.insertNum = entry'.response.insertNum := heq
    rw [← hnum]
    exact h old hold
  | ignored event place hplace hevent hrunning =>
    obtain rfl := Option.some.inj hentry'
    exact hentry place hplace
  | ended event place hplace hevent hrunning hends =>
    obtain rfl := Option.some.inj hentry'
    have hnone : event.storedData = none := by
      by_contra hsome
      have hfalse := hdata (Option.isSome_iff_ne_none.mpr hsome) hrunning
      exact absurd (hfalse.symm.trans hends) (by simp)
    rw [Watch.inserted_finished, hnone]
    exact hentry place hplace
  | continued event place interest hplace hevent hrunning hends =>
    obtain rfl := Option.some.inj hentry'
    obtain ⟨parameter, startTime, -, rfl⟩ := hown hrunning
    rw [Watch.inserted_onward]
    cases hstored : event.storedData with
    | none => exact hentry place hplace
    | some packet => rfl
  | delete place hplace => exact absurd hentry' nofun

end Limits

end OpenGeoBase
