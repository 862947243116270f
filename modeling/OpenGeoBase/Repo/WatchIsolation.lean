import OpenGeoBase.Repo.WatchEffect

/-!
# Watches on different names

The entries of the watch handle are kept apart by their names, its counters and limits are not.
As long as there is never more than one watch running (`Separate`), the fields are those of the
watch that runs, or as `watchStop` leaves them. This is `Apart`, and with it the run of a watch is
matched, event by event, by the run that it would have alone (`MatchesAlone`), where the fields
are the same while it is running and idle while it is not.
-/

namespace OpenGeoBase

open Transition

/-! ### The handle -/

namespace WatchHandle

variable {names : NameLibrary} {upTo : names.Component → names.Component → Bool}
  {s : WatchHandle names} {op : WatchOp names}

/-- Watches do not overlap: a watch command comes when no watch is running, with limits that the
handle keeps; a stop command comes when no other watch is running. -/
def Separate (s : WatchHandle names) : WatchOp names → Prop
  | .watch _ (.start parameter) =>
    (∀ name, (s.watches name).running = false) ∧ parameter.Kept
  | .watch name .stop => ∀ name', name' ≠ name → (s.watches name').running = false
  | _ => True

/-- At most one watch is running, and the fields are its own. -/
structure Apart (s : WatchHandle names) : Prop where
  once : ∀ name, (s.watches name).StartedOnce
  alone : ∀ name name', (s.watches name).running = true → (s.watches name').running = true →
    name = name'
  idle : (∀ name, (s.watches name).running = false) → s.fields.Idle
  own : ∀ name, (s.watches name).running = true → (s.watches name).Owns s.fields

/-- In the beginning the watches are apart. -/
theorem apart_start (names : NameLibrary) : (start names).Apart where
  once _ := Watch.startedOnce_empty
  alone _ _ h := absurd h (by simp [start, Watch.empty, Watch.running])
  idle _ := ⟨0, rfl⟩
  own _ h := absurd h (by simp [start, Watch.empty, Watch.running])

/-- When a watch starts, stops or runs, no other watch is running. -/
theorem Apart.others (h : s.Apart) {name : names.Name} {event : WatchEvent names}
    (hok : s.Separate (.watch name event))
    (hcase : (s.watches name).running = true ∨ event = .stop ∨
      ∃ parameter, event = .start parameter) {name' : names.Name} (hne : name' ≠ name) :
    (s.watches name').running = false := by
  rcases hcase with hrunning | rfl | ⟨parameter, rfl⟩
  · exact Bool.eq_false_iff.mpr fun htrue => hne (h.alone name' name htrue hrunning)
  · exact hok name' hne
  · exact hok.1 name'

/-- The outcome of an event for its own watch. -/
theorem Apart.outcome (h : s.Apart) {name : names.Name} {event : WatchEvent names}
    {w : Watch names} {fields : WatchFields} (henabled : s.Enabled (.watch name event))
    (hok : s.Separate (.watch name event))
    (hdistinct : ∀ parameter, event = .start parameter → (s.watches name).command = none)
    (happly : (s.watches name).apply upTo s.now name s.fields event = some (w, fields)) :
    (w.running = (s.watches name).running ∧ fields = s.fields ∧
      ((s.watches name).Owns s.fields → w.Owns s.fields)) ∨
    (w.running = false ∧ fields.Idle ∧ ((s.watches name).running = true ∨ event = .stop)) ∨
    (w.running = true ∧ w.Owns fields ∧
      ((s.watches name).running = true ∨ ∃ parameter, event = .start parameter)) := by
  refine Watch.effect_outcome (h.once name) (h.own name) ?_ (effect_of_apply henabled happly)
  rintro parameter rfl
  exact ⟨hdistinct parameter rfl, h.idle hok.1⟩

section Put

variable {name : names.Name} {w : Watch names} {fields : WatchFields}
  (honce : ∀ name', ((s.put name w fields).watches name').StartedOnce)
include honce

/-- The same watches are running, with the same fields. -/
theorem Apart.put_same (h : s.Apart) (hrunning : w.running = (s.watches name).running)
    (hfields : fields = s.fields) (hown : (s.watches name).Owns s.fields → w.Owns s.fields) :
    (s.put name w fields).Apart := by
  subst hfields
  -- Each watch runs exactly if it did before.
  have hsame : ∀ name', ((s.put name w s.fields).watches name').running =
      (s.watches name').running := by
    intro name'
    by_cases heq : name' = name
    · rw [heq, watches_put_self, hrunning]
    · rw [watches_put_of_ne s w s.fields heq]
  refine ⟨honce, fun name₁ name₂ h₁ h₂ => ?_, fun hnone => ?_, fun name' h' => ?_⟩
  · exact h.alone name₁ name₂ ((hsame name₁).symm.trans h₁) ((hsame name₂).symm.trans h₂)
  · exact h.idle fun name' => (hsame name').symm.trans (hnone name')
  · rw [hsame name'] at h'
    by_cases heq : name' = name
    · subst heq
      rw [watches_put_self]
      exact hown (h.own name' h')
    · rw [watches_put_of_ne s w s.fields heq]
      exact h.own name' h'

/-- Nobody is running any more. -/
theorem Apart.put_stopped (hothers : ∀ name', name' ≠ name → (s.watches name').running = false)
    (hstopped : w.running = false) (hidle : fields.Idle) : (s.put name w fields).Apart := by
  have hnone : ∀ name', ((s.put name w fields).watches name').running = false := by
    intro name'
    by_cases heq : name' = name
    · rw [heq, watches_put_self, hstopped]
    · rw [watches_put_of_ne s w fields heq]
      exact hothers name' heq
  refine ⟨honce, fun name₁ _ h₁ _ => ?_, fun _ => hidle, fun name' h' => ?_⟩
  · exact absurd ((hnone name₁).symm.trans h₁) (by simp)
  · exact absurd ((hnone name').symm.trans h') (by simp)

/-- Only this watch is running. -/
theorem Apart.put_running (hothers : ∀ name', name' ≠ name → (s.watches name').running = false)
    (hgoes : w.running = true) (hown : w.Owns fields) : (s.put name w fields).Apart := by
  -- The new watch is the only one that runs.
  have honly : ∀ name', ((s.put name w fields).watches name').running = true → name' = name := by
    intro name' h'
    by_contra heq
    rw [watches_put_of_ne s w fields heq, hothers name' heq] at h'
    exact absurd h' (by simp)
  refine ⟨honce, fun name₁ name₂ h₁ h₂ => ?_, fun hnone => ?_, fun name' h' => ?_⟩
  · rw [honly name₁ h₁, honly name₂ h₂]
  · have hfalse := hnone name
    rw [watches_put_self, hgoes] at hfalse
    exact absurd hfalse (by simp)
  · obtain rfl := honly name' h'
    rw [watches_put_self]
    exact hown

end Put

/-- One event, other than starting a watch again. -/
theorem Apart.next (h : s.Apart) (henabled : s.Enabled op) (hok : s.Separate op)
    (hdistinct : ∀ name parameter, op = .watch name (.start parameter) →
      (s.watches name).command = none) : (s.next upTo op).Apart := by
  cases op with
  | advance d => exact ⟨h.once, h.alone, h.idle, h.own⟩
  | watch name event =>
    cases happly : (s.watches name).apply upTo s.now name s.fields event with
    | none =>
      rw [next_of_none happly]
      exact ⟨h.once, h.alone, h.idle, h.own⟩
    | some next =>
      obtain ⟨w, fields⟩ := next
      rw [next_of_some happly]
      have hdistinct' : ∀ parameter, event = .start parameter →
          (s.watches name).command = none := by
        rintro parameter rfl
        exact hdistinct name parameter rfl
      -- A watch that starts had no command before; any other event leaves its starts as they are.
      have honce : ∀ name', ((s.put name w fields).watches name').StartedOnce := by
        intro name'
        by_cases heq : name' = name
        · rw [heq, watches_put_self]
          refine (h.once name).effect (h.own name) (effect_of_apply henabled happly) ?_
          rintro parameter rfl
          exact ⟨hdistinct' parameter rfl, hok.2⟩
        · rw [watches_put_of_ne s w fields heq]
          exact h.once name'
      -- The watch keeps running or not, or it stops and the fields are reset, or it starts while no
      -- other runs.
      rcases h.outcome henabled hok hdistinct' happly with
        ⟨hrunning, hfields, hown⟩ | ⟨hstopped, hidle, hcase⟩ | ⟨hgoes, hown, hcase⟩
      · exact Apart.put_same honce h hrunning hfields hown
      · exact Apart.put_stopped honce (fun _ => h.others hok (hcase.imp_right Or.inl)) hstopped
          hidle
      · exact Apart.put_running honce (fun _ => h.others hok (hcase.imp_right Or.inr)) hgoes hown

end WatchHandle

/-! ### One watch alone -/

/-- The event, if it concerns the watch of the name. -/
def WatchOp.forName {names : NameLibrary} (name : names.Name) :
    WatchOp names → Option (WatchOp names)
  | .advance d => some (.advance d)
  | .watch name' event => if name' = name then some (.watch name' event) else none

/-- The runs of the handle in which the watches are on different names. -/
def distinctWatches {names : NameLibrary} (upTo : names.Component → names.Component → Bool) :
    System (WatchHandle names) (WatchOp names) where
  init := (watchHandle upTo).init
  step s op s' := (watchHandle upTo).step s op s' ∧
    ∀ name parameter, op = .watch name (.start parameter) → (s.watches name).command = none

namespace WatchHandle

variable {names : NameLibrary} {upTo : names.Component → names.Component → Bool}
  {name : names.Name} {s t : WatchHandle names} {op : WatchOp names}

/-- The watch of a name has had the same run in both handles, in the second of them alone. -/
structure MatchesAlone (name : names.Name) (s t : WatchHandle names) : Prop where
  apart : s.Apart
  now : t.now = s.now
  watch : t.watches name = s.watches name
  alive : s.aborted = false → t.aborted = false
  fields : (s.watches name).running = true → t.fields = s.fields
  idle : (s.watches name).running = false → t.fields.Idle

/-- Idle fields are configured in the same way. -/
theorem configure_eq_of_idle {fields fields' : WatchFields} (h : fields.Idle) (h' : fields'.Idle)
    (now : ℕ) (parameter : WatchParameter names) :
    fields.configure now parameter = fields'.configure now parameter := by
  obtain ⟨t, rfl⟩ := h
  obtain ⟨t', rfl⟩ := h'
  rfl

/-- An event for another name changes nothing for the watch. -/
theorem MatchesAlone.other (h : MatchesAlone name s t) {name' : names.Name}
    {event : WatchEvent names} (hne : name' ≠ name) (henabled : s.Enabled (.watch name' event))
    (hok : s.Separate (.watch name' event))
    (hdistinct : ∀ parameter, event = .start parameter → (s.watches name').command = none) :
    MatchesAlone name (s.next upTo (.watch name' event)) t := by
  have hapart : (s.next upTo (.watch name' event)).Apart := by
    refine h.apart.next henabled hok ?_
    rintro _ parameter ⟨⟩
    exact hdistinct parameter rfl
  cases happly : (s.watches name').apply upTo s.now name' s.fields event with
  | none =>
    rw [next_of_none happly] at hapart ⊢
    exact ⟨hapart, h.now, h.watch, nofun, h.fields, h.idle⟩
  | some next =>
    obtain ⟨w, fields⟩ := next
    rw [next_of_some happly] at hapart ⊢
    have hwatch : (s.put name' w fields).watches name = s.watches name :=
      watches_put_of_ne s w fields hne.symm
    refine ⟨hapart, h.now, h.watch.trans hwatch.symm, h.alive, ?_, ?_⟩
    · intro hrunning
      rw [hwatch] at hrunning
      rw [h.fields hrunning]
      -- the watch is running, so the other one neither is nor starts or stops
      have hidle : ¬((s.watches name').running = true ∨ event = .stop ∨
          ∃ parameter, event = .start parameter) := fun hcase =>
        absurd ((h.apart.others hok hcase hne.symm).symm.trans hrunning) (by simp)
      rcases h.apart.outcome henabled hok hdistinct happly with
        ⟨-, hsame, -⟩ | ⟨-, -, hcase⟩ | ⟨-, -, hcase⟩
      · exact hsame.symm
      · exact absurd (hcase.imp_right Or.inl) hidle
      · exact absurd (hcase.imp_right Or.inr) hidle
    · intro hrunning
      rw [hwatch] at hrunning
      exact h.idle hrunning

/-- An event of the watch itself, while it is running: the fields are the same in both handles, and
so is everything. -/
theorem MatchesAlone.own_running (h : MatchesAlone name s t) {event : WatchEvent names}
    (henabled : s.Enabled (.watch name event)) (hok : s.Separate (.watch name event))
    (hdistinct : ∀ parameter, event = .start parameter → (s.watches name).command = none)
    (hapart : (s.next upTo (.watch name event)).Apart)
    (hrunning : (s.watches name).running = true) :
    MatchesAlone name (s.next upTo (.watch name event)) (t.next upTo (.watch name event)) := by
  -- A running watch has the fields it would have alone, so the event does the same in both runs.
  have happly' : (t.watches name).apply upTo t.now name t.fields event =
      (s.watches name).apply upTo s.now name s.fields event := by
    rw [h.watch, h.now, h.fields hrunning]
  cases happly : (s.watches name).apply upTo s.now name s.fields event with
  | none =>
    rw [next_of_none happly] at hapart ⊢
    rw [next_of_none (happly'.trans happly)]
    have halive : ({ s with aborted := true } : WatchHandle names).aborted = false →
        ({ t with aborted := true } : WatchHandle names).aborted = false := id
    exact ⟨hapart, h.now, h.watch, halive, h.fields, h.idle⟩
  | some next =>
    obtain ⟨w, fields⟩ := next
    rw [next_of_some happly] at hapart ⊢
    rw [next_of_some (happly'.trans happly)]
    refine ⟨hapart, h.now, ?_, h.alive, fun _ => rfl, ?_⟩
    · rw [watches_put_self, watches_put_self]
    · rw [watches_put_self]
      intro hstopped
      rcases h.apart.outcome henabled hok hdistinct happly with
        ⟨hsame, -, -⟩ | ⟨-, hidle, -⟩ | ⟨hgoes, -, -⟩
      · exact absurd (hstopped.symm.trans (hsame.trans hrunning)) (by simp)
      · exact hidle
      · exact absurd (hstopped.symm.trans hgoes) (by simp)

/-- While it is not running, nothing but its start depends on the fields. -/
theorem MatchesAlone.own_stopped (h : MatchesAlone name s t) {event : WatchEvent names}
    (hevent : ∀ parameter, event ≠ .start parameter)
    (hapart : (s.next upTo (.watch name event)).Apart)
    (hrunning : (s.watches name).running = false) :
    MatchesAlone name (s.next upTo (.watch name event)) (t.next upTo (.watch name event)) := by
  obtain ⟨w, hw, happly⟩ := Watch.apply_of_not_running upTo s.now name hrunning hevent
  -- A stopped watch does not look at the fields, and keeps them as they are in both runs.
  have hmatch : ∀ fields fields' : WatchFields, fields'.Idle →
      (s.watches name).apply upTo s.now name s.fields event = some (w, fields) →
      (s.watches name).apply upTo s.now name t.fields event = some (w, fields') →
      MatchesAlone name (s.next upTo (.watch name event))
        (t.next upTo (.watch name event)) := by
    intro fields fields' hidle hs ht
    rw [← h.watch, ← h.now] at ht
    rw [next_of_some hs] at hapart ⊢
    rw [next_of_some ht]
    refine ⟨hapart, h.now, ?_, h.alive, ?_, fun _ => hidle⟩
    · rw [watches_put_self, watches_put_self]
    · rw [watches_put_self, hw]
      exact fun hgoes => absurd hgoes Bool.false_ne_true
  rcases happly with happly | happly
  · exact hmatch _ _ (h.idle hrunning) (happly _) (happly _)
  · exact hmatch _ _ ⟨s.now, rfl⟩ (happly _) (happly _)

/-- The watch starts, with idle fields in both handles. -/
theorem MatchesAlone.own_start (h : MatchesAlone name s t) {parameter : WatchParameter names}
    (hok : s.Separate (.watch name (.start parameter)))
    (hapart : (s.next upTo (.watch name (.start parameter))).Apart)
    (hrunning : (s.watches name).running = false) :
    MatchesAlone name (s.next upTo (.watch name (.start parameter)))
      (t.next upTo (.watch name (.start parameter))) := by
  -- The fields are idle in both runs, so the start sets them to the same values.
  have happly' : (t.watches name).apply upTo t.now name t.fields (.start parameter) =
      (s.watches name).apply upTo s.now name s.fields (.start parameter) := by
    rw [h.watch, h.now]
    simp only [Watch.apply, Watch.processWatchCommand]
    rw [configure_eq_of_idle (h.idle hrunning) (h.apart.idle hok.1)]
  obtain ⟨w, fields, happly⟩ : ∃ w fields,
      (s.watches name).apply upTo s.now name s.fields (.start parameter) =
        some (w, fields) := ⟨_, _, rfl⟩
  have hgoes : w.running = true := by
    obtain ⟨rfl, -⟩ := Prod.mk.inj (Option.some.inj happly)
    rfl
  rw [next_of_some happly] at hapart ⊢
  rw [next_of_some (happly'.trans happly)]
  refine ⟨hapart, h.now, ?_, h.alive, fun _ => rfl, ?_⟩
  · rw [watches_put_self, watches_put_self]
  · rw [watches_put_self, hgoes]
    exact fun hstopped => absurd hstopped.symm Bool.false_ne_true

/-- An event of the watch itself does the same in both handles. -/
theorem MatchesAlone.own (h : MatchesAlone name s t) {event : WatchEvent names}
    (henabled : s.Enabled (.watch name event)) (hok : s.Separate (.watch name event))
    (hdistinct : ∀ parameter, event = .start parameter → (s.watches name).command = none) :
    MatchesAlone name (s.next upTo (.watch name event)) (t.next upTo (.watch name event)) := by
  have hapart : (s.next upTo (.watch name event)).Apart := by
    refine h.apart.next henabled hok ?_
    rintro _ parameter ⟨⟩
    exact hdistinct parameter rfl
  -- The shared fields are those of the watch while it runs; when it does not run only a start reads
  -- them.
  cases hrunning : (s.watches name).running with
  | true => exact h.own_running henabled hok hdistinct hapart hrunning
  | false =>
    by_cases hevent : ∀ parameter, event ≠ .start parameter
    · exact h.own_stopped hevent hapart hrunning
    · push Not at hevent
      obtain ⟨parameter, rfl⟩ := hevent
      exact h.own_start hok hapart hrunning

end WatchHandle

/-! ### Watches apart -/

section Isolation

open WatchHandle

variable {names : NameLibrary} {upTo : names.Component → names.Component → Bool}
  {s : WatchHandle names} {op : WatchOp names}

/-- The watch of a name has come to what it comes to in the run of its own events alone. -/
def AsAlone (upTo : names.Component → names.Component → Bool) (name : names.Name)
    (h : List (WatchHandle names × WatchOp names)) (s : WatchHandle names) : Prop :=
  ∃ h' t, Run (watchHandle upTo) h' t ∧
    h'.map Prod.snd = (h.map Prod.snd).filterMap (WatchOp.forName name) ∧
    t.watches name = s.watches name

/-- An event that can occur stops no watch but by its own stop command, its own timeout or its
own number of interests. -/
def StopsByItself (upTo : names.Component → names.Component → Bool) (s : WatchHandle names)
    (op : WatchOp names) : Prop :=
  s.Enabled op → ∀ name, (s.watches name).running = true →
    ((s.next upTo op).watches name).running = false →
    op = .watch name .stop ∨ ∃ event, op = .watch name event ∧ event.isCallback = true ∧
      ((s.watches name).TimedOut s.now ∨ (s.watches name).CountReached)

/-- No watch is ended by a packet that is stored, and an entry is not made up by a stop command
after packets have been stored. -/
def CountsLast (s : WatchHandle names) : WatchOp names → Prop
  | .watch name (.data _ _ inserted) => (s.watches name).running = true → inserted = true →
    s.fields.ends s.now = false
  | .watch name .stop => (s.watches name).entry = none → (s.watches name).inserted = 0
  | _ => True

/-- In a run of separate steps every watch is as it would be alone. -/
theorem asAlone_of_run {h : List (WatchHandle names × WatchOp names)}
    (hrun : Run (distinctWatches upTo) h s) (hok : Admitted WatchHandle.Separate h)
    (name : names.Name) : AsAlone upTo name h s := by
  -- simulation: the events of this name are steps alone, those of other names are no step
  have hsim := hrun.simulate (T := watchHandle upTo) (f := WatchOp.forName name)
    (R := MatchesAlone name) ?_ ?_ hok
  · obtain ⟨h', t, hrun', hlabels, hmatch⟩ := hsim
    exact ⟨h', t, hrun', hlabels, hmatch.watch⟩
  · rintro _ rfl
    exact ⟨_, rfl, apart_start names, rfl, rfl, id, fun _ => rfl, fun _ => ⟨0, rfl⟩⟩
  · rintro s op _ t hmatch hok ⟨⟨halive, henabled, rfl⟩, hdistinct⟩
    cases op with
    -- time passes for both, and a pass of time touches no field
    | advance d =>
      refine Or.inr ⟨_, _, rfl, ⟨hmatch.alive halive, trivial, rfl⟩, ?_⟩
      exact ⟨hmatch.apart.next henabled hok hdistinct, congrArg (· + d) hmatch.now, hmatch.watch,
        hmatch.alive, hmatch.fields, hmatch.idle⟩
    | watch name' event =>
      have hdistinct' : ∀ parameter, event = .start parameter →
          (s.watches name').command = none := by
        rintro parameter rfl
        exact hdistinct name' parameter rfl
      -- its own event is the same step alone; another's leaves the match as it is
      by_cases heq : name' = name
      · subst heq
        refine Or.inr ⟨_, _, if_pos rfl, ⟨hmatch.alive halive, ?_, rfl⟩,
          hmatch.own henabled hok hdistinct'⟩
        change (t.watches name').Enabled t.now event
        rw [hmatch.watch, hmatch.now]
        exact henabled
      · exact Or.inl ⟨if_neg heq, hmatch.other heq henabled hok hdistinct'⟩

/-- A watch apart from the others is stopped only by itself. -/
theorem stopsByItself_of_apart (h : s.Apart) (hok : s.Separate op) : StopsByItself upTo s op := by
  intro henabled name hrunning hstopped
  -- most events leave the watch running, against `hstopped`
  have hcontra : ∀ {b : Bool}, b = true → b = false → False := by simp
  cases op with
  | advance d => exact (hcontra hrunning hstopped).elim
  | watch name' event =>
    by_cases heq : name = name'
    swap
    · rw [watches_next_of_ne event heq] at hstopped
      exact (hcontra hrunning hstopped).elim
    subst heq
    rw [watches_next_self] at hstopped
    cases happly : (s.watches name).apply upTo s.now name s.fields event with
    | none =>
      rw [happly] at hstopped
      exact (hcontra hrunning hstopped).elim
    | some next =>
      obtain ⟨w, fields⟩ := next
      rw [happly, Option.map_some, Option.getD_some] at hstopped
      cases effect_of_apply henabled happly with
      | start parameter => exact absurd hstopped (by simp [Watch.processWatchCommand,
          Watch.expressInterest, Watch.output, Watch.running])
      | stop => exact Or.inl rfl
      | check =>
        obtain ⟨response, entry, hcheck, -, hsame⟩ := (s.watches name).onCheckValidated_eq
        rw [hcheck] at hstopped
        exact (hcontra hrunning (hsame.symm.trans hstopped)).elim
      | ignored event place hplace hevent hidle => exact (hcontra hrunning hidle).elim
      -- the fields are its own, so the end they reached is its own timeout or count
      | ended event place hplace hevent _ hends =>
        exact Or.inr ⟨event, rfl, hevent, (h.own name hrunning).ended (h.once name).limited hends⟩
      | continued event place interest hplace hevent _ hends =>
        rw [Watch.running_onward] at hstopped
        exact (hcontra hrunning hstopped).elim
      | delete place hplace =>
        have hne : (s.watches name).deletions ≠ [] := List.ne_nil_of_length_pos (by omega)
        exact (hcontra hrunning ((h.once name).deletions hne).2).elim

/-- What it means that watches do not interfere. -/
structure Isolated (upTo : names.Component → names.Component → Bool)
    (h : List (WatchHandle names × WatchOp names)) (s : WatchHandle names) : Prop where
  alone : ∀ name, AsAlone upTo name h s
  within : Throughout (fun s => ∀ name, (s.watches name).WithinLimit) h s
  stops : Admitted (StopsByItself upTo) h
  reports : Throughout (fun s => ∀ name, (s.watches name).ReportsInserted) h s

/-- A run of separate steps keeps the watches apart. -/
theorem apart_of_run {h : List (WatchHandle names × WatchOp names)}
    (hrun : Run (distinctWatches upTo) h s) (hok : Admitted WatchHandle.Separate h) :
    Throughout Apart h s := by
  refine hrun.throughout (I := Apart) ?_ (fun _ => id) ?_ hok
  · rintro _ rfl
    exact apart_start names
  · rintro s op _ hI hok ⟨⟨-, henabled, rfl⟩, hdistinct⟩
    exact hI.next henabled hok hdistinct

/-- One event keeps the numbers that are reported. -/
theorem reportsInserted_next (h : s.Apart) (hreports : ∀ name, (s.watches name).ReportsInserted)
    (henabled : s.Enabled op) (hlast : CountsLast s op)
    (hdistinct : ∀ name parameter, op = .watch name (.start parameter) →
      (s.watches name).command = none) (name : names.Name) :
    ((s.next upTo op).watches name).ReportsInserted := by
  cases op with
  | advance d => exact hreports name
  | watch name' event =>
    -- Only the watch the event is for changes its count.
    by_cases heq : name = name'
    · subst heq
      rw [watches_next_self]
      cases happly : (s.watches name).apply upTo s.now name s.fields event with
      | none => exact hreports name
      | some next =>
        refine (hreports name).effect (h.once name) (h.own name)
          (effect_of_apply henabled happly) ?_ ?_ ?_
        · rintro parameter rfl
          exact hdistinct name parameter rfl
        · rintro rfl
          exact hlast
        · -- what is stored has come in a packet
          intro hstored hrunning
          obtain ⟨packet, hpacket⟩ := Option.isSome_iff_exists.mp hstored
          obtain ⟨place, rfl⟩ := exists_of_storedData hpacket
          exact hlast hrunning rfl
    · rw [watches_next_of_ne event heq]
      exact hreports name

/-- **Watches on different names.** In every run in which the watches do not overlap, and in which
what a watch stores is counted last, each watch comes to what it comes to alone, sends no more
interests than it was asked to, is stopped by nothing but its own stop command, timeout or number
of interests, and has an entry that reports the number of packets it has stored. -/
theorem isolated_of_separate {h : List (WatchHandle names × WatchOp names)}
    (hrun : Run (distinctWatches upTo) h s) (hok : Admitted WatchHandle.Separate h)
    (hlast : Admitted CountsLast h) : Isolated upTo h s where
  alone := asAlone_of_run hrun hok
  within :=
    ⟨fun e he name => (((apart_of_run hrun hok).1 e he).once name).within,
      fun name => ((apart_of_run hrun hok).2.once name).within⟩
  stops e he := stopsByItself_of_apart ((apart_of_run hrun hok).1 e he) (hok e he)
  reports := by
    -- The reports need both conditions at every step.
    have hboth : Admitted (fun s op => s.Separate op ∧ CountsLast s op) h :=
      fun e he => ⟨hok e he, hlast e he⟩
    refine hrun.throughout
      (I := fun s => s.Apart ∧ ∀ name, (s.watches name).ReportsInserted) ?_
      (fun s hI => hI.2) ?_ hboth
    · rintro _ rfl
      exact ⟨apart_start names, fun name entry hentry => absurd hentry nofun⟩
    · rintro s op _ ⟨hI, hreports⟩ ⟨hok, hlast⟩ ⟨⟨-, henabled, rfl⟩, hdistinct⟩
      exact ⟨hI.next henabled hok hdistinct,
        reportsInserted_next hI hreports henabled hlast hdistinct⟩

end Isolation

section Examples

open WatchHandle

private def sameOnly (c c' : octetNames.Component) : Bool := c == c'

/-- A watch without limits. -/
private def forever : WatchParameter octetNames := ⟨none, none, none, none⟩

/-- A watch for two interests. -/
private def twice : WatchParameter octetNames := ⟨none, some 2, none, none⟩

private theorem kept_forever : forever.Kept := ⟨nofun, nofun⟩

private theorem kept_twice : twice.Kept where
  maxInterestNum n h := by
    obtain rfl := Option.some.inj h
    decide
  watchTimeout := nofun

private def noWatch : WatchHandle octetNames := .start octetNames

private def rootStarted : WatchHandle octetNames :=
  noWatch.next sameOnly (.watch [] (.start twice))

private def rootStored : WatchHandle octetNames :=
  rootStarted.next sameOnly (.watch [] (.data 0 [[1]] true))

private def rootStopped : WatchHandle octetNames := rootStored.next sameOnly (.watch [] .stop)

/-- A watch stores a packet and is stopped, then another one starts. -/
theorem isolated_one_after_another :
    ∃ s, Isolated sameOnly [(noWatch, .watch [] (.start twice)),
      (rootStarted, .watch [] (.data 0 [[1]] true)), (rootStored, .watch [] .stop),
      (rootStopped, .watch [[1]] (.start forever))] s ∧ (s.watches []).inserted = 1 := by
  have hinit : Run (distinctWatches sameOnly) [] noWatch := .nil rfl
  have hstarted := hinit.snoc (a := WatchOp.watch [] (.start twice))
    ⟨⟨rfl, trivial, rfl⟩, fun _ _ _ => rfl⟩
  have hstored := hstarted.snoc (a := WatchOp.watch [] (.data 0 [[1]] true))
    ⟨⟨rfl, ⟨_, rfl, List.nil_prefix⟩, rfl⟩, nofun⟩
  have hstopped := hstored.snoc (a := WatchOp.watch [] .stop) ⟨⟨rfl, trivial, rfl⟩, nofun⟩
  have hother := hstopped.snoc (a := WatchOp.watch [[1]] (.start forever))
    ⟨⟨rfl, trivial, rfl⟩, fun name _ h => by cases h; rfl⟩
  -- no other watch runs while the first one does
  have hothers : ∀ name, name ≠ [] → (rootStored.watches name).running = false := by
    intro name hne
    change ((rootStarted.next sameOnly _).watches name).running = false
    rw [watches_next_of_ne _ hne]
    change ((noWatch.next sameOnly _).watches name).running = false
    rw [watches_next_of_ne _ hne]
    rfl
  refine ⟨_, isolated_of_separate hother ?_ ?_, rfl⟩
  · refine List.forall_mem_cons.mpr ⟨⟨fun _ => rfl, kept_twice⟩, List.forall_mem_cons.mpr
      ⟨trivial, List.forall_mem_cons.mpr ⟨hothers, List.forall_mem_singleton.mpr
        ⟨?_, kept_forever⟩⟩⟩⟩
    intro name
    by_cases heq : name = []
    · rw [heq]
      rfl
    · change ((rootStored.next sameOnly (.watch [] .stop)).watches name).running = false
      rw [watches_next_of_ne _ heq]
      exact hothers name heq
  · refine List.forall_mem_cons.mpr ⟨trivial, List.forall_mem_cons.mpr ⟨fun _ _ => rfl, ?_⟩⟩
    refine List.forall_mem_cons.mpr ⟨fun hnone => ?_, List.forall_mem_singleton.mpr trivial⟩
    exact absurd (congrArg Option.isSome hnone) (by decide)

private def foreverStarted : WatchHandle octetNames :=
  noWatch.next sameOnly (.watch [] (.start forever))

private def bothStarted : WatchHandle octetNames :=
  foreverStarted.next sameOnly (.watch [[1]] (.start twice))

/-- A watch without limits is stopped by the limit of another. -/
theorem stopped_by_other_watch :
    ∃ h s, Run (distinctWatches sameOnly) h s ∧ ¬Isolated sameOnly h s := by
  have hinit : Run (distinctWatches sameOnly) [] noWatch := .nil rfl
  -- The first watch has no limit; the second sets the shared fields to two interests; a timeout of
  -- the first then finds them used up.
  have hfirst := hinit.snoc (a := WatchOp.watch [] (.start forever))
    ⟨⟨rfl, trivial, rfl⟩, fun _ _ _ => rfl⟩
  have hsecond := hfirst.snoc (a := WatchOp.watch [[1]] (.start twice))
    ⟨⟨rfl, trivial, rfl⟩, fun name _ h => by cases h; rfl⟩
  have htimeout := hsecond.snoc (a := WatchOp.watch [] (.timeout 0))
    ⟨⟨rfl, Nat.zero_lt_one, rfl⟩, nofun⟩
  refine ⟨_, _, htimeout, fun hisolated => ?_⟩
  have hstops : StopsByItself sameOnly bothStarted (.watch [] (.timeout 0)) :=
    hisolated.stops (bothStarted, .watch [] (.timeout 0)) (.tail _ (.tail _ (.head _)))
  rcases hstops Nat.zero_lt_one [] rfl rfl with hstop | ⟨event, -, -, hown⟩
  · exact absurd hstop nofun
  · -- neither a timeout nor a number of interests was given
    rcases hown with ⟨parameter, startTime, limit, hcommand, hlimit, -⟩ |
      ⟨parameter, startTime, limit, hcommand, hlimit, -⟩
    · obtain ⟨rfl, -⟩ := Prod.mk.inj (Option.some.inj hcommand)
      exact absurd hlimit nofun
    · obtain ⟨rfl, -⟩ := Prod.mk.inj (Option.some.inj hcommand)
      exact absurd hlimit nofun

end Examples

end OpenGeoBase
