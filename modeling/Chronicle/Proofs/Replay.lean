import Chronicle.Proofs.History.Mildness
import Chronicle.Proofs.History.Noting
import Chronicle.Proofs.History.Siting
import Chronicle.Replay

/-!
# How a build ends

A build skips what fails for a reason of its own and counts it, so that each
event it took in is accounted for.  While the history can be written to no
change fails for a fatal reason; hence a build that is not called off gets to
its end, and there the history is closed at its latest change.  What can still
be refused then is the namespace.  A name that has no room in a file is not
refused by the change that brings it but by the closing, for a reason that is
not fatal, and with it the whole build.
-/

namespace Chronicle.Replay

open History (Open Script)

/-! ## Changes -/

/-- The script of a change. -/
def script (change : Change) : Script Unit :=
  .intern Quark.root change.path fun quark =>
    match change.update with
    | .set value => .set change.time value quark (.done ())
    | .increment => .increment change.time quark (.done ())
    | .push value => .push change.time value quark (.done ())
    | .pop => .pop change.time quark fun _ => .done ()
    | .remove => .remove change.time quark (.done ())

/-- A change is made as its script says. -/
theorem run_script
    (change : Change) :
    (script change).run = apply change := by
  unfold script apply
  rw [Script.run_intern]
  congr 1
  funext quark
  cases change.update with
  | set value => exact bind_pure _
  | increment => exact (Script.run_increment _ _ _).trans (bind_pure _)
  | push value => exact (Script.run_push _ _ _ _).trans (bind_pure _)
  | pop => exact (Script.run_pop _ _ _).trans (map_eq_pure_bind _ _).symm
  | remove => exact (Script.run_remove _ _ _).trans (bind_pure _)

theorem mild_script
    (change : Change) :
    (script change).Mild := by
  intro quark
  cases change.update with
  | set value => trivial
  | increment => exact Script.mild_increment trivial
  | push value => exact Script.mild_push trivial
  | pop => exact Script.mild_pop fun _ => trivial
  | remove => exact Script.mild_remove trivial

/-- Whatever a script does, names in use stay in use. -/
theorem names_of_run
    {α : Type}
    {s : Placed History}
    {ledger : Ledger}
    {name : String}
    (open_ : Open s ledger)
    (script : Script α)
    (used : s.subject.names.Names name) :
    (script.run.reached s).subject.names.Names name := by
  induction script generalizing s ledger with
  | done a => exact used
  | fail fault => exact used
  | held quark next ih =>
      exact Step.reached_ofExcept_bind (fun r : Placed History => r.subject.names.Names name) used
        fun value _ => ih value open_ used
  | under quark next ih =>
      exact Step.reached_ofExcept_bind (fun r : Placed History => r.subject.names.Names name) used
        fun inner _ => ih inner open_ used
  | fit value next ih =>
      exact Step.reached_ofExcept_bind (fun r : Placed History => r.subject.names.Names name) used
        fun _ _ => ih open_ used
  | intern base path next ih =>
      rw [Script.run_intern]
      rcases open_.intern base path with
        ⟨names, quark, reached, entered, done, openAfter, outline, -⟩ | ⟨fault, -, failed⟩
      · rw [Step.reached_bind_of_ok done]
        refine ih quark openAfter ?_
        rw [show reached.subject.names = names from congrArg History.Outline.names outline]
        exact Namespace.names_of_intern entered (Or.inl used)
      · rw [Step.reached_bind_of_error failed]
        exact used
  | set t value quark next ih =>
      rw [Script.run_set]
      rcases open_.set_cases t value quark with
        ⟨reached, after, -, done, openAfter, names, -⟩ | ⟨fault, -, failed⟩
      · rw [Step.reached_bind_of_ok done]
        exact ih openAfter (names ▸ used)
      · rw [Step.reached_bind_of_error failed]
        exact used

/-- What becomes of a history while changes are made to it, with or without success. -/
structure Built
    (s reached : Placed History)
    (changes : List Change) : Prop where
  open_ : ∃ ledger, Open reached ledger
  start : reached.subject.start = s.subject.start
  site : reached.subject.backend.site? = s.subject.backend.site?
  names : ∀ name, (s.subject.names.Names name ∨ ∃ change ∈ changes, name ∈ change.path) →
    reached.subject.names.Names name

namespace Built

variable {s between reached : Placed History} {first later : List Change}

theorem refl
    {ledger : Ledger}
    (open_ : Open s ledger) :
    Built s s [] where
  open_ := ⟨ledger, open_⟩
  start := rfl
  site := rfl
  names := by
    rintro name (used | ⟨change, listed, -⟩)
    · exact used
    · cases listed

theorem trans
    (one : Built s between first)
    (two : Built between reached later) :
    Built s reached (first ++ later) where
  open_ := two.open_
  start := two.start.trans one.start
  site := two.site.trans one.site
  names := by
    rintro name (used | ⟨change, listed, member⟩)
    · exact two.names name (Or.inl (one.names name (Or.inl used)))
    · rcases List.mem_append.mp listed with old | new
      · exact two.names name (Or.inl (one.names name (Or.inr ⟨change, old, member⟩)))
      · exact two.names name (Or.inr ⟨change, new, member⟩)

/-- The same namespaces can be kept as before. -/
theorem accepts_iff
    {changes : List Change}
    (built : Built s reached changes)
    (ns : Namespace) :
    reached.subject.backend.Accepts ns ↔ s.subject.backend.Accepts ns := by
  rw [Backend.accepts_iff, Backend.accepts_iff, Backend.maxIntervalSize?_eq_none_iff,
    Backend.maxIntervalSize?_eq_none_iff, built.site]

end Built

variable {s : Placed History} {ledger : Ledger}

/-- A change enters its path, and if it fails, then for no fatal reason. -/
theorem built_apply
    (open_ : Open s ledger)
    (change : Change) :
    Built s ((apply change).reached s) [change]
      ∧ ∀ fault after, apply change s = .error fault after → fault.isFatal = false := by
  rw [← run_script]
  rcases open_.note (script change) with ⟨after, noted⟩
  refine ⟨⟨⟨after, noted.open_⟩, ?_, ?_, ?_⟩,
    fun fault after => open_.isFatal_of_mild (mild_script change)⟩
  · exact (noted.open_.kept.keeps.start.trans noted.notes.start).trans open_.kept.keeps.start.symm
  · have inserts := Backend.leaves_insert Volume.frontal_names
    exact congrArg Prod.snd (History.leaves_beneath ((script change).leaves_run inserts s))
  · intro name used
    unfold script
    rw [Script.run_intern]
    rcases Namespace.exists_intern_root s.subject.names change.path with ⟨names, quark, enters⟩
    rcases open_.intern Quark.root change.path with
      ⟨names', quark', reached, entered, done, openAfter, outline, -⟩ | ⟨fault, refused, -⟩
    · rw [Step.reached_bind_of_ok done]
      refine names_of_run openAfter _ ?_
      rw [show reached.subject.names = names' from congrArg History.Outline.names outline]
      apply Namespace.names_of_intern entered
      rcases used with before | ⟨other, listed, member⟩
      · exact Or.inl before
      · rw [List.mem_singleton.mp listed] at member
        exact Or.inr member
    · cases enters.symm.trans refused

/-! ## Counting -/

/-- The changes that an event brings. -/
def Event.made : Event → List Change
  | .changes listed => listed
  | .refused _ => []
  | .broken => []

/-- How much an event counts: its changes, or one if there is nothing to be made of it. -/
def Event.weight : Event → Nat
  | .changes listed => listed.length
  | .refused _ => 1
  | .broken => 0

/-- A tally that went on from another one by events, all of whose changes were counted. -/
structure Counts
    (before after : Tally)
    (events weight : Nat) : Prop where
  events : after.events = before.events + events
  changes : after.changes + after.skipped = before.changes + before.skipped + weight

theorem Counts.trans
    {first second third : Tally}
    {events weight moreEvents moreWeight : Nat}
    (one : Counts first second events weight)
    (two : Counts second third moreEvents moreWeight) :
    Counts first third (events + moreEvents) (weight + moreWeight) where
  events := by rw [two.events, one.events, Nat.add_assoc]
  changes := by rw [two.changes, one.changes, Nat.add_assoc]

/-- All changes of an event are made or skipped, and counted. -/
theorem exists_applyAll
    (open_ : Open s ledger)
    (tally : Tally)
    (changes : List Change) :
    ∃ counted reached,
      applyAll tally changes s = .ok counted reached
        ∧ Built s reached changes
        ∧ Counts tally counted 0 changes.length := by
  induction changes generalizing s ledger tally with
  | nil => exact ⟨tally, s, rfl, .refl open_, rfl, rfl⟩
  | cons change later ih =>
      rcases built_apply open_ change with ⟨built, mild⟩
      rcases built.open_ with ⟨ledgerAfter, openAfter⟩
      cases ends : apply change s with
      | ok done after =>
          rw [Step.reached_of_ok ends] at built openAfter
          have outcome : (apply change).outcome s = .ok (.ok done) after := by
            unfold Step.outcome
            rw [ends]
          rcases ih openAfter { tally with changes := tally.changes + 1 } with
            ⟨counted, reached, applied, builtLater, counts⟩
          refine ⟨counted, reached, (Step.bind_of_ok outcome).trans applied,
            built.trans builtLater, counts.events, ?_⟩
          rw [counts.changes, List.length_cons]
          show tally.changes + 1 + tally.skipped + later.length = _
          omega
      | error fault after =>
          rw [Step.reached_of_error ends] at built openAfter
          have outcome : (apply change).outcome s = .ok (.error fault) after := by
            unfold Step.outcome
            rw [ends]
          have calm := mild fault after ends
          rcases ih openAfter { tally with skipped := tally.skipped + 1 } with
            ⟨counted, reached, applied, builtLater, counts⟩
          refine ⟨counted, reached, (Step.bind_of_ok outcome).trans ?_,
            built.trans builtLater, counts.events, ?_⟩
          · simp only [calm]
            exact applied
          · rw [counts.changes, List.length_cons]
            show tally.changes + (tally.skipped + 1) + later.length = _
            omega

/-- An event is taken in and accounted for. -/
theorem exists_deliver
    {event : Event}
    (open_ : Open s ledger)
    (whole : event ≠ .broken)
    (tally : Tally) :
    ∃ counted reached,
      deliver tally event s = .ok counted reached
        ∧ Built s reached event.made
        ∧ Counts tally counted 1 event.weight := by
  cases event with
  | changes changes =>
      rcases exists_applyAll open_ { tally with events := tally.events + 1 } changes with
        ⟨counted, reached, applied, built, counts⟩
      exact ⟨counted, reached, applied, built, counts.events, counts.changes⟩
  | refused fault => exact ⟨_, s, rfl, .refl open_, rfl, rfl⟩
  | broken => exact absurd rfl whole

/-! ## Feeding -/

/-- The events that a build takes in: those before the first question that is affirmed. -/
def consumed
    (signal : Signal) :
    (question : Nat) →
    (events : List Event) →
    List Event
  | _, [] => []
  | question, event :: later =>
    if signal question then [] else event :: consumed signal (question + 1) later

/-- What a history and a tally become while events are fed to a build. -/
structure Fed
    (s reached : Placed History)
    (before after : Tally)
    (events : List Event) : Prop where
  built : Built s reached (events.flatMap Event.made)
  counts : Counts before after events.length (events.map Event.weight).sum

theorem Fed.refl
    (open_ : Open s ledger)
    (tally : Tally) :
    Fed s s tally tally [] where
  built := .refl open_
  counts := ⟨rfl, rfl⟩

theorem Fed.cons
    {between reached : Placed History}
    {before tally after : Tally}
    {event : Event}
    {later : List Event}
    (built : Built s between event.made)
    (counts : Counts before tally 1 event.weight)
    (fed : Fed between reached tally after later) :
    Fed s reached before after (event :: later) where
  built := by
    rw [List.flatMap_cons]
    exact built.trans fed.built
  counts := by
    rw [List.length_cons, List.map_cons, List.sum_cons, Nat.add_comm later.length]
    exact counts.trans fed.counts

/-- While a history is written to, its latest change is its end. -/
theorem latest_eq_currentEnd
    (open_ : Open s ledger) :
    s.subject.latest = s.subject.currentEnd :=
  (congrArg Ongoing.latest open_.goes.takes.keeps.ongoing).trans open_.ending.symm

/-- Calling off gives the history up, with its names and its end. -/
theorem exists_callOff
    (open_ : Open s ledger)
    (tally : Tally) :
    ∃ ended,
      callOff tally s = .ok ⟨.cancelled, ended.subject.currentEnd, tally⟩ ended
        ∧ ended.subject.names = s.subject.names := by
  have settled := History.outline_settle .cancelled s.subject
  have ending : (History.settle .cancelled s.subject).currentEnd = s.subject.latest :=
    (congrArg History.Outline.currentEnd settled).trans (latest_eq_currentEnd open_).symm
  refine ⟨⟨s.volume, History.settle .cancelled s.subject⟩, ?_,
    congrArg History.Outline.names settled⟩
  rw [ending]
  rfl

/-- All events are taken in, unless the build is called off before one of them. -/
theorem exists_feed
    {events : List Event}
    (open_ : Open s ledger)
    (whole : Event.broken ∉ events)
    (signal : Signal)
    (question : Nat)
    (tally : Tally) :
    ∃ counted reached,
      Fed s reached tally counted (consumed signal question events)
        ∧ ((∀ k < events.length, signal (question + k) = false)
            ∧ feed signal question tally events s = .ok (.reading counted) reached
          ∨ (∃ k < events.length, signal (question + k) = true)
            ∧ ∃ ended,
              feed signal question tally events s
                  = .ok (.ended ⟨.cancelled, ended.subject.currentEnd, counted⟩) ended
                ∧ ended.subject.names = reached.subject.names) := by
  induction events generalizing s ledger question tally with
  | nil =>
      refine ⟨tally, s, .refl open_ tally, Or.inl ⟨?_, rfl⟩⟩
      intro k inside
      cases inside
  | cons event later ih =>
      unfold feed consumed
      cases asked : signal question with
      | true =>
          rcases exists_callOff open_ tally with ⟨ended, calledOff, names⟩
          exact ⟨tally, s, .refl open_ tally,
            Or.inr ⟨⟨0, Nat.succ_pos _, asked⟩, ended, Step.bind_of_ok calledOff, names⟩⟩
      | false =>
          rcases exists_deliver open_ (fun same => whole (same ▸ List.mem_cons_self)) tally with
            ⟨counted, between, delivered, built, counts⟩
          rcases built.open_ with ⟨ledgerAfter, openAfter⟩
          rcases ih openAfter (fun member => whole (List.mem_cons_of_mem _ member)) (question + 1)
            counted with ⟨total, reached, fed, ends⟩
          have goesOn : (History.orAbandon (deliver tally event) >>= fun counted =>
              feed signal (question + 1) counted later) s
              = feed signal (question + 1) counted later between :=
            Step.bind_of_ok (History.orAbandon_of_ok delivered)
          refine ⟨total, reached, .cons built counts fed, ?_⟩
          rcases ends with ⟨quiet, reads⟩ | ⟨⟨k, inside, fires⟩, ended, stops, names⟩
          · refine Or.inl ⟨?_, goesOn.trans reads⟩
            rintro (_ | k) inside
            · exact asked
            · rw [show question + (k + 1) = question + 1 + k by omega]
              exact quiet k (Nat.lt_of_succ_lt_succ inside)
          · refine Or.inr ⟨⟨k + 1, Nat.succ_lt_succ inside, ?_⟩, ended, goesOn.trans stops, names⟩
            rw [show question + (k + 1) = question + 1 + k by omega]
            exact fires

/-! ## Ending -/

/--
At the end of its events a build is called off, completes the history, or is
refused by a backend that has no room for the names.
-/
theorem exists_conclude
    (open_ : Open s ledger)
    (calledOff : Bool)
    (tally : Tally) :
    ∃ ended,
      ended.subject.names = s.subject.names
        ∧ (calledOff = true
            ∧ conclude calledOff tally s = .ok ⟨.cancelled, ended.subject.currentEnd, tally⟩ ended
          ∨ calledOff = false
            ∧ s.subject.backend.Accepts s.subject.names
            ∧ conclude calledOff tally s = .ok ⟨.completed, ended.subject.currentEnd, tally⟩ ended
          ∨ calledOff = false
            ∧ ¬ s.subject.backend.Accepts s.subject.names
            ∧ ∃ cause, conclude calledOff tally s = .error (.badArgument cause) ended) := by
  cases calledOff with
  | true =>
      rcases exists_callOff open_ tally with ⟨ended, stops, names⟩
      exact ⟨ended, names, Or.inl ⟨rfl, stops⟩⟩
  | false =>
      have latest := latest_eq_currentEnd open_
      have onTime : ledger.ongoing.latest ≤ s.subject.latest :=
        Int.le_of_eq (latest.trans open_.ending).symm
      have closes : conclude false tally s
          = (History.close s.subject.latest >>= fun _ =>
            pure ⟨.completed, s.subject.latest, tally⟩) s := rfl
      rcases open_.close onTime with
        ⟨ended, -, -, ⟨accepts, done, outline, -⟩ | ⟨refused, failed, outline⟩⟩
      · have ending : ended.subject.currentEnd = s.subject.latest := by
          refine (congrArg History.Outline.currentEnd outline).trans ?_
          show max s.subject.currentEnd s.subject.latest = _
          rw [latest, Int.max_self]
        refine ⟨ended, congrArg History.Outline.names outline, Or.inr (Or.inl ⟨rfl, accepts, ?_⟩)⟩
        rw [closes, ending]
        exact Step.bind_of_ok (done Store.insert Store.follows_insert)
      · rcases s.subject.names.exists_obstacle_eq with ⟨cause, same⟩
        refine ⟨ended, congrArg History.Outline.names outline,
          Or.inr (Or.inr ⟨rfl, refused, cause, ?_⟩)⟩
        rw [closes, ← same]
        exact Step.bind_of_error (failed Store.insert Store.follows_insert)

/--
A build ends in one of three ways.  It is called off, it completes the
history, or the backend of the history has no room for the names.
-/
theorem exists_run
    {events : List Event}
    (open_ : Open s ledger)
    (whole : Event.broken ∉ events)
    (signal : Signal) :
    ∃ tally ended,
      Counts {} tally (consumed signal 0 events).length
          ((consumed signal 0 events).map Event.weight).sum
        ∧ (∀ event ∈ consumed signal 0 events, ∀ change ∈ event.made, ∀ name ∈ change.path,
          ended.subject.names.Names name)
        ∧ ((∃ k ≤ events.length, signal k = true)
            ∧ run signal events s = .ok ⟨.cancelled, ended.subject.currentEnd, tally⟩ ended
          ∨ (∀ k ≤ events.length, signal k = false)
            ∧ s.subject.backend.Accepts ended.subject.names
            ∧ run signal events s = .ok ⟨.completed, ended.subject.currentEnd, tally⟩ ended
          ∨ (∀ k ≤ events.length, signal k = false)
            ∧ ¬ s.subject.backend.Accepts ended.subject.names
            ∧ ∃ cause, run signal events s = .error (.badArgument cause) ended) := by
  rcases exists_feed open_ whole signal 0 {} with ⟨tally, reached, fed, ends⟩
  rcases fed.built.open_ with ⟨after, openAfter⟩
  have named : ∀ event ∈ consumed signal 0 events, ∀ change ∈ event.made,
      ∀ name ∈ change.path, reached.subject.names.Names name :=
    fun event taken change listed name member => fed.built.names name
      (Or.inr ⟨change, List.mem_flatMap.mpr ⟨event, taken, listed⟩, member⟩)
  simp only [Nat.zero_add] at ends
  rcases ends with ⟨quiet, reads⟩ | ⟨⟨k, inside, fires⟩, ended, stops, names⟩
  · have concludes : run signal events s
        = conclude (signal (0 + events.length)) tally reached := Step.bind_of_ok reads
    rw [Nat.zero_add] at concludes
    have silent : signal events.length = false → ∀ k ≤ events.length, signal k = false := by
      intro last k inside
      rcases Nat.lt_or_eq_of_le inside with before | rfl
      · exact quiet k before
      · exact last
    rcases exists_conclude openAfter (signal events.length) tally with ⟨ended, names, ends⟩
    rw [← concludes, fed.built.accepts_iff, ← names] at ends
    refine ⟨tally, ended, fed.counts, names ▸ named, ?_⟩
    rcases ends with ⟨fires, stops⟩ | ⟨last, accepts, completes⟩ | ⟨last, refuses, fails⟩
    · exact Or.inl ⟨⟨events.length, Nat.le_refl _, fires⟩, stops⟩
    · exact Or.inr (Or.inl ⟨silent last, accepts, completes⟩)
    · exact Or.inr (Or.inr ⟨silent last, refuses, fails⟩)
  · exact ⟨tally, ended, fed.counts, names ▸ named,
      Or.inl ⟨⟨k, Nat.le_of_lt inside, fires⟩, Step.bind_of_ok stops⟩⟩

/--
No event can end the build of a new history.  Those before the build is called
off are taken in, and all that they bring is made or skipped, and counted.  A
build that is not called off completes the history, with one exception: a
history in a file is refused at its end, and for no fatal reason, if a name or
all of them together have no room there.
-/
theorem run_of_created
    {id : String}
    {start : Int}
    {plan : Backend.Plan}
    {volume made : Volume}
    {history : History}
    {events : List Event}
    (sound : volume.Sound)
    (created : History.create id start plan volume = .ok (made, history))
    (whole : Event.broken ∉ events)
    (signal : Signal) :
    ∃ tally ended,
      tally.events = (consumed signal 0 events).length
        ∧ tally.changes + tally.skipped = ((consumed signal 0 events).map Event.weight).sum
        ∧ (∀ event ∈ consumed signal 0 events, ∀ change ∈ event.made, ∀ name ∈ change.path,
          ended.subject.names.Names name)
        ∧ ((∃ k ≤ events.length, signal k = true)
            ∧ run signal events ⟨made, history⟩
              = .ok ⟨.cancelled, ended.subject.currentEnd, tally⟩ ended
          ∨ (∀ k ≤ events.length, signal k = false)
            ∧ (plan = .memory ∨ ended.subject.names.Storable)
            ∧ run signal events ⟨made, history⟩
              = .ok ⟨.completed, ended.subject.currentEnd, tally⟩ ended
          ∨ (∀ k ≤ events.length, signal k = false)
            ∧ ¬ (plan = .memory ∨ ended.subject.names.Storable)
            ∧ ∃ cause, run signal events ⟨made, history⟩ = .error (.badArgument cause) ended) := by
  rcases History.open_of_create sound created with ⟨open_, -, capacity⟩
  rcases exists_run open_ whole signal with ⟨tally, ended, counts, named, ends⟩
  rw [Backend.accepts_iff_of_plan capacity] at ends
  refine ⟨tally, ended, counts.events.trans (Nat.zero_add _), ?_, named, ends⟩
  exact counts.changes.trans (Nat.zero_add _)

/-- Events with a refusal, a change that fails and changes that are made. -/
def incidents : List Event :=
  [.refused (.undecodable .pathlessChange),
    .changes [⟨["cpu", "0"], 3, .set (.int 7)⟩, ⟨["cpu", "0"], 2, .increment⟩],
    .changes [⟨["cpu"], 5, .push (.string "idle")⟩]]

theorem run_incidents :
    ∃ made history tally ended,
      History.create "incidents" 0 .memory .empty = .ok (made, history)
        ∧ tally.events = 3
        ∧ tally.changes + tally.skipped = 4
        ∧ run .never incidents ⟨made, history⟩
          = .ok ⟨.completed, ended.subject.currentEnd, tally⟩ ended := by
  obtain ⟨made, history, created⟩ : ∃ made history,
      History.create "incidents" 0 .memory .empty = .ok (made, history) := ⟨_, _, rfl⟩
  have whole : Event.broken ∉ incidents := by decide
  rcases run_of_created (by decide) created whole .never with
    ⟨tally, ended, events, changes, -, ends⟩
  rcases ends with ⟨⟨k, -, fires⟩, -⟩ | ⟨-, -, completes⟩ | ⟨-, full, -⟩
  · cases fires
  · exact ⟨made, history, tally, ended, created, events, changes, completes⟩
  · exact absurd (Or.inl rfl) full

/-- A name that is one byte too long for its length field in a file. -/
def longName : String :=
  String.ofList (List.replicate 65536 'a')

theorem utf8ByteSize_longName : longName.utf8ByteSize = 65536 := by
  have size : ∀ count, (String.ofList (List.replicate count 'a')).utf8ByteSize = count := by
    intro count
    induction count with
    | zero => rfl
    | succ count ih =>
        rw [List.replicate_succ, String.ofList_cons, String.utf8ByteSize_append,
          String.utf8ByteSize_singleton, ih]
        exact Nat.add_comm _ _
  exact size 65536

/-- One change with a name that is too long is accepted, and then ends the build. -/
theorem run_of_longName :
    ∃ made history cause ended,
      History.create "long" 0 (.file "long" {}) .empty = .ok (made, history)
        ∧ run .never [.changes [⟨[longName], 1, .set (.int 1)⟩]] ⟨made, history⟩
          = .error (.badArgument cause) ended
        ∧ (Fault.badArgument cause).isFatal = false := by
  obtain ⟨made, history, created⟩ : ∃ made history,
      History.create "long" 0 (.file "long" {}) .empty = .ok (made, history) := ⟨_, _, rfl⟩
  rcases History.open_of_create (by decide) created with ⟨open_, -, capacity⟩
  have whole : Event.broken ∉ [Event.changes [⟨[longName], 1, .set (.int 1)⟩]] := by
    intro member
    cases List.mem_singleton.mp member
  rcases exists_run open_ whole .never with ⟨tally, ended, -, named, ends⟩
  rw [Backend.accepts_iff_of_plan capacity] at ends
  rcases named _ List.mem_cons_self _ List.mem_cons_self _ List.mem_cons_self with
    ⟨a, member, same⟩
  have full : ¬ ended.subject.names.Storable := by
    intro storable
    have short := storable.names a member
    rw [same, utf8ByteSize_longName] at short
    exact Nat.lt_irrefl _ short
  rcases ends with ⟨⟨k, -, fires⟩, -⟩ | ⟨-, room, -⟩ | ⟨-, -, cause, fails⟩
  · cases fires
  · exact absurd (room.resolve_left Backend.Plan.noConfusion) full
  · exact ⟨made, history, cause, ended, created, fails, rfl⟩

end Chronicle.Replay
