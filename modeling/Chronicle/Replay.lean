import Chronicle.Cancellation
import Chronicle.History.Writer

/-!
# Replaying events

A history is built from a stream of events.  What an event means is decided by
a decoder, whose answer is either changes of attributes or a refusal; a
refused event, and a change that fails for a reason of its own, are skipped
and counted.  A fault that touches the integrity of the history ends the
build.  Between two events the build asks whether it was called off.  A build
that ends otherwise than by closing the history gives it up.
-/

namespace Chronicle

/-- What happens to an attribute. -/
inductive Update
  | set (value : Value)
  /-- Its counter counts one more. -/
  | increment
  /-- Its stack gets one more value. -/
  | push (value : Value)
  /-- Its stack loses the uppermost value. -/
  | pop
  /-- It and all below it get null. -/
  | remove
deriving DecidableEq

/-- What happens to which attribute and when. -/
structure Change where
  path : List String
  time : Int
  update : Update
deriving DecidableEq

namespace Replay

/-- What a decoder makes of an event. -/
inductive Event
  /-- These changes, in the order of their times. -/
  | changes (changes : List Change)
  /-- Nothing, for this reason. -/
  | refused (fault : Fault)
  /-- The decoder itself fails. -/
  | broken
deriving DecidableEq

/-- An event that is a change already.  One without a path is refused. -/
def Event.ofChange (change : Change) : Event :=
  if change.path = [] then .refused (.undecodable .pathlessChange) else .changes [change]

/-- What a build has counted. -/
structure Tally where
  /-- The events that were read. -/
  events : Nat := 0
  /-- The changes that were made. -/
  changes : Nat := 0
  /-- The events and changes that were skipped. -/
  skipped : Nat := 0
deriving DecidableEq, Repr

/-- How a build ended. -/
structure Outcome where
  status : History.Status
  /-- The time of the latest change. -/
  stop : Int
  tally : Tally
deriving DecidableEq, Repr

/-- Makes one change to a history. -/
def apply (change : Change) : Step History Unit := do
  let quark ← History.intern Quark.root change.path
  match change.update with
  | .set value => History.set change.time value quark
  | .increment => History.increment change.time quark
  | .push value => History.push change.time value quark
  | .pop => discard (History.pop change.time quark)
  | .remove => History.remove change.time quark

/-- Makes changes one after the other and counts those made and those skipped. -/
def applyAll
    (tally : Tally) :
    (changes : List Change) →
    Step History Tally
  | [] => return tally
  | change :: later => do
    match ← Step.outcome (apply change) with
    | .ok () => applyAll { tally with changes := tally.changes + 1 } later
    | .error fault =>
      if fault.isFatal then
        throw fault
      applyAll { tally with skipped := tally.skipped + 1 } later

/-- Takes in one event. -/
def deliver
    (tally : Tally)
    (event : Event) :
    Step History Tally := do
  let tally := { tally with events := tally.events + 1 }
  match event with
  | .changes changes => applyAll tally changes
  | .refused _ => return { tally with skipped := tally.skipped + 1 }
  | .broken => throw .cancelled

/-- Ends a build that was called off. -/
def callOff (tally : Tally) : Step History Outcome := do
  let stop := (← Step.subject).latest
  History.abandon
  return ⟨.cancelled, stop, tally⟩

/-- Ends a build at the end of its events, unless it was called off before. -/
def conclude
    (calledOff : Bool)
    (tally : Tally) :
    Step History Outcome := do
  if calledOff then
    callOff tally
  else
    let stop := (← Step.subject).latest
    History.close stop
    return ⟨.completed, stop, tally⟩

/-- How far a build has come: it goes on with what it counted, or it has ended. -/
inductive Progress
  | reading (tally : Tally)
  | ended (outcome : Outcome)
deriving DecidableEq, Repr

/--
Takes in events until there are no more or the build is called off.  Before
each event `signal` is asked, first with the question of number `question`.
-/
def feed
    (signal : Signal) :
    (question : Nat) →
    (tally : Tally) →
    (events : List Event) →
    Step History Progress
  | _, tally, [] => return .reading tally
  | question, tally, event :: later => do
    if signal question then
      return .ended (← callOff tally)
    feed signal (question + 1) (← History.orAbandon (deliver tally event)) later

/-- Goes on with a build to its end. -/
def resume
    (signal : Signal)
    (question : Nat)
    (tally : Tally)
    (events : List Event) :
    Step History Outcome := do
  match ← feed signal question tally events with
  | .ended outcome => return outcome
  | .reading tally => conclude (signal (question + events.length)) tally

/-- Builds a history from events and closes it at its latest change. -/
def run
    (signal : Signal)
    (events : List Event) :
    Step History Outcome :=
  resume signal 0 {} events

end Replay

end Chronicle
