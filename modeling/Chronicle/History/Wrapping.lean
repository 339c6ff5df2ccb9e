import Chronicle.History.Basic

/-!
# Histories in eight bytes

Instants are integers here, and behind each of them there is another one.  The
only sums that a recording keeps are the instants behind an end: there an
attribute begins to hold null, and there its next interval must start.  Eight
bytes have no room for what is behind the latest instant.  Where sums are
checked, a program breaks off there; where they are not, it goes on with the
earliest instant instead.  The latter is what is described here, by a change
after each step: no step looks again at a sum that it has put there.  Where the
nodes of a history tree begin and end are sums as well; `Tree.InRange` bounds
them where something is said about them.
-/

namespace Chronicle

/-- What eight bytes keep of an instant. -/
def wrapInstant (t : Int) : Int :=
  (Int64.ofInt t).toInt

/-- What attributes hold now, since instants of eight bytes. -/
def Ongoing.wrapped (ongoing : Ongoing) : Ongoing :=
  { ongoing with
    slots := ongoing.slots.map fun slot => { slot with since := wrapInstant slot.since } }

/-- A store that expects instants of eight bytes next. -/
def Store.wrapped (store : Store) : Store :=
  { store with nextStarts := store.nextStarts.map wrapInstant }

/-- A recording in instants of eight bytes. -/
def Recording.wrapped (recording : Recording) : Recording :=
  ⟨recording.ongoing.wrapped, recording.store.wrapped⟩

namespace History

/-- A history in instants of eight bytes. -/
def wrapped (history : History) : History :=
  { history with recording := history.recording.wrapped }

/-- A step after which the instants of a history are those of eight bytes. -/
def wrapping
    {α : Type}
    (step : Step History α) :
    Step History α :=
  step.thenUpdate wrapped

end History

end Chronicle
