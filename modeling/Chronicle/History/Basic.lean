import Chronicle.Recording

/-!
# Histories

A history puts the names of attributes, their stored intervals and what they
hold now behind one door.  It is built until it is closed or given up; either
way its status is then settled.  Instants from its start to its current end
can be asked about: each attribute held exactly one value at each of them.
-/

namespace Chronicle

namespace History

/-- How far the building of a history has come. -/
inductive Status
  /-- It goes on. -/
  | building
  /-- The history was closed. -/
  | completed
  /-- It was stopped early. -/
  | cancelled
deriving DecidableEq, Repr

end History

/-- The history of all attributes of one analysis. -/
structure History where
  id : String
  names : Namespace
  recording : Recording
  /-- The latest time of a change, up to which answers are given. -/
  currentEnd : Int
  disposed : Bool
  status : History.Status

namespace History

/-- A new history that begins at `start`. -/
def create
    (id : String)
    (start : Int)
    (plan : Backend.Plan)
    (volume : Volume) :
    Except Fault (Volume × History) := do
  let (volume, backend) ← Backend.create plan start volume
  return (volume,
    { id := id
      names := .empty
      recording := ⟨.empty start, .ofBackend backend⟩
      currentEnd := start
      disposed := false
      status := .building })

/-- The history in a complete file that a provider of the given version built. -/
def reopen
    (id name : String)
    (version : Nat)
    (volume : Volume) :
    Except Fault History := do
  let (backend, names) ← Backend.reopen name version volume
  return {
    id := id
    names := names
    recording := ⟨.closed backend.start backend.stop names.size, .ofBackend backend⟩
    currentEnd := backend.stop
    disposed := false
    status := .completed }

/-- The start of a history. -/
def start (history : History) : Int :=
  history.recording.store.start

/-- Settles the status, unless it is settled already. -/
def settle
    (status : Status)
    (history : History) :
    History :=
  if history.status = .building then { history with status } else history

/-- Refuses to go on with a history that was given up or contradicts itself. -/
def checkUsable (history : History) : Except Fault Unit :=
  if history.disposed then .error .disposed
  else history.recording.store.checkHealthy

/-- Refuses instants that no answer is given about. -/
def checkTime
    (history : History)
    (t : Int) :
    Except Fault Unit :=
  if t < history.start ∨ history.currentEnd < t then
    .error (.timeOutside t history.start history.currentEnd)
  else
    .ok ()

/-- The instant nearest to `t` that answers are given about. -/
def clamp
    (history : History)
    (t : Int) :
    Int :=
  max history.start (min t (max history.currentEnd history.start))

/-- Works on the recording. -/
def onRecording
    {α : Type}
    (step : Step Recording α) :
    Step History α :=
  Step.onPart History.recording (fun history recording => { history with recording }) step

/-- Works on the store. -/
def onStore
    {α : Type}
    (step : Step Store α) :
    Step History α :=
  onRecording (Recording.onStore step)

/-- The value that `quark` holds now. -/
def ongoingValue
    (history : History)
    (quark : Int) :
    Except Fault Value := do
  history.checkUsable
  let slot ← history.recording.ongoing.slot quark
  return slot.value

/-- The interval of `quark` that covers `t`. -/
def intervalAt
    (t quark : Int) :
    Step History Interval := do
  let history ← Step.subject
  Step.ofExcept history.checkUsable
  Step.ofExcept (history.checkTime t)
  let slot ← Step.ofExcept (history.recording.ongoing.slot quark)
  if slot.since ≤ t then
    return slot.interval quark history.currentEnd
  match ← onStore (Store.find t quark) with
  | some i => return i
  | none => throw .corrupted

/-- The slots with the interval that each attribute is in now, where it has begun by `t`. -/
def overlayOngoing
    (history : History)
    (t : Int)
    (slots : Tree.Slots) :
    Tree.Slots :=
  slots.mapIdx fun quark stored =>
    match history.recording.ongoing.slots[quark]? with
    | some slot => if slot.since ≤ t then some (slot.interval quark history.currentEnd) else stored
    | none => stored

/-- The intervals of all attributes that cover `t`, in the order of their numbers. -/
def snapshot (t : Int) : Step History (List Interval) := do
  let history ← Step.subject
  Step.ofExcept history.checkUsable
  Step.ofExcept (history.checkTime t)
  let empty : Tree.Slots :=
    Array.replicate (min history.names.size history.recording.ongoing.slots.size) none
  let stored ←
    if t ≤ history.recording.store.stop then onStore (Store.collect t empty) else pure empty
  match (history.overlayOngoing t stored).intervals? with
  | some intervals => return intervals
  | none => throw .corrupted

/-- Gives a history up.  Nobody may be writing to it any more. -/
def dispose : Step History Unit := do
  if (← Step.subject).disposed then
    return
  Step.update fun history => settle .cancelled { history with disposed := true }
  onStore Store.dispose

end History

end Chronicle
