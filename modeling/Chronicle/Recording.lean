import Chronicle.Store

/-!
# Recordings

What an attribute holds now is not stored before it ends.  A recording keeps,
next to the store, for each attribute the value it holds and since when; a
change at `t` stores the old value up to `t - 1`.  Times never go backwards
over all attributes.  A change that fails leaves every attribute as it was.
-/

namespace Chronicle

namespace Recording

/-- What an attribute holds now. -/
structure Slot where
  value : Value
  since : Int
deriving DecidableEq

end Recording

/-- The values held now, by the number of the attribute. -/
structure Ongoing where
  slots : Array Recording.Slot
  /-- The start of the history. -/
  start : Int
  /-- The time of the latest change. -/
  latest : Int
deriving DecidableEq

/-- A store and what has not ended yet. -/
structure Recording where
  ongoing : Ongoing
  store : Store

namespace Ongoing

/-- Nothing recorded yet. -/
def empty (start : Int) : Ongoing :=
  ⟨#[], start, start⟩

/--
All of `count` attributes ended at `stop`: what they hold now starts after
that and is no part of any answer.
-/
def closed
    (start stop : Int)
    (count : Nat) :
    Ongoing :=
  ⟨Array.replicate count ⟨.null, min (stop + 1) latestInstant⟩, start, stop⟩

/-- At least `count` attributes; the new ones hold null since the start. -/
def grow
    (ongoing : Ongoing)
    (count : Nat) :
    Ongoing :=
  { ongoing with
    slots := ongoing.slots
      ++ Array.replicate (count - ongoing.slots.size) ⟨.null, ongoing.start⟩ }

/-- What `quark` holds now. -/
def slot
    (ongoing : Ongoing)
    (quark : Int) :
    Except Fault Recording.Slot :=
  match (if 0 ≤ quark then ongoing.slots[quark.toNat]? else none) with
  | some slot => .ok slot
  | none => .error (.notFound (.quark quark))

/-- Another value, or another start of it, for `quark`. -/
def setSlot
    (ongoing : Ongoing)
    (quark : Int)
    (slot : Recording.Slot) :
    Ongoing :=
  { ongoing with slots := ongoing.slots.setIfInBounds quark.toNat slot }

/-- Refuses times before the latest change. -/
def checkTime
    (ongoing : Ongoing)
    (t : Int) :
    Except Fault Unit :=
  if t < ongoing.latest then
    .error (.timeOutside t ongoing.latest latestInstant)
  else
    .ok ()

end Ongoing

/-- The interval of `quark` over which it holds its value, as far as `stop` at least. -/
def Recording.Slot.interval
    (slot : Recording.Slot)
    (quark stop : Int) :
    Interval :=
  ⟨slot.since, max stop slot.since, quark, slot.value, Int.le_max_right ..⟩

namespace Recording

/-- Works on the store. -/
def onStore
    {α : Type}
    (step : Step Store α) :
    Step Recording α :=
  Step.onPart Recording.store (fun recording store => { recording with store }) step

/-- Changes what is held now. -/
def updateOngoing (change : Ongoing → Ongoing) : Step Recording Unit :=
  Step.update fun recording => { recording with ongoing := change recording.ongoing }

/--
Gives `quark` a value from `t` on.  If it is the value that it holds, only the
time is noted.
-/
def change
    (t : Int)
    (value : Value)
    (quark : Int) :
    Step Recording Unit := do
  let recording ← Step.subject
  let slot ← Step.ofExcept (recording.ongoing.slot quark)
  Step.ofExcept (recording.ongoing.checkTime t)
  if slot.value ≠ value then
    if t < slot.since then
      throw (.timeOutside t slot.since latestInstant)
    Step.ofExcept (recording.store.checkFits value)
    if slot.since < t then
      onStore (Store.insert slot.since (t - 1) quark slot.value)
    updateOngoing fun ongoing => ongoing.setSlot quark ⟨value, t⟩
  updateOngoing fun ongoing => { ongoing with latest := t }

/--
Stores what `quark` holds now as ending at `stop`, unless it starts later.  What
is behind `stop` is an integer, also where `stop` is the latest instant;
`History.wrapped` tells what eight bytes keep of it.
-/
def closeSlot
    (stop quark : Int) :
    Step Recording Unit := do
  let slot ← Step.ofExcept ((← Step.subject).ongoing.slot quark)
  if slot.since ≤ stop then
    onStore (Store.insert slot.since stop quark slot.value)
    updateOngoing fun ongoing => ongoing.setSlot quark ⟨.null, stop + 1⟩

/-- Stores all that is held now as ending at `stop`, one attribute after the other. -/
def close (stop : Int) : Step Recording Unit := do
  let recording ← Step.subject
  Step.ofExcept (recording.ongoing.checkTime stop)
  (List.range recording.ongoing.slots.size).forM fun quark => closeSlot stop quark
  updateOngoing fun ongoing => { ongoing with latest := stop }

end Recording

end Chronicle
