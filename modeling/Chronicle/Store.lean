import Chronicle.Backend.Basic
import Chronicle.Padding

/-!
# Stores

A store watches over a backend: the intervals of each attribute follow one
another without gap and overlap from the start of the history on, and no
interval ends before the one stored last.  An interval that does not follow
its predecessor shows that whoever writes has lost track; the store then
answers nothing any more.
-/

namespace Chronicle

/-- A backend and what the next intervals must look like. -/
structure Store where
  backend : Backend
  /-- Where the next interval of each attribute must start. -/
  nextStarts : Array Int
  /-- The end of the interval stored last. -/
  lastStop : Int
  /-- Whether an interval came that did not follow its predecessor. -/
  corrupted : Bool

namespace Store

/-- A store over a backend without intervals, or one that takes no more of them. -/
def ofBackend (backend : Backend) : Store :=
  ⟨backend, #[], backend.start, false⟩

/-- The start of the history. -/
def start (store : Store) : Int :=
  store.backend.start

/-- The latest end of all intervals. -/
def stop (store : Store) : Int :=
  store.backend.stop

/-- Where the next interval of `quark` must start. -/
def expectedStart
    (store : Store)
    (quark : Int) :
    Int :=
  store.nextStarts.getD quark.toNat store.start

/--
The store after an interval of `quark` that ends at `stop`.  As in a recording,
what is behind the latest instant is still an integer.
-/
def advance
    (store : Store)
    (quark stop : Int) :
    Store :=
  { store with
    nextStarts := setPadded store.nextStarts quark.toNat (stop + 1) store.start
    lastStop := stop }

/-- Works on the backend. -/
def onBackend
    {α : Type}
    (step : Step Backend α) :
    Step Store α :=
  Step.onPart Store.backend (fun store backend => { store with backend }) step

/-- Refuses to go on after an interval that did not follow its predecessor. -/
def checkHealthy (store : Store) : Except Fault Unit :=
  if store.corrupted then .error .corrupted else .ok ()

/-- Refuses values for which an interval would be too large. -/
def checkFits
    (store : Store)
    (value : Value) :
    Except Fault Unit :=
  match store.backend.maxIntervalSize? with
  | none => .ok ()
  | some capacity =>
    if capacity < Interval.sizeWith value then
      .error (.intervalTooLarge (Interval.sizeWith value) capacity)
    else
      .ok ()

/-- Refuses instants that no stored interval can cover. -/
def checkTime
    (store : Store)
    (t : Int) :
    Except Fault Unit :=
  if t < store.start ∨ store.stop < t then
    .error (.timeOutside t store.start store.stop)
  else
    .ok ()

/-- Takes the interval of `quark` from `start` to `stop`. -/
def insert
    (start stop quark : Int)
    (value : Value) :
    Step Store Unit := do
  let store ← Step.subject
  Step.ofExcept store.checkHealthy
  if quark < 0 then
    throw (.notFound (.quark quark))
  let expected := store.expectedStart quark
  if start ≠ expected then
    Step.update fun store => { store with corrupted := true }
    throw (.contiguity quark expected start)
  if stop < store.lastStop then
    throw (.badArgument (.lateInterval quark stop store.lastStop))
  let i ← Step.ofExcept (Interval.make start stop quark value)
  onBackend (Backend.insert i)
  Step.update fun store => store.advance quark stop

/-- The stored interval of `quark` that covers `t`; none if it is still open. -/
def find
    (t quark : Int) :
    Step Store (Option Interval) := do
  let store ← Step.subject
  Step.ofExcept store.checkHealthy
  Step.ofExcept (store.checkTime t)
  onBackend (Backend.find t quark)

/-- The slots after every stored interval that covers `t` was put into its own. -/
def collect
    (t : Int)
    (slots : Tree.Slots) :
    Step Store Tree.Slots := do
  let store ← Step.subject
  Step.ofExcept store.checkHealthy
  Step.ofExcept (store.checkTime t)
  onBackend (Backend.collect t slots)

/-- Completes the history at `stop`. -/
def finish
    (stop : Int)
    (ns : Namespace) :
    Step Store Unit := do
  Step.ofExcept (← Step.subject).checkHealthy
  onBackend (Backend.finish stop ns)

/-- Gives the history up. -/
def dispose : Step Store Unit :=
  onBackend Backend.dispose

end Store

end Chronicle
