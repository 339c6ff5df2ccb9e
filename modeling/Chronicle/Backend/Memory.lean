import Chronicle.Padding
import Chronicle.Tree.Node

/-!
# Histories in memory

The intervals of each attribute in the order of their ends.  The interval that
covers an instant is found by bisection in the history of its attribute alone.
-/

namespace Chronicle

/-- A history kept in memory. -/
structure Memory where
  start : Int
  /-- The latest end of all intervals. -/
  stop : Int
  /-- The number of intervals ever taken. -/
  count : Nat
  /-- The intervals of each attribute, by its number. -/
  histories : Array (Array Interval)
  disposed : Bool
deriving DecidableEq

namespace Memory

/-- A history without intervals. -/
def empty (start : Int) : Memory :=
  ⟨start, start, 0, #[], false⟩

/-- Refuses to go on with a history that was given up. -/
def checkAlive (memory : Memory) : Except Fault Unit :=
  if memory.disposed then .error .disposed else .ok ()

/-- The intervals of one attribute. -/
def history
    (memory : Memory)
    (quark : Int) :
    Array Interval :=
  if 0 ≤ quark then memory.histories.getD quark.toNat #[] else #[]

/-- The history with one more interval. -/
def insert
    (memory : Memory)
    (i : Interval) :
    Except Fault Memory := do
  memory.checkAlive
  return { memory with
    stop := max memory.stop i.stop
    count := memory.count + 1
    histories :=
      setPadded memory.histories i.quark.toNat ((memory.history i.quark).push i) #[] }

/-- The history complete up to `stop`. -/
def finish
    (memory : Memory)
    (stop : Int) :
    Except Fault Memory := do
  memory.checkAlive
  return { memory with stop := max memory.stop stop }

/-- The interval among `intervals` that covers `t`: the first that does not end before it. -/
def lookup
    (intervals : Array Interval)
    (t : Int) :
    Option Interval :=
  let index := Bisection.prefixLength intervals fun i => i.stop < t
  intervals[index]?.filter fun i => i.start ≤ t

/-- The interval of `quark` that covers `t`, if there is one. -/
def find
    (memory : Memory)
    (t quark : Int) :
    Except Fault (Option Interval) := do
  memory.checkAlive
  return lookup (memory.history quark) t

/-- The slots after every interval that covers `t` was put into its own. -/
def collect
    (memory : Memory)
    (t : Int)
    (slots : Tree.Slots) :
    Except Fault Tree.Slots := do
  memory.checkAlive
  return slots.mapIdx fun quark slot =>
    match lookup (memory.history quark) t with
    | some i => some i
    | none => slot

/-- The history given up: its intervals are let go. -/
def dispose (memory : Memory) : Memory :=
  { memory with disposed := true, histories := #[] }

end Memory

end Chronicle
