import Chronicle.Backend.Memory
import Chronicle.Tree.Basic

/-!
# Backends

A backend keeps intervals and answers questions about an instant.  There are
two of them, memory and a tree in a file, and a third that stands for storage
that can fail: a memory that refuses some of the calls to take an interval.
-/

namespace Chronicle

namespace Backend

/-- A tree in a named file, which can be given up. -/
structure Stored where
  name : String
  tree : Tree
  disposed : Bool

/-- A memory that refuses the insertions that it is told to. -/
structure Unreliable where
  memory : Memory
  /-- The fault, if any, with which the insertion of each number is refused. -/
  refuses : Nat → Option Fault
  /-- The number of insertions asked for. -/
  asked : Nat

/-- What backend a history is to have. -/
inductive Plan
  | memory
  | file (name : String) (config : Tree.Config)
deriving DecidableEq

end Backend

/-- Where intervals are kept. -/
inductive Backend
  | memory (memory : Memory)
  | stored (stored : Backend.Stored)
  | unreliable (unreliable : Backend.Unreliable)

namespace Backend

/-- A new backend for a history that begins at `start`. -/
def create
    (plan : Plan)
    (start : Int)
    (volume : Volume) :
    Except Fault (Volume × Backend) :=
  match plan with
  | .memory => .ok (volume, .memory (.empty start))
  | .file name config => do
    let (volume, tree) ← Tree.create name { config with start } volume
    return (volume, .stored ⟨name, tree, false⟩)

/-- The backend of a file that is complete, with the namespace in it. -/
def reopen
    (name : String)
    (version : Nat)
    (volume : Volume) :
    Except Fault (Backend × Namespace) := do
  let (tree, ns) ← Tree.reopen name version volume
  return (.stored ⟨name, tree, false⟩, ns)

/-- The start of the history. -/
def start : Backend → Int
  | memory m => m.start
  | stored s => s.tree.start
  | unreliable u => u.memory.start

/-- The latest end of all intervals. -/
def stop : Backend → Int
  | memory m => m.stop
  | stored s => s.tree.stop
  | unreliable u => u.memory.stop

/-- The size of the largest interval that is taken, if there is such a bound. -/
def maxIntervalSize? : Backend → Option Nat
  | memory _ => none
  | stored s => some s.tree.maxIntervalSize
  | unreliable _ => none

/-- Refuses to go on with a tree that was given up. -/
def Stored.checkAlive (s : Stored) : Except Fault Unit :=
  if s.disposed then .error .disposed else .ok ()

/-- Works on the tree of a backend that has one, provided that it was not given up. -/
def onTree
    {α : Type}
    (s : Stored)
    (step : Step Tree α) :
    Step Backend α := do
  Step.ofExcept s.checkAlive
  Step.onPart (fun _ => s.tree) (fun _ tree => .stored { s with tree }) step

/-- Takes an interval. -/
def insert (i : Interval) : Step Backend Unit := do
  match ← Step.subject with
  | memory m => Step.replace (memory (← Step.ofExcept (m.insert i)))
  | stored s => onTree s (Tree.insert i)
  | unreliable u =>
    Step.replace (unreliable { u with asked := u.asked + 1 })
    match u.refuses u.asked with
    | some fault => throw fault
    | none =>
      let m ← Step.ofExcept (u.memory.insert i)
      Step.replace (unreliable { u with asked := u.asked + 1, memory := m })

/-- Completes the history at `stop` and keeps its namespace, where it is kept in a file. -/
def finish
    (stop : Int)
    (ns : Namespace) :
    Step Backend Unit := do
  match ← Step.subject with
  | memory m => Step.replace (memory (← Step.ofExcept (m.finish stop)))
  | stored s => onTree s (Tree.finish stop ns)
  | unreliable u =>
    Step.replace (unreliable { u with memory := ← Step.ofExcept (u.memory.finish stop) })

/-- The interval of `quark` that covers `t`, if there is one. -/
def find
    (t quark : Int) :
    Step Backend (Option Interval) := do
  match ← Step.subject with
  | memory m => Step.ofExcept (m.find t quark)
  | stored s => onTree s (if quark < 0 then pure none else Tree.find t quark)
  | unreliable u => Step.ofExcept (u.memory.find t quark)

/-- The slots after every interval that covers `t` was put into its own. -/
def collect
    (t : Int)
    (slots : Tree.Slots) :
    Step Backend Tree.Slots := do
  match ← Step.subject with
  | memory m => Step.ofExcept (m.collect t slots)
  | stored s => onTree s (Tree.collect t slots)
  | unreliable u => Step.ofExcept (u.memory.collect t slots)

/-- Gives the history up.  A file that is complete stays; one that is not loses its name. -/
def dispose : Step Backend Unit := do
  match ← Step.subject with
  | memory m => Step.replace (memory m.dispose)
  | unreliable u => Step.replace (unreliable { u with memory := u.memory.dispose })
  | stored s =>
    if s.disposed then
      return
    Step.onPart (fun _ => s.tree) (fun _ tree => .stored ⟨s.name, tree, true⟩)
      (Tree.onFile Tree.NodeFile.clearCache)
    if !s.tree.finished then
      Step.updateVolume fun volume => volume.unlink s.name

end Backend

end Chronicle
