import Chronicle.Bisection
import Chronicle.Interval.Codec
import Chronicle.Tree.Config

/-!
# Nodes of a tree

A node covers a range of time and holds intervals in the order in which they
came, which is the order of their ends.  An inner node also links to its
children in the order of their starts.  A search in a node bisects by end
first, so that only intervals that may cover the instant are looked at, and
then takes what covers it.
-/

namespace Chronicle.Tree

namespace Node

/-- The place of a node in its tree. -/
inductive Kind
  /-- A node with children. -/
  | core
  /-- A node at the bottom. -/
  | leaf
deriving DecidableEq, Repr

namespace Kind

/-- The byte that announces a node of this kind. -/
def tag : Kind → UInt8
  | core => 1
  | leaf => 2

/-- The kind announced by a byte. -/
def ofTag? : UInt8 → Option Kind
  | 1 => some core
  | 2 => some leaf
  | _ => none

@[simp]
theorem ofTag?_tag
    (kind : Kind) :
    ofTag? kind.tag = some kind := by
  cases kind <;> rfl

end Kind

/-- A link to a child: its number, and the start of its range. -/
structure Link where
  seq : Nat
  start : Int
deriving DecidableEq, Repr

end Node

/-- One node of a tree. -/
structure Node where
  kind : Node.Kind
  /-- The number of the node, which tells where in the file it is. -/
  seq : Nat
  /-- The number of the node above; the root has none. -/
  parent : Option Nat
  start : Int
  /-- The end of the range, which means something once the node is closed. -/
  stop : Int
  closed : Bool
  intervals : Array Interval
  children : Array Node.Link
deriving DecidableEq

namespace Node

/-- An open node without intervals and children. -/
def fresh
    (kind : Kind)
    (seq : Nat)
    (parent : Option Nat)
    (start : Int) :
    Node where
  kind := kind
  seq := seq
  parent := parent
  start := start
  stop := start
  closed := false
  intervals := #[]
  children := #[]

/-- The number of bytes for intervals in a node of a kind. -/
def Kind.capacity
    (config : Config) :
    Kind →
    Nat
  | .core => config.coreCapacity
  | .leaf => config.leafCapacity

/-- The number of bytes that the intervals of a node take. -/
def usedBytes (node : Node) : Nat :=
  node.intervals.foldl (fun total i => total + i.encodedSize) 0

/-- The number of bytes that are left for intervals. -/
def freeSpace
    (config : Config)
    (node : Node) :
    Nat :=
  node.kind.capacity config - node.usedBytes

/-- The node with one more interval at its end. -/
def addInterval
    (node : Node)
    (i : Interval) :
    Node :=
  { node with intervals := node.intervals.push i }

/-- The node with one more child at its end. -/
def addChild
    (node : Node)
    (seq : Nat)
    (start : Int) :
    Node :=
  { node with children := node.children.push ⟨seq, start⟩ }

/--
The node closed at `stop`.  A node closed before its start covers nothing.  What
is before the start is an integer, also where no instant of eight bytes is.
-/
def close
    (node : Node)
    (stop : Int) :
    Node :=
  { node with stop := max stop (node.start - 1), closed := true }

/-- The number of leading intervals that end before `t`. -/
def firstCandidate
    (node : Node)
    (t : Int) :
    Nat :=
  Bisection.prefixLength node.intervals fun i => i.stop < t

/-- The intervals that do not end before `t`. -/
def candidates
    (node : Node)
    (t : Int) :
    List Interval :=
  node.intervals.toList.drop (node.firstCandidate t)

/-- The interval of `quark` in this node that covers `t`. -/
def find?
    (node : Node)
    (t : Int)
    (quark : Int) :
    Option Interval :=
  (node.candidates t).find? fun i => i.quark = quark ∧ i.start ≤ t

end Node

/-- One place for the answer about each attribute, in the order of their numbers. -/
abbrev Slots := Array (Option Interval)

namespace Slots

/-- The slots after `i` was put into the one of its attribute, if there is one. -/
def put
    (slots : Slots)
    (i : Interval) :
    Slots :=
  if 0 ≤ i.quark then slots.setIfInBounds i.quark.toNat (some i) else slots

/-- The intervals in all slots, unless one is empty. -/
def intervals? (slots : Slots) : Option (List Interval) :=
  slots.toList.mapM fun slot => slot

end Slots

namespace Node

/-- The slots after every interval of this node that covers `t` was put into its own. -/
def collect
    (node : Node)
    (t : Int)
    (slots : Slots) :
    Slots :=
  ((node.candidates t).filter fun i => i.start ≤ t).foldl Slots.put slots

/-- The child whose range contains `t`: the last that starts no later. -/
def childAt?
    (node : Node)
    (t : Int) :
    Option Nat :=
  let started := Bisection.prefixLength node.children fun link => link.start ≤ t
  if started = 0 then none else (node.children[started - 1]?).map (·.seq)

@[simp]
theorem usedBytes_addInterval
    (node : Node)
    (i : Interval) :
    (node.addInterval i).usedBytes = node.usedBytes + i.encodedSize := by
  simp [usedBytes, addInterval]

@[simp]
theorem usedBytes_addChild
    (node : Node)
    (seq : Nat)
    (start : Int) :
    (node.addChild seq start).usedBytes = node.usedBytes := rfl

@[simp]
theorem usedBytes_close
    (node : Node)
    (stop : Int) :
    (node.close stop).usedBytes = node.usedBytes := rfl

end Node

end Chronicle.Tree
