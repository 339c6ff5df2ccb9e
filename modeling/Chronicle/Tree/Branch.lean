import Chronicle.Tree.Node

/-!
# The latest branch

Only the nodes from the root down to the last leaf change.  An interval
belongs into the deepest of them that starts no later than it does.  If that
node has no room, the node and all below it are closed at the latest time seen
so far, and an equally deep branch is started right after that time, below the
nearest node above with a place for one more child; that node is then the
deepest that starts no later than the interval, and the search for room goes
on there.  If no node above has such a place, a new root is put above the old
one, and it takes the interval.
-/

namespace Chronicle.Tree.Branch

/-- What became of a branch, or of the part of one below some node. -/
structure Placement where
  /-- Whether one of the nodes took the interval. -/
  held : Bool
  /-- The nodes that are still open, from the top down. -/
  branch : List Node
  /-- The nodes that were closed, in the order of their closing. -/
  closed : List Node
  /-- The number that the next node gets. -/
  nodeCount : Nat

/--
The branch that consists of `top` and of `depth` new nodes below it, which
start at `start`; the lowest of them is a leaf, and their numbers count up
from `seq`.
-/
def sprout
    (start : Int) :
    (depth : Nat) →
    (top : Node) →
    (seq : Nat) →
    List Node
  | 0, top, _ => [top]
  | depth + 1, top, seq =>
    let kind := if depth = 0 then .leaf else .core
    top.addChild seq start
      :: sprout start depth (Node.fresh kind seq (some top.seq) start) (seq + 1)

/-- Whether an interval fits into a node. -/
def Fits
    (config : Config)
    (node : Node)
    (i : Interval) :
    Prop :=
  i.encodedSize ≤ node.freeSpace config

instance
    (config : Config)
    (node : Node)
    (i : Interval) :
    Decidable (Fits config node i) :=
  inferInstanceAs (Decidable (_ ≤ _))

/-- The node with the interval, if it fits. -/
def offer
    (config : Config)
    (i : Interval)
    (node : Node) :
    Node :=
  if Fits config node i then node.addInterval i else node

/--
Finds room for an interval in `top`, which starts no later than it, and in the
nodes below.  Nodes are closed at `split` and new ones start behind it, where
`Tree.InRange` asks for an instant of eight bytes; the next new node gets the
number `nodeCount`.
-/
def settle
    (config : Config)
    (split : Int)
    (i : Interval)
    (nodeCount : Nat)
    (top : Node) :
    (below : List Node) →
    Placement
  | [] => ⟨Fits config top i, [offer config i top], [], nodeCount⟩
  | next :: rest =>
    if next.start ≤ i.start then
      let inner := settle config split i nodeCount next rest
      if inner.held then
        { inner with branch := top :: inner.branch }
      else if top.children.size < config.maxChildren then
        let depth := inner.branch.length
        { held := Fits config top i
          branch := sprout (split + 1) depth (offer config i top) inner.nodeCount
          closed := inner.closed ++ inner.branch.map fun node => node.close split
          nodeCount := inner.nodeCount + depth }
      else
        { inner with branch := top :: inner.branch }
    else
      ⟨Fits config top i, offer config i top :: next :: rest, [], nodeCount⟩

/-- Gives the uppermost node of a branch the parent `seq`. -/
def adopt
    (seq : Nat) :
    (branch : List Node) →
    List Node
  | [] => []
  | top :: below => { top with parent := some seq } :: below

/--
Finds room for an interval in the branch that consists of `root` and of the
nodes `below`, if need be in a new root.  As in `settle`, what is behind `split`
has to be an instant.
-/
def place
    (config : Config)
    (split : Int)
    (i : Interval)
    (nodeCount : Nat)
    (root : Node)
    (below : List Node) :
    Placement :=
  let found := settle config split i nodeCount root below
  if found.held then
    found
  else
    let depth := found.branch.length
    let seq := found.nodeCount
    let newRoot := (Node.fresh .core seq none config.start).addChild root.seq config.start
    { held := true
      branch := sprout (split + 1) depth (newRoot.addInterval i) (seq + 1)
      closed := found.closed ++ (adopt seq found.branch).map fun node => node.close split
      nodeCount := seq + 1 + depth }

@[simp]
theorem length_sprout
    (start : Int)
    (depth : Nat)
    (top : Node)
    (seq : Nat) :
    (sprout start depth top seq).length = depth + 1 := by
  induction depth generalizing top seq with
  | zero => rfl
  | succ depth ih => simp [sprout, ih]

/-- Finding room keeps the depth of a branch. -/
theorem length_settle
    (config : Config)
    (split : Int)
    (i : Interval)
    (nodeCount : Nat)
    (top : Node)
    (below : List Node) :
    (settle config split i nodeCount top below).branch.length = below.length + 1 := by
  induction below generalizing top with
  | nil => rfl
  | cons next rest ih =>
    simp only [settle]
    split
    · split
      · simp [ih]
      · split
        · simp [ih]
        · simp [ih]
    · simp

end Chronicle.Tree.Branch
