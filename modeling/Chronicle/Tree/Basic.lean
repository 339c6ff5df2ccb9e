import Chronicle.Tree.Branch
import Chronicle.Tree.NodeFile

/-!
# History trees

A history tree keeps intervals in nodes of a file, so that the answer about an
instant is found on one way from the root to a leaf.  The nodes of the latest
branch are open and at hand; all others are closed and in the file.  A tree
that is finished takes no more intervals; its file then also holds the
namespace and a header that says so, and can be opened again.
-/

namespace Chronicle

/-- A history tree over a file. -/
structure Tree where
  io : Tree.NodeFile
  /-- The latest branch, from the root down; nothing in a tree opened again. -/
  branch : List Tree.Node
  rootSeq : Nat
  /-- The number that the next node gets. -/
  nodeCount : Nat
  /-- The latest end of all intervals. -/
  stop : Int
  /-- Whether the tree takes no more intervals. -/
  finished : Bool
deriving DecidableEq

namespace Tree

/-- The settings of a tree. -/
def config (tree : Tree) : Config :=
  tree.io.config

/-- The start of the history. -/
def start (tree : Tree) : Int :=
  tree.config.start

/-- The number of levels of the latest branch. -/
def depth (tree : Tree) : Nat :=
  tree.branch.length

/-- The size of the largest interval that every node has room for. -/
def maxIntervalSize (tree : Tree) : Nat :=
  tree.config.coreCapacity

/-- Works on the file of a tree. -/
def onFile
    {α : Type}
    (step : Step NodeFile α) :
    Step Tree α :=
  Step.onPart Tree.io (fun tree io => { tree with io }) step

/-- A new tree over a new file, with a single leaf. -/
def create
    (name : String)
    (config : Config)
    (volume : Volume) :
    Except Fault (Volume × Tree) := do
  config.validate
  let (volume, file) ← volume.create name
  return (volume.write file 0 (Header.unfinished config).encode,
    { io := .ofFile config file
      branch := [.fresh .leaf 0 none config.start]
      rootSeq := 0
      nodeCount := 1
      stop := config.start
      finished := false })

/-- The finished tree of a file that a provider of the given version built, with its namespace. -/
def reopen
    (name : String)
    (version : Nat)
    (volume : Volume) :
    Except Fault (Tree × Namespace) := do
  let file ← volume.locate name
  let header ← Header.decode (volume.content file).toList
  if !header.finished then
    throw (.undecodable (.unfinishedFile name))
  if header.version ≠ version then
    throw (.unsupportedVersion header.version)
  header.config.validate
  let io := NodeFile.ofFile header.config file
  let ns ← io.readNamespace volume header.namespaceOffset header.namespaceSize
  return (
    { io := io
      branch := []
      rootSeq := header.rootSeq
      nodeCount := header.nodeCount
      stop := header.stop
      finished := true },
    ns)

/-- Writes nodes to the file, one after the other. -/
def writeNodes (nodes : List Node) : Step Tree Unit :=
  nodes.forM fun node => onFile (NodeFile.writeNode node)

/--
Takes an interval that ends no earlier than those before it.  The latest time
is noted even if the interval starts too early to be taken.
-/
def insert (i : Interval) : Step Tree Unit := do
  let tree ← Step.subject
  if tree.finished then
    throw (.badArgument .finishedTree)
  if tree.maxIntervalSize < i.encodedSize then
    throw (.intervalTooLarge i.encodedSize tree.maxIntervalSize)
  let split := max tree.stop i.stop
  Step.update fun tree => { tree with stop := split }
  match tree.branch with
  | [] => throw (.badArgument .finishedTree)
  | root :: below =>
    if i.start < root.start then
      throw (.timeOutside i.start root.start split)
    let placed := Branch.place tree.config split i tree.nodeCount root below
    Step.update fun tree =>
      { tree with
        branch := placed.branch
        rootSeq := (placed.branch.head?.map (·.seq)).getD tree.rootSeq
        nodeCount := placed.nodeCount }
    writeNodes placed.closed

/--
Closes the latest branch no earlier than at `stop` and completes the file.  A
finished tree stays as it is.
-/
def finish
    (stop : Int)
    (ns : Namespace) :
    Step Tree Unit := do
  let tree ← Step.subject
  if tree.finished then
    return
  let last := max tree.stop stop
  let branch := tree.branch.map fun node => node.close last
  Step.update fun tree => { tree with branch, stop := last }
  writeNodes branch
  let offset := tree.io.endOfNodes tree.nodeCount
  let size ← onFile (NodeFile.writeNamespace offset ns)
  onFile (NodeFile.writeHeader
    { Header.unfinished tree.config with
      nodeCount := tree.nodeCount
      rootSeq := tree.rootSeq
      stop := last
      namespaceOffset := offset
      namespaceSize := size
      finished := true })
  Step.update fun tree => { tree with finished := true }

/-- The node of number `seq`: one of the latest branch, or else one of the file. -/
def nodeAt (seq : Nat) : Step Tree Node := do
  let tree ← Step.subject
  match tree.branch.find? fun node => node.seq = seq with
  | some node => return node
  | none => onFile (NodeFile.readNode seq)

/-- The root of a tree. -/
def root : Step Tree Node := do
  let tree ← Step.subject
  match tree.branch with
  | root :: _ => return root
  | [] => onFile (NodeFile.readNode tree.rootSeq)

/--
Goes from `node` down towards `t`.  Every node on the way is visited, until
what was gathered is enough or there is no child at `t`.
-/
def descend
    {α : Type}
    (t : Int)
    (visit : Node → α → α)
    (enough : α → Bool) :
    (fuel : Nat) →
    (node : Node) →
    (gathered : α) →
    Step Tree α
  | 0, _, _ => throw .endlessDescent
  | fuel + 1, node, gathered => do
    let gathered := visit node gathered
    if enough gathered then
      return gathered
    match node.kind, node.childAt? t with
    | .core, some seq => descend t visit enough fuel (← nodeAt seq) gathered
    | _, _ => return gathered

/--
More than the number of nodes that there are, at hand or in the file: a way
down that is this long meets some node twice and never ends.
-/
def descentBound
    (tree : Tree)
    (volume : Volume) :
    Nat :=
  tree.branch.length + tree.io.cache.nodes.length + tree.io.blockCount volume + 1

/-- Goes from the root down towards `t`. -/
def descendFromRoot
    {α : Type}
    (t : Int)
    (visit : Node → α → α)
    (enough : α → Bool)
    (gathered : α) :
    Step Tree α := do
  let bound := (← Step.subject).descentBound (← Step.volume)
  descend t visit enough bound (← root) gathered

/-- The interval of `quark` that covers `t`, if there is one. -/
def find
    (t quark : Int) :
    Step Tree (Option Interval) :=
  descendFromRoot t (fun node _ => node.find? t quark) Option.isSome none

/-- The slots after every interval that covers `t` was put into its own. -/
def collect
    (t : Int)
    (slots : Slots) :
    Step Tree Slots :=
  descendFromRoot t (fun node => node.collect t) (fun _ => false) slots

end Tree

end Chronicle
