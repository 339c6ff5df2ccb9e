import Chronicle.Namespace.Codec
import Chronicle.Step
import Chronicle.Tree.Block
import Chronicle.Tree.Header

/-!
# Nodes in a file

The blocks of a history file stand one after the other behind the header, in
the order of the numbers of their nodes; the namespace stands behind them.
Nodes that were written or read lately are kept at hand.  A bounded number of
them is kept: the one that came first goes first, and a node that is written
again keeps its turn.
-/

namespace Chronicle.Tree

/--
The nodes kept at hand, one under each number, and beside them their numbers in
the order in which they came.
-/
structure NodeCache where
  capacity : Nat
  nodes : List Node
  order : List Nat
deriving DecidableEq

namespace NodeCache

/-- A cache without nodes. -/
def empty (capacity : Nat) : NodeCache :=
  ⟨capacity, [], []⟩

/-- The node kept under a number. -/
def get?
    (cache : NodeCache)
    (seq : Nat) :
    Option Node :=
  cache.nodes.find? fun node => node.seq = seq

/-- Lets go of the nodes that came first until no more are left than there is room for. -/
def settle (capacity : Nat) :
    (order : List Nat) →
    (nodes : List Node) →
    NodeCache
  | [], nodes => ⟨capacity, nodes, []⟩
  | oldest :: later, nodes =>
    if capacity < later.length + 1 then
      settle capacity later (nodes.filter fun held => held.seq ≠ oldest)
    else
      ⟨capacity, nodes, oldest :: later⟩

/-- The cache after a node was written or read. -/
def insert
    (cache : NodeCache)
    (node : Node) :
    NodeCache :=
  if cache.capacity = 0 then
    cache
  else if cache.nodes.any fun held => held.seq = node.seq then
    settle cache.capacity cache.order
      (cache.nodes.map fun held => if held.seq = node.seq then node else held)
  else
    settle cache.capacity (cache.order ++ [node.seq]) (cache.nodes ++ [node])

/-- The cache after all nodes were let go. -/
def clear (cache : NodeCache) : NodeCache :=
  { cache with nodes := [], order := [] }

@[simp]
theorem nodes_empty
    (capacity : Nat) :
    (empty capacity).nodes = [] := rfl

@[simp]
theorem nodes_clear
    (cache : NodeCache) :
    cache.clear.nodes = [] := rfl

@[simp]
theorem capacity_settle
    (capacity : Nat)
    (order : List Nat)
    (nodes : List Node) :
    (settle capacity order nodes).capacity = capacity := by
  induction order generalizing nodes with
  | nil => rfl
  | cons oldest later ih =>
      unfold settle
      split
      · exact ih _
      · rfl

@[simp]
theorem capacity_insert
    (cache : NodeCache)
    (node : Node) :
    (cache.insert node).capacity = cache.capacity := by
  unfold insert
  split
  · rfl
  · split <;> exact capacity_settle _ _ _

end NodeCache

/-- Access to the blocks of a history file. -/
structure NodeFile where
  config : Config
  /-- The number of the file in its volume. -/
  file : Nat
  cache : NodeCache
deriving DecidableEq

namespace NodeFile

/-- Access to the blocks of a file, with no node at hand yet. -/
def ofFile
    (config : Config)
    (file : Nat) :
    NodeFile :=
  ⟨config, file, .empty config.cacheSize⟩

/-- Where the block of a node begins. -/
def blockOffset
    (io : NodeFile)
    (seq : Nat) :
    Nat :=
  Header.size + seq * io.config.blockSize

/-- Where the first `nodeCount` blocks end. -/
def endOfNodes
    (io : NodeFile)
    (nodeCount : Nat) :
    Nat :=
  io.blockOffset nodeCount

/-- The number of whole blocks in the file. -/
def blockCount
    (io : NodeFile)
    (volume : Volume) :
    Nat :=
  ((volume.content io.file).size - Header.size) / io.config.blockSize

/-- Keeps a node at hand. -/
def keep (node : Node) : Step NodeFile Unit :=
  Step.update fun io => { io with cache := io.cache.insert node }

/-- Puts bytes into the file. -/
def writeAt
    (offset : Nat)
    (bytes : Bytes) :
    Step NodeFile Unit := do
  let io ← Step.subject
  Step.updateVolume fun volume => volume.write io.file offset bytes

/-- Writes a node into its block and keeps it at hand. -/
def writeNode (node : Node) : Step NodeFile Unit := do
  let io ← Step.subject
  let block ← Step.ofExcept (node.encode io.config)
  writeAt (io.blockOffset node.seq) block
  keep node

/-- The node in the block of number `seq`. -/
def fetch
    (io : NodeFile)
    (volume : Volume)
    (seq : Nat) :
    Except Fault Node := do
  let block ← volume.read io.file (io.blockOffset seq) io.config.blockSize
  let node ← Node.decode io.config block
  if node.seq = seq then
    return node
  else
    throw (.undecodable (.strayNode seq node.seq))

/-- The node of number `seq`: the one at hand or else the one in its block, which is then kept. -/
def readNode (seq : Nat) : Step NodeFile Node := do
  let io ← Step.subject
  match io.cache.get? seq with
  | some node => return node
  | none =>
    let node ← Step.ofExcept (io.fetch (← Step.volume) seq)
    keep node
    return node

/-- Writes a namespace with its checksum and tells how long it is without. -/
def writeNamespace
    (offset : Nat)
    (ns : Namespace) :
    Step NodeFile Nat := do
  let body ← Step.ofExcept ns.encode
  if 4294967296 ≤ body.length then
    throw (.badArgument (.longNamespace body.length))
  writeAt offset (body ++ Checksum.trailer body)
  return body.length

/-- The namespace of `size` bytes that stands at `offset`. -/
def readNamespace
    (io : NodeFile)
    (volume : Volume)
    (offset size : Nat) :
    Except Fault Namespace := do
  let bytes ← volume.read io.file offset (size + checksumSize)
  let body := bytes.take size
  let stored := LittleEndian.decode (bytes.drop size)
  let computed := (Checksum.crc32 body).toNat
  if stored ≠ computed then
    throw (.checksumMismatch stored computed)
  let (ns, _) ← Namespace.read.run body
  return ns

/-- Writes the header. -/
def writeHeader (header : Header) : Step NodeFile Unit :=
  writeAt 0 header.encode

/-- Lets all nodes go that are at hand. -/
def clearCache : Step NodeFile Unit :=
  Step.update fun io => { io with cache := io.cache.clear }

end NodeFile

end Chronicle.Tree
