import Chronicle.Bytes.Checksum
import Chronicle.Tree.Node

/-!
# Nodes in bytes

Each node is written into a block of the same size.  First come the kind, the
closed flag, the numbers of the node and of its parent, its range, and how
many intervals and children there are; then, in an inner node, a place for
each child it can have; then the intervals, and zeros up to the checksum of
all that at the end.  The checksum is compared before anything is read.
-/

namespace Chronicle.Tree.Node

/-- The number of bytes of a block that come before its checksum. -/
def bodySize (config : Config) : Nat :=
  config.blockSize - checksumSize

/-- The first bytes of a block, before children and intervals. -/
def header (node : Node) : Bytes :=
  [node.kind.tag, if node.closed then 1 else 0]
    ++ LittleEndian.encode 4 node.seq
    ++ LittleEndian.encodeSigned 4 (node.parent.elim (-1) Int.ofNat)
    ++ LittleEndian.encodeSigned 8 node.start
    ++ LittleEndian.encodeSigned 8 node.stop
    ++ LittleEndian.encode 4 node.intervals.size
    ++ LittleEndian.encode 2 node.children.size

/-- The writing of a link to a child. -/
def Link.encode (link : Link) : Bytes :=
  LittleEndian.encode 4 link.seq ++ LittleEndian.encodeSigned 8 link.start

/-- The places for children: the links that there are, and zeros in the places left. -/
def childTable
    (config : Config)
    (node : Node) :
    Bytes :=
  match node.kind with
  | .leaf => []
  | .core =>
    (List.range config.maxChildren).flatMap fun place =>
      match node.children[place]? with
      | some link => link.encode
      | none => List.replicate linkSize 0

/-- The block of a node. -/
def encode
    (config : Config)
    (node : Node) :
    Except Fault Bytes := do
  let intervals ← node.intervals.toList.mapM Interval.encode
  let content := node.header ++ node.childTable config ++ intervals.flatten
  if bodySize config < content.length then
    throw (.intervalTooLarge content.length (bodySize config))
  let body := content ++ List.replicate (bodySize config - content.length) 0
  return body ++ Checksum.trailer body

/-- Reads a link to a child. -/
def readLink : Reader Link := do
  let seq ← Reader.unsigned 4
  let start ← Reader.signed 8
  return ⟨seq, start⟩

/-- Reads the places for children and keeps the first `count` of them. -/
def readChildren
    (config : Config)
    (seq count : Nat) :
    Kind →
    Reader (List Link)
  | .leaf => pure []
  | .core => do
    if config.maxChildren < count then
      throw (.undecodable (.childCount seq count config.maxChildren))
    let places ← Reader.many readLink config.maxChildren
    return places.take count

/-- Reads a node from the bytes before the checksum. -/
def readBody (config : Config) : Reader Node := do
  let tag ← Reader.byte
  let some kind := Kind.ofTag? tag | throw (.undecodable (.nodeTag tag))
  let closed ← Reader.byte
  let seq ← Reader.unsigned 4
  let parent ← Reader.signed 4
  let start ← Reader.signed 8
  let stop ← Reader.signed 8
  let intervalCount ← Reader.unsigned 4
  let childCount ← Reader.unsigned 2
  let children ← readChildren config seq childCount kind
  let intervals ← Reader.many Interval.read intervalCount
  return {
    kind := kind
    seq := seq
    parent := if 0 ≤ parent then some parent.toNat else none
    start := start
    stop := stop
    closed := closed ≠ 0
    intervals := intervals.toArray
    children := children.toArray }

/-- The node whose block is given. -/
def decode
    (config : Config)
    (block : Bytes) :
    Except Fault Node := do
  if block.length ≠ config.blockSize then
    throw (.undecodable (.blockLength block.length config.blockSize))
  let body := block.take (bodySize config)
  let stored := LittleEndian.decode (block.drop (bodySize config))
  let computed := (Checksum.crc32 body).toNat
  if stored ≠ computed then
    throw (.checksumMismatch stored computed)
  let (node, _) ← (readBody config).run body
  return node

end Chronicle.Tree.Node
