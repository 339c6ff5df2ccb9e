import Chronicle.Bytes.Checksum
import Chronicle.Bytes.Reader
import Chronicle.Tree.Config

/-!
# The header of a history file

The first bytes of a history file tell what it is, how its blocks are laid
out, where its root and its namespace are, and whether it is complete.  A
reader refuses, in this order, what is no history file, what has a newer
format, and what was changed.
-/

namespace Chronicle.Tree

/-- What the first bytes of a history file tell. -/
structure Header where
  version : Nat
  blockSize : Nat
  maxChildren : Nat
  /-- The number of blocks in the file. -/
  nodeCount : Nat
  rootSeq : Nat
  start : Int
  stop : Int
  /-- Where the namespace is, once the history is complete. -/
  namespaceOffset : Nat
  namespaceSize : Nat
  /-- Whether the history is complete. -/
  finished : Bool
deriving DecidableEq, Repr

namespace Header

/-- The number of bytes of a header. -/
def size : Nat := 64

/-- The bytes that every history file begins with. -/
def magic : Bytes := [0x53, 0x48, 0x54, 0x46]

/-- The newest format that is understood. -/
def formatVersion : Nat := 1

/-- The header of a history that was only begun. -/
def unfinished (config : Config) : Header where
  version := config.version
  blockSize := config.blockSize % 4294967296
  maxChildren := config.maxChildren % 4294967296
  nodeCount := 0
  rootSeq := 0
  start := config.start
  stop := config.start
  namespaceOffset := 0
  namespaceSize := 0
  finished := false

/-- The settings that a header tells. -/
def config (header : Header) : Config where
  blockSize := header.blockSize
  maxChildren := header.maxChildren
  version := header.version
  start := header.start

/-- The bytes of a header before its checksum. -/
def body (header : Header) : Bytes :=
  magic
    ++ LittleEndian.encode 2 formatVersion
    ++ LittleEndian.encode 4 header.version
    ++ LittleEndian.encode 4 header.blockSize
    ++ LittleEndian.encode 4 header.maxChildren
    ++ LittleEndian.encode 4 header.nodeCount
    ++ LittleEndian.encode 4 header.rootSeq
    ++ LittleEndian.encodeSigned 8 header.start
    ++ LittleEndian.encodeSigned 8 header.stop
    ++ LittleEndian.encode 8 header.namespaceOffset
    ++ LittleEndian.encode 4 header.namespaceSize
    ++ [if header.finished then 1 else 0]
    ++ List.replicate 5 0

/-- The writing of a header. -/
def encode (header : Header) : Bytes :=
  header.body ++ Checksum.trailer header.body

/-- Reads the fields of a header after the format version. -/
def readFields : Reader Header := do
  let version ← Reader.unsigned 4
  let blockSize ← Reader.unsigned 4
  let maxChildren ← Reader.unsigned 4
  let nodeCount ← Reader.unsigned 4
  let rootSeq ← Reader.unsigned 4
  let start ← Reader.signed 8
  let stop ← Reader.signed 8
  let namespaceOffset ← Reader.unsigned 8
  let namespaceSize ← Reader.unsigned 4
  let finished ← Reader.byte
  return {
    version := version
    blockSize := blockSize
    maxChildren := maxChildren
    nodeCount := nodeCount
    rootSeq := rootSeq
    start := start
    stop := stop
    namespaceOffset := namespaceOffset
    namespaceSize := namespaceSize
    finished := finished ≠ 0 }

/-- Reads a header, together with the checksum behind it. -/
def read : Reader Header := do
  let bytes ← Reader.take size
  let body := bytes.take (size - checksumSize)
  let mark := body.take 4
  if mark ≠ magic then
    throw (.badMagic mark)
  let format := LittleEndian.decode ((body.drop 4).take 2)
  if formatVersion < format then
    throw (.unsupportedVersion format)
  let stored := LittleEndian.decode (bytes.drop (size - checksumSize))
  let computed := (Checksum.crc32 body).toNat
  if stored ≠ computed then
    throw (.checksumMismatch stored computed)
  let (header, _) ← readFields.run (body.drop 6)
  return header

/-- The header whose bytes are given. -/
def decode (bytes : Bytes) : Except Fault Header :=
  Prod.fst <$> read.run bytes

@[simp]
theorem length_body
    (header : Header) :
    header.body.length = size - checksumSize := by
  simp [body, magic, size, checksumSize]

@[simp]
theorem length_encode
    (header : Header) :
    header.encode.length = size := by
  simp [encode, size, checksumSize]

end Header

end Chronicle.Tree
