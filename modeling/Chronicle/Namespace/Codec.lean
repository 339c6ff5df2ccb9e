import Chronicle.Bytes.Reader
import Chronicle.Namespace.Basic

/-!
# Namespaces in bytes

A namespace is written as the number of its attributes in four bytes and then,
in the order of their numbers, for each one its parent in four bytes, the
length of its name in two, and the name.  A name too long for its length field
has no writing.  An attribute that does not come after its parent is refused.
-/

namespace Chronicle

/-- The writing of one attribute. -/
def Attribute.encode (a : Attribute) : Except Fault Bytes :=
  if a.name.utf8ByteSize < 65536 then
    .ok (LittleEndian.encodeSigned 4 a.parent
      ++ LittleEndian.encode 2 a.name.utf8ByteSize
      ++ Utf8.encode a.name)
  else
    .error (.badArgument (.longName a.name.utf8ByteSize))

namespace Namespace

/-- The writing of a namespace. -/
def encode (ns : Namespace) : Except Fault Bytes := do
  let attributes ← ns.attributes.toList.mapM Attribute.encode
  return LittleEndian.encode 4 ns.size ++ attributes.flatten

/-- Reads one attribute and adds it. -/
def readAttribute (ns : Namespace) : Reader Namespace := do
  let parent ← Reader.signed 4
  let bytes ← Reader.take (← Reader.unsigned 2)
  match Utf8.decode bytes with
  | .error flaw => throw (.undecodable (.nameText flaw))
  | .ok name =>
    if ns.IsPlace parent then
      pure (ns.add parent name)
    else
      throw (.undecodable (.parent ns.size parent))

/-- Reads `count` attributes and adds them. -/
def readAttributes
    (ns : Namespace) :
    (count : Nat) →
    Reader Namespace
  | 0 => pure ns
  | count + 1 => do
    let extended ← ns.readAttribute
    readAttributes extended count

/-- Reads a namespace. -/
def read : Reader Namespace := do
  readAttributes empty (← Reader.unsigned 4)

end Namespace

end Chronicle
