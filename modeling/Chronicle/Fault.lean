import Chronicle.Text.Utf8
import Chronicle.Value.Kind

/-!
# Faults

Everything that can go wrong, by cause.  Instants are integers, counted in
nanoseconds; attributes go by their numbers, called quarks.  A fault carries the data of its
cause; its wording is decided in one place, `Fault.message`.  A fault is fatal
when it touches the integrity of a history: whoever writes the history must
then stop.
-/

namespace Chronicle

/-- The latest instant that a file can hold. -/
def latestInstant : Int := 9223372036854775807

namespace Quark

/-- The nameless root above all attributes. -/
def root : Int := -1

/-- The answer of a look-up that finds nothing. -/
def nowhere : Int := -2

end Quark

namespace Fault

/-- What was looked for and does not exist. -/
inductive Missing
  /-- An attribute asked for by number. -/
  | quark (quark : Int)
  /-- An attribute asked for by path. -/
  | path (segments : List String)
deriving DecidableEq, Repr

/-- Why an argument or a setting is refused. -/
inductive BadArgument
  /-- An interval that ends before it starts. -/
  | reversedInterval (quark : Int) (start stop : Int)
  /-- A text too long for its length field. -/
  | longString (bytes : Nat)
  /-- An attribute name too long for its length field. -/
  | longName (bytes : Nat)
  /-- A namespace too long for its length field. -/
  | longNamespace (bytes : Nat)
  /-- A tree whose nodes may have fewer than two children. -/
  | fewChildren (given : Nat)
  /-- A tree whose child counts do not fit their field. -/
  | manyChildren (given : Nat)
  /-- A block size that does not fit its field. -/
  | largeBlock (size : Nat)
  /-- A block size that leaves no room for an interval. -/
  | smallBlock (size children : Nat)
  /-- An interval for a tree that takes no more of them. -/
  | finishedTree
  /-- An interval that ends before the last stored one. -/
  | lateInterval (quark : Int) (stop lastStop : Int)
  /-- One element more than a stack may have. -/
  | deepStack (quark : Int) (limit : Nat)
  /-- A time range that ends before it starts. -/
  | reversedRange (start stop : Int)
  /-- No bucket to fill, or a reversed range to fill buckets from. -/
  | unbucketed (buckets : Nat) (start stop : Int)
  /-- A time range whose length cannot be told. -/
  | wideRange (start stop : Int)
  /-- A second analysis of one name. -/
  | takenName (id : String)
  /-- A reason in the caller's words. -/
  | stated (text : String)
deriving DecidableEq, Repr

/-- The wording of a refused argument. -/
def BadArgument.message : BadArgument → String
  | reversedInterval quark start stop =>
    s!"interval of quark {quark} ends at {stop} before its start {start}"
  | longString bytes => s!"string value of {bytes} bytes"
  | longName bytes => s!"attribute name of {bytes} bytes"
  | longNamespace bytes => s!"attribute section of {bytes} bytes"
  | fewChildren given => s!"max_children must be at least 2, got {given}"
  | manyChildren given => s!"max_children must fit in 16 bits, got {given}"
  | largeBlock size => s!"block_size {size} too large"
  | smallBlock size children => s!"block_size {size} too small for {children} children"
  | finishedTree => "history tree is already finished"
  | lateInterval quark stop lastStop =>
    s!"interval of quark {quark} ends at {stop} before the last stored end {lastStop}"
  | deepStack quark limit => s!"stack on quark {quark} exceeds {limit} elements"
  | reversedRange start stop => s!"reversed range [{start}, {stop}]"
  | unbucketed buckets start stop => s!"{buckets} buckets over [{start}, {stop}]"
  | wideRange start stop => s!"range [{start}, {stop}] is too wide"
  | takenName id => s!"analysis {id} already exists"
  | stated text => text

/-- Why stored bytes or an event make no sense. -/
inductive Undecodable
  /-- A byte that announces no kind of value. -/
  | valueTag (tag : UInt8)
  /-- A text value that is not UTF-8. -/
  | stringText (flaw : Utf8.Flaw)
  /-- An interval that is reversed or belongs to no attribute. -/
  | interval (start stop : Int) (quark : Int)
  /-- An attribute name that is not UTF-8. -/
  | nameText (flaw : Utf8.Flaw)
  /-- An attribute that does not come after its parent. -/
  | parent (child : Nat) (parent : Int)
  /-- A node block of the wrong length. -/
  | blockLength (given expected : Nat)
  /-- A byte that announces no kind of node. -/
  | nodeTag (tag : UInt8)
  /-- A node with more children than its tree allows. -/
  | childCount (node given limit : Nat)
  /-- A history file that was left before it was complete. -/
  | unfinishedFile (name : String)
  /-- A node in the place of another one. -/
  | strayNode (block node : Nat)
  /-- A change that names no attribute. -/
  | pathlessChange
  /-- A reason in the event decoder's words. -/
  | stated (text : String)
deriving DecidableEq, Repr

/-- The wording of what makes no sense. -/
def Undecodable.message : Undecodable → String
  | valueTag tag => s!"unknown value type tag {tag.toNat}"
  | stringText flaw => s!"Invalid UTF-8 in string value: {flaw.message}"
  | interval start stop quark => s!"malformed interval [{start}, {stop}] for quark {quark}"
  | nameText flaw => s!"Invalid UTF-8 in attribute name: {flaw.message}"
  | parent child above => s!"attribute {child} has invalid parent {above}"
  | blockLength given expected => s!"node block of {given} bytes, expected {expected}"
  | nodeTag tag => s!"unknown node kind {tag.toNat}"
  | childCount node given limit => s!"node {node} has {given} children, max is {limit}"
  | unfinishedFile name => s!"history file {name} was not completely built"
  | strayNode block node => s!"block {block} holds node {node}"
  | pathlessChange => "state change without a path"
  | stated text => text

/-- What the storage below a history refuses. -/
inductive Storage
  /-- Fewer bytes than were asked for. -/
  | exhausted
  /-- A file, or the directory it should be in, that does not exist. -/
  | noSuchFile
  /-- A refusal in the storage's words. -/
  | stated (text : String)
deriving DecidableEq, Repr

/-- The wording of a refusal of the storage. -/
def Storage.message : Storage → String
  | exhausted => "failed to fill whole buffer"
  | noSuchFile => "No such file or directory (os error 2)"
  | stated text => text

end Fault

/-- What went wrong. -/
inductive Fault
  /-- An attribute that does not exist. -/
  | notFound (missing : Fault.Missing)
  /-- A search pattern that is empty or has an empty segment. -/
  | badPattern (segments : List String)
  /-- A time outside of the range that can be asked for or written to. -/
  | timeOutside (time start stop : Int)
  /-- A value read as a kind that it does not have. -/
  | kindMismatch (expected actual : Value.Kind)
  /-- A history that was given up. -/
  | disposed
  /-- An interval that does not follow the previous one of its attribute. -/
  | contiguity (quark : Int) (expected actual : Int)
  /-- A history that contradicts itself. -/
  | corrupted
  /-- An operation that was called off. -/
  | cancelled
  /-- A file that does not begin as a history file does. -/
  | badMagic (found : Bytes)
  /-- A file of another format or of another provider. -/
  | unsupportedVersion (version : Nat)
  /-- Stored bytes that were changed. -/
  | checksumMismatch (stored computed : Nat)
  /-- Stored bytes or an event that make no sense. -/
  | undecodable (cause : Fault.Undecodable)
  /-- An interval that no node has room for. -/
  | intervalTooLarge (size capacity : Nat)
  /-- A refused argument or setting. -/
  | badArgument (cause : Fault.BadArgument)
  /-- A refusal of the storage. -/
  | storage (cause : Fault.Storage)
  /-- Child links that lead back to a node already visited. -/
  | endlessDescent
  /--
  More numbers than a memory has addresses for.  A caller is not told: whoever
  would have to make room for them breaks off.
  -/
  | oversized (count : Nat)
deriving DecidableEq, Repr

namespace Fault

/-- The wording of what does not exist. -/
def Missing.message : Missing → String
  | .quark number => s!"quark {number}"
  | .path segments => "/".intercalate segments

/-- The wording of a fault. -/
def message : Fault → String
  | notFound missing => s!"Attribute not found: {missing.message}"
  | badPattern [] => "Invalid attribute pattern: empty pattern"
  | badPattern segments => "Invalid attribute pattern: " ++ "/".intercalate segments
  | timeOutside time start stop => s!"Time {time} outside of range [{start}, {stop}]"
  | kindMismatch expected actual =>
    s!"State value type mismatch: expected {expected.name}, got {actual.name}"
  | disposed => "State system has been disposed"
  | contiguity quark expected actual =>
    s!"Contiguity violation on quark {quark}: expected start {expected}, got {actual}"
  | corrupted => "State history is corrupted"
  | cancelled => "Operation cancelled"
  | badMagic found =>
    "Invalid magic bytes: expected SHTF, got ["
      ++ ", ".intercalate (found.map fun byte => toString byte.toNat) ++ "]"
  | unsupportedVersion version => s!"Unsupported version: {version}"
  | checksumMismatch stored computed =>
    s!"Checksum mismatch: expected {stored}, got {computed}"
  | undecodable cause => s!"Decode error: {cause.message}"
  | intervalTooLarge size capacity =>
    s!"Interval of {size} bytes exceeds node capacity of {capacity} bytes"
  | badArgument cause => s!"Invalid argument: {cause.message}"
  | storage cause => s!"I/O error: {cause.message}"
  | endlessDescent => "History tree links form a cycle"
  | oversized _ => "capacity overflow"

/--
Whether a fault touches the integrity of a history.  All others concern one
event or one call and leave what is written alone.
-/
def isFatal : Fault → Bool
  | contiguity .. => true
  | corrupted => true
  | disposed => true
  | storage _ => true
  | checksumMismatch .. => true
  | _ => false

end Fault

end Chronicle
