import Chronicle.Bytes.LittleEndian

/-!
# Decoding UTF-8

Text is stored as UTF-8.  A byte string that is no valid UTF-8 is refused with
the place and the extent of its first flaw: where the longest valid stretch
from the beginning ends, and how many bytes there are the beginning of a
sequence that cannot go on.  A byte string that merely stops in the middle of
a sequence is told apart from one that holds an impossible byte.
-/

namespace Chronicle.Utf8

/-- Why a byte string is not UTF-8. -/
inductive Flaw
  /-- At `index` there are `count` bytes that no character can begin with. -/
  | invalid (count index : Nat)
  /-- The bytes end within the sequence that begins at `index`. -/
  | incomplete (index : Nat)
deriving DecidableEq, Repr

/-- The wording of a flaw. -/
def Flaw.message : Flaw → String
  | .invalid count index => s!"invalid utf-8 sequence of {count} bytes from index {index}"
  | .incomplete index => s!"incomplete utf-8 byte sequence from index {index}"

/-- What the bytes at one place begin with. -/
inductive Opening
  /-- A character of `length` bytes. -/
  | whole (length : Nat)
  /-- `count` bytes that no character can begin with. -/
  | broken (count : Nat)
  /-- The beginning of a character, cut off by the end of the bytes. -/
  | cut
deriving DecidableEq, Repr

/-- Whether `byte` lies between `low` and `high`, both included. -/
def within (low high byte : UInt8) : Bool :=
  low ≤ byte && byte ≤ high

/--
What a leading byte asks of the bytes after it: the range of the second byte,
and the number of continuation bytes after that.
-/
def expected? (lead : UInt8) : Option (UInt8 × UInt8 × Nat) :=
  if within 0xC2 0xDF lead then some (0x80, 0xBF, 0)
  else if lead = 0xE0 then some (0xA0, 0xBF, 1)
  else if lead = 0xED then some (0x80, 0x9F, 1)
  else if within 0xE1 0xEF lead then some (0x80, 0xBF, 1)
  else if lead = 0xF0 then some (0x90, 0xBF, 2)
  else if within 0xF1 0xF3 lead then some (0x80, 0xBF, 2)
  else if lead = 0xF4 then some (0x80, 0x8F, 2)
  else none

/-- Follows `count` continuation bytes after `seen` bytes of a character. -/
def continuations : (count seen : Nat) → Bytes → Opening
  | 0, seen, _ => .whole seen
  | _ + 1, _, [] => .cut
  | count + 1, seen, byte :: rest =>
    if within 0x80 0xBF byte then continuations count (seen + 1) rest else .broken seen

/-- What the bytes after the leading byte `lead` make of it. -/
def opening
    (lead : UInt8)
    (rest : Bytes) :
    Opening :=
  if lead < 0x80 then
    .whole 1
  else
    match expected? lead, rest with
    | none, _ => .broken 1
    | some _, [] => .cut
    | some (low, high, more), second :: others =>
      if within low high second then continuations more 2 others else .broken 1

/--
The first flaw of `bytes`, which begin at `index` of the whole string; `none`
for valid UTF-8.
-/
def flaw?
    (index : Nat) :
    (bytes : Bytes) →
    Option Flaw
  | [] => none
  | lead :: rest =>
    match opening lead rest with
    | .cut => some (.incomplete index)
    | .broken count => some (.invalid count index)
    | .whole length => flaw? (index + length) (rest.drop (length - 1))
termination_by bytes => bytes.length
decreasing_by
  simp only [List.length_drop, List.length_cons]
  omega

/-- The UTF-8 bytes of a text. -/
def encode (text : String) : Bytes :=
  text.toUTF8.data.toList

/-- The text whose UTF-8 bytes are given, or the first flaw in them. -/
def decode (bytes : Bytes) : Except Flaw String :=
  match String.fromUTF8? bytes.toByteArray with
  | some text => .ok text
  | none => .error ((flaw? 0 bytes).getD (.incomplete 0))

@[simp]
theorem length_encode
    (text : String) :
    (encode text).length = text.utf8ByteSize := by
  simp [encode]

/-- Every text is read back from its bytes. -/
@[simp]
theorem decode_encode
    (text : String) :
    decode (encode text) = .ok text := by
  have bytes : (encode text).toByteArray = text.toByteArray := by
    apply ByteArray.ext
    apply Array.toList_inj.mp
    simp [encode]
  have valid : String.fromUTF8? text.toByteArray = some text := by
    simp [String.fromUTF8?, String.fromUTF8, text.isValidUTF8]
  rw [decode, bytes, valid]

end Chronicle.Utf8
