import Chronicle.Bytes.Reader
import Chronicle.Value.Basic

/-!
# Values in bytes

A value is written as the tag of its kind, followed by its payload: integers
and the bits of doubles in little-endian order, texts as their length in four
bytes and their UTF-8.  A text whose length does not fit has no writing.
-/

namespace Chronicle.Value

/-- The bytes of a value after its tag. -/
def payload : Value → Bytes
  | null => []
  | int n => LittleEndian.encodeSigned 4 n.toInt
  | long n => LittleEndian.encodeSigned 8 n.toInt
  | double bits => LittleEndian.encode 8 bits.toNat
  | string text => LittleEndian.encode 4 text.utf8ByteSize ++ Utf8.encode text

/-- The number of bytes a value is written in. -/
def encodedSize (v : Value) : Nat :=
  1 + match v with
    | null => 0
    | int _ => 4
    | long _ => 8
    | double _ => 8
    | string text => 4 + text.utf8ByteSize

/-- The writing of a value. -/
def encode (v : Value) : Except Fault Bytes :=
  match v with
  | string text =>
    if text.utf8ByteSize < 4294967296 then
      .ok (v.kind.tag :: v.payload)
    else
      .error (.badArgument (.longString text.utf8ByteSize))
  | _ => .ok (v.kind.tag :: v.payload)

/-- Reads the payload of a value of a known kind. -/
def readPayload : Kind → Reader Value
  | .null => pure null
  | .int => (fun n => int (Int32.ofInt n)) <$> Reader.signed 4
  | .long => (fun n => long (Int64.ofInt n)) <$> Reader.signed 8
  | .double => (fun n => double (UInt64.ofNat n)) <$> Reader.unsigned 8
  | .string => do
    let bytes ← Reader.take (← Reader.unsigned 4)
    match Utf8.decode bytes with
    | .ok text => pure (string text)
    | .error flaw => throw (.undecodable (.stringText flaw))

/-- Reads a value. -/
def read : Reader Value := do
  let tag ← Reader.byte
  match Kind.ofTag? tag with
  | some kind => readPayload kind
  | none => throw (.undecodable (.valueTag tag))

/-- A value is written in as many bytes as it is said to be. -/
@[simp]
theorem length_payload
    (v : Value) :
    1 + v.payload.length = v.encodedSize := by
  cases v <;> simp [payload, encodedSize]

/-- Every writing has the length it is said to have. -/
theorem length_of_encode
    {v : Value}
    {bytes : Bytes}
    (written : v.encode = .ok bytes) :
    bytes.length = v.encodedSize := by
  have shape : bytes = v.kind.tag :: v.payload := by
    cases v with
    | string text =>
      simp only [encode] at written
      split at written
      · cases written
        rfl
      · cases written
    | null => cases written; rfl
    | int n => cases written; rfl
    | long n => cases written; rfl
    | double bits => cases written; rfl
  rw [shape, List.length_cons, Nat.add_comm, length_payload]

end Chronicle.Value
