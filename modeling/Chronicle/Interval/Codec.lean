import Chronicle.Interval.Basic
import Chronicle.Value.Codec

/-!
# Intervals in bytes

An interval is written as its start and its end in eight bytes each, the
number of its attribute in four, and its value.  Bytes that would give a
reversed interval, or one of no attribute, are refused after all of them were
read.
-/

namespace Chronicle.Interval

/-- The number of bytes in front of the value. -/
def headerSize : Nat := 20

/-- The number of bytes in which an interval holding `value` is written. -/
def sizeWith (value : Value) : Nat :=
  headerSize + value.encodedSize

/-- The number of bytes an interval is written in. -/
def encodedSize (i : Interval) : Nat :=
  sizeWith i.value

/-- The bytes in front of the value. -/
def header (i : Interval) : Bytes :=
  LittleEndian.encodeSigned 8 i.start
    ++ LittleEndian.encodeSigned 8 i.stop
    ++ LittleEndian.encodeSigned 4 i.quark

/-- The writing of an interval. -/
def encode (i : Interval) : Except Fault Bytes := do
  return i.header ++ (← i.value.encode)

/-- Reads an interval. -/
def read : Reader Interval := do
  let start ← Reader.signed 8
  let stop ← Reader.signed 8
  let quark ← Reader.signed 4
  let value ← Value.read
  if sound : start ≤ stop ∧ 0 ≤ quark then
    pure ⟨start, stop, quark, value, sound.1⟩
  else
    throw (.undecodable (.interval start stop quark))

@[simp]
theorem length_header
    (i : Interval) :
    i.header.length = headerSize := by
  simp [header, headerSize]

/-- Every writing has the length it is said to have. -/
theorem length_of_encode
    {i : Interval}
    {bytes : Bytes}
    (written : i.encode = .ok bytes) :
    bytes.length = i.encodedSize := by
  unfold encode at written
  cases value : i.value.encode with
  | error fault => simp [value, bind, Except.bind] at written
  | ok rest =>
    simp only [value, bind, Except.bind, pure, Except.pure, Except.ok.injEq] at written
    subst written
    simp [encodedSize, sizeWith, Value.length_of_encode value]

end Chronicle.Interval
