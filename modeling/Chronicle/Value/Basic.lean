import Chronicle.Decimal.Positional
import Chronicle.Fault

/-!
# Values

The value an attribute holds.  Reading a value as a kind it does not have is a
fault; nothing is converted.  A double is kept as its bits, so that two
doubles are equal exactly when they are written alike.
-/

namespace Chronicle

/-- The value an attribute holds over a time. -/
inductive Value
  /-- Nothing, or nothing known. -/
  | null
  | int (n : Int32)
  | long (n : Int64)
  /-- The double with the given bits. -/
  | double (bits : UInt64)
  | string (text : String)
deriving DecidableEq, Inhabited

namespace Value

/-- The kind of a value. -/
def kind : Value → Kind
  | null => .null
  | int _ => .int
  | long _ => .long
  | double _ => .double
  | string _ => .string

/-- Whether a value is the null value. -/
def isNull (v : Value) : Bool :=
  v.kind = .null

@[simp]
theorem isNull_iff
    (v : Value) :
    v.isNull = true ↔ v = null := by
  cases v <;> simp [isNull, kind]

/-- The value as an integer of 32 bits. -/
def asInt : Value → Except Fault Int32
  | int n => .ok n
  | other => .error (.kindMismatch .int other.kind)

/-- The value as an integer of 64 bits. -/
def asLong : Value → Except Fault Int64
  | long n => .ok n
  | other => .error (.kindMismatch .long other.kind)

/-- The bits of the value as a double. -/
def asDouble : Value → Except Fault UInt64
  | double bits => .ok bits
  | other => .error (.kindMismatch .double other.kind)

/-- The value as a text. -/
def asString : Value → Except Fault String
  | string text => .ok text
  | other => .error (.kindMismatch .string other.kind)

/-- The count a value stands for: null is zero, and the width of integers is forgotten. -/
def asCount : Value → Except Fault Int
  | null => .ok 0
  | int n => .ok n.toInt
  | long n => .ok n.toInt
  | other => .error (.kindMismatch .long other.kind)

/--
One more than a count, within the width of the count: the largest is followed
by the least.
-/
def successor : Value → Except Fault Value
  | null => .ok (int 1)
  | int n => .ok (int (n + 1))
  | long n => .ok (long (n + 1))
  | other => .error (.kindMismatch .int other.kind)

/-- The height of the stack that a value stands for: null is the empty stack. -/
def asHeight : Value → Except Fault Int32
  | null => .ok 0
  | int n => .ok n
  | other => .error (.kindMismatch .int other.kind)

/-- The text of a value. -/
def display : Value → String
  | null => "null"
  | int n => toString n.toInt
  | long n => toString n.toInt
  | double bits => Decimal.textOfBits bits
  | string text => text

/-- An optional value, with null for its absence. -/
def ofOption (v : Option Value) : Value :=
  v.getD null

end Value

end Chronicle
