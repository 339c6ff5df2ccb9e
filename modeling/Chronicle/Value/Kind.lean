/-!
# Kinds of values

The closed list of kinds a value can have.  Each kind has a tag, which is its
first byte in a file, and a name, which messages use.
-/

namespace Chronicle.Value

/-- The kind of a value. -/
inductive Kind
  | null
  | int
  | long
  | double
  | string
deriving DecidableEq, Repr

namespace Kind

/-- The byte that announces a value of this kind. -/
def tag : Kind → UInt8
  | null => 0
  | int => 1
  | long => 2
  | double => 3
  | string => 4

/-- The kind announced by a byte. -/
def ofTag? : UInt8 → Option Kind
  | 0 => some null
  | 1 => some int
  | 2 => some long
  | 3 => some double
  | 4 => some string
  | _ => none

/-- The name of a kind. -/
def name : Kind → String
  | null => "null"
  | int => "int"
  | long => "long"
  | double => "double"
  | string => "string"

@[simp]
theorem ofTag?_tag
    (kind : Kind) :
    ofTag? kind.tag = some kind := by
  cases kind <;> rfl

/-- A byte announces a kind only if it is the kind's tag. -/
theorem tag_of_ofTag?
    {byte : UInt8}
    {kind : Kind}
    (found : ofTag? byte = some kind) :
    kind.tag = byte := by
  unfold ofTag? at found
  split at found <;> simp_all [tag] <;> subst found <;> rfl

end Kind

end Chronicle.Value
