import Chronicle.Bytes.LittleEndian
import Chronicle.Fault

/-!
# Reading byte strings

A reader takes bytes from the front of what is left and answers, or fails with
a fault.  The only fault of a reader itself is that too few bytes are left.
-/

namespace Chronicle

/-- A computation that takes bytes from the front of a byte string. -/
abbrev Reader := StateT Bytes (Except Fault)

namespace Reader

/-- Takes exactly `count` bytes. -/
def take (count : Nat) : Reader Bytes := fun bytes =>
  if (bytes.take count).length = count then
    .ok (bytes.take count, bytes.drop count)
  else
    .error (.storage .exhausted)

/-- Takes one byte. -/
def byte : Reader UInt8
  | [] => .error (.storage .exhausted)
  | first :: rest => .ok (first, rest)

/-- Takes an unsigned number of `width` bytes. -/
def unsigned (width : Nat) : Reader Nat :=
  LittleEndian.decode <$> take width

/-- Takes a signed number of `width` bytes. -/
def signed (width : Nat) : Reader Int :=
  LittleEndian.decodeSigned <$> take width

/-- Takes `count` items, one after the other. -/
def many
    {α : Type}
    (item : Reader α) :
    (count : Nat) →
    Reader (List α)
  | 0 => pure []
  | count + 1 => do
    let first ← item
    let others ← many item count
    pure (first :: others)

/-- Taking as many bytes as stand in front gives them back. -/
theorem take_append
    {front : Bytes}
    {count : Nat}
    (length : front.length = count)
    (rest : Bytes) :
    take count (front ++ rest) = .ok (front, rest) := by
  subst length
  simp [take]

/-- A successful `take` splits the bytes. -/
theorem take_eq_ok
    {count : Nat}
    {bytes front rest : Bytes}
    (taken : take count bytes = .ok (front, rest)) :
    bytes = front ++ rest ∧ front.length = count := by
  unfold take at taken
  split at taken
  · rename_i length
    cases taken
    exact ⟨(List.take_append_drop count bytes).symm, length⟩
  · cases taken

end Reader

end Chronicle
