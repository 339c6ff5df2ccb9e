import Chronicle.Fault
import Chronicle.Padding

/-!
# Volumes

A flat directory of files.  A name leads to a file by the file's number, so
that whoever holds the number keeps the file when the name is taken away.
There are no directories below this one: a name with a slash leads nowhere, and
neither does the empty name.  What is written at one place shows there and
nowhere else, in that file alone.
-/

namespace Chronicle

/-- A flat directory and the contents of its files. -/
structure Volume where
  /-- The names in use, with the numbers of their files. -/
  names : List (String × Nat)
  /-- The contents of all files, by number. -/
  contents : Array (Array UInt8)
deriving DecidableEq

namespace Volume

/-- The volume without files. -/
def empty : Volume :=
  ⟨[], #[]⟩

instance : Inhabited Volume := ⟨empty⟩

/-- The number of the file called `name`. -/
def lookup?
    (volume : Volume)
    (name : String) :
    Option Nat :=
  volume.names.lookup name

/-- The number of the file called `name`, or the fault of its absence. -/
def locate
    (volume : Volume)
    (name : String) :
    Except Fault Nat :=
  match volume.lookup? name with
  | some file => .ok file
  | none => .error (.storage .noSuchFile)

/-- The content of a file. -/
def content
    (volume : Volume)
    (file : Nat) :
    Array UInt8 :=
  volume.contents.getD file #[]

/-- The volume in which the content of a file was changed. -/
def change
    (volume : Volume)
    (file : Nat)
    (edit : Array UInt8 → Array UInt8) :
    Volume :=
  { volume with contents := volume.contents.modify file edit }

/-- Whether a file can be called `name`. -/
def isPlainName (name : String) : Bool :=
  !name.isEmpty && !name.toList.contains '/'

/--
The volume with a file called `name`, and that file's number.  A file that
exists already is kept as it is.
-/
def provide
    (volume : Volume)
    (name : String) :
    Except Fault (Volume × Nat) :=
  match volume.lookup? name with
  | some file => .ok (volume, file)
  | none =>
    if isPlainName name then
      .ok (⟨(name, volume.contents.size) :: volume.names, volume.contents.push #[]⟩,
        volume.contents.size)
    else
      .error (.storage .noSuchFile)

/-- The volume with an empty file called `name`, and that file's number. -/
def create
    (volume : Volume)
    (name : String) :
    Except Fault (Volume × Nat) := do
  let (volume, file) ← volume.provide name
  return (volume.change file fun _ => #[], file)

/-- The volume without the name `name`.  The file itself stays with those who hold it. -/
def unlink
    (volume : Volume)
    (name : String) :
    Volume :=
  { volume with names := volume.names.filter fun entry => entry.1 ≠ name }

/-- Exactly `count` bytes of a file from `offset` on. -/
def read
    (volume : Volume)
    (file offset count : Nat) :
    Except Fault Bytes :=
  let found := (volume.content file).extract offset (offset + count)
  if found.size = count then .ok found.toList else .error (.storage .exhausted)

/--
`content` with the bytes of a patch put over it, one after the other from
`offset` on.  Zeros fill a gap in front of the patch; an empty patch changes
nothing.
-/
def overlay
    (content : Array UInt8) :
    (offset : Nat) →
    (patch : Bytes) →
    Array UInt8
  | _, [] => content
  | offset, byte :: rest => overlay (setPadded content offset byte 0) (offset + 1) rest

/-- The volume in which `patch` was put over a file at `offset`. -/
def write
    (volume : Volume)
    (file offset : Nat)
    (patch : Bytes) :
    Volume :=
  volume.change file fun content => overlay content offset patch

/-- `content` cut or filled up with zeros to `length` bytes. -/
def resize
    (content : Array UInt8)
    (length : Nat) :
    Array UInt8 :=
  content.take length ++ Array.replicate (length - content.size) 0

/-- Work on one file shows in that file. -/
theorem content_change_self
    {volume : Volume}
    {file : Nat}
    (known : file < volume.contents.size)
    (edit : Array UInt8 → Array UInt8) :
    (volume.change file edit).content file = edit (volume.content file) := by
  simp only [content, change, Array.getD_eq_getD_getElem?, Array.getElem?_modify]
  simp [known]

/-- Work on one file leaves all others alone. -/
theorem content_change_of_ne
    {volume : Volume}
    {file other : Nat}
    (different : file ≠ other)
    (edit : Array UInt8 → Array UInt8) :
    (volume.change file edit).content other = volume.content other := by
  simp [content, change, Array.getD_eq_getD_getElem?, Array.getElem?_modify, different]

/-- A patch makes a file as long as it needs to be. -/
@[simp]
theorem size_overlay
    (content : Array UInt8)
    (offset : Nat)
    (patch : Bytes) :
    (overlay content offset patch).size
      = if patch.isEmpty then content.size else max content.size (offset + patch.length) := by
  induction patch generalizing content offset with
  | nil => simp [overlay]
  | cons byte rest ih =>
    simp only [overlay, ih, size_setPadded, List.length_cons, List.isEmpty_cons]
    cases rest with
    | nil => simp
    | cons next others =>
      simp only [List.isEmpty_cons, List.length_cons]
      simp
      omega

/-- What a place of a file holds after a patch. -/
theorem getD_overlay
    (content : Array UInt8)
    (offset : Nat)
    (patch : Bytes)
    (place : Nat) :
    (overlay content offset patch).getD place 0
      = if offset ≤ place ∧ place < offset + patch.length then
          patch.getD (place - offset) 0
        else
          content.getD place 0 := by
  induction patch generalizing content offset with
  | nil =>
    have outside : ¬ (offset ≤ place ∧ place < offset + ([] : Bytes).length) := by
      simp only [List.length_nil]
      omega
    rw [if_neg outside, overlay]
  | cons byte rest ih =>
    rw [overlay, ih, getD_setPadded, List.length_cons]
    by_cases first : place = offset
    · subst first
      rw [if_neg (by omega), if_pos rfl, if_pos (by omega)]
      simp
    · rw [if_neg first]
      by_cases inside : offset + 1 ≤ place ∧ place < offset + 1 + rest.length
      · obtain ⟨gap, rfl⟩ : ∃ gap, place = offset + 1 + gap := ⟨place - (offset + 1), by omega⟩
        rw [if_pos inside, if_pos (by omega), Nat.add_sub_cancel_left,
          show offset + 1 + gap - offset = gap + 1 by omega, List.getD_cons_succ]
      · rw [if_neg inside, if_neg (by omega)]

end Volume

end Chronicle
