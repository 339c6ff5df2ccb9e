import Chronicle.Proofs.Codec.Namespace
import Chronicle.Proofs.Codec.Spelling
import Chronicle.Proofs.Namespace.Register

/-!
# Registers read from bytes

In bytes a namespace is the parents and the names of its attributes and nothing
else.  The lists of children and the index of a register are filled anew when
it is read, by additions in the order of the numbers, and so they are again
what they were when paths had been entered.

Bytes that nobody wrote are refused where an attribute does not come after its
parent.  They are not refused where an attribute has the name and the place of
an earlier one, which no path that is entered brings about.  Such a pair is
listed twice below its place, and the index has the later one only.
-/

namespace Chronicle

namespace Register

/-- Reads one attribute and enters it into the tables. -/
def readEntry (r : Register) : Reader Register := do
  let parent ← Reader.signed 4
  let bytes ← Reader.take (← Reader.unsigned 2)
  match Utf8.decode bytes with
  | .error flaw => throw (.undecodable (.nameText flaw))
  | .ok name =>
    if parent ≠ Quark.root ∧ (parent < 0 ∨ r.entries.size ≤ parent) then
      throw (.undecodable (.parent r.entries.size parent))
    else
      pure (r.add parent name)

/-- Reads `count` attributes and enters them into the tables. -/
def readEntries
    (r : Register) :
    (count : Nat) →
    Reader Register
  | 0 => pure r
  | count + 1 => do
    let extended ← r.readEntry
    readEntries extended count

/-- Reads a namespace and fills its tables. -/
def read : Reader Register := do
  readEntries empty (← Reader.unsigned 4)

end Register

namespace Namespace

variable {ns after : Namespace} {bytes rest written : Bytes}

/-! ## The tables are filled as they were -/

theorem readEntry_register
    (ns : Namespace) :
    ns.register.readEntry = register <$> ns.readAttribute := by
  have mirrors := mirrors_register ns
  have refused : ∀ parent : Int,
      (parent ≠ Quark.root ∧ (parent < 0 ∨ ns.size ≤ parent)) ↔ ¬ ns.IsPlace parent := by
    intro parent
    unfold IsPlace Contains
    omega
  unfold Register.readEntry readAttribute
  simp only [map_bind]
  apply bind_congr
  intro parent
  apply bind_congr
  intro length
  apply bind_congr
  intro bytes
  cases Utf8.decode bytes with
  | error flaw => rfl
  | ok name =>
      simp only [mirrors.size]
      by_cases place : ns.IsPlace parent
      · rw [if_neg fun no => (refused parent).mp no place, if_pos place, ← register_add place]
        rfl
      · rw [if_pos ((refused parent).mpr place), if_neg place]
        rfl

theorem readEntries_register
    (ns : Namespace)
    (count : Nat) :
    ns.register.readEntries count = register <$> ns.readAttributes count := by
  induction count generalizing ns with
  | zero => rfl
  | succ count ih =>
      unfold Register.readEntries readAttributes
      rw [readEntry_register, map_bind, bind_map_left]
      exact bind_congr fun extended => ih extended

/-- Whatever is read, the tables are those of the namespace that is read. -/
theorem read_register :
    Register.read = register <$> read := by
  unfold Register.read read
  rw [map_bind]
  exact bind_congr fun count => readEntries_register empty count

theorem register_of_read
    (told : read bytes = .ok (ns, rest)) :
    Register.read bytes = .ok (ns.register, rest) := by
  rw [read_register]
  show (fun reached : Namespace × Bytes => (register reached.1, reached.2)) <$> read bytes = _
  rw [told]
  rfl

/-! ## The bytes are those of what is read -/

/-- Attributes that have, one behind the other, the writing `written`. -/
def Written
    (attributes : List Attribute)
    (written : Bytes) :
    Prop :=
  ∃ writings, attributes.mapM Attribute.encode = .ok writings ∧ written = writings.flatten

theorem Written.cons
    {a : Attribute}
    {attributes : List Attribute}
    {front back : Bytes}
    (first : a.encode = .ok front)
    (others : Written attributes back) :
    Written (a :: attributes) (front ++ back) := by
  rcases others with ⟨writings, each, rfl⟩
  refine ⟨front :: writings, ?_, rfl⟩
  rw [List.mapM_cons, first, each]
  rfl

theorem spells_readAttribute
    (ns : Namespace) :
    ns.readAttribute.Spells fun after taken =>
      ∃ a : Attribute, ns.IsPlace a.parent
        ∧ after = ns.add a.parent a.name
        ∧ a.encode = .ok taken := by
  refine (Reader.spells_signed 4).bind ?_
  rintro parent parentTaken ⟨-, -, rfl⟩
  refine (Reader.spells_unsigned 2).bind ?_
  rintro length lengthTaken ⟨fits, rfl⟩
  refine (Reader.spells_take length).bind ?_
  rintro bytes taken ⟨rfl, rfl⟩
  cases decoded : Utf8.decode bytes with
  | error flaw => exact Reader.Spells.throw _
  | ok name =>
      by_cases place : ns.IsPlace parent
      · have spelt := Utf8.encode_of_decode decoded
        have size : bytes.length = name.utf8ByteSize := by
          rw [← spelt, Utf8.length_encode]
        rw [LittleEndian.span_two, size] at fits
        simp only [if_pos place]
        refine Reader.Spells.pure ⟨⟨parent, name⟩, place, rfl, ?_⟩
        unfold Attribute.encode
        simp only [if_pos fits, size, spelt, List.append_assoc, List.append_nil]
      · simp only [if_neg place]
        exact Reader.Spells.throw _

theorem spells_readAttributes
    (ns : Namespace)
    (count : Nat) :
    (ns.readAttributes count).Spells fun after taken =>
      ∃ more, after.attributes.toList = ns.attributes.toList ++ more
        ∧ more.length = count
        ∧ Written more taken := by
  induction count generalizing ns with
  | zero => exact Reader.Spells.pure ⟨[], (List.append_nil _).symm, rfl, [], rfl, rfl⟩
  | succ count ih =>
      refine (spells_readAttribute ns).bind ?_
      rintro extended front ⟨a, place, rfl, first⟩
      refine (ih _).mono ?_
      rintro after back ⟨more, all, number, others⟩
      refine ⟨a :: more, ?_, congrArg (· + 1) number, others.cons first⟩
      rw [all, attributes_add place, List.append_assoc]
      rfl

/-- A namespace is read from its own writing. -/
theorem spells_read :
    read.Spells fun ns taken => ns.encode = .ok taken := by
  refine (Reader.spells_unsigned 4).bind ?_
  rintro count countTaken ⟨-, rfl⟩
  refine (spells_readAttributes empty count).mono ?_
  rintro ns taken ⟨more, all, rfl, writings, each, rfl⟩
  obtain rfl : ns.attributes.toList = more := all
  unfold encode size
  rw [each, Array.length_toList]
  rfl

/-! ## There and back -/

/--
Whatever paths were entered, the namespace has a writing unless a name is too
long, and from its writing, whatever stands behind, the very same namespace is
read, and a register with the very same tables.  So every question about the
one that was read, and every path that is entered into it, has the same answer.
-/
theorem reread_of_grown
    {calls : List (Int × List String)}
    (few : (grown calls).size < 2147483648) :
    ((∃ fault, (grown calls).encode = .error fault)
        ↔ ∃ a ∈ (grown calls).attributes.toList, 65535 < a.name.utf8ByteSize)
      ∧ (∀ fault, (grown calls).encode = .error fault →
        ∃ a ∈ (grown calls).attributes.toList,
          65535 < a.name.utf8ByteSize ∧ fault = .badArgument (.longName a.name.utf8ByteSize))
      ∧ ∀ written, (grown calls).encode = .ok written → ∀ rest,
        read (written ++ rest) = .ok (grown calls, rest)
          ∧ Register.read (written ++ rest) = .ok (Register.grown calls, rest) := by
  refine ⟨⟨?_, ?_⟩, fun fault => longName_of_encode, ?_⟩
  · rintro ⟨fault, refused⟩
    rcases longName_of_encode refused with ⟨a, member, long, -⟩
    exact ⟨a, member, long⟩
  · rintro ⟨a, member, long⟩
    cases ended : (grown calls).encode with
    | error fault => exact ⟨fault, rfl⟩
    | ok written =>
        have short := exists_encode_iff.mp ⟨written, ended⟩ a member
        exact absurd long (by omega)
  · intro written encoded rest
    have told := reads_encode (Nat.le_of_lt few) encoded rest
    refine ⟨told, ?_⟩
    rw [grown_register]
    exact register_of_read told

theorem reread_of_oddities :
    (grown oddities).size < 2147483648
      ∧ (∃ written, (grown oddities).encode = .ok written
        ∧ read (written ++ [1, 2, 3]) = .ok (grown oddities, [1, 2, 3])
        ∧ Register.read (written ++ [1, 2, 3]) = .ok (Register.grown oddities, [1, 2, 3])) := by
  have few : (grown oddities).size < 2147483648 := by decide +kernel
  rcases reread_of_grown few with ⟨refuses, -, reads⟩
  refine ⟨few, ?_⟩
  cases ended : (grown oddities).encode with
  | error fault =>
      have short : ∀ a ∈ (grown oddities).attributes.toList, ¬ 65535 < a.name.utf8ByteSize := by
        decide +kernel
      rcases refuses.mp ⟨fault, ended⟩ with ⟨a, member, long⟩
      exact absurd long (short a member)
  | ok written => exact ⟨written, rfl, reads written ended [1, 2, 3]⟩

/-! ## Bytes that nobody wrote -/

/--
Whatever bytes a namespace was read from, they are its writing.  The way up
from each attribute ends at the root, within as many steps as its number
allows, and the attribute is listed exactly once, among the children of its
parent.  Its path leads back to it exactly when neither it nor any above it has
a later namesake beside it.  That is so for all attributes if and only if no
two have the same name in the same place, as in the namespaces that come about
by entering paths; different attributes then have different paths.  The tables
that are filled by reading hold what follows from the attributes, and answer
as the namespace does.
-/
theorem legible_of_read
    (told : read bytes = .ok (ns, rest)) :
    (∃ taken, bytes = taken ++ rest ∧ ns.encode = .ok taken)
      ∧ (∀ q, ns.Contains q →
        ns.segments q = .ok (ns.trail q)
          ∧ ((ns.trail q).length : Int) ≤ q + 1
          ∧ (∃ p, ns.parent q = .ok p ∧ (ns.children p).count q = 1)
          ∧ (ns.resolve? Quark.root (ns.trail q) = some q ↔ ns.InSight q))
      ∧ ((∀ q, ns.Contains q → ns.resolve? Quark.root (ns.trail q) = some q) ↔ ns.Unambiguous)
      ∧ (ns.Unambiguous ↔ ∃ calls, ns = grown calls)
      ∧ (ns.Unambiguous → ∀ q other, ns.Contains q → ns.Contains other →
        ns.trail q = ns.trail other → q = other)
      ∧ ∃ r, Register.read bytes = .ok (r, rest)
        ∧ r.Mirrors ns
        ∧ r.Answers ns := by
  refine ⟨spells_read told, ?_, resolve?_trail_all_iff, exists_grown_iff.symm, ?_, ?_⟩
  · intro q known
    have place : ns.IsPlace q := Or.inr known
    rcases contains_iff.mp known with ⟨a, held⟩
    exact ⟨segments_of_isPlace place, length_trail_le place,
      ⟨a.parent, parent_of_attribute? held, count_children held⟩, resolve?_trail_iff place⟩
  · intro single q other known knownToo same
    have leads := resolve?_trail_all_iff.mpr single
    have first := leads q known
    rw [same, leads other knownToo] at first
    exact (Option.some.inj first).symm
  · have mirrors := mirrors_register ns
    exact ⟨ns.register, register_of_read told, mirrors, mirrors.answers⟩

/-- Two attributes called `a` below the root, each with a child called `x`. -/
def namesakes : Namespace :=
  (((empty.add Quark.root "a").add Quark.root "a").add 0 "x").add 1 "x"

/-- Of two children called `x`, the path `a`, `x` leads to the one below the later `a`. -/
theorem legible_of_namesakes :
    ∃ bytes, read bytes = .ok (namesakes, [])
      ∧ namesakes.encode = .ok bytes
      ∧ namesakes.segments 2 = .ok ["a", "x"]
      ∧ namesakes.segments 3 = .ok ["a", "x"]
      ∧ (namesakes.children 0).count 2 = 1
      ∧ ¬ namesakes.InSight 2
      ∧ namesakes.InSight 3
      ∧ ¬ namesakes.Unambiguous := by
  have told : read
      ([4, 0, 0, 0]
        ++ [255, 255, 255, 255, 1, 0, 97] ++ [255, 255, 255, 255, 1, 0, 97]
        ++ [0, 0, 0, 0, 1, 0, 120] ++ [1, 0, 0, 0, 1, 0, 120]) = .ok (namesakes, []) := by
    decide +kernel
  rcases legible_of_read told with ⟨⟨taken, split, written⟩, each, all, -⟩
  rw [List.append_nil] at split
  subst split
  have first : namesakes.trail 2 = ["a", "x"] := by decide +kernel
  have second : namesakes.trail 3 = ["a", "x"] := by decide +kernel
  rcases each 2 (by decide +kernel) with ⟨segmentsFirst, -, ⟨p, hangs, listed⟩, sightFirst⟩
  rcases each 3 (by decide +kernel) with ⟨segmentsSecond, -, -, sightSecond⟩
  have above : namesakes.parent 2 = .ok 0 := by decide +kernel
  obtain rfl : (0 : Int) = p := Except.ok.inj (above.symm.trans hangs)
  rw [first] at segmentsFirst sightFirst
  rw [second] at segmentsSecond sightSecond
  have leads : namesakes.resolve? Quark.root ["a", "x"] = some 3 := by decide +kernel
  refine ⟨_, told, written, segmentsFirst, segmentsSecond, listed, ?_, sightSecond.mp leads, ?_⟩
  · rw [← sightFirst, leads]
    decide
  · intro single
    have back := all.mpr single 2 (by decide +kernel)
    rw [first, leads] at back
    exact absurd back (by decide)

/-- Two attributes called `a` below the root. -/
def twins : Namespace :=
  (empty.add Quark.root "a").add Quark.root "a"

/-- Not every namespace that is read has its attributes where their paths lead. -/
theorem astray_in_twins :
    ¬ ∀ (bytes rest : Bytes) (ns : Namespace), read bytes = .ok (ns, rest) →
      ∀ q, ns.Contains q → ns.resolve? Quark.root (ns.trail q) = some q := by
  intro always
  have told : read
      ([2, 0, 0, 0] ++ [255, 255, 255, 255, 1, 0, 97] ++ [255, 255, 255, 255, 1, 0, 97])
        = .ok (twins, []) := by
    decide +kernel
  have trail : twins.trail 0 = ["a"] := by decide +kernel
  have back := always _ _ _ told 0 (by decide +kernel)
  rw [trail] at back
  have leads : twins.resolve? Quark.root ["a"] = some 1 := by decide +kernel
  exact absurd (leads.symm.trans back) (by decide)

end Namespace

end Chronicle
