import Chronicle.Namespace.Codec
import Chronicle.Proofs.Codec.Reading
import Chronicle.Proofs.Namespace

/-!
# The writing of a namespace

A namespace can be kept in a file exactly when each of its names fits its
length field and all of them together fit the section.  It is read back
attribute by attribute: each one comes after its parent, so that the place
that it hangs below is there when it is read.
-/

namespace Chronicle

/-- The number of bytes that one attribute takes. -/
def Attribute.sectionSize (a : Attribute) : Nat :=
  6 + a.name.utf8ByteSize

namespace Namespace

/-- The number of bytes that a namespace takes. -/
def sectionSize (ns : Namespace) : Nat :=
  4 + (ns.attributes.toList.map Attribute.sectionSize).sum

/-- A namespace whose names and whose section are short enough for their length fields. -/
structure Storable (ns : Namespace) : Prop where
  names : ∀ a ∈ ns.attributes.toList, a.name.utf8ByteSize < 65536
  section_ : ns.sectionSize < 4294967296

instance
    (ns : Namespace) :
    Decidable ns.Storable :=
  decidable_of_iff
    ((∀ a ∈ ns.attributes.toList, a.name.utf8ByteSize < 65536) ∧ ns.sectionSize < 4294967296)
    ⟨fun both => ⟨both.1, both.2⟩, fun storable => ⟨storable.names, storable.section_⟩⟩

theorem length_of_encode_attribute
    {a : Attribute}
    {bytes : Bytes}
    (written : a.encode = .ok bytes) :
    bytes.length = a.sectionSize := by
  unfold Attribute.encode at written
  split at written
  · cases written
    simp [Attribute.sectionSize]
    omega
  · cases written

/-- A writing has the length that the names tell. -/
theorem length_of_encode
    {ns : Namespace}
    {bytes : Bytes}
    (written : ns.encode = .ok bytes) :
    bytes.length = ns.sectionSize := by
  have lengths : ∀ {items : List Attribute} {writings : List Bytes},
      List.Forall₂ (fun a bytes => Attribute.encode a = .ok bytes) items writings →
        writings.flatten.length = (items.map Attribute.sectionSize).sum := by
    intro items writings each
    induction each with
    | nil => rfl
    | cons first others ih =>
        rw [List.flatten_cons, List.length_append, ih, length_of_encode_attribute first]
        rfl
  unfold encode at written
  cases each : ns.attributes.toList.mapM Attribute.encode with
  | error fault =>
      rw [each] at written
      cases written
  | ok writings =>
      rw [each] at written
      cases written
      rw [List.length_append, LittleEndian.length_encode, lengths (Reader.forall₂_of_mapM each)]
      rfl

/-- A namespace has a writing if and only if all names are short enough. -/
theorem exists_encode_iff
    {ns : Namespace} :
    (∃ bytes, ns.encode = .ok bytes) ↔ ∀ a ∈ ns.attributes.toList, a.name.utf8ByteSize < 65536 := by
  constructor
  · rintro ⟨bytes, written⟩
    unfold encode at written
    cases each : ns.attributes.toList.mapM Attribute.encode with
    | error fault =>
        rw [each] at written
        cases written
    | ok writings =>
        have all := Reader.forall₂_of_mapM each
        generalize ns.attributes.toList = attributes at all
        intro a member
        clear each written
        induction all with
        | nil => cases member
        | cons first others ih =>
            rcases List.mem_cons.mp member with rfl | rest
            · unfold Attribute.encode at first
              split at first
              · assumption
              · cases first
            · exact ih rest
  · intro names
    have each : ∀ a ∈ ns.attributes.toList, ∃ bytes, Attribute.encode a = .ok bytes := by
      intro a member
      unfold Attribute.encode
      rw [if_pos (names a member)]
      exact ⟨_, rfl⟩
    rcases Reader.exists_mapM each with ⟨writings, written⟩
    unfold encode
    rw [written]
    exact ⟨_, rfl⟩

/-- Only an attribute with too long a name keeps a namespace from having a writing. -/
theorem longName_of_encode
    {ns : Namespace}
    {fault : Fault}
    (refused : ns.encode = .error fault) :
    ∃ a ∈ ns.attributes.toList,
      65535 < a.name.utf8ByteSize ∧ fault = .badArgument (.longName a.name.utf8ByteSize) := by
  unfold encode at refused
  cases each : ns.attributes.toList.mapM Attribute.encode with
  | error other =>
      rw [each] at refused
      cases refused
      rcases Reader.exists_of_mapM_eq_error each with ⟨a, member, tooLong⟩
      unfold Attribute.encode at tooLong
      split at tooLong
      · cases tooLong
      · rename_i long
        cases tooLong
        exact ⟨a, member, by omega, rfl⟩
  | ok writings =>
      rw [each] at refused
      cases refused

/-! ## Reading back -/

/-- An attribute hangs below a place among those that come before it. -/
theorem isPlace_of_append
    {ns before : Namespace}
    {a : Attribute}
    {rest : List Attribute}
    (split : before.attributes.toList ++ a :: rest = ns.attributes.toList) :
    before.IsPlace a.parent := by
  have found : ns.attributes.toList[before.size]? = some a := by
    rw [← split]
    simp [size]
  rw [Array.getElem?_toList, Array.getElem?_eq_some_iff] at found
  rcases found with ⟨inside, same⟩
  have first := ns.parentsFirst before.size inside
  rw [same] at first
  exact first

theorem reads_attribute
    {ns : Namespace}
    {a : Attribute}
    {bytes : Bytes}
    (place : ns.IsPlace a.parent)
    (few : ns.size ≤ 2147483648)
    (written : a.encode = .ok bytes) :
    ns.readAttribute.Reads bytes (ns.add a.parent a.name) := by
  unfold Attribute.encode at written
  split at written
  · rename_i short
    cases written
    have parent : (Reader.signed 4).Reads (LittleEndian.encodeSigned 4 a.parent) a.parent := by
      apply Reader.reads_signed_four
      · rcases place with atRoot | ⟨nonneg, -⟩
        · rw [atRoot]
          decide
        · omega
      · rcases place with atRoot | ⟨-, below⟩
        · rw [atRoot]
          decide
        · omega
    have length : (Reader.unsigned 2).Reads
        (LittleEndian.encode 2 a.name.utf8ByteSize) a.name.utf8ByteSize := by
      apply Reader.reads_unsigned
      rw [LittleEndian.span_two]
      exact short
    have name := Reader.reads_take (Utf8.encode a.name)
    rw [Utf8.length_encode] at name
    rw [List.append_assoc]
    refine parent.bind (length.bind (name.bind_nil ?_))
    rw [Utf8.decode_encode]
    simp only [if_pos place]
    exact Reader.Reads.pure _
  · cases written

/-- From those read already, the rest of a namespace is read attribute by attribute. -/
theorem reads_attributes
    {ns before : Namespace}
    {rest : List Attribute}
    {writings : List Bytes}
    (few : ns.size ≤ 2147483648)
    (split : before.attributes.toList ++ rest = ns.attributes.toList)
    (written : List.Forall₂ (fun a bytes => Attribute.encode a = .ok bytes) rest writings) :
    (before.readAttributes rest.length).Reads writings.flatten ns := by
  induction written generalizing before with
  | nil =>
      rw [List.append_nil] at split
      rw [eq_of_attributes split]
      exact Reader.Reads.pure ns
  | @cons a bytes rest writings first others ih =>
      have place := isPlace_of_append split
      have fewBefore : before.size ≤ 2147483648 := by
        have lengths := congrArg List.length split
        simp only [List.length_append, Array.length_toList, List.length_cons] at lengths
        unfold size at few ⊢
        omega
      have splitAfter : (before.add a.parent a.name).attributes.toList ++ rest
          = ns.attributes.toList := by
        rw [attributes_add place, List.append_assoc]
        exact split
      rw [List.flatten_cons]
      exact (reads_attribute place fewBefore first).bind (ih splitAfter)

/-- A namespace is read back from its writing. -/
theorem reads_encode
    {ns : Namespace}
    {bytes : Bytes}
    (few : ns.size ≤ 2147483648)
    (written : ns.encode = .ok bytes) :
    read.Reads bytes ns := by
  unfold encode at written
  cases each : ns.attributes.toList.mapM Attribute.encode with
  | error fault =>
      rw [each] at written
      cases written
  | ok writings =>
      rw [each] at written
      cases written
      have count : (Reader.unsigned 4).Reads (LittleEndian.encode 4 ns.size) ns.size :=
        Reader.reads_unsigned_four (by omega)
      have none : empty.attributes.toList ++ ns.attributes.toList = ns.attributes.toList := rfl
      have attributes := reads_attributes few none (Reader.forall₂_of_mapM each)
      rw [Array.length_toList] at attributes
      exact count.bind attributes

end Namespace

end Chronicle
