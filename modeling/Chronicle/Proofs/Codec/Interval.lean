import Chronicle.Interval.Codec
import Chronicle.Proofs.Codec.Reading

/-!
# Intervals are read back

Every value whose text is short enough has a writing, and its writing is read
back as that value, whatever stands behind it.  The same holds of an interval
whose bounds and whose attribute number fit their fields.
-/

namespace Chronicle

namespace Value

/-- A value whose text, if it is one, is short enough for its length field. -/
def Short (v : Value) : Prop :=
  ∀ text, v = .string text → text.utf8ByteSize < 4294967296

theorem short_of_size
    {v : Value}
    (small : v.encodedSize < 4294967296) :
    v.Short := by
  rintro text rfl
  simp only [encodedSize] at small
  omega

/-- A value has a writing if and only if its text is short, and it has no other one. -/
theorem encode_eq_ok_iff
    {v : Value}
    {bytes : Bytes} :
    v.encode = .ok bytes ↔ v.Short ∧ bytes = v.kind.tag :: v.payload := by
  have other : (∀ text, v ≠ .string text) → v.encode = .ok (v.kind.tag :: v.payload) := by
    intro noText
    cases v with
    | string text => exact absurd rfl (noText text)
    | null => rfl
    | int n => rfl
    | long n => rfl
    | double bits => rfl
  by_cases isText : ∃ text, v = .string text
  · rcases isText with ⟨text, rfl⟩
    have short_iff : Short (.string text) ↔ text.utf8ByteSize < 4294967296 :=
      ⟨fun short => short text rfl, fun fits _ same => Value.string.inj same ▸ fits⟩
    rw [short_iff]
    by_cases fits : text.utf8ByteSize < 4294967296
    · simp [encode, fits, eq_comm]
    · simp [encode, fits]
  · have noText : ∀ text, v ≠ .string text := fun text same => isText ⟨text, same⟩
    have short : v.Short := fun text same => absurd same (noText text)
    simp [other noText, short, eq_comm]

/-- A value that takes less than four gigabytes has a writing. -/
theorem encode_of_size
    {v : Value}
    (small : v.encodedSize < 4294967296) :
    v.encode = .ok (v.kind.tag :: v.payload) :=
  encode_eq_ok_iff.mpr ⟨short_of_size small, rfl⟩

theorem reads_payload
    {v : Value}
    (short : v.Short) :
    (readPayload v.kind).Reads v.payload v := by
  cases v with
  | null => exact Reader.Reads.pure null
  | int n =>
      have low := n.le_toInt
      have high := n.toInt_lt
      have field := Reader.reads_signed_four low high
      have read := field.map fun n => int (Int32.ofInt n)
      rwa [Int32.ofInt_toInt] at read
  | long n =>
      have low := n.le_toInt
      have high := n.toInt_lt
      have field := Reader.reads_signed_eight low high
      have read := field.map fun n => long (Int64.ofInt n)
      rwa [Int64.ofInt_toInt] at read
  | double bits =>
      have field : (Reader.unsigned 8).Reads (LittleEndian.encode 8 bits.toNat) bits.toNat := by
        apply Reader.reads_unsigned
        rw [LittleEndian.span_eight]
        exact bits.toNat_lt
      have read := field.map fun n => double (UInt64.ofNat n)
      rwa [UInt64.ofNat_toNat] at read
  | string text =>
      have fits : text.utf8ByteSize < 4294967296 := short text rfl
      have bytes := Reader.reads_take (Utf8.encode text)
      rw [Utf8.length_encode] at bytes
      refine (Reader.reads_unsigned_four fits).bind (bytes.bind_nil ?_)
      rw [Utf8.decode_encode]
      exact Reader.Reads.pure _

/-- A value is read back from its writing. -/
theorem reads_encode
    {v : Value}
    {bytes : Bytes}
    (written : v.encode = .ok bytes) :
    Value.read.Reads bytes v := by
  rcases encode_eq_ok_iff.mp written with ⟨short, rfl⟩
  apply (Reader.reads_byte v.kind.tag).bind
  rw [Kind.ofTag?_tag]
  exact reads_payload short

end Value

namespace Interval

/-- An interval whose numbers fit their fields in a file. -/
structure Storable (i : Interval) : Prop where
  start_ge : -9223372036854775808 ≤ i.start
  stop_le : i.stop ≤ latestInstant
  quark_nonneg : 0 ≤ i.quark
  quark_lt : i.quark < 2147483648

/-- The writing of an interval is its header and the writing of its value. -/
theorem encode_eq_ok_iff
    {i : Interval}
    {bytes : Bytes} :
    i.encode = .ok bytes ↔ ∃ value, i.value.encode = .ok value ∧ bytes = i.header ++ value := by
  unfold encode
  cases i.value.encode with
  | error fault =>
      constructor
      · rintro ⟨⟩
      · rintro ⟨_, ⟨⟩, -⟩
  | ok value =>
      constructor
      · rintro ⟨⟩
        exact ⟨value, rfl, rfl⟩
      · rintro ⟨_, ⟨⟩, rfl⟩
        rfl

/-- An interval that takes less than four gigabytes has a writing. -/
theorem encode_of_size
    {i : Interval}
    (small : i.encodedSize < 4294967296) :
    ∃ bytes, i.encode = .ok bytes := by
  have fits : i.value.encodedSize < 4294967296 := by
    simp only [encodedSize, sizeWith] at small
    omega
  exact ⟨_, encode_eq_ok_iff.mpr ⟨_, Value.encode_of_size fits, rfl⟩⟩

/-- An interval is read back from its writing. -/
theorem reads_encode
    {i : Interval}
    {bytes : Bytes}
    (storable : i.Storable)
    (written : i.encode = .ok bytes) :
    Interval.read.Reads bytes i := by
  rcases storable with ⟨start_ge, stop_le, quark_nonneg, quark_lt⟩
  have ordered := i.ordered
  simp only [latestInstant] at stop_le
  rcases encode_eq_ok_iff.mp written with ⟨value, valueWritten, rfl⟩
  have start := Reader.reads_signed_eight start_ge (by omega)
  have stop : (Reader.signed 8).Reads (LittleEndian.encodeSigned 8 i.stop) i.stop :=
    Reader.reads_signed_eight (by omega) (by omega)
  have quark : (Reader.signed 4).Reads (LittleEndian.encodeSigned 4 i.quark) i.quark :=
    Reader.reads_signed_four (by omega) quark_lt
  rw [header, List.append_assoc, List.append_assoc]
  refine start.bind (stop.bind (quark.bind ((Value.reads_encode valueWritten).bind_nil ?_)))
  rw [dif_pos ⟨ordered, quark_nonneg⟩]
  exact Reader.Reads.pure i

end Interval

end Chronicle
