import Chronicle.Proofs.Codec.Interval

/-!
# Intervals are read from their writings alone

A reader is looked at from the other side: whatever it makes of some bytes, the
bytes that it took are known.  Numbers are read from no other bytes than their
own, a text from no other than its UTF-8, a kind from no other than its tag.
So an interval that was read has a writing, and its writing is what was taken:
there is no second form of an interval, and no part of a writing that is
itself a writing.
-/

namespace Chronicle

namespace Reader

variable {α β : Type}

/-- Whatever `reader` reads, it stands in the relation `P` to the bytes taken. -/
def Spells
    (reader : Reader α)
    (P : α → Bytes → Prop) :
    Prop :=
  ∀ ⦃bytes : Bytes⦄ ⦃a : α⦄ ⦃rest : Bytes⦄,
    reader bytes = .ok (a, rest) → ∃ taken, bytes = taken ++ rest ∧ P a taken

theorem Spells.mono
    {reader : Reader α}
    {P Q : α → Bytes → Prop}
    (spells : reader.Spells P)
    (weaker : ∀ a taken, P a taken → Q a taken) :
    reader.Spells Q := by
  intro bytes a rest read
  rcases spells read with ⟨taken, split, told⟩
  exact ⟨taken, split, weaker a taken told⟩

theorem Spells.pure
    {P : α → Bytes → Prop}
    {a : α}
    (told : P a []) :
    Spells (pure a) P := by
  intro bytes b rest read
  cases read
  exact ⟨[], rfl, told⟩

/-- A reader that fails spells anything. -/
theorem Spells.throw
    {P : α → Bytes → Prop}
    (fault : Fault) :
    Spells (throw fault) P := by
  intro bytes a rest read
  cases read

theorem Spells.bind
    {first : Reader α}
    {next : α → Reader β}
    {P : α → Bytes → Prop}
    {Q : β → Bytes → Prop}
    (front : first.Spells P)
    (back : ∀ a taken, P a taken → (next a).Spells fun b more => Q b (taken ++ more)) :
    (first >>= next).Spells Q := by
  intro bytes b rest read
  change (first bytes >>= fun reached => next reached.1 reached.2) = _ at read
  cases begun : first bytes with
  | error fault =>
      rw [begun] at read
      cases read
  | ok reached =>
      rcases reached with ⟨a, middle⟩
      rw [begun] at read
      rcases front begun with ⟨taken, rfl, toldFront⟩
      rcases back a taken toldFront read with ⟨more, rfl, toldBack⟩
      exact ⟨taken ++ more, (List.append_assoc taken more rest).symm, toldBack⟩

theorem Spells.map
    {reader : Reader α}
    {P : α → Bytes → Prop}
    {f : α → β}
    {Q : β → Bytes → Prop}
    (spells : reader.Spells P)
    (image : ∀ a taken, P a taken → Q (f a) taken) :
    (f <$> reader).Spells Q := by
  intro bytes b rest read
  change ((fun reached : α × Bytes => (f reached.1, reached.2)) <$> reader bytes) = _ at read
  cases begun : reader bytes with
  | error fault =>
      rw [begun] at read
      cases read
  | ok reached =>
      rw [begun] at read
      cases read
      rcases spells begun with ⟨taken, split, told⟩
      exact ⟨taken, split, image _ taken told⟩

theorem spells_take
    (width : Nat) :
    (take width).Spells fun bytes taken => bytes = taken ∧ taken.length = width := by
  intro bytes front rest read
  rcases take_eq_ok read with ⟨split, length⟩
  exact ⟨front, split, rfl, length⟩

theorem spells_byte :
    byte.Spells fun first taken => taken = [first] := by
  intro bytes first rest read
  cases bytes with
  | nil => cases read
  | cons b others =>
      cases read
      exact ⟨[first], rfl, rfl⟩

/-- An unsigned number fits its field and is read from its own writing. -/
theorem spells_unsigned
    (width : Nat) :
    (unsigned width).Spells fun n taken =>
      n < LittleEndian.span width ∧ taken = LittleEndian.encode width n := by
  refine (spells_take width).map ?_
  rintro bytes taken ⟨rfl, rfl⟩
  exact ⟨LittleEndian.decode_lt bytes, (LittleEndian.encode_decode bytes).symm⟩

/-- A signed number fits its field and is read from its own writing. -/
theorem spells_signed
    (width : Nat) :
    (signed width).Spells fun n taken =>
      -(LittleEndian.span width : Int) ≤ 2 * n ∧ 2 * n < (LittleEndian.span width : Int)
        ∧ taken = LittleEndian.encodeSigned width n := by
  refine (spells_take width).map ?_
  rintro bytes taken ⟨rfl, rfl⟩
  have positive := LittleEndian.span_pos bytes.length
  have low := Int.le_bmod (x := LittleEndian.decode bytes) (m := LittleEndian.span bytes.length)
    positive
  have high := Int.bmod_lt (x := LittleEndian.decode bytes) (m := LittleEndian.span bytes.length)
    positive
  refine ⟨?_, ?_, (LittleEndian.encodeSigned_decodeSigned bytes).symm⟩
  · simp only [LittleEndian.decodeSigned]
    omega
  · simp only [LittleEndian.decodeSigned]
    omega

/-- An instant that was read is one of those there are. -/
theorem spells_instant :
    (signed 8).Spells fun n taken =>
      -9223372036854775808 ≤ n ∧ n ≤ latestInstant
        ∧ taken = LittleEndian.encodeSigned 8 n := by
  refine (spells_signed 8).mono ?_
  rintro n taken ⟨low, high, spelt⟩
  rw [LittleEndian.span_eight] at low high
  simp only [latestInstant]
  refine ⟨?_, ?_, spelt⟩
  · omega
  · omega

end Reader

/-- A text is read from its own UTF-8. -/
theorem Utf8.encode_of_decode
    {bytes : Bytes}
    {text : String}
    (decoded : Utf8.decode bytes = .ok text) :
    Utf8.encode text = bytes := by
  unfold Utf8.decode String.fromUTF8? at decoded
  by_cases valid : bytes.toByteArray.IsValidUTF8
  · rw [dif_pos valid] at decoded
    cases decoded
    simp [Utf8.encode, String.fromUTF8]
  · rw [dif_neg valid] at decoded
    cases decoded

namespace Value

/-- A payload is read from the bytes that follow the tag in the writing of what it tells. -/
theorem spells_readPayload
    (kind : Kind) :
    (readPayload kind).Spells fun v taken => v.kind = kind ∧ v.Short ∧ taken = v.payload := by
  cases kind with
  | null =>
      refine Reader.Spells.pure ⟨rfl, ?_, rfl⟩
      rintro text ⟨⟩
  | int =>
      refine (Reader.spells_signed 4).map ?_
      rintro n taken ⟨low, high, rfl⟩
      rw [LittleEndian.span_four] at low high
      have kept : (Int32.ofInt n).toInt = n :=
        Int32.toInt_ofInt_of_le (by omega) (by omega)
      refine ⟨rfl, ?_, ?_⟩
      · rintro text ⟨⟩
      · rw [payload, kept]
  | long =>
      refine (Reader.spells_signed 8).map ?_
      rintro n taken ⟨low, high, rfl⟩
      rw [LittleEndian.span_eight] at low high
      have kept : (Int64.ofInt n).toInt = n :=
        Int64.toInt_ofInt_of_le (by omega) (by omega)
      refine ⟨rfl, ?_, ?_⟩
      · rintro text ⟨⟩
      · rw [payload, kept]
  | double =>
      refine (Reader.spells_unsigned 8).map ?_
      rintro n taken ⟨fits, rfl⟩
      rw [LittleEndian.span_eight] at fits
      have kept : (UInt64.ofNat n).toNat = n :=
        UInt64.toNat_ofNat_of_lt fits
      refine ⟨rfl, ?_, ?_⟩
      · rintro text ⟨⟩
      · rw [payload, kept]
  | string =>
      refine (Reader.spells_unsigned 4).bind ?_
      rintro length front ⟨fits, rfl⟩
      refine (Reader.spells_take length).bind ?_
      rintro bytes taken ⟨rfl, rfl⟩
      cases decoded : Utf8.decode bytes with
      | error flaw => exact Reader.Spells.throw _
      | ok text =>
          have spelt := Utf8.encode_of_decode decoded
          have size : bytes.length = text.utf8ByteSize := by
            rw [← spelt, Utf8.length_encode]
          rw [LittleEndian.span_four, size] at fits
          refine Reader.Spells.pure ⟨rfl, ?_, ?_⟩
          · rintro text ⟨⟩
            exact fits
          · rw [payload, size, spelt, List.append_nil]

/-- A value is read from its own writing. -/
theorem spells_read :
    Value.read.Spells fun v taken => v.encode = .ok taken := by
  refine Reader.spells_byte.bind ?_
  rintro tag front rfl
  cases known : Kind.ofTag? tag with
  | none => exact Reader.Spells.throw _
  | some kind =>
      refine (spells_readPayload kind).mono ?_
      rintro v taken ⟨rfl, short, rfl⟩
      rw [← Kind.tag_of_ofTag? known]
      exact encode_eq_ok_iff.mpr ⟨short, rfl⟩

end Value

namespace Interval

/-- An interval that was read fits its fields, and is read from its own writing. -/
theorem spells_read :
    Interval.read.Spells fun i taken => i.Storable ∧ i.encode = .ok taken := by
  refine Reader.spells_instant.bind ?_
  rintro start startTaken ⟨start_ge, -, rfl⟩
  refine Reader.spells_instant.bind ?_
  rintro stop stopTaken ⟨-, stop_le, rfl⟩
  refine (Reader.spells_signed 4).bind ?_
  rintro quark quarkTaken ⟨-, quark_lt, rfl⟩
  refine Value.spells_read.bind ?_
  intro v valueTaken written
  rw [LittleEndian.span_four] at quark_lt
  by_cases sound : start ≤ stop ∧ 0 ≤ quark
  · rw [dif_pos sound]
    refine Reader.Spells.pure ⟨?_, encode_eq_ok_iff.mpr ⟨valueTaken, written, ?_⟩⟩
    · constructor
      · exact start_ge
      · exact stop_le
      · exact sound.2
      · show quark < 2147483648
        omega
    · simp only [header, List.append_assoc, List.append_nil]
  · rw [dif_neg sound]
    exact Reader.Spells.throw _

/-- An interval has a writing if and only if its text is short. -/
theorem exists_encode_iff
    {i : Interval} :
    (∃ written, i.encode = .ok written) ↔ i.value.Short := by
  constructor
  · rintro ⟨written, encoded⟩
    rcases encode_eq_ok_iff.mp encoded with ⟨value, valueWritten, -⟩
    exact (Value.encode_eq_ok_iff.mp valueWritten).1
  · intro short
    exact ⟨_, encode_eq_ok_iff.mpr ⟨_, Value.encode_eq_ok_iff.mpr ⟨short, rfl⟩, rfl⟩⟩

/-- What is missing behind a part of a writing is missed: no part of it is read as an interval. -/
theorem refused_of_cut
    {i : Interval}
    {written shorter : Bytes}
    (storable : i.Storable)
    (encoded : i.encode = .ok written)
    (begins : shorter <+: written)
    (cut : shorter ≠ written) :
    ∃ fault, read shorter = .error fault := by
  cases ended : read shorter with
  | error fault => exact ⟨fault, rfl⟩
  | ok reached =>
      rcases reached with ⟨j, rest⟩
      rcases begins with ⟨missing, rfl⟩
      rcases spells_read ended with ⟨taken, rfl, storableToo, encodedToo⟩
      -- What was read from the part would be read from the whole, and leave the missing bytes.
      have whole := reads_encode storable encoded []
      have part := reads_encode storableToo encodedToo (rest ++ missing)
      rw [List.append_nil, List.append_assoc, part] at whole
      have nothing : rest ++ missing = [] := congrArg Prod.snd (Except.ok.inj whole)
      rw [(List.append_eq_nil_iff.mp nothing).2, List.append_nil] at cut
      exact absurd rfl cut

/--
An interval whose numbers fit their fields and whose text fits its length has a
writing of the length it is said to have, from which it is read back, whatever
stands behind.  Whatever is read as an interval is sound, has such a writing,
and was read from this writing and no more; and no part of a writing is read.
-/
theorem reads_exactly_writings :
    (∀ i : Interval, i.Storable → i.value.Short →
      ∃ written, i.encode = .ok written
        ∧ written.length = i.encodedSize
        ∧ ∀ rest, read (written ++ rest) = .ok (i, rest))
      ∧ (∀ (bytes rest : Bytes) (i : Interval), read bytes = .ok (i, rest) →
        i.start ≤ i.stop
          ∧ 0 ≤ i.quark
          ∧ i.Storable
          ∧ i.value.Short
          ∧ i.encodedSize ≤ bytes.length
          ∧ i.encode = .ok (bytes.take i.encodedSize)
          ∧ rest = bytes.drop i.encodedSize)
      ∧ ∀ (i : Interval) (written shorter : Bytes), i.Storable → i.encode = .ok written →
        shorter <+: written → shorter ≠ written → ∃ fault, read shorter = .error fault := by
  refine ⟨?_, ?_, fun _ _ _ => refused_of_cut⟩
  · intro i storable short
    rcases exists_encode_iff.mpr short with ⟨written, encoded⟩
    exact ⟨written, encoded, length_of_encode encoded, reads_encode storable encoded⟩
  · intro bytes rest i told
    rcases spells_read told with ⟨taken, rfl, storable, encoded⟩
    have length := length_of_encode encoded
    refine ⟨i.ordered, storable.quark_nonneg, storable, exists_encode_iff.mp ⟨taken, encoded⟩,
      ?_, ?_, ?_⟩
    · rw [← length, List.length_append]
      omega
    · rw [← length, List.take_left]
      exact encoded
    · rw [← length, List.drop_left]

/-- The name of a disk, held from before the origin of time on. -/
def disk : Interval :=
  ⟨-5, 1000, 42, .string "sda", by decide⟩

theorem reads_exactly_writings_of_disk :
    disk.Storable
      ∧ (∃ written, disk.encode = .ok written
        ∧ written.length = 28
        ∧ (∀ rest, read (written ++ rest) = .ok (disk, rest))
        ∧ ∃ fault, read (written.take 27) = .error fault)
      ∧ ∃ i rest, read (List.replicate 20 1 ++ [0, 7, 7]) = .ok (i, rest)
        ∧ i.encode = .ok (List.replicate 20 1 ++ [0])
        ∧ rest = [7, 7] := by
  have storable : disk.Storable := ⟨by decide, by decide, by decide, by decide⟩
  have short : disk.value.Short := by
    rintro text ⟨⟩
    decide
  rcases reads_exactly_writings with ⟨there, back, cut⟩
  rcases there disk storable short with ⟨written, encoded, length, reads⟩
  have size : disk.encodedSize = 28 := by decide +kernel
  rw [size] at length
  have missing : written.take 27 ≠ written := by
    intro same
    have same := congrArg List.length same
    rw [List.length_take, length] at same
    exact absurd same (by decide)
  refine ⟨storable, ⟨written, encoded, length, reads,
    cut disk written _ storable encoded (List.take_prefix 27 written) missing⟩, ?_⟩
  have told : read (List.replicate 20 1 ++ [0, 7, 7]) = .ok
      (⟨72340172838076673, 72340172838076673, 16843009, .null, by decide⟩, [7, 7]) := by
    decide +kernel
  rcases back _ _ _ told with ⟨-, -, -, -, -, encodedThere, left⟩
  exact ⟨_, _, told, encodedThere, left⟩

end Interval

end Chronicle
