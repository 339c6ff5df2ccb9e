import Chronicle.Bytes.Checksum
import Mathlib.Logic.Function.Basic

/-!
# Checksums give away a changed byte

A shift of the register can be undone, since the highest bit tells whether the
polynomial was added, and so can the step of a byte, for the register as well
as for the byte.  Byte strings that differ in a single byte therefore have
different checksums, and a sealed byte string of which a single byte was
changed, be it one of the checksum, does not match its checksum.
-/

namespace Chronicle

namespace Checksum

theorem and_one_eq_one_iff (register : UInt32) :
    register &&& 1 = 1 ↔ register.toNat % 2 = 1 := by
  rw [← UInt32.toNat_inj, UInt32.toNat_and]
  show register.toNat &&& 1 = 1 ↔ _
  rw [Nat.and_one_is_mod]

theorem toNat_half (register : UInt32) :
    (register >>> 1).toNat = register.toNat / 2 := by
  rw [UInt32.toNat_shiftRight]
  show register.toNat >>> 1 = _
  exact Nat.shiftRight_eq_div_pow register.toNat 1

/-- Only a shift in which the polynomial is added sets the highest bit. -/
theorem testBit_shift (register : UInt32) :
    (shift register).toNat.testBit 31 = decide (register &&& 1 = 1) := by
  have clear : (register >>> 1).toNat.testBit 31 = false := by
    rw [toNat_half]
    apply Nat.testBit_lt_two_pow
    have bounded := register.toNat_lt
    omega
  unfold shift
  by_cases odd : register &&& 1 = 1
  · rw [if_pos odd, UInt32.toNat_xor, Nat.testBit_xor, clear, decide_eq_true odd]
    decide
  · rw [if_neg odd, clear, decide_eq_false odd]

theorem shift_injective : Function.Injective shift := by
  intro register other same
  have bits : (register &&& 1 = 1) ↔ (other &&& 1 = 1) := by
    rw [← decide_eq_decide, ← testBit_shift, ← testBit_shift, same]
  have halves : register >>> 1 = other >>> 1 := by
    unfold shift at same
    by_cases odd : register &&& 1 = 1
    · rw [if_pos odd, if_pos (bits.mp odd)] at same
      exact (UInt32.xor_left_inj _).mp same
    · rwa [if_neg odd, if_neg fun otherOdd => odd (bits.mpr otherOdd)] at same
  rw [and_one_eq_one_iff, and_one_eq_one_iff] at bits
  have quotients := congrArg UInt32.toNat halves
  rw [toNat_half, toNat_half] at quotients
  apply UInt32.toNat_inj.mp
  omega

/-- Eight shifts can be undone. -/
theorem step_eq_iff
    (register other : UInt32)
    (byte otherByte : UInt8) :
    step register byte = step other otherByte
      ↔ register ^^^ byte.toUInt32 = other ^^^ otherByte.toUInt32 := by
  unfold step
  simp only [shift_injective.eq_iff]

theorem step_injective (byte : UInt8) :
    Function.Injective fun register => step register byte := by
  intro register other same
  exact (UInt32.xor_left_inj _).mp ((step_eq_iff register other byte byte).mp same)

theorem step_byte_injective (register : UInt32) :
    Function.Injective (step register) := by
  intro byte other same
  have widened := (UInt32.xor_right_inj _).mp ((step_eq_iff register register byte other).mp same)
  have numbers := congrArg UInt32.toNat widened
  rw [UInt8.toNat_toUInt32, UInt8.toNat_toUInt32] at numbers
  exact UInt8.toNat_inj.mp numbers

/-- Whatever bytes come, different registers stay different. -/
theorem run_injective (bytes : Bytes) :
    Function.Injective fun register => run register bytes := by
  induction bytes with
  | nil => exact fun register other same => same
  | cons byte rest ih => exact fun register other same => step_injective byte (ih same)

end Checksum

namespace Bytes

/-- Byte strings that differ in a single byte. -/
def OneOff (bytes other : Bytes) : Prop :=
  ∃ front byte changed back,
    byte ≠ changed ∧ bytes = front ++ byte :: back ∧ other = front ++ changed :: back

namespace OneOff

variable {bytes other : Bytes}

theorem length
    (oneOff : OneOff bytes other) :
    other.length = bytes.length := by
  rcases oneOff with ⟨front, byte, changed, back, -, rfl, rfl⟩
  simp

/-- Another byte in a place makes another byte string. -/
theorem set
    {place : Nat}
    {byte : UInt8}
    (inside : place < bytes.length)
    (different : bytes[place] ≠ byte) :
    OneOff bytes (bytes.set place byte) := by
  refine ⟨bytes.take place, bytes[place], byte, bytes.drop (place + 1), different, ?_, ?_⟩
  · rw [← List.drop_eq_getElem_cons inside, List.take_append_drop]
  · exact List.set_eq_take_append_cons_drop.trans (if_pos inside)

theorem ne
    (oneOff : OneOff bytes other) :
    bytes ≠ other := by
  rcases oneOff with ⟨front, byte, changed, back, different, rfl, rfl⟩
  intro same
  exact different (List.cons.inj (List.append_cancel_left same)).1

/-- Of two parts one is changed and the other is not. -/
theorem of_append
    {front back changed : Bytes}
    (oneOff : OneOff (front ++ back) changed) :
    (∃ other, OneOff front other ∧ changed = other ++ back)
      ∨ ∃ other, OneOff back other ∧ changed = front ++ other := by
  rcases oneOff with ⟨before, byte, other, behind, different, split, rfl⟩
  rcases List.append_eq_append_iff.mp split with ⟨middle, rfl, rfl⟩ | ⟨middle, rfl, inFront⟩
  · right
    exact ⟨middle ++ other :: behind, ⟨middle, byte, other, behind, different, rfl, rfl⟩,
      List.append_assoc _ _ _⟩
  · rcases List.cons_eq_append_iff.mp inFront with ⟨rfl, rfl⟩ | ⟨rest, rfl, rfl⟩
    · right
      refine ⟨other :: behind, ⟨[], byte, other, behind, different, rfl, rfl⟩, ?_⟩
      rw [List.append_nil]
    · left
      refine ⟨before ++ other :: rest, ⟨before, byte, other, rest, different, rfl, rfl⟩, ?_⟩
      rw [List.append_assoc]
      rfl

/-- The change is on one side of any place, and the other side is as it was. -/
theorem halves
    (oneOff : OneOff bytes other)
    (count : Nat) :
    (OneOff (bytes.take count) (other.take count) ∧ other.drop count = bytes.drop count)
      ∨ other.take count = bytes.take count ∧ OneOff (bytes.drop count) (other.drop count) := by
  rcases oneOff with ⟨front, byte, changed, back, different, rfl, rfl⟩
  rcases Nat.lt_or_ge front.length count with before | behind
  · left
    rcases Nat.exists_eq_add_of_lt before with ⟨more, rfl⟩
    simp only [Nat.add_assoc, List.take_length_add_append, List.drop_length_add_append,
      List.take_succ_cons, List.drop_succ_cons]
    exact ⟨⟨front, byte, changed, back.take more, different, rfl, rfl⟩, trivial⟩
  · right
    simp only [List.take_append_of_le_length behind, List.drop_append_of_le_length behind]
    exact ⟨trivial, front.drop count, byte, changed, back, different, rfl, rfl⟩

/-- What is cut out of a changed byte string is as it was, or changed itself. -/
theorem cut
    (oneOff : OneOff bytes other)
    (offset count : Nat) :
    (other.drop offset).take count = (bytes.drop offset).take count
      ∨ OneOff ((bytes.drop offset).take count) ((other.drop offset).take count) := by
  rcases oneOff.halves offset with ⟨-, same⟩ | ⟨-, behind⟩
  · exact Or.inl (congrArg (List.take count) same)
  · rcases behind.halves count with ⟨changed, -⟩ | ⟨same, -⟩
    · exact Or.inr changed
    · exact Or.inl same

/-- A changed byte string has another checksum. -/
theorem crc32_ne
    (oneOff : OneOff bytes other) :
    Checksum.crc32 bytes ≠ Checksum.crc32 other := by
  rcases oneOff with ⟨front, byte, changed, back, different, rfl, rfl⟩
  intro same
  have registers := (UInt32.xor_left_inj _).mp same
  rw [Checksum.run_append, Checksum.run_append, Checksum.run_cons, Checksum.run_cons] at registers
  exact different (Checksum.step_byte_injective _ (Checksum.run_injective back registers))

/-- A changed byte string denotes another number. -/
theorem decode_ne
    (oneOff : OneOff bytes other) :
    LittleEndian.decode bytes ≠ LittleEndian.decode other := by
  intro same
  apply oneOff.ne
  rw [← LittleEndian.encode_decode bytes, same, ← oneOff.length, LittleEndian.encode_decode]

/-- A sealed byte string that was changed does not match its checksum. -/
theorem decode_ne_crc32
    {body : Bytes}
    (oneOff : OneOff (body ++ Checksum.trailer body) bytes) :
    LittleEndian.decode (bytes.drop body.length)
      ≠ (Checksum.crc32 (bytes.take body.length)).toNat := by
  rcases oneOff.of_append with ⟨front, inBody, rfl⟩ | ⟨back, inTrailer, rfl⟩
  · rw [List.drop_left' inBody.length, List.take_left' inBody.length, Checksum.decode_trailer]
    exact fun same => inBody.crc32_ne (UInt32.toNat_inj.mp same)
  · rw [List.drop_left, List.take_left, ← Checksum.decode_trailer]
    exact inTrailer.decode_ne.symm

end OneOff

end Bytes

end Chronicle
