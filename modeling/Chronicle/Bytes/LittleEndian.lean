/-!
# Little-endian integers

Byte strings are lists of bytes.  A natural number is written in a fixed
number of bytes, least significant first; what does not fit is dropped.
Signed numbers use two's complement.  The statements here say that reading
undoes writing for every number that fits, and that every byte string is the
writing of the number read from it.
-/

namespace Chronicle

/-- A byte string. -/
abbrev Bytes := List UInt8

namespace LittleEndian

/-- The `width` low-order bytes of a number, least significant first. -/
def encode : (width : Nat) → Nat → Bytes
  | 0, _ => []
  | width + 1, n => UInt8.ofNat n :: encode width (n / 256)

/-- The number whose bytes, least significant first, are given. -/
def decode : Bytes → Nat
  | [] => 0
  | byte :: rest => byte.toNat + 256 * decode rest

/-- How many numbers there are to write in `width` bytes. -/
def span : (width : Nat) → Nat
  | 0 => 1
  | width + 1 => 256 * span width

/-- The two's complement of a signed number in `width` bytes. -/
def encodeSigned
    (width : Nat)
    (n : Int) :
    Bytes :=
  encode width (n % (span width : Int)).toNat

/-- The signed number whose two's complement is given. -/
def decodeSigned (bytes : Bytes) : Int :=
  Int.bmod (decode bytes) (span bytes.length)

@[simp]
theorem span_two : span 2 = 65536 := rfl

@[simp]
theorem span_four : span 4 = 4294967296 := rfl

@[simp]
theorem span_eight : span 8 = 18446744073709551616 := rfl

theorem span_pos
    (width : Nat) :
    0 < span width := by
  induction width with
  | zero => exact Nat.one_pos
  | succ width ih => exact Nat.mul_pos (by decide) ih

@[simp]
theorem length_encode
    (width n : Nat) :
    (encode width n).length = width := by
  induction width generalizing n with
  | zero => rfl
  | succ width ih => simp [encode, ih]

@[simp]
theorem length_encodeSigned
    (width : Nat)
    (n : Int) :
    (encodeSigned width n).length = width := by
  simp [encodeSigned]

/-- Reading back keeps what the width can hold. -/
theorem decode_encode
    (width n : Nat) :
    decode (encode width n) = n % span width := by
  induction width generalizing n with
  | zero => simp [encode, decode, span, Nat.mod_one]
  | succ width ih =>
    have head : (UInt8.ofNat n).toNat = n % 256 := by simp
    rw [encode, decode, ih, head, span, Nat.mod_mul]

theorem decode_encode_of_lt
    {width n : Nat}
    (fits : n < span width) :
    decode (encode width n) = n := by
  rw [decode_encode, Nat.mod_eq_of_lt fits]

/-- A byte string denotes less than one unit of the next byte. -/
theorem decode_lt
    (bytes : Bytes) :
    decode bytes < span bytes.length := by
  induction bytes with
  | nil => exact Nat.one_pos
  | cons byte rest ih =>
    have small : byte.toNat < 256 := byte.toNat_lt
    simp only [decode, List.length_cons, span]
    omega

/-- Every byte string is the writing of the number read from it. -/
theorem encode_decode
    (bytes : Bytes) :
    encode bytes.length (decode bytes) = bytes := by
  induction bytes with
  | nil => rfl
  | cons byte rest ih =>
    have small : byte.toNat < 256 := byte.toNat_lt
    have head : UInt8.ofNat (byte.toNat + 256 * decode rest) = byte := by
      apply UInt8.toNat_inj.mp
      simp
    have tail : (byte.toNat + 256 * decode rest) / 256 = decode rest := by
      omega
    simp [encode, decode, head, tail, ih]

/-- Signed reading undoes signed writing within the width's range. -/
theorem decodeSigned_encodeSigned
    {width : Nat}
    {n : Int}
    (low : -(span width : Int) ≤ 2 * n)
    (high : 2 * n < (span width : Int)) :
    decodeSigned (encodeSigned width n) = n := by
  have positive := span_pos width
  have nonneg : 0 ≤ n % (span width : Int) :=
    Int.emod_nonneg _ (by omega)
  have bound : n % (span width : Int) < (span width : Int) :=
    Int.emod_lt_of_pos _ (by omega)
  unfold decodeSigned encodeSigned
  rw [length_encode, decode_encode_of_lt (by omega), Int.toNat_of_nonneg nonneg,
    Int.emod_bmod]
  exact Int.bmod_eq_of_le (by omega) (by omega)

/-- Every byte string is the writing of the signed number read from it. -/
theorem encodeSigned_decodeSigned
    (bytes : Bytes) :
    encodeSigned bytes.length (decodeSigned bytes) = bytes := by
  unfold decodeSigned encodeSigned
  rw [Int.bmod_emod, ← Int.natCast_emod, Int.toNat_natCast,
    Nat.mod_eq_of_lt (decode_lt bytes), encode_decode]

end LittleEndian

end Chronicle
