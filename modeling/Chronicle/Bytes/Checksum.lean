import Chronicle.Bytes.LittleEndian

/-!
# CRC-32 checksums

The reflected CRC-32 with polynomial `0xEDB88320`, all bits set at the start
and inverted at the end.  It is a left fold of one register step over the
bytes, so that the effect of a single byte can be followed through the rest.
-/

namespace Chronicle.Checksum

/-- The reflected generator polynomial. -/
def polynomial : UInt32 := 0xEDB88320

/-- One shift of the register, reduced by the polynomial. -/
def shift (register : UInt32) : UInt32 :=
  if register &&& 1 = 1 then (register >>> 1) ^^^ polynomial else register >>> 1

/-- The register after one more byte: eight shifts, one for each bit. -/
def step
    (register : UInt32)
    (byte : UInt8) :
    UInt32 :=
  shift (shift (shift (shift (shift (shift (shift (shift
    (register ^^^ byte.toUInt32))))))))

/-- The register after all of `bytes`. -/
def run
    (register : UInt32)
    (bytes : Bytes) :
    UInt32 :=
  bytes.foldl step register

/-- The CRC-32 of a byte string. -/
def crc32 (bytes : Bytes) : UInt32 :=
  run 0xFFFFFFFF bytes ^^^ 0xFFFFFFFF

@[simp]
theorem run_nil
    (register : UInt32) :
    run register [] = register := rfl

@[simp]
theorem run_cons
    (register : UInt32)
    (byte : UInt8)
    (rest : Bytes) :
    run register (byte :: rest) = run (step register byte) rest := rfl

/-- The register can be carried over a concatenation. -/
@[simp]
theorem run_append
    (register : UInt32)
    (left right : Bytes) :
    run register (left ++ right) = run (run register left) right :=
  List.foldl_append

/-- The four bytes in which a checksum is stored. -/
def trailer (bytes : Bytes) : Bytes :=
  LittleEndian.encode 4 (crc32 bytes).toNat

@[simp]
theorem length_trailer
    (bytes : Bytes) :
    (trailer bytes).length = 4 := by
  simp [trailer]

/-- A checksum is read back from its four bytes. -/
@[simp]
theorem decode_trailer
    (bytes : Bytes) :
    LittleEndian.decode (trailer bytes) = (crc32 bytes).toNat := by
  apply LittleEndian.decode_encode_of_lt
  rw [LittleEndian.span_four]
  exact (crc32 bytes).toNat_lt

end Chronicle.Checksum
