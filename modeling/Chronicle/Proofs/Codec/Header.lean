import Chronicle.Proofs.Codec.Reading
import Chronicle.Tree.Header

/-!
# Headers are read back

A header whose numbers fit their fields is read back from its writing, and
from every content that begins with its writing.
-/

namespace Chronicle.Tree.Header

/-- A header whose numbers fit their fields. -/
structure Storable (header : Header) : Prop where
  version : header.version < 4294967296
  blockSize : header.blockSize < 4294967296
  maxChildren : header.maxChildren < 4294967296
  nodeCount : header.nodeCount < 4294967296
  rootSeq : header.rootSeq < 4294967296
  start_ge : -9223372036854775808 ≤ header.start
  start_le : header.start ≤ latestInstant
  stop_ge : -9223372036854775808 ≤ header.stop
  stop_le : header.stop ≤ latestInstant
  namespaceOffset : header.namespaceOffset < 18446744073709551616
  namespaceSize : header.namespaceSize < 4294967296

/-- The fields of a header after the format version. -/
def fields (header : Header) : Bytes :=
  LittleEndian.encode 4 header.version
    ++ (LittleEndian.encode 4 header.blockSize
    ++ (LittleEndian.encode 4 header.maxChildren
    ++ (LittleEndian.encode 4 header.nodeCount
    ++ (LittleEndian.encode 4 header.rootSeq
    ++ (LittleEndian.encodeSigned 8 header.start
    ++ (LittleEndian.encodeSigned 8 header.stop
    ++ (LittleEndian.encode 8 header.namespaceOffset
    ++ (LittleEndian.encode 4 header.namespaceSize
    ++ [if header.finished then 1 else 0]))))))))

theorem body_eq
    (header : Header) :
    header.body
      = magic ++ (LittleEndian.encode 2 formatVersion
        ++ (header.fields ++ List.replicate 5 0)) := by
  unfold body fields
  simp only [List.append_assoc]

theorem reads_fields
    {header : Header}
    (storable : header.Storable) :
    readFields.Reads header.fields header := by
  have start_le := storable.start_le
  have stop_le := storable.stop_le
  simp only [latestInstant] at start_le stop_le
  have version := Reader.reads_unsigned_four storable.version
  have blockSize := Reader.reads_unsigned_four storable.blockSize
  have maxChildren := Reader.reads_unsigned_four storable.maxChildren
  have nodeCount := Reader.reads_unsigned_four storable.nodeCount
  have rootSeq := Reader.reads_unsigned_four storable.rootSeq
  have start := Reader.reads_signed_eight storable.start_ge (by omega)
  have stop := Reader.reads_signed_eight storable.stop_ge (by omega)
  have offset : (Reader.unsigned 8).Reads
      (LittleEndian.encode 8 header.namespaceOffset) header.namespaceOffset := by
    apply Reader.reads_unsigned
    rw [LittleEndian.span_eight]
    exact storable.namespaceOffset
  have size := Reader.reads_unsigned_four storable.namespaceSize
  have finished := Reader.reads_byte (if header.finished then 1 else 0)
  refine version.bind (blockSize.bind (maxChildren.bind (nodeCount.bind (rootSeq.bind
    (start.bind (stop.bind (offset.bind (size.bind (finished.bind_nil ?_)))))))))
  have flag : decide ((if header.finished then 1 else 0 : UInt8) ≠ 0) = header.finished := by
    cases header.finished <;> decide
  rw [flag]
  exact Reader.Reads.pure header

/-- A header is read back from its writing. -/
theorem reads_encode
    {header : Header}
    (storable : header.Storable) :
    read.Reads header.encode header := by
  have whole := Reader.reads_take header.encode
  rw [length_encode] at whole
  have front : header.encode.take (size - checksumSize) = header.body := by
    rw [← length_body header]
    exact List.take_left
  have back : header.encode.drop (size - checksumSize) = Checksum.trailer header.body := by
    rw [← length_body header]
    exact List.drop_left
  have mark : header.body.take 4 = magic := by
    rw [body_eq]
    rfl
  have format : LittleEndian.decode ((header.body.drop 4).take 2) = formatVersion := by
    rw [body_eq]
    rfl
  have behind : header.body.drop 6 = header.fields ++ List.replicate 5 0 := by
    rw [body_eq]
    rfl
  have fields : readFields.run (header.fields ++ List.replicate 5 0)
      = .ok (header, List.replicate 5 0) := reads_fields storable _
  refine whole.bind_nil fun rest => ?_
  simp only [front, back, mark, format, behind, Checksum.decode_trailer, ne_eq, not_true_eq_false,
    Nat.lt_irrefl, if_false, fields]
  rfl

/-- A header is found at the front of whatever begins with its writing. -/
theorem decode_append
    {header : Header}
    (storable : header.Storable)
    (rest : Bytes) :
    decode (header.encode ++ rest) = .ok header := by
  have found : read.run (header.encode ++ rest) = .ok (header, rest) := reads_encode storable rest
  unfold decode
  rw [found]
  rfl

end Chronicle.Tree.Header
