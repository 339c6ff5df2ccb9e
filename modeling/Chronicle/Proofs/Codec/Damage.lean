import Chronicle.Proofs.Codec.Checksum
import Chronicle.Proofs.Codec.Header
import Chronicle.Proofs.Volume
import Chronicle.Tree.NodeFile

/-!
# What is damaged is refused

Every part of a history file ends in a checksum of its own: the header, each
block, and the namespace.  Each of them is refused when one of its bytes was
changed, whatever the changed bytes would otherwise have told.
-/

namespace Chronicle

namespace Volume

/-- The content of another file or, if it is spoiled, that content with one byte changed. -/
def Resembles
    (spoiled : Prop)
    (content other : Array UInt8) :
    Prop :=
  other = content ∨ spoiled ∧ Bytes.OneOff content.toList other.toList

namespace Resembles

variable {spoiled : Prop} {content other : Array UInt8}

theorem size
    (resembles : Resembles spoiled content other) :
    other.size = content.size := by
  rcases resembles with rfl | ⟨-, oneOff⟩
  · rfl
  · have length := oneOff.length
    rwa [Array.length_toList, Array.length_toList] at length

/-- What is read is as it was or, if the file is spoiled, changed in one byte itself. -/
theorem exists_read
    {volume changed : Volume}
    {file changedFile offset count : Nat}
    {bytes : Bytes}
    (resembles : Resembles spoiled (volume.content file) (changed.content changedFile))
    (found : volume.read file offset count = .ok bytes) :
    ∃ told,
      changed.read changedFile offset count = .ok told
        ∧ (told = bytes ∨ spoiled ∧ Bytes.OneOff bytes told) := by
  have size := resembles.size
  unfold read at found ⊢
  simp only [Array.size_extract, size] at found ⊢
  split at found
  · rename_i whole
    cases found
    refine ⟨_, if_pos whole, ?_⟩
    simp only [Array.toList_extract, List.extract_eq_take_drop, Nat.add_sub_cancel_left]
    rcases resembles with same | ⟨broken, oneOff⟩
    · exact Or.inl (by rw [same])
    · exact (oneOff.cut offset count).imp id fun inside => ⟨broken, inside⟩
  · cases found

end Resembles

end Volume

namespace Tree

/-- A block ends in the checksum of what stands before. -/
theorem Node.exists_sealed_of_encode
    {config : Config}
    {node : Node}
    {block : Bytes}
    (encoded : node.encode config = .ok block) :
    ∃ body, block = body ++ Checksum.trailer body ∧ body.length = bodySize config := by
  unfold encode at encoded
  cases written : node.intervals.toList.mapM Interval.encode with
  | error fault =>
      rw [written] at encoded
      cases encoded
  | ok writings =>
      rw [written] at encoded
      simp only [bind, Except.bind, pure, Except.pure] at encoded
      split at encoded
      · cases encoded
      · rename_i fits
        cases encoded
        refine ⟨_, rfl, ?_⟩
        simp only [List.length_append, List.length_replicate] at fits ⊢
        omega

/-- A block of which one byte was changed is refused. -/
theorem Node.decode_of_oneOff
    {config : Config}
    {node : Node}
    {block changed : Bytes}
    (encoded : node.encode config = .ok block)
    (oneOff : Bytes.OneOff block changed) :
    ∃ fault, decode config changed = .error fault := by
  rcases exists_sealed_of_encode encoded with ⟨body, rfl, length⟩
  have mismatch := oneOff.decode_ne_crc32
  rw [length] at mismatch
  unfold decode
  by_cases whole : changed.length = config.blockSize
  · simp only [bind, Except.bind, ne_eq, whole, not_true_eq_false, if_false, mismatch,
      not_false_eq_true, if_true]
    exact ⟨_, rfl⟩
  · simp only [bind, Except.bind, ne_eq, whole, not_false_eq_true, if_true]
    exact ⟨_, rfl⟩

/-- A node is not read from a block of which one byte was changed. -/
theorem NodeFile.fetch_of_oneOff
    {io : NodeFile}
    {volume : Volume}
    {node : Node}
    {seq : Nat}
    {block changed : Bytes}
    (encoded : node.encode io.config = .ok block)
    (read : volume.read io.file (io.blockOffset seq) io.config.blockSize = .ok changed)
    (oneOff : Bytes.OneOff block changed) :
    ∃ fault, io.fetch volume seq = .error fault := by
  rcases Node.decode_of_oneOff encoded oneOff with ⟨fault, refused⟩
  refine ⟨fault, ?_⟩
  unfold fetch
  rw [read]
  show (Node.decode io.config changed >>= _) = _
  rw [refused]
  rfl

/-- A header of which one byte was changed is refused. -/
theorem Header.decode_of_oneOff
    {header : Header}
    {changed : Bytes}
    (oneOff : Bytes.OneOff header.encode changed)
    (rest : Bytes) :
    ∃ fault, decode (changed ++ rest) = .error fault := by
  have mismatch := Bytes.OneOff.decode_ne_crc32 oneOff
  rw [header.length_body] at mismatch
  have whole : Reader.take size (changed ++ rest) = .ok (changed, rest) :=
    Reader.take_append (oneOff.length.trans header.length_encode) rest
  have failed : ∃ fault, read.run (changed ++ rest) = .error fault := by
    unfold read
    show ∃ fault, (Reader.take size (changed ++ rest) >>= _) = _
    rw [whole]
    simp only [bind, Except.bind]
    by_cases mark : (changed.take (size - checksumSize)).take 4 = magic
    · by_cases format : formatVersion
          < LittleEndian.decode (((changed.take (size - checksumSize)).drop 4).take 2)
      · simp only [ne_eq, mark, not_true_eq_false, if_false, format, if_true]
        exact ⟨_, rfl⟩
      · simp only [ne_eq, mark, not_true_eq_false, if_false, format, mismatch, not_false_eq_true,
          if_true]
        exact ⟨_, rfl⟩
    · simp only [ne_eq, mark, not_false_eq_true, if_true]
      exact ⟨_, rfl⟩
  rcases failed with ⟨fault, failed⟩
  refine ⟨fault, ?_⟩
  unfold decode
  rw [failed]
  rfl

/-- The header of a file is told as it was or, if the file is spoiled, refused. -/
theorem Header.told_of_resembles
    {spoiled : Prop}
    {header : Header}
    {content other : Array UInt8}
    {rest : Bytes}
    (storable : header.Storable)
    (resembles : Volume.Resembles spoiled content other)
    (begins : content.toList = header.encode ++ rest) :
    decode other.toList = .ok header ∨ spoiled ∧ ∃ fault, decode other.toList = .error fault := by
  rcases resembles with rfl | ⟨broken, oneOff⟩
  · rw [begins]
    exact Or.inl (decode_append storable rest)
  · rw [begins] at oneOff
    rcases oneOff.of_append with ⟨changed, inHeader, whole⟩ | ⟨changed, -, whole⟩
    · rw [whole]
      exact Or.inr ⟨broken, decode_of_oneOff inHeader rest⟩
    · rw [whole]
      exact Or.inl (decode_append storable changed)

/-- A namespace of which one byte was changed is refused. -/
theorem NodeFile.readNamespace_of_oneOff
    {io : NodeFile}
    {volume : Volume}
    {offset : Nat}
    {body changed : Bytes}
    (found : volume.read io.file offset (body.length + checksumSize) = .ok changed)
    (oneOff : Bytes.OneOff (body ++ Checksum.trailer body) changed) :
    ∃ fault, io.readNamespace volume offset body.length = .error fault := by
  have mismatch := oneOff.decode_ne_crc32
  unfold readNamespace
  rw [found]
  simp only [bind, Except.bind, ne_eq, mismatch, not_false_eq_true, if_true]
  exact ⟨_, rfl⟩

end Tree

end Chronicle
