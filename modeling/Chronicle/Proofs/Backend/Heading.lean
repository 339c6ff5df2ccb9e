import Chronicle.Proofs.Backend.Siting

/-!
# The front of a file

A history file begins with a header.  The one that is written first says that
the history is not complete; the one that says that it is comes last of all.
Until then the front of the file is as it was in the beginning, and nobody
opens it, whatever stands behind and whatever stood in the file before.
-/

namespace Chronicle

namespace Volume

/-- The bytes at the front of a file, with zeros in the places that the file does not have. -/
def front
    (file : Nat)
    (volume : Volume) :
    Bytes :=
  (List.range Tree.Header.size).map fun place => (volume.content file).getD place 0

/-- What is written behind the header of a file, or to another file, leaves its front alone. -/
theorem frontal_front
    (file : Nat) :
    Frontal (front file) := by
  intro volume other offset patch behind
  unfold front
  refine List.map_congr_left fun place inside => ?_
  by_cases same : other = file
  · subst same
    by_cases known : other < volume.contents.size
    · have before : ¬ (offset ≤ place ∧ place < offset + patch.length) := by
        have short := List.mem_range.mp inside
        omega
      rw [getD_content_write known, if_neg before]
    · have missing : volume.contents.size ≤ other := Nat.not_lt.mp known
      simp [write, change, content, Array.getD_eq_getD_getElem?, missing]
  · unfold write
    rw [content_change_of_ne same]

theorem getD_front
    {volume : Volume}
    {file place : Nat}
    (inside : place < Tree.Header.size) :
    (volume.front file).getD place 0 = (volume.content file).getD place 0 := by
  unfold front
  rw [List.getD_eq_getElem?_getD, List.getElem?_map, List.getElem?_range inside]
  rfl

/-- What is read from the front of a file stands there. -/
theorem front_of_read
    {volume : Volume}
    {file : Nat}
    {bytes : Bytes}
    (found : volume.read file 0 Tree.Header.size = .ok bytes) :
    volume.front file = bytes := by
  rcases read_eq_ok_iff.mp found with ⟨length, -, same⟩
  have sameLength : (volume.front file).length = Tree.Header.size := by
    unfold front
    rw [List.length_map, List.length_range]
  apply List.ext_getElem (sameLength.trans length.symm)
  intro place inFront inBytes
  have inside : place < Tree.Header.size := sameLength ▸ inFront
  have equal := (getD_front inside).trans ((same place inside).trans (by rw [Nat.zero_add])).symm
  rwa [List.getD_eq_getElem?_getD, List.getD_eq_getElem?_getD, List.getElem?_eq_getElem inFront,
    List.getElem?_eq_getElem inBytes] at equal

/-- The front of a file that is long enough is read from it. -/
theorem read_front
    {volume : Volume}
    {file : Nat}
    (long : Tree.Header.size ≤ (volume.content file).size) :
    volume.read file 0 Tree.Header.size = .ok (volume.front file) := by
  refine read_eq_ok_iff.mpr ⟨?_, Or.inr (by omega), fun place inside => ?_⟩
  · unfold front
    rw [List.length_map, List.length_range]
  · rw [getD_front inside, Nat.zero_add]

end Volume

namespace Tree

/-- A file that is too short for a header tells none. -/
theorem Header.decode_of_short
    {bytes : Bytes}
    (short : bytes.length < size) :
    ∃ fault, decode bytes = .error fault := by
  have cut : Reader.take size bytes = .error (.storage .exhausted) := by
    unfold Reader.take
    rw [List.length_take, if_neg (by omega)]
  have failed : read.run bytes = .error (.storage .exhausted) := by
    unfold read
    show (Reader.take size bytes >>= _) = _
    rw [cut]
    rfl
  refine ⟨.storage .exhausted, ?_⟩
  unfold decode
  rw [failed]
  rfl

/-- A header of a history that was only begun can be told, if its settings can. -/
theorem Header.storable_unfinished
    {config : Config}
    (told : config.version < 4294967296)
    (start_ge : -9223372036854775808 ≤ config.start)
    (start_le : config.start ≤ latestInstant) :
    (unfinished config).Storable where
  version := told
  blockSize := Nat.mod_lt _ (by decide)
  maxChildren := Nat.mod_lt _ (by decide)
  nodeCount := Nat.succ_pos _
  rootSeq := Nat.succ_pos _
  start_ge := start_ge
  start_le := start_le
  stop_ge := start_ge
  stop_le := start_le
  namespaceOffset := Nat.succ_pos _
  namespaceSize := Nat.succ_pos _

/-- At the front of the file of a new tree stands the header of a history that was only begun. -/
theorem front_of_create
    {name : String}
    {config : Config}
    {volume made : Volume}
    {tree : Tree}
    (sound : volume.Sound)
    (created : create name config volume = .ok (made, tree)) :
    made.front tree.io.file = (Header.unfinished config).encode := by
  rcases create_eq_ok created with ⟨-, base, file, provided, rfl, rfl⟩
  have written := Volume.read_write_self (Volume.lt_size_of_create sound provided) 0
    (Header.unfinished config).encode
  rw [Header.length_encode] at written
  exact Volume.front_of_read written

/-- A file with the header of an unfinished history at its front is opened by no one. -/
theorem reopen_of_front
    {name : String}
    {base : Volume}
    {file : Nat}
    {header : Header}
    (storable : header.Storable)
    (unfinished : header.finished = false)
    (found : base.lookup? name = some file)
    (front : base.front file = header.encode)
    (version : Nat) :
    ∃ fault, Tree.reopen name version base = .error fault := by
  by_cases long : Header.size ≤ (base.content file).size
  · have read := Volume.read_front long
    rw [front] at read
    rcases Volume.exists_append_of_read read with ⟨rest, begins⟩
    have decoded : Header.decode (base.content file).toList = .ok header := by
      rw [begins]
      exact Header.decode_append storable rest
    exact ⟨_, reopen_of_unfinished found decoded unfinished version⟩
  · have short : (base.content file).toList.length < Header.size := by
      rw [Array.length_toList]
      omega
    rcases Header.decode_of_short short with ⟨fault, refused⟩
    exact ⟨fault, reopen_of_header_refused found refused version⟩

end Tree

end Chronicle
