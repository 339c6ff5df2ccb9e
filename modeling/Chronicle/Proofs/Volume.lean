import Chronicle.Volume

/-!
# Reading what was written

A patch that was put over a file is read back from its place, and what stands
beside it is read as before.  Both follow from one description of a successful
read by the bytes that it finds, place by place.
-/

namespace Chronicle.Volume

/-- A read succeeds with the bytes that stand in the places asked for, if these exist. -/
theorem read_eq_ok_iff
    {volume : Volume}
    {file offset count : Nat}
    {bytes : Bytes} :
    volume.read file offset count = .ok bytes ↔
      bytes.length = count
        ∧ (count = 0 ∨ offset + count ≤ (volume.content file).size)
        ∧ ∀ place, place < count →
          bytes.getD place 0 = (volume.content file).getD (offset + place) 0 := by
  have found : ∀ place, place < count → offset + count ≤ (volume.content file).size →
      ((volume.content file).extract offset (offset + count)).toList.getD place 0
        = (volume.content file).getD (offset + place) 0 := by
    intro place inside exists_
    rw [List.getD_eq_getElem?_getD, Array.getD_eq_getD_getElem?, Array.getElem?_toList,
      Array.getElem?_extract, if_pos (by omega)]
  unfold read
  constructor
  · intro answered
    simp only [Array.size_extract] at answered
    split at answered
    · rename_i whole
      cases answered
      refine ⟨?_, by omega, ?_⟩
      · rw [Array.length_toList, Array.size_extract]
        exact whole
      · intro place inside
        exact found place inside (by omega)
    · cases answered
  · rintro ⟨length, exists_, same⟩
    simp only [Array.size_extract]
    rw [if_pos (by omega)]
    congr 1
    apply List.ext_getElem
    · rw [Array.length_toList, Array.size_extract, length]
      omega
    · intro place inFound inBytes
      have inside : place < count := by omega
      have left := found place inside (by omega)
      have right := same place inside
      rw [List.getD_eq_getElem?_getD, List.getElem?_eq_getElem inFound] at left
      rw [List.getD_eq_getElem?_getD, List.getElem?_eq_getElem inBytes] at right
      exact left.trans right.symm

theorem size_content_write
    {volume : Volume}
    {file : Nat}
    (known : file < volume.contents.size)
    (offset : Nat)
    (patch : Bytes) :
    ((volume.write file offset patch).content file).size
      = if patch.isEmpty then (volume.content file).size
        else max (volume.content file).size (offset + patch.length) := by
  rw [write, content_change_self known, size_overlay]

theorem getD_content_write
    {volume : Volume}
    {file : Nat}
    (known : file < volume.contents.size)
    (offset : Nat)
    (patch : Bytes)
    (place : Nat) :
    ((volume.write file offset patch).content file).getD place 0
      = if offset ≤ place ∧ place < offset + patch.length then patch.getD (place - offset) 0
        else (volume.content file).getD place 0 := by
  rw [write, content_change_self known, getD_overlay]

@[simp]
theorem size_contents_write
    (volume : Volume)
    (file offset : Nat)
    (patch : Bytes) :
    (volume.write file offset patch).contents.size = volume.contents.size := by
  simp [write, change]

/-- A patch is read back from its place. -/
theorem read_write_self
    {volume : Volume}
    {file : Nat}
    (known : file < volume.contents.size)
    (offset : Nat)
    (patch : Bytes) :
    (volume.write file offset patch).read file offset patch.length = .ok patch := by
  rw [read_eq_ok_iff]
  refine ⟨rfl, ?_, ?_⟩
  · rw [size_content_write known]
    cases patch with
    | nil => exact Or.inl rfl
    | cons byte rest =>
        right
        exact Nat.le_max_right _ _
  · intro place inside
    rw [getD_content_write known, if_pos (by omega), Nat.add_sub_cancel_left]

/-- What stands beside a patch is read as before. -/
theorem read_write_of_disjoint
    {volume : Volume}
    {file offset count other : Nat}
    {patch bytes : Bytes}
    (known : file < volume.contents.size)
    (apart : offset + count ≤ other ∨ other + patch.length ≤ offset)
    (found : volume.read file offset count = .ok bytes) :
    (volume.write file other patch).read file offset count = .ok bytes := by
  rw [read_eq_ok_iff] at found ⊢
  rcases found with ⟨length, exists_, same⟩
  refine ⟨length, ?_, ?_⟩
  · rw [size_content_write known]
    split <;> omega
  · intro place inside
    rw [getD_content_write known, if_neg (by omega)]
    exact same place inside

/-- Files of the same content are read alike. -/
theorem read_congr
    {volume other : Volume}
    {file otherFile : Nat}
    (same : other.content otherFile = volume.content file)
    (offset count : Nat) :
    other.read otherFile offset count = volume.read file offset count := by
  unfold read
  rw [same]

/-- What is read from the beginning of a file is what its content begins with. -/
theorem exists_append_of_read
    {volume : Volume}
    {file count : Nat}
    {bytes : Bytes}
    (found : volume.read file 0 count = .ok bytes) :
    ∃ rest, (volume.content file).toList = bytes ++ rest := by
  unfold read at found
  simp only at found
  split at found
  · cases found
    refine ⟨(volume.content file).toList.drop count, ?_⟩
    simp
  · cases found

/-- The content of the file called `name`. -/
def image?
    (volume : Volume)
    (name : String) :
    Option (Array UInt8) :=
  (volume.lookup? name).map volume.content

theorem image?_eq_some_iff
    {volume : Volume}
    {name : String}
    {content : Array UInt8} :
    volume.image? name = some content ↔
      ∃ file, volume.lookup? name = some file ∧ volume.content file = content :=
  Option.map_eq_some_iff

/-- A file that has a content is there. -/
theorem lt_size_of_content
    {volume : Volume}
    {file : Nat}
    (filled : 0 < (volume.content file).size) :
    file < volume.contents.size := by
  apply Nat.lt_of_not_le
  intro missing
  unfold content at filled
  rw [Array.getD_eq_getD_getElem?, Array.getElem?_eq_none missing] at filled
  exact absurd filled (Nat.lt_irrefl 0)

/-- A volume in which every name leads to a file that exists. -/
def Sound (volume : Volume) : Prop :=
  ∀ entry ∈ volume.names, entry.2 < volume.contents.size

instance
    (volume : Volume) :
    Decidable volume.Sound :=
  inferInstanceAs (Decidable (∀ entry ∈ volume.names, _))

/-- A created file is the one of its name, emptied, or a new one under that name. -/
theorem create_eq_ok
    {volume after : Volume}
    {name : String}
    {file : Nat}
    (created : volume.create name = .ok (after, file)) :
    volume.lookup? name = some file ∧ after = volume.change file (fun _ => #[])
      ∨ file = volume.contents.size
        ∧ after = change ⟨(name, file) :: volume.names, volume.contents.push #[]⟩ file
          (fun _ => #[]) := by
  unfold create provide at created
  cases found : volume.lookup? name with
  | some known =>
      rw [found] at created
      cases created
      exact Or.inl ⟨rfl, rfl⟩
  | none =>
      rw [found] at created
      by_cases plain : isPlainName name = true
      · simp only [plain, if_true] at created
        cases created
        exact Or.inr ⟨rfl, rfl⟩
      · simp only [plain] at created
        cases created

/-- Creating a file in a sound volume gives a file that exists. -/
theorem lt_size_of_create
    {volume after : Volume}
    {name : String}
    {file : Nat}
    (sound : volume.Sound)
    (created : volume.create name = .ok (after, file)) :
    file < after.contents.size := by
  rcases create_eq_ok created with ⟨found, rfl⟩ | ⟨rfl, rfl⟩
  · have member : (name, file) ∈ volume.names := by
      rcases List.lookup_eq_some_iff.mp found with ⟨before, behind, entries, -⟩
      rw [entries]
      exact List.mem_append_right before List.mem_cons_self
    have inside : file < volume.contents.size := sound _ member
    simpa [change] using inside
  · simp [change]

/-- A created file is found under its name. -/
theorem lookup?_of_create
    {volume after : Volume}
    {name : String}
    {file : Nat}
    (created : volume.create name = .ok (after, file)) :
    after.lookup? name = some file := by
  rcases create_eq_ok created with ⟨found, rfl⟩ | ⟨rfl, rfl⟩
  · exact found
  · simp [lookup?, change]

end Chronicle.Volume
