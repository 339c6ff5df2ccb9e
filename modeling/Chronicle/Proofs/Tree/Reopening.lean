import Chronicle.Proofs.Codec.Header
import Chronicle.Proofs.Tree.Finishing

/-!
# Opening a tree again

The file of a finished tree tells all that the tree held.  A tree opened from
it has no branch at hand and finds every node by its block, the root among
them; its settings are those that the header tells, and it answers as the tree
did that was finished.  What else is in the volume, and under which name the
file is found, makes no difference.
-/

namespace Chronicle.Tree

/-- A tree of the given shape without a branch, all of whose nodes are in the file. -/
structure Lies
    (s : Placed Tree)
    (spine : Spine) : Prop where
  branch : s.subject.branch = []
  sound : ∃ config stop height, spine.Sound config stop none height
  file : NodeFile.Keeps ⟨s.volume, s.subject.io⟩ spine.nodes
  storable : ∀ node ∈ spine.nodes, node.Storable s.subject.config
  rootSeq : s.subject.rootSeq = spine.top.seq
  few : spine.nodes.length ≤ s.subject.io.blockCount s.volume

/-- A tree opened again holds the intervals that its file tells. -/
structure Rests
    (s : Placed Tree)
    (taken : List Interval) : Prop where
  finished : s.subject.finished = true
  lies : ∃ spine, Lies s spine ∧ spine.Carries taken
  separate : Interval.Separate taken

/-! ## Asking -/

/-- The nodes of a tree opened again are found in the file. -/
theorem Lies.shows_
    {s : Placed Tree}
    {spine : Spine}
    (lies : Lies s spine) :
    Shows s spine.nodes spine.nodes where
  distinct := lies.file.distinct
  branch node member := by
    rw [lies.branch] at member
    cases member
  keeps := lies.file
  found node member := Or.inr ⟨member, lies.storable node member⟩

namespace Rests

variable {s : Placed Tree} {taken : List Interval}

/-- Every descent gathers from the nodes on the way down in a tree of the intervals taken. -/
theorem descendFromRoot
    {α : Type}
    (rests : Rests s taken)
    (t : Int)
    (visit : Node → α → α)
    (enough : α → Bool)
    (faithful : ∀ (node : Node) (gathered : α), visit node.reread gathered = visit node gathered)
    (gathered : α) :
    ∃ (spine : Spine) (config : Config) (stop : Int) (height : Nat) (cache : NodeCache),
      spine.Sound config stop none height
        ∧ spine.Carries taken
        ∧ Tree.descendFromRoot t visit enough gathered s
          = .ok (gatherFrom visit enough (spine.way t) gathered)
            ⟨s.volume, s.subject.withCache cache⟩
        ∧ Rests ⟨s.volume, s.subject.withCache cache⟩ taken := by
  rcases rests.lies with ⟨spine, lies, carries⟩
  rcases lies.sound with ⟨config, stop, height, sound⟩
  have inTree := spine.top_mem_nodes
  rcases lies.file.readNode inTree (lies.storable _ inTree) with
    ⟨found, cache, read, sameRoot, keeps⟩
  have root : Tree.root s = .ok found ⟨s.volume, s.subject.withCache cache⟩ := by
    unfold Tree.root
    rw [Step.subject_bind_apply, lies.branch, lies.rootSeq]
    exact Step.onPart_of_ok read
  have shows_ : Shows ⟨s.volume, s.subject.withCache cache⟩ spine.nodes spine.nodes :=
    ⟨lies.shows_.distinct, lies.shows_.branch, keeps, lies.shows_.found⟩
  have fueled : (spine.way t).length ≤ s.subject.descentBound s.volume := by
    have length := (spine.way_sublist t).length_le
    have few := lies.few
    unfold Tree.descentBound
    omega
  rcases shows_.descendFromRoot_of_root root sameRoot sound fueled faithful gathered with
    ⟨last, answered, kept⟩
  have liesStill : Lies ⟨s.volume, s.subject.withCache last⟩ spine :=
    ⟨lies.branch, lies.sound, kept.keeps, lies.storable, lies.rootSeq, lies.few⟩
  exact ⟨spine, config, stop, height, last, sound, carries, answered,
    rests.finished, ⟨spine, liesStill, carries⟩, rests.separate⟩

/-- A tree opened again answers with the interval of the attribute that covers the instant. -/
theorem find
    (rests : Rests s taken)
    (t quark : Int) :
    ∃ cache,
      Tree.find t quark s
          = .ok (Interval.covering? taken t quark) ⟨s.volume, s.subject.withCache cache⟩
        ∧ Rests ⟨s.volume, s.subject.withCache cache⟩ taken := by
  rcases rests.descendFromRoot t (fun node _ => node.find? t quark) Option.isSome
      (fun _ _ => rfl) none with
    ⟨spine, config, stop, height, cache, sound, carries, answered, kept⟩
  rw [sound.gatherFrom_find rests.separate carries] at answered
  exact ⟨cache, answered, kept⟩

/-- A tree opened again fills each slot with the interval that covers the instant. -/
theorem collect
    (rests : Rests s taken)
    (t : Int)
    (slots : Slots) :
    ∃ cache,
      Tree.collect t slots s = .ok (slots.fill taken t) ⟨s.volume, s.subject.withCache cache⟩
        ∧ Rests ⟨s.volume, s.subject.withCache cache⟩ taken := by
  rcases rests.descendFromRoot t (fun node => node.collect t) (fun _ => false)
      (fun _ _ => rfl) slots with
    ⟨spine, config, stop, height, cache, sound, carries, answered, kept⟩
  rw [sound.gatherFrom_collect rests.separate carries] at answered
  exact ⟨cache, answered, kept⟩

end Rests

/-- A tree tells the intervals taken: one that took them itself, or one opened again. -/
def Tells
    (s : Placed Tree)
    (taken : List Interval) : Prop :=
  Holds s taken ∨ Rests s taken

namespace Tells

variable {s : Placed Tree} {taken : List Interval}

theorem separate
    (tells : Tells s taken) :
    Interval.Separate taken := by
  rcases tells with holds | rests
  · exact holds.separate
  · exact rests.separate

theorem valid
    (tells : Tells s taken) :
    s.subject.config.Valid := by
  rcases tells with holds | rests
  · rcases holds.stands with ⟨spine, height, stands, -⟩
    exact stands.file.valid
  · rcases rests.lies with ⟨spine, lies, -⟩
    exact lies.file.valid

/-- A tree that is not finished took its intervals itself. -/
theorem holds
    (tells : Tells s taken)
    (unfinished : s.subject.finished = false) :
    Holds s taken := by
  rcases tells with holds | rests
  · exact holds
  · exact absurd (rests.finished.symm.trans unfinished) Bool.noConfusion

/-- The order in which intervals were taken makes no difference to a tree. -/
theorem perm
    {others : List Interval}
    (tells : Tells s taken)
    (perm : taken.Perm others) :
    Tells s others := by
  rcases tells with holds | rests
  · rcases holds.stands with ⟨spine, height, stands, carries⟩
    exact Or.inl ⟨⟨spine, height, stands, carries.same.trans perm, carries.sorted⟩,
      holds.separate.perm perm⟩
  · rcases rests.lies with ⟨spine, lies, carries⟩
    exact Or.inr ⟨rests.finished, ⟨spine, lies, carries.same.trans perm, carries.sorted⟩,
      rests.separate.perm perm⟩

/-- A tree answers with the interval of the attribute that covers the instant. -/
theorem find
    (tells : Tells s taken)
    (inRange : s.subject.InRange)
    (numbered : Numbered taken)
    (t quark : Int) :
    ∃ cache,
      Tree.find t quark s
          = .ok (Interval.covering? taken t quark) ⟨s.volume, s.subject.withCache cache⟩
        ∧ Tells ⟨s.volume, s.subject.withCache cache⟩ taken := by
  rcases tells with holds | rests
  · rcases holds.find inRange numbered t quark with ⟨cache, found, kept⟩
    exact ⟨cache, found, Or.inl kept⟩
  · rcases rests.find t quark with ⟨cache, found, kept⟩
    exact ⟨cache, found, Or.inr kept⟩

/-- A tree fills each slot with the interval of its attribute that covers the instant. -/
theorem collect
    (tells : Tells s taken)
    (inRange : s.subject.InRange)
    (numbered : Numbered taken)
    (t : Int)
    (slots : Slots) :
    ∃ cache,
      Tree.collect t slots s = .ok (slots.fill taken t) ⟨s.volume, s.subject.withCache cache⟩
        ∧ Tells ⟨s.volume, s.subject.withCache cache⟩ taken := by
  rcases tells with holds | rests
  · rcases holds.collect inRange numbered t slots with ⟨cache, found, kept⟩
    exact ⟨cache, found, Or.inl kept⟩
  · rcases rests.collect t slots with ⟨cache, found, kept⟩
    exact ⟨cache, found, Or.inr kept⟩

end Tells

/-! ## Opening -/

/-- The settings as a header tells them: how many nodes are kept at hand it does not tell. -/
def Config.told (config : Config) : Config where
  blockSize := config.blockSize
  maxChildren := config.maxChildren
  version := config.version
  start := config.start

/-- The settings that count for the blocks are told. -/
theorem Config.Valid.told
    {config : Config}
    (valid : config.Valid) :
    config.told.Valid :=
  ⟨valid.twoChildren, valid.childrenFit, valid.blockFits, valid.roomForInterval⟩

/-- A node that its block can tell under some settings it can tell under those read back. -/
theorem Node.Storable.told
    {config : Config}
    {node : Node}
    (storable : node.Storable config) :
    node.Storable config.told :=
  ⟨storable.seq_lt, storable.parent_lt, storable.start_ge, storable.start_le, storable.stop_ge,
    storable.stop_le, storable.links, storable.intervals, storable.fan, storable.leaf,
    storable.room⟩

theorem config_headerWith
    {tree : Tree}
    (valid : tree.config.Valid)
    (size : Nat) :
    (tree.headerWith size).config = tree.config.told := by
  have block := Nat.mod_eq_of_lt valid.blockFits
  have children := Nat.mod_eq_of_lt
    (Nat.lt_trans valid.childrenFit (by decide : 65536 < 4294967296))
  unfold Header.config headerWith Header.unfinished Config.told
  simp only [block, children]

/-- Access to a file of the same content, with settings told by a header, keeps the same nodes. -/
theorem NodeFile.Keeps.ofFile
    {s : Placed NodeFile}
    {written : List Node}
    {base : Volume}
    {file : Nat}
    (keeps : Keeps s written)
    (known : file < base.contents.size)
    (same : base.content file = s.volume.content s.subject.file) :
    Keeps ⟨base, .ofFile s.subject.config.told file⟩ written where
  known := known
  valid := keeps.valid.told
  tidy := NodeCache.tidy_empty _
  distinct := keeps.distinct
  block node member := by
    rcases keeps.block node member with ⟨block, encoded, read⟩
    exact ⟨block, encoded, (Volume.read_congr same _ _).trans read⟩
  cached held atHand := by cases atHand

/-- The number of a node that is kept is below the number of blocks in the file. -/
theorem NodeFile.Keeps.seq_lt
    {s : Placed NodeFile}
    {written : List Node}
    {node : Node}
    (keeps : Keeps s written)
    (member : node ∈ written) :
    node.seq < s.subject.blockCount s.volume := by
  rcases keeps.block node member with ⟨block, -, read⟩
  have room := keeps.valid.roomForInterval
  have exists_ := (Volume.read_eq_ok_iff.mp read).2.1
  simp only [Config.coreCapacity, Config.leafCapacity, smallestInterval] at room
  unfold blockOffset at exists_
  have behind : (node.seq + 1) * s.subject.config.blockSize
      ≤ (s.volume.content s.subject.file).size - Header.size := by
    rw [Nat.add_mul, Nat.one_mul]
    omega
  exact (Nat.le_div_iff_mul_le (by omega)).mpr behind

/-- Every node of a finished tree can be told in full by its block. -/
theorem Stands.storable_of_ended
    {s : Placed Tree}
    {spine : Spine}
    {height : Nat}
    (stands : Stands s spine height)
    (inRange : s.subject.InRange)
    (numbered : Numbered (held spine.nodes))
    (begun : s.subject.config.start ≤ s.subject.stop)
    (ended : ∀ node ∈ s.subject.branch, node.stop = max s.subject.stop (node.start - 1))
    {node : Node}
    (member : node ∈ spine.nodes) :
    node.Storable s.subject.config := by
  have start_ge := inRange.start_ge
  have stop_le := inRange.stop_le
  have start_le := stands.start_le inRange member
  rcases List.mem_append.mp (spine.nodes_perm.mem_iff.mp member) with atHand | inFile
  · rw [← stands.branch] at atHand
    have stop := ended node atHand
    exact stands.storable_of_stop inRange numbered member (by omega) (by omega)
  · exact stands.storable inRange numbered inFile

/-- A file that keeps nodes that are numbered one by one has a block for each of them. -/
theorem NodeFile.Keeps.le_blockCount
    {s : Placed NodeFile}
    {written : List Node}
    {nodeCount : Nat}
    (keeps : Keeps s written)
    (numbered : (written.map (·.seq)).Perm (List.range nodeCount)) :
    nodeCount ≤ s.subject.blockCount s.volume := by
  cases nodeCount with
  | zero => exact Nat.zero_le _
  | succ last =>
      have lastMember := numbered.mem_iff.mpr (List.mem_range.mpr (Nat.lt_succ_self last))
      rcases List.mem_map.mp lastMember with ⟨node, member, rfl⟩
      exact keeps.seq_lt member

/-- The header of a tree whose numbers and times fit their fields is read back. -/
theorem storable_headerWith
    {tree : Tree}
    {size : Nat}
    (valid : tree.config.Valid)
    (inRange : tree.InRange)
    (root : tree.rootSeq < tree.nodeCount)
    (begun : tree.config.start ≤ tree.stop)
    (told : tree.config.version < 4294967296)
    (short : size < 4294967296) :
    (tree.headerWith size).Storable := by
  have blocks : tree.nodeCount * tree.config.blockSize ≤ 4294967295 * 4294967295 :=
    Nat.mul_le_mul (Nat.le_of_lt_succ inRange.few) (Nat.le_of_lt_succ valid.blockFits)
  have few := inRange.few
  have start_ge := inRange.start_ge
  have stop_le := inRange.stop_le
  have offset : tree.io.endOfNodes tree.nodeCount < 18446744073709551616 := by
    unfold NodeFile.endOfNodes NodeFile.blockOffset Header.size
    unfold Tree.config at blocks
    omega
  constructor
  · exact told
  · exact Nat.mod_lt _ (by decide)
  · exact Nat.mod_lt _ (by decide)
  · exact few
  · exact Nat.lt_trans root few
  · exact start_ge
  · exact Int.le_trans begun stop_le
  · exact Int.le_trans start_ge begun
  · exact stop_le
  · exact offset
  · exact short

/-- A namespace is read back from where it stands with its checksum. -/
theorem NodeFile.readNamespace_of_read
    {io : NodeFile}
    {volume : Volume}
    {offset : Nat}
    {ns : Namespace}
    {body : Bytes}
    (encoded : ns.encode = .ok body)
    (few : ns.size ≤ 2147483648)
    (found : volume.read io.file offset (body.length + checksumSize)
      = .ok (body ++ Checksum.trailer body)) :
    io.readNamespace volume offset body.length = .ok ns := by
  have front : (body ++ Checksum.trailer body).take body.length = body := List.take_left
  have back : (body ++ Checksum.trailer body).drop body.length = Checksum.trailer body :=
    List.drop_left
  have read : Namespace.read.run body = .ok (ns, []) := by
    have whole := Namespace.reads_encode few encoded []
    rwa [List.append_nil] at whole
  unfold readNamespace
  rw [found]
  simp only [bind, Except.bind, front, back, Checksum.decode_trailer, ne_eq, not_true_eq_false,
    if_false, read]
  rfl

/-- The header that stands in a file is read back from any file of the same content. -/
theorem Filed.decode_header
    {s : Placed Tree}
    {written : List Node}
    {ns : Namespace}
    {body : Bytes}
    {base : Volume}
    {file : Nat}
    (filed : Filed s written ns body)
    (storable : (s.subject.headerWith body.length).Storable)
    (same : base.content file = s.volume.content s.subject.io.file) :
    Header.decode (base.content file).toList = .ok (s.subject.headerWith body.length) := by
  rcases Volume.exists_append_of_read filed.header with ⟨rest, begins⟩
  rw [same, begins]
  exact Header.decode_append storable rest

/-- A file with nodes in it is one of the volume. -/
theorem Filed.lt_size
    {s : Placed Tree}
    {written : List Node}
    {ns : Namespace}
    {body : Bytes}
    {base : Volume}
    {file : Nat}
    (filed : Filed s written ns body)
    (same : base.content file = s.volume.content s.subject.io.file) :
    file < base.contents.size := by
  apply Volume.lt_size_of_content
  have whole := (Volume.read_eq_ok_iff.mp filed.header).2.1
  rw [same]
  unfold Header.size at whole
  omega

/-! ### What opening comes to -/

section Opening

variable {name : String} {base : Volume} {file : Nat} {header : Header} {ns : Namespace}

/-- The tree that is opened from a file with the given header. -/
def ofHeader
    (header : Header)
    (file : Nat) :
    Tree where
  io := .ofFile header.config file
  branch := []
  rootSeq := header.rootSeq
  nodeCount := header.nodeCount
  stop := header.stop
  finished := true

theorem reopen_of_header
    (found : base.lookup? name = some file)
    (decoded : Header.decode (base.content file).toList = .ok header)
    (finished : header.finished = true)
    (accepted : header.config.validate = .ok ())
    (named : (NodeFile.ofFile header.config file).readNamespace base header.namespaceOffset
      header.namespaceSize = .ok ns) :
    Tree.reopen name header.version base = .ok (ofHeader header file, ns) := by
  have located : base.locate name = .ok file := by
    unfold Volume.locate
    rw [found]
  unfold Tree.reopen
  rw [located]
  simp only [bind, Except.bind, decoded, finished, Bool.not_true, Bool.false_eq_true, if_false,
    ne_eq, not_true_eq_false, pure, Except.pure, accepted, named]
  rfl

/-- A provider of another version is told the version of the file. -/
theorem reopen_of_version_ne
    {version : Nat}
    (found : base.lookup? name = some file)
    (decoded : Header.decode (base.content file).toList = .ok header)
    (finished : header.finished = true)
    (different : version ≠ header.version) :
    Tree.reopen name version base = .error (.unsupportedVersion header.version) := by
  have located : base.locate name = .ok file := by
    unfold Volume.locate
    rw [found]
  unfold Tree.reopen
  rw [located]
  simp only [bind, Except.bind, decoded, finished, Bool.not_true, Bool.false_eq_true, if_false,
    pure, Except.pure, if_pos different.symm]
  rfl

/-- A file that opens for one version opens for no other. -/
theorem reopen_of_other
    {version other : Nat}
    {opened : Tree × Namespace}
    (opens : Tree.reopen name other base = .ok opened)
    (different : version ≠ other) :
    Tree.reopen name version base = .error (.unsupportedVersion other) := by
  rcases exists_ok_of_bind opens with ⟨file, located, decodes⟩
  rcases exists_ok_of_bind decodes with ⟨header, decoded, rest⟩
  have found : base.lookup? name = some file := by
    unfold Volume.locate at located
    split at located
    · cases located
      assumption
    · cases located
  by_cases finished : header.finished = true
  · by_cases told : header.version = other
    · subst told
      exact reopen_of_version_ne found decoded finished different
    · simp only [finished, Bool.not_true, Bool.false_eq_true, if_false, ne_eq, told,
        not_false_eq_true, if_true] at rest
      cases rest
  · simp only [finished, Bool.not_false, if_true] at rest
    cases rest

/-- A file whose header is refused is not opened. -/
theorem reopen_of_header_refused
    {fault : Fault}
    (found : base.lookup? name = some file)
    (refused : Header.decode (base.content file).toList = .error fault)
    (version : Nat) :
    Tree.reopen name version base = .error fault := by
  have located : base.locate name = .ok file := by
    unfold Volume.locate
    rw [found]
  unfold Tree.reopen
  rw [located]
  simp only [bind, Except.bind, refused]

/-- A file that was not completed is not opened. -/
theorem reopen_of_unfinished
    (found : base.lookup? name = some file)
    (decoded : Header.decode (base.content file).toList = .ok header)
    (unfinished : header.finished = false)
    (version : Nat) :
    Tree.reopen name version base = .error (.undecodable (.unfinishedFile name)) := by
  have located : base.locate name = .ok file := by
    unfold Volume.locate
    rw [found]
  unfold Tree.reopen
  rw [located]
  simp only [bind, Except.bind, decoded, unfinished]
  rfl

/-- A file whose namespace is refused is not opened. -/
theorem reopen_of_namespace_refused
    {fault : Fault}
    (found : base.lookup? name = some file)
    (decoded : Header.decode (base.content file).toList = .ok header)
    (finished : header.finished = true)
    (accepted : header.config.validate = .ok ())
    (refused : (NodeFile.ofFile header.config file).readNamespace base header.namespaceOffset
      header.namespaceSize = .error fault) :
    Tree.reopen name header.version base = .error fault := by
  have located : base.locate name = .ok file := by
    unfold Volume.locate
    rw [found]
  unfold Tree.reopen
  rw [located]
  simp only [bind, Except.bind, decoded, finished, Bool.not_true, Bool.false_eq_true, if_false,
    ne_eq, not_true_eq_false, accepted, refused]

end Opening

/--
The file of a finished tree can be opened again by a provider of the same
version and by no other, and it keeps the nodes written.
-/
theorem Filed.reopen
    {s : Placed Tree}
    {written : List Node}
    {ns : Namespace}
    {body : Bytes}
    {base : Volume}
    {name : String}
    {file : Nat}
    (filed : Filed s written ns body)
    (storable : (s.subject.headerWith body.length).Storable)
    (few : ns.size ≤ 2147483648)
    (found : base.lookup? name = some file)
    (same : base.content file = s.volume.content s.subject.io.file) :
    let reopened := ofHeader (s.subject.headerWith body.length) file
    reopened.config = s.subject.config.told
      ∧ Tree.reopen name s.subject.config.version base = .ok (reopened, ns)
      ∧ NodeFile.Keeps ⟨base, reopened.io⟩ written
      ∧ ∀ version, version ≠ s.subject.config.version →
        Tree.reopen name version base = .error (.unsupportedVersion s.subject.config.version) := by
  intro reopened
  have valid : s.subject.config.Valid := filed.nodes.valid
  let header := s.subject.headerWith body.length
  have settings : header.config = s.subject.config.told := config_headerWith valid body.length
  have decoded : Header.decode (base.content file).toList = .ok header :=
    filed.decode_header storable same
  have accepted : header.config.validate = .ok () := by
    rw [settings]
    exact (Config.validate_eq_ok_iff _).mpr valid.told
  have named : (NodeFile.ofFile header.config file).readNamespace base header.namespaceOffset
      header.namespaceSize = .ok ns :=
    NodeFile.readNamespace_of_read filed.encoded few ((Volume.read_congr same _ _).trans filed.names)
  refine ⟨settings, reopen_of_header found decoded rfl accepted named, ?_,
    fun version => reopen_of_version_ne found decoded rfl⟩
  show NodeFile.Keeps ⟨base, .ofFile header.config file⟩ written
  rw [settings]
  exact filed.nodes.ofFile (filed.lt_size same) same

/--
The file of a finished tree can be opened again by a provider of the same
version, wherever it is found, and the tree opened from it holds what the
finished one held.
-/
theorem Complete.reopen
    {s : Placed Tree}
    {ns : Namespace}
    {taken : List Interval}
    {base : Volume}
    {name : String}
    {file : Nat}
    (complete : Complete s ns taken)
    (inRange : s.subject.InRange)
    (numbered : Numbered taken)
    (begun : s.subject.config.start ≤ s.subject.stop)
    (told : s.subject.config.version < 4294967296)
    (few : ns.size ≤ 2147483648)
    (found : base.lookup? name = some file)
    (same : base.content file = s.volume.content s.subject.io.file) :
    ∃ reopened,
      Tree.reopen name s.subject.config.version base = .ok (reopened, ns)
        ∧ Rests ⟨base, reopened⟩ taken
        ∧ reopened.InRange
        ∧ reopened.config = s.subject.config.told
        ∧ reopened.stop = s.subject.stop
        ∧ ∀ version, version ≠ s.subject.config.version →
          Tree.reopen name version base
            = .error (.unsupportedVersion s.subject.config.version) := by
  rcases complete.filed with ⟨spine, height, body, stands, filed, carries⟩
  have valid : s.subject.config.Valid := stands.file.valid
  have rootSeq : s.subject.rootSeq < s.subject.nodeCount := by
    rw [stands.rootSeq]
    exact stands.seq_lt spine.top_mem_nodes
  rcases filed.reopen (storable_headerWith valid inRange rootSeq begun told filed.short) few found
    same with ⟨settings, opened, keeps, refused⟩
  have blocks := keeps.le_blockCount stands.numbered
  rw [← List.length_range (n := s.subject.nodeCount), ← stands.numbered.length_eq,
    List.length_map] at blocks
  have storable : ∀ node ∈ spine.nodes,
      node.Storable (ofHeader (s.subject.headerWith body.length) file).config := by
    intro node member
    have whole := stands.storable_of_ended inRange
      (fun i held => numbered i (carries.same.mem_iff.mp held)) begun complete.ended member
    rw [settings]
    exact whole.told
  refine ⟨_, opened, ?_, ?_, settings, rfl, refused⟩
  · refine ⟨rfl, ⟨spine, ?_, carries⟩, complete.separate⟩
    exact ⟨rfl, ⟨_, _, height, stands.sound⟩, keeps, storable, stands.rootSeq, blocks⟩
  · refine ⟨inRange.few, ?_, ?_, inRange.stop_le⟩
    · intro node member
      cases member
    · rw [settings]
      exact inRange.start_ge

end Chronicle.Tree
