import Chronicle.Proofs.Codec.Block
import Chronicle.Proofs.Step
import Chronicle.Proofs.Volume
import Chronicle.Tree.NodeFile

/-!
# A file gives back the nodes written to it

A file keeps a list of nodes when the block of each of them stands in its
place and nothing else is at hand under its number.  Writing a node adds it to
the nodes kept, in the place of the one of its number, if there was one.
Reading the number of a node that is kept answers that node, wherever it is
found, and keeps all.
-/

namespace Chronicle.Tree

namespace NodeCache

/--
A cache is tidy when its order lists the numbers of its nodes, each of them
once, and no more of them than there is room for.
-/
structure Tidy (cache : NodeCache) : Prop where
  listed : cache.order = cache.nodes.map Node.seq
  distinct : cache.order.Nodup
  bounded : cache.nodes.length ≤ cache.capacity

theorem tidy_empty
    (capacity : Nat) :
    (empty capacity).Tidy :=
  ⟨rfl, List.nodup_nil, Nat.zero_le _⟩

theorem tidy_clear
    (cache : NodeCache) :
    cache.clear.Tidy :=
  tidy_empty cache.capacity

/-- Each node that goes is the one whose number came first. -/
theorem settle_eq_drop
    (capacity : Nat)
    {nodes : List Node}
    (distinct : (nodes.map Node.seq).Nodup) :
    settle capacity (nodes.map Node.seq) nodes
      = ⟨capacity, nodes.drop (nodes.length - capacity),
        (nodes.map Node.seq).drop (nodes.length - capacity)⟩ := by
  induction nodes with
  | nil => simp [settle]
  | cons node rest ih =>
      rcases List.nodup_cons.mp distinct with ⟨fresh, restDistinct⟩
      have others : (node :: rest).filter (fun held => held.seq ≠ node.seq) = rest := by
        rw [List.filter_cons_of_neg (by simp), List.filter_eq_self]
        intro held member
        exact decide_eq_true fun same => fresh (same ▸ List.mem_map_of_mem member)
      rw [List.map_cons]
      unfold settle
      rw [List.length_map, others, ih restDistinct]
      by_cases full : capacity < rest.length + 1
      · have more : (node :: rest).length - capacity = rest.length - capacity + 1 := by
          rw [List.length_cons]
          omega
        rw [if_pos full, more, List.drop_succ_cons, List.drop_succ_cons]
      · have none_ : (node :: rest).length - capacity = 0 := by
          rw [List.length_cons]
          omega
        rw [if_neg full, none_, List.drop_zero, List.drop_zero]

/-- A tidy cache is tidy after any node came. -/
theorem Tidy.insert
    {cache : NodeCache}
    (tidy : cache.Tidy)
    (node : Node) :
    (cache.insert node).Tidy := by
  have settled : ∀ nodes : List Node, (nodes.map Node.seq).Nodup →
      (settle cache.capacity (nodes.map Node.seq) nodes).Tidy := by
    intro nodes distinct
    rw [settle_eq_drop cache.capacity distinct]
    refine ⟨List.map_drop.symm, distinct.sublist (List.drop_sublist _ _), ?_⟩
    show (nodes.drop (nodes.length - cache.capacity)).length ≤ cache.capacity
    rw [List.length_drop]
    omega
  have distinct := tidy.distinct
  rw [tidy.listed] at distinct
  unfold NodeCache.insert
  split
  · exact tidy
  · split
    · have same : (cache.nodes.map fun held => if held.seq = node.seq then node else held).map
          Node.seq = cache.nodes.map Node.seq := by
        rw [List.map_map]
        refine List.map_congr_left fun held _ => ?_
        by_cases replaced : held.seq = node.seq
        · simp [replaced]
        · simp [replaced]
      rw [tidy.listed, ← same]
      exact settled _ (same ▸ distinct)
    · rename_i absent
      have more : cache.order ++ [node.seq] = (cache.nodes ++ [node]).map Node.seq := by
        rw [tidy.listed, List.map_append, List.map_singleton]
      rw [more]
      refine settled _ ?_
      rw [List.map_append, List.map_singleton, List.nodup_append]
      refine ⟨distinct, List.pairwise_singleton _ _, ?_⟩
      rintro seq member _ (_ | ⟨_, ⟨⟩⟩) same
      rcases List.mem_map.mp member with ⟨held, heldMember, heldSeq⟩
      exact absent (List.any_eq_true.mpr ⟨held, heldMember, decide_eq_true (heldSeq.trans same)⟩)

theorem mem_nodes_of_settle
    {capacity : Nat}
    {order : List Nat}
    {nodes : List Node}
    {held : Node}
    (member : held ∈ (settle capacity order nodes).nodes) :
    held ∈ nodes := by
  induction order generalizing nodes with
  | nil => exact member
  | cons oldest later ih =>
      unfold settle at member
      split at member
      · exact List.mem_of_mem_filter (ih member)
      · exact member

/-- What is at hand after a node came: the node, and others that were there before. -/
theorem Tidy.mem_nodes_insert
    {cache : NodeCache}
    {node held : Node}
    (tidy : cache.Tidy)
    (member : held ∈ (cache.insert node).nodes) :
    held = node ∨ (held ∈ cache.nodes ∧ held.seq ≠ node.seq) := by
  unfold NodeCache.insert at member
  split at member
  · rename_i none
    have bounded := tidy.bounded
    rw [none, Nat.le_zero, List.length_eq_zero_iff] at bounded
    rw [bounded] at member
    cases member
  · split at member
    · rcases List.mem_map.mp (mem_nodes_of_settle member) with ⟨old, oldMember, same⟩
      split at same
      · exact Or.inl same.symm
      · rename_i other
        subst same
        exact Or.inr ⟨oldMember, other⟩
    · rename_i absent
      rcases List.mem_append.mp (mem_nodes_of_settle member) with old | new
      · refine Or.inr ⟨old, fun same => absent ?_⟩
        exact List.any_eq_true.mpr ⟨held, old, decide_eq_true same⟩
      · exact Or.inl (List.mem_singleton.mp new)

end NodeCache

namespace NodeFile

/-- Every one of `written` is read back, from its block or from what is at hand. -/
structure Keeps
    (s : Placed NodeFile)
    (written : List Node) : Prop where
  known : s.subject.file < s.volume.contents.size
  valid : s.subject.config.Valid
  tidy : s.subject.cache.Tidy
  distinct : ∀ node ∈ written, ∀ other ∈ written, node.seq = other.seq → node = other
  block : ∀ node ∈ written, ∃ block,
    node.encode s.subject.config = .ok block
      ∧ s.volume.read s.subject.file (s.subject.blockOffset node.seq) s.subject.config.blockSize
        = .ok block
  cached : ∀ held ∈ s.subject.cache.nodes, ∀ node ∈ written,
    held.seq = node.seq → held.reread = node.reread

theorem Keeps.of_subset
    {s : Placed NodeFile}
    {written fewer : List Node}
    (keeps : Keeps s written)
    (subset : ∀ node ∈ fewer, node ∈ written) :
    Keeps s fewer where
  known := keeps.known
  valid := keeps.valid
  tidy := keeps.tidy
  distinct node member other otherMember :=
    keeps.distinct node (subset node member) other (subset other otherMember)
  block node member := keeps.block node (subset node member)
  cached held atHand node member := keeps.cached held atHand node (subset node member)

/-- The blocks of different numbers stand beside each other. -/
theorem blockOffset_apart
    (io : NodeFile)
    {seq other : Nat}
    (different : seq ≠ other) :
    io.blockOffset seq + io.config.blockSize ≤ io.blockOffset other
      ∨ io.blockOffset other + io.config.blockSize ≤ io.blockOffset seq := by
  unfold blockOffset
  rcases Nat.lt_or_gt_of_ne different with less | greater
  · left
    have step : (seq + 1) * io.config.blockSize ≤ other * io.config.blockSize :=
      Nat.mul_le_mul_right _ less
    rw [Nat.add_mul, Nat.one_mul] at step
    omega
  · right
    have step : (other + 1) * io.config.blockSize ≤ seq * io.config.blockSize :=
      Nat.mul_le_mul_right _ greater
    rw [Nat.add_mul, Nat.one_mul] at step
    omega

/-- A block that was written is read. -/
theorem read_block_write
    {io : NodeFile}
    {volume : Volume}
    {block : Bytes}
    (known : io.file < volume.contents.size)
    (length : block.length = io.config.blockSize)
    (seq : Nat) :
    (volume.write io.file (io.blockOffset seq) block).read io.file (io.blockOffset seq)
      io.config.blockSize = .ok block := by
  rw [← length]
  exact Volume.read_write_self known (io.blockOffset seq) block

/-- Bytes beside the blocks of the nodes that are kept can be written. -/
theorem Keeps.write
    {s : Placed NodeFile}
    {written : List Node}
    {offset : Nat}
    (keeps : Keeps s written)
    (patch : Bytes)
    (apart : ∀ node ∈ written,
      s.subject.blockOffset node.seq + s.subject.config.blockSize ≤ offset
        ∨ offset + patch.length ≤ s.subject.blockOffset node.seq) :
    Keeps ⟨s.volume.write s.subject.file offset patch, s.subject⟩ written where
  known := by
    rw [Volume.size_contents_write]
    exact keeps.known
  valid := keeps.valid
  tidy := keeps.tidy
  distinct := keeps.distinct
  block node member := by
    rcases keeps.block node member with ⟨block, encoded, read⟩
    exact ⟨block, encoded, Volume.read_write_of_disjoint keeps.known (apart node member) read⟩
  cached := keeps.cached

/-- A node that has a block is written into its place and kept at hand. -/
theorem writeNode_of_encode
    {s : Placed NodeFile}
    {node : Node}
    {block : Bytes}
    (encoded : node.encode s.subject.config = .ok block) :
    NodeFile.writeNode node s
      = .ok () ⟨s.volume.write s.subject.file (s.subject.blockOffset node.seq) block,
        { s.subject with cache := s.subject.cache.insert node }⟩ := by
  simp only [NodeFile.writeNode, Step.subject_bind_apply, encoded, Step.ofExcept_ok,
    Step.pure_bind_apply]
  rfl

/-- Writing a node whose intervals fit succeeds, and the node takes the place of its number. -/
theorem Keeps.writeNode
    {s : Placed NodeFile}
    {written : List Node}
    {node : Node}
    (keeps : Keeps s written)
    (room : node.usedBytes ≤ node.kind.capacity s.subject.config) :
    ∃ volume cache,
      NodeFile.writeNode node s = .ok () ⟨volume, { s.subject with cache }⟩
        ∧ Keeps ⟨volume, { s.subject with cache }⟩
          (node :: written.filter fun other => other.seq ≠ node.seq) := by
  rcases Node.exists_encode keeps.valid room with ⟨block, encoded, length⟩
  refine ⟨_, _, writeNode_of_encode encoded, ?_⟩
  have old : ∀ other ∈ written.filter (fun other => other.seq ≠ node.seq),
      other ∈ written ∧ other.seq ≠ node.seq := by
    intro other member
    simpa using member
  constructor
  · rw [Volume.size_contents_write]
    exact keeps.known
  · exact keeps.valid
  · exact keeps.tidy.insert node
  · intro first firstMember second secondMember same
    rcases List.mem_cons.mp firstMember with rfl | firstOld
    · rcases List.mem_cons.mp secondMember with rfl | secondOld
      · rfl
      · exact absurd same.symm (old second secondOld).2
    · rcases List.mem_cons.mp secondMember with rfl | secondOld
      · exact absurd same (old first firstOld).2
      · exact keeps.distinct first (old first firstOld).1 second (old second secondOld).1 same
  · intro other member
    rcases List.mem_cons.mp member with rfl | otherOld
    · exact ⟨block, encoded, read_block_write keeps.known length other.seq⟩
    · rcases old other otherOld with ⟨otherWritten, different⟩
      rcases keeps.block other otherWritten with ⟨otherBlock, otherEncoded, read⟩
      refine ⟨otherBlock, otherEncoded, ?_⟩
      refine Volume.read_write_of_disjoint keeps.known ?_ read
      rw [length]
      exact s.subject.blockOffset_apart different
  · intro held atHand other member same
    rcases keeps.tidy.mem_nodes_insert atHand with rfl | ⟨heldOld, heldOther⟩
    · rcases List.mem_cons.mp member with rfl | otherOld
      · rfl
      · exact absurd same.symm (old other otherOld).2
    · rcases List.mem_cons.mp member with rfl | otherOld
      · exact absurd same heldOther
      · exact keeps.cached held heldOld other (old other otherOld).1 same

/-- The block of a node tells it, wherever it is read. -/
theorem fetch_of_read
    {io : NodeFile}
    {volume : Volume}
    {node : Node}
    {block : Bytes}
    (valid : io.config.Valid)
    (storable : node.Storable io.config)
    (encoded : node.encode io.config = .ok block)
    (read : volume.read io.file (io.blockOffset node.seq) io.config.blockSize = .ok block) :
    io.fetch volume node.seq = .ok node.reread := by
  have decoded := Node.decode_of_encode valid storable encoded
  unfold fetch
  rw [read]
  show (Node.decode io.config block >>= _) = _
  rw [decoded]
  show (if node.reread.seq = node.seq then _ else _) = _
  rw [if_pos node.seq_reread]
  rfl

/-- Reading a node that is kept answers it, and every node is kept on. -/
theorem Keeps.readNode
    {s : Placed NodeFile}
    {written : List Node}
    {node : Node}
    (keeps : Keeps s written)
    (member : node ∈ written)
    (storable : node.Storable s.subject.config) :
    ∃ found cache,
      NodeFile.readNode node.seq s = .ok found ⟨s.volume, { s.subject with cache }⟩
        ∧ found.reread = node.reread
        ∧ Keeps ⟨s.volume, { s.subject with cache }⟩ written := by
  cases atHand : s.subject.cache.get? node.seq with
  | some held =>
      have heldMember : held ∈ s.subject.cache.nodes := List.mem_of_find?_eq_some atHand
      have heldSeq : held.seq = node.seq := by
        have test := List.find?_some atHand
        simpa using test
      refine ⟨held, s.subject.cache, ?_, keeps.cached held heldMember node member heldSeq, keeps⟩
      simp only [NodeFile.readNode, Step.subject_bind_apply, atHand]
      rfl
  | none =>
      rcases keeps.block node member with ⟨block, encoded, read⟩
      have fetched := fetch_of_read keeps.valid storable encoded read
      refine ⟨node.reread, s.subject.cache.insert node.reread, ?_, node.reread_reread, ?_⟩
      · simp only [NodeFile.readNode, Step.subject_bind_apply, atHand, Step.volume_bind_apply,
          fetched, Step.ofExcept_ok, Step.pure_bind_apply]
        rfl
      · refine ⟨keeps.known, keeps.valid, ?_, keeps.distinct, keeps.block, ?_⟩
        · exact keeps.tidy.insert node.reread
        · intro held heldMember other otherMember same
          rcases keeps.tidy.mem_nodes_insert heldMember with rfl | ⟨heldOld, -⟩
          · rw [keeps.distinct node member other otherMember same, Node.reread_reread]
          · exact keeps.cached held heldOld other otherMember same

end NodeFile

end Chronicle.Tree
