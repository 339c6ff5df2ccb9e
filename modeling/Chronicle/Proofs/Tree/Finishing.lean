import Chronicle.Proofs.Codec.Namespace
import Chronicle.Proofs.Tree.Holding

/-!
# Finishing a tree

A tree is finished when its latest branch, its namespace and its header are in
the file.  Closing the branch changes nothing about what the tree holds, and
the namespace and the header stand beside all blocks.  A namespace without a
writing leaves the tree unfinished, and holding what it held.
-/

namespace Chronicle

/-- What keeps a namespace from being written: the first name that is too long, or its length. -/
def Namespace.obstacle (ns : Namespace) : Fault :=
  match ns.encode with
  | .error fault => fault
  | .ok body => .badArgument (.longNamespace body.length)

theorem Namespace.exists_obstacle_eq
    (ns : Namespace) :
    ∃ cause, ns.obstacle = .badArgument cause := by
  unfold obstacle
  cases encoded : ns.encode with
  | error fault =>
      rcases longName_of_encode encoded with ⟨_, -, -, rfl⟩
      exact ⟨_, rfl⟩
  | ok body => exact ⟨_, rfl⟩

namespace Tree

namespace NodeFile

/-- A storable namespace is written with its checksum. -/
theorem writeNamespace_of_storable
    {ns : Namespace}
    (storable : ns.Storable)
    (offset : Nat)
    (s : Placed NodeFile) :
    ∃ body,
      ns.encode = .ok body
        ∧ body.length < 4294967296
        ∧ writeNamespace offset ns s
          = .ok body.length
            ⟨s.volume.write s.subject.file offset (body ++ Checksum.trailer body), s.subject⟩ := by
  rcases Namespace.exists_encode_iff.mpr storable.names with ⟨body, encoded⟩
  have short : body.length < 4294967296 := by
    rw [Namespace.length_of_encode encoded]
    exact storable.section_
  refine ⟨body, encoded, short, ?_⟩
  unfold writeNamespace
  rw [encoded, Step.ofExcept_ok, Step.pure_bind_apply, if_neg (Nat.not_le.mpr short)]
  rfl

/-- A namespace that is not storable is refused by every file, which stays as it is. -/
theorem writeNamespace_of_not_storable
    {ns : Namespace}
    (unstorable : ¬ ns.Storable)
    (offset : Nat)
    (s : Placed NodeFile) :
    writeNamespace offset ns s = .error ns.obstacle s := by
  unfold writeNamespace Namespace.obstacle
  cases encoded : ns.encode with
  | error fault => rfl
  | ok body =>
      have long : 4294967296 ≤ body.length := by
        rw [Namespace.length_of_encode encoded]
        by_contra short
        exact unstorable ⟨Namespace.exists_encode_iff.mp ⟨body, encoded⟩, Nat.not_le.mp short⟩
      rw [Step.ofExcept_ok, Step.pure_bind_apply, if_pos long]
      rfl

end NodeFile

namespace Spine

/-- The tree with the nodes of its latest branch closed. -/
def close
    (stop : Int) :
    (spine : Spine) →
    Spine
  | leaf node => leaf (node.close stop)
  | core node closed next => core (node.close stop) closed (close stop next)

@[simp]
theorem link_top_close
    (stop : Int)
    (spine : Spine) :
    (spine.close stop).top.link = spine.top.link := by
  cases spine with
  | leaf node => rfl
  | core node closed next => rfl

theorem branch_close
    (stop : Int)
    (spine : Spine) :
    (spine.close stop).branch = spine.branch.map fun node => node.close stop := by
  induction spine with
  | leaf node => rfl
  | core node closed next ih => exact congrArg (List.cons (node.close stop)) ih

theorem closed_close
    (stop : Int)
    (spine : Spine) :
    (spine.close stop).closed = spine.closed := by
  induction spine with
  | leaf node => rfl
  | core node closed next ih => exact congrArg (closed.nodes ++ ·) ih

theorem map_seq_nodes_close
    (stop : Int)
    (spine : Spine) :
    (spine.close stop).nodes.map (·.seq) = spine.nodes.map (·.seq) := by
  induction spine with
  | leaf node => rfl
  | core node closed next ih =>
      simp only [close, nodes, List.map_cons, List.map_append, ih]
      rfl

theorem held_nodes_close
    (stop : Int)
    (spine : Spine) :
    held (spine.close stop).nodes = held spine.nodes := by
  induction spine with
  | leaf node => rfl
  | core node closed next ih =>
      simp only [close, nodes, held_cons, held_append, ih]
      rfl

/-- Closing the branch changes nothing about what the nodes hold. -/
theorem Carries.close
    {taken : List Interval}
    {spine : Spine}
    (carries : spine.Carries taken)
    (stop : Int) :
    (spine.close stop).Carries taken where
  same := by
    rw [held_nodes_close]
    exact carries.same
  sorted node member := by
    rcases List.mem_append.mp ((spine.close stop).nodes_perm.mem_iff.mp member) with atHand | inFile
    · rw [branch_close] at atHand
      rcases List.mem_map.mp atHand with ⟨old, oldMember, rfl⟩
      exact carries.sorted old (mem_nodes_of_mem_branch oldMember)
    · rw [closed_close] at inFile
      exact carries.sorted node (mem_nodes_of_mem_closed inFile)

theorem Sound.close
    {config : Config}
    {above : Option Nat}
    {height : Nat}
    {stop : Int}
    {spine : Spine}
    (sound : spine.Sound config stop above height)
    (last : Int) :
    (spine.close last).Sound config stop above height := by
  induction sound with
  | leaf filled parent kind children =>
      refine .leaf ?_ parent kind children
      exact ⟨filled.inside, filled.room, filled.start_le, filled.fan⟩
  | @core above height node older next filled parent kind children tiles ordered rest ih =>
      have sameStart : (Spine.close last next).top.start = next.top.start :=
        congrArg Node.Link.start (link_top_close last next)
      refine .core ?_ parent kind ?_ ?_ ?_ ih
      · exact ⟨filled.inside, filled.room, filled.start_le, filled.fan⟩
      · rw [link_top_close]
        exact children
      · rw [sameStart]
        exact tiles
      · rw [sameStart]
        exact ordered

end Spine

/-- The places behind the first blocks and in front of them are beside each of these. -/
theorem NodeFile.beside
    {io : NodeFile}
    {seq nodeCount offset length : Nat}
    (known : seq < nodeCount)
    (outside : io.endOfNodes nodeCount ≤ offset ∨ offset + length ≤ Header.size) :
    io.blockOffset seq + io.config.blockSize ≤ offset ∨ offset + length ≤ io.blockOffset seq := by
  have step : (seq + 1) * io.config.blockSize ≤ nodeCount * io.config.blockSize :=
    Nat.mul_le_mul_right _ known
  rw [Nat.add_mul, Nat.one_mul] at step
  unfold NodeFile.endOfNodes NodeFile.blockOffset at outside
  unfold NodeFile.blockOffset
  omega

theorem finish_of_finished
    {s : Placed Tree}
    (finished : s.subject.finished = true)
    (stop : Int)
    (ns : Namespace) :
    finish stop ns s = .ok () s := by
  unfold finish
  rw [Step.subject_bind_apply, if_pos finished]
  rfl

/-- A tree whose latest branch ends at an instant. -/
def ending
    (tree : Tree)
    (last : Int) :
    Tree :=
  { tree with branch := tree.branch.map fun node => node.close last, stop := last }

theorem InRange.ending
    {tree : Tree}
    {last : Int}
    (inRange : tree.InRange)
    (bounded : last ≤ latestInstant) :
    (tree.ending last).InRange := by
  refine ⟨inRange.few, ?_, inRange.start_ge, bounded⟩
  intro node member
  rcases List.mem_map.mp member with ⟨old, oldMember, rfl⟩
  exact inRange.started old oldMember

/-- The header that a tree gets when it is finished with a namespace of `size` bytes. -/
def headerWith
    (tree : Tree)
    (size : Nat) :
    Header :=
  { Header.unfinished tree.config with
    nodeCount := tree.nodeCount
    rootSeq := tree.rootSeq
    stop := tree.stop
    namespaceOffset := tree.io.endOfNodes tree.nodeCount
    namespaceSize := size
    finished := true }

/-- The file of a finished tree tells the nodes written, the namespace and the header. -/
structure Filed
    (s : Placed Tree)
    (written : List Node)
    (ns : Namespace)
    (body : Bytes) : Prop where
  nodes : NodeFile.Keeps ⟨s.volume, s.subject.io⟩ written
  encoded : ns.encode = .ok body
  short : body.length < 4294967296
  names : s.volume.read s.subject.io.file (s.subject.io.endOfNodes s.subject.nodeCount)
    (body.length + checksumSize) = .ok (body ++ Checksum.trailer body)
  header : s.volume.read s.subject.io.file 0 Header.size
    = .ok (s.subject.headerWith body.length).encode

theorem Filed.of_subset
    {s : Placed Tree}
    {written fewer : List Node}
    {ns : Namespace}
    {body : Bytes}
    (filed : Filed s written ns body)
    (subset : ∀ node ∈ fewer, node ∈ written) :
    Filed s fewer ns body :=
  ⟨filed.nodes.of_subset subset, filed.encoded, filed.short, filed.names, filed.header⟩

/-! ## Any nodes -/

/--
An open tree whose nodes are numbered one by one; those that are closed are in
the file, and each of the latest branch fits its block.
-/
structure Numbers
    (s : Placed Tree)
    (closed : List Node) : Prop where
  file : NodeFile.Keeps ⟨s.volume, s.subject.io⟩ closed
  room : ∀ node ∈ s.subject.branch, node.usedBytes ≤ node.kind.capacity s.subject.config
  numbered : ((s.subject.branch ++ closed).map (·.seq)).Perm (List.range s.subject.nodeCount)

namespace Numbers

variable {s : Placed Tree} {closed : List Node}

/-- The nodes of a tree that ends are numbered as before. -/
theorem numbered_ending
    (numbers : Numbers s closed)
    (last : Int) :
    ((closed ++ (s.subject.ending last).branch).map (·.seq)).Perm
      (List.range s.subject.nodeCount) := by
  have same : (s.subject.ending last).branch.map (·.seq) = s.subject.branch.map (·.seq) :=
    Branch.map_seq_close s.subject.branch last
  rw [List.map_append, same, ← List.map_append]
  exact (List.perm_append_comm.map _).trans numbers.numbered

theorem seq_lt
    (numbers : Numbers s closed)
    {last : Int}
    {node : Node}
    (member : node ∈ closed ++ (s.subject.ending last).branch) :
    node.seq < s.subject.nodeCount :=
  List.mem_range.mp ((numbers.numbered_ending last).mem_iff.mp (List.mem_map_of_mem member))

/-- The nodes of the latest branch are written beside the closed ones. -/
theorem exists_writeNodes
    (numbers : Numbers s closed)
    (last : Int) :
    ∃ volume cache,
      writeNodes (s.subject.ending last).branch ⟨s.volume, s.subject.ending last⟩
          = .ok () ⟨volume, (s.subject.ending last).withCache cache⟩
        ∧ NodeFile.Keeps ⟨volume, (s.subject.withCache cache).io⟩
          (closed ++ (s.subject.ending last).branch) := by
  have room : ∀ node ∈ (s.subject.ending last).branch,
      node.usedBytes ≤ node.kind.capacity s.subject.config := by
    intro node member
    rcases List.mem_map.mp member with ⟨old, oldMember, rfl⟩
    exact numbers.room old oldMember
  have distinct : ((closed ++ (s.subject.ending last).branch).map (·.seq)).Nodup :=
    (numbers.numbered_ending last).nodup_iff.mpr List.nodup_range
  have file : NodeFile.Keeps ⟨s.volume, (s.subject.ending last).io⟩ closed := numbers.file
  exact writeNodes_of_keeps (s := ⟨s.volume, s.subject.ending last⟩) file room distinct

/-- Such a tree can be finished if its namespace has room, and its file then tells everything. -/
theorem finish_of_storable
    {ns : Namespace}
    (numbers : Numbers s closed)
    (unfinished : s.subject.finished = false)
    (stop : Int)
    (storable : ns.Storable) :
    let last := max s.subject.stop stop
    ∃ volume cache body,
      let reached : Placed Tree :=
        ⟨volume, { (s.subject.ending last).withCache cache with finished := true }⟩
      Tree.finish stop ns s = .ok () reached
        ∧ Filed reached (closed ++ reached.subject.branch) ns body := by
  intro last
  let offset := s.subject.io.endOfNodes s.subject.nodeCount
  rcases numbers.exists_writeNodes last with ⟨volume, cache, wrote, keeps⟩
  rcases NodeFile.writeNamespace_of_storable storable offset
    ⟨volume, (s.subject.withCache cache).io⟩ with ⟨body, encoded, short, placed⟩
  have listed : onFile (NodeFile.writeNamespace offset ns)
      ⟨volume, (s.subject.ending last).withCache cache⟩
      = .ok body.length
        ⟨volume.write s.subject.io.file offset (body ++ Checksum.trailer body),
          (s.subject.ending last).withCache cache⟩ :=
    Step.onPart_of_ok placed
  let header := (s.subject.ending last).headerWith body.length
  have known : s.subject.io.file < volume.contents.size := keeps.known
  have inFront : 0 + header.encode.length ≤ Header.size :=
    Nat.le_of_eq (by rw [Header.length_encode, Nat.zero_add])
  have behind : 0 + header.encode.length ≤ offset := by
    rw [Header.length_encode, Nat.zero_add]
    exact Nat.le_add_right _ _
  have besideNames : ∀ node ∈ closed ++ (s.subject.ending last).branch,
      s.subject.io.blockOffset node.seq + s.subject.config.blockSize ≤ offset
        ∨ offset + (body ++ Checksum.trailer body).length ≤ s.subject.io.blockOffset node.seq :=
    fun node member => NodeFile.beside (numbers.seq_lt member) (Or.inl (Nat.le_refl offset))
  have besideHeader : ∀ node ∈ closed ++ (s.subject.ending last).branch,
      s.subject.io.blockOffset node.seq + s.subject.config.blockSize ≤ 0
        ∨ 0 + header.encode.length ≤ s.subject.io.blockOffset node.seq :=
    fun node member => NodeFile.beside (numbers.seq_lt member) (Or.inr inFront)
  have withNames := keeps.write _ besideNames
  have complete := withNames.write _ besideHeader
  refine ⟨_, cache, body, ?_, complete, encoded, short, ?_, ?_⟩
  · unfold Tree.finish
    rw [Step.subject_bind_apply, if_neg (by rw [unfinished]; exact Bool.false_ne_true)]
    apply (Step.bind_of_ok wrote).trans
    apply (Step.bind_of_ok listed).trans
    rfl
  · have read := Volume.read_write_self known offset (body ++ Checksum.trailer body)
    rw [List.length_append, Checksum.length_trailer] at read
    exact Volume.read_write_of_disjoint withNames.known (Or.inr behind) read
  · have read := Volume.read_write_self withNames.known 0 header.encode
    rwa [Header.length_encode] at read

/-- A namespace without room leaves such a tree unfinished, with its latest branch ended. -/
theorem finish_of_not_storable
    {ns : Namespace}
    (numbers : Numbers s closed)
    (unfinished : s.subject.finished = false)
    (stop : Int)
    (unstorable : ¬ ns.Storable) :
    let last := max s.subject.stop stop
    ∃ volume cache,
      Tree.finish stop ns s
          = .error ns.obstacle ⟨volume, (s.subject.ending last).withCache cache⟩
        ∧ NodeFile.Keeps ⟨volume, (s.subject.withCache cache).io⟩
          (closed ++ (s.subject.ending last).branch) := by
  intro last
  rcases numbers.exists_writeNodes last with ⟨volume, cache, wrote, keeps⟩
  have failed : onFile
      (NodeFile.writeNamespace (s.subject.io.endOfNodes s.subject.nodeCount) ns)
      ⟨volume, (s.subject.ending last).withCache cache⟩
      = .error ns.obstacle ⟨volume, (s.subject.ending last).withCache cache⟩ :=
    Step.onPart_of_error (NodeFile.writeNamespace_of_not_storable unstorable _ _)
  refine ⟨volume, cache, ?_, keeps⟩
  unfold Tree.finish
  rw [Step.subject_bind_apply, if_neg (by rw [unfinished]; exact Bool.false_ne_true)]
  apply (Step.bind_of_ok wrote).trans
  exact Step.bind_of_error failed

end Numbers

/-! ## Sound trees -/

namespace Stands

variable {s : Placed Tree} {spine : Spine} {height : Nat} {volume : Volume} {cache : NodeCache}

theorem numbers
    (stands : Stands s spine height) :
    Numbers s spine.closed where
  file := stands.file
  room node member := by
    rw [stands.branch] at member
    exact (stands.sound.among node (Spine.mem_nodes_of_mem_branch member)).room
  numbered := by
    rw [stands.branch]
    exact (spine.nodes_perm.map (·.seq)).symm.trans stands.numbered

/-- A tree keeps its shape when its latest branch ends, whatever else is in the file. -/
theorem ending
    {last : Int}
    {finished : Bool}
    (stands : Stands s spine height)
    (late : s.subject.stop ≤ last)
    (keeps : NodeFile.Keeps ⟨volume, (s.subject.withCache cache).io⟩ spine.closed) :
    Stands ⟨volume, { (s.subject.ending last).withCache cache with finished }⟩ (spine.close last)
      height where
  branch := by
    show s.subject.branch.map _ = _
    rw [stands.branch, Spine.branch_close]
  sound := (stands.sound.close last).mono late
  file := by
    rw [Spine.closed_close]
    exact keeps
  numbered := by
    rw [Spine.map_seq_nodes_close]
    exact stands.numbered
  first := (congrArg Node.Link.start (Spine.link_top_close last spine)).trans stands.first
  rootSeq := stands.rootSeq.trans (congrArg Node.Link.seq (Spine.link_top_close last spine)).symm

/-- A tree can be finished if its namespace has room, and its file then tells everything. -/
theorem finish_of_storable
    {ns : Namespace}
    (stands : Stands s spine height)
    (unfinished : s.subject.finished = false)
    (stop : Int)
    (storable : ns.Storable) :
    let last := max s.subject.stop stop
    ∃ volume cache body,
      let reached : Placed Tree :=
        ⟨volume, { (s.subject.ending last).withCache cache with finished := true }⟩
      Tree.finish stop ns s = .ok () reached
        ∧ Stands reached (spine.close last) height
        ∧ Filed reached (spine.close last).nodes ns body := by
  intro last
  rcases stands.numbers.finish_of_storable unfinished stop storable with
    ⟨volume, cache, body, finishes, filed⟩
  refine ⟨volume, cache, body, finishes, ?_, filed.of_subset fun node member => ?_⟩
  · exact stands.ending (Int.le_max_left _ _)
      (filed.nodes.of_subset fun node member => List.mem_append_left _ member)
  · have all := (spine.close last).nodes_perm.mem_iff.mp member
    rw [Spine.branch_close, Spine.closed_close, ← stands.branch] at all
    exact List.mem_append.mpr (List.mem_append.mp all).symm

/-- A namespace without room leaves a tree unfinished, with its latest branch ended. -/
theorem finish_of_not_storable
    {ns : Namespace}
    (stands : Stands s spine height)
    (unfinished : s.subject.finished = false)
    (stop : Int)
    (unstorable : ¬ ns.Storable) :
    let last := max s.subject.stop stop
    ∃ volume cache,
      let reached : Placed Tree := ⟨volume, (s.subject.ending last).withCache cache⟩
      Tree.finish stop ns s = .error ns.obstacle reached
        ∧ Stands reached (spine.close last) height := by
  intro last
  rcases stands.numbers.finish_of_not_storable unfinished stop unstorable with
    ⟨volume, cache, fails, keeps⟩
  refine ⟨volume, cache, fails, ?_⟩
  exact stands.ending (Int.le_max_left _ _)
    (keeps.of_subset fun node member => List.mem_append_left _ member)

end Stands

/-- A finished tree that holds the intervals taken and whose file tells everything. -/
structure Complete
    (s : Placed Tree)
    (ns : Namespace)
    (taken : List Interval) : Prop where
  finished : s.subject.finished = true
  filed : ∃ spine height body,
    Stands s spine height ∧ Filed s spine.nodes ns body ∧ spine.Carries taken
  ended : ∀ node ∈ s.subject.branch, node.stop = max s.subject.stop (node.start - 1)
  separate : Interval.Separate taken

/--
Finishing succeeds if and only if the namespace has room in the file.  The tree
holds its intervals either way.
-/
theorem Holds.finish
    {s : Placed Tree}
    {taken : List Interval}
    (holds : Holds s taken)
    (unfinished : s.subject.finished = false)
    (stop : Int)
    (ns : Namespace) :
    ∃ reached,
      Holds reached taken
        ∧ reached.subject.config = s.subject.config
        ∧ reached.subject.stop = max s.subject.stop stop
        ∧ (s.subject.InRange → stop ≤ latestInstant → reached.subject.InRange)
        ∧ (ns.Storable ∧ Tree.finish stop ns s = .ok () reached ∧ reached.subject.finished = true
            ∧ Complete reached ns taken
          ∨ ¬ ns.Storable ∧ reached.subject.finished = false
            ∧ Tree.finish stop ns s = .error ns.obstacle reached) := by
  rcases holds.stands with ⟨spine, height, stands, carries⟩
  let last := max s.subject.stop stop
  have ending : (spine.close last).Carries taken := carries.close last
  have inRange : ∀ {cache : NodeCache} {finished : Bool},
      s.subject.InRange → stop ≤ latestInstant →
      ({ (s.subject.ending last).withCache cache with finished } : Tree).InRange := by
    intro cache finished fits bounded
    have ends := fits.ending (Int.max_le.mpr ⟨fits.stop_le, bounded⟩)
    exact ⟨ends.few, ends.started, ends.start_ge, ends.stop_le⟩
  by_cases storable : ns.Storable
  · rcases stands.finish_of_storable unfinished stop storable with
      ⟨volume, cache, body, finishes, standsStill, filed⟩
    refine ⟨_, ⟨⟨_, height, standsStill, ending⟩, holds.separate⟩, rfl, rfl, inRange,
      Or.inl ⟨storable, finishes, rfl, rfl,
        ⟨_, height, body, standsStill, filed, ending⟩, ?_, holds.separate⟩⟩
    intro node member
    rcases List.mem_map.mp member with ⟨old, -, rfl⟩
    rfl
  · rcases stands.finish_of_not_storable unfinished stop storable with
      ⟨volume, cache, fails, standsStill⟩
    exact ⟨_, ⟨⟨_, height, standsStill, ending⟩, holds.separate⟩, rfl, rfl, inRange,
      Or.inr ⟨storable, unfinished, fails⟩⟩

end Tree

end Chronicle
