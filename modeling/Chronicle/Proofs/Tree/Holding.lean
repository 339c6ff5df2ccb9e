import Chronicle.Proofs.Tree.Descent
import Mathlib.Data.List.Nodup

/-!
# What a tree holds

A tree holds the intervals that it took: they are, in some order, what the
nodes of a sound tree hold, of which the latest branch is at hand and the
closed nodes are in the file.  Every step of a tree keeps to that.  What is
asked about an instant is then answered as if all intervals were looked at.
-/

namespace Chronicle.Tree

/-- All numbers and times of a tree fit the fields in which they are written. -/
structure InRange (tree : Tree) : Prop where
  few : tree.nodeCount < 4294967296
  started : ∀ node ∈ tree.branch, node.start ≤ latestInstant
  start_ge : -9223372036854775808 ≤ tree.config.start
  stop_le : tree.stop ≤ latestInstant

instance
    (tree : Tree) :
    Decidable tree.InRange :=
  decidable_of_iff
    (tree.nodeCount < 4294967296 ∧ (∀ node ∈ tree.branch, node.start ≤ latestInstant)
      ∧ -9223372036854775808 ≤ tree.config.start ∧ tree.stop ≤ latestInstant)
    ⟨fun all => ⟨all.1, all.2.1, all.2.2.1, all.2.2.2⟩,
      fun inRange => ⟨inRange.few, inRange.started, inRange.start_ge, inRange.stop_le⟩⟩

theorem InRange.withCache
    {tree : Tree}
    (inRange : tree.InRange)
    (cache : NodeCache) :
    (tree.withCache cache).InRange :=
  ⟨inRange.few, inRange.started, inRange.start_ge, inRange.stop_le⟩

/-- All attributes of intervals have numbers that fit the field in which they are written. -/
def Numbered (taken : List Interval) : Prop :=
  ∀ i ∈ taken, 0 ≤ i.quark ∧ i.quark < 2147483648

/-- The branch and the file of a tree belong to the given shape. -/
structure Stands
    (s : Placed Tree)
    (spine : Spine)
    (height : Nat) : Prop where
  branch : s.subject.branch = spine.branch
  sound : spine.Sound s.subject.config s.subject.stop none height
  file : NodeFile.Keeps ⟨s.volume, s.subject.io⟩ spine.closed
  numbered : (spine.nodes.map (·.seq)).Perm (List.range s.subject.nodeCount)
  first : spine.top.start = s.subject.config.start
  rootSeq : s.subject.rootSeq = spine.top.seq

/-- A tree of some shape holds the intervals taken. -/
structure Holds
    (s : Placed Tree)
    (taken : List Interval) : Prop where
  stands : ∃ spine height, Stands s spine height ∧ spine.Carries taken
  separate : Interval.Separate taken

/-- An interval that a tree can take next. -/
structure Admits
    (tree : Tree)
    (taken : List Interval)
    (i : Interval) : Prop where
  small : i.encodedSize ≤ tree.config.coreCapacity
  begun : tree.config.start ≤ i.start
  late : tree.stop ≤ i.stop
  separate : Interval.Separate (taken ++ [i])

/-! ## Asking -/

namespace Stands

variable {s : Placed Tree} {spine : Spine} {height : Nat}

theorem nodup
    (stands : Stands s spine height) :
    (spine.nodes.map (·.seq)).Nodup :=
  stands.numbered.nodup_iff.mpr List.nodup_range

theorem seq_lt
    (stands : Stands s spine height)
    {node : Node}
    (member : node ∈ spine.nodes) :
    node.seq < s.subject.nodeCount :=
  List.mem_range.mp (stands.numbered.mem_iff.mp (List.mem_map_of_mem member))

theorem start_ge
    (stands : Stands s spine height)
    {node : Node}
    (member : node ∈ spine.nodes) :
    s.subject.config.start ≤ node.start := by
  rw [← stands.first]
  exact stands.sound.start_ge node member

theorem start_le
    (stands : Stands s spine height)
    (inRange : s.subject.InRange)
    {node : Node}
    (member : node ∈ spine.nodes) :
    node.start ≤ latestInstant := by
  have open_ : ∀ node ∈ spine.branch, node.start ≤ latestInstant := by
    rw [← stands.branch]
    exact inRange.started
  rcases List.mem_append.mp (spine.nodes_perm.mem_iff.mp member) with atHand | inFile
  · exact open_ node atHand
  · rcases stands.sound.closed_bounds node inFile with ⟨-, later, laterMember, le, -⟩
    exact Int.le_trans le (open_ later laterMember)

/-- A node whose stop fits its field can be told in full by its block. -/
theorem storable_of_stop
    (stands : Stands s spine height)
    (inRange : s.subject.InRange)
    (numbered : Numbered (held spine.nodes))
    {node : Node}
    (member : node ∈ spine.nodes)
    (stop_ge : -9223372036854775808 ≤ node.stop)
    (stop_le : node.stop ≤ latestInstant) :
    node.Storable s.subject.config := by
  have among := stands.sound.among node member
  have few := inRange.few
  have start_ge := inRange.start_ge
  have last := inRange.stop_le
  have start := stands.start_ge member
  refine ⟨?_, ?_, by omega, stands.start_le inRange member, stop_ge, stop_le, ?_, ?_,
    among.fan, among.leaf, among.room⟩
  · have := stands.seq_lt member
    omega
  · intro above same
    rcases among.parent above same with atTop | ⟨other, otherMember, otherSeq⟩
    · cases atTop
    · have := stands.seq_lt otherMember
      omega
  · intro link linked
    rcases among.links link linked with ⟨child, childMember, rfl⟩
    have := stands.seq_lt childMember
    have childStart := stands.start_ge childMember
    exact ⟨by show child.seq < _; omega, by show _ ≤ child.start; omega,
      stands.start_le inRange childMember⟩
  · intro i inNode
    have inside := stands.sound.inside node member i inNode
    rw [stands.first] at inside
    have number := numbered i (List.mem_flatMap.mpr ⟨node, member, inNode⟩)
    exact ⟨by omega, by omega, number.1, number.2⟩

/-- Every closed node can be told in full by its block. -/
theorem storable
    (stands : Stands s spine height)
    (inRange : s.subject.InRange)
    (numbered : Numbered (held spine.nodes))
    {node : Node}
    (member : node ∈ spine.closed) :
    node.Storable s.subject.config := by
  have start_ge := inRange.start_ge
  rcases stands.sound.closed_bounds node member with ⟨known, later, laterMember, -, before⟩
  have ends := stands.start_le inRange (Spine.mem_nodes_of_mem_branch laterMember)
  exact stands.storable_of_stop inRange numbered (Spine.mem_nodes_of_mem_closed member)
    (by omega) (by omega)

/-- All nodes of a tree are found by their numbers. -/
theorem shows_
    (stands : Stands s spine height)
    (inRange : s.subject.InRange)
    (numbered : Numbered (held spine.nodes)) :
    Shows s spine.closed spine.nodes where
  distinct node member other otherMember same :=
    List.inj_on_of_nodup_map stands.nodup member otherMember same
  branch node member := by
    rw [stands.branch] at member
    exact Spine.mem_nodes_of_mem_branch member
  keeps := stands.file
  found node member := by
    rw [stands.branch]
    rcases List.mem_append.mp (spine.nodes_perm.mem_iff.mp member) with atHand | inFile
    · exact Or.inl atHand
    · exact Or.inr ⟨inFile, stands.storable inRange numbered inFile⟩

end Stands

namespace Holds

variable {s : Placed Tree} {taken : List Interval}

/-- Other nodes at hand make no difference as long as the file keeps its nodes. -/
theorem withCache
    {cache : NodeCache}
    {spine : Spine}
    {height : Nat}
    (holds : Holds s taken)
    (stands : Stands s spine height)
    (carries : spine.Carries taken)
    (file : NodeFile.Keeps ⟨s.volume, (s.subject.withCache cache).io⟩ spine.closed) :
    Holds ⟨s.volume, s.subject.withCache cache⟩ taken where
  stands := ⟨spine, height,
    ⟨stands.branch, stands.sound, file, stands.numbered, stands.first, stands.rootSeq⟩, carries⟩
  separate := holds.separate

/-- Every descent gathers from the nodes on the way down in a tree of the intervals taken. -/
theorem descendFromRoot
    {α : Type}
    (holds : Holds s taken)
    (inRange : s.subject.InRange)
    (numbered : Numbered taken)
    (t : Int)
    (visit : Node → α → α)
    (enough : α → Bool)
    (faithful : ∀ (node : Node) (gathered : α), visit node.reread gathered = visit node gathered)
    (gathered : α) :
    ∃ (spine : Spine) (height : Nat) (cache : NodeCache),
      spine.Sound s.subject.config s.subject.stop none height
        ∧ spine.Carries taken
        ∧ Tree.descendFromRoot t visit enough gathered s
          = .ok (gatherFrom visit enough (spine.way t) gathered)
            ⟨s.volume, s.subject.withCache cache⟩
        ∧ Holds ⟨s.volume, s.subject.withCache cache⟩ taken := by
  rcases holds.stands with ⟨spine, height, stands, carries⟩
  have shows_ := stands.shows_ inRange fun i member => numbered i (carries.same.mem_iff.mp member)
  rcases shows_.descendFromRoot stands.branch stands.sound faithful gathered with
    ⟨cache, answered, kept⟩
  exact ⟨spine, height, cache, stands.sound, carries, answered,
    holds.withCache stands carries kept.keeps⟩

/-- A tree answers with the interval of the attribute that covers the instant. -/
theorem find
    (holds : Holds s taken)
    (inRange : s.subject.InRange)
    (numbered : Numbered taken)
    (t quark : Int) :
    ∃ cache,
      Tree.find t quark s
          = .ok (Interval.covering? taken t quark) ⟨s.volume, s.subject.withCache cache⟩
        ∧ Holds ⟨s.volume, s.subject.withCache cache⟩ taken := by
  rcases holds.descendFromRoot inRange numbered t (fun node _ => node.find? t quark) Option.isSome
      (fun _ _ => rfl) none with
    ⟨spine, height, cache, sound, carries, answered, kept⟩
  rw [sound.gatherFrom_find holds.separate carries] at answered
  exact ⟨cache, answered, kept⟩

/-- A tree fills each slot with the interval of its attribute that covers the instant. -/
theorem collect
    (holds : Holds s taken)
    (inRange : s.subject.InRange)
    (numbered : Numbered taken)
    (t : Int)
    (slots : Slots) :
    ∃ cache,
      Tree.collect t slots s = .ok (slots.fill taken t) ⟨s.volume, s.subject.withCache cache⟩
        ∧ Holds ⟨s.volume, s.subject.withCache cache⟩ taken := by
  rcases holds.descendFromRoot inRange numbered t (fun node => node.collect t) (fun _ => false)
      (fun _ _ => rfl) slots with
    ⟨spine, height, cache, sound, carries, answered, kept⟩
  rw [sound.gatherFrom_collect holds.separate carries] at answered
  exact ⟨cache, answered, kept⟩

end Holds

/-! ## Changing -/

/-- Nodes with new numbers are written one after the other, and all are kept. -/
theorem writeNodes_of_keeps
    {s : Placed Tree}
    {written nodes : List Node}
    (keeps : NodeFile.Keeps ⟨s.volume, s.subject.io⟩ written)
    (room : ∀ node ∈ nodes, node.usedBytes ≤ node.kind.capacity s.subject.config)
    (distinct : ((written ++ nodes).map (·.seq)).Nodup) :
    ∃ volume cache,
      writeNodes nodes s = .ok () ⟨volume, s.subject.withCache cache⟩
        ∧ NodeFile.Keeps ⟨volume, (s.subject.withCache cache).io⟩ (written ++ nodes) := by
  induction nodes generalizing s written with
  | nil =>
      rw [List.append_nil]
      exact ⟨s.volume, s.subject.io.cache, rfl, keeps⟩
  | cons node rest ih =>
      rcases keeps.writeNode (room node List.mem_cons_self) with ⟨volume, cache, wrote, kept⟩
      have new : ∀ other ∈ written, other.seq ≠ node.seq := by
        intro other member same
        rw [List.map_append, List.map_cons] at distinct
        refine (List.nodup_append.mp distinct).2.2 other.seq (List.mem_map_of_mem member)
          node.seq List.mem_cons_self same
      have more : NodeFile.Keeps ⟨volume, (s.subject.withCache cache).io⟩ (written ++ [node]) := by
        apply kept.of_subset
        intro other member
        rcases List.mem_append.mp member with old | last
        · refine List.mem_cons_of_mem _ (List.mem_filter.mpr ⟨old, ?_⟩)
          exact decide_eq_true (new other old)
        · rw [List.mem_singleton.mp last]
          exact List.mem_cons_self
      have step : onFile (NodeFile.writeNode node) s = .ok () ⟨volume, s.subject.withCache cache⟩ :=
        Step.onPart_of_ok wrote
      have split : written ++ node :: rest = (written ++ [node]) ++ rest := by
        rw [List.append_assoc]
        rfl
      rw [split] at distinct ⊢
      rcases ih (s := ⟨volume, s.subject.withCache cache⟩) more
        (fun other member => room other (List.mem_cons_of_mem _ member)) distinct with
        ⟨last, lastCache, wroteRest, lastKept⟩
      exact ⟨last, lastCache, (Step.bind_of_ok step).trans wroteRest, lastKept⟩

/-- A new tree is a single leaf over a file with a header. -/
theorem create_eq_ok
    {name : String}
    {config : Config}
    {volume made : Volume}
    {tree : Tree}
    (created : create name config volume = .ok (made, tree)) :
    config.Valid
      ∧ ∃ base file,
        volume.create name = .ok (base, file)
          ∧ made = base.write file 0 (Header.unfinished config).encode
          ∧ tree = ⟨.ofFile config file, [.fresh .leaf 0 none config.start], 0, 1, config.start,
            false⟩ := by
  unfold create at created
  cases accepted : config.validate with
  | error fault =>
      rw [accepted] at created
      cases created
  | ok done =>
      rw [accepted] at created
      cases based : volume.create name with
      | error fault =>
          rw [based] at created
          cases created
      | ok pair =>
          rcases pair with ⟨base, file⟩
          rw [based] at created
          cases created
          exact ⟨config.validate_eq_ok_iff.mp accepted, base, file, rfl, rfl, rfl⟩

/-- The file of a new tree keeps no node yet. -/
theorem keeps_of_create
    {name : String}
    {config : Config}
    {volume made : Volume}
    {tree : Tree}
    (sound : volume.Sound)
    (created : create name config volume = .ok (made, tree)) :
    NodeFile.Keeps ⟨made, tree.io⟩ [] := by
  rcases create_eq_ok created with ⟨valid, base, file, based, rfl, rfl⟩
  constructor
  · rw [Volume.size_contents_write]
    exact Volume.lt_size_of_create sound based
  · exact valid
  · exact NodeCache.tidy_empty _
  · intro node member
    cases member
  · intro node member
    cases member
  · intro node member
    cases member

/-- A new tree holds nothing. -/
theorem holds_of_create
    {name : String}
    {config : Config}
    {volume after : Volume}
    {tree : Tree}
    (sound : volume.Sound)
    (created : create name config volume = .ok (after, tree)) :
    Holds ⟨after, tree⟩ [] ∧ tree.config = config ∧ tree.stop = config.start
      ∧ tree.finished = false := by
  have keeps := keeps_of_create sound created
  rcases create_eq_ok created with ⟨valid, base, file, based, rfl, rfl⟩
  have empty : (Spine.leaf (Node.fresh .leaf 0 none config.start)).Carries [] := by
    refine ⟨List.Perm.refl _, ?_⟩
    intro node member
    rw [List.mem_singleton.mp member]
    exact List.Pairwise.nil
  refine ⟨⟨⟨.leaf (Node.fresh .leaf 0 none config.start), 0, ?_, empty⟩,
    List.Pairwise.nil⟩, rfl, rfl, rfl⟩
  constructor
  · rfl
  · apply Spine.Sound.leaf (Node.filled_fresh _ _ _ _) rfl rfl rfl
    show config.start ≤ config.start + 1
    omega
  · exact keeps
  · exact List.Perm.refl _
  · rfl
  · rfl

/-- What a tree is that an interval leaves with the nodes that it has. -/
def Refuses
    (tree : Tree)
    (i : Interval) :
    Prop :=
  tree.finished = true
    ∨ tree.maxIntervalSize < i.encodedSize
    ∨ ∀ root below, tree.branch = root :: below → i.start < root.start

/-- The tree in which a place was found, before the nodes that were closed are written. -/
def placing
    (tree : Tree)
    (stop : Int)
    (placed : Branch.Placement) :
    Tree :=
  { tree with
    stop := stop
    branch := placed.branch
    rootSeq := (placed.branch.head?.map (·.seq)).getD tree.rootSeq
    nodeCount := placed.nodeCount }

section Insert

variable {s : Placed Tree} {i : Interval}

theorem insert_of_finished
    (finished : s.subject.finished = true)
    (i : Interval) :
    insert i s = .error (.badArgument .finishedTree) s := by
  unfold insert
  rw [Step.subject_bind_apply, if_pos finished]
  rfl

theorem insert_of_large
    (unfinished : s.subject.finished = false)
    (large : s.subject.maxIntervalSize < i.encodedSize) :
    insert i s = .error (.intervalTooLarge i.encodedSize s.subject.maxIntervalSize) s := by
  unfold insert
  rw [Step.subject_bind_apply, if_neg (by rw [unfinished]; exact Bool.false_ne_true)]
  dsimp only
  rw [if_pos large]
  rfl

/-- A tree without a branch only notes how late it is. -/
theorem insert_of_bare
    (unfinished : s.subject.finished = false)
    (small : ¬ s.subject.maxIntervalSize < i.encodedSize)
    (branch : s.subject.branch = []) :
    insert i s = .error (.badArgument .finishedTree)
      ⟨s.volume, { s.subject with stop := max s.subject.stop i.stop }⟩ := by
  unfold insert
  rw [Step.subject_bind_apply, if_neg (by rw [unfinished]; exact Bool.false_ne_true)]
  dsimp only
  rw [if_neg small, Step.update_bind_apply, branch]
  rfl

variable {root : Node} {below : List Node}

theorem insert_of_early
    (unfinished : s.subject.finished = false)
    (small : ¬ s.subject.maxIntervalSize < i.encodedSize)
    (branch : s.subject.branch = root :: below)
    (early : i.start < root.start) :
    insert i s = .error (.timeOutside i.start root.start (max s.subject.stop i.stop))
      ⟨s.volume, { s.subject with stop := max s.subject.stop i.stop }⟩ := by
  unfold insert
  rw [Step.subject_bind_apply, if_neg (by rw [unfinished]; exact Bool.false_ne_true)]
  dsimp only
  rw [if_neg small, Step.update_bind_apply, branch]
  dsimp only
  rw [if_pos early]
  rfl

theorem insert_of_started
    (unfinished : s.subject.finished = false)
    (small : ¬ s.subject.maxIntervalSize < i.encodedSize)
    (branch : s.subject.branch = root :: below)
    (started : ¬ i.start < root.start) :
    let split := max s.subject.stop i.stop
    let placed := Branch.place s.subject.config split i s.subject.nodeCount root below
    insert i s = writeNodes placed.closed ⟨s.volume, s.subject.placing split placed⟩ := by
  unfold insert
  rw [Step.subject_bind_apply, if_neg (by rw [unfinished]; exact Bool.false_ne_true)]
  dsimp only
  rw [if_neg small, Step.update_bind_apply, branch]
  dsimp only
  rw [if_neg started]
  rfl

end Insert

/-- A tree refuses an interval, or finds a place for it and writes the nodes that it closes. -/
theorem insert_apply
    (i : Interval)
    (s : Placed Tree) :
    s.subject.Refuses i
        ∧ (∃ fault stop, s.subject.stop ≤ stop
          ∧ insert i s = .error fault ⟨s.volume, { s.subject with stop }⟩)
      ∨ ∃ root below,
        s.subject.finished = false
          ∧ s.subject.branch = root :: below
          ∧ i.encodedSize ≤ s.subject.maxIntervalSize
          ∧ root.start ≤ i.start
          ∧ let split := max s.subject.stop i.stop
            let placed := Branch.place s.subject.config split i s.subject.nodeCount root below
            insert i s = writeNodes placed.closed ⟨s.volume, s.subject.placing split placed⟩ := by
  by_cases finished : s.subject.finished = true
  · exact Or.inl ⟨Or.inl finished, _, s.subject.stop, Int.le_refl _, insert_of_finished finished i⟩
  have unfinished := eq_false_of_ne_true finished
  by_cases large : s.subject.maxIntervalSize < i.encodedSize
  · exact Or.inl ⟨Or.inr (Or.inl large), _, s.subject.stop, Int.le_refl _,
      insert_of_large unfinished large⟩
  cases branch : s.subject.branch with
  | nil =>
      refine Or.inl ⟨Or.inr (Or.inr ?_), _, _, Int.le_max_left _ i.stop,
        insert_of_bare unfinished large branch⟩
      intro root below same
      cases branch.symm.trans same
  | cons root below =>
      by_cases early : i.start < root.start
      · refine Or.inl ⟨Or.inr (Or.inr ?_), _, _, Int.le_max_left _ i.stop,
          insert_of_early unfinished large branch early⟩
        intro other lower same
        cases branch.symm.trans same
        exact early
      · exact Or.inr ⟨root, below, unfinished, rfl, Nat.le_of_not_lt large, Int.not_lt.mp early,
          insert_of_started unfinished large branch early⟩

/-- A place for an interval makes another sound tree, of all nodes and intervals there are then. -/
theorem Stands.exists_place
    {s : Placed Tree}
    {spine : Spine}
    {height : Nat}
    {i : Interval}
    {split : Int}
    (stands : Stands s spine height)
    (small : i.encodedSize ≤ s.subject.config.coreCapacity)
    (begun : s.subject.config.start ≤ i.start)
    (late : s.subject.stop ≤ split)
    (ends : i.stop ≤ split) :
    let placed :=
      Branch.place s.subject.config split i s.subject.nodeCount spine.top spine.lower
    ∃ after newHeight,
      Branch.Leads s.subject.config split none newHeight spine.closed placed after
        ∧ after.top.start = s.subject.config.start
        ∧ (after.nodes.map (·.seq)).Perm (List.range placed.nodeCount)
        ∧ (held after.nodes).Perm (held spine.nodes ++ [i]) := by
  intro placed
  have valid : s.subject.config.Valid := stands.file.valid
  rcases Branch.exists_place valid stands.sound late ends stands.first begun small
    s.subject.nodeCount with ⟨after, newHeight, first, leads⟩
  have branch : after.branch = placed.branch := leads.branch
  have closed : after.closed.Perm (spine.closed ++ placed.closed) := leads.closed
  have all : after.nodes.Perm (placed.branch ++ (spine.closed ++ placed.closed)) := by
    apply after.nodes_perm.trans
    rw [branch]
    exact closed.append_left _
  have contents : (held (placed.branch ++ placed.closed)).Perm (held spine.branch ++ [i]) :=
    Branch.held_place _ _ _ _ _ _
  refine ⟨after, newHeight, leads, first, ?_, ?_⟩
  · have numbered := (spine.nodes_perm.map (·.seq)).symm.trans stands.numbered
    exact (all.map (·.seq)).trans (Branch.numbered_place numbered _ _ _)
  · have old : (held spine.nodes).Perm (held (spine.branch ++ spine.closed)) :=
      spine.nodes_perm.flatMap_right _
    have new : (held after.nodes).Perm (held (placed.branch ++ (spine.closed ++ placed.closed))) :=
      all.flatMap_right _
    rw [List.perm_iff_count] at old new contents ⊢
    intro j
    have oldCount := old j
    have newCount := new j
    have placedCount := contents j
    simp only [held_append, List.count_append] at oldCount newCount placedCount ⊢
    omega

/--
A tree takes every interval that has room in each of its nodes and starts no
earlier than the tree does, wherever it ends.
-/
theorem Stands.insert
    {s : Placed Tree}
    {spine : Spine}
    {height : Nat}
    {i : Interval}
    (stands : Stands s spine height)
    (unfinished : s.subject.finished = false)
    (small : i.encodedSize ≤ s.subject.config.coreCapacity)
    (begun : s.subject.config.start ≤ i.start) :
    let split := max s.subject.stop i.stop
    let placed := Branch.place s.subject.config split i s.subject.nodeCount spine.top spine.lower
    ∃ volume cache after newHeight,
      let reached : Placed Tree := ⟨volume, (s.subject.placing split placed).withCache cache⟩
      Tree.insert i s = .ok () reached
        ∧ Stands reached after newHeight
        ∧ after.branch = placed.branch
        ∧ after.closed.Perm (spine.closed ++ placed.closed)
        ∧ (held after.nodes).Perm (held spine.nodes ++ [i]) := by
  intro split placed
  rcases stands.exists_place small begun (Int.le_max_left _ i.stop) (Int.le_max_right _ _) with
    ⟨after, newHeight, ⟨branch, closed, sound⟩, first, numbered, kept⟩
  have room : ∀ node ∈ placed.closed, node.usedBytes ≤ node.kind.capacity s.subject.config := by
    intro node member
    have inTree : node ∈ after.nodes :=
      Spine.mem_nodes_of_mem_closed (closed.mem_iff.mpr (List.mem_append_right _ member))
    exact (sound.among node inTree).room
  have distinct : ((spine.closed ++ placed.closed).map (·.seq)).Nodup := by
    have nodup := numbered.nodup_iff.mpr List.nodup_range
    rw [(after.nodes_perm.map (·.seq)).nodup_iff, List.map_append] at nodup
    rw [← (closed.map (·.seq)).nodup_iff]
    exact (List.nodup_append.mp nodup).2.1
  have file : NodeFile.Keeps ⟨s.volume, (s.subject.placing split placed).io⟩ spine.closed :=
    stands.file
  rcases writeNodes_of_keeps (s := ⟨s.volume, s.subject.placing split placed⟩) file room
    distinct with ⟨volume, cache, wrote, written⟩
  refine ⟨volume, cache, after, newHeight, ?_, ?_, branch, closed, kept⟩
  · have root : s.subject.branch = spine.top :: spine.lower := stands.branch
    rcases insert_apply i s with ⟨ended | large | early, -⟩ | ⟨top, lower, -, same, -, -, took⟩
    · exact absurd ended (ne_true_of_eq_false unfinished)
    · exact absurd large (Nat.not_lt.mpr small)
    · have before := early _ _ root
      rw [stands.first] at before
      exact absurd before (Int.not_lt.mpr begun)
    · cases root.symm.trans same
      exact took.trans wrote
  · refine ⟨branch.symm, sound, ?_, numbered, first, ?_⟩
    · exact written.of_subset fun node member => closed.mem_iff.mp member
    · show (placed.branch.head?.map (·.seq)).getD s.subject.rootSeq = after.top.seq
      rw [← branch]
      rfl

/-- Nodes stay in the order of the ends of their intervals if a last one comes. -/
theorem lasting_sorted
    (i : Interval)
    (split : Int) :
    Branch.Lasting i split
      (fun node => node.Sorted ∧ ∀ j ∈ node.intervals.toList, j.stop ≤ i.stop)
      Node.Sorted where
  fresh kind seq parent start := by
    refine ⟨List.Pairwise.nil, ?_⟩
    intro j inNode
    cases inNode
  addChild node seq start before := before
  addInterval node before := by
    have pushed : (node.addInterval i).intervals.toList = node.intervals.toList ++ [i] :=
      Array.toList_push
    unfold Node.Sorted
    rw [pushed]
    constructor
    · rw [List.pairwise_append]
      refine ⟨before.1, List.pairwise_singleton _ _, ?_⟩
      intro j inNode last lastMember
      rw [List.mem_singleton.mp lastMember]
      exact before.2 j inNode
    · intro j inNode
      rcases List.mem_append.mp inNode with old | new
      · exact before.2 j old
      · exact Int.le_of_eq (congrArg Interval.stop (List.mem_singleton.mp new))
  close node before := before.1
  adopt node seq before := before.1

namespace Holds

variable {s : Placed Tree} {taken : List Interval}

/-- A tree takes every interval that it admits, and holds it next to the others. -/
theorem insert
    {i : Interval}
    (holds : Holds s taken)
    (unfinished : s.subject.finished = false)
    (admits : Admits s.subject taken i) :
    ∃ reached,
      Tree.insert i s = .ok () reached
        ∧ reached.subject.config = s.subject.config
        ∧ reached.subject.stop = i.stop
        ∧ reached.subject.finished = false
        ∧ Holds reached (taken ++ [i]) := by
  rcases holds.stands with ⟨spine, height, stands, carries⟩
  rcases stands.insert unfinished admits.small admits.begun with
    ⟨volume, cache, after, newHeight, took, standsAfter, branch, closed, kept⟩
  refine ⟨_, took, rfl, Int.max_eq_right admits.late, unfinished,
    ⟨after, newHeight, standsAfter, kept.trans (carries.same.append_right _), ?_⟩,
    admits.separate⟩
  have before : ∀ node ∈ spine.top :: spine.lower,
      node.Sorted ∧ ∀ j ∈ node.intervals.toList, j.stop ≤ i.stop := by
    intro node member
    have inTree : node ∈ spine.nodes := Spine.mem_nodes_of_mem_branch member
    refine ⟨carries.sorted node inTree, fun j inNode => ?_⟩
    exact Int.le_trans (stands.sound.inside node inTree j inNode).2 admits.late
  have placed := (lasting_sorted i (max s.subject.stop i.stop)).place before s.subject.config
    s.subject.nodeCount
  intro node member
  rcases List.mem_append.mp (after.nodes_perm.mem_iff.mp member) with atHand | inFile
  · rw [branch] at atHand
    exact (placed.1 node atHand).1
  · rcases List.mem_append.mp (closed.mem_iff.mp inFile) with old | new
    · exact carries.sorted node (Spine.mem_nodes_of_mem_closed old)
    · exact placed.2 node new

end Holds

end Chronicle.Tree
