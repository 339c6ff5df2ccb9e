import Chronicle.Proofs.Backend.Siting
import Chronicle.Proofs.Tree.Circling

/-!
# Trees that have room

Whatever a tree is given, none of its nodes outgrows its block, and its root
starts where the tree does.  A tree then either refuses an interval that starts
no earlier than itself, and is as it was before, or takes it and has written
what had to be written.  Nothing is asked of the file of the tree, nor of the
numbers and times in it.
-/

namespace Chronicle.Tree

/-! ## Nodes -/

/-- A node whose intervals fit into its block. -/
def Node.Roomy
    (config : Config)
    (node : Node) :
    Prop :=
  node.usedBytes ≤ node.kind.capacity config

namespace Branch

variable {config : Config} {i : Interval}

theorem roomy_fresh
    (kind : Node.Kind)
    (seq : Nat)
    (parent : Option Nat)
    (start : Int) :
    (Node.fresh kind seq parent start).Roomy config :=
  Nat.zero_le _

/-- An interval is only put into a node that it fits into. -/
theorem roomy_offer
    {node : Node}
    (roomy : node.Roomy config) :
    (offer config i node).Roomy config := by
  unfold offer
  by_cases fits : Fits config node i
  · rw [if_pos fits]
    unfold Fits Node.freeSpace at fits
    unfold Node.Roomy at roomy ⊢
    rw [Node.usedBytes_addInterval]
    show _ ≤ node.kind.capacity config
    omega
  · rw [if_neg fits]
    exact roomy

theorem roomy_sprout
    {start : Int}
    {depth seq : Nat}
    {top : Node}
    (roomy : top.Roomy config) :
    ∀ node ∈ sprout start depth top seq, node.Roomy config := by
  induction depth generalizing top seq with
  | zero => exact List.forall_mem_singleton.mpr roomy
  | succ depth ih => exact List.forall_mem_cons.mpr ⟨roomy, ih (roomy_fresh _ _ _ _)⟩

theorem roomy_close
    {stop : Int}
    {branch : List Node}
    (roomy : ∀ node ∈ branch, node.Roomy config) :
    ∀ node ∈ branch.map fun node => node.close stop, node.Roomy config := by
  intro node member
  rcases List.mem_map.mp member with ⟨old, oldMember, rfl⟩
  exact roomy old oldMember

theorem roomy_adopt
    {seq : Nat}
    {branch : List Node}
    (roomy : ∀ node ∈ branch, node.Roomy config) :
    ∀ node ∈ adopt seq branch, node.Roomy config := by
  cases branch with
  | nil => exact roomy
  | cons top below =>
      rcases List.forall_mem_cons.mp roomy with ⟨first, rest⟩
      exact List.forall_mem_cons.mpr ⟨first, rest⟩

/-- A placement all of whose nodes fit into their blocks. -/
structure Placement.Roomy
    (config : Config)
    (placed : Placement) : Prop where
  branch : ∀ node ∈ placed.branch, node.Roomy config
  closed : ∀ node ∈ placed.closed, node.Roomy config

theorem roomy_settle
    {top : Node}
    {below : List Node}
    (roomy : ∀ node ∈ top :: below, node.Roomy config)
    (split : Int)
    (nodeCount : Nat) :
    (settle config split i nodeCount top below).Roomy config := by
  have nothing : ∀ node ∈ ([] : List Node), node.Roomy config := fun node member => by cases member
  rcases List.forall_mem_cons.mp roomy with ⟨first, rest⟩
  have offered : (offer config i top).Roomy config := roomy_offer first
  induction below generalizing top with
  | nil => exact ⟨List.forall_mem_singleton.mpr offered, nothing⟩
  | cons next lower ih =>
      rcases List.forall_mem_cons.mp rest with ⟨second, others⟩
      have inner := ih rest second others (roomy_offer second)
      simp only [settle]
      split
      · split
        · exact ⟨List.forall_mem_cons.mpr ⟨first, inner.branch⟩, inner.closed⟩
        · split
          · refine ⟨roomy_sprout offered, ?_⟩
            exact List.forall_mem_append.mpr ⟨inner.closed, roomy_close inner.branch⟩
          · exact ⟨List.forall_mem_cons.mpr ⟨first, inner.branch⟩, inner.closed⟩
      · exact ⟨List.forall_mem_cons.mpr ⟨offered, rest⟩, nothing⟩

/-- A new root has room for every interval that is small enough. -/
theorem roomy_place
    {root : Node}
    {below : List Node}
    (roomy : ∀ node ∈ root :: below, node.Roomy config)
    (small : i.encodedSize ≤ config.coreCapacity)
    (split : Int)
    (nodeCount : Nat) :
    (place config split i nodeCount root below).Roomy config := by
  have found := roomy_settle (i := i) roomy split nodeCount
  simp only [place]
  split
  · exact found
  · refine ⟨roomy_sprout ?_, ?_⟩
    · unfold Node.Roomy
      rw [Node.usedBytes_addInterval, Node.usedBytes_addChild]
      show 0 + i.encodedSize ≤ config.coreCapacity
      omega
    · exact List.forall_mem_append.mpr ⟨found.closed, roomy_close (roomy_adopt found.branch)⟩

/-- A branch whose uppermost node starts at an instant. -/
def Begins
    (start : Int)
    (branch : List Node) :
    Prop :=
  ∃ root below, branch = root :: below ∧ root.start = start

theorem begins_sprout
    {top : Node}
    (start : Int)
    (depth seq : Nat) :
    Begins top.start (sprout start depth top seq) := by
  cases depth with
  | zero => exact ⟨top, [], rfl, rfl⟩
  | succ depth => exact ⟨top.addChild seq start, _, rfl, rfl⟩

theorem begins_close
    {start : Int}
    {branch : List Node}
    (begins : Begins start branch)
    (stop : Int) :
    Begins start (branch.map fun node => node.close stop) := by
  rcases begins with ⟨root, below, rfl, begins⟩
  exact ⟨root.close stop, below.map fun node => node.close stop, rfl, begins⟩

/-- A root that starts with the tree stays, or is followed by one that does as well. -/
theorem begins_place
    {root : Node}
    (below : List Node)
    (begins : root.start = config.start)
    (split : Int)
    (nodeCount : Nat) :
    Begins config.start (place config split i nodeCount root below).branch := by
  simp only [place]
  split
  · rcases exists_top_settle config split i nodeCount root below with
      ⟨after, rest, branch, -, link, -⟩
    exact ⟨after, rest, branch, (congrArg Node.Link.start link).trans begins⟩
  · exact begins_sprout _ _ _

end Branch

/-! ## Trees -/

/-- A tree none of whose nodes at hand outgrows its block, and whose root starts with it. -/
structure Roomy (tree : Tree) : Prop where
  valid : tree.config.Valid
  nodes : ∀ node ∈ tree.branch, node.Roomy tree.config
  begins : tree.finished = true ∨ Branch.Begins tree.config.start tree.branch

/-- Nothing is needed of a file to write nodes that fit into their blocks. -/
theorem writeNodes_of_roomy
    {s : Placed Tree}
    {nodes : List Node}
    (valid : s.subject.config.Valid)
    (roomy : ∀ node ∈ nodes, node.Roomy s.subject.config) :
    ∃ volume cache, writeNodes nodes s = .ok () ⟨volume, s.subject.withCache cache⟩ := by
  induction nodes generalizing s with
  | nil => exact ⟨s.volume, s.subject.io.cache, rfl⟩
  | cons node rest ih =>
      rcases List.forall_mem_cons.mp roomy with ⟨first, others⟩
      rcases Node.exists_encode valid first with ⟨block, encoded, -⟩
      have wrote : onFile (NodeFile.writeNode node) s
          = .ok () ⟨_, s.subject.withCache (s.subject.io.cache.insert node)⟩ :=
        Step.onPart_of_ok (NodeFile.writeNode_of_encode encoded)
      rcases ih (s := ⟨_, s.subject.withCache (s.subject.io.cache.insert node)⟩) valid others with
        ⟨volume, cache, wroteRest⟩
      exact ⟨volume, cache, (Step.bind_of_ok wrote).trans wroteRest⟩

namespace Roomy

variable {s : Placed Tree}

/-- An interval that starts no earlier than the tree is refused without a trace, or taken. -/
theorem insert
    {i : Interval}
    (roomy : s.subject.Roomy)
    (begun : s.subject.start ≤ i.start) :
    (∃ fault, Tree.insert i s = .error fault s)
      ∨ ∃ reached, Tree.insert i s = .ok () reached
        ∧ reached.subject.Roomy
        ∧ reached.subject.config = s.subject.config := by
  by_cases finished : s.subject.finished = true
  · exact Or.inl ⟨_, insert_of_finished finished i⟩
  have unfinished := eq_false_of_ne_true finished
  by_cases large : s.subject.maxIntervalSize < i.encodedSize
  · exact Or.inl ⟨_, insert_of_large unfinished large⟩
  rcases roomy.begins with done | ⟨root, below, branch, starts⟩
  · exact absurd done finished
  have started : ¬ i.start < root.start := by
    rw [starts]
    exact Int.not_lt.mpr begun
  let split := max s.subject.stop i.stop
  have nodes : ∀ node ∈ root :: below, node.Roomy s.subject.config := by
    rw [← branch]
    exact roomy.nodes
  have placed := Branch.roomy_place nodes (Nat.not_lt.mp large) split s.subject.nodeCount
  have took := insert_of_started unfinished large branch started
  rcases writeNodes_of_roomy (s := ⟨s.volume, s.subject.placing split _⟩) roomy.valid
    placed.closed with ⟨volume, cache, wrote⟩
  refine Or.inr ⟨_, took.trans wrote, ⟨roomy.valid, placed.branch, Or.inr ?_⟩, rfl⟩
  exact Branch.begins_place below starts split s.subject.nodeCount

end Roomy

/-! ## What stays as it is -/

/-- The latest branch of a tree and its settings. -/
def frame (s : Placed Tree) : List Node × Config :=
  (s.subject.branch, s.subject.config)

theorem leaves_frame_onFile
    {α : Type}
    {step : Step NodeFile α}
    (leaves : ∀ s, Step.Leaves (NodeFile.ground Volume.names) step s)
    (s : Placed Tree) :
    Step.Leaves frame (onFile step) s :=
  (leaves _).onPart fun _ same => congrArg (s.subject.branch, ·) (Prod.mk.inj (Prod.mk.inj same).2).2

theorem leaves_frame_writeNodes
    (nodes : List Node)
    (s : Placed Tree) :
    Step.Leaves frame (writeNodes nodes) s :=
  Step.leaves_forM (fun node => leaves_frame_onFile
    (NodeFile.leaves_writeNode Volume.frontal_names node)) nodes s

/-- A tree that is finished has its branch closed, whether that succeeds or not. -/
theorem frame_finish
    {s : Placed Tree}
    (unfinished : s.subject.finished = false)
    (stop : Int)
    (ns : Namespace) :
    frame ((finish stop ns).reached s)
      = frame ⟨s.volume, s.subject.ending (max s.subject.stop stop)⟩ := by
  unfold finish
  rw [Step.reached_bind_of_ok (Step.subject_apply s),
    if_neg (by rw [unfinished]; exact Bool.false_ne_true)]
  dsimp only
  rw [Step.reached_bind_of_ok (Step.update_apply _ s)]
  refine (leaves_frame_writeNodes _ _).bind fun _ written _ => ?_
  have names := leaves_frame_onFile (NodeFile.leaves_writeNamespace Volume.frontal_names
    (s.subject.io.size_le_blockOffset s.subject.nodeCount) ns) written
  refine names.bind fun _ named _ => ?_
  exact (leaves_frame_onFile (NodeFile.leaves_writeHeader _) named).bind fun _ _ _ => rfl

namespace Roomy

variable {s : Placed Tree}

/-- Which nodes are at hand makes no difference. -/
theorem of_withCache
    {tree other : Tree}
    {cache : NodeCache}
    (roomy : tree.Roomy)
    (same : other.withCache cache = tree.withCache cache) :
    other.Roomy := by
  have kept : (tree.withCache cache).Roomy := ⟨roomy.valid, roomy.nodes, roomy.begins⟩
  rw [← same] at kept
  exact ⟨kept.valid, kept.nodes, kept.begins⟩

/-- A tree that is finished has room whether that succeeds or not. -/
theorem finish
    (roomy : s.subject.Roomy)
    (stop : Int)
    (ns : Namespace) :
    ((Tree.finish stop ns).reached s).subject.Roomy
      ∧ ((Tree.finish stop ns).reached s).subject.config = s.subject.config := by
  by_cases finished : s.subject.finished = true
  · rw [Step.reached_of_ok (finish_of_finished finished stop ns)]
    exact ⟨roomy, rfl⟩
  have unfinished := eq_false_of_ne_true finished
  rcases Prod.mk.inj (frame_finish unfinished stop ns) with ⟨branch, config⟩
  have begins := Branch.begins_close (roomy.begins.resolve_left finished) (max s.subject.stop stop)
  refine ⟨⟨config ▸ roomy.valid, ?_, Or.inr ?_⟩, config⟩
  · rw [branch, config]
    exact Branch.roomy_close roomy.nodes
  · rw [branch, config]
    exact begins

end Roomy

/-- A new tree has room. -/
theorem roomy_of_create
    {name : String}
    {config : Config}
    {volume made : Volume}
    {tree : Tree}
    (created : create name config volume = .ok (made, tree)) :
    tree.Roomy := by
  rcases create_eq_ok created with ⟨valid, base, file, -, -, rfl⟩
  refine ⟨valid, List.forall_mem_singleton.mpr (Branch.roomy_fresh _ _ _ _), Or.inr ?_⟩
  exact ⟨_, [], rfl, rfl⟩

/-- A tree opened from a file has no nodes at hand that could lack room. -/
theorem roomy_of_reopen
    {name : String}
    {version : Nat}
    {volume : Volume}
    {tree : Tree}
    {ns : Namespace}
    (opened : reopen name version volume = .ok (tree, ns)) :
    tree.Roomy := by
  rcases opened_of_reopen opened with ⟨branch, finished, valid, -⟩
  refine ⟨valid, ?_, Or.inl finished⟩
  rw [branch]
  intro node member
  cases member

end Chronicle.Tree
