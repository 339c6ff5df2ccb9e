import Chronicle.Proofs.Tree.Refinement
import Mathlib.Data.List.Chain

/-!
# The anatomy of a tree

What the shape of a tree means node by node.  Whatever intervals a tree is
given, its latest branch is a root, inner nodes and a leaf, each of them the
last child of the one above.  The children of an inner node stand side by side
without a gap.  Every node is reached from the root by one path only, and all
leaves by paths of the same length.  The nodes hold the intervals that were
taken and nothing else, and what is closed is in the file.
-/

namespace Chronicle.Tree

/-! ## Families and paths -/

/-- The nodes that the links of a node stand for, in their order. -/
structure Node.Family
    (config : Config)
    (nodes : List Node)
    (node : Node)
    (children : List Node) : Prop where
  links : node.children.toList = children.map Node.link
  known : ∀ child ∈ children, child ∈ nodes
  parent : ∀ child ∈ children, child.parent = some node.seq
  few : children.length ≤ config.maxChildren
  first : (children.head?).map (·.start) = some node.start
  rising : children.Pairwise fun older younger => older.start < younger.start
  adjoining : children.IsChain fun older younger =>
    older.closed = true ∧ older.stop + 1 = younger.start
  last : node.closed = true → ∀ child, children.getLast? = some child →
    child.closed = true ∧ child.stop = node.stop

/-- A leaf without children, or an inner node with a family. -/
inductive Node.Regular
    (config : Config)
    (nodes : List Node)
    (node : Node) : Prop
  | leaf
      (kind : node.kind = .leaf)
      (childless : node.children = #[])
  | core
      (kind : node.kind = .core)
      (children : List Node)
      (family : node.Family config nodes children)

/-- A path down from `root` along links, which ends at a node. -/
inductive Node.Path
    (nodes : List Node)
    (root : Node) :
    Node →
    List Node →
    Prop
  | root
      (known : root ∈ nodes) :
      Path nodes root root [root]
  | down
      {upper node : Node}
      {path : List Node}
      (before : Path nodes root upper path)
      (known : node ∈ nodes)
      (linked : node.link ∈ upper.children.toList) :
      Path nodes root node (path ++ [node])

namespace Node

variable {config : Config} {nodes more : List Node} {root node : Node}

theorem Family.mono
    {children : List Node}
    (family : node.Family config nodes children)
    (subset : ∀ other ∈ nodes, other ∈ more) :
    node.Family config more children :=
  ⟨family.links, fun child member => subset child (family.known child member), family.parent,
    family.few, family.first, family.rising, family.adjoining, family.last⟩

theorem Regular.mono
    (regular : node.Regular config nodes)
    (subset : ∀ other ∈ nodes, other ∈ more) :
    node.Regular config more := by
  cases regular with
  | leaf kind childless => exact .leaf kind childless
  | core kind children family => exact .core kind children (family.mono subset)

/-- A linked node hangs below the node that links to it, where numbers tell nodes apart. -/
theorem Regular.parent
    {child : Node}
    (regular : node.Regular config nodes)
    (distinct : ∀ node ∈ nodes, ∀ other ∈ nodes, node.seq = other.seq → node = other)
    (known : child ∈ nodes)
    (linked : child.link ∈ node.children.toList) :
    child.parent = some node.seq := by
  cases regular with
  | leaf kind childless =>
      rw [childless] at linked
      cases linked
  | core kind children family =>
      rw [family.links] at linked
      rcases List.mem_map.mp linked with ⟨other, member, same⟩
      have sameSeq : other.seq = child.seq := congrArg Link.seq same
      rw [← distinct other (family.known other member) child known sameSeq]
      exact family.parent other member

namespace Path

variable {path : List Node}

theorem known
    (leads : Path nodes root node path) :
    node ∈ nodes := by
  cases leads with
  | root known => exact known
  | down before known linked => exact known

theorem mono
    (leads : Path nodes root node path)
    (subset : ∀ other ∈ nodes, other ∈ more) :
    Path more root node path := by
  induction leads with
  | root known => exact .root (subset root known)
  | down before known linked ih => exact .down ih (subset _ known) linked

/-- A path can begin one node further up. -/
theorem cons
    {top : Node}
    (leads : Path nodes root node path)
    (known : top ∈ nodes)
    (linked : root.link ∈ top.children.toList) :
    Path nodes top node (top :: path) := by
  induction leads with
  | root rootKnown => exact .down (.root known) rootKnown linked
  | down before nodeKnown nodeLinked ih => exact .down ih nodeKnown nodeLinked

/-- There is no second path where every node hangs below one node and the root below none. -/
theorem unique
    {other : List Node}
    (leads : Path nodes root node path)
    (distinct : ∀ node ∈ nodes, ∀ other ∈ nodes, node.seq = other.seq → node = other)
    (regular : ∀ node ∈ nodes, node.Regular config nodes)
    (orphan : root.parent = none)
    (alsoLeads : Path nodes root node other) :
    other = path := by
  induction leads generalizing other with
  | root known =>
      cases alsoLeads with
      | root _ => rfl
      | down before _ linked =>
          have parent := (regular _ before.known).parent distinct known linked
          cases orphan.symm.trans parent
  | @down upper node path before known linked ih =>
      have parent := (regular _ before.known).parent distinct known linked
      cases alsoLeads with
      | root _ => cases orphan.symm.trans parent
      | @down upper' _ path' before' _ linked' =>
          have parent' := (regular _ before'.known).parent distinct known linked'
          have sameSeq : upper'.seq = upper.seq := Option.some.inj (parent'.symm.trans parent)
          cases distinct upper' before'.known upper before.known sameSeq
          rw [ih before']

end Path

end Node

/-! ## Closed trees -/

namespace Forest

/-- The roots of the trees. -/
def roots : Forest → List Node
  | nil => []
  | snoc older root _ => older.roots ++ [root]

theorem links_eq
    (forest : Forest) :
    forest.links = forest.roots.map Node.link := by
  induction forest with
  | nil => rfl
  | snoc older root below olderIH belowIH =>
      rw [links, roots, List.map_append, olderIH]
      rfl

theorem mem_nodes_of_mem_roots
    {forest : Forest}
    {node : Node}
    (member : node ∈ forest.roots) :
    node ∈ forest.nodes := by
  induction forest with
  | nil => cases member
  | snoc older root below olderIH belowIH =>
      rcases List.mem_append.mp member with old | new
      · exact List.mem_append_left _ (olderIH old)
      · rw [List.mem_singleton.mp new]
        exact List.mem_append_right _ List.mem_cons_self

/-- Roots that stand side by side from `start` to `stop`. -/
structure Abut
    (above : Nat)
    (start stop : Int)
    (roots : List Node) : Prop where
  parent : ∀ root ∈ roots, root.parent = some above
  closed : ∀ root ∈ roots, root.closed = true
  empty : roots = [] → start = stop + 1
  first : ∀ root, roots.head? = some root → root.start = start
  last : ∀ root, roots.getLast? = some root → root.stop = stop
  rising : roots.Pairwise fun older younger => older.start < younger.start
  adjoining : roots.IsChain fun older younger =>
    older.closed = true ∧ older.stop + 1 = younger.start

/-- What stands side by side begins where the first begins, or where the next one does. -/
theorem Abut.first_concat
    {above : Nat}
    {start : Int}
    {older : List Node}
    {root : Node}
    (abut : Abut above start (root.start - 1) older) :
    ((older ++ [root]).head?).map (·.start) = some start := by
  cases older with
  | nil =>
      have empty := abut.empty rfl
      have begins : root.start = start := by omega
      exact congrArg some begins
  | cons first rest => exact congrArg some (abut.first first rfl)

theorem Abut.rising_concat
    {above : Nat}
    {start stop : Int}
    {older : List Node}
    {root : Node}
    (abut : Abut above start stop older)
    (ordered : ∀ link ∈ older.map Node.link, link.start < root.start) :
    (older ++ [root]).Pairwise fun older younger => older.start < younger.start := by
  rw [List.pairwise_append]
  refine ⟨abut.rising, List.pairwise_singleton _ _, ?_⟩
  intro other member last lastMember
  rw [List.mem_singleton.mp lastMember]
  exact ordered other.link (List.mem_map_of_mem member)

theorem Abut.adjoining_concat
    {above : Nat}
    {start : Int}
    {older : List Node}
    {root : Node}
    (abut : Abut above start (root.start - 1) older) :
    (older ++ [root]).IsChain fun older younger =>
      older.closed = true ∧ older.stop + 1 = younger.start := by
  rw [List.isChain_append]
  refine ⟨abut.adjoining, List.isChain_singleton _, ?_⟩
  intro other isLast next isNext
  cases isNext
  have stop := abut.last other isLast
  have member : other ∈ older := List.mem_of_getLast? isLast
  exact ⟨abut.closed other member, by omega⟩

/-- One more root stands beside those before. -/
theorem Abut.concat
    {config : Config}
    {above : Nat}
    {start stop : Int}
    {older : List Node}
    {root : Node}
    (abut : Abut above start (root.start - 1) older)
    (ordered : ∀ link ∈ older.map Node.link, link.start < root.start)
    (done : root.Done config above stop) :
    Abut above start stop (older ++ [root]) where
  parent other member := by
    rcases List.mem_append.mp member with old | new
    · exact abut.parent other old
    · rw [List.mem_singleton.mp new]
      exact done.parent
  closed other member := by
    rcases List.mem_append.mp member with old | new
    · exact abut.closed other old
    · rw [List.mem_singleton.mp new]
      exact done.closed
  empty none := absurd none (List.append_ne_nil_of_right_ne_nil _ (List.cons_ne_nil _ _))
  first other isFirst := by
    have begins := abut.first_concat
    rw [isFirst] at begins
    exact Option.some.inj begins
  last other isLast := by
    rw [List.getLast?_concat] at isLast
    cases isLast
    exact done.stop_eq
  rising := abut.rising_concat ordered
  adjoining := abut.adjoining_concat

namespace Tiles

variable {config : Config} {above height : Nat} {start stop : Int} {forest : Forest}

/-- The roots of trees that tile a time stand side by side. -/
theorem abut
    (tiles : forest.Tiles config above height start stop) :
    Abut above start stop forest.roots := by
  induction tiles with
  | nil empty =>
      constructor
      · intro root member
        cases member
      · intro root member
        cases member
      · exact fun _ => empty
      · intro root isFirst
        cases isFirst
      · intro root isLast
        cases isLast
      · exact List.Pairwise.nil
      · exact List.isChain_nil
  | leaf before ordered done kind children beforeIH =>
      rw [links_eq] at ordered
      exact beforeIH.concat ordered done
  | core before ordered done kind children parts some_ beforeIH partsIH =>
      rw [links_eq] at ordered
      exact beforeIH.concat ordered done

/-- A closed inner node with trees below it has their roots for its family. -/
theorem family
    {root : Node}
    {below : Forest}
    (parts : below.Tiles config root.seq height root.start stop)
    (some_ : below ≠ .nil)
    (done : root.Done config above stop)
    (children : root.children.toList = below.links) :
    root.Family config below.nodes below.roots where
  links := children.trans below.links_eq
  known child member := mem_nodes_of_mem_roots member
  parent := parts.abut.parent
  few := by
    have fan := done.filled.fan
    rw [← Array.length_toList, children, below.links_eq, List.length_map] at fan
    exact fan
  first := by
    cases roots : below.roots with
    | nil =>
        cases below with
        | nil => exact absurd rfl some_
        | snoc older last inner =>
            exact absurd roots (List.append_ne_nil_of_right_ne_nil _ (List.cons_ne_nil _ _))
    | cons first rest =>
        have isFirst : below.roots.head? = some first := by
          rw [roots]
          rfl
        exact congrArg some (parts.abut.first first isFirst)
  rising := parts.abut.rising
  adjoining := parts.abut.adjoining
  last _ child isLast := by
    have member : child ∈ below.roots := List.mem_of_getLast? isLast
    exact ⟨parts.abut.closed child member, (parts.abut.last child isLast).trans done.stop_eq.symm⟩

/-- Every closed node is regular. -/
theorem regular
    (tiles : forest.Tiles config above height start stop) :
    ∀ node ∈ forest.nodes, node.Regular config forest.nodes := by
  induction tiles with
  | nil empty =>
      intro node member
      cases member
  | leaf before ordered done kind children beforeIH =>
      intro node member
      rcases List.mem_append.mp member with old | new
      · exact (beforeIH node old).mono fun other => List.mem_append_left _
      · rw [List.mem_singleton.mp new]
        exact .leaf kind children
  | @core above height start stop older below root before ordered done kind children parts some_
      beforeIH partsIH =>
      have deeper : ∀ other ∈ below.nodes, other ∈ (snoc older root below).nodes :=
        fun other member => List.mem_append_right _ (List.mem_cons_of_mem _ member)
      intro node member
      rcases List.mem_append.mp member with old | new
      · exact (beforeIH node old).mono fun other => List.mem_append_left _
      · rcases List.mem_cons.mp new with rfl | lower
        · exact .core kind below.roots ((parts.family some_ done children).mono deeper)
        · exact (partsIH node lower).mono deeper

/-- What a closed node holds lies within its range. -/
theorem within
    (tiles : forest.Tiles config above height start stop) :
    ∀ node ∈ forest.nodes,
      node.closed = true
        ∧ ∀ i ∈ node.intervals.toList, node.start ≤ i.start ∧ i.stop ≤ node.stop := by
  have closedAt : ∀ {above : Nat} {stop : Int} {node : Node}, node.Done config above stop →
      node.closed = true
        ∧ ∀ i ∈ node.intervals.toList, node.start ≤ i.start ∧ i.stop ≤ node.stop := by
    intro above stop node done
    exact ⟨done.closed, fun i inNode => done.stop_eq.symm ▸ done.filled.inside i inNode⟩
  induction tiles with
  | nil empty =>
      intro node member
      cases member
  | leaf before ordered done kind children beforeIH =>
      intro node member
      rcases List.mem_append.mp member with old | new
      · exact beforeIH node old
      · rw [List.mem_singleton.mp new]
        exact closedAt done
  | core before ordered done kind children parts some_ beforeIH partsIH =>
      intro node member
      rcases List.mem_append.mp member with old | new
      · exact beforeIH node old
      · rcases List.mem_cons.mp new with rfl | lower
        · exact closedAt done
        · exact partsIH node lower

/-- A path leads from a root to every closed node, of the same length to every leaf. -/
theorem exists_path
    (tiles : forest.Tiles config above height start stop) :
    ∀ node ∈ forest.nodes, ∃ root path,
      root.link ∈ forest.links
        ∧ Node.Path forest.nodes root node path
        ∧ (node.kind = .leaf → path.length = height + 1) := by
  induction tiles with
  | nil empty =>
      intro node member
      cases member
  | @leaf above start stop older root before ordered done kind children beforeIH =>
      intro node member
      rcases List.mem_append.mp member with old | new
      · rcases beforeIH node old with ⟨first, path, linked, leads, length⟩
        exact ⟨first, path, List.mem_append_left _ linked,
          leads.mono fun other => List.mem_append_left _, length⟩
      · cases List.mem_singleton.mp new
        refine ⟨root, [root], List.mem_append_right _ (List.mem_singleton_self _), .root ?_,
          fun _ => rfl⟩
        exact List.mem_append_right _ List.mem_cons_self
  | @core above height start stop older below root before ordered done kind children parts some_
      beforeIH partsIH =>
      have rootKnown : root ∈ (snoc older root below).nodes :=
        List.mem_append_right _ List.mem_cons_self
      have rootLinked : root.link ∈ (snoc older root below).links :=
        List.mem_append_right _ (List.mem_singleton_self _)
      intro node member
      rcases List.mem_append.mp member with old | new
      · rcases beforeIH node old with ⟨first, path, linked, leads, length⟩
        exact ⟨first, path, List.mem_append_left _ linked,
          leads.mono fun other => List.mem_append_left _, length⟩
      · rcases List.mem_cons.mp new with rfl | lower
        · refine ⟨node, [node], rootLinked, .root rootKnown, ?_⟩
          intro leaf
          cases kind.symm.trans leaf
        · rcases partsIH node lower with ⟨first, path, linked, leads, length⟩
          refine ⟨root, root :: path, rootLinked, ?_, fun leaf => congrArg Nat.succ (length leaf)⟩
          refine (leads.mono fun other inside => ?_).cons rootKnown ?_
          · exact List.mem_append_right _ (List.mem_cons_of_mem _ inside)
          · rw [children]
            exact linked

end Tiles

end Forest

/-! ## The latest branch -/

namespace Spine

/-- Whether the nodes of the branch are open, or were all closed where the tree ends. -/
def Level
    (spine : Spine)
    (stop : Int) :
    Prop :=
  (∀ node ∈ spine.branch, node.closed = false)
    ∨ ∀ node ∈ spine.branch, node.closed = true ∧ node.stop = stop

theorem Level.below
    {node : Node}
    {older : Forest}
    {next : Spine}
    {stop : Int}
    (level : (core node older next).Level stop) :
    next.Level stop := by
  rcases level with open_ | closed
  · exact Or.inl fun other member => open_ other (List.mem_cons_of_mem _ member)
  · exact Or.inr fun other member => closed other (List.mem_cons_of_mem _ member)

/-- A node of the branch that is closed ends with the node below it. -/
theorem Level.last
    {node : Node}
    {older : Forest}
    {next : Spine}
    {stop : Int}
    (level : (core node older next).Level stop)
    (ended : node.closed = true) :
    next.top.closed = true ∧ next.top.stop = node.stop := by
  rcases level with open_ | closed
  · exact absurd ended (ne_true_of_eq_false (open_ node List.mem_cons_self))
  · have below := closed next.top (List.mem_cons_of_mem _ List.mem_cons_self)
    exact ⟨below.1, below.2.trans (closed node List.mem_cons_self).2.symm⟩

namespace Sound

variable {config : Config} {above : Option Nat} {height : Nat} {stop : Int} {spine : Spine}

theorem top_parent
    (sound : spine.Sound config stop above height) :
    spine.top.parent = above := by
  cases sound with
  | leaf filled parent kind children => exact parent
  | core filled parent kind children tiles ordered rest => exact parent

/-- The roots beside a branch and its next node are the family of the node above them. -/
theorem family
    {node : Node}
    {older : Forest}
    {next : Spine}
    (sound : (Spine.core node older next).Sound config stop above (height + 1))
    (level : (Spine.core node older next).Level stop) :
    node.Family config (Spine.core node older next).nodes (older.roots ++ [next.top]) := by
  cases sound with
  | core filled parent kind children tiles ordered rest =>
      have links : node.children.toList = (older.roots ++ [next.top]).map Node.link := by
        rw [children, older.links_eq, List.map_append]
        rfl
      rw [older.links_eq] at ordered
      constructor
      · exact links
      · intro child member
        apply List.mem_cons_of_mem
        rcases List.mem_append.mp member with old | new
        · exact List.mem_append_left _ (Forest.mem_nodes_of_mem_roots old)
        · rw [List.mem_singleton.mp new]
          exact List.mem_append_right _ next.top_mem_nodes
      · intro child member
        rcases List.mem_append.mp member with old | new
        · exact tiles.abut.parent child old
        · rw [List.mem_singleton.mp new]
          exact rest.top_parent
      · have fan := filled.fan
        rw [← Array.length_toList, links, List.length_map] at fan
        exact fan
      · exact tiles.abut.first_concat
      · exact tiles.abut.rising_concat ordered
      · exact tiles.abut.adjoining_concat
      · intro ended child isLast
        rw [List.getLast?_concat] at isLast
        cases isLast
        exact level.last ended

/-- Every node of a tree is regular. -/
theorem regular
    (sound : spine.Sound config stop above height)
    (level : spine.Level stop) :
    ∀ node ∈ spine.nodes, node.Regular config spine.nodes := by
  induction sound with
  | leaf filled parent kind children =>
      intro node member
      rw [List.mem_singleton.mp member]
      exact .leaf kind children
  | @core above height top older next filled parent kind children tiles ordered rest ih =>
      have whole : (Spine.core top older next).Sound config stop above (height + 1) :=
        .core filled parent kind children tiles ordered rest
      intro node member
      rcases List.mem_cons.mp member with rfl | lower
      · exact .core kind (older.roots ++ [next.top]) (whole.family level)
      · rcases List.mem_append.mp lower with old | new
        · refine (tiles.regular node old).mono fun other inside => ?_
          exact List.mem_cons_of_mem _ (List.mem_append_left _ inside)
        · refine (ih level.below node new).mono fun other inside => ?_
          exact List.mem_cons_of_mem _ (List.mem_append_right _ inside)

/-- What closed nodes beside the branch hold lies within their ranges. -/
theorem within
    (sound : spine.Sound config stop above height) :
    ∀ node ∈ spine.closed,
      node.closed = true
        ∧ ∀ i ∈ node.intervals.toList, node.start ≤ i.start ∧ i.stop ≤ node.stop := by
  induction sound with
  | leaf filled parent kind children =>
      intro node member
      cases member
  | core filled parent kind children tiles ordered rest ih =>
      intro node member
      rcases List.mem_append.mp member with old | new
      · exact tiles.within node old
      · exact ih node new

theorem filled
    (sound : spine.Sound config stop above height) :
    ∀ node ∈ spine.branch, node.Filled config stop := by
  induction sound with
  | leaf filled parent kind children =>
      intro node member
      rw [List.mem_singleton.mp member]
      exact filled
  | core filled parent kind children tiles ordered rest ih =>
      intro node member
      rcases List.mem_cons.mp member with rfl | lower
      · exact filled
      · exact ih node lower

/-- A path leads from the uppermost node to every node, of the same length to every leaf. -/
theorem exists_path
    (sound : spine.Sound config stop above height) :
    ∀ node ∈ spine.nodes, ∃ path,
      Node.Path spine.nodes spine.top node path ∧ (node.kind = .leaf → path.length = height + 1) := by
  induction sound with
  | @leaf above top filled parent kind children =>
      intro node member
      rw [List.mem_singleton.mp member]
      exact ⟨[top], .root (List.mem_singleton_self top), fun _ => rfl⟩
  | @core above height top older next filled parent kind children tiles ordered rest ih =>
      have topKnown : top ∈ (Spine.core top older next).nodes := List.mem_cons_self
      have links : ∀ link ∈ older.links ++ [next.top.link], link ∈ top.children.toList :=
        fun link linked => children.symm ▸ linked
      intro node member
      rcases List.mem_cons.mp member with rfl | lower
      · refine ⟨[node], .root topKnown, ?_⟩
        intro leaf
        cases kind.symm.trans leaf
      · rcases List.mem_append.mp lower with old | new
        · rcases tiles.exists_path node old with ⟨first, path, linked, leads, length⟩
          refine ⟨top :: path, ?_, fun leaf => congrArg Nat.succ (length leaf)⟩
          refine (leads.mono fun other inside => ?_).cons topKnown ?_
          · exact List.mem_cons_of_mem _ (List.mem_append_left _ inside)
          · exact links _ (List.mem_append_left _ linked)
        · rcases ih node new with ⟨path, leads, length⟩
          refine ⟨top :: path, ?_, fun leaf => congrArg Nat.succ (length leaf)⟩
          refine (leads.mono fun other inside => ?_).cons topKnown ?_
          · exact List.mem_cons_of_mem _ (List.mem_append_right _ inside)
          · exact links _ (List.mem_append_right _ (List.mem_singleton_self _))

/-- Each node of the branch but the last is an inner node whose last child is the next one. -/
theorem isChain_branch
    (sound : spine.Sound config stop above height) :
    spine.branch.IsChain fun upper lower =>
      upper.kind = .core ∧ upper.children.toList.getLast? = some lower.link := by
  induction sound with
  | leaf filled parent kind children => exact List.isChain_singleton _
  | core filled parent kind children tiles ordered rest ih =>
      have last := congrArg List.getLast? children
      rw [List.getLast?_concat] at last
      exact List.isChain_cons_cons.mpr ⟨⟨kind, last⟩, ih⟩

/-- The last node of the branch is a leaf. -/
theorem kind_last
    (sound : spine.Sound config stop above height)
    {node : Node}
    (isLast : spine.branch.getLast? = some node) :
    node.kind = .leaf := by
  induction sound with
  | leaf filled parent kind children =>
      cases isLast
      exact kind
  | @core above height top older next filled parent kind children tiles ordered rest ih =>
      apply ih
      exact isLast

end Sound

end Spine

/-! ## Whole trees -/

/-- A node whose block stands in its place, and which is read from there if its numbers fit. -/
structure InFile
    (s : Placed Tree)
    (node : Node) : Prop where
  block : ∃ block,
    node.encode s.subject.config = .ok block
      ∧ s.volume.read s.subject.io.file (s.subject.io.blockOffset node.seq)
        s.subject.config.blockSize = .ok block
  fetched : node.Storable s.subject.config →
    s.subject.io.fetch s.volume node.seq = .ok node.reread

theorem NodeFile.Keeps.inFile
    {s : Placed Tree}
    {written : List Node}
    {node : Node}
    (keeps : Keeps ⟨s.volume, s.subject.io⟩ written)
    (member : node ∈ written) :
    InFile s node := by
  rcases keeps.block node member with ⟨block, encoded, read⟩
  exact ⟨⟨block, encoded, read⟩, fun storable =>
    NodeFile.fetch_of_read keeps.valid storable encoded read⟩

/--
A tree with the given root that holds the intervals taken, node by node: its
latest branch is at hand, and `closed` are its other nodes.
-/
structure Anatomy
    (s : Placed Tree)
    (root : Node)
    (closed : List Node)
    (taken : List Interval) : Prop where
  top : s.subject.branch.head? = some root
  start : root.start = s.subject.start
  orphan : root.parent = none
  rootSeq : root.seq = s.subject.rootSeq
  branch : s.subject.branch.IsChain fun upper lower =>
    upper.kind = .core ∧ upper.children.toList.getLast? = some lower.link
  bottom : ∀ node, s.subject.branch.getLast? = some node → node.kind = .leaf
  atHand : ∀ node ∈ s.subject.branch, node.closed = s.subject.finished
  aside : ∀ node ∈ closed, node.closed = true
  regular : ∀ node ∈ s.subject.branch ++ closed,
    node.Regular s.subject.config (s.subject.branch ++ closed)
  numbered : ((s.subject.branch ++ closed).map (·.seq)).Perm (List.range s.subject.nodeCount)
  paths : ∀ node ∈ s.subject.branch ++ closed,
    ∃! path, Node.Path (s.subject.branch ++ closed) root node path
  depth : ∀ node path, Node.Path (s.subject.branch ++ closed) root node path →
    node.kind = .leaf → path.length = s.subject.depth
  holds : (held (s.subject.branch ++ closed)).Perm taken
  within : ∀ node ∈ s.subject.branch ++ closed, node.closed = true →
    ∀ i ∈ node.intervals.toList, node.start ≤ i.start ∧ i.stop ≤ node.stop
  filed : ∀ node ∈ s.subject.branch ++ closed, node.closed = true → InFile s node

/-- The anatomy of a tree of some shape whose branch is open, or closed and in the file. -/
theorem Stands.anatomy
    {s : Placed Tree}
    {spine : Spine}
    {height : Nat}
    {taken : List Interval}
    (stands : Stands s spine height)
    (same : (held spine.nodes).Perm taken)
    (level : spine.Level s.subject.stop)
    (atHand : ∀ node ∈ spine.branch, node.closed = s.subject.finished)
    (file : ∀ node ∈ spine.nodes, node.closed = true → InFile s node) :
    Anatomy s spine.top spine.closed taken := by
  have sound := stands.sound
  have orphan : spine.top.parent = none := sound.top_parent
  have inTree : ∀ node, node ∈ spine.nodes ↔ node ∈ s.subject.branch ++ spine.closed := by
    intro node
    rw [stands.branch]
    exact spine.nodes_perm.mem_iff
  have all : spine.nodes.Perm (s.subject.branch ++ spine.closed) := by
    rw [stands.branch]
    exact spine.nodes_perm
  have regular : ∀ node ∈ s.subject.branch ++ spine.closed,
      node.Regular s.subject.config (s.subject.branch ++ spine.closed) := by
    intro node member
    exact (sound.regular level node ((inTree node).mpr member)).mono fun other => (inTree other).mp
  have distinct : ∀ node ∈ s.subject.branch ++ spine.closed,
      ∀ other ∈ s.subject.branch ++ spine.closed, node.seq = other.seq → node = other := by
    intro node member other otherMember sameSeq
    exact List.inj_on_of_nodup_map stands.nodup ((inTree node).mpr member)
      ((inTree other).mpr otherMember) sameSeq
  have exists_path : ∀ node ∈ s.subject.branch ++ spine.closed, ∃ path,
      Node.Path (s.subject.branch ++ spine.closed) spine.top node path
        ∧ (node.kind = .leaf → path.length = height + 1) := by
    intro node member
    rcases sound.exists_path node ((inTree node).mpr member) with ⟨path, leads, length⟩
    exact ⟨path, leads.mono fun other => (inTree other).mp, length⟩
  have within : ∀ node ∈ spine.nodes, node.closed = true →
      ∀ i ∈ node.intervals.toList, node.start ≤ i.start ∧ i.stop ≤ node.stop := by
    intro node member ended
    rcases List.mem_append.mp (spine.nodes_perm.mem_iff.mp member) with inBranch | inFile
    · rcases level with open_ | closed
      · exact absurd ended (ne_true_of_eq_false (open_ node inBranch))
      · rw [(closed node inBranch).2]
        exact (sound.filled node inBranch).inside
    · exact (sound.within node inFile).2
  constructor
  · rw [stands.branch]
    rfl
  · exact stands.first
  · exact orphan
  · exact stands.rootSeq.symm
  · rw [stands.branch]
    exact sound.isChain_branch
  · intro node isLast
    rw [stands.branch] at isLast
    exact sound.kind_last isLast
  · rw [stands.branch]
    exact atHand
  · exact fun node member => (sound.within node member).1
  · exact regular
  · exact (all.map _).symm.trans stands.numbered
  · intro node member
    rcases exists_path node member with ⟨path, leads, -⟩
    exact ⟨path, leads, fun other => leads.unique distinct regular orphan⟩
  · intro node path leads leaf
    rcases exists_path node leads.known with ⟨known, knownLeads, length⟩
    rw [knownLeads.unique distinct regular orphan leads, length leaf, Tree.depth, stands.branch,
      sound.length_branch]
  · exact (all.symm.flatMap_right _).trans same
  · exact fun node member => within node ((inTree node).mpr member)
  · exact fun node member => file node ((inTree node).mpr member)

/-! ## Runs -/

/-- The intervals that were taken, by how their insertions went. -/
def takenOf : List Interval → List (Except Fault Unit) → List Interval
  | i :: given, .ok _ :: outcomes => i :: takenOf given outcomes
  | _ :: given, .error _ :: outcomes => takenOf given outcomes
  | _, _ => []

/-- An open tree of some shape that holds the intervals taken. -/
structure Grows
    (s : Placed Tree)
    (spine : Spine)
    (height : Nat)
    (taken : List Interval) : Prop where
  unfinished : s.subject.finished = false
  stands : Stands s spine height
  holds : (held spine.nodes).Perm taken
  open_ : ∀ node ∈ spine.branch, node.closed = false

namespace Grows

variable {s : Placed Tree} {spine : Spine} {height : Nat} {taken : List Interval}

theorem anatomy
    (grows : Grows s spine height taken) :
    Anatomy s spine.top spine.closed taken := by
  refine grows.stands.anatomy grows.holds (Or.inl grows.open_) ?_ ?_
  · intro node member
    rw [grows.unfinished]
    exact grows.open_ node member
  · intro node member ended
    rcases List.mem_append.mp (spine.nodes_perm.mem_iff.mp member) with inBranch | inFile
    · exact absurd ended (ne_true_of_eq_false (grows.open_ node inBranch))
    · exact grows.stands.file.inFile inFile

/-- Nodes at hand are open, and stay so. -/
theorem lasting_open
    (i : Interval)
    (split : Int) :
    Branch.Lasting i split (fun node => node.closed = false) fun _ => True where
  fresh _ _ _ _ := rfl
  addChild _ _ _ before := before
  addInterval _ before := before
  close _ _ := trivial
  adopt _ _ _ := trivial

/-- A tree that is given an interval takes it, or refuses it and is as before but for its stop. -/
theorem insert
    (grows : Grows s spine height taken)
    (i : Interval) :
    (∃ fault stop, Tree.insert i s = .error fault ⟨s.volume, { s.subject with stop }⟩
        ∧ Grows ⟨s.volume, { s.subject with stop }⟩ spine height taken)
      ∨ ∃ reached after newHeight,
        Tree.insert i s = .ok () reached
          ∧ reached.subject.config = s.subject.config
          ∧ Grows reached after newHeight (taken ++ [i]) := by
  have stands := grows.stands
  rcases insert_apply i s with
    ⟨-, fault, stop, late, failed⟩ | ⟨root, below, -, branch, small, started, -⟩
  · refine Or.inl ⟨fault, stop, failed, grows.unfinished, ?_, grows.holds, grows.open_⟩
    exact ⟨stands.branch, stands.sound.mono late, stands.file, stands.numbered, stands.first,
      stands.rootSeq⟩
  · have isTop : root = spine.top := (List.cons.inj (branch.symm.trans stands.branch)).1
    rw [isTop, stands.first] at started
    rcases stands.insert grows.unfinished small started with
      ⟨volume, cache, after, newHeight, took, standsAfter, sameBranch, -, kept⟩
    refine Or.inr ⟨_, after, newHeight, took, rfl, grows.unfinished, standsAfter,
      kept.trans (grows.holds.append_right _), ?_⟩
    rw [sameBranch]
    exact ((lasting_open i _).place grows.open_ _ _).1

/-- So it is with any intervals, one after the other. -/
theorem each
    (grows : Grows s spine height taken)
    (given : List Interval) :
    ∃ outcomes reached after newHeight,
      Step.each Tree.insert given s = .ok outcomes reached
        ∧ reached.subject.config = s.subject.config
        ∧ Grows reached after newHeight (taken ++ takenOf given outcomes) := by
  induction given generalizing s spine height taken with
  | nil =>
      refine ⟨[], s, spine, height, rfl, rfl, ?_⟩
      have none : takenOf [] [] = [] := rfl
      rw [none, List.append_nil]
      exact grows
  | cons i given ih =>
      rcases grows.insert i with
        ⟨fault, stop, failed, still⟩ | ⟨reached, after, newHeight, took, config, more⟩
      · rcases ih still with ⟨outcomes, last, lastSpine, lastHeight, rest, sameConfig, whole⟩
        have first : Step.outcome (Tree.insert i) s = .ok (.error fault) _ :=
          Step.outcome_of_ofExcept failed
        exact ⟨.error fault :: outcomes, last, lastSpine, lastHeight,
          (Step.bind_of_ok first).trans (Step.bind_of_ok rest), sameConfig, whole⟩
      · rcases ih more with ⟨outcomes, last, lastSpine, lastHeight, rest, sameConfig, whole⟩
        have first : Step.outcome (Tree.insert i) s = .ok (.ok ()) _ :=
          Step.outcome_of_ofExcept took
        refine ⟨.ok () :: outcomes, last, lastSpine, lastHeight,
          (Step.bind_of_ok first).trans (Step.bind_of_ok rest), sameConfig.trans config, ?_⟩
        rw [List.append_assoc] at whole
        exact whole

/-- A tree that is finished has the same anatomy, with its branch closed and in the file. -/
theorem finish_of_storable
    {ns : Namespace}
    (grows : Grows s spine height taken)
    (storable : ns.Storable)
    (stop : Int) :
    ∃ finished root,
      Tree.finish stop ns s = .ok () finished
        ∧ finished.subject.finished = true
        ∧ Anatomy finished root spine.closed taken := by
  have stands := grows.stands
  rcases stands.finish_of_storable grows.unfinished stop storable with
    ⟨volume, cache, body, finishes, standsStill, filed⟩
  have ended : ∀ node ∈ (spine.close (max s.subject.stop stop)).branch,
      node.closed = true ∧ node.stop = max s.subject.stop stop := by
    intro node member
    rw [Spine.branch_close] at member
    rcases List.mem_map.mp member with ⟨old, oldMember, rfl⟩
    have start_le := (stands.sound.filled old oldMember).start_le
    refine ⟨rfl, ?_⟩
    show max (max s.subject.stop stop) (old.start - 1) = _
    omega
  have anatomy := standsStill.anatomy
    ((Spine.held_nodes_close _ spine).symm ▸ grows.holds) (Or.inr ended)
    (fun node member => (ended node member).1)
    (fun node member _ => filed.nodes.inFile member)
  rw [Spine.closed_close] at anatomy
  exact ⟨_, _, finishes, rfl, anatomy⟩

/-- A namespace that cannot be stored leaves a tree unfinished. -/
theorem finish
    {stop : Int}
    {ns : Namespace}
    {finished : Placed Tree}
    (grows : Grows s spine height taken)
    (done : Tree.finish stop ns s = .ok () finished) :
    finished.subject.finished = true
      ∧ ∃ root, Anatomy finished root spine.closed taken := by
  by_cases storable : ns.Storable
  · rcases grows.finish_of_storable storable stop with ⟨reached, root, finishes, ended, anatomy⟩
    cases done.symm.trans finishes
    exact ⟨ended, root, anatomy⟩
  · rcases grows.stands.finish_of_not_storable grows.unfinished stop storable with
      ⟨volume, cache, fails, -⟩
    cases done.symm.trans fails

end Grows

theorem grows_of_create
    {name : String}
    {config : Config}
    {volume made : Volume}
    {tree : Tree}
    (sound : volume.Sound)
    (created : create name config volume = .ok (made, tree)) :
    tree.config = config
      ∧ ∃ spine height, Grows ⟨made, tree⟩ spine height [] := by
  rcases holds_of_create sound created with ⟨holds, sameConfig, -, unfinished⟩
  rcases holds.stands with ⟨spine, height, stands, carries⟩
  refine ⟨sameConfig, spine, height, unfinished, stands, carries.same, ?_⟩
  rw [← stands.branch]
  rcases create_eq_ok created with ⟨-, base, file, -, -, rfl⟩
  intro node member
  rw [List.mem_singleton.mp member]
  rfl

/--
A tree has its anatomy whatever intervals it is given, in whatever order they
end, and keeps it when it is finished, which a namespace that can be stored
always allows.
-/
theorem anatomy_of_created
    {name : String}
    {config : Config}
    {volume made : Volume}
    {tree : Tree}
    (sound : volume.Sound)
    (created : create name config volume = .ok (made, tree))
    (given : List Interval) :
    ∃ outcomes reached root closed,
      Step.each insert given ⟨made, tree⟩ = .ok outcomes reached
        ∧ reached.subject.config = config
        ∧ reached.subject.finished = false
        ∧ Anatomy reached root closed (takenOf given outcomes)
        ∧ ∀ stop ns,
          (ns.Storable → ∃ finished, finish stop ns reached = .ok () finished)
            ∧ ∀ finished, finish stop ns reached = .ok () finished →
              finished.subject.finished = true
                ∧ ∃ last, Anatomy finished last closed (takenOf given outcomes) := by
  rcases grows_of_create sound created with ⟨config, spine, height, grows⟩
  rcases grows.each given with ⟨outcomes, reached, after, newHeight, done, sameConfig, whole⟩
  rw [List.nil_append] at whole
  refine ⟨outcomes, reached, after.top, after.closed, done, sameConfig.trans config,
    whole.unfinished, whole.anatomy, fun stop ns => ⟨?_, fun finished => whole.finish⟩⟩
  intro storable
  rcases whole.finish_of_storable storable stop with ⟨finished, root, finishes, -⟩
  exact ⟨finished, finishes⟩

/-- Intervals that do not come in the order of their ends, under which a narrow tree grows. -/
def scatter : List Interval :=
  [⟨1, 11, 0, .null, by decide⟩,
    ⟨1, 6, 1, .null, by decide⟩,
    ⟨12, 16, 0, .null, by decide⟩,
    ⟨7, 9, 1, .null, by decide⟩,
    ⟨2, 33, 2, .null, by decide⟩,
    ⟨17, 17, 0, .null, by decide⟩,
    ⟨8, 10, 1, .null, by decide⟩,
    ⟨34, 45, 2, .null, by decide⟩]

theorem anatomy_of_scatter :
    ∃ made tree outcomes reached root closed,
      create "scatter" narrow .empty = .ok (made, tree)
        ∧ Step.each insert scatter ⟨made, tree⟩ = .ok outcomes reached
        ∧ reached.subject.config = narrow
        ∧ reached.subject.finished = false
        ∧ Anatomy reached root closed (takenOf scatter outcomes)
        ∧ ∀ stop ns,
          (ns.Storable → ∃ finished, finish stop ns reached = .ok () finished)
            ∧ ∀ finished, finish stop ns reached = .ok () finished →
              finished.subject.finished = true
                ∧ ∃ last, Anatomy finished last closed (takenOf scatter outcomes) := by
  have created : ∃ made tree, create "scatter" narrow .empty = .ok (made, tree) := ⟨_, _, rfl⟩
  rcases created with ⟨made, tree, created⟩
  rcases anatomy_of_created (by decide) created scatter with ⟨outcomes, reached, root, closed, rest⟩
  exact ⟨made, tree, outcomes, reached, root, closed, created, rest⟩

end Chronicle.Tree
