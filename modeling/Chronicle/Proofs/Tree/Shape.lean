import Chronicle.Proofs.Codec.Block
import Chronicle.Proofs.Tree.Search
import Chronicle.Tree.Branch

/-!
# The shape of a tree

A tree is its latest branch with, beside each inner node of the branch, the
closed trees that came before the next node of the branch.  Neither the file
nor the open nodes hold this shape; it is what they mean together.

The invariant has one idea.  The closed trees below a node tile the time from
the start of the node to the start of whatever comes behind them, without gap
and overlap, and every interval lies within the tile of the node that holds
it.  The way down for an instant, which always goes to the last child that
starts in time, then passes every node that holds an interval covering the
instant.
-/

namespace Chronicle.Tree

/-- The link under which a node is known to its parent. -/
def Node.link (node : Node) : Node.Link :=
  ⟨node.seq, node.start⟩

/-- Closed trees that stand side by side, the oldest first. -/
inductive Forest
  | nil
  | snoc (older : Forest) (root : Node) (below : Forest)

/-- The latest branch from some node down, with the closed trees beside it. -/
inductive Spine
  | leaf (node : Node)
  | core (node : Node) (closed : Forest) (next : Spine)

namespace Forest

/-- All nodes of the trees. -/
def nodes : Forest → List Node
  | nil => []
  | snoc older root below => older.nodes ++ root :: below.nodes

/-- The links to the roots. -/
def links : Forest → List Node.Link
  | nil => []
  | snoc older root _ => older.links ++ [root.link]

/-- The nodes on the way down for an instant, from the root of the tree that it leads to. -/
def way (t : Int) : Forest → List Node
  | nil => []
  | snoc older root below => if root.start ≤ t then root :: below.way t else older.way t

end Forest

namespace Spine

/-- The uppermost node. -/
def top : Spine → Node
  | leaf node => node
  | core node _ _ => node

/-- The nodes of the branch below the uppermost one. -/
def lower : Spine → List Node
  | leaf _ => []
  | core _ _ next => next.top :: next.lower

/-- The nodes of the branch. -/
def branch (spine : Spine) : List Node :=
  spine.top :: spine.lower

/-- The closed nodes beside the branch. -/
def closed : Spine → List Node
  | leaf _ => []
  | core _ older next => older.nodes ++ next.closed

/-- All nodes. -/
def nodes : Spine → List Node
  | leaf node => [node]
  | core node older next => node :: (older.nodes ++ next.nodes)

/-- The nodes on the way down for an instant. -/
def way (t : Int) : Spine → List Node
  | leaf node => [node]
  | core node older next =>
    node :: (if next.top.start ≤ t then next.way t else older.way t)

end Spine

/-! ## What a node must be like -/

/-- A node in whose time, from its start to `stop`, all that it holds lies. -/
structure Node.Filled
    (config : Config)
    (stop : Int)
    (node : Node) : Prop where
  inside : ∀ i ∈ node.intervals.toList, node.start ≤ i.start ∧ i.stop ≤ stop
  room : node.usedBytes ≤ node.kind.capacity config
  start_le : node.start ≤ stop + 1
  fan : node.children.size ≤ config.maxChildren

/-- A node that was closed at `stop` below the node of number `above`. -/
structure Node.Done
    (config : Config)
    (above : Nat)
    (stop : Int)
    (node : Node) : Prop where
  filled : node.Filled config stop
  parent : node.parent = some above
  closed : node.closed = true
  stop_eq : node.stop = stop
  start_le_stop : config.start ≤ stop

/--
A node whose links and whose parent are among `others`, but for a parent of
number `above`, and which has room for what it holds.
-/
structure Node.Among
    (config : Config)
    (above : Option Nat)
    (others : List Node)
    (node : Node) : Prop where
  room : node.usedBytes ≤ node.kind.capacity config
  fan : node.children.size ≤ config.maxChildren
  leaf : node.kind = .leaf → node.children = #[]
  links : ∀ link ∈ node.children.toList, ∃ child ∈ others, child.link = link
  parent : ∀ parent, node.parent = some parent →
    above = some parent ∨ ∃ other ∈ others, other.seq = parent

/--
Closed trees of equal height that tile the time from `start` to `stop`.  Each
root ends where the next one begins; the trees below a root tile its time
again.
-/
inductive Forest.Tiles (config : Config) :
    (above height : Nat) →
    (start stop : Int) →
    Forest →
    Prop
  | nil
      {above height : Nat}
      {start stop : Int}
      (empty : start = stop + 1) :
      Tiles config above height start stop .nil
  | leaf
      {above : Nat}
      {start stop : Int}
      {older : Forest}
      {root : Node}
      (before : Tiles config above 0 start (root.start - 1) older)
      (ordered : ∀ link ∈ older.links, link.start < root.start)
      (done : root.Done config above stop)
      (kind : root.kind = .leaf)
      (children : root.children = #[]) :
      Tiles config above 0 start stop (.snoc older root .nil)
  | core
      {above height : Nat}
      {start stop : Int}
      {older below : Forest}
      {root : Node}
      (before : Tiles config above (height + 1) start (root.start - 1) older)
      (ordered : ∀ link ∈ older.links, link.start < root.start)
      (done : root.Done config above stop)
      (kind : root.kind = .core)
      (children : root.children.toList = below.links)
      (parts : Tiles config root.seq height root.start stop below)
      (some_ : below ≠ .nil) :
      Tiles config above (height + 1) start stop (.snoc older root below)

/--
A branch of `height + 1` levels in which nothing ends after `stop`.  The closed
trees beside the branch tile the time up to the start of its next node.
-/
inductive Spine.Sound
    (config : Config)
    (stop : Int) :
    (above : Option Nat) →
    (height : Nat) →
    Spine →
    Prop
  | leaf
      {above : Option Nat}
      {node : Node}
      (filled : node.Filled config stop)
      (parent : node.parent = above)
      (kind : node.kind = .leaf)
      (children : node.children = #[]) :
      Sound config stop above 0 (.leaf node)
  | core
      {above : Option Nat}
      {height : Nat}
      {node : Node}
      {older : Forest}
      {next : Spine}
      (filled : node.Filled config stop)
      (parent : node.parent = above)
      (kind : node.kind = .core)
      (children : node.children.toList = older.links ++ [next.top.link])
      (tiles : older.Tiles config node.seq height node.start (next.top.start - 1))
      (ordered : ∀ link ∈ older.links, link.start < next.top.start)
      (rest : Sound config stop (some node.seq) height next) :
      Sound config stop above (height + 1) (.core node older next)

namespace Node

variable {config : Config} {node : Node}

theorem Filled.among
    {stop : Int}
    {above : Option Nat}
    {others : List Node}
    (filled : node.Filled config stop)
    (leaf : node.kind = .leaf → node.children = #[])
    (links : ∀ link ∈ node.children.toList, ∃ child ∈ others, child.link = link)
    (parent : ∀ parent, node.parent = some parent →
      above = some parent ∨ ∃ other ∈ others, other.seq = parent) :
    node.Among config above others :=
  ⟨filled.room, filled.fan, leaf, links, parent⟩

theorem Among.mono
    {above : Option Nat}
    {others more : List Node}
    (among : node.Among config above others)
    (subset : ∀ other ∈ others, other ∈ more) :
    node.Among config above more where
  room := among.room
  fan := among.fan
  leaf := among.leaf
  links link linked := by
    rcases among.links link linked with ⟨child, member, same⟩
    exact ⟨child, subset child member, same⟩
  parent parent known := by
    rcases among.parent parent known with atTop | ⟨other, member, same⟩
    · exact Or.inl atTop
    · exact Or.inr ⟨other, subset other member, same⟩

/-- What was above is one of the others when more of the tree is looked at. -/
theorem Among.below
    {seq : Nat}
    {above : Option Nat}
    {others : List Node}
    (among : node.Among config (some seq) others)
    (known : ∃ other ∈ others, other.seq = seq) :
    node.Among config above others where
  room := among.room
  fan := among.fan
  leaf := among.leaf
  links := among.links
  parent parent same := by
    rcases among.parent parent same with atTop | other
    · cases atTop
      exact Or.inr known
    · exact Or.inr other

/-- A link that starts after all others can stand behind them. -/
theorem ordered_concat
    {links : List Link}
    {link : Link}
    (sorted : links.Pairwise fun link other => link.start ≤ other.start)
    (before : ∀ other ∈ links, other.start < link.start) :
    (links ++ [link]).Pairwise fun link other => link.start ≤ other.start := by
  rw [List.pairwise_append]
  refine ⟨sorted, List.pairwise_singleton _ _, ?_⟩
  intro other member last lastMember
  rw [List.mem_singleton.mp lastMember]
  exact Int.le_of_lt (before other member)

/-- A longer time has room for the same. -/
theorem Filled.mono
    {stop later : Int}
    (filled : node.Filled config stop)
    (le : stop ≤ later) :
    node.Filled config later where
  inside i held := by
    have := filled.inside i held
    omega
  room := filled.room
  start_le := by
    have := filled.start_le
    omega
  fan := filled.fan

end Node

/-! ## Closed trees -/

namespace Forest

/-- A root is one of the nodes. -/
theorem exists_of_mem_links
    {forest : Forest}
    {link : Node.Link}
    (member : link ∈ forest.links) :
    ∃ node ∈ forest.nodes, node.link = link := by
  induction forest with
  | nil => cases member
  | snoc older root below olderIH belowIH =>
      rcases List.mem_append.mp member with old | new
      · rcases olderIH old with ⟨node, nodeMember, same⟩
        exact ⟨node, List.mem_append_left _ nodeMember, same⟩
      · exact ⟨root, List.mem_append_right _ List.mem_cons_self, (List.mem_singleton.mp new).symm⟩

/-- The way down passes nodes of the trees, in their order. -/
theorem way_sublist
    (forest : Forest)
    (t : Int) :
    (forest.way t).Sublist forest.nodes := by
  induction forest with
  | nil => exact List.Sublist.slnil
  | snoc older root below olderIH belowIH =>
      unfold way nodes
      split
      · exact (belowIH.cons_cons root).trans (List.sublist_append_right _ _)
      · exact olderIH.trans (List.sublist_append_left _ _)

end Forest

namespace Forest.Tiles

variable {config : Config} {above height : Nat} {start stop : Int} {forest : Forest}

/-- Trees that tile a time begin no later than right behind it. -/
theorem start_le
    (tiles : forest.Tiles config above height start stop) :
    start ≤ stop + 1 := by
  induction tiles with
  | nil empty => omega
  | leaf before ordered done kind children beforeIH =>
      have := done.filled.start_le
      omega
  | core before ordered done kind children parts some_ beforeIH partsIH =>
      have := done.filled.start_le
      omega

/-- The times and the links of closed nodes lie within what they tile. -/
theorem bounds
    (tiles : forest.Tiles config above height start stop) :
    ∀ node ∈ forest.nodes,
      start ≤ node.start ∧ node.start ≤ stop + 1
        ∧ node.stop ≤ stop ∧ config.start ≤ node.stop := by
  induction tiles with
  | nil empty =>
      intro node member
      cases member
  | leaf before ordered done kind children beforeIH =>
      intro node member
      have first := before.start_le
      have last := done.filled.start_le
      have end_ := done.stop_eq
      have known := done.start_le_stop
      rcases List.mem_append.mp member with old | new
      · have := beforeIH node old
        omega
      · rw [List.mem_singleton.mp new]
        omega
  | core before ordered done kind children parts some_ beforeIH partsIH =>
      intro node member
      have first := before.start_le
      have last := done.filled.start_le
      have end_ := done.stop_eq
      have known := done.start_le_stop
      rcases List.mem_append.mp member with old | new
      · have := beforeIH node old
        omega
      · rcases List.mem_cons.mp new with rfl | lower
        · omega
        · have := partsIH node lower
          omega

/-- What closed nodes hold lies within what they tile. -/
theorem inside
    (tiles : forest.Tiles config above height start stop) :
    ∀ node ∈ forest.nodes, ∀ i ∈ node.intervals.toList, start ≤ i.start ∧ i.stop ≤ stop := by
  induction tiles with
  | nil empty =>
      intro node member
      cases member
  | leaf before ordered done kind children beforeIH =>
      intro node member i held
      have first := before.start_le
      have last := done.filled.start_le
      rcases List.mem_append.mp member with old | new
      · have := beforeIH node old i held
        omega
      · rw [List.mem_singleton.mp new] at held
        have := done.filled.inside i held
        omega
  | core before ordered done kind children parts some_ beforeIH partsIH =>
      intro node member i held
      have first := before.start_le
      have last := done.filled.start_le
      rcases List.mem_append.mp member with old | new
      · have := beforeIH node old i held
        omega
      · rcases List.mem_cons.mp new with rfl | lower
        · have := done.filled.inside i held
          omega
        · have := partsIH node lower i held
          omega

/-- The roots stand in the order of their starts. -/
theorem ordered
    (tiles : forest.Tiles config above height start stop) :
    forest.links.Pairwise fun link other => link.start ≤ other.start := by
  induction tiles with
  | nil empty => exact List.Pairwise.nil
  | leaf before first done kind children beforeIH => exact Node.ordered_concat beforeIH first
  | core before first done kind children parts some_ beforeIH partsIH =>
      exact Node.ordered_concat beforeIH first

/-- Closed nodes have room for what they hold, and their numbers lead to closed nodes. -/
theorem among
    (tiles : forest.Tiles config above height start stop) :
    ∀ node ∈ forest.nodes, node.Among config (some above) forest.nodes := by
  induction tiles with
  | nil empty =>
      intro node member
      cases member
  | leaf before ordered done kind children beforeIH =>
      intro node member
      rcases List.mem_append.mp member with old | new
      · exact (beforeIH node old).mono fun other => List.mem_append_left _
      · rw [List.mem_singleton.mp new]
        refine done.filled.among (fun _ => children) ?_ ?_
        · intro link linked
          rw [children] at linked
          cases linked
        · intro parent known
          exact Or.inl (done.parent.symm.trans known)
  | @core above height start stop older below root before ordered done kind children parts some_
      beforeIH partsIH =>
      have deeper : ∀ other ∈ below.nodes, other ∈ (snoc older root below).nodes :=
        fun other member => List.mem_append_right _ (List.mem_cons_of_mem _ member)
      intro node member
      rcases List.mem_append.mp member with old | new
      · exact (beforeIH node old).mono fun other => List.mem_append_left _
      · rcases List.mem_cons.mp new with rfl | lower
        · refine done.filled.among ?_ ?_ ?_
          · intro leaf
            rw [kind] at leaf
            cases leaf
          · intro link linked
            rw [children] at linked
            rcases exists_of_mem_links linked with ⟨child, childMember, same⟩
            exact ⟨child, deeper child childMember, same⟩
          · intro parent known
            exact Or.inl (done.parent.symm.trans known)
        · apply ((partsIH node lower).mono deeper).below
          exact ⟨root, List.mem_append_right _ List.mem_cons_self, rfl⟩

/-- The way down passes every node that holds an interval covering the instant. -/
theorem mem_way
    (tiles : forest.Tiles config above height start stop)
    {node : Node}
    {i : Interval}
    {t : Int}
    (member : node ∈ forest.nodes)
    (held : i ∈ node.intervals.toList)
    (covers : i.Covers t) :
    node ∈ forest.way t := by
  rcases covers with ⟨begun, lasting⟩
  induction tiles with
  | nil empty => cases member
  | leaf before ordered done kind children beforeIH =>
      unfold way
      rcases List.mem_append.mp member with old | new
      · have := before.inside node old i held
        rw [if_neg (by omega)]
        exact beforeIH old
      · rw [List.mem_singleton.mp new] at held ⊢
        have := done.filled.inside i held
        rw [if_pos (by omega)]
        exact List.mem_cons_self
  | core before ordered done kind children parts some_ beforeIH partsIH =>
      unfold way
      rcases List.mem_append.mp member with old | new
      · have := before.inside node old i held
        rw [if_neg (by omega)]
        exact beforeIH old
      · rcases List.mem_cons.mp new with rfl | lower
        · have := done.filled.inside i held
          rw [if_pos (by omega)]
          exact List.mem_cons_self
        · have := parts.inside node lower i held
          rw [if_pos (by omega)]
          exact List.mem_cons_of_mem _ (partsIH lower)

/-- A way down has at most one node on each level. -/
theorem length_way_le
    (tiles : forest.Tiles config above height start stop)
    (t : Int) :
    (forest.way t).length ≤ height + 1 := by
  induction tiles with
  | nil empty => exact Nat.zero_le _
  | leaf before ordered done kind children beforeIH =>
      unfold way
      split
      · exact Nat.le_refl _
      · exact beforeIH
  | core before ordered done kind children parts some_ beforeIH partsIH =>
      unfold way
      split
      · exact Nat.succ_le_succ partsIH
      · exact beforeIH

end Forest.Tiles

/-! ## The latest branch -/

namespace Spine

theorem nodes_perm
    (spine : Spine) :
    spine.nodes.Perm (spine.branch ++ spine.closed) := by
  induction spine with
  | leaf node => exact List.Perm.refl _
  | core node older next ih =>
      have moved : (older.nodes ++ next.nodes).Perm (next.branch ++ (older.nodes ++ next.closed)) :=
        (List.Perm.append_left older.nodes ih).trans (List.perm_append_comm_assoc _ _ _)
      exact moved.cons node

theorem mem_nodes_of_mem_branch
    {spine : Spine}
    {node : Node}
    (member : node ∈ spine.branch) :
    node ∈ spine.nodes :=
  spine.nodes_perm.mem_iff.mpr (List.mem_append_left _ member)

theorem mem_nodes_of_mem_closed
    {spine : Spine}
    {node : Node}
    (member : node ∈ spine.closed) :
    node ∈ spine.nodes :=
  spine.nodes_perm.mem_iff.mpr (List.mem_append_right _ member)

theorem top_mem_nodes
    (spine : Spine) :
    spine.top ∈ spine.nodes :=
  mem_nodes_of_mem_branch List.mem_cons_self

/-- The way down passes nodes of the tree, in their order. -/
theorem way_sublist
    (spine : Spine)
    (t : Int) :
    (spine.way t).Sublist spine.nodes := by
  induction spine with
  | leaf node => exact List.Sublist.refl _
  | core node older next ih =>
      unfold way nodes
      apply List.Sublist.cons_cons
      split
      · exact ih.trans (List.sublist_append_right _ _)
      · exact (older.way_sublist t).trans (List.sublist_append_left _ _)

namespace Sound

variable {config : Config} {above : Option Nat} {height : Nat} {stop : Int} {spine : Spine}

theorem top_filled
    (sound : spine.Sound config stop above height) :
    spine.top.Filled config stop := by
  cases sound with
  | leaf filled parent kind children => exact filled
  | core filled parent kind children tiles ordered rest => exact filled

theorem length_branch
    (sound : spine.Sound config stop above height) :
    spine.branch.length = height + 1 := by
  induction sound with
  | leaf filled parent kind children => rfl
  | core filled parent kind children tiles ordered rest ih => exact congrArg Nat.succ ih

/-- A tree stays sound as time goes on. -/
theorem mono
    {later : Int}
    (sound : spine.Sound config stop above height)
    (le : stop ≤ later) :
    spine.Sound config later above height := by
  induction sound with
  | leaf filled parent kind children => exact .leaf (filled.mono le) parent kind children
  | core filled parent kind children tiles ordered rest ih =>
      exact .core (filled.mono le) parent kind children tiles ordered ih

/-- What a tree holds lies between its start and its stop. -/
theorem inside
    (sound : spine.Sound config stop above height) :
    ∀ node ∈ spine.nodes, ∀ i ∈ node.intervals.toList,
      spine.top.start ≤ i.start ∧ i.stop ≤ stop := by
  induction sound with
  | leaf filled parent kind children =>
      intro node member i held
      rw [List.mem_singleton.mp member] at held
      exact filled.inside i held
  | core filled parent kind children tiles ordered rest ih =>
      intro node member i held
      have begun := tiles.start_le
      have ends := rest.top_filled.start_le
      rcases List.mem_cons.mp member with rfl | lower
      · exact filled.inside i held
      · rcases List.mem_append.mp lower with old | new
        · have := tiles.inside node old i held
          simp only [top]
          omega
        · have := ih node new i held
          simp only [top]
          omega

/-- No node begins before the uppermost one. -/
theorem start_ge
    (sound : spine.Sound config stop above height) :
    ∀ node ∈ spine.nodes, spine.top.start ≤ node.start := by
  induction sound with
  | leaf filled parent kind children =>
      intro node member
      rw [List.mem_singleton.mp member]
      exact Int.le_refl _
  | core filled parent kind children tiles ordered rest ih =>
      intro node member
      have begun := tiles.start_le
      rcases List.mem_cons.mp member with rfl | lower
      · exact Int.le_refl _
      · rcases List.mem_append.mp lower with old | new
        · exact (tiles.bounds node old).1
        · have := ih node new
          simp only [top]
          omega

/-- A closed node begins and ends before some node of the branch begins. -/
theorem closed_bounds
    (sound : spine.Sound config stop above height) :
    ∀ node ∈ spine.closed, config.start ≤ node.stop
      ∧ ∃ open_ ∈ spine.branch, node.start ≤ open_.start ∧ node.stop < open_.start := by
  induction sound with
  | leaf filled parent kind children =>
      intro node member
      cases member
  | @core above height node older next filled parent kind children tiles ordered rest ih =>
      intro closed member
      have begun := tiles.start_le
      rcases List.mem_append.mp member with old | new
      · have bounds := tiles.bounds closed old
        refine ⟨bounds.2.2.2, next.top, ?_, by omega, by omega⟩
        exact List.mem_cons_of_mem _ List.mem_cons_self
      · rcases ih closed new with ⟨known, open_, openMember, before⟩
        exact ⟨known, open_, List.mem_cons_of_mem _ openMember, before⟩

/-- Every node has room for what it holds, and its numbers lead to other nodes of the tree. -/
theorem among
    (sound : spine.Sound config stop above height) :
    ∀ node ∈ spine.nodes, node.Among config above spine.nodes := by
  induction sound with
  | leaf filled parent kind children =>
      intro node member
      rw [List.mem_singleton.mp member]
      refine filled.among (fun _ => children) ?_ fun above known => Or.inl (parent.symm.trans known)
      intro link linked
      rw [children] at linked
      cases linked
  | @core above height top older next filled parent kind children tiles ordered rest ih =>
      have inOlder : ∀ other ∈ older.nodes, other ∈ (Spine.core top older next).nodes :=
        fun other member => List.mem_cons_of_mem _ (List.mem_append_left _ member)
      have inNext : ∀ other ∈ next.nodes, other ∈ (Spine.core top older next).nodes :=
        fun other member => List.mem_cons_of_mem _ (List.mem_append_right _ member)
      have topKnown : ∃ other ∈ (Spine.core top older next).nodes, other.seq = top.seq :=
        ⟨top, List.mem_cons_self, rfl⟩
      intro node member
      rcases List.mem_cons.mp member with rfl | lower
      · refine filled.among ?_ ?_ fun above known => Or.inl (parent.symm.trans known)
        · intro leaf
          rw [kind] at leaf
          cases leaf
        · intro link linked
          rw [children] at linked
          rcases List.mem_append.mp linked with old | new
          · rcases Forest.exists_of_mem_links old with ⟨child, childMember, same⟩
            exact ⟨child, inOlder child childMember, same⟩
          · exact ⟨next.top, inNext _ next.top_mem_nodes, (List.mem_singleton.mp new).symm⟩
      · rcases List.mem_append.mp lower with old | new
        · exact ((tiles.among node old).mono inOlder).below topKnown
        · exact ((ih node new).mono inNext).below topKnown

/-- The way down passes every node that holds an interval covering the instant. -/
theorem mem_way
    (sound : spine.Sound config stop above height)
    {node : Node}
    {i : Interval}
    {t : Int}
    (member : node ∈ spine.nodes)
    (held : i ∈ node.intervals.toList)
    (covers : i.Covers t) :
    node ∈ spine.way t := by
  induction sound with
  | leaf filled parent kind children => exact member
  | core filled parent kind children tiles ordered rest ih =>
      unfold way
      rcases List.mem_cons.mp member with rfl | lower
      · exact List.mem_cons_self
      · apply List.mem_cons_of_mem
        rcases List.mem_append.mp lower with old | new
        · have early := tiles.inside node old i held
          have lasting := covers.2
          rw [if_neg (by omega)]
          exact tiles.mem_way old held covers
        · have late := rest.inside node new i held
          have begun := covers.1
          rw [if_pos (by omega)]
          exact ih new

theorem length_way_le
    (sound : spine.Sound config stop above height)
    (t : Int) :
    (spine.way t).length ≤ height + 1 := by
  induction sound with
  | leaf filled parent kind children => exact Nat.le_refl _
  | core filled parent kind children tiles ordered rest ih =>
      unfold way
      rw [List.length_cons]
      split
      · omega
      · have := tiles.length_way_le t
        omega

end Sound

end Spine

end Chronicle.Tree
