import Chronicle.Proofs.Backend.Stage
import Chronicle.Proofs.Matching
import Chronicle.Proofs.Tree.Damage

/-!
# Trees that cannot be told apart

A node of the latest branch is closed before it is written, whatever its end
was.  So the ends of the latest branch do not count: two trees whose branches
differ in them alone, over files that keep the same closed nodes, say the same
to whatever they are told or asked, and stay such trees.
-/

namespace Chronicle.Tree

namespace Node

/-- The node as it would be if it had never been closed. -/
def opened (node : Node) : Node :=
  { node with stop := node.start, closed := false }

@[simp]
theorem start_opened (node : Node) : node.opened.start = node.start := rfl

@[simp]
theorem opened_close
    (node : Node)
    (stop : Int) :
    (node.close stop).opened = node.opened := rfl

@[simp]
theorem close_opened
    (node : Node)
    (stop : Int) :
    node.opened.close stop = node.close stop := rfl

variable {node other : Node}

theorem start_of_opened_eq
    (same : other.opened = node.opened) :
    other.start = node.start := by
  show other.opened.start = node.opened.start
  rw [same]

theorem seq_of_opened_eq
    (same : other.opened = node.opened) :
    other.seq = node.seq := by
  show other.opened.seq = node.opened.seq
  rw [same]

theorem children_of_opened_eq
    (same : other.opened = node.opened) :
    other.children = node.children := by
  show other.opened.children = node.opened.children
  rw [same]

theorem kind_of_opened_eq
    (same : other.opened = node.opened) :
    other.kind = node.kind := by
  show other.opened.kind = node.opened.kind
  rw [same]

theorem childAt?_of_opened_eq
    (same : other.opened = node.opened)
    (t : Int) :
    other.childAt? t = node.childAt? t := by
  unfold childAt?
  rw [children_of_opened_eq same]

/-- Whether a node is sturdy does not depend on its end. -/
theorem Sturdy.of_opened_eq
    {config : Config}
    {count : Nat}
    {level : Nat → Nat}
    (sturdy : node.Sturdy config count level)
    (same : other.opened = node.opened) :
    other.Sturdy config count level := by
  rcases node with ⟨kind, seq, parent, start, stop, closed, intervals, children⟩
  rcases other with ⟨_, _, _, _, stop', closed', _, _⟩
  cases same
  exact ⟨sturdy.seq_lt, sturdy.parent_lt, sturdy.start_ge, sturdy.start_le, sturdy.links,
    sturdy.intervals, sturdy.fan, sturdy.leaf, sturdy.room⟩

end Node

/-! ## Branches -/

namespace Branch

theorem map_opened_close
    (nodes : List Node)
    (stop : Int) :
    (nodes.map fun node => node.close stop).map Node.opened = nodes.map Node.opened := by
  rw [List.map_map]
  rfl

/-- Branches that differ in their ends alone are the same once they are closed. -/
theorem map_close_of_opened_eq
    {nodes others : List Node}
    (same : others.map Node.opened = nodes.map Node.opened)
    (stop : Int) :
    (others.map fun node => node.close stop) = nodes.map fun node => node.close stop := by
  have absorbs : ∀ list : List Node, (list.map fun node => node.close stop)
      = (list.map Node.opened).map fun node => node.close stop := by
    intro list
    rw [List.map_map]
    rfl
  rw [absorbs others, same, ← absorbs]

theorem map_seq_of_opened_eq
    {nodes others : List Node}
    (same : others.map Node.opened = nodes.map Node.opened) :
    others.map (·.seq) = nodes.map (·.seq) := by
  have seqs : ∀ list : List Node, list.map (·.seq) = (list.map Node.opened).map (·.seq) := by
    intro list
    rw [List.map_map]
    rfl
  rw [seqs others, same, ← seqs]

theorem length_of_opened_eq
    {nodes others : List Node}
    (same : others.map Node.opened = nodes.map Node.opened) :
    others.length = nodes.length := by
  rw [← List.length_map Node.opened, same, List.length_map]

/-- What became of a branch, as if no node of it had ever been closed. -/
def Placement.opened (placed : Placement) : Placement :=
  { placed with branch := placed.branch.map Node.opened }

theorem sprout_opened
    (start : Int)
    (depth : Nat)
    (top : Node)
    (seq : Nat) :
    sprout start depth top.opened seq = (sprout start depth top seq).map Node.opened := by
  induction depth generalizing top seq with
  | zero => rfl
  | succ depth ih =>
      rw [sprout, sprout, List.map_cons, ← ih]
      rfl

theorem offer_opened
    (config : Config)
    (i : Interval)
    (node : Node) :
    offer config i node.opened = (offer config i node).opened := by
  by_cases fits : Fits config node i
  · have still : Fits config node.opened i := fits
    rw [offer, offer, if_pos fits, if_pos still]
    rfl
  · have still : ¬ Fits config node.opened i := fits
    rw [offer, offer, if_neg fits, if_neg still]

theorem adopt_opened
    (seq : Nat)
    (branch : List Node) :
    adopt seq (branch.map Node.opened) = (adopt seq branch).map Node.opened := by
  cases branch with
  | nil => rfl
  | cons top below => rfl

/-- Room is found in the same place whatever the ends of a branch are. -/
theorem settle_opened
    (config : Config)
    (split : Int)
    (i : Interval)
    (nodeCount : Nat)
    (top : Node)
    (below : List Node) :
    settle config split i nodeCount top.opened (below.map Node.opened)
      = (settle config split i nodeCount top below).opened := by
  induction below generalizing top with
  | nil =>
      rw [List.map_nil, settle, settle, offer_opened]
      rfl
  | cons next rest ih =>
      rw [List.map_cons, settle, settle, ih, Node.start_opened]
      generalize settle config split i nodeCount next rest = found
      by_cases early : next.start ≤ i.start
      · rw [if_pos early, if_pos early]
        dsimp only [Placement.opened]
        by_cases held : found.held = true
        · rw [if_pos held, if_pos held]
          rfl
        · rw [if_neg held, if_neg held]
          by_cases roomy : top.children.size < config.maxChildren
          · rw [if_pos roomy, if_pos (show top.opened.children.size < _ from roomy),
              List.length_map, offer_opened, sprout_opened, List.map_map]
            rfl
          · rw [if_neg roomy, if_neg (show ¬ top.opened.children.size < _ from roomy)]
            rfl
      · rw [if_neg early, if_neg early, offer_opened]
        rfl

/-- So it is if a new root is put above. -/
theorem place_opened
    (config : Config)
    (split : Int)
    (i : Interval)
    (nodeCount : Nat)
    (root : Node)
    (below : List Node) :
    place config split i nodeCount root.opened (below.map Node.opened)
      = (place config split i nodeCount root below).opened := by
  rw [place, place, settle_opened]
  rcases settle config split i nodeCount root below with ⟨held, branch, closed, count⟩
  cases held with
  | true => rfl
  | false =>
      simp only [Placement.opened, Bool.false_eq_true, if_false, List.length_map, adopt_opened,
        List.map_map, ← sprout_opened]
      rfl

/-- Branches that differ in their ends alone make the same of an interval, but for such ends. -/
theorem place_of_opened_eq
    {root root' : Node}
    {below below' : List Node}
    (sameRoot : root'.opened = root.opened)
    (sameBelow : below'.map Node.opened = below.map Node.opened)
    (config : Config)
    (split : Int)
    (i : Interval)
    (nodeCount : Nat) :
    (place config split i nodeCount root' below').opened
      = (place config split i nodeCount root below).opened := by
  rw [← place_opened, sameRoot, sameBelow, place_opened]

/-- Whether a branch is sturdy does not depend on its ends. -/
theorem Chain.of_opened_eq
    {config : Config}
    {count : Nat}
    {level : Nat → Nat}
    {branch other : List Node}
    (chain : Chain config count level branch)
    (same : other.map Node.opened = branch.map Node.opened) :
    Chain config count level other := by
  induction chain generalizing other with
  | leaf sturdy low childless =>
      rcases List.map_eq_cons_iff.mp same with ⟨node', rest', rfl, sameNode, sameRest⟩
      cases List.map_eq_nil_iff.mp sameRest
      refine .leaf (sturdy.of_opened_eq sameNode) ?_ ?_
      · rw [Node.seq_of_opened_eq sameNode]
        exact low
      · rw [Node.children_of_opened_eq sameNode]
        exact childless
  | core sturdy kind high below ih =>
      rcases List.map_eq_cons_iff.mp same with ⟨node', below', rfl, sameNode, sameBelow⟩
      have lower := ih sameBelow
      rcases List.map_eq_cons_iff.mp sameBelow with ⟨next', rest', rfl, -, sameRest⟩
      refine .core (sturdy.of_opened_eq sameNode) ?_ ?_ lower
      · rw [Node.kind_of_opened_eq sameNode]
        exact kind
      · rw [Node.seq_of_opened_eq sameNode, length_of_opened_eq sameRest]
        exact high

end Branch

/-! ## Ways -/

/-- A way leads through nodes with other ends as well. -/
theorem Node.Way.of_opened_eq
    {t : Int}
    {nodes others : List Node}
    (way : Node.Way t nodes)
    (same : others.map Node.opened = nodes.map Node.opened) :
    Node.Way t others := by
  induction way generalizing others with
  | leaf kind =>
      rcases List.map_eq_cons_iff.mp same with ⟨node', rest', rfl, sameNode, sameRest⟩
      cases List.map_eq_nil_iff.mp sameRest
      exact .leaf ((Node.kind_of_opened_eq sameNode).trans kind)
  | last childless =>
      rcases List.map_eq_cons_iff.mp same with ⟨node', rest', rfl, sameNode, sameRest⟩
      cases List.map_eq_nil_iff.mp sameRest
      exact .last ((Node.childAt?_of_opened_eq sameNode t).trans childless)
  | step kind child way ih =>
      rcases List.map_eq_cons_iff.mp same with ⟨node', below', rfl, sameNode, sameBelow⟩
      have onward := ih sameBelow
      rcases List.map_eq_cons_iff.mp sameBelow with ⟨next', rest', rfl, sameNext, -⟩
      refine .step ((Node.kind_of_opened_eq sameNode).trans kind) ?_ onward
      rw [Node.childAt?_of_opened_eq sameNode, child, Node.seq_of_opened_eq sameNext]

/-- What does not look at the ends of nodes gathers the same from nodes with other ends. -/
theorem gatherFrom_of_opened_eq
    {α : Type}
    {visit : Node → α → α}
    {enough : α → Bool}
    {nodes others : List Node}
    (heedless : ∀ (node : Node) (gathered : α), visit node.opened gathered = visit node gathered)
    (same : others.map Node.opened = nodes.map Node.opened)
    (gathered : α) :
    gatherFrom visit enough others gathered = gatherFrom visit enough nodes gathered := by
  induction nodes generalizing others gathered with
  | nil =>
      cases List.map_eq_nil_iff.mp same
      rfl
  | cons node rest ih =>
      rcases List.map_eq_cons_iff.mp same with ⟨node', rest', rfl, sameNode, sameRest⟩
      have visited : visit node' gathered = visit node gathered := by
        rw [← heedless node', sameNode, heedless]
      show (if enough (visit node' gathered) then _ else gatherFrom visit enough rest' _) = _
      rw [visited, ih sameRest]
      rfl

/-- Nodes are found one by one among others if each of them is. -/
theorem exists_map_opened_eq
    {nodes others : List Node}
    (each : ∀ node ∈ nodes, ∃ other ∈ others, other.opened = node.opened) :
    ∃ found : List Node,
      found.map Node.opened = nodes.map Node.opened ∧ ∀ node ∈ found, node ∈ others := by
  induction nodes with
  | nil => exact ⟨[], rfl, fun node member => by cases member⟩
  | cons node rest ih =>
      rcases each node List.mem_cons_self with ⟨other, member, same⟩
      rcases ih fun node inside => each node (List.mem_cons_of_mem _ inside) with
        ⟨found, sameRest, members⟩
      refine ⟨other :: found, ?_, List.forall_mem_cons.mpr ⟨member, members⟩⟩
      rw [List.map_cons, List.map_cons, same, sameRest]

/-! ## Doubles -/

/-- The tree as it would be if it had not been finished. -/
def ongoing (tree : Tree) : Tree :=
  { tree with finished := false }

/-- Trees that differ in which nodes are at hand, and in the ends of their branches. -/
structure Resembles (other tree : Tree) : Prop where
  config : other.config = tree.config
  branch : other.branch.map Node.opened = tree.branch.map Node.opened
  rootSeq : other.rootSeq = tree.rootSeq
  nodeCount : other.nodeCount = tree.nodeCount
  stop : other.stop = tree.stop
  finished : other.finished = tree.finished

/-- Sturdy trees, finished or not, that resemble each other and have the same nodes in their files. -/
structure Doubles (s' s : Placed Tree) : Prop where
  resembles : s'.subject.Resembles s.subject
  nodes : ∃ level closed,
    Sturdy ⟨s.volume, s.subject.ongoing⟩ level closed
      ∧ NodeFile.Keeps ⟨s'.volume, s'.subject.io⟩ closed

theorem Sturdy.of_resembles
    {s s' : Placed Tree}
    {level : Nat → Nat}
    {closed : List Node}
    (sturdy : Sturdy ⟨s.volume, s.subject.ongoing⟩ level closed)
    (resembles : s'.subject.Resembles s.subject)
    (keeps : NodeFile.Keeps ⟨s'.volume, s'.subject.io⟩ closed) :
    Sturdy ⟨s'.volume, s'.subject.ongoing⟩ level closed := by
  rcases resembles with ⟨config, branch, rootSeq, nodeCount, stop, -⟩
  have seqs := Branch.map_seq_of_opened_eq branch
  constructor
  · rfl
  · show Branch.Chain s'.subject.config s'.subject.nodeCount level s'.subject.branch
    rw [config, nodeCount]
    exact sturdy.chain.of_opened_eq branch
  · show ∀ node ∈ closed, node.Ended s'.subject.config s'.subject.nodeCount level
    rw [config, nodeCount]
    exact sturdy.ended
  · exact keeps
  · show ((s'.subject.branch ++ closed).map (·.seq)).Perm (List.range s'.subject.nodeCount)
    rw [List.map_append, seqs, nodeCount, ← List.map_append]
    exact sturdy.numbered
  · show s'.subject.branch.head?.map (·.seq) = some s'.subject.rootSeq
    rw [← List.head?_map, seqs, rootSeq, List.head?_map]
    exact sturdy.root
  · show s'.subject.config.start ≤ s'.subject.stop
    rw [config, stop]
    exact sturdy.begun

namespace Sturdy

variable {s : Placed Tree} {level : Nat → Nat} {closed : List Node}

/-- All nodes of a sturdy tree are found by their numbers, also once it is finished. -/
theorem shows_
    (sturdy : Sturdy ⟨s.volume, s.subject.ongoing⟩ level closed)
    (inRange : s.subject.InRange) :
    Shows s closed (s.subject.branch ++ closed) where
  distinct node member other otherMember same :=
    List.inj_on_of_nodup_map (sturdy.numbered.nodup_iff.mpr List.nodup_range) member otherMember
      same
  branch node member := List.mem_append_left _ member
  keeps := sturdy.file
  found node member := by
    rcases List.mem_append.mp member with atHand | inFile
    · exact Or.inl atHand
    · have ended := sturdy.ended node inFile
      exact Or.inr ⟨inFile, ended.sturdy.storable inRange.few inRange.start_ge
        (Int.le_trans inRange.start_ge ended.stop_ge) ended.stop_le⟩

theorem ongoing
    (sturdy : Sturdy s level closed) :
    Sturdy ⟨s.volume, s.subject.ongoing⟩ level closed :=
  ⟨rfl, sturdy.chain, sturdy.ended, sturdy.file, sturdy.numbered, sturdy.root, sturdy.begun⟩

theorem of_ongoing
    (sturdy : Sturdy ⟨s.volume, s.subject.ongoing⟩ level closed)
    (unfinished : s.subject.finished = false) :
    Sturdy s level closed :=
  ⟨unfinished, sturdy.chain, sturdy.ended, sturdy.file, sturdy.numbered, sturdy.root,
    sturdy.begun⟩

theorem linked
    (sturdy : Sturdy s level closed) :
    Linked level (s.subject.branch ++ closed) := by
  intro node member link inside
  have lasting : node.Sturdy s.subject.config s.subject.nodeCount level := by
    rcases List.mem_append.mp member with atHand | inFile
    · exact sturdy.chain.sturdy atHand
    · exact (sturdy.ended node inFile).sturdy
  rcases lasting.links link inside with ⟨⟨known, lower⟩, -⟩
  exact ⟨lower, List.mem_map.mp (sturdy.numbered.mem_iff.mpr (List.mem_range.mpr known))⟩

/-- From the root of a sturdy tree a way leads down that is no longer than its branch. -/
theorem exists_way
    (sturdy : Sturdy s level closed)
    (t : Int) :
    ∃ root below rest,
      s.subject.branch = root :: below
        ∧ Node.Way t (root :: rest)
        ∧ (∀ node ∈ root :: rest, node ∈ s.subject.branch ++ closed)
        ∧ rest.length ≤ below.length := by
  rcases sturdy.exists_root with ⟨root, below, branch, -, -⟩
  have member : root ∈ s.subject.branch ++ closed :=
    List.mem_append_left _ (branch ▸ List.mem_cons_self)
  have chain := sturdy.chain
  rw [branch] at chain
  rcases sturdy.linked.exists_way t member with ⟨rest, way, members, short⟩
  rw [chain.level_top] at short
  exact ⟨root, below, rest, branch, way, members, short⟩

/-- A descent in a sturdy tree gathers from the nodes on a way down from its root. -/
theorem descendFromRoot
    {α : Type}
    {visit : Node → α → α}
    {t : Int}
    {root : Node}
    {below rest : List Node}
    (sturdy : Sturdy ⟨s.volume, s.subject.ongoing⟩ level closed)
    (enough : α → Bool)
    (inRange : s.subject.InRange)
    (faithful : ∀ (node : Node) (gathered : α), visit node.reread gathered = visit node gathered)
    (branch : s.subject.branch = root :: below)
    (way : Node.Way t (root :: rest))
    (members : ∀ node ∈ root :: rest, node ∈ s.subject.branch ++ closed)
    (short : rest.length ≤ below.length)
    (gathered : α) :
    ∃ cache,
      Tree.descendFromRoot t visit enough gathered s
          = .ok (gatherFrom visit enough (root :: rest) gathered)
            ⟨s.volume, s.subject.withCache cache⟩
        ∧ NodeFile.Keeps ⟨s.volume, (s.subject.withCache cache).io⟩ closed := by
  have atTop : Tree.root s = .ok root s := by
    unfold Tree.root
    rw [Step.subject_bind_apply, branch]
    rfl
  have fueled : rest.length < s.subject.descentBound s.volume := by
    unfold descentBound
    rw [branch, List.length_cons]
    omega
  rcases (sturdy.shows_ inRange).descend way members rfl faithful fueled gathered with
    ⟨cache, answered, kept⟩
  refine ⟨cache, ?_, kept.keeps⟩
  unfold Tree.descendFromRoot
  rw [Step.subject_bind_apply, Step.volume_bind_apply, Step.bind_of_ok atTop]
  exact answered

/-- A later end does not matter to a sturdy tree. -/
theorem raise
    {stop : Int}
    (sturdy : Sturdy ⟨s.volume, s.subject.ongoing⟩ level closed)
    (late : s.subject.stop ≤ stop) :
    Sturdy ⟨s.volume, ({ s.subject with stop } : Tree).ongoing⟩ level closed :=
  ⟨rfl, sturdy.chain, sturdy.ended, sturdy.file, sturdy.numbered, sturdy.root,
    Int.le_trans sturdy.begun late⟩

/-- A sturdy tree stays sturdy when its latest branch ends, whatever else is in the file. -/
theorem ending
    {last : Int}
    {volume : Volume}
    {cache : NodeCache}
    (sturdy : Sturdy s level closed)
    (late : s.subject.stop ≤ last)
    (keeps : NodeFile.Keeps ⟨volume, (s.subject.withCache cache).io⟩ closed) :
    Sturdy ⟨volume, (s.subject.ending last).withCache cache⟩ level closed := by
  have same := Branch.map_opened_close s.subject.branch last
  refine ⟨sturdy.unfinished, sturdy.chain.of_opened_eq same, sturdy.ended, keeps, ?_, ?_,
    Int.le_trans sturdy.begun late⟩
  · show (((s.subject.branch.map fun node => node.close last) ++ closed).map (·.seq)).Perm _
    rw [List.map_append, Branch.map_seq_of_opened_eq same, ← List.map_append]
    exact sturdy.numbered
  · show (s.subject.branch.map fun node => node.close last).head?.map (·.seq) = _
    rw [← List.head?_map, Branch.map_seq_of_opened_eq same, List.head?_map]
    exact sturdy.root

end Sturdy

namespace Resembles

variable {other tree : Tree}

theorem refl (tree : Tree) : tree.Resembles tree :=
  ⟨rfl, rfl, rfl, rfl, rfl, rfl⟩

theorem withCache
    (resembles : other.Resembles tree)
    (cache cache' : NodeCache) :
    (other.withCache cache').Resembles (tree.withCache cache) :=
  ⟨resembles.config, resembles.branch, resembles.rootSeq, resembles.nodeCount, resembles.stop,
    resembles.finished⟩

theorem inRange
    (resembles : other.Resembles tree)
    (inRange : tree.InRange) :
    other.InRange where
  few := by
    rw [resembles.nodeCount]
    exact inRange.few
  started node member := by
    have known := List.mem_map_of_mem (f := Node.opened) member
    rw [resembles.branch] at known
    rcases List.mem_map.mp known with ⟨old, oldMember, same⟩
    rw [← Node.start_of_opened_eq same]
    exact inRange.started old oldMember
  start_ge := by
    rw [resembles.config]
    exact inRange.start_ge
  stop_le := by
    rw [resembles.stop]
    exact inRange.stop_le

theorem raise
    (resembles : other.Resembles tree)
    (stop : Int) :
    ({ other with stop } : Tree).Resembles { tree with stop } :=
  ⟨resembles.config, resembles.branch, resembles.rootSeq, resembles.nodeCount, rfl,
    resembles.finished⟩

/-- Trees that resemble each other still do when their branches end at one time. -/
theorem ending
    (resembles : other.Resembles tree)
    (last : Int)
    (cache cache' : NodeCache) :
    ((other.ending last).withCache cache').Resembles ((tree.ending last).withCache cache) := by
  refine ⟨resembles.config, ?_, resembles.rootSeq, resembles.nodeCount, rfl, resembles.finished⟩
  show (other.branch.map fun node => node.close last).map Node.opened
    = (tree.branch.map fun node => node.close last).map Node.opened
  rw [Branch.map_close_of_opened_eq resembles.branch]

/-- So they do when a place was found for the same interval. -/
theorem placing
    {placed placed' : Branch.Placement}
    (resembles : other.Resembles tree)
    (same : placed'.opened = placed.opened)
    (stop : Int)
    (cache cache' : NodeCache) :
    ((other.placing stop placed').withCache cache').Resembles
      ((tree.placing stop placed).withCache cache) := by
  rcases Branch.Placement.mk.inj same with ⟨-, branch, -, nodeCount⟩
  refine ⟨resembles.config, branch, ?_, nodeCount, rfl, resembles.finished⟩
  show (placed'.branch.head?.map (·.seq)).getD other.rootSeq
    = (placed.branch.head?.map (·.seq)).getD tree.rootSeq
  rw [← List.head?_map, Branch.map_seq_of_opened_eq branch, resembles.rootSeq, List.head?_map]

end Resembles

namespace Doubles

variable {s s' : Placed Tree}

/-- A sturdy tree is a double of itself. -/
theorem refl
    {level : Nat → Nat}
    {closed : List Node}
    (sturdy : Sturdy s level closed) :
    Doubles s s := by
  exact ⟨.refl s.subject, level, closed, sturdy.ongoing, sturdy.file⟩

/-- Doubles say the same to whatever is gathered on a way down. -/
theorem descendFromRoot
    {α : Type}
    {visit : Node → α → α}
    {enough : α → Bool}
    {t : Int}
    (doubles : Doubles s' s)
    (inRange : s.subject.InRange)
    (faithful : ∀ (node : Node) (gathered : α), visit node.reread gathered = visit node gathered)
    (heedless : ∀ (node : Node) (gathered : α), visit node.opened gathered = visit node gathered)
    (gathered : α) :
    Step.Matched Doubles
      (Tree.descendFromRoot t visit enough gathered s')
      (Tree.descendFromRoot t visit enough gathered s) := by
  rcases doubles with ⟨resembles, level, closed, sturdy, keeps⟩
  have sturdy' := sturdy.of_resembles resembles keeps
  rcases sturdy.exists_way t with ⟨root, below, rest, branch, way, members, short⟩
  have sameBranch := resembles.branch
  rw [show s.subject.branch = root :: below from branch] at sameBranch
  rcases List.map_eq_cons_iff.mp sameBranch with ⟨root', below', branch', sameRoot, sameBelow⟩
  have sameNodes : (s'.subject.branch ++ closed).map Node.opened
      = (s.subject.branch ++ closed).map Node.opened := by
    rw [List.map_append, resembles.branch, List.map_append]
  have among : ∀ node ∈ rest, ∃ other ∈ s'.subject.branch ++ closed,
      other.opened = node.opened := by
    intro node inside
    rw [← List.mem_map, sameNodes]
    exact List.mem_map_of_mem (members node (List.mem_cons_of_mem _ inside))
  rcases exists_map_opened_eq among with ⟨rest', sameRest, members'⟩
  have sameWay : (root' :: rest').map Node.opened = (root :: rest).map Node.opened := by
    rw [List.map_cons, List.map_cons, sameRoot, sameRest]
  have rootMember : root' ∈ s'.subject.branch ++ closed :=
    List.mem_append_left _ (branch' ▸ List.mem_cons_self)
  have short' : rest'.length ≤ below'.length := by
    rw [Branch.length_of_opened_eq sameRest, Branch.length_of_opened_eq sameBelow]
    exact short
  rcases sturdy.descendFromRoot enough inRange faithful branch way members short gathered
    with ⟨cache, answered, kept⟩
  rcases sturdy'.descendFromRoot enough (resembles.inRange inRange) faithful branch'
    (way.of_opened_eq sameWay) (List.forall_mem_cons.mpr ⟨rootMember, members'⟩) short'
    gathered with ⟨cache', answered', kept'⟩
  rw [answered, answered', gatherFrom_of_opened_eq heedless sameWay]
  refine .ok _ ⟨resembles.withCache cache cache', level, closed, ?_, kept'⟩
  exact ⟨sturdy.unfinished, sturdy.chain, sturdy.ended, kept, sturdy.numbered, sturdy.root,
    sturdy.begun⟩

/-- Doubles stay such when their ends are raised. -/
theorem raise
    {stop : Int}
    (doubles : Doubles s' s)
    (late : s.subject.stop ≤ stop) :
    Doubles ⟨s'.volume, { s'.subject with stop }⟩ ⟨s.volume, { s.subject with stop }⟩ := by
  rcases doubles with ⟨resembles, level, closed, sturdy, keeps⟩
  exact ⟨resembles.raise stop, level, closed, sturdy.raise late, keeps⟩

/-- Doubles find the same place for an interval and close the same nodes. -/
theorem place
    {i : Interval}
    {root root' : Node}
    {below below' : List Node}
    (doubles : Doubles s' s)
    (unfinished : s.subject.finished = false)
    (inRange : s.subject.InRange)
    (numbered : 0 ≤ i.quark ∧ i.quark < 2147483648)
    (branch : s.subject.branch = root :: below)
    (branch' : s'.subject.branch = root' :: below')
    (small : ¬ s.subject.maxIntervalSize < i.encodedSize)
    (started : ¬ i.start < root.start) :
    let split := max s.subject.stop i.stop
    let placed := Branch.place s.subject.config split i s.subject.nodeCount root below
    let placed' := Branch.place s.subject.config split i s.subject.nodeCount root' below'
    (s.subject.placing split placed).InRange →
    Step.Matched Doubles
      (writeNodes placed'.closed ⟨s'.volume, s'.subject.placing split placed'⟩)
      (writeNodes placed.closed ⟨s.volume, s.subject.placing split placed⟩) := by
  intro split placed placed' fits
  rcases doubles with ⟨resembles, level, closed, finishable, keeps⟩
  have sturdy := finishable.of_ongoing unfinished
  have sameBranch := resembles.branch
  have numberedNow := sturdy.numbered
  rw [branch] at numberedNow sameBranch
  rw [branch'] at sameBranch
  rcases List.cons.inj sameBranch with ⟨sameRoot, sameBelow⟩
  have same : placed'.opened = placed.opened :=
    Branch.place_of_opened_eq sameRoot sameBelow _ _ _ _
  have sameClosed : placed'.closed = placed.closed := congrArg (fun p => p.closed) same
  rcases sturdy.exists_firm inRange.start_ge numbered branch (Nat.not_lt.mp small)
    (Int.not_lt.mp started) fits with ⟨other, sameLevel, firm⟩
  have recounted := Branch.numbered_place numberedNow s.subject.config split i
  rcases sturdy.exists_writeNodes (Int.le_max_left _ _) firm sameLevel
    (Branch.seqs_place _ _ _ _ _ _).1 recounted with ⟨volume, cache, wrote, lasting⟩
  have room : ∀ node ∈ placed.closed, node.usedBytes ≤ node.kind.capacity s'.subject.config := by
    rw [resembles.config]
    exact fun node member => (firm.ended node member).sturdy.room
  have distinct : ((closed ++ placed.closed).map (·.seq)).Nodup := by
    have nodup := recounted.nodup_iff.mpr List.nodup_range
    rw [List.map_append] at nodup
    exact (List.nodup_append.mp nodup).2.1
  have file : NodeFile.Keeps ⟨s'.volume, (s'.subject.placing split placed').io⟩ closed := keeps
  rcases writeNodes_of_keeps (s := ⟨s'.volume, s'.subject.placing split placed'⟩) file room
    distinct with ⟨volume', cache', wrote', written⟩
  rw [sameClosed, wrote', wrote]
  exact .ok () ⟨resembles.placing same split cache cache', other, closed ++ placed.closed,
    lasting.ongoing, written⟩

/-- Doubles take and refuse the same intervals. -/
theorem insert
    {i : Interval}
    (doubles : Doubles s' s)
    (inRange : s.subject.InRange)
    (numbered : 0 ≤ i.quark ∧ i.quark < 2147483648)
    (later : ((Tree.insert i).reached s).subject.InRange) :
    Step.Matched Doubles (Tree.insert i s') (Tree.insert i s) := by
  have resembles := doubles.resembles
  have sameMax : s'.subject.maxIntervalSize = s.subject.maxIntervalSize := by
    unfold maxIntervalSize
    rw [resembles.config]
  by_cases finished : s.subject.finished = true
  · rw [insert_of_finished finished, insert_of_finished (resembles.finished.trans finished)]
    exact .error _ doubles
  have unfinished := eq_false_of_ne_true finished
  have unfinished' := resembles.finished.trans unfinished
  by_cases large : s.subject.maxIntervalSize < i.encodedSize
  · rw [insert_of_large unfinished large, insert_of_large unfinished' (sameMax ▸ large), sameMax]
    exact .error _ doubles
  rcases doubles.nodes with ⟨level, closed, sturdy, -⟩
  rcases sturdy.exists_root with ⟨root, below, branch, -, -⟩
  have sameBranch := resembles.branch
  rw [show s.subject.branch = root :: below from branch] at sameBranch
  rcases List.map_eq_cons_iff.mp sameBranch with ⟨root', below', branch', sameRoot, -⟩
  have sameStart := Node.start_of_opened_eq sameRoot
  by_cases early : i.start < root.start
  · rw [insert_of_early unfinished large branch early,
      insert_of_early unfinished' (sameMax ▸ large) branch' (sameStart ▸ early), sameStart,
      resembles.stop]
    exact .error _ (doubles.raise (Int.le_max_left _ _))
  · have took := insert_of_started unfinished large branch early
    have took' := insert_of_started unfinished' (sameMax ▸ large) branch' (sameStart ▸ early)
    have fits := withCache_reached_of_writeNodes took s.subject.io.cache ▸ later.withCache _
    rw [resembles.stop, resembles.config, resembles.nodeCount] at took'
    rw [took, took']
    exact doubles.place unfinished inRange numbered branch branch' large early fits

/-- Doubles stay such when their latest branches end and are in their files, marked or not. -/
theorem ending
    {level : Nat → Nat}
    {closed : List Node}
    {last : Int}
    {volume volume' : Volume}
    {cache cache' : NodeCache}
    (resembles : s'.subject.Resembles s.subject)
    (sturdy : Sturdy s level closed)
    (late : s.subject.stop ≤ last)
    (keeps : NodeFile.Keeps ⟨volume, (s.subject.withCache cache).io⟩
      (closed ++ (s.subject.ending last).branch))
    (keeps' : NodeFile.Keeps ⟨volume', (s'.subject.withCache cache').io⟩
      (closed ++ (s'.subject.ending last).branch))
    {finished finished' : Bool}
    (same : finished' = finished) :
    Doubles ⟨volume', { (s'.subject.ending last).withCache cache' with finished := finished' }⟩
      ⟨volume, { (s.subject.ending last).withCache cache with finished }⟩ := by
  have alike := resembles.ending last cache cache'
  have lasting := sturdy.ending late (keeps.of_subset fun node member =>
    List.mem_append_left _ member)
  exact ⟨⟨alike.config, alike.branch, alike.rootSeq, alike.nodeCount, alike.stop, same⟩, level,
    closed, lasting.ongoing, keeps'.of_subset fun node member => List.mem_append_left _ member⟩

/-- Doubles are finished alike. -/
theorem finish
    (doubles : Doubles s' s)
    (stop : Int)
    (ns : Namespace) :
    Step.Matched Doubles (Tree.finish stop ns s') (Tree.finish stop ns s) := by
  have resembles := doubles.resembles
  by_cases finished : s.subject.finished = true
  · rw [finish_of_finished finished, finish_of_finished (resembles.finished.trans finished)]
    exact .ok () doubles
  have unfinished := eq_false_of_ne_true finished
  have unfinished' := resembles.finished.trans unfinished
  rcases doubles.nodes with ⟨level, closed, finishable, keeps⟩
  have sturdy := finishable.of_ongoing unfinished
  have sturdy' := (finishable.of_resembles resembles keeps).of_ongoing unfinished'
  have late : s.subject.stop ≤ max s.subject.stop stop := Int.le_max_left _ _
  by_cases storable : ns.Storable
  · rcases sturdy.numbers.finish_of_storable unfinished stop storable with
      ⟨volume, cache, body, finishes, filed⟩
    rcases sturdy'.numbers.finish_of_storable unfinished' stop storable with
      ⟨volume', cache', body', finishes', filed'⟩
    have keeps' := filed'.nodes
    rw [resembles.stop] at finishes' keeps'
    rw [finishes, finishes']
    exact .ok () (ending resembles sturdy late filed.nodes keeps' rfl)
  · rcases sturdy.numbers.finish_of_not_storable unfinished stop storable with
      ⟨volume, cache, fails, kept⟩
    rcases sturdy'.numbers.finish_of_not_storable unfinished' stop storable with
      ⟨volume', cache', fails', kept'⟩
    rw [resembles.stop] at fails' kept'
    rw [fails, fails']
    exact .error _ (ending resembles sturdy late kept kept' resembles.finished)

end Doubles

end Chronicle.Tree
