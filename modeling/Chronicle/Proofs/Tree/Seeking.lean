import Chronicle.Proofs.Tree.Anatomy
import Mathlib.Logic.Relation

/-!
# The search for room

Room for an interval is sought move by move.  The search visits the nodes of
the latest branch from the leaf upwards until it meets one that starts no later
than the interval.  If the interval does not fit there, the search goes up to
the nearest node with a place for one more child, closes all nodes below it, and
starts over from the leaf of a new branch; where no node has such a place, it
puts a new root above the old one.  From any tree that was given intervals the
search comes to rest, in the branch that `Branch.place` tells at once.
-/

namespace Chronicle.Tree

namespace Branch

/-! ## Moves -/

/-- What a search for room does next. -/
inductive Task
  /-- Look at the node on a level. -/
  | visit (level : Nat)
  /-- Start a new branch beside the node on a level. -/
  | part (level : Nat)
  /-- Nothing, since the interval has its place. -/
  | rest
deriving DecidableEq, Repr

/-- A search for room in a branch, with the nodes that it has closed so far. -/
structure Seeking where
  task : Task
  branch : List Node
  closed : List Node
  /-- The number of the uppermost node of the branch. -/
  rootSeq : Nat
  /-- The number that the next node gets. -/
  nodeCount : Nat

namespace Seeking

/-- A root that is put above the node `rootSeq`. -/
def newRoot
    (config : Config)
    (rootSeq seq : Nat) :
    Node :=
  (Node.fresh .core seq none config.start).addChild rootSeq config.start

/-- The search after one move, or nothing if there is none to make. -/
def next?
    (config : Config)
    (split : Int)
    (i : Interval)
    (seeking : Seeking) :
    Option Seeking :=
  match seeking.task with
  | .visit level => do
    let node ← seeking.branch[level]?
    if i.start < node.start then
      match level with
      | 0 => none
      | upper + 1 => some { seeking with task := .visit upper }
    else if Fits config node i then
      some { seeking with task := .rest, branch := seeking.branch.set level (node.addInterval i) }
    else
      some { seeking with task := .part level }
  | .part 0 =>
    let depth := seeking.branch.length
    let seq := seeking.nodeCount
    some
      { task := .visit depth
        branch := sprout (split + 1) depth (newRoot config seeking.rootSeq seq) (seq + 1)
        closed := seeking.closed ++ (adopt seq seeking.branch).map fun node => node.close split
        rootSeq := seq
        nodeCount := seq + 1 + depth }
  | .part (upper + 1) => do
    let parent ← seeking.branch[upper]?
    if parent.children.size < config.maxChildren then
      let lower := seeking.branch.drop (upper + 1)
      some
        { seeking with
          task := .visit (seeking.branch.length - 1)
          branch := seeking.branch.take upper
            ++ sprout (split + 1) lower.length parent seeking.nodeCount
          closed := seeking.closed ++ lower.map fun node => node.close split
          nodeCount := seeking.nodeCount + lower.length }
    else
      some { seeking with task := .part upper }
  | .rest => none

/-- Any number of moves, one after the other. -/
def Leads
    (config : Config)
    (split : Int)
    (i : Interval) :
    Seeking →
    Seeking →
    Prop :=
  Relation.ReflTransGen fun seeking after => seeking.next? config split i = some after

end Seeking

/-! ## Where a search comes to rest -/

/-- An interval came last into the deepest node of a branch that starts no later than it. -/
def Seated
    (i : Interval)
    (branch : List Node) : Prop :=
  ∃ above node below,
    branch = above ++ node :: below
      ∧ node.intervals.toList.getLast? = some i
      ∧ node.start ≤ i.start
      ∧ ∀ lower ∈ below, i.start < lower.start

/-- What a search knows about the interval: all nodes that it left behind start later. -/
def Seeking.Knows
    (i : Interval)
    (seeking : Seeking) : Prop :=
  match seeking.task with
  | .visit level => ∀ lower ∈ seeking.branch.drop (level + 1), i.start < lower.start
  | .part _ => True
  | .rest => Seated i seeking.branch

namespace Seeking

variable {config : Config} {split : Int} {i : Interval} {seeking after : Seeking}

theorem knows_of_leaf
    (task : seeking.task = .visit (seeking.branch.length - 1)) :
    seeking.Knows i := by
  unfold Knows
  rw [task]
  dsimp only
  rw [List.drop_eq_nil_of_le (by omega)]
  intro lower member
  cases member

theorem Knows.next
    (knows : seeking.Knows i)
    (move : seeking.next? config split i = some after) :
    after.Knows i := by
  rcases seeking with ⟨task, branch, closed, rootSeq, nodeCount⟩
  cases task with
  | visit level =>
      rcases Option.bind_eq_some_iff.mp move with ⟨node, there, move⟩
      have dropped : branch.drop level = node :: branch.drop (level + 1) :=
        List.drop_eq_getElem?_toList_append.trans (by rw [there]; rfl)
      by_cases later : i.start < node.start
      · rw [if_pos later] at move
        cases level with
        | zero => cases move
        | succ upper =>
            cases move
            show ∀ lower ∈ branch.drop (upper + 1), i.start < lower.start
            rw [dropped]
            exact List.forall_mem_cons.mpr ⟨later, knows⟩
      · rw [if_neg later] at move
        by_cases fits : Fits config node i
        · rw [if_pos fits] at move
          cases move
          refine ⟨branch.take level, node.addInterval i, branch.drop (level + 1), ?_, ?_,
            Int.not_lt.mp later, knows⟩
          · have inside : level < branch.length := (List.getElem?_eq_some_iff.mp there).1
            exact List.set_eq_take_append_cons_drop.trans (if_pos inside)
          · show (node.intervals.push i).toList.getLast? = some i
            rw [Array.toList_push, List.getLast?_concat]
        · rw [if_neg fits] at move
          cases move
          exact trivial
  | part level =>
      cases level with
      | zero =>
          cases move
          apply knows_of_leaf
          rw [length_sprout]
          rfl
      | succ upper =>
          rcases Option.bind_eq_some_iff.mp move with ⟨parent, there, move⟩
          by_cases roomy : parent.children.size < config.maxChildren
          · rw [if_pos roomy] at move
            cases move
            apply knows_of_leaf
            have inside : upper < branch.length := (List.getElem?_eq_some_iff.mp there).1
            simp only [List.length_append, List.length_take, length_sprout, List.length_drop]
            congr 1
            omega
          · rw [if_neg roomy] at move
            cases move
            exact trivial
  | rest => cases move

/-- A search that can come to rest does so whatever moves it has made. -/
theorem Leads.onward
    {other : Seeking}
    (leads : Leads config split i seeking after)
    (rests : after.task = .rest)
    (underWay : Leads config split i seeking other) :
    Leads config split i other after := by
  have unique : Relator.RightUnique fun seeking after : Seeking =>
      seeking.next? config split i = some after := by
    intro seeking first second oneWay otherWay
    exact Option.some.inj (oneWay.symm.trans otherWay)
  rcases Relation.ReflTransGen.total_of_right_unique unique underWay leads with on | back
  · exact on
  · have stuck : after.next? config split i = none := by
      unfold next?
      rw [rests]
    rcases back.cases_head with rfl | ⟨further, move, -⟩
    · exact Relation.ReflTransGen.refl
    · cases stuck.symm.trans move

/-- What is known at first is known at rest. -/
theorem Knows.leads
    (knows : seeking.Knows i)
    (leads : Leads config split i seeking after) :
    after.Knows i := by
  induction leads with
  | refl => exact knows
  | tail _ move ih => exact ih.next move

/-! ## The way to a place -/

/-- A search that starts over from the leaf. -/
def fromLeaf
    (branch closed : List Node)
    (rootSeq nodeCount : Nat) :
    Seeking :=
  ⟨.visit (branch.length - 1), branch, closed, rootSeq, nodeCount⟩

/-- A search that is done with what there is below some nodes. -/
def past
    (above closed : List Node)
    (rootSeq : Nat)
    (placed : Placement) :
    Seeking where
  task := if placed.held then .rest else .part above.length
  branch := above ++ placed.branch
  closed := closed ++ placed.closed
  rootSeq := rootSeq
  nodeCount := placed.nodeCount

/-- Whether an interval fits does not hang on the children of a node. -/
theorem offer_addChild
    (node : Node)
    (seq : Nat)
    (start : Int) :
    offer config i (node.addChild seq start) = (offer config i node).addChild seq start := by
  symm
  exact apply_ite (fun node : Node => node.addChild seq start) (Fits config node i)
    (node.addInterval i) node

/-- New nodes start where their branch does. -/
theorem start_sprout
    {start : Int}
    {top node : Node}
    {depth seq : Nat}
    (member : node ∈ sprout start depth top seq)
    (begins : top.start = start) :
    node.start = start := by
  induction depth generalizing top seq with
  | zero => rw [List.mem_singleton.mp member, begins]
  | succ depth ih =>
      rcases List.mem_cons.mp member with rfl | lower
      · exact begins
      · exact ih lower rfl

section Moves

variable {above below : List Node} {node : Node}

theorem getElem?_length_above :
    (above ++ node :: below)[above.length]? = some node := by
  rw [List.getElem?_append_right (Nat.le_refl _), Nat.sub_self, List.getElem?_cons_zero]

/-- The search goes up past all nodes that start later than the interval. -/
theorem leads_up
    (later : ∀ lower ∈ below, i.start < lower.start)
    (closed : List Node)
    (rootSeq nodeCount : Nat) :
    Leads config split i
      (fromLeaf (above ++ node :: below) closed rootSeq nodeCount)
      ⟨.visit above.length, above ++ node :: below, closed, rootSeq, nodeCount⟩ := by
  suffices ∀ count ≤ below.length,
      Leads config split i
        ⟨.visit (above.length + count), above ++ node :: below, closed, rootSeq, nodeCount⟩
        ⟨.visit above.length, above ++ node :: below, closed, rootSeq, nodeCount⟩ by
    have bottom := this below.length (Nat.le_refl _)
    have last : (above ++ node :: below).length - 1 = above.length + below.length := by
      rw [List.length_append, List.length_cons]
      rfl
    unfold fromLeaf
    rw [last]
    exact bottom
  intro count inside
  induction count with
  | zero => exact Relation.ReflTransGen.refl
  | succ count ih =>
      refine Relation.ReflTransGen.head ?_ (ih (Nat.le_of_succ_le inside))
      have there : (above ++ node :: below)[above.length + (count + 1)]? = some below[count] := by
        rw [List.getElem?_append_right (Nat.le_add_right _ _), Nat.add_sub_cancel_left,
          List.getElem?_cons_succ, List.getElem?_eq_getElem inside]
      refine Option.bind_eq_some_iff.mpr ⟨_, there, ?_⟩
      exact if_pos (later _ (List.getElem_mem inside))

/-- The deepest node that starts no later than the interval takes it, if it fits. -/
theorem leads_offer
    (begun : node.start ≤ i.start)
    (later : ∀ lower ∈ below, i.start < lower.start)
    (closed : List Node)
    (rootSeq nodeCount : Nat) :
    Leads config split i
      (fromLeaf (above ++ node :: below) closed rootSeq nodeCount)
      (past above closed rootSeq ⟨Fits config node i, offer config i node :: below, [], nodeCount⟩)
      := by
  refine (leads_up later closed rootSeq nodeCount).tail ?_
  refine Option.bind_eq_some_iff.mpr ⟨node, getElem?_length_above, ?_⟩
  rw [if_neg (Int.not_lt.mpr begun)]
  unfold past offer
  rw [List.append_nil]
  by_cases fits : Fits config node i
  · simp [fits]
  · simp [fits]

/-- A node above new nodes, which all start too late, takes the interval if it fits. -/
theorem leads_sprout
    (begun : node.start ≤ i.start)
    (inTime : i.start ≤ split)
    (depth seq : Nat)
    (closed : List Node)
    (rootSeq nodeCount : Nat) :
    Leads config split i
      (fromLeaf (above ++ sprout (split + 1) (depth + 1) node seq) closed rootSeq nodeCount)
      (past above closed rootSeq
        ⟨Fits config node i, sprout (split + 1) (depth + 1) (offer config i node) seq, [],
          nodeCount⟩) := by
  have sameSeq : (offer config i node).seq = node.seq := seq_offer config i node
  rw [sprout, sprout, ← offer_addChild, sameSeq]
  have later : ∀ lower ∈ sprout (split + 1) depth
      (Node.fresh (if depth = 0 then .leaf else .core) seq (some node.seq) (split + 1)) (seq + 1),
      i.start < lower.start := by
    intro lower member
    rw [start_sprout member rfl]
    exact Int.lt_add_one_of_le inTime
  have begunChild : (node.addChild seq (split + 1)).start ≤ i.start := begun
  exact leads_offer begunChild later closed rootSeq nodeCount

/-- Beside a node whose parent has a place for one more child a new branch starts. -/
theorem next?_of_roomy
    {parent : Node}
    (roomy : parent.children.size < config.maxChildren)
    (closed : List Node)
    (rootSeq nodeCount : Nat) :
    next? config split i
        ⟨.part (above.length + 1), above ++ parent :: below, closed, rootSeq, nodeCount⟩
      = some (fromLeaf (above ++ sprout (split + 1) below.length parent nodeCount)
          (closed ++ below.map fun node => node.close split) rootSeq
          (nodeCount + below.length)) := by
  refine Option.bind_eq_some_iff.mpr ⟨parent, getElem?_length_above, ?_⟩
  have dropped : (above ++ parent :: below).drop (above.length + 1) = below := by
    rw [List.drop_append, List.drop_eq_nil_of_le (Nat.le_succ _), Nat.add_sub_cancel_left]
    rfl
  have taken : (above ++ parent :: below).take above.length = above := List.take_left
  rw [if_pos roomy, dropped, taken]
  unfold fromLeaf
  rw [List.length_append, List.length_append, length_sprout, List.length_cons]

/-- Otherwise the search goes up to the parent. -/
theorem next?_of_full
    {parent : Node}
    (full : ¬ parent.children.size < config.maxChildren)
    (closed : List Node)
    (rootSeq nodeCount : Nat) :
    next? config split i
        ⟨.part (above.length + 1), above ++ parent :: below, closed, rootSeq, nodeCount⟩
      = some ⟨.part above.length, above ++ parent :: below, closed, rootSeq, nodeCount⟩ := by
  refine Option.bind_eq_some_iff.mpr ⟨parent, getElem?_length_above, ?_⟩
  rw [if_neg full]

/-- Above the uppermost node a new root starts a branch that is one node deeper. -/
theorem next?_of_top
    (branch closed : List Node)
    (rootSeq nodeCount : Nat) :
    next? config split i ⟨.part 0, branch, closed, rootSeq, nodeCount⟩
      = some (fromLeaf
          (sprout (split + 1) branch.length (newRoot config rootSeq nodeCount) (nodeCount + 1))
          (closed ++ (adopt nodeCount branch).map fun node => node.close split) nodeCount
          (nodeCount + 1 + branch.length)) := by
  unfold fromLeaf
  rw [length_sprout]
  rfl

end Moves

/-- The search through a branch whose nodes start one after the other settles as is told at once. -/
theorem leads_settle
    {above below closed : List Node}
    {top : Node}
    {nodeCount : Nat}
    (begun : top.start ≤ i.start)
    (rising : (top :: below).Pairwise fun upper lower => upper.start ≤ lower.start)
    (inTime : i.start ≤ split)
    (rootSeq : Nat) :
    Leads config split i
      (fromLeaf (above ++ top :: below) closed rootSeq nodeCount)
      (past above closed rootSeq (settle config split i nodeCount top below)) := by
  induction below generalizing above top with
  | nil =>
      apply leads_offer begun
      intro lower member
      cases member
  | cons next rest ih =>
      rcases List.pairwise_cons.mp rising with ⟨-, risingBelow⟩
      rw [settle]
      by_cases early : next.start ≤ i.start
      · have inner : Leads config split i
            (fromLeaf ((above ++ [top]) ++ next :: rest) closed rootSeq nodeCount)
            (past (above ++ [top]) closed rootSeq (settle config split i nodeCount next rest)) :=
          ih early risingBelow
        have length := length_settle config split i nodeCount next rest
        rw [if_pos early]
        rw [List.append_assoc, List.singleton_append] at inner
        generalize settle config split i nodeCount next rest = found at inner length ⊢
        unfold past at inner
        rw [List.append_assoc, List.singleton_append, List.length_append, List.length_singleton]
          at inner
        by_cases taken : found.held = true
        · rw [if_pos taken] at inner
          simp only [if_pos taken]
          unfold past
          rw [if_pos taken]
          exact inner
        · rw [if_neg taken] at inner
          simp only [if_neg taken]
          by_cases roomy : top.children.size < config.maxChildren
          · rw [if_pos roomy]
            have parted := inner.tail (next?_of_roomy roomy _ _ _)
            rw [length] at parted ⊢
            apply parted.trans
            have offered : Leads config split i
                (fromLeaf (above ++ sprout (split + 1) (rest.length + 1) top found.nodeCount)
                  (closed ++ found.closed ++ found.branch.map fun node => node.close split)
                  rootSeq (found.nodeCount + (rest.length + 1))) _ :=
              leads_sprout begun inTime _ _ _ _ _
            unfold past at offered ⊢
            rw [List.append_nil] at offered
            rw [← List.append_assoc]
            exact offered
          · rw [if_neg roomy]
            refine inner.tail ((next?_of_full roomy _ _ _).trans ?_)
            unfold past
            rw [if_neg taken]
      · rw [if_neg early]
        apply leads_offer begun
        intro lower member
        have later : ∀ lower ∈ next :: rest, next.start ≤ lower.start := by
          refine List.forall_mem_cons.mpr ⟨Int.le_refl _, ?_⟩
          exact (List.pairwise_cons.mp risingBelow).1
        exact Int.lt_of_lt_of_le (Int.not_le.mp early) (later lower member)

/-- In the same way it comes to rest, be it in a new root. -/
theorem leads_place
    {root : Node}
    {below : List Node}
    (begun : root.start ≤ i.start)
    (rising : (root :: below).Pairwise fun upper lower => upper.start ≤ lower.start)
    (inTime : i.start ≤ split)
    (first : config.start ≤ i.start)
    (small : i.encodedSize ≤ config.coreCapacity)
    (nodeCount : Nat) :
    let placed := place config split i nodeCount root below
    Leads config split i
      (fromLeaf (root :: below) [] root.seq nodeCount)
      ⟨.rest, placed.branch, placed.closed, (placed.branch.head?.map (·.seq)).getD root.seq,
        placed.nodeCount⟩ := by
  have settled : Leads config split i (fromLeaf ([] ++ root :: below) [] root.seq nodeCount)
      (past [] [] root.seq (settle config split i nodeCount root below)) :=
    leads_settle begun rising inTime root.seq
  rcases exists_top_settle config split i nodeCount root below with
    ⟨top, rest, branch, length, sameLink, -⟩
  unfold past at settled
  rw [List.nil_append, List.nil_append, List.nil_append] at settled
  unfold place
  generalize settle config split i nodeCount root below = found at settled branch ⊢
  dsimp only
  by_cases taken : found.held = true
  · rw [if_pos taken] at settled ⊢
    have sameSeq : top.seq = root.seq := congrArg Node.Link.seq sameLink
    rw [branch] at settled ⊢
    rw [List.head?_cons, Option.map_some, Option.getD_some, sameSeq]
    exact settled
  · rw [if_neg taken] at settled ⊢
    have raised := settled.tail (next?_of_top found.branch found.closed root.seq found.nodeCount)
    apply raised.trans
    have depth : found.branch.length = below.length + 1 := by
      rw [branch, List.length_cons, length]
    have fits : Fits config (newRoot config root.seq found.nodeCount) i := small
    have begins : (newRoot config root.seq found.nodeCount).start ≤ i.start := first
    have offered : Leads config split i
        (fromLeaf ([] ++ sprout (split + 1) (below.length + 1)
            (newRoot config root.seq found.nodeCount) (found.nodeCount + 1))
          (found.closed ++ (adopt found.nodeCount found.branch).map fun node => node.close split)
          found.nodeCount (found.nodeCount + 1 + (below.length + 1))) _ :=
      leads_sprout begins inTime _ _ _ _ _
    unfold past offer at offered
    rw [if_pos fits, List.append_nil] at offered
    simp only [decide_eq_true fits, if_true] at offered
    rw [depth]
    exact offered

end Seeking

end Branch

/-! ## Insertions -/

/-- The nodes of a branch start one after the other. -/
theorem Spine.Sound.rising_branch
    {config : Config}
    {stop : Int}
    {above : Option Nat}
    {height : Nat}
    {spine : Spine}
    (sound : spine.Sound config stop above height) :
    spine.branch.Pairwise fun upper lower => upper.start ≤ lower.start := by
  induction sound with
  | leaf filled parent kind children => exact List.pairwise_singleton _ _
  | @core above height node older next filled parent kind children tiles ordered rest ih =>
      refine List.pairwise_cons.mpr ⟨?_, ih⟩
      intro lower member
      have begun := tiles.start_le
      have start_ge := rest.start_ge lower (Spine.mem_nodes_of_mem_branch member)
      show node.start ≤ lower.start
      omega

/-- The search that a tree begins for an interval. -/
def seekingOf (tree : Tree) : Branch.Seeking :=
  .fromLeaf tree.branch [] tree.rootSeq tree.nodeCount

/--
A tree takes an interval: its search comes to rest whatever moves it has made,
the nodes closed on the way all have their blocks, and the interval is in the
deepest node at hand that starts no later than it.
-/
structure Takes
    (s : Placed Tree)
    (i : Interval)
    (found : Branch.Seeking)
    (after : Placed Tree) : Prop where
  leads : Branch.Seeking.Leads s.subject.config (max s.subject.stop i.stop) i
    s.subject.seekingOf found
  rests : found.task = .rest
  ends : ∀ seeking,
    Branch.Seeking.Leads s.subject.config (max s.subject.stop i.stop) i s.subject.seekingOf seeking →
      Branch.Seeking.Leads s.subject.config (max s.subject.stop i.stop) i seeking found
  written : insert i s = writeNodes found.closed
    ⟨s.volume,
      { s.subject with
        stop := max s.subject.stop i.stop
        branch := found.branch
        rootSeq := found.rootSeq
        nodeCount := found.nodeCount }⟩
  blocks : ∀ node ∈ found.closed, ∃ block, node.encode s.subject.config = .ok block
  taken : insert i s = .ok () after
  branch : after.subject.branch = found.branch
  seated : Branch.Seated i after.subject.branch

theorem Stands.takes
    {s : Placed Tree}
    {spine : Spine}
    {height : Nat}
    {i : Interval}
    (stands : Stands s spine height)
    (unfinished : s.subject.finished = false)
    (small : i.encodedSize ≤ s.subject.config.coreCapacity)
    (begun : s.subject.config.start ≤ i.start) :
    ∃ found after, Takes s i found after := by
  have inTime : i.start ≤ max s.subject.stop i.stop :=
    Int.le_trans i.ordered (Int.le_max_right _ _)
  have rising : (spine.top :: spine.lower).Pairwise fun upper lower => upper.start ≤ lower.start :=
    stands.sound.rising_branch
  have first : spine.top.start ≤ i.start := stands.first ▸ begun
  have leads := Branch.Seeking.leads_place first rising inTime begun small s.subject.nodeCount
  have same : s.subject.seekingOf
      = .fromLeaf (spine.top :: spine.lower) [] spine.top.seq s.subject.nodeCount := by
    unfold seekingOf
    rw [stands.rootSeq, stands.branch]
    rfl
  rw [← same] at leads
  rcases stands.insert unfinished small begun with
    ⟨volume, cache, after, newHeight, took, standsAfter, -, closed, -⟩
  refine ⟨_, _, leads, rfl, fun seeking => leads.onward rfl, ?_, ?_, took, rfl, ?_⟩
  · have root : s.subject.branch = spine.top :: spine.lower := stands.branch
    rcases insert_apply i s with ⟨ended | large | early, -⟩ | ⟨top, lower, -, same, -, -, took⟩
    · exact absurd ended (ne_true_of_eq_false unfinished)
    · exact absurd large (Nat.not_lt.mpr small)
    · exact absurd (early _ _ root) (Int.not_lt.mpr first)
    · cases root.symm.trans same
      rw [← stands.rootSeq]
      exact took
  · intro node member
    have inTree : node ∈ after.nodes :=
      Spine.mem_nodes_of_mem_closed (closed.mem_iff.mpr (List.mem_append_right _ member))
    rcases Node.exists_encode stands.file.valid (standsAfter.sound.among node inTree).room with
      ⟨block, encoded, -⟩
    exact ⟨block, encoded⟩
  · exact (Branch.Seeking.knows_of_leaf rfl).leads leads

/--
Every interval that fits the inner nodes and starts no earlier than the tree is
taken by a tree that was given any intervals before.
-/
theorem takes_of_created
    {name : String}
    {config : Config}
    {volume made : Volume}
    {tree : Tree}
    (sound : volume.Sound)
    (created : create name config volume = .ok (made, tree))
    (given : List Interval) :
    ∃ outcomes reached,
      Step.each insert given ⟨made, tree⟩ = .ok outcomes reached
        ∧ reached.subject.config = config
        ∧ reached.subject.finished = false
        ∧ ∀ i : Interval, i.encodedSize ≤ config.coreCapacity → config.start ≤ i.start →
          ∃ found after, Takes reached i found after := by
  rcases grows_of_create sound created with ⟨config, spine, height, grows⟩
  rcases grows.each given with ⟨outcomes, reached, after, newHeight, done, sameConfig, whole⟩
  have same := sameConfig.trans config
  refine ⟨outcomes, reached, done, same, whole.unfinished, ?_⟩
  intro i small begun
  rw [← same] at small begun
  exact whole.stands.takes whole.unfinished small begun

theorem takes_of_scatter :
    ∃ made tree outcomes reached found after,
      create "scatter" narrow .empty = .ok (made, tree)
        ∧ Step.each insert scatter ⟨made, tree⟩ = .ok outcomes reached
        ∧ reached.subject.config = narrow
        ∧ reached.subject.finished = false
        ∧ Takes reached ⟨3, 50, 4, .null, by decide⟩ found after := by
  have created : ∃ made tree, create "scatter" narrow .empty = .ok (made, tree) := ⟨_, _, rfl⟩
  rcases created with ⟨made, tree, created⟩
  rcases takes_of_created (by decide) created scatter with
    ⟨outcomes, reached, done, config, unfinished, takes⟩
  rcases takes ⟨3, 50, 4, .null, by decide⟩ (by decide) (by decide) with ⟨found, after, whole⟩
  exact ⟨made, tree, outcomes, reached, found, after, created, done, config, unfinished, whole⟩

end Chronicle.Tree
