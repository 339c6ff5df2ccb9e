import Chronicle.Proofs.Tree.Shape

/-!
# Growing loses nothing

Finding room for an interval loses and doubles nothing: of nodes and intervals
there are afterwards those that there were, the interval, and nodes whose
numbers count on.
-/

namespace Chronicle.Tree

/-- The intervals in some nodes. -/
def held (nodes : List Node) : List Interval :=
  nodes.flatMap fun node => node.intervals.toList

@[simp]
theorem held_nil : held [] = [] := rfl

@[simp]
theorem held_cons
    (node : Node)
    (nodes : List Node) :
    held (node :: nodes) = node.intervals.toList ++ held nodes := rfl

@[simp]
theorem held_append
    (nodes others : List Node) :
    held (nodes ++ others) = held nodes ++ held others :=
  List.flatMap_append

@[simp]
theorem held_close
    (nodes : List Node)
    (stop : Int) :
    held (nodes.map fun node => node.close stop) = held nodes := by
  induction nodes with
  | nil => rfl
  | cons node rest ih => rw [List.map_cons, held_cons, held_cons, ih]; rfl

namespace Branch

@[simp]
theorem map_seq_close
    (nodes : List Node)
    (stop : Int) :
    (nodes.map fun node => node.close stop).map (·.seq) = nodes.map (·.seq) := by
  rw [List.map_map]
  rfl

theorem map_seq_sprout
    (start : Int)
    (depth : Nat)
    (top : Node)
    (seq : Nat) :
    (sprout start depth top seq).map (·.seq) = top.seq :: List.range' seq depth := by
  induction depth generalizing top seq with
  | zero => rfl
  | succ depth ih =>
      rw [sprout, List.map_cons, ih, List.range'_succ]
      rfl

theorem held_sprout
    (start : Int)
    (depth : Nat)
    (top : Node)
    (seq : Nat) :
    held (sprout start depth top seq) = top.intervals.toList := by
  induction depth generalizing top seq with
  | zero => exact List.append_nil _
  | succ depth ih =>
      rw [sprout, held_cons, ih]
      exact List.append_nil _

@[simp]
theorem seq_offer
    (config : Config)
    (i : Interval)
    (node : Node) :
    (offer config i node).seq = node.seq := by
  unfold offer
  split <;> rfl

theorem intervals_offer
    (config : Config)
    (i : Interval)
    (node : Node) :
    (offer config i node).intervals.toList
      = node.intervals.toList ++ if Fits config node i then [i] else [] := by
  unfold offer
  split
  · exact Array.toList_push
  · exact (List.append_nil _).symm

@[simp]
theorem map_seq_adopt
    (seq : Nat)
    (nodes : List Node) :
    (adopt seq nodes).map (·.seq) = nodes.map (·.seq) := by
  cases nodes with
  | nil => rfl
  | cons top below => rfl

@[simp]
theorem held_adopt
    (seq : Nat)
    (nodes : List Node) :
    held (adopt seq nodes) = held nodes := by
  cases nodes with
  | nil => rfl
  | cons top below => rfl

/-- Nodes keep their numbers, and new ones count on. -/
theorem seqs_settle
    (config : Config)
    (split : Int)
    (i : Interval)
    (nodeCount : Nat)
    (top : Node)
    (below : List Node) :
    let placed := settle config split i nodeCount top below
    nodeCount ≤ placed.nodeCount
      ∧ ((placed.branch ++ placed.closed).map (·.seq)).Perm
        ((top :: below).map (·.seq)
          ++ List.range' nodeCount (placed.nodeCount - nodeCount)) := by
  induction below generalizing top with
  | nil => simp [settle]
  | cons next rest ih =>
      have inner := ih next
      rw [settle]
      split
      · generalize settle config split i nodeCount next rest = found at inner ⊢
        rcases inner with ⟨grown, perm⟩
        simp only
        split
        · exact ⟨grown, perm.cons top.seq⟩
        · split
          · refine ⟨Nat.le_add_right_of_le grown, ?_⟩
            have numbers : List.range' nodeCount (found.nodeCount + found.branch.length - nodeCount)
                = List.range' nodeCount (found.nodeCount - nodeCount)
                  ++ List.range' found.nodeCount found.branch.length := by
              rw [show found.nodeCount + found.branch.length - nodeCount
                  = (found.nodeCount - nodeCount) + found.branch.length by omega,
                ← List.range'_append_1, show nodeCount + (found.nodeCount - nodeCount)
                  = found.nodeCount by omega]
            rw [List.perm_iff_count] at perm ⊢
            intro seq
            have counted := perm seq
            simp only [List.map_append, List.map_cons, map_seq_sprout, map_seq_close, seq_offer,
              numbers, List.count_append, List.count_cons] at counted ⊢
            omega
          · exact ⟨grown, perm.cons top.seq⟩
      · simp

/-- The interval goes into one node or into none, and all others stay where they are. -/
theorem held_settle
    (config : Config)
    (split : Int)
    (i : Interval)
    (nodeCount : Nat)
    (top : Node)
    (below : List Node) :
    let placed := settle config split i nodeCount top below
    (held (placed.branch ++ placed.closed)).Perm
      (held (top :: below) ++ if placed.held then [i] else []) := by
  induction below generalizing top with
  | nil =>
      simp only [settle, List.append_nil, held_cons, held_nil, intervals_offer, decide_eq_true_eq]
      exact List.Perm.refl _
  | cons next rest ih =>
      have inner := ih next
      rw [settle]
      split
      · generalize settle config split i nodeCount next rest = found at inner ⊢
        simp only at inner ⊢
        by_cases taken : found.held = true
        · rw [if_pos taken] at inner ⊢
          simp only [List.cons_append, held_cons, List.append_assoc, taken, if_true] at inner ⊢
          exact inner.append_left _
        · rw [if_neg taken, List.append_nil] at inner
          rw [if_neg taken]
          by_cases roomy : top.children.size < config.maxChildren
          · rw [if_pos roomy, List.perm_iff_count]
            rw [List.perm_iff_count] at inner
            intro j
            have counted := inner j
            simp only [held_append, held_cons, held_sprout, held_close, intervals_offer,
              List.count_append, decide_eq_true_eq] at counted ⊢
            omega
          · rw [if_neg roomy, if_neg taken, List.append_nil, List.cons_append, held_cons, held_cons]
            exact inner.append_left _
      · rw [List.perm_iff_count]
        intro j
        simp only [List.append_nil, held_cons, intervals_offer, List.count_append,
          decide_eq_true_eq]
        omega

/-- So it is when a new root is put above. -/
theorem seqs_place
    (config : Config)
    (split : Int)
    (i : Interval)
    (nodeCount : Nat)
    (root : Node)
    (below : List Node) :
    let placed := place config split i nodeCount root below
    nodeCount ≤ placed.nodeCount
      ∧ ((placed.branch ++ placed.closed).map (·.seq)).Perm
        ((root :: below).map (·.seq)
          ++ List.range' nodeCount (placed.nodeCount - nodeCount)) := by
  have settled := seqs_settle config split i nodeCount root below
  unfold place
  generalize settle config split i nodeCount root below = found at settled ⊢
  simp only at settled ⊢
  by_cases taken : found.held = true
  · rw [if_pos taken]
    exact settled
  · rw [if_neg taken]
    rcases settled with ⟨grown, perm⟩
    refine ⟨by simp only; omega, ?_⟩
    have numbers : List.range' nodeCount (found.nodeCount + 1 + found.branch.length - nodeCount)
        = List.range' nodeCount (found.nodeCount - nodeCount)
          ++ found.nodeCount :: List.range' (found.nodeCount + 1) found.branch.length := by
      rw [← List.range'_succ, show found.nodeCount + 1 + found.branch.length - nodeCount
          = (found.nodeCount - nodeCount) + (found.branch.length + 1) by omega,
        ← List.range'_append_1, show nodeCount + (found.nodeCount - nodeCount)
          = found.nodeCount by omega]
    rw [List.perm_iff_count] at perm ⊢
    intro seq
    have counted := perm seq
    simp only [List.map_append, List.map_cons, map_seq_sprout, map_seq_close, map_seq_adopt,
      Node.addInterval, Node.addChild, Node.fresh, numbers, List.count_append, List.count_cons]
      at counted ⊢
    omega

/-- Nodes that are numbered one by one stay so, with those that were closed before. -/
theorem numbered_place
    {nodeCount : Nat}
    {root : Node}
    {below closed : List Node}
    (numbered : (((root :: below) ++ closed).map (·.seq)).Perm (List.range nodeCount))
    (config : Config)
    (split : Int)
    (i : Interval) :
    let placed := place config split i nodeCount root below
    ((placed.branch ++ (closed ++ placed.closed)).map (·.seq)).Perm
      (List.range placed.nodeCount) := by
  intro placed
  have grown : nodeCount ≤ placed.nodeCount := (seqs_place _ _ _ _ _ _).1
  have seqs : ((placed.branch ++ placed.closed).map (·.seq)).Perm
      ((root :: below).map (·.seq) ++ List.range' nodeCount (placed.nodeCount - nodeCount)) :=
    (seqs_place _ _ _ _ _ _).2
  have counted : List.range placed.nodeCount
      = List.range nodeCount ++ List.range' nodeCount (placed.nodeCount - nodeCount) := by
    rw [List.range_eq_range', List.range_eq_range']
    conv => rhs; arg 2; rw [← Nat.zero_add nodeCount]
    rw [List.range'_append_1, Nat.zero_add, Nat.add_sub_cancel' grown]
  rw [counted]
  rw [List.perm_iff_count] at numbered seqs ⊢
  intro seq
  have oldCount := numbered seq
  have placedCount := seqs seq
  simp only [List.map_append, List.count_append] at oldCount placedCount ⊢
  omega

/-- A place is always found, be it in a new root. -/
theorem held_place
    (config : Config)
    (split : Int)
    (i : Interval)
    (nodeCount : Nat)
    (root : Node)
    (below : List Node) :
    let placed := place config split i nodeCount root below
    (held (placed.branch ++ placed.closed)).Perm (held (root :: below) ++ [i]) := by
  have settled := held_settle config split i nodeCount root below
  unfold place
  generalize settle config split i nodeCount root below = found at settled ⊢
  simp only at settled ⊢
  by_cases taken : found.held = true
  · rw [if_pos taken] at settled ⊢
    exact settled
  · rw [if_neg taken, List.append_nil] at settled
    rw [if_neg taken]
    rw [List.perm_iff_count] at settled ⊢
    intro j
    have counted := settled j
    simp only [held_append, held_sprout, held_close, held_adopt, List.count_append] at counted ⊢
    simp only [Node.addInterval, Node.addChild, Node.fresh, Array.toList_push, List.nil_append]
    omega

/-! ## What nodes keep -/

/--
What is true of every open node of a branch that takes an interval, and what is
then true of the nodes that are closed at `split`.
-/
structure Lasting
    (i : Interval)
    (split : Int)
    (atHand closed : Node → Prop) : Prop where
  fresh : ∀ kind seq parent start, atHand (Node.fresh kind seq parent start)
  addChild : ∀ node seq start, atHand node → atHand (node.addChild seq start)
  addInterval : ∀ node, atHand node → atHand (node.addInterval i)
  close : ∀ node, atHand node → closed (node.close split)
  adopt : ∀ (node : Node) seq, atHand node → closed ({ node with parent := some seq }.close split)

namespace Lasting

variable {i : Interval} {split : Int} {atHand closed : Node → Prop}

theorem offer
    {node : Node}
    (lasting : Lasting i split atHand closed)
    (config : Config)
    (before : atHand node) :
    atHand (Branch.offer config i node) := by
  unfold Branch.offer
  split
  · exact lasting.addInterval node before
  · exact before

theorem sprout
    {top : Node}
    (lasting : Lasting i split atHand closed)
    (before : atHand top)
    (start : Int)
    (depth seq : Nat) :
    ∀ node ∈ Branch.sprout start depth top seq, atHand node := by
  induction depth generalizing top seq with
  | zero =>
      intro node member
      rw [List.mem_singleton.mp member]
      exact before
  | succ depth ih =>
      intro node member
      rcases List.mem_cons.mp member with rfl | lower
      · exact lasting.addChild top seq start before
      · exact ih (lasting.fresh _ _ _ _) _ node lower

theorem settle
    {top : Node}
    {below : List Node}
    (lasting : Lasting i split atHand closed)
    (before : ∀ node ∈ top :: below, atHand node)
    (config : Config)
    (nodeCount : Nat) :
    let placed := Branch.settle config split i nodeCount top below
    (∀ node ∈ placed.branch, atHand node) ∧ ∀ node ∈ placed.closed, closed node := by
  induction below generalizing top with
  | nil =>
      refine ⟨?_, fun node member => by cases member⟩
      intro node member
      rw [List.mem_singleton.mp member]
      exact lasting.offer config (before top List.mem_cons_self)
  | cons next rest ih =>
      have first := before top List.mem_cons_self
      have inner := ih fun node member => before node (List.mem_cons_of_mem _ member)
      rw [Branch.settle]
      split
      · generalize Branch.settle config split i nodeCount next rest = found at inner ⊢
        rcases inner with ⟨still, done⟩
        have whole : ∀ node ∈ top :: found.branch, atHand node :=
          List.forall_mem_cons.mpr ⟨first, still⟩
        simp only
        split
        · exact ⟨whole, done⟩
        · split
          · refine ⟨lasting.sprout (lasting.offer config first) _ _ _, ?_⟩
            intro node member
            rcases List.mem_append.mp member with old | new
            · exact done node old
            · rcases List.mem_map.mp new with ⟨open_, openMember, rfl⟩
              exact lasting.close open_ (still open_ openMember)
          · exact ⟨whole, done⟩
      · refine ⟨?_, fun node member => by cases member⟩
        refine List.forall_mem_cons.mpr ⟨lasting.offer config first, ?_⟩
        exact fun node member => before node (List.mem_cons_of_mem _ member)

theorem place
    {root : Node}
    {below : List Node}
    (lasting : Lasting i split atHand closed)
    (before : ∀ node ∈ root :: below, atHand node)
    (config : Config)
    (nodeCount : Nat) :
    let placed := Branch.place config split i nodeCount root below
    (∀ node ∈ placed.branch, atHand node) ∧ ∀ node ∈ placed.closed, closed node := by
  have settled := lasting.settle before config nodeCount
  unfold Branch.place
  generalize Branch.settle config split i nodeCount root below = found at settled ⊢
  rcases settled with ⟨still, done⟩
  simp only
  split
  · exact ⟨still, done⟩
  · constructor
    · apply lasting.sprout
      exact lasting.addInterval _ (lasting.addChild _ _ _ (lasting.fresh _ _ _ _))
    · intro node member
      rcases List.mem_append.mp member with old | new
      · exact done node old
      · rcases List.mem_map.mp new with ⟨open_, openMember, rfl⟩
        cases branch : found.branch with
        | nil =>
            rw [branch] at openMember
            cases openMember
        | cons top lower =>
            rw [branch] at still openMember
            rcases List.mem_cons.mp openMember with rfl | inside
            · exact lasting.adopt top _ (still top List.mem_cons_self)
            · exact lasting.close open_ (still open_ (List.mem_cons_of_mem _ inside))

end Lasting

end Branch

end Chronicle.Tree
