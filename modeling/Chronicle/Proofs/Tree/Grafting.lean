import Chronicle.Proofs.Tree.Growth

/-!
# Growing keeps the shape

Nodes that are closed together become one more tree beside what stays open,
and a new branch starts right behind them.  Nodes are closed no earlier than
where anything ends.  An interval can therefore be put into any node of the
branch that starts in time: the branch that holds it is sound again, up to
where nodes are closed then.
-/

namespace Chronicle.Tree

namespace Node

variable {config : Config} {node : Node}

/-- An interval that fits and ends in time lies in the node that begins before it. -/
theorem Filled.addInterval
    {stop split : Int}
    {i : Interval}
    (filled : node.Filled config stop)
    (late : stop ≤ split)
    (ends : i.stop ≤ split)
    (begun : node.start ≤ i.start)
    (fits : node.usedBytes + i.encodedSize ≤ node.kind.capacity config) :
    (node.addInterval i).Filled config split where
  inside := by
    intro j held
    rw [show (node.addInterval i).intervals.toList = node.intervals.toList ++ [i] from
      Array.toList_push] at held
    rcases List.mem_append.mp held with old | new
    · have := filled.inside j old
      exact ⟨this.1, Int.le_trans this.2 late⟩
    · rw [List.mem_singleton.mp new]
      exact ⟨begun, ends⟩
  room := by
    rw [usedBytes_addInterval]
    exact fits
  start_le := by
    have := filled.start_le
    exact Int.le_trans this (by omega)
  fan := filled.fan

/-- One more link fits if there is a place for it. -/
theorem Filled.addChild
    {stop : Int}
    (filled : node.Filled config stop)
    (roomy : node.children.size < config.maxChildren)
    (seq : Nat)
    (start : Int) :
    (node.addChild seq start).Filled config stop where
  inside := filled.inside
  room := filled.room
  start_le := filled.start_le
  fan := by
    rw [show (node.addChild seq start).children.size = node.children.size + 1 from
      Array.size_push _]
    exact roomy

/-- An empty node that begins no later than right after the time is filled. -/
theorem filled_fresh
    {stop start : Int}
    (kind : Kind)
    (seq : Nat)
    (parent : Option Nat)
    (start_le : start ≤ stop + 1) :
    (fresh kind seq parent start).Filled config stop where
  inside i held := by cases held
  room := Nat.zero_le _
  start_le := start_le
  fan := Nat.zero_le _

/-- A filled node is closed where its time ends. -/
theorem Filled.done
    {stop : Int}
    {above : Nat}
    (filled : node.Filled config stop)
    (parent : node.parent = some above)
    (known : config.start ≤ stop) :
    (node.close stop).Done config above stop where
  filled := ⟨filled.inside, filled.room, filled.start_le, filled.fan⟩
  parent := parent
  closed := rfl
  stop_eq := by
    have := filled.start_le
    show max stop (node.start - 1) = stop
    omega
  start_le_stop := known

end Node

/-! ## What becomes of a branch -/

namespace Forest

@[simp]
theorem links_snoc
    (older : Forest)
    (root : Node)
    (below : Forest) :
    (older.snoc root below).links = older.links ++ [root.link] := rfl

end Forest

namespace Spine

/-- The closed trees that a branch closed at `stop` becomes, beside older ones. -/
def graft
    (stop : Int) :
    (older : Forest) →
    (spine : Spine) →
    Forest
  | older, leaf node => older.snoc (node.close stop) .nil
  | older, core node closed next => older.snoc (node.close stop) (graft stop closed next)

/-- A branch that starts anew below `top`, beside the closed trees below it. -/
def sprout
    (start : Int) :
    (depth : Nat) →
    (top : Node) →
    (closed : Forest) →
    (seq : Nat) →
    Spine
  | 0, top, _, _ => leaf top
  | depth + 1, top, closed, seq =>
    let kind := if depth = 0 then .leaf else .core
    core (top.addChild seq start) closed
      (sprout start depth (Node.fresh kind seq (some top.seq) start) .nil (seq + 1))

/-- A branch whose uppermost node hangs below the node of number `seq`. -/
def adopt
    (seq : Nat) :
    (spine : Spine) →
    Spine
  | leaf node => leaf { node with parent := some seq }
  | core node closed next => core { node with parent := some seq } closed next

theorem graft_ne_nil
    (stop : Int)
    (older : Forest)
    (spine : Spine) :
    spine.graft stop older ≠ .nil := by
  cases spine with
  | leaf node => exact Forest.noConfusion
  | core node closed next => exact Forest.noConfusion

theorem links_graft
    (stop : Int)
    (older : Forest)
    (spine : Spine) :
    (spine.graft stop older).links = older.links ++ [spine.top.link] := by
  cases spine with
  | leaf node => rfl
  | core node closed next => rfl

/-- The closed trees consist of the nodes of the branch, closed, and of those closed before. -/
theorem nodes_graft
    (stop : Int)
    (older : Forest)
    (spine : Spine) :
    (spine.graft stop older).nodes.Perm
      (older.nodes ++ ((spine.branch.map fun node => node.close stop) ++ spine.closed)) := by
  induction spine generalizing older with
  | leaf node => exact List.Perm.refl _
  | core node closed next ih =>
      have moved : (next.graft stop closed).nodes.Perm
          ((next.branch.map fun node => node.close stop) ++ (closed.nodes ++ next.closed)) :=
        (ih closed).trans (List.perm_append_comm_assoc _ _ _)
      exact (moved.cons (node.close stop)).append_left older.nodes

theorem branch_sprout
    (start : Int)
    (depth : Nat)
    (top : Node)
    (closed : Forest)
    (seq : Nat) :
    (sprout start depth top closed seq).branch = Branch.sprout start depth top seq := by
  induction depth generalizing top closed seq with
  | zero => rfl
  | succ depth ih => exact congrArg (List.cons _) (ih _ _ _)

theorem closed_sprout
    (start : Int)
    (depth : Nat)
    (top : Node)
    (closed : Forest)
    (seq : Nat) :
    (sprout start (depth + 1) top closed seq).closed = closed.nodes := by
  induction depth generalizing top closed seq with
  | zero => exact List.append_nil _
  | succ depth ih =>
      rw [sprout, Spine.closed, ih]
      exact List.append_nil _

theorem branch_adopt
    (seq : Nat)
    (spine : Spine) :
    (spine.adopt seq).branch = Branch.adopt seq spine.branch := by
  cases spine with
  | leaf node => rfl
  | core node closed next => rfl

theorem closed_adopt
    (seq : Nat)
    (spine : Spine) :
    (spine.adopt seq).closed = spine.closed := by
  cases spine with
  | leaf node => rfl
  | core node closed next => rfl

theorem link_top_adopt
    (seq : Nat)
    (spine : Spine) :
    (spine.adopt seq).top.link = spine.top.link := by
  cases spine with
  | leaf node => rfl
  | core node closed next => rfl

variable {config : Config} {height : Nat} {stop : Int} {spine : Spine}

/-- A sound branch becomes closed trees that tile the time on to where it was closed. -/
theorem Sound.tiles_graft
    {above : Nat}
    {start : Int}
    {older : Forest}
    (sound : spine.Sound config stop (some above) height)
    (before : older.Tiles config above height start (spine.top.start - 1))
    (ordered : ∀ link ∈ older.links, link.start < spine.top.start)
    (known : config.start ≤ stop) :
    (spine.graft stop older).Tiles config above height start stop := by
  induction spine generalizing above height start older with
  | leaf node =>
      cases sound with
      | leaf filled parent kind children =>
          exact .leaf before ordered (filled.done parent known) kind children
  | core node closed next ih =>
      cases sound with
      | core filled parent kind children tiles inner rest =>
          refine .core before ordered (filled.done parent known) kind ?_
            (ih rest tiles inner) (graft_ne_nil _ _ _)
          rw [links_graft]
          exact children

/-- A branch that starts anew right behind closed trees is sound. -/
theorem sound_sprout
    {above : Option Nat}
    {top : Node}
    {closed : Forest}
    (valid : config.Valid)
    (filled : top.Filled config stop)
    (parent : top.parent = above)
    (kind : top.kind = .core)
    (children : top.children.toList = closed.links)
    (roomy : top.children.size < config.maxChildren)
    (tiles : closed.Tiles config top.seq height top.start stop)
    (ordered : ∀ link ∈ closed.links, link.start < stop + 1)
    (seq : Nat) :
    (sprout (stop + 1) (height + 1) top closed seq).Sound config stop above (height + 1) := by
  have linked : ∀ next : Node, next.link = ⟨seq, stop + 1⟩ →
      (top.addChild seq (stop + 1)).children.toList = closed.links ++ [next.link] := by
    intro next link
    rw [link, ← children]
    exact Array.toList_push
  have ends : closed.Tiles config top.seq height top.start (stop + 1 - 1) := by
    rw [Int.add_sub_cancel]
    exact tiles
  induction height generalizing above top closed seq with
  | zero =>
      refine .core (filled.addChild roomy _ _) parent kind (linked _ rfl) ends ordered ?_
      exact .leaf (Node.filled_fresh _ _ _ (Int.le_refl _)) rfl rfl rfl
  | succ height ih =>
      refine .core (filled.addChild roomy _ _) parent kind (linked _ rfl) ends ordered ?_
      have fan := valid.twoChildren
      have childless : (Node.fresh .core seq (some top.seq) (stop + 1)).children.toList
          = Forest.nil.links := rfl
      refine ih (Node.filled_fresh _ _ _ (Int.le_refl _)) rfl rfl childless ?_ ?_ ?_ ?_ ?_ ?_
      · exact Nat.lt_of_lt_of_le Nat.two_pos fan
      · exact .nil rfl
      · intro link member
        cases member
      · intro next link
        rw [link]
        rfl
      · exact .nil (Int.sub_add_cancel _ _).symm

theorem Sound.adopt
    {above : Option Nat}
    (sound : spine.Sound config stop above height)
    (seq : Nat) :
    (spine.adopt seq).Sound config stop (some seq) height := by
  cases sound with
  | leaf filled parent kind children =>
      refine .leaf ?_ rfl kind children
      exact ⟨filled.inside, filled.room, filled.start_le, filled.fan⟩
  | core filled parent kind children tiles ordered rest =>
      refine .core ?_ rfl kind children tiles ordered rest
      exact ⟨filled.inside, filled.room, filled.start_le, filled.fan⟩

end Spine

/-! ## Finding room -/

namespace Branch

variable {config : Config} {height : Nat} {stop split : Int} {i : Interval}

@[simp]
theorem link_offer
    (node : Node) :
    (offer config i node).link = node.link := by
  unfold offer
  split <;> rfl

@[simp]
theorem children_offer
    (node : Node) :
    (offer config i node).children = node.children := by
  unfold offer
  split <;> rfl

@[simp]
theorem parent_offer
    (node : Node) :
    (offer config i node).parent = node.parent := by
  unfold offer
  split <;> rfl

@[simp]
theorem kind_offer
    (node : Node) :
    (offer config i node).kind = node.kind := by
  unfold offer
  split <;> rfl

@[simp]
theorem start_offer
    (node : Node) :
    (offer config i node).start = node.start := by
  unfold offer
  split <;> rfl

theorem filled_offer
    {node : Node}
    (filled : node.Filled config stop)
    (late : stop ≤ split)
    (ends : i.stop ≤ split)
    (begun : node.start ≤ i.start) :
    (offer config i node).Filled config split := by
  unfold offer
  split
  · rename_i fits
    apply filled.addInterval late ends begun
    have room := filled.room
    unfold Fits Node.freeSpace at fits
    omega
  · exact filled.mono late

/-- The uppermost node stays where it is, and loses no child. -/
theorem exists_top_settle
    (config : Config)
    (split : Int)
    (i : Interval)
    (nodeCount : Nat)
    (top : Node)
    (below : List Node) :
    ∃ after rest,
      (settle config split i nodeCount top below).branch = after :: rest
        ∧ rest.length = below.length
        ∧ after.link = top.link
        ∧ top.children.size ≤ after.children.size := by
  have length := length_settle config split i nodeCount top below
  have offered : top.children.size ≤ (offer config i top).children.size :=
    Nat.le_of_eq (by rw [children_offer])
  suffices ∃ after rest, (settle config split i nodeCount top below).branch = after :: rest
      ∧ after.link = top.link ∧ top.children.size ≤ after.children.size by
    rcases this with ⟨after, rest, branch, same, children⟩
    rw [branch] at length
    exact ⟨after, rest, branch, Nat.succ_inj.mp length, same, children⟩
  cases below with
  | nil => exact ⟨_, _, rfl, link_offer top, offered⟩
  | cons next rest =>
      simp only [settle]
      split
      · split
        · exact ⟨_, _, rfl, rfl, Nat.le_refl _⟩
        · split
          · rw [length_settle]
            refine ⟨_, _, rfl, link_offer top, ?_⟩
            exact Nat.le_trans offered (Nat.le_of_lt (Nat.lt_of_lt_of_eq (Nat.lt_succ_self _)
              (Array.size_push _).symm))
          · exact ⟨_, _, rfl, rfl, Nat.le_refl _⟩
      · exact ⟨_, _, rfl, link_offer top, offered⟩

/-- A branch that is sound up to `stop`, and what it means for a placement to have led to it. -/
structure Leads
    (config : Config)
    (stop : Int)
    (above : Option Nat)
    (height : Nat)
    (closed : List Node)
    (placed : Placement)
    (after : Spine) : Prop where
  branch : after.branch = placed.branch
  closed : after.closed.Perm (closed ++ placed.closed)
  sound : after.Sound config stop above height

section Below

variable {above : Option Nat} {node : Node} {closed : Forest} {next inner : Spine}
  {found : Placement}

/-- A node above a sound branch stays above it wherever the search below it leads. -/
theorem Leads.below
    (sound : (Spine.core node closed next).Sound config stop above (height + 1))
    (late : stop ≤ split)
    (sameLink : inner.top.link = next.top.link)
    (leads : Leads config split (some node.seq) height next.closed found inner) :
    Leads config split above (height + 1) (closed.nodes ++ next.closed)
      { found with branch := node :: found.branch } (.core node closed inner) := by
  have sameStart : inner.top.start = next.top.start := congrArg Node.Link.start sameLink
  cases sound with
  | core filled parent kind children tiles ordered rest =>
      constructor
      · exact congrArg (List.cons node) leads.branch
      · rw [List.append_assoc]
        exact leads.closed.append_left _
      · apply Spine.Sound.core (filled.mono late) parent kind
        · rw [sameLink, children]
        · rw [sameStart]
          exact tiles
        · rw [sameStart]
          exact ordered
        · exact leads.sound

/-- A node with room for another child has a new branch below it after the one there was closed. -/
theorem Leads.sprout
    (valid : config.Valid)
    (sound : (Spine.core node closed next).Sound config stop above (height + 1))
    (late : stop ≤ split)
    (ends : i.stop ≤ split)
    (begun : node.start ≤ i.start)
    (inTime : next.top.start ≤ i.start)
    (known : config.start ≤ split)
    (sameLink : inner.top.link = next.top.link)
    (leads : Leads config split (some node.seq) height next.closed found inner)
    (roomy : node.children.size < config.maxChildren) :
    Leads config split above (height + 1) (closed.nodes ++ next.closed)
      { held := Fits config node i
        branch := Branch.sprout (split + 1) found.branch.length (offer config i node)
          found.nodeCount
        closed := found.closed ++ found.branch.map fun node => node.close split
        nodeCount := found.nodeCount + found.branch.length }
      (Spine.sprout (split + 1) (height + 1) (offer config i node)
        (inner.graft split closed) found.nodeCount) := by
  have sameStart : inner.top.start = next.top.start := congrArg Node.Link.start sameLink
  have length : found.branch.length = height + 1 := by
    rw [← leads.branch, leads.sound.length_branch]
  cases sound with
  | core filled parent kind children tiles ordered rest =>
      constructor
      · rw [Spine.branch_sprout, length]
      · rw [Spine.closed_sprout]
        apply (Spine.nodes_graft _ _ _).trans
        rw [List.append_assoc, leads.branch]
        apply List.Perm.append_left
        apply List.perm_append_comm.trans
        rw [← List.append_assoc]
        exact leads.closed.append_right _
      · have grafted : (inner.graft split closed).Tiles config node.seq height
            node.start split := by
          apply leads.sound.tiles_graft _ _ known
          · rw [sameStart]
            exact tiles
          · rw [sameStart]
            exact ordered
        have links : (inner.graft split closed).links = closed.links ++ [next.top.link] :=
          (Spine.links_graft _ _ _).trans (by rw [sameLink])
        have forwards := i.ordered
        apply Spine.sound_sprout valid (filled_offer filled late ends begun)
        · rw [parent_offer, parent]
        · rw [kind_offer, kind]
        · rw [children_offer, children, links]
        · rw [children_offer]
          exact roomy
        · rw [start_offer, seq_offer]
          exact grafted
        · intro link member
          rw [links] at member
          rcases List.mem_append.mp member with old | new
          · have := ordered link old
            omega
          · rw [List.mem_singleton.mp new]
            show next.top.start < split + 1
            omega

end Below

/-- The search for room leads to a sound branch, whether or not there is room. -/
theorem exists_settle
    {above : Option Nat}
    {spine : Spine}
    (valid : config.Valid)
    (sound : spine.Sound config stop above height)
    (late : stop ≤ split)
    (ends : i.stop ≤ split)
    (begun : spine.top.start ≤ i.start)
    (known : config.start ≤ split)
    (nodeCount : Nat) :
    ∃ after, after.top.link = spine.top.link
      ∧ Leads config split above height spine.closed
        (settle config split i nodeCount spine.top spine.lower) after := by
  induction spine generalizing above height with
  | leaf node =>
      cases sound with
      | leaf filled parent kind children =>
          refine ⟨.leaf (offer config i node), link_offer node, rfl, List.Perm.refl _, ?_⟩
          apply Spine.Sound.leaf (filled_offer filled late ends begun)
          · rw [parent_offer, parent]
          · rw [kind_offer, kind]
          · rw [children_offer, children]
  | core node closed next ih =>
      have whole := sound
      cases sound with
      | @core _ height _ _ _ filled parent kind children tiles ordered rest =>
          have top : (Spine.core node closed next).top = node := rfl
          have lower : (Spine.core node closed next).lower = next.top :: next.lower := rfl
          rw [top, lower, settle]
          by_cases inTime : next.top.start ≤ i.start
          · rcases ih rest inTime with ⟨inner, sameLink, leads⟩
            rw [if_pos inTime]
            generalize settle config split i nodeCount next.top next.lower = found at leads ⊢
            have kept := leads.below whole late sameLink
            simp only
            by_cases taken : found.held = true
            · rw [if_pos taken]
              exact ⟨_, rfl, kept⟩
            · rw [if_neg taken]
              by_cases roomy : node.children.size < config.maxChildren
              · rw [if_pos roomy]
                exact ⟨Spine.sprout (split + 1) (height + 1) (offer config i node)
                  (inner.graft split closed) found.nodeCount, link_offer node,
                  leads.sprout valid whole late ends begun inTime known sameLink roomy⟩
              · rw [if_neg roomy]
                exact ⟨_, rfl, kept⟩
          · rw [if_neg inTime]
            refine ⟨.core (offer config i node) closed next, link_offer node, rfl, ?_, ?_⟩
            · rw [List.append_nil]
              exact List.Perm.refl _
            · apply Spine.Sound.core (filled_offer filled late ends begun)
              · rw [parent_offer, parent]
              · rw [kind_offer, kind]
              · rw [children_offer, children]
              · rw [start_offer, seq_offer]
                exact tiles
              · exact ordered
              · rw [seq_offer]
                exact rest.mono late

/-- A new root above another has room for an interval that every node has room for. -/
theorem filled_root
    {root : Node}
    (valid : config.Valid)
    (ends : i.stop ≤ split)
    (begun : config.start ≤ i.start)
    (small : i.encodedSize ≤ config.coreCapacity)
    (seq : Nat) :
    (((Node.fresh .core seq none config.start).addChild root.seq config.start).addInterval i).Filled
      config split := by
  have forwards := i.ordered
  have fresh : (Node.fresh .core seq none config.start).Filled config split :=
    Node.filled_fresh _ _ _ (by omega)
  have parent := fresh.addChild (Nat.lt_of_lt_of_le Nat.two_pos valid.twoChildren)
    root.seq config.start
  apply parent.addInterval (Int.le_refl _) ends begun
  rw [Node.usedBytes_addChild]
  simpa [Node.fresh, Node.usedBytes, Node.Kind.capacity, Node.addChild] using small

/-- A branch without room gets a new root, with what was there closed below it. -/
theorem Leads.grow
    {root : Node}
    {old : List Node}
    {inner : Spine}
    {found : Placement}
    (valid : config.Valid)
    (ends : i.stop ≤ split)
    (begun : config.start ≤ i.start)
    (small : i.encodedSize ≤ config.coreCapacity)
    (sameLink : inner.top.link = ⟨root.seq, config.start⟩)
    (leads : Leads config split none height old found inner) :
    let newRoot :=
      ((Node.fresh .core found.nodeCount none config.start).addChild root.seq
        config.start).addInterval i
    Leads config split none (height + 1) old
      { held := true
        branch := Branch.sprout (split + 1) found.branch.length newRoot (found.nodeCount + 1)
        closed := found.closed
          ++ (Branch.adopt found.nodeCount found.branch).map fun node => node.close split
        nodeCount := found.nodeCount + 1 + found.branch.length }
      (Spine.sprout (split + 1) (height + 1) newRoot
        ((inner.adopt found.nodeCount).graft split .nil) (found.nodeCount + 1)) := by
  intro newRoot
  have forwards := i.ordered
  have known : config.start ≤ split := by omega
  have length : found.branch.length = height + 1 := by
    rw [← leads.branch, leads.sound.length_branch]
  have link : (inner.adopt found.nodeCount).top.link = ⟨root.seq, config.start⟩ := by
    rw [Spine.link_top_adopt, sameLink]
  have links : ((inner.adopt found.nodeCount).graft split .nil).links
      = [⟨root.seq, config.start⟩] := by
    rw [Spine.links_graft, link]
    rfl
  constructor
  · rw [Spine.branch_sprout, length]
  · rw [Spine.closed_sprout]
    apply (Spine.nodes_graft _ _ _).trans
    rw [Spine.branch_adopt, Spine.closed_adopt, leads.branch, Forest.nodes, List.nil_append]
    apply List.perm_append_comm.trans
    rw [← List.append_assoc]
    exact leads.closed.append_right _
  · have grafted : ((inner.adopt found.nodeCount).graft split .nil).Tiles config found.nodeCount
        height config.start split := by
      apply (leads.sound.adopt found.nodeCount).tiles_graft (.nil _) _ known
      · rw [show (inner.adopt found.nodeCount).top.start = config.start
          from congrArg Node.Link.start link]
        omega
      · intro other member
        cases member
    apply Spine.sound_sprout valid (filled_root valid ends begun small found.nodeCount) rfl rfl
    · rw [links]
      rfl
    · exact valid.twoChildren
    · exact grafted
    · intro other member
      rw [links, List.mem_singleton] at member
      rw [member]
      show config.start < split + 1
      omega

/-- The search for a place leads to a sound tree, as deep as before or one level deeper. -/
theorem exists_place
    {spine : Spine}
    (valid : config.Valid)
    (sound : spine.Sound config stop none height)
    (late : stop ≤ split)
    (ends : i.stop ≤ split)
    (first : spine.top.start = config.start)
    (begun : config.start ≤ i.start)
    (small : i.encodedSize ≤ config.coreCapacity)
    (nodeCount : Nat) :
    ∃ after height, after.top.start = config.start
      ∧ Leads config split none height spine.closed
        (place config split i nodeCount spine.top spine.lower) after := by
  have forwards := i.ordered
  have known : config.start ≤ split := by omega
  rcases exists_settle valid sound late ends (by omega) known nodeCount with ⟨inner, sameLink, leads⟩
  unfold place
  generalize settle config split i nodeCount spine.top spine.lower = found at leads ⊢
  simp only
  by_cases taken : found.held = true
  · rw [if_pos taken]
    exact ⟨inner, height, (congrArg Node.Link.start sameLink).trans first, leads⟩
  · rw [if_neg taken]
    have link : inner.top.link = ⟨spine.top.seq, config.start⟩ := by
      rw [sameLink, ← first]
      rfl
    exact ⟨_, height + 1, rfl, leads.grow valid ends begun small link⟩

end Branch

end Chronicle.Tree
