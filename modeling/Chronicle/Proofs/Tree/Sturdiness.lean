import Chronicle.Proofs.Backend.Siting

/-!
# Trees that were given anything

A tree can be given intervals that end before others, or that cover what
others of their attribute cover.  Its answers then depend on the order in which
they came, but its nodes are as sturdy as ever: each fits its block, and each
link leads to a node that there is, one level further down.
-/

namespace Chronicle.Tree

/-! ## Nodes -/

/-- The numbers that there are keep their levels. -/
def SameBelow
    (count : Nat)
    (level other : Nat → Nat) :
    Prop :=
  ∀ seq < count, other seq = level seq

theorem SameBelow.trans
    {count more : Nat}
    {level between other : Nat → Nat}
    (first : SameBelow count level between)
    (grown : count ≤ more)
    (second : SameBelow more between other) :
    SameBelow count level other :=
  fun seq old => (second seq (Nat.lt_of_lt_of_le old grown)).trans (first seq old)

/--
A node that can be written into its block, among `count` nodes of which each
has its level above the leaves.
-/
structure Node.Sturdy
    (config : Config)
    (count : Nat)
    (level : Nat → Nat)
    (node : Node) : Prop where
  seq_lt : node.seq < count
  parent_lt : ∀ above, node.parent = some above → above < count
  start_ge : config.start ≤ node.start
  start_le : node.start ≤ latestInstant
  links : ∀ link ∈ node.children.toList,
    (link.seq < count ∧ level link.seq < level node.seq)
      ∧ config.start ≤ link.start ∧ link.start ≤ latestInstant
  intervals : ∀ i ∈ node.intervals.toList, i.Storable
  fan : node.children.size ≤ config.maxChildren
  leaf : node.kind = .leaf → node.children = #[]
  room : node.usedBytes ≤ node.kind.capacity config

namespace Node

variable {config : Config} {count : Nat} {level : Nat → Nat} {node : Node}

theorem Sturdy.mono
    {more : Nat}
    {other : Nat → Nat}
    (sturdy : node.Sturdy config count level)
    (grown : count ≤ more)
    (same : SameBelow count level other) :
    node.Sturdy config more other where
  seq_lt := Nat.lt_of_lt_of_le sturdy.seq_lt grown
  parent_lt above hangs := Nat.lt_of_lt_of_le (sturdy.parent_lt above hangs) grown
  start_ge := sturdy.start_ge
  start_le := sturdy.start_le
  links link member := by
    rcases sturdy.links link member with ⟨⟨known, deeper⟩, inTime⟩
    rw [same _ known, same _ sturdy.seq_lt]
    exact ⟨⟨Nat.lt_of_lt_of_le known grown, deeper⟩, inTime⟩
  intervals := sturdy.intervals
  fan := sturdy.fan
  leaf := sturdy.leaf
  room := sturdy.room

theorem Sturdy.close
    (sturdy : node.Sturdy config count level)
    (stop : Int) :
    (node.close stop).Sturdy config count level :=
  ⟨sturdy.seq_lt, sturdy.parent_lt, sturdy.start_ge, sturdy.start_le, sturdy.links,
    sturdy.intervals, sturdy.fan, sturdy.leaf, sturdy.room⟩

theorem Sturdy.adopt
    {seq : Nat}
    (sturdy : node.Sturdy config count level)
    (known : seq < count) :
    { node with parent := some seq }.Sturdy config count level :=
  ⟨sturdy.seq_lt, fun _ hangs => Option.some.inj hangs ▸ known, sturdy.start_ge, sturdy.start_le,
    sturdy.links, sturdy.intervals, sturdy.fan, sturdy.leaf, sturdy.room⟩

theorem Sturdy.addInterval
    {i : Interval}
    (sturdy : node.Sturdy config count level)
    (storable : i.Storable)
    (room : node.usedBytes + i.encodedSize ≤ node.kind.capacity config) :
    (node.addInterval i).Sturdy config count level where
  seq_lt := sturdy.seq_lt
  parent_lt := sturdy.parent_lt
  start_ge := sturdy.start_ge
  start_le := sturdy.start_le
  links := sturdy.links
  intervals j member := by
    have either : j ∈ node.intervals.toList ∨ j = i := by
      simpa [Node.addInterval] using member
    rcases either with old | rfl
    · exact sturdy.intervals j old
    · exact storable
  fan := sturdy.fan
  leaf := sturdy.leaf
  room := by
    rw [usedBytes_addInterval]
    exact room

/-- An interval is only put into a node that it fits into. -/
theorem Sturdy.offer
    {i : Interval}
    (sturdy : node.Sturdy config count level)
    (storable : i.Storable) :
    (Branch.offer config i node).Sturdy config count level := by
  unfold Branch.offer
  by_cases fits : Branch.Fits config node i
  · rw [if_pos fits]
    refine sturdy.addInterval storable ?_
    have room := sturdy.room
    unfold Branch.Fits Node.freeSpace at fits
    omega
  · rw [if_neg fits]
    exact sturdy

/-- A node above the leaves gets one more child one level further down, if it has a place. -/
theorem Sturdy.addChild
    {seq : Nat}
    {start : Int}
    (sturdy : node.Sturdy config count level)
    (kind : node.kind = .core)
    (roomy : node.children.size < config.maxChildren)
    (known : seq < count ∧ level seq < level node.seq)
    (inTime : config.start ≤ start ∧ start ≤ latestInstant) :
    (node.addChild seq start).Sturdy config count level where
  seq_lt := sturdy.seq_lt
  parent_lt := sturdy.parent_lt
  start_ge := sturdy.start_ge
  start_le := sturdy.start_le
  links link member := by
    have either : link ∈ node.children.toList ∨ link = ⟨seq, start⟩ := by
      simpa [Node.addChild] using member
    rcases either with old | rfl
    · exact sturdy.links link old
    · exact ⟨known, inTime⟩
  intervals := sturdy.intervals
  fan := (Nat.le_of_eq (Array.size_push _)).trans roomy
  leaf isLeaf := by cases kind.symm.trans isLeaf
  room := sturdy.room

theorem sturdy_fresh
    {seq : Nat}
    {parent : Option Nat}
    {start : Int}
    (kind : Kind)
    (known : seq < count)
    (hangs : ∀ above, parent = some above → above < count)
    (inTime : config.start ≤ start ∧ start ≤ latestInstant) :
    (fresh kind seq parent start).Sturdy config count level where
  seq_lt := known
  parent_lt := hangs
  start_ge := inTime.1
  start_le := inTime.2
  links link member := by cases member
  intervals i member := by cases member
  fan := Nat.zero_le _
  leaf _ := rfl
  room := Nat.zero_le _

/-- A sturdy node with an end that fits its field can be told in full by its block. -/
theorem Sturdy.storable
    (sturdy : node.Sturdy config count level)
    (few : count < 4294967296)
    (begun : -9223372036854775808 ≤ config.start)
    (stop_ge : -9223372036854775808 ≤ node.stop)
    (stop_le : node.stop ≤ latestInstant) :
    node.Storable config where
  seq_lt := Nat.lt_trans sturdy.seq_lt few
  parent_lt above hangs := Nat.lt_trans (sturdy.parent_lt above hangs) few
  start_ge := Int.le_trans begun sturdy.start_ge
  start_le := sturdy.start_le
  stop_ge := stop_ge
  stop_le := stop_le
  links link member := by
    rcases sturdy.links link member with ⟨⟨known, -⟩, start_ge, start_le⟩
    exact ⟨Nat.lt_trans known few, Int.le_trans begun start_ge, start_le⟩
  intervals := sturdy.intervals
  fan := sturdy.fan
  leaf := sturdy.leaf
  room := sturdy.room

/-- A sturdy node that was closed no earlier than at the start of the history. -/
structure Ended
    (config : Config)
    (count : Nat)
    (level : Nat → Nat)
    (node : Node) : Prop where
  sturdy : node.Sturdy config count level
  stop_ge : config.start ≤ node.stop
  stop_le : node.stop ≤ latestInstant

theorem Ended.mono
    {more : Nat}
    {other : Nat → Nat}
    (ended : node.Ended config count level)
    (grown : count ≤ more)
    (same : SameBelow count level other) :
    node.Ended config more other :=
  ⟨ended.sturdy.mono grown same, ended.stop_ge, ended.stop_le⟩

theorem Sturdy.ended
    {stop : Int}
    (sturdy : node.Sturdy config count level)
    (begun : config.start ≤ stop)
    (inTime : stop ≤ latestInstant) :
    (node.close stop).Ended config count level := by
  have start_le := sturdy.start_le
  refine ⟨sturdy.close stop, ?_, ?_⟩
  · exact Int.le_trans begun (Int.le_max_left _ _)
  · exact Int.max_le.mpr ⟨inTime, by omega⟩

end Node

/-! ## Branches -/

namespace Branch

/-- A branch of sturdy nodes, each one level above the next, with a leaf at its end. -/
inductive Chain
    (config : Config)
    (count : Nat)
    (level : Nat → Nat) :
    List Node →
    Prop
  | leaf
      {node : Node}
      (sturdy : node.Sturdy config count level)
      (low : level node.seq = 0)
      (childless : node.children = #[]) :
      Chain config count level [node]
  | core
      {node next : Node}
      {rest : List Node}
      (sturdy : node.Sturdy config count level)
      (kind : node.kind = .core)
      (high : level node.seq = rest.length + 1)
      (below : Chain config count level (next :: rest)) :
      Chain config count level (node :: next :: rest)

namespace Chain

variable {config : Config} {count : Nat} {level : Nat → Nat} {branch : List Node}

theorem sturdy
    (chain : Chain config count level branch)
    {node : Node}
    (member : node ∈ branch) :
    node.Sturdy config count level := by
  induction chain with
  | leaf sturdy => exact List.mem_singleton.mp member ▸ sturdy
  | core sturdy kind high below ih =>
      rcases List.mem_cons.mp member with rfl | lower
      · exact sturdy
      · exact ih lower

/-- The level of the uppermost node is the number of nodes below it. -/
theorem level_top
    {top : Node}
    {below : List Node}
    (chain : Chain config count level (top :: below)) :
    level top.seq = below.length := by
  cases chain with
  | leaf sturdy low childless => exact low
  | core sturdy kind high below => exact high

/-- A new branch below a sturdy node, whose nodes count down in level as they count up in number. -/
theorem sprout
    {start : Int}
    {depth seq : Nat}
    {top : Node}
    (valid : config.Valid)
    (sturdy : top.Sturdy config count level)
    (high : level top.seq = depth)
    (inner : 0 < depth → top.kind = .core ∧ top.children.size < config.maxChildren)
    (childless : depth = 0 → top.children = #[])
    (known : seq + depth ≤ count)
    (levels : ∀ place < depth, level (seq + place) = depth - 1 - place)
    (inTime : config.start ≤ start ∧ start ≤ latestInstant) :
    Chain config count level (Branch.sprout start depth top seq) := by
  induction depth generalizing top seq with
  | zero => exact .leaf sturdy high (childless rfl)
  | succ depth ih =>
      rcases inner (Nat.succ_pos depth) with ⟨core, roomy⟩
      have first : level seq = depth := levels 0 (Nat.succ_pos depth)
      have linked : (top.addChild seq start).Sturdy config count level :=
        sturdy.addChild core roomy ⟨by omega, by omega⟩ inTime
      have fresh : (Node.fresh (if depth = 0 then .leaf else .core) seq (some top.seq)
          start).Sturdy config count level :=
        Node.sturdy_fresh _ (by omega) (fun _ same => Option.some.inj same ▸ sturdy.seq_lt) inTime
      have lower : ∀ place < depth, level (seq + 1 + place) = depth - 1 - place := by
        intro place inside
        rw [Nat.add_right_comm, Nat.add_assoc, levels (place + 1) (Nat.succ_lt_succ inside)]
        omega
      have below := ih fresh first
        (fun some_ => ⟨if_neg (Nat.ne_of_gt some_), Nat.lt_of_lt_of_le Nat.two_pos valid.twoChildren⟩)
        (fun _ => rfl) (by omega) lower
      cases depth with
      | zero => exact .core linked core high below
      | succ depth =>
          refine .core linked core ?_ below
          rw [length_sprout]
          exact high

/-- The levels of new nodes can be chosen so that they count down to the leaf. -/
theorem exists_sprout
    {start : Int}
    {depth : Nat}
    {top : Node}
    (valid : config.Valid)
    (sturdy : top.Sturdy config count level)
    (high : level top.seq = depth + 1)
    (core : top.kind = .core)
    (roomy : top.children.size < config.maxChildren)
    (inTime : config.start ≤ start ∧ start ≤ latestInstant) :
    ∃ other,
      SameBelow count level other
        ∧ Chain config (count + (depth + 1)) other
          (Branch.sprout start (depth + 1) top count) := by
  let other := fun seq => if seq < count then level seq else count + depth - seq
  have same : SameBelow count level other := fun seq old => if_pos old
  refine ⟨other, same, ?_⟩
  refine sprout valid (sturdy.mono (Nat.le_add_right _ _) same) ((same _ sturdy.seq_lt).trans high)
    (fun _ => ⟨core, roomy⟩) (fun none => by cases none) (Nat.le_refl _) ?_ inTime
  intro place inside
  show (if count + place < count then _ else _) = _
  rw [if_neg (by omega)]
  omega

end Chain

/-! ## Finding room -/

/-- What became of a branch is sturdy: what is still open, and what was closed. -/
structure Firm
    (config : Config)
    (level : Nat → Nat)
    (placed : Placement) : Prop where
  chain : Chain config placed.nodeCount level placed.branch
  ended : ∀ node ∈ placed.closed, node.Ended config placed.nodeCount level

namespace Firm

variable {config : Config} {level : Nat → Nat} {found : Placement}

/-- A node above a branch stays above what became of it. -/
theorem below
    {nodeCount : Nat}
    {old : Nat → Nat}
    {top : Node}
    {rest : List Node}
    (firm : Firm config level found)
    (sturdy : top.Sturdy config nodeCount old)
    (kind : top.kind = .core)
    (high : old top.seq = rest.length + 1)
    (length : found.branch.length = rest.length + 1)
    (same : SameBelow nodeCount old level)
    (grown : nodeCount ≤ found.nodeCount) :
    Firm config level { found with branch := top :: found.branch } where
  chain := by
    have lasting := sturdy.mono grown same
    have deeper := (same _ sturdy.seq_lt).trans high
    have chain := firm.chain
    show Chain config found.nodeCount level (top :: found.branch)
    cases branch : found.branch with
    | nil =>
        rw [branch] at length
        cases length
    | cons next lower =>
        rw [branch] at length chain
        rw [← length] at deeper
        exact .core lasting kind deeper chain
  ended := firm.ended

end Firm

/-- Below a node all is closed, what was closed before and a branch, and a new branch is started. -/
theorem exists_firm_sprout
    {config : Config}
    {split : Int}
    {count depth : Nat}
    {level : Nat → Nat}
    {top : Node}
    {closed branch : List Node}
    (valid : config.Valid)
    (begun : config.start ≤ split)
    (inTime : split + 1 ≤ latestInstant)
    (sturdy : top.Sturdy config count level)
    (high : level top.seq = depth + 1)
    (core : top.kind = .core)
    (roomy : top.children.size < config.maxChildren)
    (ended : ∀ node ∈ closed, node.Ended config count level)
    (lasting : ∀ node ∈ branch, node.Sturdy config count level)
    (held : Bool) :
    ∃ other,
      SameBelow count level other
        ∧ Firm config other
          { held := held
            branch := sprout (split + 1) (depth + 1) top count
            closed := closed ++ branch.map fun node => node.close split
            nodeCount := count + (depth + 1) } := by
  have behind : config.start ≤ split + 1 ∧ split + 1 ≤ latestInstant := ⟨by omega, inTime⟩
  rcases Chain.exists_sprout valid sturdy high core roomy behind with ⟨other, same, chain⟩
  refine ⟨other, same, chain, fun node member => ?_⟩
  have before : node.Ended config count level := by
    rcases List.mem_append.mp member with earlier | now
    · exact ended node earlier
    · rcases List.mem_map.mp now with ⟨old, oldMember, rfl⟩
      exact (lasting old oldMember).ended begun (by omega)
  exact before.mono (Nat.le_add_right _ _) same

/-- The uppermost of the new nodes starts where the new branch does. -/
theorem exists_start_sprout
    (start : Int)
    (depth : Nat)
    (top : Node)
    (seq : Nat) :
    ∃ node ∈ sprout start (depth + 1) top seq, node.start = start := by
  refine ⟨(sprout start depth (Node.fresh (if depth = 0 then .leaf else .core) seq (some top.seq)
    start) (seq + 1)).head (List.ne_nil_of_length_pos (by rw [length_sprout]; omega)),
    List.mem_cons_of_mem _ (List.head_mem _), ?_⟩
  cases depth with
  | zero => rfl
  | succ depth => rfl

/-- If there is a new node, one of the branch starts right behind what was closed. -/
theorem exists_start_settle
    {config : Config}
    {split : Int}
    {i : Interval}
    {nodeCount : Nat}
    {top : Node}
    {below : List Node}
    (grown : nodeCount < (settle config split i nodeCount top below).nodeCount) :
    ∃ node ∈ (settle config split i nodeCount top below).branch, node.start = split + 1 := by
  induction below generalizing top with
  | nil => exact absurd grown (Nat.lt_irrefl _)
  | cons next rest ih =>
      have length := length_settle config split i nodeCount next rest
      have inner := @ih next
      unfold settle at grown ⊢
      by_cases early : next.start ≤ i.start
      · rw [if_pos early] at grown ⊢
        generalize settle config split i nodeCount next rest = found at *
        dsimp only at grown ⊢
        by_cases held : found.held = true
        · rw [if_pos held] at grown ⊢
          rcases inner grown with ⟨node, member, start⟩
          exact ⟨node, List.mem_cons_of_mem _ member, start⟩
        · rw [if_neg held] at grown ⊢
          by_cases roomy : top.children.size < config.maxChildren
          · rw [if_pos roomy] at grown ⊢
            rw [length]
            exact exists_start_sprout _ _ _ _
          · rw [if_neg roomy] at grown ⊢
            rcases inner grown with ⟨node, member, start⟩
            exact ⟨node, List.mem_cons_of_mem _ member, start⟩
      · rw [if_neg early] at grown
        exact absurd grown (Nat.lt_irrefl _)

/-- Finding room keeps a branch sturdy, if a new one starts in time. -/
theorem exists_firm_settle
    {config : Config}
    {split : Int}
    {i : Interval}
    {nodeCount : Nat}
    {level : Nat → Nat}
    {top : Node}
    {below : List Node}
    (valid : config.Valid)
    (storable : i.Storable)
    (begun : config.start ≤ split)
    (chain : Chain config nodeCount level (top :: below))
    (new : nodeCount < (settle config split i nodeCount top below).nodeCount →
      split + 1 ≤ latestInstant) :
    ∃ other,
      SameBelow nodeCount level other
        ∧ Firm config other (settle config split i nodeCount top below) := by
  have offered : ∀ {count level} {node : Node}, node.Sturdy config count level →
      (offer config i node).Sturdy config count level := fun sturdy => sturdy.offer storable
  induction below generalizing top level with
  | nil =>
      cases chain with
      | leaf sturdy low childless =>
          refine ⟨level, fun _ _ => rfl, ?_, fun node member => by cases member⟩
          refine .leaf (offered sturdy) ?_ ?_
          · rw [seq_offer]
            exact low
          · rw [children_offer]
            exact childless
  | cons next rest ih =>
      cases chain with
      | core sturdy kind high below =>
          have grown := (seqs_settle config split i nodeCount next rest).1
          have length := length_settle config split i nodeCount next rest
          have inner := ih below
          unfold settle at new ⊢
          by_cases early : next.start ≤ i.start
          · rw [if_pos early] at new ⊢
            generalize settle config split i nodeCount next rest = found at *
            dsimp only at new ⊢
            by_cases held : found.held = true
            · rw [if_pos held] at new ⊢
              rcases inner new with ⟨other, same, firm⟩
              exact ⟨other, same, firm.below sturdy kind high length same grown⟩
            · rw [if_neg held] at new ⊢
              by_cases roomy : top.children.size < config.maxChildren
              · rw [if_pos roomy] at new ⊢
                have inTime := new (by dsimp only; omega)
                -- what is below may have new nodes; those of the new branch are numbered after them
                rcases inner (fun _ => inTime) with ⟨between, sameBetween, firm⟩
                have lasting := offered (sturdy.mono grown sameBetween)
                have higher : between (offer config i top).seq = rest.length + 1 := by
                  rw [seq_offer, sameBetween _ sturdy.seq_lt, high]
                have core : (offer config i top).kind = .core := by rw [kind_offer, kind]
                have room : (offer config i top).children.size < config.maxChildren := by
                  rw [children_offer]
                  exact roomy
                rw [length]
                rcases exists_firm_sprout valid begun inTime lasting higher core room firm.ended
                  (fun node member => firm.chain.sturdy member) _ with ⟨other, same, whole⟩
                exact ⟨other, sameBetween.trans grown same, whole⟩
              · rw [if_neg roomy] at new ⊢
                rcases inner new with ⟨other, same, firm⟩
                exact ⟨other, same, firm.below sturdy kind high length same grown⟩
          · rw [if_neg early]
            refine ⟨level, fun _ _ => rfl, ?_, fun node member => by cases member⟩
            refine .core (offered sturdy) ?_ ?_ below
            · rw [kind_offer, kind]
            · rw [seq_offer, high]

/-- The nodes of a branch below a new root are sturdy as before. -/
theorem sturdy_adopt
    {config : Config}
    {count seq : Nat}
    {level : Nat → Nat}
    {branch : List Node}
    (sturdy : ∀ node ∈ branch, node.Sturdy config count level)
    (known : seq < count)
    {node : Node}
    (member : node ∈ adopt seq branch) :
    node.Sturdy config count level := by
  cases branch with
  | nil => cases member
  | cons top below =>
      rcases List.mem_cons.mp member with rfl | lower
      · exact (sturdy top List.mem_cons_self).adopt known
      · exact sturdy node (List.mem_cons_of_mem _ lower)

/-- A new root with an interval is sturdy, one level above the old one. -/
theorem exists_sturdy_root
    {config : Config}
    {i : Interval}
    {count : Nat}
    {root : Node}
    (valid : config.Valid)
    (storable : i.Storable)
    (small : i.encodedSize ≤ config.coreCapacity)
    (inTime : config.start ≤ latestInstant)
    (known : root.seq < count)
    (level : Nat → Nat) :
    ∃ other,
      SameBelow count level other
        ∧ other count = level root.seq + 1
        ∧ (((Node.fresh .core count none config.start).addChild root.seq
          config.start).addInterval i).Sturdy config (count + 1) other := by
  let other := fun seq => if seq < count then level seq else level root.seq + 1
  have same : SameBelow count level other := fun seq old => if_pos old
  have high : other count = level root.seq + 1 := if_neg (Nat.lt_irrefl _)
  have bounds : config.start ≤ config.start ∧ config.start ≤ latestInstant :=
    ⟨Int.le_refl _, inTime⟩
  have lower : other root.seq < other count := by
    rw [high, same _ known]
    exact Nat.lt_succ_self _
  have empty : (Node.fresh .core count none config.start).Sturdy config (count + 1) other :=
    Node.sturdy_fresh _ (Nat.lt_succ_self _) (fun _ hangs => by cases hangs) bounds
  have linked := empty.addChild rfl (Nat.lt_of_lt_of_le Nat.two_pos valid.twoChildren)
    ⟨Nat.lt_succ_of_lt known, lower⟩ bounds
  refine ⟨other, same, high, linked.addInterval storable ?_⟩
  rw [Node.usedBytes_addChild]
  exact (Nat.le_of_eq (Nat.zero_add _)).trans small

/-- So does putting a new root above it. -/
theorem exists_firm_place
    {config : Config}
    {split : Int}
    {i : Interval}
    {nodeCount : Nat}
    {level : Nat → Nat}
    {root : Node}
    {below : List Node}
    (valid : config.Valid)
    (storable : i.Storable)
    (small : i.encodedSize ≤ config.coreCapacity)
    (begun : config.start ≤ split)
    (chain : Chain config nodeCount level (root :: below))
    (new : nodeCount < (place config split i nodeCount root below).nodeCount →
      split + 1 ≤ latestInstant) :
    ∃ other,
      SameBelow nodeCount level other
        ∧ Firm config other (place config split i nodeCount root below) := by
  have grown := (seqs_settle config split i nodeCount root below).1
  have length := length_settle config split i nodeCount root below
  have settled := @exists_firm_settle config split i nodeCount level root below valid storable begun
    chain
  unfold place at new ⊢
  generalize settle config split i nodeCount root below = found at *
  dsimp only at new ⊢
  by_cases held : found.held = true
  · rw [if_pos held] at new ⊢
    exact settled new
  rw [if_neg held] at new ⊢
  have inTime := new (by dsimp only; omega)
  rcases settled fun _ => inTime with ⟨between, sameBetween, firm⟩
  have known := (chain.sturdy List.mem_cons_self).seq_lt
  rcases exists_sturdy_root valid storable small (by omega) (Nat.lt_of_lt_of_le known grown) between
    with ⟨raised, sameRaised, high, sturdy⟩
  rw [sameBetween _ known, chain.level_top] at high
  have lasting : ∀ node ∈ found.branch, node.Sturdy config (found.nodeCount + 1) raised :=
    fun node member => (firm.chain.sturdy member).mono (Nat.le_succ _) sameRaised
  rw [length]
  rcases exists_firm_sprout valid begun inTime sturdy high rfl valid.twoChildren
    (fun node member => (firm.ended node member).mono (Nat.le_succ _) sameRaised)
    (fun node member => sturdy_adopt lasting (Nat.lt_succ_self _) member) true with
    ⟨other, same, whole⟩
  exact ⟨other, sameBetween.trans grown (sameRaised.trans (Nat.le_succ _) same), whole⟩

/-- If there is a new node, be it a root, one of the branch starts right behind what was closed. -/
theorem exists_start_place
    {config : Config}
    {split : Int}
    {i : Interval}
    {nodeCount : Nat}
    {root : Node}
    {below : List Node}
    (grown : nodeCount < (place config split i nodeCount root below).nodeCount) :
    ∃ node ∈ (place config split i nodeCount root below).branch, node.start = split + 1 := by
  have length := length_settle config split i nodeCount root below
  have settled := @exists_start_settle config split i nodeCount root below
  unfold place at grown ⊢
  generalize settle config split i nodeCount root below = found at *
  dsimp only at grown ⊢
  by_cases held : found.held = true
  · rw [if_pos held] at grown ⊢
    exact settled grown
  · rw [if_neg held, length]
    exact exists_start_sprout _ _ _ _

end Branch

/-! ## Trees -/

/-- An open tree of sturdy nodes that are numbered one by one, the closed ones in the file. -/
structure Sturdy
    (s : Placed Tree)
    (level : Nat → Nat)
    (closed : List Node) : Prop where
  unfinished : s.subject.finished = false
  chain : Branch.Chain s.subject.config s.subject.nodeCount level s.subject.branch
  ended : ∀ node ∈ closed, node.Ended s.subject.config s.subject.nodeCount level
  file : NodeFile.Keeps ⟨s.volume, s.subject.io⟩ closed
  numbered : ((s.subject.branch ++ closed).map (·.seq)).Perm (List.range s.subject.nodeCount)
  root : s.subject.branch.head?.map (·.seq) = some s.subject.rootSeq
  begun : s.subject.config.start ≤ s.subject.stop

theorem sturdy_of_create
    {name : String}
    {config : Config}
    {volume made : Volume}
    {tree : Tree}
    (sound : volume.Sound)
    (created : create name config volume = .ok (made, tree))
    (inRange : tree.InRange) :
    Sturdy ⟨made, tree⟩ (fun _ => 0) [] := by
  have keeps := keeps_of_create sound created
  rcases create_eq_ok created with ⟨valid, base, file, based, rfl, rfl⟩
  have bounds : config.start ≤ config.start ∧ config.start ≤ latestInstant :=
    ⟨Int.le_refl _, inRange.stop_le⟩
  constructor
  · rfl
  · refine .leaf (Node.sturdy_fresh _ Nat.one_pos (fun _ hangs => ?_) bounds) rfl rfl
    cases hangs
  · intro node member
    cases member
  · exact keeps
  · exact List.Perm.refl _
  · rfl
  · exact Int.le_refl _

namespace Sturdy

variable {s : Placed Tree} {level : Nat → Nat} {closed : List Node}

theorem numbers
    (sturdy : Sturdy s level closed) :
    Numbers s closed where
  file := sturdy.file
  room _ member := (sturdy.chain.sturdy member).room
  numbered := sturdy.numbered

theorem exists_root
    (sturdy : Sturdy s level closed) :
    ∃ root below,
      s.subject.branch = root :: below
        ∧ root.seq = s.subject.rootSeq
        ∧ level root.seq < s.subject.nodeCount := by
  have chain := sturdy.chain
  have root := sturdy.root
  have length := sturdy.numbered.length_eq
  cases branch : s.subject.branch with
  | nil =>
      rw [branch] at chain
      cases chain
  | cons top below =>
      rw [branch] at chain root length
      rw [List.length_map, List.length_range, List.length_append, List.length_cons] at length
      refine ⟨top, below, rfl, Option.some.inj root, ?_⟩
      rw [chain.level_top]
      omega

/-- When a sturdy tree ends, all its nodes have ended. -/
theorem ended_of_ending
    {last : Int}
    (sturdy : Sturdy s level closed)
    (begun : s.subject.config.start ≤ last)
    (bounded : last ≤ latestInstant)
    {node : Node}
    (member : node ∈ closed ++ (s.subject.ending last).branch) :
    node.Ended s.subject.config s.subject.nodeCount level := by
  rcases List.mem_append.mp member with inFile | atHand
  · exact sturdy.ended node inFile
  · rcases List.mem_map.mp atHand with ⟨old, oldMember, rfl⟩
    exact (sturdy.chain.sturdy oldMember).ended begun bounded

/-- A sturdy tree in which a place was found writes what was closed, and stays sturdy. -/
theorem exists_writeNodes
    {split : Int}
    {placed : Branch.Placement}
    {other : Nat → Nat}
    (sturdy : Sturdy s level closed)
    (late : s.subject.stop ≤ split)
    (firm : Branch.Firm s.subject.config other placed)
    (same : SameBelow s.subject.nodeCount level other)
    (grown : s.subject.nodeCount ≤ placed.nodeCount)
    (numbered : ((placed.branch ++ (closed ++ placed.closed)).map (·.seq)).Perm
      (List.range placed.nodeCount)) :
    ∃ volume cache,
      writeNodes placed.closed ⟨s.volume, s.subject.placing split placed⟩
          = .ok () ⟨volume, (s.subject.placing split placed).withCache cache⟩
        ∧ Sturdy ⟨volume, (s.subject.placing split placed).withCache cache⟩ other
          (closed ++ placed.closed) := by
  have file : NodeFile.Keeps ⟨s.volume, (s.subject.placing split placed).io⟩ closed := sturdy.file
  have room : ∀ node ∈ placed.closed, node.usedBytes ≤ node.kind.capacity s.subject.config :=
    fun node member => (firm.ended node member).sturdy.room
  have distinct : ((closed ++ placed.closed).map (·.seq)).Nodup := by
    have nodup := numbered.nodup_iff.mpr List.nodup_range
    rw [List.map_append] at nodup
    exact (List.nodup_append.mp nodup).2.1
  rcases writeNodes_of_keeps (s := ⟨s.volume, s.subject.placing split placed⟩) file room distinct
    with ⟨volume, cache, wrote, written⟩
  refine ⟨volume, cache, wrote, sturdy.unfinished, firm.chain, ?_, written, numbered, ?_,
    Int.le_trans sturdy.begun late⟩
  · intro node member
    rcases List.mem_append.mp member with old | new
    · exact (sturdy.ended node old).mono grown same
    · exact firm.ended node new
  · show placed.branch.head?.map (·.seq)
      = some ((placed.branch.head?.map (·.seq)).getD s.subject.rootSeq)
    cases branch : placed.branch with
    | nil =>
        have chain := firm.chain
        rw [branch] at chain
        cases chain
    | cons top below => rfl

/-- The place that is found for an interval is sturdy, as long as numbers and times fit. -/
theorem exists_firm
    {i : Interval}
    {root : Node}
    {below : List Node}
    (sturdy : Sturdy s level closed)
    (begun : -9223372036854775808 ≤ s.subject.config.start)
    (numbered : 0 ≤ i.quark ∧ i.quark < 2147483648)
    (branch : s.subject.branch = root :: below)
    (small : i.encodedSize ≤ s.subject.maxIntervalSize)
    (started : root.start ≤ i.start)
    (fits : (s.subject.placing (max s.subject.stop i.stop)
      (Branch.place s.subject.config (max s.subject.stop i.stop) i s.subject.nodeCount root
        below)).InRange) :
    ∃ other,
      SameBelow s.subject.nodeCount level other
        ∧ Branch.Firm s.subject.config other
          (Branch.place s.subject.config (max s.subject.stop i.stop) i s.subject.nodeCount root
            below) := by
  have chain := sturdy.chain
  rw [branch] at chain
  have start_ge := (chain.sturdy List.mem_cons_self).start_ge
  have late : s.subject.stop ≤ max s.subject.stop i.stop := Int.le_max_left _ _
  have last : i.stop ≤ max s.subject.stop i.stop := Int.le_max_right _ _
  have stop_le : max s.subject.stop i.stop ≤ latestInstant := fits.stop_le
  have storable : i.Storable :=
    ⟨by omega, Int.le_trans last stop_le, numbered.1, numbered.2⟩
  refine Branch.exists_firm_place sturdy.file.valid storable small
    (Int.le_trans sturdy.begun late) chain fun more => ?_
  rcases Branch.exists_start_place more with ⟨node, member, start⟩
  rw [← start]
  exact fits.started node member

/-- A tree stays sturdy whatever interval it is given, as long as its numbers and times fit. -/
theorem exists_insert
    {i : Interval}
    (sturdy : Sturdy s level closed)
    (begun : -9223372036854775808 ≤ s.subject.config.start)
    (numbered : 0 ≤ i.quark ∧ i.quark < 2147483648)
    (inRange : ((insert i).reached s).subject.InRange) :
    ((insert i).reached s).subject.config = s.subject.config
      ∧ ∃ other closed, Sturdy ((insert i).reached s) other closed := by
  rcases insert_apply i s with
    ⟨-, fault, stop, late, failed⟩ | ⟨root, below, -, branch, small, started, took⟩
  · rw [Step.reached_of_error failed]
    exact ⟨rfl, level, closed, sturdy.unfinished, sturdy.chain, sturdy.ended, sturdy.file,
      sturdy.numbered, sturdy.root, Int.le_trans sturdy.begun late⟩
  · have numberedNow := sturdy.numbered
    rw [branch] at numberedNow
    have fits := withCache_reached_of_writeNodes took s.subject.io.cache ▸ inRange.withCache _
    rcases sturdy.exists_firm begun numbered branch small started fits with ⟨other, same, firm⟩
    rcases sturdy.exists_writeNodes (Int.le_max_left _ _) firm same
      (Branch.seqs_place _ _ _ _ _ _).1 (Branch.numbered_place numberedNow _ _ _) with
      ⟨volume, cache, wrote, lasting⟩
    rw [Step.reached_of_ok (took.trans wrote)]
    exact ⟨rfl, other, _, lasting⟩

/-- So it does in a whole run. -/
theorem exists_each
    {given : List Interval}
    (sturdy : Sturdy s level closed)
    (numbered : Numbered given)
    (inRange : ∀ before, before <+: given → ((Step.each insert before).reached s).subject.InRange) :
    ((Step.each insert given).reached s).subject.config = s.subject.config
      ∧ ∃ other closed, Sturdy ((Step.each insert given).reached s) other closed := by
  induction given generalizing s level closed with
  | nil => exact ⟨rfl, level, closed, sturdy⟩
  | cons i rest ih =>
      rcases Step.prefixes_cons (fun r : Placed Tree => r.subject.InRange) inRange with ⟨now, later⟩
      rcases sturdy.exists_insert now.start_ge (numbered i List.mem_cons_self)
        (later [] List.nil_prefix) with ⟨config, between, closedThen, lasting⟩
      rcases ih lasting (fun j member => numbered j (List.mem_cons_of_mem i member)) later with
        ⟨sameConfig, whole⟩
      rw [Step.reached_each_cons]
      exact ⟨sameConfig.trans config, whole⟩

end Sturdy

/-- A new tree is sturdy whatever intervals it is given. -/
theorem exists_sturdy_of_created
    {name : String}
    {config : Config}
    {volume made : Volume}
    {tree : Tree}
    {given : List Interval}
    (sound : volume.Sound)
    (created : create name config volume = .ok (made, tree))
    (numbered : Numbered given)
    (inRange : ∀ before, before <+: given →
      ((Step.each insert before).reached ⟨made, tree⟩).subject.InRange) :
    ((Step.each insert given).reached ⟨made, tree⟩).subject.config = config
      ∧ ∃ level closed, Sturdy ((Step.each insert given).reached ⟨made, tree⟩) level closed := by
  have sturdy := sturdy_of_create sound created (inRange [] List.nil_prefix)
  rcases sturdy.exists_each numbered inRange with ⟨config, lasting⟩
  exact ⟨config.trans (holds_of_create sound created).2.1, lasting⟩

end Chronicle.Tree
