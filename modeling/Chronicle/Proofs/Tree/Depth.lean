import Chronicle.Proofs.Backend.Siting
import Chronicle.Proofs.Interval.Succession
import Chronicle.Proofs.Tree.Refinement
import Mathlib.Data.Nat.Log
import Mathlib.Tactic.Linarith
import Mathlib.Tactic.Ring

/-!
# How deep a tree becomes

A tree gets a level only when a root is given up, be it for lack of places for
children or for lack of bytes.  Nodes that are given up for lack of places
have twice as many nodes below them from level to level, so that as many
intervals as the power of two were taken for them.  A node given up for lack
of bytes is worth no more than one level.  The depth of a tree is therefore
logarithmic in the number of intervals, but for the inner nodes that had too
few bytes left.

Those can make all the difference: intervals that start before the last child
of the root can only go to the root, and when each of them fills it, each of
them adds a level.
-/

namespace Chronicle.Tree

namespace Branch

/-! ## Counting what was given up -/

/--
How many inner nodes are given up for lack of bytes while room is found for an
interval: those that are asked to take it and that it does not fit into.
-/
def crowdedOut
    (config : Config)
    (split : Int)
    (i : Interval)
    (nodeCount : Nat)
    (top : Node) :
    (below : List Node) →
    Nat
  | [] => 0
  | next :: rest =>
    if next.start ≤ i.start then
      let deeper := crowdedOut config split i nodeCount next rest
      if (settle config split i nodeCount next rest).held then
        deeper
      else if top.children.size < config.maxChildren then
        deeper + if Fits config top i then 0 else 1
      else
        deeper
    else
      if Fits config top i then 0 else 1

/--
So many intervals, and inner nodes without bytes, explain that a node with
`level` levels below it was given up.
-/
def Spent (level intervals crowded : Nat) : Prop :=
  2 ^ level ≤ intervals * 2 ^ crowded

namespace Spent

variable {level intervals crowded : Nat}

theorem mono
    {moreIntervals moreCrowded : Nat}
    (spent : Spent level intervals crowded)
    (intervals_le : intervals ≤ moreIntervals)
    (crowded_le : crowded ≤ moreCrowded) :
    Spent level moreIntervals moreCrowded :=
  spent.trans (Nat.mul_le_mul intervals_le (Nat.pow_le_pow_right Nat.two_pos crowded_le))

/-- One more node without bytes explains one more level. -/
theorem crowd
    (spent : Spent level intervals crowded) :
    Spent (level + 1) intervals (crowded + 1) := by
  unfold Spent at *
  rw [Nat.pow_succ, Nat.pow_succ, ← Nat.mul_assoc]
  exact Nat.mul_le_mul_right 2 spent

/-- Two nodes that were given up explain that the one above them was. -/
theorem join
    {otherIntervals otherCrowded : Nat}
    (spent : Spent level intervals crowded)
    (other : Spent level otherIntervals otherCrowded) :
    Spent (level + 1) (intervals + otherIntervals) (crowded + otherCrowded) := by
  have one := spent.mono (Nat.le_refl intervals) (Nat.le_add_right crowded otherCrowded)
  have two := other.mono (Nat.le_refl otherIntervals) (Nat.le_add_left otherCrowded crowded)
  unfold Spent at *
  rw [Nat.pow_succ, Nat.add_mul]
  omega

/-- The levels are as many as the logarithm of the intervals, and one for each node without bytes. -/
theorem level_le
    (spent : Spent level intervals crowded) :
    level ≤ Nat.log 2 intervals + crowded := by
  have short : 2 ^ level < 2 ^ (Nat.log 2 intervals + 1 + crowded) := by
    apply Nat.lt_of_le_of_lt spent
    rw [Nat.pow_add]
    exact Nat.mul_lt_mul_of_pos_right (Nat.lt_pow_succ_log_self Nat.one_lt_two intervals)
      (Nat.two_pow_pos crowded)
  have := (Nat.pow_lt_pow_iff_right Nat.one_lt_two).mp short
  omega

end Spent

/--
So many intervals, and inner nodes without bytes, explain the children of an
inner node before the one in its branch.  There are none as long as that one
starts when the node does; otherwise at least one was given up, with `level`
levels below it.
-/
structure Elders
    (node next : Node)
    (level intervals crowded : Nat) : Prop where
  some_ : 1 ≤ node.children.size
  first : node.children.size = 1 → next.start = node.start
  spent : 2 ≤ node.children.size → Spent level intervals crowded

/-- So many intervals, and inner nodes without bytes, explain a branch. -/
inductive Grown : (branch : List Node) → (intervals crowded : Nat) → Prop
  | leaf
      {node : Node}
      {intervals crowded : Nat}
      (few : node.intervals.size ≤ intervals) :
      Grown [node] intervals crowded
  | core
      {node next : Node}
      {rest : List Node}
      {before crowdedBefore intervals crowded : Nat}
      (elders : Elders node next rest.length before crowdedBefore)
      (below : Grown (next :: rest) intervals crowded) :
      Grown (node :: next :: rest) (before + intervals) (crowdedBefore + crowded)

variable {config : Config} {i : Interval} {intervals crowded : Nat}

theorem Elders.spent_of_later
    {node next : Node}
    {level : Nat}
    (elders : Elders node next level intervals crowded)
    (later : next.start ≠ node.start) :
    Spent level intervals crowded := by
  apply elders.spent
  have some_ := elders.some_
  have several : node.children.size ≠ 1 := fun single => later (elders.first single)
  omega

/-- Only when the child in the branch starts says something about the ones before it. -/
theorem Elders.replace
    {node next other : Node}
    {level : Nat}
    (elders : Elders node next level intervals crowded)
    (same : other.start = next.start) :
    Elders node other level intervals crowded :=
  ⟨elders.some_, fun single => same.trans (elders.first single), elders.spent⟩

/-- A node that takes an interval has the same children as before. -/
theorem Elders.offer
    {node next : Node}
    {level : Nat}
    (elders : Elders node next level intervals crowded) :
    Elders (offer config i node) next level intervals crowded := by
  refine ⟨?_, ?_, ?_⟩
  all_goals rw [children_offer]
  · exact elders.some_
  · rw [start_offer]
    exact elders.first
  · exact elders.spent

/-- More intervals and nodes explain the branch as well. -/
theorem Grown.add
    {branch : List Node}
    (grown : Grown branch intervals crowded)
    (moreIntervals moreCrowded : Nat) :
    Grown branch (intervals + moreIntervals) (crowded + moreCrowded) := by
  induction grown with
  | leaf few => exact .leaf (Nat.le_add_right_of_le few)
  | core elders below ih =>
      rw [Nat.add_assoc, Nat.add_assoc]
      exact .core elders ih

/-- A branch that starts anew needs no explanation. -/
theorem grown_fresh
    (start : Int)
    (depth : Nat)
    (kind : Node.Kind)
    (parent : Option Nat)
    (seq next : Nat) :
    Grown (sprout start depth (Node.fresh kind seq parent start) next) 0 0 := by
  induction depth generalizing kind parent seq next with
  | zero => exact .leaf (Nat.le_refl 0)
  | succ depth ih =>
      have below := ih (if depth = 0 then .leaf else .core) (some seq) next (next + 1)
      have elders : ∀ lower level, lower.start = start → Elders
          ((Node.fresh kind seq parent start).addChild next start) lower level 0 0 :=
        fun _ _ same => ⟨Nat.le_refl 1, fun _ => same, fun several => by cases several with | step h => cases h⟩
      cases depth with
      | zero => exact .core (elders _ _ rfl) below
      | succ depth => exact .core (elders _ _ rfl) below

/-- Above a branch that starts anew, the one that was given up explains all. -/
theorem grown_sprout
    {top : Node}
    {depth : Nat}
    (some_ : 1 ≤ top.children.size)
    (spent : Spent depth intervals crowded)
    (start : Int)
    (seq : Nat) :
    Grown (sprout start (depth + 1) top seq) intervals crowded := by
  have below := grown_fresh start depth (if depth = 0 then .leaf else .core) (some top.seq) seq
    (seq + 1)
  have elders : ∀ lower, Elders (top.addChild seq start) lower depth intervals crowded := by
    intro lower
    have size : (top.addChild seq start).children.size = top.children.size + 1 :=
      Array.size_push _
    refine ⟨?_, ?_, fun _ => spent⟩
    · omega
    · omega
  cases depth with
  | zero => exact .core (elders _) below
  | succ depth =>
      refine .core ?_ below
      rw [length_sprout]
      exact elders _

/-! ## Finding room -/

/-- A leaf without room for an interval holds another. -/
theorem spent_leaf
    {node : Node}
    (small : i.encodedSize ≤ config.coreCapacity)
    (full : ¬ Fits config node i)
    (few : node.intervals.size ≤ intervals) :
    Spent 0 intervals crowded := by
  have room : config.coreCapacity ≤ node.kind.capacity config := by
    cases node.kind with
    | core => exact Nat.le_refl _
    | leaf => exact Nat.sub_le _ _
  have some_ : node.intervals.size ≠ 0 := by
    intro none
    have unused : node.usedBytes = 0 := by
      unfold Node.usedBytes
      rw [Array.eq_empty_of_size_eq_zero none]
      rfl
    unfold Fits Node.freeSpace at full
    omega
  exact Nat.mul_pos (by omega) (Nat.two_pow_pos crowded)

/--
What became of a branch with `level` levels below its uppermost node is
explained: the branch that took the interval is, or else that the uppermost
node was given up.
-/
def Accounted
    (placed : Placement)
    (level intervals crowded : Nat) :
    Prop :=
  if placed.held then Grown placed.branch (intervals + 1) crowded else Spent level intervals crowded

theorem accounted_settle
    {top : Node}
    {below : List Node}
    (valid : config.Valid)
    (small : i.encodedSize ≤ config.coreCapacity)
    (begun : top.start ≤ i.start)
    (grown : Grown (top :: below) intervals crowded)
    (split : Int)
    (nodeCount : Nat) :
    Accounted (settle config split i nodeCount top below) below.length intervals
      (crowded + crowdedOut config split i nodeCount top below) := by
  -- Down the branch as `settle` goes; only a node without bytes adds to what is crowded out.
  induction below generalizing top intervals crowded with
  | nil =>
      cases grown with
      | leaf few =>
          by_cases fits : Fits config top i
          · simp only [Accounted, settle, fits, decide_true, if_true]
            refine .leaf ?_
            rw [offer, if_pos fits]
            exact (Nat.le_of_eq (Array.size_push _)).trans (Nat.succ_le_succ few)
          · simp only [Accounted, settle, fits, decide_false, Bool.false_eq_true, if_false]
            exact spent_leaf small fits few
  | cons next rest ih =>
      cases grown with
      | @core _ _ _ before crowdedBefore after crowdedAfter elders below =>
          simp only [settle, crowdedOut]
          by_cases early : next.start ≤ i.start
          · rw [if_pos early, if_pos early]
            have inner := ih early below
            cases held : (settle config split i nodeCount next rest).held with
            | true =>
                rcases exists_top_settle config split i nodeCount next rest with
                  ⟨lower, lowest, branch, length, same, -⟩
                simp only [Accounted, held, branch, if_true] at inner ⊢
                rw [Nat.add_assoc, Nat.add_assoc]
                exact .core (length ▸ elders.replace (congrArg Node.Link.start same)) inner
            | false =>
                simp only [Accounted, held, Bool.false_eq_true, if_false] at inner ⊢
                by_cases roomy : top.children.size < config.maxChildren
                · rw [if_pos roomy, if_pos roomy]
                  have spent := inner.mono (Nat.le_add_left after before)
                    (Nat.add_le_add_right (Nat.le_add_left crowdedAfter crowdedBefore) _)
                  by_cases fits : Fits config top i
                  · simp only [fits, decide_true, if_true]
                    rw [length_settle]
                    exact (grown_sprout elders.offer.some_ spent _ _).add 1 0
                  · simp only [fits, decide_false, Bool.false_eq_true, if_false]
                    exact spent.crowd
                · rw [if_neg roomy, if_neg roomy]
                  have full := Nat.le_trans valid.twoChildren (Nat.le_of_not_lt roomy)
                  have joined := (elders.spent full).join inner
                  rw [← Nat.add_assoc] at joined
                  simp only [Bool.false_eq_true, if_false]
                  exact joined
          · rw [if_neg early, if_neg early]
            by_cases fits : Fits config top i
            · simp only [Accounted, fits, decide_true, if_true]
              exact (Grown.core elders.offer below).add 1 0
            · simp only [Accounted, fits, decide_false, Bool.false_eq_true, if_false]
              have later : next.start ≠ top.start := by omega
              have spent := (elders.spent_of_later later).crowd
              exact spent.mono (Nat.le_add_right before after) (by omega)

/-- An explained branch of a whole tree, whose root had a child given up unless it is a leaf. -/
structure Rooted
    (branch : List Node)
    (intervals crowded : Nat) : Prop where
  grown : Grown branch intervals crowded
  several : ∀ root next rest, branch = root :: next :: rest → 2 ≤ root.children.size

theorem Rooted.add
    {branch : List Node}
    (rooted : Rooted branch intervals crowded)
    (moreIntervals moreCrowded : Nat) :
    Rooted branch (intervals + moreIntervals) (crowded + moreCrowded) :=
  ⟨rooted.grown.add moreIntervals moreCrowded, rooted.several⟩

/-- A tree takes an interval, be it in a new root, and stays explained. -/
theorem Rooted.place
    {root : Node}
    {below : List Node}
    (rooted : Rooted (root :: below) intervals crowded)
    (valid : config.Valid)
    (small : i.encodedSize ≤ config.coreCapacity)
    (begun : root.start ≤ i.start)
    (split : Int)
    (nodeCount : Nat) :
    Rooted (place config split i nodeCount root below).branch (intervals + 1)
      (crowded + crowdedOut config split i nodeCount root below) := by
  have accounted := accounted_settle valid small begun rooted.grown split nodeCount
  simp only [Branch.place]
  cases held : (settle config split i nodeCount root below).held with
  | true =>
      simp only [Accounted, held, if_true] at accounted ⊢
      refine ⟨accounted, ?_⟩
      intro other next rest branch
      rcases exists_top_settle config split i nodeCount root below with
        ⟨after, lower, same, length, -, children⟩
      rw [branch] at same
      cases same
      cases below with
      | nil => cases length
      | cons second others => exact Nat.le_trans (rooted.several _ _ _ rfl) children
  | false =>
      simp only [Accounted, held, Bool.false_eq_true, if_false] at accounted ⊢
      rw [length_settle]
      constructor
      · refine (grown_sprout ?_ accounted _ _).add 1 0
        exact Nat.le_refl 1
      · intro other next rest branch
        rw [← (List.cons.inj branch).1]
        exact Nat.le_refl 2

/-- An explained tree is no deeper than what explains it allows. -/
theorem Rooted.length_le
    {branch : List Node}
    (rooted : Rooted branch intervals crowded) :
    branch.length ≤ 2 + Nat.log 2 intervals + crowded := by
  rcases rooted with ⟨grown, several⟩
  cases grown with
  | leaf few =>
      show 1 ≤ _
      omega
  | @core root next rest before crowdedBefore after crowdedAfter elders below =>
      have spent := elders.spent (several root next rest rfl)
      have level := (spent.mono (Nat.le_add_right before after)
        (Nat.le_add_right crowdedBefore crowdedAfter)).level_le
      simp only [List.length_cons]
      omega

end Branch

/-! ## Growing trees -/

/-- How many inner nodes a tree gives up for lack of bytes when it is given an interval. -/
def crowdedOut
    (tree : Tree)
    (i : Interval) :
    Nat :=
  match tree.branch with
  | [] => 0
  | root :: below =>
    if i.encodedSize ≤ tree.maxIntervalSize ∧ root.start ≤ i.start then
      Branch.crowdedOut tree.config (max tree.stop i.stop) i tree.nodeCount root below
    else
      0

/-- How many inner nodes a tree gives up for lack of bytes when it is given intervals in turn. -/
def crowdedOutBy :
    (intervals : List Interval) →
    Placed Tree →
    Nat
  | [], _ => 0
  | i :: rest, s => s.subject.crowdedOut i + crowdedOutBy rest ((insert i).reached s)

/-- A tree that does not refuse an interval gets the branch in which it was placed. -/
theorem branch_insert
    (i : Interval)
    (s : Placed Tree) :
    ((insert i).reached s).subject.finished = s.subject.finished
      ∧ (s.subject.Refuses i ∧ ((insert i).reached s).subject.branch = s.subject.branch
        ∨ ∃ root below,
          s.subject.branch = root :: below
            ∧ i.encodedSize ≤ s.subject.maxIntervalSize
            ∧ root.start ≤ i.start
            ∧ ((insert i).reached s).subject.branch
              = (Branch.place s.subject.config (max s.subject.stop i.stop) i s.subject.nodeCount
                root below).branch) := by
  rcases insert_apply i s with
    ⟨refused, fault, stop, -, failed⟩ | ⟨root, below, unfinished, branch, small, begun, took⟩
  · rw [Step.reached_of_error failed]
    exact ⟨rfl, Or.inl ⟨refused, rfl⟩⟩
  · have written := withCache_reached_of_writeNodes took s.subject.io.cache
    have finished := congrArg Tree.finished written
    have branchThen := congrArg Tree.branch written
    exact ⟨finished, Or.inr ⟨root, below, branch, small, begun, branchThen⟩⟩

/-- Whatever a tree is given, and whether or not it takes it, it stays explained. -/
theorem rooted_insert
    {s : Placed Tree}
    {intervals crowded : Nat}
    (valid : s.subject.config.Valid)
    (rooted : Branch.Rooted s.subject.branch intervals crowded)
    (i : Interval) :
    Branch.Rooted ((insert i).reached s).subject.branch (intervals + 1)
      (crowded + s.subject.crowdedOut i) := by
  rcases (branch_insert i s).2 with ⟨-, same⟩ | ⟨root, below, branch, small, begun, placed⟩
  · rw [same]
    exact rooted.add 1 _
  · have given : s.subject.crowdedOut i = Branch.crowdedOut s.subject.config
        (max s.subject.stop i.stop) i s.subject.nodeCount root below := by
      unfold crowdedOut
      rw [branch]
      exact if_pos ⟨small, begun⟩
    rw [placed, given]
    rw [branch] at rooted
    exact rooted.place valid small begun _ _

theorem rooted_each
    {s : Placed Tree}
    {intervals crowded : Nat}
    (valid : s.subject.config.Valid)
    (rooted : Branch.Rooted s.subject.branch intervals crowded)
    (given : List Interval) :
    Branch.Rooted ((Step.each insert given).reached s).subject.branch (intervals + given.length)
      (crowded + crowdedOutBy given s) := by
  induction given generalizing s intervals crowded with
  | nil => exact rooted
  | cons i rest ih =>
      have config : ((insert i).reached s).subject.config = s.subject.config :=
        congrArg (·.2.2) (leaves_insert Volume.frontal_names i s)
      have next := ih (config ▸ valid) (rooted_insert valid rooted i)
      rw [Step.reached_each_cons]
      rw [List.length_cons, Nat.add_comm rest.length, ← Nat.add_assoc]
      rw [crowdedOutBy, ← Nat.add_assoc]
      exact next

/-! ## Intervals that follow one another -/

/-- Intervals that a store over a tree with the settings accepts one after the other. -/
structure Steady
    (config : Config)
    (intervals : List Interval) : Prop where
  consecutive : Interval.Consecutive config.start intervals
  nonneg : ∀ i ∈ intervals, 0 ≤ i.quark
  small : ∀ i ∈ intervals, i.encodedSize ≤ config.coreCapacity

/-- A tree takes all intervals that follow those it holds. -/
theorem each_of_holds
    {s : Placed Tree}
    {taken rest : List Interval}
    (holds : Holds s taken)
    (unfinished : s.subject.finished = false)
    (consecutive : Interval.Consecutive s.subject.config.start (taken ++ rest))
    (small : ∀ i ∈ rest, i.encodedSize ≤ s.subject.config.coreCapacity)
    (late : ∀ i ∈ rest, s.subject.stop ≤ i.stop) :
    ∃ reached, Step.each insert rest s = .ok (rest.map fun _ => .ok ()) reached := by
  induction rest generalizing s taken with
  | nil => exact ⟨s, rfl⟩
  | cons i rest ih =>
      rw [List.append_cons] at consecutive
      have soFar := consecutive.of_append
      have admits : Admits s.subject taken i := by
        constructor
        · exact small i List.mem_cons_self
        · exact soFar.start_le (List.mem_append_right _ (List.mem_singleton_self i))
        · exact late i List.mem_cons_self
        · exact soFar.separate
      rcases holds.insert unfinished admits with ⟨between, took, config, stop, still, kept⟩
      have later : ∀ j ∈ rest, between.subject.stop ≤ j.stop := by
        intro j member
        rw [stop]
        exact (List.pairwise_append.mp consecutive.ends).2.2 i
          (List.mem_append_right _ (List.mem_singleton_self i)) j member
      rcases ih kept still (config ▸ consecutive)
        (fun j member => config ▸ small j (List.mem_cons_of_mem i member)) later with
        ⟨reached, done⟩
      have first : Step.outcome (insert i) s = .ok (.ok ()) between := by
        unfold Step.outcome
        rw [took]
      exact ⟨reached, (Step.bind_of_ok first).trans (Step.bind_of_ok done)⟩

/-- A new tree takes all intervals that follow one another. -/
theorem each_of_steady
    {name : String}
    {config : Config}
    {volume made : Volume}
    {tree : Tree}
    {intervals : List Interval}
    (sound : volume.Sound)
    (created : create name config volume = .ok (made, tree))
    (steady : Steady config intervals) :
    ∃ reached,
      Step.each insert intervals ⟨made, tree⟩ = .ok (intervals.map fun _ => .ok ()) reached := by
  rcases holds_of_create sound created with ⟨holds, sameConfig, stop, unfinished⟩
  have late : ∀ i ∈ intervals, tree.stop ≤ i.stop := by
    intro i inside
    rw [stop]
    exact (steady.consecutive.start_le inside).trans i.ordered
  exact each_of_holds holds unfinished (sameConfig ▸ steady.consecutive)
    (fun i inside => sameConfig ▸ steady.small i inside) late

/--
The depth of a tree is logarithmic in the number of intervals that it was
given, but for the inner nodes that were given up because they had too few
bytes left.  Intervals that follow one another are all taken.
-/
theorem depth_le_of_created
    {name : String}
    {config : Config}
    {volume made : Volume}
    {tree : Tree}
    (sound : volume.Sound)
    (created : create name config volume = .ok (made, tree))
    (intervals : List Interval) :
    ∃ outcomes reached,
      Step.each insert intervals ⟨made, tree⟩ = .ok outcomes reached
        ∧ (Steady config intervals → ∀ outcome ∈ outcomes, outcome = .ok ())
        ∧ reached.subject.depth
          ≤ 2 + Nat.log 2 intervals.length + crowdedOutBy intervals ⟨made, tree⟩ := by
  rcases holds_of_create sound created with ⟨holds, -, -, -⟩
  have valid : tree.config.Valid := (keeps_of_create sound created).valid
  have rooted : Branch.Rooted tree.branch 0 0 := by
    rcases create_eq_ok created with ⟨-, base, file, -, -, rfl⟩
    exact ⟨.leaf (Nat.le_refl 0), fun _ _ _ same => by cases same⟩
  have shallow := (rooted_each (s := ⟨made, tree⟩) valid rooted intervals).length_le
  rw [Nat.zero_add, Nat.zero_add] at shallow
  rcases Step.each_apply insert intervals ⟨made, tree⟩ with ⟨outcomes, done⟩
  refine ⟨outcomes, _, done, ?_, shallow⟩
  intro steady outcome member
  rcases each_of_steady sound created steady with ⟨reached, took⟩
  cases done.symm.trans took
  rcases List.mem_map.mp member with ⟨i, -, rfl⟩
  rfl

/-! ## Intervals that all start at once -/

/-- The first interval of an attribute, which is the longer the larger its number is. -/
def opening (place : Nat) : Interval :=
  ⟨0, place, place, .null, Int.natCast_nonneg place⟩

theorem encodedSize_opening (place : Nat) :
    (opening place).encodedSize = smallestInterval :=
  rfl

/-- The first intervals of so many attributes. -/
def openings (n : Nat) : List Interval :=
  (List.range n).map opening

theorem openings_succ (n : Nat) :
    openings (n + 1) = openings n ++ [opening n] := by
  unfold openings
  rw [List.range_succ, List.map_append]
  rfl

/-- A store accepts the first intervals of any number of attributes. -/
theorem steady_openings (n : Nat) :
    Steady narrow (openings n) := by
  have among : ∀ {i n}, i ∈ openings n → ∃ place < n, opening place = i := by
    intro i n member
    rcases List.mem_map.mp member with ⟨place, inside, same⟩
    exact ⟨place, List.mem_range.mp inside, same⟩
  constructor
  · induction n with
    | zero => exact Interval.consecutive_nil _
    | succ n ih =>
        rw [openings_succ]
        refine Interval.consecutive_concat_iff.mpr ⟨ih, ?_, ?_⟩
        · have none : (openings n).reverse.find? (fun i => i.quark = (opening n).quark) = none := by
            rw [List.find?_eq_none]
            intro i member same
            rcases among (List.mem_reverse.mp member) with ⟨place, inside, rfl⟩
            have equal : (place : Int) = n := of_decide_eq_true same
            omega
          unfold Interval.followingStart
          rw [none]
          rfl
        · intro i member
          rcases among member with ⟨place, inside, rfl⟩
          exact Int.ofNat_le.mpr (Nat.le_of_lt inside)
  · intro i member
    rcases among member with ⟨place, -, rfl⟩
    exact Int.natCast_nonneg place
  · intro i member
    rcases among member with ⟨place, -, rfl⟩
    exact Nat.le_succ 21

/-- An interval that can only go to a root without room adds a level. -/
theorem Branch.place_of_crowded
    {config : Config}
    {split : Int}
    {i : Interval}
    {root next : Node}
    {rest : List Node}
    (later : i.start < next.start)
    (full : ¬ Fits config root i)
    (nodeCount : Nat) :
    (place config split i nodeCount root (next :: rest)).branch
      = sprout (split + 1) (rest.length + 2)
        (((Node.fresh .core nodeCount none config.start).addChild root.seq config.start).addInterval i)
        (nodeCount + 1) := by
  simp only [place, settle, if_neg (Int.not_le.mpr later), offer, full, decide_false,
    Bool.false_eq_true, if_false, List.length_cons]

/--
A tree in which an interval from the start on can only go to the root, and the
root has no room for it.
-/
structure Heaped
    (s : Placed Tree)
    (depth : Nat) : Prop where
  config : s.subject.config = narrow
  unfinished : s.subject.finished = false
  depth_eq : s.subject.depth = depth
  full : ∃ root next rest,
    s.subject.branch = root :: next :: rest
      ∧ root.start = 0
      ∧ 0 < next.start
      ∧ root.freeSpace narrow < smallestInterval

/-- Such a tree gets a new root for the interval, which fills that root as well. -/
theorem Heaped.insert
    {s : Placed Tree}
    {depth : Nat}
    (heaped : Heaped s depth)
    (place : Nat) :
    Heaped ((Tree.insert (opening place)).reached s) (depth + 1) := by
  rcases heaped.full with ⟨root, next, rest, branch, start, later, crowded⟩
  have config : ((Tree.insert (opening place)).reached s).subject.config = narrow :=
    (congrArg (·.2.2) (leaves_insert Volume.frontal_names (opening place) s)).trans heaped.config
  rcases branch_insert (opening place) s with
    ⟨finished, ⟨refused, -⟩ | ⟨other, below, same, -, -, placed⟩⟩
  · exfalso
    rcases refused with ended | large | early
    · exact ne_true_of_eq_false heaped.unfinished ended
    · unfold maxIntervalSize at large
      rw [heaped.config, encodedSize_opening] at large
      exact absurd large (by decide)
    · have before : 0 < root.start := early root (next :: rest) branch
      omega
  · cases branch.symm.trans same
    have full : ¬ Branch.Fits s.subject.config root (opening place) := by
      rw [heaped.config]
      exact Nat.not_le.mpr crowded
    rw [Branch.place_of_crowded later full, heaped.config] at placed
    have deeper := congrArg List.length placed
    rw [Branch.length_sprout] at deeper
    refine ⟨config, finished.trans heaped.unfinished, ?_, ?_⟩
    · have old := heaped.depth_eq
      unfold Tree.depth at old ⊢
      rw [branch] at old
      rw [deeper, ← old]
      rfl
    · refine ⟨_, _, _, placed, rfl, ?_, ?_⟩
      · show 0 < max s.subject.stop (place : Int) + 1
        omega
      · unfold Node.freeSpace
        rw [Node.usedBytes_addChild, Node.usedBytes_addInterval, Node.usedBytes_addChild,
          encodedSize_opening]
        show narrow.coreCapacity - (0 + smallestInterval) < smallestInterval
        decide

/-- After three such intervals a tree is heaped whose leaf has room for two of them. -/
theorem heaped_three :
    ∃ made tree,
      create "heap" narrow .empty = .ok (made, tree)
        ∧ Heaped ((Step.each insert (openings 3)).reached ⟨made, tree⟩) 2 := by
  have grown : ∃ made tree,
      create "heap" narrow .empty = .ok (made, tree)
        ∧ ((Step.each insert (openings 3)).reached ⟨made, tree⟩).subject.config = narrow
        ∧ ((Step.each insert (openings 3)).reached ⟨made, tree⟩).subject.finished = false
        ∧ (((Step.each insert (openings 3)).reached ⟨made, tree⟩).subject.branch.map
          fun node => (node.start, node.freeSpace narrow)) = [(0, 1), (3, 46)] :=
    ⟨_, _, rfl, by decide +kernel⟩
  rcases grown with ⟨made, tree, created, config, unfinished, nodes⟩
  refine ⟨made, tree, created, config, unfinished, ?_, ?_⟩
  · unfold Tree.depth
    simpa using congrArg List.length nodes
  · rcases List.map_eq_cons_iff.mp nodes with ⟨root, below, branch, uppermost, lower⟩
    rcases List.map_eq_cons_iff.mp lower with ⟨next, rest, same, second, -⟩
    rw [same] at branch
    rcases Prod.mk.inj uppermost with ⟨start, free⟩
    refine ⟨root, next, rest, branch, start, ?_, ?_⟩
    · rw [(Prod.mk.inj second).1]
      decide
    · rw [free]
      decide

/-- From then on each such interval adds a level. -/
theorem heaped_openings (n : Nat) :
    ∃ made tree,
      create "heap" narrow .empty = .ok (made, tree)
        ∧ Heaped ((Step.each insert (openings (n + 3))).reached ⟨made, tree⟩) (n + 2) := by
  induction n with
  | zero => exact heaped_three
  | succ n ih =>
      rcases ih with ⟨made, tree, created, heaped⟩
      refine ⟨made, tree, created, ?_⟩
      rw [openings_succ, Step.reached_each_append, Step.reached_each_cons]
      exact heaped.insert (n + 3)

/-- No multiple of the logarithm bounds a number that much smaller than a power of two. -/
theorem exists_two_pow_gt (c : Nat) :
    ∃ n m, n + 4 = 2 ^ m ∧ c * (1 + m) < n + 2 := by
  have large : c + 1 ≤ 2 ^ c := Nat.lt_two_pow_self
  have power : 2 ^ (2 * (c + 3)) = (8 * 2 ^ c) * (8 * 2 ^ c) := by ring
  refine ⟨2 ^ (2 * (c + 3)) - 4, 2 * (c + 3), ?_, ?_⟩
  · have : 4 ≤ 2 ^ (2 * (c + 3)) := by nlinarith
    omega
  · have : c * (1 + 2 * (c + 3)) + 4 < 2 ^ (2 * (c + 3)) + 2 := by nlinarith
    omega

/--
A tree need not stay shallow.  There are settings under which no multiple of
the logarithm bounds the depth of trees by the number of intervals that they
took, although those follow one another.
-/
theorem not_shallow :
    ¬ ∀ config : Config, config.Valid → ∃ c : Nat, ∀ made tree intervals outcomes reached,
      create "heap" config .empty = .ok (made, tree) →
        Steady config intervals →
          Step.each insert intervals ⟨made, tree⟩ = .ok outcomes reached →
            (∀ outcome ∈ outcomes, outcome = .ok ()) →
              reached.subject.depth ≤ c * (1 + Nat.clog 2 (intervals.length + 1)) := by
  intro shallow
  have valid : narrow.Valid := ⟨by decide, by decide, by decide, by decide⟩
  rcases shallow narrow valid with ⟨c, bound⟩
  rcases exists_two_pow_gt c with ⟨n, m, power, more⟩
  rcases heaped_openings n with ⟨made, tree, created, heaped⟩
  rcases each_of_steady (by decide) created (steady_openings (n + 3)) with ⟨reached, done⟩
  have deep := heaped.depth_eq
  rw [Step.reached_of_ok done] at deep
  have taken : ∀ outcome ∈ (openings (n + 3)).map fun _ => (.ok () : Except Fault Unit),
      outcome = .ok () := by
    intro outcome member
    rcases List.mem_map.mp member with ⟨i, -, rfl⟩
    rfl
  have shallow := bound made tree _ _ reached created (steady_openings (n + 3)) done taken
  have length : (openings (n + 3)).length = n + 3 := by simp [openings]
  rw [deep, length, power, Nat.clog_pow 2 m Nat.one_lt_two] at shallow
  omega

theorem depth_le_of_openings :
    ∃ made tree outcomes reached,
      create "heap" narrow .empty = .ok (made, tree)
        ∧ Step.each insert (openings 6) ⟨made, tree⟩ = .ok outcomes reached
        ∧ (∀ outcome ∈ outcomes, outcome = .ok ())
        ∧ reached.subject.depth
          ≤ 2 + Nat.log 2 (openings 6).length + crowdedOutBy (openings 6) ⟨made, tree⟩ := by
  rcases heaped_three with ⟨made, tree, created, -⟩
  rcases depth_le_of_created (by decide) created (openings 6) with
    ⟨outcomes, reached, done, taken, shallow⟩
  exact ⟨made, tree, outcomes, reached, created, done, taken (steady_openings 6), shallow⟩

end Chronicle.Tree
