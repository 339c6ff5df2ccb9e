import Chronicle.Proofs.Tree.Grafting
import Chronicle.Proofs.Tree.NodeFile
import Chronicle.Tree.Basic
import Mathlib.Data.List.Flatten

/-!
# The way down

A descent visits, one after the other, the nodes on the way down for its
instant, wherever each of them is found.  What is gathered on the way is what
would be gathered from all nodes of the tree, since a node that is passed by
holds nothing about the instant.
-/

namespace Chronicle.Tree

/-- The tree with other nodes at hand. -/
def withCache
    (tree : Tree)
    (cache : NodeCache) :
    Tree :=
  { tree with io := { tree.io with cache } }

/--
Each of `nodes` is found by its number: at hand in the latest branch, or in the
file, which keeps `written`.
-/
structure Shows
    (s : Placed Tree)
    (written nodes : List Node) : Prop where
  distinct : ∀ node ∈ nodes, ∀ other ∈ nodes, node.seq = other.seq → node = other
  branch : ∀ node ∈ s.subject.branch, node ∈ nodes
  keeps : NodeFile.Keeps ⟨s.volume, s.subject.io⟩ written
  found : ∀ node ∈ nodes, node ∈ s.subject.branch ∨ node ∈ written ∧ node.Storable s.subject.config

/-- A number of a node leads to the node, and all others can be found on. -/
theorem Shows.nodeAt
    {s : Placed Tree}
    {written nodes : List Node}
    {node : Node}
    (shows_ : Shows s written nodes)
    (member : node ∈ nodes) :
    ∃ found cache,
      Tree.nodeAt node.seq s = .ok found ⟨s.volume, s.subject.withCache cache⟩
        ∧ found.reread = node.reread
        ∧ Shows ⟨s.volume, s.subject.withCache cache⟩ written nodes := by
  unfold Tree.nodeAt
  rw [Step.subject_bind_apply]
  cases atHand : s.subject.branch.find? fun other => other.seq = node.seq with
  | some held =>
      have heldMember := shows_.branch held (List.mem_of_find?_eq_some atHand)
      have heldSeq : held.seq = node.seq := by
        have test := List.find?_some atHand
        simpa using test
      refine ⟨held, s.subject.io.cache, rfl, ?_, shows_⟩
      rw [shows_.distinct held heldMember node member heldSeq]
  | none =>
      rcases shows_.found node member with inBranch | ⟨inFile, storable⟩
      · have absent := List.find?_eq_none.mp atHand node inBranch
        simp at absent
      · rcases shows_.keeps.readNode inFile storable with ⟨found, cache, read, same, keeps⟩
        refine ⟨found, cache, Step.onPart_of_ok read, same, ?_⟩
        exact ⟨shows_.distinct, shows_.branch, keeps, shows_.found⟩

/-! ## Ways -/

namespace Node

@[simp]
theorem childAt?_reread
    (node : Node)
    (t : Int) :
    node.reread.childAt? t = node.childAt? t := rfl

theorem kind_of_reread_eq
    {node found : Node}
    (same : found.reread = node.reread) :
    found.kind = node.kind := by
  rw [← kind_reread, same, kind_reread]

theorem childAt?_of_reread_eq
    {node found : Node}
    (same : found.reread = node.reread)
    (t : Int) :
    found.childAt? t = node.childAt? t := by
  rw [← childAt?_reread, same, childAt?_reread]

/-- Nodes of which each leads to the next one, and the last to no other. -/
inductive Way (t : Int) : List Node → Prop
  | leaf
      {node : Node}
      (kind : node.kind = .leaf) :
      Way t [node]
  | last
      {node : Node}
      (childless : node.childAt? t = none) :
      Way t [node]
  | step
      {node next : Node}
      {rest : List Node}
      (kind : node.kind = .core)
      (child : node.childAt? t = some next.seq)
      (way : Way t (next :: rest)) :
      Way t (node :: next :: rest)

end Node

/-- The last link that starts in time is that to where the way down begins. -/
theorem Forest.lastStarted?_links
    (forest : Forest)
    (t : Int) :
    Node.lastStarted? forest.links t = (forest.way t).head?.map (·.seq) := by
  induction forest with
  | nil => rfl
  | snoc older root below olderIH belowIH =>
      rw [Forest.links_snoc, Node.lastStarted?_concat]
      unfold Forest.way
      by_cases started : root.start ≤ t
      · rw [if_pos started, if_pos (show root.link.start ≤ t from started)]
        rfl
      · rw [if_neg started, if_neg (show ¬ root.link.start ≤ t from started)]
        exact olderIH

/-- A node goes on to the way that begins below it, if there is one. -/
theorem Node.Way.cons
    {node : Node}
    {t : Int}
    {below : List Node}
    (kind : node.kind = .core)
    (child : node.childAt? t = below.head?.map (·.seq))
    (way : below ≠ [] → Node.Way t below) :
    Node.Way t (node :: below) := by
  cases below with
  | nil => exact .last child
  | cons next rest => exact .step kind child (way (List.cons_ne_nil _ _))

theorem Forest.Tiles.way
    {config : Config}
    {above height : Nat}
    {start stop : Int}
    {forest : Forest}
    (tiles : forest.Tiles config above height start stop)
    (t : Int)
    (some_ : forest.way t ≠ []) :
    Node.Way t (forest.way t) := by
  induction tiles with
  | nil empty => exact absurd rfl some_
  | leaf before ordered done kind children beforeIH =>
      unfold Forest.way at some_ ⊢
      split
      · exact .leaf kind
      · rename_i late
        rw [if_neg late] at some_
        exact beforeIH some_
  | core before ordered done kind children parts nonempty beforeIH partsIH =>
      unfold Forest.way at some_ ⊢
      split
      · refine .cons kind ?_ partsIH
        rw [Node.childAt?_eq, children, Forest.lastStarted?_links]
        rw [children]
        exact parts.ordered
      · rename_i late
        rw [if_neg late] at some_
        exact beforeIH some_

theorem Spine.way_eq_cons
    (spine : Spine)
    (t : Int) :
    ∃ rest, spine.way t = spine.top :: rest := by
  cases spine with
  | leaf node => exact ⟨[], rfl⟩
  | core node closed next => exact ⟨_, rfl⟩

theorem Spine.Sound.way
    {config : Config}
    {above : Option Nat}
    {height : Nat}
    {stop : Int}
    {spine : Spine}
    (sound : spine.Sound config stop above height)
    (t : Int) :
    Node.Way t (spine.way t) := by
  induction sound with
  | leaf filled parent kind children => exact .leaf kind
  | @core above height node older next filled parent kind children tiles ordered rest ih =>
      have child : node.childAt? t
          = if next.top.start ≤ t then some next.top.seq
            else Node.lastStarted? older.links t := by
        rw [Node.childAt?_eq, children, Node.lastStarted?_concat]
        · rfl
        · rw [children]
          exact Node.ordered_concat tiles.ordered ordered
      unfold Spine.way
      by_cases started : next.top.start ≤ t
      · rw [if_pos started] at child ⊢
        rcases next.way_eq_cons t with ⟨below, begins⟩
        rw [begins] at ih ⊢
        exact .step kind child ih
      · rw [if_neg started] at child ⊢
        rw [Forest.lastStarted?_links] at child
        exact .cons kind child (tiles.way t)

/-! ## Gathering on the way -/

/-- What is gathered from nodes, one after the other, until it is enough. -/
def gatherFrom
    {α : Type}
    (visit : Node → α → α)
    (enough : α → Bool) :
    (nodes : List Node) →
    (gathered : α) →
    α
  | [], gathered => gathered
  | node :: rest, gathered =>
    let gathered := visit node gathered
    if enough gathered then gathered else gatherFrom visit enough rest gathered

section Descent

variable {α : Type} {visit : Node → α → α} {enough : α → Bool} {t : Int}
  {written nodes : List Node}

theorem visit_of_reread_eq
    {node found : Node}
    (faithful : ∀ (node : Node) (gathered : α), visit node.reread gathered = visit node gathered)
    (same : found.reread = node.reread)
    (gathered : α) :
    visit found gathered = visit node gathered := by
  rw [← faithful found, same, faithful]

/-- A descent with fuel for the whole way gathers from the nodes on it. -/
theorem Shows.descend
    {s : Placed Tree}
    {fuel : Nat}
    {node found : Node}
    {rest : List Node}
    (shows_ : Shows s written nodes)
    (way : Node.Way t (node :: rest))
    (members : ∀ other ∈ node :: rest, other ∈ nodes)
    (same : found.reread = node.reread)
    (faithful : ∀ (node : Node) (gathered : α), visit node.reread gathered = visit node gathered)
    (fueled : rest.length < fuel)
    (gathered : α) :
    ∃ cache,
      Tree.descend t visit enough fuel found gathered s
          = .ok (gatherFrom visit enough (node :: rest) gathered)
            ⟨s.volume, s.subject.withCache cache⟩
        ∧ Shows ⟨s.volume, s.subject.withCache cache⟩ written nodes := by
  induction rest generalizing s fuel node found gathered with
  | nil =>
      cases fuel with
      | zero => cases fueled
      | succ fuel =>
          have visited := visit_of_reread_eq faithful same gathered
          have ends : found.kind = .leaf ∨ found.childAt? t = none := by
            cases way with
            | leaf kind => exact Or.inl ((Node.kind_of_reread_eq same).trans kind)
            | last childless => exact Or.inr ((Node.childAt?_of_reread_eq same t).trans childless)
          refine ⟨s.subject.io.cache, ?_, shows_⟩
          simp only [Tree.descend, gatherFrom, visited]
          split
          · rfl
          · rcases ends with leaf | childless
            · rw [leaf]
              rfl
            · rw [childless]
              cases found.kind with
              | core => rfl
              | leaf => rfl
  | cons next rest ih =>
      cases fuel with
      | zero => cases fueled
      | succ fuel =>
          cases way with
          | step kind child below =>
              have visited := visit_of_reread_eq faithful same gathered
              have foundKind := (Node.kind_of_reread_eq same).trans kind
              have foundChild := (Node.childAt?_of_reread_eq same t).trans child
              simp only [Tree.descend, visited]
              rw [gatherFrom]
              by_cases full : enough (visit node gathered) = true
              · simp only [full, if_true]
                exact ⟨s.subject.io.cache, rfl, shows_⟩
              · simp only [full]
                rw [foundKind, foundChild]
                rcases shows_.nodeAt (members next (by simp)) with
                  ⟨nextFound, cache, read, nextSame, nextShows⟩
                rcases ih nextShows below (fun other member => members other (by simp [member]))
                  nextSame (Nat.lt_of_succ_lt_succ fueled) (visit node gathered) with
                  ⟨last, answered, lastShows⟩
                refine ⟨last, ?_, lastShows⟩
                apply (Step.bind_of_ok read).trans
                exact answered

/-- A descent from the root, wherever that is found, gathers from the nodes on the way down. -/
theorem Shows.descendFromRoot_of_root
    {s : Placed Tree}
    {config : Config}
    {above : Option Nat}
    {height : Nat}
    {stop : Int}
    {spine : Spine}
    {found : Node}
    {cache : NodeCache}
    (shows_ : Shows ⟨s.volume, s.subject.withCache cache⟩ written spine.nodes)
    (root : Tree.root s = .ok found ⟨s.volume, s.subject.withCache cache⟩)
    (same : found.reread = spine.top.reread)
    (sound : spine.Sound config stop above height)
    (fueled : (spine.way t).length ≤ s.subject.descentBound s.volume)
    (faithful : ∀ (node : Node) (gathered : α), visit node.reread gathered = visit node gathered)
    (gathered : α) :
    ∃ cache,
      Tree.descendFromRoot t visit enough gathered s
          = .ok (gatherFrom visit enough (spine.way t) gathered)
            ⟨s.volume, s.subject.withCache cache⟩
        ∧ Shows ⟨s.volume, s.subject.withCache cache⟩ written spine.nodes := by
  rcases spine.way_eq_cons t with ⟨rest, begins⟩
  have way := sound.way t
  have members := (spine.way_sublist t).subset
  rw [begins] at way members fueled ⊢
  unfold Tree.descendFromRoot
  rw [Step.subject_bind_apply, Step.volume_bind_apply, Step.bind_of_ok root]
  exact shows_.descend way members same faithful fueled gathered

/-- A descent from the root of the latest branch gathers from the nodes on the way down. -/
theorem Shows.descendFromRoot
    {s : Placed Tree}
    {config : Config}
    {above : Option Nat}
    {height : Nat}
    {stop : Int}
    {spine : Spine}
    (shows_ : Shows s written spine.nodes)
    (branch : s.subject.branch = spine.branch)
    (sound : spine.Sound config stop above height)
    (faithful : ∀ (node : Node) (gathered : α), visit node.reread gathered = visit node gathered)
    (gathered : α) :
    ∃ cache,
      Tree.descendFromRoot t visit enough gathered s
          = .ok (gatherFrom visit enough (spine.way t) gathered)
            ⟨s.volume, s.subject.withCache cache⟩
        ∧ Shows ⟨s.volume, s.subject.withCache cache⟩ written spine.nodes := by
  have root : Tree.root s = .ok spine.top s := by
    simp only [Tree.root, Step.subject_bind_apply, branch]
    rfl
  have fueled : (spine.way t).length ≤ s.subject.descentBound s.volume := by
    have length := sound.length_way_le t
    unfold Tree.descentBound
    rw [branch, sound.length_branch]
    omega
  exact shows_.descendFromRoot_of_root root rfl sound fueled faithful gathered

end Descent

/-! ## What is gathered -/

theorem gatherFrom_find
    (find : Node → Option Interval)
    (nodes : List Node) :
    gatherFrom (fun node _ => find node) Option.isSome nodes none = nodes.findSome? find := by
  induction nodes with
  | nil => rfl
  | cons node rest ih =>
      simp only [gatherFrom, List.findSome?_cons]
      cases find node with
      | none => exact ih
      | some i => rfl

theorem gatherFrom_all
    {α : Type}
    (visit : Node → α → α)
    (nodes : List Node)
    (gathered : α) :
    gatherFrom visit (fun _ => false) nodes gathered
      = nodes.foldl (fun gathered node => visit node gathered) gathered := by
  induction nodes generalizing gathered with
  | nil => rfl
  | cons node rest ih => exact ih _

section Answers

variable {config : Config} {above : Option Nat} {height : Nat} {stop : Int} {spine : Spine}

/-- The intervals on the way down that cover the instant are all that do. -/
theorem Spine.Sound.covering?_way
    (sound : spine.Sound config stop above height)
    (separate : Interval.Separate (held spine.nodes))
    (t quark : Int) :
    Interval.covering? (held (spine.way t)) t quark
      = Interval.covering? (held spine.nodes) t quark := by
  refine Interval.covering?_of_sublist separate ?_ ?_ quark
  · exact (spine.way_sublist t).flatMap _
  · intro i member covers
    rcases List.mem_flatMap.mp member with ⟨node, nodeMember, inNode⟩
    exact List.mem_flatMap.mpr ⟨node, sound.mem_way nodeMember inNode covers, inNode⟩

/-- A tree whose nodes hold the intervals taken, each of them in the order of their ends. -/
structure Spine.Carries
    (spine : Spine)
    (taken : List Interval) : Prop where
  same : (held spine.nodes).Perm taken
  sorted : ∀ node ∈ spine.nodes, node.Sorted

/-- Searching the nodes on the way down finds what a look at all intervals finds. -/
theorem Spine.Sound.gatherFrom_find
    {taken : List Interval}
    (sound : spine.Sound config stop above height)
    (separate : Interval.Separate taken)
    (carries : spine.Carries taken)
    (t quark : Int) :
    gatherFrom (fun node _ => node.find? t quark) Option.isSome (spine.way t) none
      = Interval.covering? taken t quark := by
  have inTree := separate.perm carries.same.symm
  rw [Tree.gatherFrom_find, ← Interval.covering?_perm separate carries.same.symm,
    ← sound.covering?_way inTree]
  unfold Interval.covering? held
  rw [List.find?_flatMap]
  have sorted : ∀ node ∈ spine.way t, node.Sorted := fun node member =>
    carries.sorted node ((spine.way_sublist t).subset member)
  generalize spine.way t = way at sorted
  induction way with
  | nil => rfl
  | cons node rest ih =>
      rw [List.findSome?_cons, List.findSome?_cons, Node.find?_eq (sorted node List.mem_cons_self),
        ih fun other member => sorted other (List.mem_cons_of_mem _ member)]
      rfl

/-- Putting what the nodes on the way down hold fills the slots from all intervals. -/
theorem Spine.Sound.gatherFrom_collect
    {taken : List Interval}
    (sound : spine.Sound config stop above height)
    (separate : Interval.Separate taken)
    (carries : spine.Carries taken)
    (t : Int)
    (slots : Slots) :
    gatherFrom (fun node => node.collect t) (fun _ => false) (spine.way t) slots
      = slots.fill taken t := by
  have inTree := separate.perm carries.same.symm
  have onWay : Interval.Separate (held (spine.way t)) :=
    inTree.sublist ((spine.way_sublist t).flatMap _)
  rw [gatherFrom_all, ← Slots.fill_congr (Interval.covering?_perm separate carries.same.symm t),
    ← Slots.fill_congr (sound.covering?_way inTree t), ← Slots.foldl_put_covering onWay]
  clear onWay
  have sorted : ∀ node ∈ spine.way t, node.Sorted := fun node member =>
    carries.sorted node ((spine.way_sublist t).subset member)
  generalize spine.way t = way at sorted
  induction way generalizing slots with
  | nil => rfl
  | cons node rest ih =>
      rw [List.foldl_cons, Node.collect_eq (sorted node List.mem_cons_self),
        ih _ fun other member => sorted other (List.mem_cons_of_mem _ member), held_cons,
        List.filter_append, List.foldl_append]

end Answers

end Chronicle.Tree
