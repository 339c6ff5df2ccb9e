import Chronicle.Proofs.Codec.Rereading
import Chronicle.Proofs.Tree.Refinement
import Chronicle.Proofs.Tree.Reopening
import Mathlib.Data.Fintype.Pigeonhole

/-!
# Where descents end

The links of a tree that was opened from a file are taken as they stand there.
A question follows them from block to block, and each block tells at most one
node.  So a question that never comes to a block again is through with them
after at most as many rounds as there are blocks, and one that does come to a
block again goes the same way from there for ever.  A file may be of either
sort: opening it looks at no block, and the number of nodes in the header is
not held against the links.
-/

namespace Chronicle

/-- What stands in a file behind what stands in front of it is read from there. -/
theorem Volume.read_of_append
    {volume : Volume}
    {file offset count : Nat}
    {front bytes back : Bytes}
    (content : (volume.content file).toList = front ++ (bytes ++ back))
    (begins : front.length = offset)
    (length : bytes.length = count) :
    volume.read file offset count = .ok bytes := by
  subst begins length
  refine read_eq_ok_iff.mpr ⟨rfl, Or.inr ?_, ?_⟩
  · rw [← Array.length_toList, content, List.length_append, List.length_append]
    omega
  · intro place inside
    rw [Array.getD_eq_getD_getElem?, ← Array.getElem?_toList, content,
      List.getElem?_append_right (Nat.le_add_right _ _), Nat.add_sub_cancel_left,
      List.getElem?_append_left inside, List.getD_eq_getElem?_getD]

namespace Tree

/-! ## Quests -/

/-- What is looked for on the way down: at which instant, what each node adds, and when to stop. -/
structure Quest (α : Type) where
  t : Int
  visit : Node → α → α
  enough : α → Bool

namespace Quest

variable {α : Type}

/-- The search for the interval of an attribute. -/
def find (t quark : Int) : Quest (Option Interval) where
  t := t
  visit node _ := node.find? t quark
  enough := Option.isSome

/-- The search for the intervals of all attributes. -/
def collect (t : Int) : Quest Slots where
  t := t
  visit node := node.collect t
  enough _ := false

/-- Whether a visit is enough is up to the node alone. -/
def Steady (quest : Quest α) : Prop :=
  ∀ node gathered other,
    quest.enough (quest.visit node gathered) = quest.enough (quest.visit node other)

theorem steady_find (t quark : Int) : (find t quark).Steady := fun _ _ _ => rfl

theorem steady_collect (t : Int) : (collect t).Steady := fun _ _ _ => rfl

/-- The descent from the root of a tree. -/
def step
    (quest : Quest α)
    (gathered : α) :
    Step Tree α :=
  descendFromRoot quest.t quest.visit quest.enough gathered

theorem step_find (t quark : Int) : (find t quark).step none = Tree.find t quark := rfl

theorem step_collect
    (t : Int)
    (slots : Slots) :
    (collect t).step slots = Tree.collect t slots := rfl

/-- A node that is visited next, with what was gathered before. -/
structure Stand (α : Type) where
  node : Node
  gathered : α

/-- One visit: the next stand, or how the quest ends. -/
def round
    (quest : Quest α)
    (look : Nat → Except Fault Node)
    (stand : Stand α) :
    Stand α ⊕ Except Fault α :=
  let gathered := quest.visit stand.node stand.gathered
  if quest.enough gathered then
    .inr (.ok gathered)
  else
    match stand.node.kind, stand.node.childAt? quest.t with
    | .core, some seq =>
      match look seq with
      | .ok node => .inl ⟨node, gathered⟩
      | .error fault => .inr (.error fault)
    | _, _ => .inr (.ok gathered)

/-- Where a quest stands after so many visits, or how it ended. -/
def after
    (quest : Quest α)
    (look : Nat → Except Fault Node) :
    (visits : Nat) →
    (stand : Stand α) →
    Stand α ⊕ Except Fault α
  | 0, stand => .inl stand
  | visits + 1, stand =>
    match quest.round look stand with
    | .inl next => quest.after look visits next
    | .inr outcome => .inr outcome

/-- The number of the block that is visited next after so many visits, if one is. -/
def block?
    (quest : Quest α)
    (look : Nat → Except Fault Node)
    (start : Stand α)
    (visits : Nat) :
    Option Nat :=
  (quest.after look visits start).getLeft?.map (·.node.seq)

section Visits

variable {quest : Quest α} {look : Nat → Except Fault Node} {start stand : Stand α}

/-- A visit that is not enough leads to the child at the instant. -/
theorem round_of_child
    {gathered further : α}
    {node child : Node}
    {seq : Nat}
    (visited : quest.visit node gathered = further)
    (few : quest.enough further = false)
    (kind : node.kind = .core)
    (links : node.childAt? quest.t = some seq)
    (found : look seq = .ok child) :
    quest.round look ⟨node, gathered⟩ = .inl ⟨child, further⟩ := by
  simp only [round, visited, few, kind, links, found, Bool.false_eq_true, if_false]

theorem after_succ_of_round
    {next : Stand α}
    (goes : quest.round look stand = .inl next)
    (visits : Nat) :
    quest.after look (visits + 1) stand = quest.after look visits next := by
  rw [after, goes]

theorem after_succ_of_ended
    {outcome : Except Fault α}
    (ends : quest.round look stand = .inr outcome)
    (visits : Nat) :
    quest.after look (visits + 1) stand = .inr outcome := by
  rw [after, ends]

theorem block?_of_stand
    {visits : Nat}
    (stands : quest.after look visits start = .inl stand) :
    quest.block? look start visits = some stand.node.seq := by
  rw [block?, stands]
  rfl

theorem after_add
    (quest : Quest α)
    (look : Nat → Except Fault Node)
    (start : Stand α)
    (visits more : Nat) :
    quest.after look (visits + more) start
      = match quest.after look visits start with
        | .inl stand => quest.after look more stand
        | .inr outcome => .inr outcome := by
  induction visits generalizing start with
  | zero => rw [Nat.zero_add, after]
  | succ visits ih =>
      rw [Nat.add_right_comm, after, after]
      cases quest.round look start with
      | inl next => exact ih next
      | inr outcome => rfl

theorem after_add_of_stand
    {visits : Nat}
    (stands : quest.after look visits start = .inl stand)
    (more : Nat) :
    quest.after look (visits + more) start = quest.after look more stand := by
  rw [after_add, stands]

theorem after_add_of_ended
    {visits : Nat}
    {outcome : Except Fault α}
    (ended : quest.after look visits start = .inr outcome)
    (more : Nat) :
    quest.after look (visits + more) start = .inr outcome := by
  rw [after_add, ended]

/-- A quest that goes on stood somewhere at every earlier visit. -/
theorem exists_stand_of_le
    {visits earlier : Nat}
    (stands : quest.after look visits start = .inl stand)
    (le : earlier ≤ visits) :
    ∃ before, quest.after look earlier start = .inl before := by
  cases ends : quest.after look earlier start with
  | inl before => exact ⟨before, rfl⟩
  | inr outcome =>
      have ended := after_add_of_ended ends (visits - earlier)
      rw [Nat.add_sub_cancel' le, stands] at ended
      cases ended

/-- A quest that ended has a last visit. -/
theorem exists_last
    {visits : Nat}
    {outcome : Except Fault α}
    (ended : quest.after look visits start = .inr outcome) :
    ∃ last, last < visits
      ∧ (∃ stand, quest.after look last start = .inl stand)
      ∧ quest.after look (last + 1) start = .inr outcome := by
  induction visits with
  | zero => cases ended
  | succ visits ih =>
      cases before : quest.after look visits start with
      | inl stand => exact ⟨visits, Nat.lt_succ_self visits, ⟨stand, before⟩, ended⟩
      | inr early =>
          cases (after_add_of_ended before 1).symm.trans ended
          rcases ih before with ⟨last, fewer, found⟩
          exact ⟨last, Nat.lt_succ_of_lt fewer, found⟩

/-- A quest stands at nodes that are told by the blocks of their numbers. -/
theorem look_of_stand
    (sound : ∀ seq node, look seq = .ok node → node.seq = seq)
    (told : look start.node.seq = .ok start.node)
    {visits : Nat}
    (stands : quest.after look visits start = .inl stand) :
    look stand.node.seq = .ok stand.node := by
  induction visits generalizing start with
  | zero =>
      cases stands
      exact told
  | succ visits ih =>
      rw [after] at stands
      cases next : quest.round look start with
      | inr outcome =>
          rw [next] at stands
          cases stands
      | inl between =>
          rw [next] at stands
          refine ih ?_ stands
          unfold round at next
          dsimp only at next
          split at next
          · cases next
          · split at next
            · split at next
              · rename_i node found
                cases next
                rw [sound _ _ found]
                exact found
              · cases next
            · cases next

/-- From one node all quests of a kind go on to one node. -/
theorem round_of_node_eq
    {other next : Stand α}
    (steady : quest.Steady)
    (same : other.node = stand.node)
    (goes : quest.round look stand = .inl next) :
    ∃ gathered, quest.round look other = .inl ⟨next.node, gathered⟩ := by
  unfold round at goes ⊢
  dsimp only at goes ⊢
  rw [same, steady stand.node other.gathered stand.gathered]
  split at goes
  · cases goes
  · rename_i few
    rw [if_neg few]
    split at goes
    · split at goes
      · cases goes
        exact ⟨_, rfl⟩
      · cases goes
    · cases goes

theorem after_of_node_eq
    {other next : Stand α}
    (steady : quest.Steady)
    (same : other.node = stand.node)
    {visits : Nat}
    (goes : quest.after look visits stand = .inl next) :
    ∃ gathered, quest.after look visits other = .inl ⟨next.node, gathered⟩ := by
  induction visits generalizing stand other with
  | zero =>
      cases goes
      exact ⟨other.gathered, by rw [after, ← same]⟩
  | succ visits ih =>
      rw [after] at goes
      cases between : quest.round look stand with
      | inr outcome =>
          rw [between] at goes
          cases goes
      | inl middle =>
          rw [between] at goes
          have rest : quest.after look visits middle = .inl next := goes
          rcases round_of_node_eq steady same between with ⟨gathered, likewise⟩
          have sameNode : (Stand.mk middle.node gathered).node = middle.node := rfl
          rw [after, likewise]
          exact ih sameNode rest

/-- A quest that comes to a block again never ends. -/
theorem exists_stand_of_again
    {first second : Nat}
    {again : Stand α}
    (steady : quest.Steady)
    (before : first < second)
    (once : quest.after look first start = .inl stand)
    (twice : quest.after look second start = .inl again)
    (same : again.node = stand.node)
    (visits : Nat) :
    ∃ further, quest.after look visits start = .inl further := by
  -- as many visits behind the second as behind the first lead to the same node
  induction visits using Nat.strong_induction_on with
  | _ visits ih =>
      rcases Nat.lt_or_ge visits second with early | late
      · exact exists_stand_of_le twice (Nat.le_of_lt early)
      · rcases ih (first + (visits - second)) (by omega) with ⟨further, stands⟩
        rw [after_add_of_stand once] at stands
        rcases after_of_node_eq steady same stands with ⟨gathered, goes⟩
        have whole := (after_add_of_stand twice (visits - second)).trans goes
        rw [Nat.add_sub_cancel' late] at whole
        exact ⟨_, whole⟩

/-- A quest that never comes to a block again makes fewer visits than there are blocks. -/
theorem visits_lt_of_distinct
    {bound visits : Nat}
    (sound : ∀ seq node, look seq = .ok node → node.seq = seq)
    (told : look start.node.seq = .ok start.node)
    (bounded : ∀ seq node, look seq = .ok node → seq < bound)
    (distinct : ∀ first second seq, quest.block? look start first = some seq →
      quest.block? look start second = some seq → first = second)
    (stands : quest.after look visits start = .inl stand) :
    visits < bound := by
  by_contra many
  have earlier : ∀ visit : Fin (visits + 1), ∃ before, quest.after look visit start = .inl before :=
    fun visit => exists_stand_of_le stands (Nat.le_of_lt_succ visit.isLt)
  choose before standsBefore using earlier
  have inside : ∀ visit, (before visit).node.seq < bound := fun visit =>
    bounded _ _ (look_of_stand sound told (standsBefore visit))
  have crowded : Fintype.card (Fin bound) < Fintype.card (Fin (visits + 1)) := by
    rw [Fintype.card_fin, Fintype.card_fin]
    omega
  rcases Fintype.exists_ne_map_eq_of_card_lt
    (fun visit => (⟨_, inside visit⟩ : Fin bound)) crowded with ⟨first, second, differ, same⟩
  have sameSeq : (before first).node.seq = (before second).node.seq := congrArg Fin.val same
  refine differ (Fin.ext (distinct first second (before first).node.seq ?_ ?_))
  · exact block?_of_stand (standsBefore first)
  · rw [sameSeq]
    exact block?_of_stand (standsBefore second)

theorem exists_stand_of_block?
    {visits seq : Nat}
    (visited : quest.block? look start visits = some seq) :
    ∃ stand, quest.after look visits start = .inl stand ∧ stand.node.seq = seq := by
  unfold block? at visited
  cases stands : quest.after look visits start with
  | inl stand =>
      rw [stands] at visited
      exact ⟨stand, rfl, Option.some.inj visited⟩
  | inr outcome =>
      rw [stands] at visited
      cases visited

/-- A quest ends without coming to a block again, or comes to one again and never ends. -/
theorem ends_or_circles
    {bound : Nat}
    (steady : quest.Steady)
    (sound : ∀ seq node, look seq = .ok node → node.seq = seq)
    (told : look start.node.seq = .ok start.node)
    (bounded : ∀ seq node, look seq = .ok node → seq < bound) :
    (∃ visits last outcome,
      quest.after look visits start = .inl last
        ∧ quest.after look (visits + 1) start = .inr outcome
        ∧ (∀ first second seq, quest.block? look start first = some seq →
          quest.block? look start second = some seq → first = second)
        ∧ ∀ limit, (∀ seq node, look seq = .ok node → seq < limit) → visits < limit)
      ∨ ∃ first second seq, first < second
        ∧ quest.block? look start first = some seq
        ∧ quest.block? look start second = some seq
        ∧ ∀ visits, ∃ stand, quest.after look visits start = .inl stand := by
  by_cases again : ∃ first second seq, first < second
      ∧ quest.block? look start first = some seq
      ∧ quest.block? look start second = some seq
  · rcases again with ⟨first, second, seq, later, once, twice⟩
    rcases exists_stand_of_block? once with ⟨stand, stands, seqOnce⟩
    rcases exists_stand_of_block? twice with ⟨other, standsAgain, seqTwice⟩
    have toldOnce := look_of_stand sound told stands
    have toldTwice := look_of_stand sound told standsAgain
    rw [seqOnce] at toldOnce
    rw [seqTwice, toldOnce] at toldTwice
    exact Or.inr ⟨first, second, seq, later, once, twice,
      exists_stand_of_again steady later stands standsAgain (Except.ok.inj toldTwice).symm⟩
  · have distinct : ∀ first second seq, quest.block? look start first = some seq →
        quest.block? look start second = some seq → first = second := by
      intro first second seq once twice
      rcases Nat.lt_trichotomy first second with less | same | greater
      · exact absurd ⟨first, second, seq, less, once, twice⟩ again
      · exact same
      · exact absurd ⟨second, first, seq, greater, twice, once⟩ again
    cases through : quest.after look bound start with
    | inl stand =>
        exact absurd (visits_lt_of_distinct sound told bounded distinct through) (Nat.lt_irrefl _)
    | inr outcome =>
        rcases exists_last through with ⟨visits, -, ⟨last, stands⟩, ended⟩
        exact Or.inl ⟨visits, last, outcome, stands, ended, distinct, fun limit within =>
          visits_lt_of_distinct sound told within distinct stands⟩

end Visits

end Quest

/-! ## Looking nodes up -/

namespace NodeFile

variable {io : NodeFile} {volume : Volume} {cache : NodeCache} {seq : Nat} {node : Node}

/-- A node that is told by a block is told by the block of its number, which is one of the file. -/
theorem block_of_fetch
    (fetched : io.fetch volume seq = .ok node) :
    node.seq = seq
      ∧ ∃ block, volume.read io.file (io.blockOffset seq) io.config.blockSize = .ok block := by
  rcases exists_ok_of_bind fetched with ⟨block, read, told⟩
  rcases exists_ok_of_bind told with ⟨found, -, checked⟩
  split at checked
  · rename_i same
    cases checked
    exact ⟨same, block, read⟩
  · cases checked

theorem seq_of_fetch
    (fetched : io.fetch volume seq = .ok node) :
    node.seq = seq :=
  (block_of_fetch fetched).1

/-- There are no nodes behind the last whole block of a file. -/
theorem seq_lt_of_fetch
    (valid : io.config.Valid)
    (fetched : io.fetch volume seq = .ok node) :
    seq < io.blockCount volume := by
  rcases block_of_fetch fetched with ⟨-, block, read⟩
  have room := valid.roomForInterval
  have exists_ := (Volume.read_eq_ok_iff.mp read).2.1
  simp only [Config.coreCapacity, Config.leafCapacity, smallestInterval] at room
  unfold blockOffset at exists_
  have behind : (seq + 1) * io.config.blockSize
      ≤ (volume.content io.file).size - Header.size := by
    rw [Nat.add_mul, Nat.one_mul]
    omega
  exact (Nat.le_div_iff_mul_le (by omega)).mpr behind

/-- Nodes at hand that are as the file tells them. -/
structure Mirrors
    (io : NodeFile)
    (volume : Volume)
    (cache : NodeCache) : Prop where
  tidy : cache.Tidy
  told : ∀ held ∈ cache.nodes, io.fetch volume held.seq = .ok held

/-- Whether or not a node is at hand, it is found as the file tells it. -/
theorem Mirrors.readNode
    (mirrors : Mirrors io volume cache)
    (seq : Nat) :
    ∃ further, NodeFile.readNode seq ⟨volume, { io with cache }⟩
        = Step.ofExcept (io.fetch volume seq) ⟨volume, { io with cache := further }⟩
      ∧ Mirrors io volume further
      ∧ further.capacity = cache.capacity
      ∧ ∀ held ∈ further.nodes, held ∈ cache.nodes ∨ held.seq = seq := by
  cases atHand : cache.get? seq with
  | some held =>
      have heldSeq : held.seq = seq := by
        have test := List.find?_some atHand
        simpa using test
      have fetched := mirrors.told held (List.mem_of_find?_eq_some atHand)
      rw [heldSeq] at fetched
      refine ⟨cache, ?_, mirrors, rfl, fun _ member => Or.inl member⟩
      simp only [NodeFile.readNode, Step.subject_bind_apply, atHand, fetched]
      rfl
  | none =>
      have same : NodeFile.fetch { io with cache } volume seq = io.fetch volume seq := rfl
      cases fetched : io.fetch volume seq with
      | error fault =>
          refine ⟨cache, ?_, mirrors, rfl, fun _ member => Or.inl member⟩
          simp only [NodeFile.readNode, Step.subject_bind_apply, atHand, Step.volume_bind_apply,
            same, fetched, Step.ofExcept_error]
          rfl
      | ok node =>
          refine ⟨cache.insert node, ?_, ⟨?_, ?_⟩, cache.capacity_insert node, ?_⟩
          · simp only [NodeFile.readNode, Step.subject_bind_apply, atHand, Step.volume_bind_apply,
              same, fetched, Step.ofExcept_ok, Step.pure_bind_apply]
            rfl
          · exact mirrors.tidy.insert node
          · intro held member
            rcases mirrors.tidy.mem_nodes_insert member with rfl | ⟨old, -⟩
            · rw [seq_of_fetch fetched]
              exact fetched
            · exact mirrors.told held old
          · intro held member
            rcases mirrors.tidy.mem_nodes_insert member with rfl | ⟨old, -⟩
            · exact Or.inr (seq_of_fetch fetched)
            · exact Or.inl old

end NodeFile

section Opened

variable {α : Type} {tree : Tree} {volume : Volume} {cache : NodeCache}

/-- A tree without a branch finds every node as its file tells it. -/
theorem NodeFile.Mirrors.nodeAt
    (mirrors : NodeFile.Mirrors tree.io volume cache)
    (branch : tree.branch = [])
    (seq : Nat) :
    ∃ further, Tree.nodeAt seq ⟨volume, tree.withCache cache⟩
        = Step.ofExcept (tree.io.fetch volume seq) ⟨volume, tree.withCache further⟩
      ∧ NodeFile.Mirrors tree.io volume further := by
  have noBranch : (tree.withCache cache).branch = [] := branch
  rcases mirrors.readNode seq with ⟨further, read, still, -⟩
  refine ⟨further, ?_, still⟩
  unfold Tree.nodeAt
  rw [Step.subject_bind_apply, noBranch]
  cases fetched : tree.io.fetch volume seq with
  | error fault =>
      rw [fetched] at read
      exact Step.onPart_of_error read
  | ok node =>
      rw [fetched] at read
      exact Step.onPart_of_ok read

/-- A descent may visit more nodes than there are blocks. -/
theorem blockCount_lt_descentBound
    (tree : Tree)
    (cache : NodeCache)
    (volume : Volume) :
    tree.io.blockCount volume < (tree.withCache cache).descentBound volume := by
  have same : (tree.withCache cache).io.blockCount volume = tree.io.blockCount volume := rfl
  unfold descentBound
  rw [same]
  omega

/-- How a descent ends that may visit only so many nodes. -/
def Quest.verdict :
    Quest.Stand α ⊕ Except Fault α →
    Except Fault α
  | .inl _ => .error .endlessDescent
  | .inr outcome => outcome

/-- A descent visits what its quest does, one node for each unit of fuel. -/
theorem NodeFile.Mirrors.descend
    (mirrors : NodeFile.Mirrors tree.io volume cache)
    (branch : tree.branch = [])
    (quest : Quest α)
    (fuel : Nat)
    (stand : Quest.Stand α) :
    ∃ further, Tree.descend quest.t quest.visit quest.enough fuel stand.node stand.gathered
          ⟨volume, tree.withCache cache⟩
        = Step.ofExcept (Quest.verdict (quest.after (tree.io.fetch volume) fuel stand))
          ⟨volume, tree.withCache further⟩
      ∧ NodeFile.Mirrors tree.io volume further := by
  induction fuel generalizing cache stand with
  | zero => exact ⟨cache, rfl, mirrors⟩
  | succ fuel ih =>
      simp only [Tree.descend, Quest.after, Quest.round]
      by_cases full : quest.enough (quest.visit stand.node stand.gathered) = true
      · simp only [full, if_true]
        exact ⟨cache, rfl, mirrors⟩
      · simp only [full]
        cases stand.node.kind with
        | leaf => exact ⟨cache, rfl, mirrors⟩
        | core =>
            cases child : stand.node.childAt? quest.t with
            | none => exact ⟨cache, rfl, mirrors⟩
            | some seq =>
                rcases mirrors.nodeAt branch seq with ⟨between, read, still⟩
                cases fetched : tree.io.fetch volume seq with
                | error fault =>
                    rw [fetched] at read
                    simp only [Bool.false_eq_true, if_false, fetched]
                    exact ⟨between, Step.bind_of_error read, still⟩
                | ok node =>
                    rw [fetched] at read
                    rcases ih still ⟨node, quest.visit stand.node stand.gathered⟩ with
                      ⟨further, ends, lasting⟩
                    simp only [Bool.false_eq_true, if_false, fetched]
                    exact ⟨further, (Step.bind_of_ok read).trans ends, lasting⟩

/-- How a quest comes out with so much fuel, in a tree of which only the file counts. -/
def Quest.comesOut
    (quest : Quest α)
    (look : Nat → Except Fault Node)
    (rootSeq fuel : Nat)
    (gathered : α) :
    Except Fault α :=
  match look rootSeq with
  | .error fault => .error fault
  | .ok root => Quest.verdict (quest.after look fuel ⟨root, gathered⟩)

theorem Quest.comesOut_of_root
    {quest : Quest α}
    {look : Nat → Except Fault Node}
    {rootSeq : Nat}
    {root : Node}
    (found : look rootSeq = .ok root)
    (fuel : Nat)
    (gathered : α) :
    quest.comesOut look rootSeq fuel gathered
      = Quest.verdict (quest.after look fuel ⟨root, gathered⟩) := by
  rw [Quest.comesOut, found]

theorem NodeFile.Mirrors.descendFromRoot
    (mirrors : NodeFile.Mirrors tree.io volume cache)
    (branch : tree.branch = [])
    (quest : Quest α)
    (gathered : α) :
    ∃ further, quest.step gathered ⟨volume, tree.withCache cache⟩
        = Step.ofExcept (quest.comesOut (tree.io.fetch volume) tree.rootSeq
            ((tree.withCache cache).descentBound volume) gathered)
          ⟨volume, tree.withCache further⟩
      ∧ NodeFile.Mirrors tree.io volume further := by
  have noBranch : (tree.withCache cache).branch = [] := branch
  rcases mirrors.readNode tree.rootSeq with ⟨between, read, still, -⟩
  unfold Quest.step Tree.descendFromRoot Tree.root Quest.comesOut
  rw [Step.subject_bind_apply, Step.volume_bind_apply]
  cases fetched : tree.io.fetch volume tree.rootSeq with
  | error fault =>
      rw [fetched] at read
      refine ⟨between, Step.bind_of_error ?_, still⟩
      rw [Step.subject_bind_apply, noBranch]
      exact Step.onPart_of_error read
  | ok root =>
      rw [fetched] at read
      rcases still.descend branch quest ((tree.withCache cache).descentBound volume)
        ⟨root, gathered⟩ with ⟨further, ends, lasting⟩
      refine ⟨further, (Step.bind_of_ok ?_).trans ends, lasting⟩
      rw [Step.subject_bind_apply, noBranch]
      exact Step.onPart_of_ok read

/-! ## How questions come out -/

/--
How a descent from the root of a tree that was opened from a file comes out.
Either the root is refused.  Or no block is visited twice, and the descent ends
at the last of fewer blocks than the file has, with an answer or with the fault
of a block that is refused.  Or else some block is visited a second time, and
the descent never ends.
-/
inductive Quest.Concludes
    (quest : Quest α)
    (gathered : α)
    (s : Placed Tree) : Prop
  | refused
      {fault : Fault}
      {reached : Placed Tree}
      (found : s.subject.io.fetch s.volume s.subject.rootSeq = .error fault)
      (answer : quest.step gathered s = .error fault reached)
  | ends
      {root : Node}
      {last : Quest.Stand α}
      {visits : Nat}
      {outcome : Except Fault α}
      {reached : Placed Tree}
      (found : s.subject.io.fetch s.volume s.subject.rootSeq = .ok root)
      (stands : quest.after (s.subject.io.fetch s.volume) visits ⟨root, gathered⟩ = .inl last)
      (ended : quest.after (s.subject.io.fetch s.volume) (visits + 1) ⟨root, gathered⟩
        = .inr outcome)
      (distinct : ∀ first second seq,
        quest.block? (s.subject.io.fetch s.volume) ⟨root, gathered⟩ first = some seq →
          quest.block? (s.subject.io.fetch s.volume) ⟨root, gathered⟩ second = some seq →
            first = second)
      (few : visits < s.subject.io.blockCount s.volume)
      (fewer : (∀ seq node, s.subject.io.fetch s.volume seq = .ok node →
        seq < s.subject.nodeCount) → visits < s.subject.nodeCount)
      (answer : quest.step gathered s = Step.ofExcept outcome reached)
  | circles
      {root : Node}
      {first second seq : Nat}
      {reached : Placed Tree}
      (found : s.subject.io.fetch s.volume s.subject.rootSeq = .ok root)
      (later : first < second)
      (once : quest.block? (s.subject.io.fetch s.volume) ⟨root, gathered⟩ first = some seq)
      (twice : quest.block? (s.subject.io.fetch s.volume) ⟨root, gathered⟩ second = some seq)
      (endless : ∀ visits, ∃ stand,
        quest.after (s.subject.io.fetch s.volume) visits ⟨root, gathered⟩ = .inl stand)
      (answer : quest.step gathered s = .error .endlessDescent reached)

theorem NodeFile.Mirrors.concludes
    (mirrors : NodeFile.Mirrors tree.io volume cache)
    (branch : tree.branch = [])
    (valid : tree.io.config.Valid)
    {quest : Quest α}
    (steady : quest.Steady)
    (gathered : α) :
    quest.Concludes gathered ⟨volume, tree.withCache cache⟩ := by
  rcases mirrors.descendFromRoot branch quest gathered with ⟨further, answer, -⟩
  cases found : tree.io.fetch volume tree.rootSeq with
  | error fault =>
      rw [Quest.comesOut, found] at answer
      exact .refused found answer
  | ok root =>
      rw [Quest.comesOut_of_root found] at answer
      have told : tree.io.fetch volume (Quest.Stand.mk root gathered).node.seq
          = .ok (Quest.Stand.mk root gathered).node := by
        rw [NodeFile.seq_of_fetch found]
        exact found
      have sound : ∀ seq node, tree.io.fetch volume seq = .ok node → node.seq = seq :=
        fun _ _ => NodeFile.seq_of_fetch
      have inFile : ∀ seq node, tree.io.fetch volume seq = .ok node →
          seq < tree.io.blockCount volume := fun _ _ => NodeFile.seq_lt_of_fetch valid
      rcases Quest.ends_or_circles steady sound told inFile with
        ⟨visits, last, outcome, stands, ended, distinct, fewer⟩
        | ⟨first, second, seq, later, once, twice, endless⟩
      · have few : visits < tree.io.blockCount volume := fewer _ inFile
        have enough : visits + 1 ≤ (tree.withCache cache).descentBound volume :=
          Nat.lt_trans few (blockCount_lt_descentBound tree cache volume)
        have atEnd := Quest.after_add_of_ended ended
          ((tree.withCache cache).descentBound volume - (visits + 1))
        rw [Nat.add_sub_cancel' enough] at atEnd
        rw [atEnd] at answer
        exact .ends found stands ended distinct few (fewer _) answer
      · rcases endless ((tree.withCache cache).descentBound volume) with ⟨stand, goesOn⟩
        rw [goesOn] at answer
        exact .circles found later once twice endless answer

end Opened

/-- Whatever is asked of a tree opened from a file, only the nodes at hand change. -/
theorem NodeFile.Mirrors.reached_each
    {tree : Tree}
    {volume : Volume}
    {cache : NodeCache}
    (mirrors : NodeFile.Mirrors tree.io volume cache)
    (branch : tree.branch = [])
    (finished : tree.finished = true)
    (calls : List Call) :
    ∃ further, (Step.each Call.step calls).reached ⟨volume, tree.withCache cache⟩
        = ⟨volume, tree.withCache further⟩
      ∧ NodeFile.Mirrors tree.io volume further := by
  induction calls generalizing cache with
  | nil => exact ⟨cache, rfl, mirrors⟩
  | cons call calls ih =>
      have first : ∃ between, call.step.reached ⟨volume, tree.withCache cache⟩
            = ⟨volume, tree.withCache between⟩
          ∧ NodeFile.Mirrors tree.io volume between := by
        cases call with
        | insert i =>
            have refused : insert i ⟨volume, tree.withCache cache⟩
                = .error (.badArgument .finishedTree) ⟨volume, tree.withCache cache⟩ := by
              have full : (tree.withCache cache).finished = true := finished
              unfold insert
              rw [Step.subject_bind_apply, if_pos full]
              rfl
            exact ⟨cache, Step.reached_bind_of_error refused, mirrors⟩
        | find t quark =>
            rcases mirrors.descendFromRoot branch (.find t quark) none with
              ⟨between, ends, still⟩
            refine ⟨between, ?_, still⟩
            exact (Step.reached_map (Tree.find t quark) Reply.interval _).trans
              (Step.reached_of_ofExcept ends)
        | collect t slots =>
            rcases mirrors.descendFromRoot branch (.collect t) slots with ⟨between, ends, still⟩
            refine ⟨between, ?_, still⟩
            exact (Step.reached_map (Tree.collect t slots) Reply.slots _).trans
              (Step.reached_of_ofExcept ends)
      rcases first with ⟨between, goes, still⟩
      rw [Step.reached_each_cons, goes]
      exact ih still

/-- A tree opened from a file has no node at hand, and settings under which trees work. -/
theorem opened_of_reopen
    {name : String}
    {version : Nat}
    {volume : Volume}
    {tree : Tree}
    {ns : Namespace}
    (opened : Tree.reopen name version volume = .ok (tree, ns)) :
    tree.branch = []
      ∧ tree.finished = true
      ∧ tree.io.config.Valid
      ∧ tree.io.cache = .empty tree.io.config.cacheSize := by
  rcases exists_ok_of_bind opened with ⟨file, -, located⟩
  rcases exists_ok_of_bind located with ⟨header, -, decoded⟩
  by_cases finished : header.finished = true
  · by_cases version_eq : header.version = version
    · simp only [finished, Bool.not_true, Bool.false_eq_true, if_false, ne_eq, version_eq,
        not_true_eq_false] at decoded
      rcases exists_ok_of_bind decoded with ⟨done, accepted, validated⟩
      rcases exists_ok_of_bind validated with ⟨told, -, named⟩
      cases named
      exact ⟨rfl, rfl, (Config.validate_eq_ok_iff _).mp accepted, rfl⟩
    · simp only [finished, Bool.not_true, Bool.false_eq_true, if_false, ne_eq, version_eq,
        not_false_eq_true, if_true] at decoded
      cases decoded
  · simp only [finished, Bool.not_false, if_true] at decoded
    cases decoded

/--
A tree that was opened from a file, whatever the links in its blocks say and
whatever it was asked before, is as it was opened but for the nodes at hand.
Each question about an instant comes to fewer blocks than there are and ends,
or it comes to one of them again and never ends.
-/
theorem concludes_of_reopened
    {name : String}
    {version : Nat}
    {volume : Volume}
    {tree : Tree}
    {ns : Namespace}
    (opened : Tree.reopen name version volume = .ok (tree, ns))
    (earlier : List Call)
    (t quark : Int)
    (slots : Slots) :
    ∃ cache, (Step.each Call.step earlier).reached ⟨volume, tree⟩
        = ⟨volume, tree.withCache cache⟩
      ∧ (Quest.find t quark).Concludes none ⟨volume, tree.withCache cache⟩
      ∧ (Quest.collect t).Concludes slots ⟨volume, tree.withCache cache⟩ := by
  rcases opened_of_reopen opened with ⟨branch, finished, valid, noneAtHand⟩
  have mirrors : NodeFile.Mirrors tree.io volume tree.io.cache := by
    constructor
    · rw [noneAtHand]
      exact NodeCache.tidy_empty _
    · intro held member
      rw [noneAtHand] at member
      cases member
  rcases mirrors.reached_each branch finished earlier with ⟨cache, goes, still⟩
  exact ⟨cache, goes, still.concludes branch valid (Quest.steady_find t quark) none,
    still.concludes branch valid (Quest.steady_collect t) slots⟩

/-! ## A forged file -/

/-- What the block of a root holds that is its own child from the tenth instant on. -/
def loopBody : Bytes :=
  [1, 1] ++ LittleEndian.encode 4 0 ++ LittleEndian.encodeSigned 4 (-1)
    ++ LittleEndian.encodeSigned 8 0 ++ LittleEndian.encodeSigned 8 19
    ++ LittleEndian.encode 4 0 ++ LittleEndian.encode 2 2
    ++ Node.Link.encode ⟨1, 0⟩ ++ Node.Link.encode ⟨0, 10⟩
    ++ List.replicate 21 0

/-- What the block of its other child holds. -/
def childBody : Bytes :=
  [2, 1] ++ LittleEndian.encode 4 1 ++ LittleEndian.encodeSigned 4 0
    ++ LittleEndian.encodeSigned 8 0 ++ LittleEndian.encodeSigned 8 9
    ++ LittleEndian.encode 4 1 ++ LittleEndian.encode 2 0
    ++ LittleEndian.encodeSigned 8 0 ++ LittleEndian.encodeSigned 8 9
    ++ LittleEndian.encodeSigned 4 0 ++ [0]
    ++ List.replicate 24 0

/-- A header that tells of a single node. -/
def forgedHeader : Header where
  version := 0
  blockSize := 81
  maxChildren := 2
  nodeCount := 1
  rootSeq := 0
  start := 0
  stop := 19
  namespaceOffset := 226
  namespaceSize := 4
  finished := true

/-- Bytes with their checksum. -/
def certified (body : Bytes) : Bytes :=
  body ++ Checksum.trailer body

/-- A file with this header and the blocks of both nodes, all of them with their checksums. -/
def forged : Volume where
  names := [("forged", 0)]
  contents := #[(forgedHeader.encode ++ (certified loopBody ++ (certified childBody
    ++ (certified [0, 0, 0, 0] ++ [])))).toArray]

/-- The root of the forged file. -/
def loop : Node :=
  ⟨.core, 0, none, 0, 19, true, #[], #[⟨1, 0⟩, ⟨0, 10⟩]⟩

/-- The other node of the forged file. -/
def onlyChild : Node :=
  ⟨.leaf, 1, some 0, 0, 9, true, #[⟨0, 9, 0, .null, by decide⟩], #[]⟩

/-- What the header of the forged file tells. -/
def fooled : Tree :=
  ofHeader forgedHeader 0

theorem valid_fooled : fooled.io.config.Valid :=
  ⟨by decide, by decide, by decide, by decide⟩

theorem content_forged :
    (forged.content 0).toList = forgedHeader.encode ++ (certified loopBody
      ++ (certified childBody ++ (certified [0, 0, 0, 0] ++ []))) := rfl

theorem length_certified
    (body : Bytes) :
    (certified body).length = body.length + 4 := by
  rw [certified, List.length_append, Checksum.length_trailer]

theorem reopen_forged :
    Tree.reopen "forged" 0 forged = .ok (fooled, .empty) := by
  have storable : forgedHeader.Storable :=
    ⟨by decide, by decide, by decide, by decide, by decide, by decide, by decide, by decide,
      by decide, by decide, by decide⟩
  have decoded : Header.decode (forged.content 0).toList = .ok forgedHeader :=
    Header.decode_append storable _
  have accepted : forgedHeader.config.validate = .ok () :=
    (Config.validate_eq_ok_iff _).mpr valid_fooled
  have names : forged.read 0 226 (([0, 0, 0, 0] : Bytes).length + checksumSize)
      = .ok (certified [0, 0, 0, 0]) := by
    have content := content_forged
    rw [← List.append_assoc, ← List.append_assoc] at content
    refine Volume.read_of_append content ?_ (length_certified _)
    simp only [List.length_append, Header.length_encode, length_certified]
    rfl
  have named : (NodeFile.ofFile forgedHeader.config 0).readNamespace forged
      forgedHeader.namespaceOffset forgedHeader.namespaceSize = .ok .empty := by
    have encoded : Namespace.empty.encode = .ok [0, 0, 0, 0] := rfl
    have few : Namespace.empty.size ≤ 2147483648 := by decide
    have read : fooled.io.readNamespace forged 226 ([0, 0, 0, 0] : Bytes).length = .ok .empty :=
      NodeFile.readNamespace_of_read encoded few names
    exact read
  have found : forged.lookup? "forged" = some 0 := by decide
  have opened := reopen_of_header found decoded rfl accepted named
  exact opened

/-- A node is fetched from a block that holds its bytes with their checksum. -/
theorem NodeFile.fetch_of_certified
    {io : NodeFile}
    {volume : Volume}
    {node : Node}
    {body rest : Bytes}
    (read : volume.read io.file (io.blockOffset node.seq) io.config.blockSize
      = .ok (certified body))
    (length : body.length = Node.bodySize io.config)
    (room : checksumSize ≤ io.config.blockSize)
    (told : Node.readBody io.config body = .ok (node, rest)) :
    io.fetch volume node.seq = .ok node := by
  have decoded := Node.decode_sealed length room told
  unfold fetch
  rw [read]
  show (Node.decode io.config (certified body) >>= _) = _
  rw [certified, decoded]
  exact if_pos rfl

theorem fetch_loop :
    fooled.io.fetch forged fooled.rootSeq = .ok loop := by
  have read : forged.read 0 64 81 = .ok (certified loopBody) :=
    Volume.read_of_append content_forged forgedHeader.length_encode (length_certified _)
  have told : Node.readBody fooled.io.config loopBody = .ok (loop, List.replicate 21 0) := by
    decide +kernel
  show fooled.io.fetch forged loop.seq = _
  exact NodeFile.fetch_of_certified read (by decide) (by decide) told

theorem fetch_onlyChild :
    fooled.io.fetch forged 1 = .ok onlyChild := by
  have read : forged.read 0 145 81 = .ok (certified childBody) := by
    have content := content_forged
    rw [← List.append_assoc] at content
    refine Volume.read_of_append content ?_ (length_certified _)
    rw [List.length_append, Header.length_encode, length_certified]
    rfl
  have told : Node.readBody fooled.io.config childBody = .ok (onlyChild, List.replicate 24 0) := by
    decide +kernel
  show fooled.io.fetch forged onlyChild.seq = _
  exact NodeFile.fetch_of_certified read (by decide) (by decide) told

theorem concludes_in_forged :
    Tree.reopen "forged" 0 forged = .ok (fooled, .empty)
      ∧ ∃ cache,
        (Step.each Call.step [.find 5 0, .find 10 0]).reached ⟨forged, fooled⟩
            = ⟨forged, fooled.withCache cache⟩
          ∧ (Quest.find 5 0).Concludes none ⟨forged, fooled.withCache cache⟩
          ∧ (Quest.collect 10).Concludes #[none] ⟨forged, fooled.withCache cache⟩ := by
  rcases concludes_of_reopened reopen_forged [.find 5 0, .find 10 0] 5 0 #[none] with
    ⟨cache, goes, early, -⟩
  rcases concludes_of_reopened reopen_forged [.find 5 0, .find 10 0] 10 0 #[none] with
    ⟨other, goesToo, -, late⟩
  cases goes.symm.trans goesToo
  exact ⟨reopen_forged, cache, goes, early, late⟩

/--
The forged file is opened with a header that tells of one node, but a question
finds an interval in a second one; another question comes to the root again
and again.
-/
theorem circles_in_forged :
    Tree.reopen "forged" 0 forged = .ok (fooled, .empty)
      ∧ fooled.nodeCount = 1
      ∧ fooled.io.fetch forged fooled.rootSeq = .ok loop
      ∧ (Quest.find 5 0).block? (fooled.io.fetch forged) ⟨loop, none⟩ 0 = some 0
      ∧ (Quest.find 5 0).block? (fooled.io.fetch forged) ⟨loop, none⟩ 1 = some 1
      ∧ (∃ i reached, Tree.find 5 0 ⟨forged, fooled⟩ = .ok (some i) reached)
      ∧ (Quest.find 10 0).block? (fooled.io.fetch forged) ⟨loop, none⟩ 0 = some 0
      ∧ (Quest.find 10 0).block? (fooled.io.fetch forged) ⟨loop, none⟩ 1 = some 0
      ∧ ∀ fuel, ∃ reached,
        Tree.descend 10 (Quest.find 10 0).visit Option.isSome fuel loop none ⟨forged, fooled⟩
          = .error .endlessDescent reached := by
  let interval : Interval := ⟨0, 9, 0, .null, by decide⟩
  have nothing : (Quest.find 5 0).visit loop none = none
      ∧ (Quest.find 10 0).visit loop none = none := by
    decide +kernel
  have early : (Quest.find 5 0).round (fooled.io.fetch forged) ⟨loop, none⟩
      = .inl ⟨onlyChild, none⟩ :=
    Quest.round_of_child nothing.1 rfl rfl (by decide +kernel) fetch_onlyChild
  have late : (Quest.find 10 0).round (fooled.io.fetch forged) ⟨loop, none⟩ = .inl ⟨loop, none⟩ :=
    Quest.round_of_child nothing.2 rfl rfl (by decide +kernel) fetch_loop
  have found : (Quest.find 5 0).round (fooled.io.fetch forged) ⟨onlyChild, none⟩
      = .inr (.ok (some interval)) := by
    have here : (Quest.find 5 0).visit onlyChild none = some interval := by decide +kernel
    simp only [Quest.round, here]
    rfl
  have between : (Quest.find 5 0).after (fooled.io.fetch forged) 1 ⟨loop, none⟩
      = .inl ⟨onlyChild, none⟩ :=
    Quest.after_succ_of_round early 0
  have ended : (Quest.find 5 0).after (fooled.io.fetch forged) 2 ⟨loop, none⟩
      = .inr (.ok (some interval)) :=
    (Quest.after_succ_of_round early 1).trans (Quest.after_succ_of_ended found 0)
  have endless : ∀ visits, (Quest.find 10 0).after (fooled.io.fetch forged) visits ⟨loop, none⟩
      = .inl ⟨loop, none⟩ := by
    intro visits
    induction visits with
    | zero => rfl
    | succ visits ih => exact (Quest.after_succ_of_round late visits).trans ih
  have mirrors : NodeFile.Mirrors fooled.io forged fooled.io.cache :=
    ⟨NodeCache.tidy_empty _, fun held member => by cases member⟩
  have unopened : fooled.withCache fooled.io.cache = fooled := rfl
  refine ⟨reopen_forged, rfl, fetch_loop, rfl, Quest.block?_of_stand between, ?_,
    Quest.block?_of_stand (endless 0), Quest.block?_of_stand (endless 1), ?_⟩
  · rcases mirrors.descendFromRoot rfl (.find 5 0) none with ⟨cache, answer, -⟩
    have enough : 2 ≤ (fooled.withCache fooled.io.cache).descentBound forged := by
      have known := NodeFile.seq_lt_of_fetch valid_fooled fetch_onlyChild
      have blocks := blockCount_lt_descentBound fooled fooled.io.cache forged
      omega
    have atEnd := Quest.after_add_of_ended ended
      ((fooled.withCache fooled.io.cache).descentBound forged - 2)
    rw [Nat.add_sub_cancel' enough] at atEnd
    rw [Quest.comesOut_of_root fetch_loop, atEnd, unopened, Quest.step_find] at answer
    exact ⟨interval, _, answer⟩
  · intro fuel
    rcases mirrors.descend rfl (.find 10 0) fuel ⟨loop, none⟩ with ⟨cache, answer, -⟩
    rw [endless, unopened] at answer
    exact ⟨_, answer⟩

end Tree

end Chronicle
