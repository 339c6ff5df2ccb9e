import Chronicle.Proofs.Tree.Circling

/-!
# What is at hand shows nowhere

Which nodes are at hand depends on how many there is room for and on all that
was written and read before.  Yet each of them is as the file tells it: a node
that is written loses nothing in its block, and no other writing touches that
block.  So whatever is asked of the blocks of a file is answered in the same
way with any room, and the file becomes the same.
-/

namespace Chronicle.Tree.NodeFile

/-! ## Demands -/

/-- What can be asked of the blocks of a file. -/
inductive Demand
  | write (node : Node)
  | read (seq : Nat)
  /-- To let all nodes go that are at hand. -/
  | clear
  | writeHeader (header : Header)
  | writeNamespace (offset : Nat) (ns : Namespace)

/-- What is told when something was asked of the blocks of a file. -/
inductive Reply
  | done
  | node (found : Node)
  | size (bytes : Nat)
deriving DecidableEq

namespace Demand

/-- What is done when something is asked. -/
def step : Demand → Step NodeFile Reply
  | write node => do
    writeNode node
    return .done
  | read seq => do
    return .node (← readNode seq)
  | clear => do
    clearCache
    return .done
  | writeHeader header => do
    NodeFile.writeHeader header
    return .done
  | writeNamespace offset ns => do
    return .size (← NodeFile.writeNamespace offset ns)

/-- The number of the node that is written or read. -/
def seq? : Demand → Option Nat
  | write node => some node.seq
  | read seq => some seq
  | _ => none

/-- The node last written under each number, if one was. -/
def note
    (last : Nat → Option Node) :
    Demand →
    Nat → Option Node
  | write node => fun seq => if seq = node.seq then some node else last seq
  | _ => last

end Demand

/-- The node that was last written under each number, if one was. -/
def lastWritten (demands : List Demand) : Nat → Option Node :=
  demands.foldl Demand.note fun _ => none

/-- Whether the number of a node is used by what is asked. -/
def Uses
    (demands : List Demand)
    (seq : Nat) :
    Prop :=
  ∃ demand ∈ demands, demand.seq? = some seq

/--
What is asked of a file can be met: nodes fit their blocks, and namespaces are
put behind all blocks that are used.
-/
structure Fitting
    (config : Config)
    (used : Nat → Prop)
    (demands : List Demand) : Prop where
  lossless : ∀ node, .write node ∈ demands → node.Lossless config
  behind : ∀ offset ns, .writeNamespace offset ns ∈ demands → ∀ seq, used seq →
    Header.size + (seq + 1) * config.blockSize ≤ offset
  among : ∀ seq, Uses demands seq → used seq

theorem Fitting.of_subset
    {config : Config}
    {used : Nat → Prop}
    {demands fewer : List Demand}
    (fitting : Fitting config used demands)
    (subset : ∀ demand ∈ fewer, demand ∈ demands) :
    Fitting config used fewer where
  lossless node member := fitting.lossless node (subset _ member)
  behind offset ns member := fitting.behind offset ns (subset _ member)
  among := by
    rintro seq ⟨demand, member, uses⟩
    exact fitting.among seq ⟨demand, subset demand member, uses⟩

/-! ## A file with some nodes at hand -/

/-- Access to the blocks of a file with nodes at hand, as many as they have room. -/
def holding
    (config : Config)
    (file : Nat)
    (cache : NodeCache) :
    NodeFile :=
  ⟨{ config with cacheSize := cache.capacity }, file, cache⟩

section Held

variable {config : Config} {file : Nat} {used : Nat → Prop} {volume : Volume} {cache : NodeCache}
  {last : Nat → Option Node} {seq : Nat} {node : Node} {offset : Nat} {patch : Bytes}

/-- What is told by a block is told as before after something was put beside the block. -/
theorem fetch_write_of_apart
    {io : NodeFile}
    (known : io.file < volume.contents.size)
    (apart : io.blockOffset seq + io.config.blockSize ≤ offset
      ∨ offset + patch.length ≤ io.blockOffset seq)
    (fetched : io.fetch volume seq = .ok node) :
    io.fetch (volume.write io.file offset patch) seq = .ok node := by
  rcases exists_ok_of_bind fetched with ⟨block, read, told⟩
  unfold fetch
  rw [Volume.read_write_of_disjoint known apart read]
  exact told

/-- A file that tells under each number that is used the node that was last written there. -/
structure Filed
    (config : Config)
    (file : Nat)
    (used : Nat → Prop)
    (volume : Volume)
    (last : Nat → Option Node) : Prop where
  known : file < volume.contents.size
  told : ∀ seq node, last seq = some node →
    used seq ∧ (ofFile config file).fetch volume seq = .ok node

/-- Nodes at hand that have numbers in use and are as the file tells them. -/
structure Held
    (config : Config)
    (file : Nat)
    (used : Nat → Prop)
    (volume : Volume)
    (cache : NodeCache) : Prop
    extends Mirrors (ofFile config file) volume cache where
  among : ∀ held ∈ cache.nodes, used held.seq

/-- Nothing that stands in a block that is used is touched by a patch. -/
def Spares
    (config : Config)
    (used : Nat → Prop)
    (offset : Nat)
    (patch : Bytes) :
    Prop :=
  ∀ seq, used seq →
    Header.size + seq * config.blockSize + config.blockSize ≤ offset
      ∨ offset + patch.length ≤ Header.size + seq * config.blockSize

theorem Filed.write
    (filed : Filed config file used volume last)
    (spares : Spares config used offset patch) :
    Filed config file used (volume.write file offset patch) last where
  known := by
    rw [Volume.size_contents_write]
    exact filed.known
  told seq node written := by
    rcases filed.told seq node written with ⟨inUse, fetched⟩
    exact ⟨inUse, fetch_write_of_apart filed.known (spares seq inUse) fetched⟩

theorem Held.write
    (held : Held config file used volume cache)
    (known : file < volume.contents.size)
    (spares : Spares config used offset patch) :
    Held config file used (volume.write file offset patch) cache where
  tidy := held.tidy
  told node member :=
    fetch_write_of_apart known (spares node.seq (held.among node member)) (held.told node member)
  among := held.among

/-- The header stands in front of all blocks. -/
theorem spares_header
    (header : Header) :
    Spares config used 0 header.encode := by
  intro seq _
  right
  rw [Header.length_encode]
  omega

/-! ## One demand -/

/--
A demand is met with the same reply, and the file becomes the same, whatever
nodes are at hand, as long as they are as the file tells them; and so they are
afterwards.
-/
def Meets
    (config : Config)
    (file : Nat)
    (used : Nat → Prop)
    (volume : Volume)
    (demand : Demand)
    (decided : Except Fault Reply)
    (after : Volume) :
    Prop :=
  ∀ cache, Held config file used volume cache → ∃ further,
    demand.step ⟨volume, holding config file cache⟩
        = Step.ofExcept decided ⟨after, holding config file further⟩
      ∧ Held config file used after further
      ∧ further.capacity = cache.capacity

/-- A demand that only puts a patch beside the blocks that are used is met. -/
theorem Filed.meets_patch
    {demand : Demand}
    {reply : Reply}
    (filed : Filed config file used volume last)
    (spares : Spares config used offset patch)
    (goes : ∀ cache, demand.step ⟨volume, holding config file cache⟩
      = .ok reply ⟨volume.write file offset patch, holding config file cache⟩) :
    Meets config file used volume demand (.ok reply) (volume.write file offset patch) :=
  fun cache held => ⟨cache, goes cache, held.write filed.known spares, rfl⟩

/-- A node that loses nothing is told by the block in which it was written. -/
theorem fetch_write_self
    {io : NodeFile}
    {block : Bytes}
    (known : io.file < volume.contents.size)
    (valid : io.config.Valid)
    (lossless : node.Lossless io.config)
    (encoded : node.encode io.config = .ok block)
    (length : block.length = io.config.blockSize) :
    io.fetch (volume.write io.file (io.blockOffset node.seq) block) node.seq = .ok node := by
  have told := fetch_of_read valid lossless.toStorable encoded
    (read_block_write known length node.seq)
  rwa [lossless.reread_eq] at told

/-- A node that is written is told by its block, and every other one is told as before. -/
theorem Filed.exists_write
    (filed : Filed config file used volume last)
    (valid : config.Valid)
    (lossless : node.Lossless config)
    (inUse : used node.seq) :
    ∃ after,
      Filed config file used after (Demand.note last (.write node))
        ∧ Meets config file used volume (.write node) (.ok .done) after := by
  rcases Node.exists_encode valid lossless.room with ⟨block, encoded, length⟩
  have others : ∀ {seq other}, seq ≠ node.seq →
      (ofFile config file).fetch volume seq = .ok other →
        (ofFile config file).fetch
          (volume.write file ((ofFile config file).blockOffset node.seq) block) seq
            = .ok other := by
    intro seq other different fetched
    refine fetch_write_of_apart filed.known ?_ fetched
    rw [length]
    exact blockOffset_apart _ different
  have itself : (ofFile config file).fetch
      (volume.write file ((ofFile config file).blockOffset node.seq) block) node.seq
        = .ok node :=
    fetch_write_self filed.known valid lossless encoded length
  refine ⟨volume.write file ((ofFile config file).blockOffset node.seq) block, ⟨?_, ?_⟩, ?_⟩
  · rw [Volume.size_contents_write]
    exact filed.known
  · intro seq other written
    unfold Demand.note at written
    by_cases same : seq = node.seq
    · simp only [if_pos same] at written
      cases written
      subst same
      exact ⟨inUse, itself⟩
    · simp only [if_neg same] at written
      rcases filed.told seq other written with ⟨otherInUse, fetched⟩
      exact ⟨otherInUse, others same fetched⟩
  · intro cache held
    have capacity := NodeCache.capacity_insert cache node
    refine ⟨cache.insert node, ?_, ⟨⟨held.tidy.insert node, ?_⟩, ?_⟩, capacity⟩
    · have wrote : writeNode node ⟨volume, holding config file cache⟩
          = .ok () ⟨volume.write file ((ofFile config file).blockOffset node.seq) block,
            { holding config file cache with cache := cache.insert node }⟩ :=
        writeNode_of_encode encoded
      refine (Step.bind_of_ok wrote).trans ?_
      unfold holding
      rw [capacity]
      rfl
    · intro other member
      rcases held.tidy.mem_nodes_insert member with rfl | ⟨old, different⟩
      · exact itself
      · exact others different (held.told other old)
    · intro other member
      rcases held.tidy.mem_nodes_insert member with rfl | ⟨old, -⟩
      · exact inUse
      · exact held.among other old

/-- A node is read as the file tells it, be it at hand or not. -/
theorem meets_read
    (inUse : used seq) :
    Meets config file used volume (.read seq)
      (((ofFile config file).fetch volume seq).map .node) volume := by
  intro cache held
  have mirrors : Mirrors (holding config file cache) volume cache := ⟨held.tidy, held.told⟩
  rcases mirrors.readNode seq with ⟨further, read, still, capacity, others⟩
  refine ⟨further, ?_, ⟨⟨still.tidy, still.told⟩, ?_⟩, capacity⟩
  · refine (Step.map_of_ofExcept read Reply.node).trans ?_
    unfold holding
    rw [capacity]
    rfl
  · intro node member
    rcases others node member with old | same
    · exact held.among node old
    · exact same ▸ inUse

theorem meets_clear :
    Meets config file used volume .clear (.ok .done) volume := by
  intro cache held
  refine ⟨cache.clear, rfl, ⟨⟨cache.tidy_clear, ?_⟩, ?_⟩, rfl⟩
  · intro node member
    cases member
  · intro node member
    cases member

/-- A namespace is put behind all blocks that are used, or nothing is changed. -/
theorem Filed.exists_writeNamespace
    (filed : Filed config file used volume last)
    (behind : ∀ seq, used seq → Header.size + (seq + 1) * config.blockSize ≤ offset)
    (ns : Namespace) :
    ∃ decided after,
      Filed config file used after last
        ∧ Meets config file used volume (.writeNamespace offset ns) decided after := by
  have refused : ∀ fault,
      (∀ cache, NodeFile.writeNamespace offset ns ⟨volume, holding config file cache⟩
        = .error fault ⟨volume, holding config file cache⟩) →
      Meets config file used volume (.writeNamespace offset ns) (.error fault) volume :=
    fun fault fails cache held => ⟨cache, Step.bind_of_error (fails cache), held, rfl⟩
  cases encoded : ns.encode with
  | error fault =>
      refine ⟨.error fault, volume, filed, refused fault fun cache => ?_⟩
      unfold NodeFile.writeNamespace
      rw [encoded]
      rfl
  | ok body =>
      by_cases long : 4294967296 ≤ body.length
      · refine ⟨_, volume, filed, refused (.badArgument (.longNamespace body.length))
          fun cache => ?_⟩
        unfold NodeFile.writeNamespace
        rw [encoded, Step.ofExcept_ok, Step.pure_bind_apply, if_pos long]
        rfl
      · have spares : Spares config used offset (body ++ Checksum.trailer body) := by
          intro seq inUse
          have after := behind seq inUse
          rw [Nat.add_mul, Nat.one_mul] at after
          left
          omega
        refine ⟨.ok (.size body.length), _, filed.write spares, filed.meets_patch spares ?_⟩
        intro cache
        have wrote : NodeFile.writeNamespace offset ns ⟨volume, holding config file cache⟩
            = .ok body.length
              ⟨volume.write file offset (body ++ Checksum.trailer body),
                holding config file cache⟩ := by
          unfold NodeFile.writeNamespace
          rw [encoded, Step.ofExcept_ok, Step.pure_bind_apply, if_neg long]
          rfl
        exact Step.bind_of_ok wrote

/-- Every fitting demand is met, and the file keeps what was written last. -/
theorem Filed.exists_meets
    {demand : Demand}
    {demands : List Demand}
    (filed : Filed config file used volume last)
    (valid : config.Valid)
    (fitting : Fitting config used (demand :: demands)) :
    ∃ decided after,
      Filed config file used after (demand.note last)
        ∧ Meets config file used volume demand decided after := by
  have inUse : ∀ seq, demand.seq? = some seq → used seq :=
    fun seq uses => fitting.among seq ⟨demand, List.mem_cons_self, uses⟩
  cases demand with
  | write node =>
      exact ⟨.ok .done,
        filed.exists_write valid (fitting.lossless node List.mem_cons_self) (inUse node.seq rfl)⟩
  | read seq => exact ⟨_, volume, filed, meets_read (inUse seq rfl)⟩
  | clear => exact ⟨.ok .done, volume, filed, meets_clear⟩
  | writeHeader header =>
      have spares : Spares config used 0 header.encode := spares_header header
      exact ⟨.ok .done, _, filed.write spares, filed.meets_patch spares fun _ => rfl⟩
  | writeNamespace offset ns =>
      exact filed.exists_writeNamespace (fitting.behind offset ns List.mem_cons_self) ns

/-! ## One demand after the other -/

/-- All that is asked is replied to in the same way, whatever nodes are at hand. -/
theorem Filed.exists_each
    {demands : List Demand}
    (filed : Filed config file used volume last)
    (valid : config.Valid)
    (fitting : Fitting config used demands) :
    ∃ told after,
      Filed config file used after (demands.foldl Demand.note last)
        ∧ ∀ cache, Held config file used volume cache → ∃ further,
          Step.each Demand.step demands ⟨volume, holding config file cache⟩
              = .ok told ⟨after, holding config file further⟩
            ∧ Held config file used after further
            ∧ further.capacity = cache.capacity := by
  induction demands generalizing volume last with
  | nil => exact ⟨[], volume, filed, fun cache held => ⟨cache, rfl, held, rfl⟩⟩
  | cons demand demands ih =>
      rcases filed.exists_meets valid fitting with ⟨decided, between, filedBetween, meets⟩
      have others : Fitting config used demands :=
        fitting.of_subset fun _ => List.mem_cons_of_mem demand
      rcases ih filedBetween others with ⟨told, after, filedAfter, goes⟩
      refine ⟨decided :: told, after, filedAfter, fun cache held => ?_⟩
      rcases meets cache held with ⟨middle, met, heldBetween, capacity⟩
      rcases goes middle heldBetween with ⟨further, done, heldAfter, capacityAfter⟩
      refine ⟨further, ?_, heldAfter, capacityAfter.trans capacity⟩
      exact (Step.bind_of_ok (Step.outcome_of_ofExcept met)).trans
        ((Step.bind_of_ok done).trans rfl)

end Held

/-! ## Any room -/

/--
What is at hand shows nowhere.  With any other room all is replied to in the
same way, and the volume becomes the same.  At any time a number under which a
node was written is read as the node last written there; no more nodes are at
hand than there is room for, each number once; and one whose number was
written to is the node last written there.
-/
structure Transparent
    (config : Config)
    (file : Nat)
    (volume : Volume)
    (demands : List Demand) : Prop where
  alike : ∀ size, ∃ told reached other,
    Step.each Demand.step demands ⟨volume, ofFile config file⟩ = .ok told reached
      ∧ Step.each Demand.step demands
          ⟨volume, ofFile { config with cacheSize := size } file⟩ = .ok told other
      ∧ reached.volume = other.volume
  reads : ∀ before, before <+: demands → ∀ seq node, lastWritten before seq = some node →
    ∃ after, readNode seq ((Step.each Demand.step before).reached ⟨volume, ofFile config file⟩)
      = .ok node after
  bounded : ∀ before, before <+: demands →
    let cache := ((Step.each Demand.step before).reached ⟨volume, ofFile config file⟩).subject.cache
    cache.nodes.length ≤ config.cacheSize ∧ cache.order = cache.nodes.map Node.seq
      ∧ cache.order.Nodup
  latest : ∀ before, before <+: demands →
    let cache := ((Step.each Demand.step before).reached ⟨volume, ofFile config file⟩).subject.cache
    ∀ held ∈ cache.nodes, ∀ node, lastWritten before held.seq = some node → held = node

section Transparent

variable {config : Config} {file : Nat} {volume : Volume} {demands : List Demand}

/-- At the beginning nothing was written, and nothing is at hand. -/
theorem filed_of_known
    {used : Nat → Prop}
    (known : file < volume.contents.size) :
    Filed config file used volume fun _ => none where
  known := known
  told _ _ written := by cases written

theorem held_empty
    {used : Nat → Prop}
    (size : Nat) :
    Held config file used volume (.empty size) where
  tidy := NodeCache.tidy_empty size
  told _ member := by cases member
  among _ member := by cases member

/-- What is at hand at the end of fitting demands, and what is in the file. -/
theorem Fitting.exists_held
    {used : Nat → Prop}
    (fitting : Fitting config used demands)
    (known : file < volume.contents.size)
    (valid : config.Valid) :
    ∃ after cache,
      (Step.each Demand.step demands).reached ⟨volume, ofFile config file⟩
          = ⟨after, holding config file cache⟩
        ∧ Filed config file used after (lastWritten demands)
        ∧ Held config file used after cache
        ∧ cache.capacity = config.cacheSize := by
  rcases (filed_of_known known).exists_each valid fitting with ⟨told, after, filed, goes⟩
  rcases goes _ (held_empty config.cacheSize) with ⟨cache, done, held, capacity⟩
  exact ⟨after, cache, Step.reached_of_ok done, filed, held, capacity⟩

/--
Whatever is written to the blocks of a file, read from them and put beside
them, what is at hand shows nowhere.
-/
theorem transparent_of_fitting
    (known : file < volume.contents.size)
    (valid : config.Valid)
    (lossless : ∀ node, .write node ∈ demands → node.Lossless config)
    (behind : ∀ offset ns, .writeNamespace offset ns ∈ demands → ∀ seq, Uses demands seq →
      (ofFile config file).endOfNodes (seq + 1) ≤ offset) :
    Transparent config file volume demands := by
  have fitting : Fitting config (Uses demands) demands := ⟨lossless, behind, fun _ uses => uses⟩
  have sooner : ∀ before, before <+: demands → Fitting config (Uses demands) before :=
    fun before begins => fitting.of_subset fun _ member => begins.subset member
  constructor
  · intro size
    rcases (filed_of_known known).exists_each valid fitting with ⟨told, after, -, goes⟩
    rcases goes _ (held_empty config.cacheSize) with ⟨cache, done, -⟩
    rcases goes _ (held_empty size) with ⟨other, doneAlike, -⟩
    exact ⟨told, _, _, done, doneAlike, rfl⟩
  · intro before begins seq node written
    rcases (sooner before begins).exists_held known valid with
      ⟨after, cache, reached, filed, held, -⟩
    rw [reached]
    rcases filed.told seq node written with ⟨-, fetched⟩
    have mirrors : Mirrors (holding config file cache) after cache := ⟨held.tidy, held.told⟩
    have same : (holding config file cache).fetch after seq = .ok node := fetched
    rcases mirrors.readNode seq with ⟨further, read, -⟩
    rw [same] at read
    exact ⟨_, read⟩
  · intro before begins
    rcases (sooner before begins).exists_held known valid with
      ⟨after, cache, reached, -, held, capacity⟩
    rw [reached]
    exact ⟨capacity ▸ held.tidy.bounded, held.tidy.listed, held.tidy.distinct⟩
  · intro before begins
    rcases (sooner before begins).exists_held known valid with
      ⟨after, cache, reached, filed, held, -⟩
    rw [reached]
    intro _ other member node written
    have fetched := (filed.told other.seq node written).2
    exact Except.ok.inj ((held.told other member).symm.trans fetched)

end Transparent

/-- Settings under which one small node is at hand. -/
def tight : Config where
  blockSize := 81
  maxChildren := 2
  cacheSize := 1

/-- A closed inner node with one interval and one child. -/
def twig (stop : Int) : Node where
  kind := .core
  seq := 1
  parent := none
  start := 0
  stop := stop
  closed := true
  intervals := #[⟨3, 4, 0, .null, by decide⟩]
  children := #[⟨0, 0⟩]

theorem lossless_twig
    {stop : Int}
    (stop_ge : -9223372036854775808 ≤ stop)
    (stop_le : stop ≤ latestInstant) :
    (twig stop).Lossless tight where
  seq_lt := (by decide : 1 < 4294967296)
  parent_lt _ above := by cases above
  start_ge := (by decide : (-9223372036854775808 : Int) ≤ 0)
  start_le := (by decide : (0 : Int) ≤ latestInstant)
  stop_ge := stop_ge
  stop_le := stop_le
  links link member := by
    cases List.mem_singleton.mp member
    decide
  intervals i member := by
    cases List.mem_singleton.mp member
    exact ⟨by decide, by decide, by decide, by decide⟩
  fan := (by decide : 1 ≤ 2)
  leaf core := by cases core
  room := (by decide : 21 ≤ 21)
  parent_small _ above := by cases above

/-- Nodes that are written, let go and written once more between other demands. -/
def turns : List Demand :=
  [.write (twig 5), .write (.fresh .leaf 0 (some 1) 0), .read 1, .read 7, .write (twig 9),
    .read 0, .clear, .writeHeader (.unfinished tight), .writeNamespace 712 .empty, .read 0, .read 1]

theorem transparent_when_tight :
    Transparent tight 0 ⟨[("nodes", 0)], #[#[]]⟩ turns
      ∧ ∃ after, readNode 1
          ((Step.each Demand.step turns).reached ⟨⟨[("nodes", 0)], #[#[]]⟩, ofFile tight 0⟩)
        = .ok (twig 9) after := by
  have leaf : (Node.fresh .leaf 0 (some 1) 0).Lossless tight := by
    refine ⟨⟨by decide, ?_, by decide, by decide, by decide, by decide, by decide, ?_, by decide,
      fun _ => rfl, by decide⟩, ?_⟩
    · rintro above ⟨⟩
      decide
    · intro i member
      cases member
    · rintro above ⟨⟩
      decide
  have transparent : Transparent tight 0 ⟨[("nodes", 0)], #[#[]]⟩ turns := by
    refine transparent_of_fitting (by decide) ⟨by decide, by decide, by decide, by decide⟩ ?_ ?_
    · intro node member
      simp only [turns, List.mem_cons, Demand.write.injEq, reduceCtorEq, List.not_mem_nil,
        false_or, or_false] at member
      rcases member with rfl | rfl | rfl
      · exact lossless_twig (by decide) (by decide)
      · exact leaf
      · exact lossless_twig (by decide) (by decide)
    · intro offset ns member seq uses
      simp only [turns, List.mem_cons, Demand.writeNamespace.injEq, reduceCtorEq,
        List.not_mem_nil, false_or, or_false] at member
      rcases member with ⟨rfl, rfl⟩
      have low : seq ≤ 7 := by
        rcases uses with ⟨demand, listed, used⟩
        simp only [turns, List.mem_cons, List.not_mem_nil, or_false] at listed
        rcases listed with rfl | rfl | rfl | rfl | rfl | rfl | rfl | rfl | rfl | rfl | rfl <;>
          cases used <;> decide
      show 64 + (seq + 1) * 81 ≤ 712
      omega
  exact ⟨transparent, transparent.reads turns (List.prefix_refl turns) 1 (twig 9) rfl⟩

end Chronicle.Tree.NodeFile
