import Chronicle.Proofs.Codec.Damage
import Chronicle.Proofs.Tree.Refinement
import Chronicle.Proofs.Tree.Sturdiness

/-!
# A damaged file tells nothing wrong

Whatever intervals a tree was given, its file can be opened again once it is
finished, and answers every question.  If a byte of the file is changed, the
part in which it stands is refused as soon as it is needed; all other parts are
read as before, so that a question is answered as before or not at all.
-/

namespace Chronicle.Tree

/-! ## Ways through linked nodes -/

/-- Nodes whose links lead to others among them, each on a lower level than the node. -/
def Linked
    (level : Nat → Nat)
    (nodes : List Node) :
    Prop :=
  ∀ node ∈ nodes, ∀ link ∈ node.children.toList,
    level link.seq < level node.seq ∧ ∃ child ∈ nodes, child.seq = link.seq

theorem Node.exists_link_of_childAt?
    {node : Node}
    {t : Int}
    {seq : Nat}
    (child : node.childAt? t = some seq) :
    ∃ link ∈ node.children.toList, link.seq = seq := by
  unfold childAt? at child
  dsimp only at child
  split at child
  · cases child
  · rcases Option.map_eq_some_iff.mp child with ⟨link, found, same⟩
    exact ⟨link, Array.mem_toList_iff.mpr (Array.mem_of_getElem? found), same⟩

/-- A way down from a node has no more nodes below it than the node has levels. -/
theorem Linked.exists_way
    {level : Nat → Nat}
    {nodes : List Node}
    (linked : Linked level nodes)
    (t : Int)
    {node : Node}
    (member : node ∈ nodes) :
    ∃ rest,
      Node.Way t (node :: rest)
        ∧ (∀ other ∈ node :: rest, other ∈ nodes)
        ∧ rest.length ≤ level node.seq := by
  -- the level carries the induction: a link may lead to any node that is lower
  induction high : level node.seq using Nat.strong_induction_on generalizing node with
  | _ height ih =>
      have single : ∀ other ∈ [node], other ∈ nodes := fun other inside =>
        List.mem_singleton.mp inside ▸ member
      cases kind : node.kind with
      | leaf => exact ⟨[], .leaf kind, single, Nat.zero_le _⟩
      | core =>
          cases child : node.childAt? t with
          | none => exact ⟨[], .last child, single, Nat.zero_le _⟩
          | some seq =>
              rcases Node.exists_link_of_childAt? child with ⟨link, inside, rfl⟩
              rcases linked node member link inside with ⟨lower, next, nextMember, same⟩
              rw [← same] at lower child
              rcases ih (level next.seq) (high ▸ lower) nextMember rfl with
                ⟨rest, way, members, short⟩
              refine ⟨next :: rest, .step kind child way, ?_, ?_⟩
              · intro other inWay
                rcases List.mem_cons.mp inWay with rfl | below
                · exact member
                · exact members other below
              · rw [List.length_cons]
                omega

/-! ## Asking a tree that may be spoiled -/

/--
A tree opened again looks its nodes up in a file.  If the file is spoiled, some
of them may be refused, but none is told in another way.
-/
structure Consults
    (spoiled : Prop)
    (nodes : List Node)
    (root : Node)
    (height : Nat)
    (s : Placed Tree) : Prop where
  branch : s.subject.branch = []
  rootSeq : s.subject.rootSeq = root.seq
  fetched : ∀ node ∈ nodes,
    s.subject.io.fetch s.volume node.seq = .ok node.reread
      ∨ spoiled ∧ ∃ fault, s.subject.io.fetch s.volume node.seq = .error fault
  tidy : s.subject.io.cache.Tidy
  cached : ∀ held ∈ s.subject.io.cache.nodes, ∃ node ∈ nodes, held = node.reread
  deep : height ≤ s.subject.io.blockCount s.volume

/-- A step that answers what is given, or else fails in a spoiled tree, and that can be followed. -/
def Gives
    {α : Type}
    (spoiled : Prop)
    (nodes : List Node)
    (root : Node)
    (height : Nat)
    (step : Step Tree α)
    (a : α) :
    Prop :=
  ∀ s, Consults spoiled nodes root height s →
    ∃ reached,
      Consults spoiled nodes root height reached
        ∧ (step s = .ok a reached ∨ spoiled ∧ ∃ fault, step s = .error fault reached)

namespace Gives

variable {α β : Type} {spoiled : Prop} {nodes : List Node} {top : Node} {height : Nat}

theorem pure
    (a : α) :
    Gives spoiled nodes top height (pure a) a :=
  fun s consults => ⟨s, consults, Or.inl rfl⟩

theorem bind
    {step : Step Tree α}
    {next : α → Step Tree β}
    {a : α}
    {b : β}
    (first : Gives spoiled nodes top height step a)
    (rest : Gives spoiled nodes top height (next a) b) :
    Gives spoiled nodes top height (step >>= next) b := by
  intro s consults
  rcases first s consults with ⟨between, still, answered | ⟨broken, fault, failed⟩⟩
  · rcases rest between still with ⟨reached, lasting, goesOn⟩
    refine ⟨reached, lasting, ?_⟩
    rw [Step.bind_of_ok answered]
    exact goesOn
  · exact ⟨between, still, Or.inr ⟨broken, fault, Step.bind_of_error failed⟩⟩

/-- A node is read, be it at hand or in the file. -/
theorem readNode
    (distinct : ∀ node ∈ nodes, ∀ other ∈ nodes, node.seq = other.seq → node = other)
    {node : Node}
    (member : node ∈ nodes) :
    Gives spoiled nodes top height (onFile (NodeFile.readNode node.seq)) node.reread := by
  intro s consults
  cases atHand : s.subject.io.cache.get? node.seq with
  | some held =>
      have heldSeq : held.seq = node.seq := by
        have test := List.find?_some atHand
        simpa using test
      rcases consults.cached held (List.mem_of_find?_eq_some atHand) with ⟨other, inside, rfl⟩
      rw [distinct other inside node member heldSeq] at atHand
      refine ⟨s, consults, Or.inl (Step.onPart_of_ok ?_)⟩
      simp only [NodeFile.readNode, Step.subject_bind_apply, atHand]
      rfl
  | none =>
      rcases consults.fetched node member with told | ⟨broken, fault, refused⟩
      · let cache := s.subject.io.cache.insert node.reread
        refine ⟨⟨s.volume, s.subject.withCache cache⟩, ?_, Or.inl (Step.onPart_of_ok ?_)⟩
        · refine ⟨consults.branch, consults.rootSeq, consults.fetched, ?_, ?_, consults.deep⟩
          · exact consults.tidy.insert node.reread
          · intro held heldMember
            rcases consults.tidy.mem_nodes_insert heldMember with rfl | ⟨old, -⟩
            · exact ⟨node, member, rfl⟩
            · exact consults.cached held old
        · simp only [NodeFile.readNode, Step.subject_bind_apply, atHand, Step.volume_bind_apply,
            told, Step.ofExcept_ok, Step.pure_bind_apply]
          rfl
      · refine ⟨s, consults, Or.inr ⟨broken, fault, Step.onPart_of_error ?_⟩⟩
        simp only [NodeFile.readNode, Step.subject_bind_apply, atHand, Step.volume_bind_apply,
          refused, Step.ofExcept_error]
        rfl

theorem nodeAt
    (distinct : ∀ node ∈ nodes, ∀ other ∈ nodes, node.seq = other.seq → node = other)
    {node : Node}
    (member : node ∈ nodes) :
    Gives spoiled nodes top height (Tree.nodeAt node.seq) node.reread := by
  intro s consults
  unfold Tree.nodeAt
  rw [Step.subject_bind_apply, consults.branch]
  exact readNode distinct member s consults

theorem root
    (distinct : ∀ node ∈ nodes, ∀ other ∈ nodes, node.seq = other.seq → node = other)
    (member : top ∈ nodes) :
    Gives spoiled nodes top height Tree.root top.reread := by
  intro s consults
  unfold Tree.root
  rw [Step.subject_bind_apply, consults.branch, consults.rootSeq]
  exact readNode distinct member s consults

section Descent

variable {visit : Node → α → α} {enough : α → Bool} {t : Int}

/-- A descent with fuel for the whole way gathers from the nodes on it. -/
theorem descend
    (distinct : ∀ node ∈ nodes, ∀ other ∈ nodes, node.seq = other.seq → node = other)
    (faithful : ∀ (node : Node) (gathered : α), visit node.reread gathered = visit node gathered)
    {fuel : Nat}
    {node : Node}
    {rest : List Node}
    (way : Node.Way t (node :: rest))
    (members : ∀ other ∈ node :: rest, other ∈ nodes)
    (fueled : rest.length < fuel)
    (gathered : α) :
    Gives spoiled nodes top height (Tree.descend t visit enough fuel node.reread gathered)
      (gatherFrom visit enough (node :: rest) gathered) := by
  induction rest generalizing fuel node gathered with
  | nil =>
      cases fuel with
      | zero => cases fueled
      | succ fuel =>
          simp only [Tree.descend, gatherFrom, faithful, Node.kind_reread, Node.childAt?_reread]
          split
          · exact Gives.pure _
          · cases way with
            | leaf kind =>
                rw [kind]
                exact Gives.pure _
            | last childless =>
                rw [childless]
                cases node.kind with
                | core => exact Gives.pure _
                | leaf => exact Gives.pure _
  | cons next rest ih =>
      cases fuel with
      | zero => cases fueled
      | succ fuel =>
          cases way with
          | step kind child below =>
              simp only [Tree.descend, faithful, Node.kind_reread, Node.childAt?_reread, kind, child]
              rw [gatherFrom]
              split
              · exact Gives.pure _
              · refine Gives.bind (Gives.nodeAt distinct (members next (by simp))) ?_
                exact ih below (fun other member => members other (List.mem_cons_of_mem _ member))
                  (Nat.lt_of_succ_lt_succ fueled) _

theorem descendFromRoot
    (distinct : ∀ node ∈ nodes, ∀ other ∈ nodes, node.seq = other.seq → node = other)
    (faithful : ∀ (node : Node) (gathered : α), visit node.reread gathered = visit node gathered)
    {rest : List Node}
    (way : Node.Way t (top :: rest))
    (members : ∀ other ∈ top :: rest, other ∈ nodes)
    (short : rest.length ≤ height)
    (gathered : α) :
    Gives spoiled nodes top height (Tree.descendFromRoot t visit enough gathered)
      (gatherFrom visit enough (top :: rest) gathered) := by
  intro s consults
  have fueled : rest.length < s.subject.descentBound s.volume := by
    have deep := consults.deep
    unfold Tree.descentBound
    omega
  have whole : Gives spoiled nodes top height
      (Tree.root >>= fun node =>
        Tree.descend t visit enough (s.subject.descentBound s.volume) node gathered)
      (gatherFrom visit enough (top :: rest) gathered) :=
    (Gives.root distinct (members top List.mem_cons_self)).bind
      (Gives.descend distinct faithful way members fueled gathered)
  exact whole s consults

end Descent

end Gives

/-! ## Questions -/

section Questions

variable {nodes : List Node} {root : Node} {height : Nat} {level : Nat → Nat}

/-- Each question has one answer, which every tree gives that looks the nodes up. -/
theorem exists_gives
    (distinct : ∀ node ∈ nodes, ∀ other ∈ nodes, node.seq = other.seq → node = other)
    (linked : Linked level nodes)
    (member : root ∈ nodes)
    (deep : level root.seq ≤ height)
    {question : Call}
    (silent : question.brings = []) :
    ∃ answer, ∀ spoiled, Gives spoiled nodes root height question.step answer := by
  cases question with
  | insert i => cases silent
  | find t quark =>
      rcases linked.exists_way t member with ⟨rest, way, members, short⟩
      refine ⟨_, fun spoiled => Gives.bind (Gives.descendFromRoot distinct (fun _ _ => rfl) way
        members (short.trans deep) _) (Gives.pure _)⟩
  | collect t slots =>
      rcases linked.exists_way t member with ⟨rest, way, members, short⟩
      refine ⟨_, fun spoiled => Gives.bind (Gives.descendFromRoot distinct (fun _ _ => rfl) way
        members (short.trans deep) _) (Gives.pure _)⟩

/-- An outcome that is the answer, or an error if something is spoiled. -/
def Honest
    (spoiled : Prop)
    (answer : Reply)
    (outcome : Except Fault Reply) :
    Prop :=
  outcome = .ok answer ∨ spoiled ∧ ∃ fault, outcome = .error fault

/-- As long as nothing is spoiled, the outcomes are the answers. -/
theorem eq_map_of_honest
    {answers : List Reply}
    {outcomes : List (Except Fault Reply)}
    (honest : List.Forall₂ (Honest False) answers outcomes) :
    outcomes = answers.map .ok := by
  induction honest with
  | nil => rfl
  | cons first rest ih =>
      rcases first with rfl | ⟨broken, -⟩
      · rw [ih, List.map_cons]
      · exact absurd broken id

/-- So it is with questions one after the other, whether or not some of them fail. -/
theorem exists_gives_each
    (distinct : ∀ node ∈ nodes, ∀ other ∈ nodes, node.seq = other.seq → node = other)
    (linked : Linked level nodes)
    (member : root ∈ nodes)
    (deep : level root.seq ≤ height)
    {questions : List Call}
    (asking : brought questions = []) :
    ∃ answers, ∀ spoiled s, Consults spoiled nodes root height s →
      ∃ outcomes reached,
        Step.each Call.step questions s = .ok outcomes reached
          ∧ List.Forall₂ (Honest spoiled) answers outcomes := by
  induction questions with
  | nil => exact ⟨[], fun spoiled s _ => ⟨[], s, rfl, .nil⟩⟩
  | cons question questions ih =>
      rcases List.append_eq_nil_iff.mp asking with ⟨silent, later⟩
      rcases exists_gives distinct linked member deep silent with ⟨answer, gives⟩
      rcases ih later with ⟨answers, all⟩
      refine ⟨answer :: answers, fun spoiled s consults => ?_⟩
      rcases gives spoiled s consults with ⟨between, still, ends⟩
      rcases all spoiled between still with ⟨outcomes, reached, done, honest⟩
      have first : ∃ outcome, Step.outcome question.step s = .ok outcome between
          ∧ Honest spoiled answer outcome := by
        unfold Step.outcome
        rcases ends with answered | ⟨broken, fault, failed⟩
        · rw [answered]
          exact ⟨_, rfl, Or.inl rfl⟩
        · rw [failed]
          exact ⟨_, rfl, Or.inr ⟨broken, fault, rfl⟩⟩
      rcases first with ⟨outcome, told, holds⟩
      exact ⟨outcome :: outcomes, reached, (Step.bind_of_ok told).trans (Step.bind_of_ok done),
        .cons holds honest⟩

end Questions

/-! ## The file of a finished tree -/

/--
The file of a finished tree tells storable nodes that are numbered one by one
and linked downwards from a root, the namespace, and a storable header.
-/
structure Sealed
    (s : Placed Tree)
    (written : List Node)
    (level : Nat → Nat)
    (root : Node)
    (ns : Namespace)
    (body : Bytes) : Prop where
  filed : Filed s written ns body
  storable : ∀ node ∈ written, node.Storable s.subject.config
  numbered : (written.map (·.seq)).Perm (List.range s.subject.nodeCount)
  linked : Linked level written
  member : root ∈ written
  rootSeq : root.seq = s.subject.rootSeq
  shallow : level root.seq < s.subject.nodeCount
  header : (s.subject.headerWith body.length).Storable

/-- Finishing a sturdy tree seals its file. -/
theorem Sturdy.exists_sealed
    {s finished : Placed Tree}
    {level : Nat → Nat}
    {closed : List Node}
    {stop : Int}
    {ns : Namespace}
    (sturdy : Sturdy s level closed)
    (inRange : s.subject.InRange)
    (bounded : stop ≤ latestInstant)
    (told : s.subject.config.version < 4294967296)
    (done : finish stop ns s = .ok () finished) :
    finished.subject.config = s.subject.config
      ∧ ∃ written root body, Sealed finished written level root ns body := by
  let last := max s.subject.stop stop
  have begun : s.subject.config.start ≤ last := Int.le_trans sturdy.begun (Int.le_max_left _ _)
  have last_le : last ≤ latestInstant := Int.max_le.mpr ⟨inRange.stop_le, bounded⟩
  by_cases storable : ns.Storable
  · rcases sturdy.numbers.finish_of_storable sturdy.unfinished stop storable with
      ⟨volume, cache, body, finishes, filed⟩
    cases done.symm.trans finishes
    have ended : ∀ node ∈ closed ++ (s.subject.ending last).branch,
        node.Ended s.subject.config s.subject.nodeCount level :=
      fun node member => sturdy.ended_of_ending begun last_le member
    have numbered := sturdy.numbers.numbered_ending last
    rcases sturdy.exists_root with ⟨root, below, branch, rootSeq, shallow⟩
    have rootMember : root.close last ∈ closed ++ (s.subject.ending last).branch :=
      List.mem_append_right _ (List.mem_map_of_mem (branch ▸ List.mem_cons_self))
    refine ⟨rfl, _, root.close last, body, filed, ?_, numbered, ?_, rootMember, rootSeq, shallow, ?_⟩
    · intro node member
      have whole := ended node member
      exact whole.sturdy.storable inRange.few inRange.start_ge
        (Int.le_trans inRange.start_ge whole.stop_ge) whole.stop_le
    · intro node member link inside
      rcases (ended node member).sturdy.links link inside with ⟨⟨known, lower⟩, -⟩
      exact ⟨lower, List.mem_map.mp (numbered.mem_iff.mpr (List.mem_range.mpr known))⟩
    · have fits := inRange.ending last_le
      exact storable_headerWith filed.nodes.valid
        ⟨fits.few, fits.started, fits.start_ge, fits.stop_le⟩
        (rootSeq ▸ (ended _ rootMember).sturdy.seq_lt) begun told filed.short
  · rcases sturdy.numbers.finish_of_not_storable sturdy.unfinished stop storable with
      ⟨volume, cache, fails, -⟩
    cases done.symm.trans fails

namespace Sealed

variable {s : Placed Tree} {written : List Node} {level : Nat → Nat} {root : Node} {ns : Namespace}
  {body : Bytes} {spoiled : Prop} {base : Volume} {file : Nat}

/-- The nodes of a sealed file are told by a file that resembles it, unless they are refused. -/
theorem consults
    (whole : Sealed s written level root ns body)
    (resembles : Volume.Resembles spoiled (s.volume.content s.subject.io.file) (base.content file)) :
    Consults spoiled written root (level root.seq)
      ⟨base, ofHeader (s.subject.headerWith body.length) file⟩ := by
  have valid : s.subject.config.Valid := whole.filed.nodes.valid
  have settings : (s.subject.headerWith body.length).config = s.subject.config.told :=
    config_headerWith valid body.length
  constructor
  · rfl
  · exact whole.rootSeq.symm
  · intro node member
    rcases whole.filed.nodes.block node member with ⟨block, encoded, read⟩
    show (NodeFile.ofFile (s.subject.headerWith body.length).config file).fetch base node.seq = _
      ∨ spoiled ∧ ∃ fault,
        (NodeFile.ofFile (s.subject.headerWith body.length).config file).fetch base node.seq = _
    rw [settings]
    rcases resembles.exists_read read with ⟨told, readTold, rfl | ⟨broken, oneOff⟩⟩
    · exact Or.inl (NodeFile.fetch_of_read valid.told (whole.storable node member).told encoded
        readTold)
    · exact Or.inr ⟨broken, NodeFile.fetch_of_oneOff encoded readTold oneOff⟩
  · exact NodeCache.tidy_empty _
  · intro held member
    cases member
  · have blocks := whole.filed.nodes.le_blockCount whole.numbered
    have shallow := whole.shallow
    show level root.seq ≤
      (NodeFile.ofFile (s.subject.headerWith body.length).config file).blockCount base
    rw [settings]
    have same : (NodeFile.ofFile s.subject.config.told file).blockCount base
        = s.subject.io.blockCount s.volume := by
      unfold NodeFile.blockCount
      rw [show (NodeFile.ofFile s.subject.config.told file).file = file from rfl, resembles.size]
      rfl
    rw [same]
    exact Nat.le_trans (Nat.le_of_lt shallow) blocks

/-- The file of a finished tree has at least one block. -/
theorem le_size
    (whole : Sealed s written level root ns body) :
    Header.size + s.subject.config.blockSize
      ≤ (s.volume.content s.subject.io.file).size := by
  rcases whole.filed.nodes.block root whole.member with ⟨block, -, read⟩
  have room := whole.filed.nodes.valid.roomForInterval
  have blocks := (Volume.read_eq_ok_iff.mp read).2.1
  simp only [Config.coreCapacity, Config.leafCapacity, smallestInterval] at room
  unfold NodeFile.blockOffset at blocks
  unfold Tree.config
  dsimp only at room blocks
  omega

/-- A file that resembles a sealed one is opened with the same namespace, unless it is refused. -/
theorem reopen
    {name : String}
    (whole : Sealed s written level root ns body)
    (few : ns.size ≤ 2147483648)
    (found : base.lookup? name = some file)
    (resembles : Volume.Resembles spoiled (s.volume.content s.subject.io.file) (base.content file)) :
    (∃ reopened,
        Tree.reopen name s.subject.config.version base = .ok (reopened, ns)
          ∧ Consults spoiled written root (level root.seq) ⟨base, reopened⟩)
      ∨ spoiled ∧ ∃ fault, Tree.reopen name s.subject.config.version base = .error fault := by
  have valid : s.subject.config.Valid := whole.filed.nodes.valid
  let header := s.subject.headerWith body.length
  have settings : header.config = s.subject.config.told := config_headerWith valid body.length
  have accepted : header.config.validate = .ok () := by
    rw [settings]
    exact (Config.validate_eq_ok_iff _).mpr valid.told
  rcases Volume.exists_append_of_read whole.filed.header with ⟨rest, begins⟩
  rcases Header.told_of_resembles whole.header resembles begins with
    decoded | ⟨broken, fault, refused⟩
  · rcases resembles.exists_read whole.filed.names with ⟨told, read, rfl | ⟨broken, oneOff⟩⟩
    · have named : (NodeFile.ofFile header.config file).readNamespace base header.namespaceOffset
          header.namespaceSize = .ok ns :=
        NodeFile.readNamespace_of_read whole.filed.encoded few read
      exact Or.inl ⟨_, reopen_of_header found decoded rfl accepted named, whole.consults resembles⟩
    · have unnamed : ∃ fault, (NodeFile.ofFile header.config file).readNamespace base
          header.namespaceOffset header.namespaceSize = .error fault :=
        NodeFile.readNamespace_of_oneOff read oneOff
      rcases unnamed with ⟨fault, refused⟩
      exact Or.inr ⟨broken, fault, reopen_of_namespace_refused found decoded rfl accepted refused⟩
  · exact Or.inr ⟨broken, fault, reopen_of_header_refused found refused _⟩

end Sealed

/-- A tree that was created and finished is still in the file of its name. -/
theorem lookup?_of_finish
    {name : String}
    {config : Config}
    {volume made : Volume}
    {tree : Tree}
    {given : List Interval}
    {stop : Int}
    {ns : Namespace}
    {finished : Placed Tree}
    (created : create name config volume = .ok (made, tree))
    (done : finish stop ns ((Step.each insert given).reached ⟨made, tree⟩) = .ok () finished) :
    finished.volume.lookup? name = some finished.subject.io.file := by
  rcases ground_of_create created with ⟨file, found, site⟩
  have grown : ground Volume.names ((Step.each insert given).reached ⟨made, tree⟩)
      = (made.names, file, config) :=
    (Step.leaves_each (leaves_insert Volume.frontal_names) given ⟨made, tree⟩).trans site
  have ground : ground Volume.names finished = (made.names, file, config) := by
    rw [← grown, ← Step.reached_of_ok done]
    exact leaves_finish stop ns _
  have names : finished.volume.names = made.names := congrArg (·.1) ground
  have sameFile : finished.subject.io.file = file := congrArg (·.2.1) ground
  rw [sameFile, ← found]
  exact congrArg (List.lookup name) names

/--
Damage never yields a wrong answer.  Whatever intervals a tree is given, as
long as its numbers and times fit their fields, its file can be opened once it
is finished, and answers all questions.  A file that differs from it in one
byte is refused, or it is opened with the same namespace and each question to
it fails or has the same answer.
-/
theorem honest_of_created
    {name : String}
    {config : Config}
    {volume made : Volume}
    {tree : Tree}
    {given : List Interval}
    {stop : Int}
    {ns : Namespace}
    {finished : Placed Tree}
    {questions : List Call}
    (sound : volume.Sound)
    (created : create name config volume = .ok (made, tree))
    (numbered : Numbered given)
    (inRange : ∀ before, before <+: given →
      ((Step.each insert before).reached ⟨made, tree⟩).subject.InRange)
    (bounded : stop ≤ latestInstant)
    (told : config.version < 4294967296)
    (few : ns.size ≤ 2147483648)
    (done : finish stop ns ((Step.each insert given).reached ⟨made, tree⟩) = .ok () finished)
    (asking : brought questions = []) :
    ∃ content whole answers last,
      finished.volume.image? name = some content
        ∧ Tree.reopen name config.version finished.volume = .ok (whole, ns)
        ∧ Step.each Call.step questions ⟨finished.volume, whole⟩ = .ok (answers.map .ok) last
        ∧ ∀ (base : Volume) (other : String) (changed : Array UInt8),
          base.image? other = some changed →
            Bytes.OneOff content.toList changed.toList →
              (∃ fault, Tree.reopen other config.version base = .error fault)
                ∨ ∃ spoiled outcomes reached,
                  Tree.reopen other config.version base = .ok (spoiled, ns)
                    ∧ Step.each Call.step questions ⟨base, spoiled⟩ = .ok outcomes reached
                    ∧ List.Forall₂
                      (fun answer outcome => outcome = .ok answer ∨ ∃ fault, outcome = .error fault)
                      answers outcomes := by
  rcases exists_sturdy_of_created sound created numbered inRange with
    ⟨settings, level, closed, grown⟩
  rcases grown.exists_sealed (inRange given (List.prefix_refl given)) bounded (settings ▸ told) done
    with ⟨finishedConfig, written, root, body, whole⟩
  have config_eq := finishedConfig.trans settings
  have distinct : ∀ node ∈ written, ∀ other ∈ written, node.seq = other.seq → node = other :=
    fun _ member _ otherMember same =>
      List.inj_on_of_nodup_map (whole.numbered.nodup_iff.mpr List.nodup_range) member otherMember same
  have found := lookup?_of_finish created done
  -- the answers are fixed before a file is opened, so that both files are held against them
  rcases exists_gives_each distinct whole.linked whole.member (Nat.le_refl _) asking with
    ⟨answers, all⟩
  have itself : Volume.Resembles False (finished.volume.content finished.subject.io.file)
      (finished.volume.content finished.subject.io.file) := Or.inl rfl
  rcases whole.reopen few found itself with ⟨intact, opened, consults⟩ | ⟨broken, -⟩
  · rw [config_eq] at opened
    rcases all False _ consults with ⟨outcomes, last, asked, honest⟩
    rw [eq_map_of_honest honest] at asked
    refine ⟨_, intact, answers, last, Volume.image?_eq_some_iff.mpr ⟨_, found, rfl⟩, opened,
      asked, ?_⟩
    intro base other changed image oneOff
    rcases Volume.image?_eq_some_iff.mp image with ⟨file, located, rfl⟩
    rcases whole.reopen few located (Or.inr ⟨trivial, oneOff⟩) with
      ⟨spoiled, reopened, consultsStill⟩ | ⟨-, refused⟩
    · rw [config_eq] at reopened
      rcases all True _ consultsStill with ⟨outcomes, reached, askedStill, honest⟩
      exact Or.inr ⟨spoiled, outcomes, reached, reopened, askedStill,
        honest.imp fun answer outcome holds => holds.imp id And.right⟩
    · rw [config_eq] at refused
      exact Or.inl refused
  · exact absurd broken id

/-- A tree that was given anything can be finished, and its file then has at least one block. -/
theorem exists_finish_of_created
    {name : String}
    {config : Config}
    {volume made : Volume}
    {tree : Tree}
    {given : List Interval}
    {stop : Int}
    {ns : Namespace}
    (sound : volume.Sound)
    (created : create name config volume = .ok (made, tree))
    (numbered : Numbered given)
    (inRange : ∀ before, before <+: given →
      ((Step.each insert before).reached ⟨made, tree⟩).subject.InRange)
    (bounded : stop ≤ latestInstant)
    (told : config.version < 4294967296)
    (storable : ns.Storable) :
    ∃ finished,
      finish stop ns ((Step.each insert given).reached ⟨made, tree⟩) = .ok () finished
        ∧ Header.size + config.blockSize
          ≤ (finished.volume.content finished.subject.io.file).size := by
  rcases exists_sturdy_of_created sound created numbered inRange with
    ⟨settings, level, closed, grown⟩
  rcases grown.numbers.finish_of_storable grown.unfinished stop storable with
    ⟨volume, cache, -, done, -⟩
  rcases grown.exists_sealed (inRange given (List.prefix_refl given)) bounded (settings ▸ told) done
    with ⟨finishedConfig, written, root, body, whole⟩
  refine ⟨_, done, ?_⟩
  rw [← settings, ← finishedConfig]
  exact whole.le_size

/-- Intervals of which one ends before another one and one covers what another one does. -/
def jumble : List Interval :=
  [⟨1, 14, 0, .null, by decide⟩,
    ⟨1, 29, 1, .null, by decide⟩,
    ⟨13, 27, 0, .null, by decide⟩,
    ⟨30, 42, 1, .null, by decide⟩,
    ⟨2, 31, 2, .null, by decide⟩]

/-- The names of what is told about. -/
def notes : Namespace :=
  Namespace.empty.add (-1) "door"

/-- Questions about a node that is damaged and about others. -/
def doubts : List Call :=
  [.find 13 0, .find 31 1, .collect 28 #[none, none, none]]

theorem inRange_jumble :
    ∃ made tree,
      create "tree" narrow .empty = .ok (made, tree)
        ∧ ∀ before ∈ jumble.inits,
          ((Step.each insert before).reached ⟨made, tree⟩).subject.InRange :=
  ⟨_, _, rfl, by decide +kernel⟩

theorem honest_in_jumble :
    ∃ made tree finished content changed whole answers last,
      create "tree" narrow .empty = .ok (made, tree)
        ∧ finish 44 notes ((Step.each insert jumble).reached ⟨made, tree⟩) = .ok () finished
        ∧ finished.volume.image? "tree" = some content
        ∧ Tree.reopen "tree" narrow.version finished.volume = .ok (whole, notes)
        ∧ Step.each Call.step doubts ⟨finished.volume, whole⟩ = .ok (answers.map .ok) last
        ∧ Bytes.OneOff content.toList (changed : Array UInt8).toList
        ∧ ((∃ fault,
            Tree.reopen "copy" narrow.version ⟨[("copy", 0)], #[changed]⟩ = .error fault)
          ∨ ∃ spoiled outcomes reached,
            Tree.reopen "copy" narrow.version ⟨[("copy", 0)], #[changed]⟩ = .ok (spoiled, notes)
              ∧ Step.each Call.step doubts ⟨⟨[("copy", 0)], #[changed]⟩, spoiled⟩
                = .ok outcomes reached
              ∧ List.Forall₂
                (fun answer outcome => outcome = .ok answer ∨ ∃ fault, outcome = .error fault)
                answers outcomes) := by
  rcases inRange_jumble with ⟨made, tree, created, among⟩
  have inRange : ∀ before, before <+: jumble →
      ((Step.each insert before).reached ⟨made, tree⟩).subject.InRange :=
    fun before begins => among before ((List.mem_inits before jumble).mpr begins)
  have numbered : Numbered jumble := by
    unfold Numbered
    decide
  have sound : Volume.empty.Sound := by decide
  rcases exists_finish_of_created sound created numbered inRange (by decide : 44 ≤ latestInstant)
    (by decide) (by decide : notes.Storable) with ⟨finished, finishes, size⟩
  rcases honest_of_created sound created numbered inRange (by decide) (by decide) (by decide)
    finishes (rfl : brought doubts = []) with
    ⟨content, whole, answers, last, image, opened, asked, honest⟩
  have inside : 100 < content.toList.length := by
    rcases Volume.image?_eq_some_iff.mp image with ⟨file, found, rfl⟩
    cases found.symm.trans (lookup?_of_finish created finishes)
    rw [Array.length_toList]
    exact Nat.lt_of_lt_of_le (by decide) size
  have different : content.toList[100] ≠ content.toList[100] + 1 := by grind
  have oneOff := Bytes.OneOff.set inside different
  refine ⟨made, tree, finished, content, (content.toList.set 100 (content.toList[100] + 1)).toArray, whole,
    answers, last, created, finishes, image, opened, asked, oneOff, ?_⟩
  exact honest _ "copy" _ rfl oneOff

end Chronicle.Tree
