import Chronicle.Proofs.Backend.Holding

/-!
# Where a backend works

A backend over a file goes on with the same file, under the same name and with
the same settings.  No step but giving up takes a name from the volume or adds
one, and steps that only look change nothing but which nodes are at hand.
This holds whatever the file contains and however a step ends.
-/

namespace Chronicle

variable {γ : Type}

/--
A view of the volume that shows nothing of what is written to a file behind
its header.
-/
def Volume.Frontal (seen : Volume → γ) : Prop :=
  ∀ volume file offset patch, Tree.Header.size ≤ offset →
    seen (volume.write file offset patch) = seen volume

/-- Writing does not show in the names of a volume. -/
theorem Volume.frontal_names :
    Volume.Frontal Volume.names :=
  fun _ _ _ _ _ => rfl

namespace Tree

/-- What is seen of the volume, and where in it a file of nodes is, with its settings. -/
def NodeFile.ground
    (seen : Volume → γ)
    (s : Placed NodeFile) :
    γ × Nat × Config :=
  (seen s.volume, s.subject.file, s.subject.config)

/-- What is seen of the volume, and where in it the file of a tree is, with its settings. -/
def ground
    (seen : Volume → γ)
    (s : Placed Tree) :
    γ × Nat × Config :=
  NodeFile.ground seen ⟨s.volume, s.subject.io⟩

namespace NodeFile

theorem leaves_writeAt
    {seen : Volume → γ}
    (frontal : Volume.Frontal seen)
    {offset : Nat}
    (behind : Header.size ≤ offset)
    (bytes : Bytes)
    (s : Placed NodeFile) :
    Step.Leaves (ground seen) (writeAt offset bytes) s :=
  congrArg (fun shown => (shown, s.subject.file, s.subject.config))
    (frontal s.volume s.subject.file offset bytes behind)

/-- The block of a node stands behind the header. -/
theorem size_le_blockOffset
    (io : NodeFile)
    (seq : Nat) :
    Header.size ≤ io.blockOffset seq :=
  Nat.le_add_right _ _

theorem leaves_writeNode
    {seen : Volume → γ}
    (frontal : Volume.Frontal seen)
    (node : Node)
    (s : Placed NodeFile) :
    Step.Leaves (ground seen) (writeNode node) s :=
  Step.leaves_ofExcept_bind fun block _ =>
    (leaves_writeAt frontal (s.subject.size_le_blockOffset node.seq) block s).bind fun _ _ _ => rfl

/-- A header is written over the front of a file, which does not show in the names of the volume. -/
theorem leaves_writeHeader
    (header : Header)
    (s : Placed NodeFile) :
    Step.Leaves (ground Volume.names) (writeHeader header) s := rfl

theorem leaves_readNode
    (seen : Volume → γ)
    (seq : Nat)
    (s : Placed NodeFile) :
    Step.Leaves (ground seen) (readNode seq) s := by
  unfold readNode Step.Leaves
  rw [Step.reached_bind_of_ok (Step.subject_apply s)]
  cases s.subject.cache.get? seq with
  | some node => rfl
  | none =>
      show Step.Leaves (ground seen) (Step.ofExcept (s.subject.fetch s.volume seq) >>= _) s
      exact Step.leaves_ofExcept_bind fun node _ => rfl

theorem leaves_writeNamespace
    {seen : Volume → γ}
    (frontal : Volume.Frontal seen)
    {offset : Nat}
    (behind : Header.size ≤ offset)
    (ns : Namespace)
    (s : Placed NodeFile) :
    Step.Leaves (ground seen) (writeNamespace offset ns) s := by
  refine Step.leaves_ofExcept_bind fun body _ => ?_
  by_cases long : 4294967296 ≤ body.length
  · rw [if_pos long]
    rfl
  · rw [if_neg long]
    exact (leaves_writeAt frontal behind _ s).bind fun _ _ _ => rfl

end NodeFile

/-- What leaves the file of a tree in its place leaves the tree there. -/
theorem leaves_onFile
    {α : Type}
    {seen : Volume → γ}
    {step : Step NodeFile α}
    (leaves : ∀ s, Step.Leaves (NodeFile.ground seen) step s)
    (s : Placed Tree) :
    Step.Leaves (ground seen) (onFile step) s :=
  (leaves _).onPart fun _ same => same

theorem leaves_writeNodes
    {seen : Volume → γ}
    (frontal : Volume.Frontal seen)
    (nodes : List Node)
    (s : Placed Tree) :
    Step.Leaves (ground seen) (writeNodes nodes) s :=
  Step.leaves_forM (fun node => leaves_onFile (NodeFile.leaves_writeNode frontal node)) nodes s

/-- A tree with an equal file differs from it in the nodes at hand. -/
theorem withCache_of_ground
    {seen : Volume → γ}
    {tree : Tree}
    {s t : Placed NodeFile}
    (same : NodeFile.ground seen t = NodeFile.ground seen s)
    (mine : tree.io = s.subject)
    (cache : NodeCache) :
    ({ tree with io := t.subject } : Tree).withCache cache = tree.withCache cache := by
  rcases Prod.mk.inj (Prod.mk.inj same).2 with ⟨file, config⟩
  show ({ tree with io := ⟨t.subject.config, t.subject.file, cache⟩ } : Tree)
    = { tree with io := ⟨tree.io.config, tree.io.file, cache⟩ }
  rw [config, file, mine]

/-- Writing nodes changes nothing about a tree but which nodes are at hand. -/
theorem leaves_writeNodes_withCache
    (cache : NodeCache)
    (nodes : List Node)
    (s : Placed Tree) :
    Step.Leaves (fun r => r.subject.withCache cache) (writeNodes nodes) s := by
  refine Step.leaves_forM (fun node r => ?_) nodes s
  exact (NodeFile.leaves_writeNode Volume.frontal_names node _).onPart fun after same =>
    withCache_of_ground same rfl cache

/-- A tree that goes on by writing nodes is then as it was, but for which nodes are at hand. -/
theorem withCache_reached_of_writeNodes
    {step : Step Tree Unit}
    {nodes : List Node}
    {s t : Placed Tree}
    (goesOn : step s = writeNodes nodes t)
    (cache : NodeCache) :
    (step.reached s).subject.withCache cache = t.subject.withCache cache := by
  rw [Step.reached_congr goesOn]
  exact leaves_writeNodes_withCache cache nodes t

theorem leaves_insert
    {seen : Volume → γ}
    (frontal : Volume.Frontal seen)
    (i : Interval)
    (s : Placed Tree) :
    Step.Leaves (ground seen) (insert i) s := by
  refine Step.leaves_subject_bind ?_
  dsimp only
  split
  · rfl
  split
  · rfl
  refine Step.leaves_update_bind rfl fun split => ?_
  cases s.subject.branch with
  | nil => rfl
  | cons root below =>
      dsimp only
      split
      · rfl
      · exact Step.leaves_update_bind rfl (leaves_writeNodes frontal _)

theorem leaves_finish
    (stop : Int)
    (ns : Namespace)
    (s : Placed Tree) :
    Step.Leaves (ground Volume.names) (finish stop ns) s := by
  refine Step.leaves_subject_bind ?_
  dsimp only
  split
  · rfl
  · refine Step.leaves_update_bind rfl fun ended => ?_
    refine (leaves_writeNodes Volume.frontal_names _ ended).bind fun _ written _ => ?_
    have names := leaves_onFile (NodeFile.leaves_writeNamespace Volume.frontal_names
      (s.subject.io.size_le_blockOffset s.subject.nodeCount) ns) written
    refine names.bind fun _ named _ => ?_
    exact (leaves_onFile (NodeFile.leaves_writeHeader _) named).bind fun _ _ _ => rfl

/-- Finishing writes the header last, so that the front of the file is as before if it fails. -/
theorem spares_finish
    {seen : Volume → γ}
    (frontal : Volume.Frontal seen)
    (stop : Int)
    (ns : Namespace)
    (s : Placed Tree) :
    Step.Spares (ground seen) (finish stop ns) s := by
  unfold finish
  refine Step.Leaves.bind_spares rfl fun _ _ subject => ?_
  cases subject
  by_cases finished : s.subject.finished = true
  · rw [if_pos finished]
    exact Step.Leaves.spares rfl
  · rw [if_neg finished]
    dsimp only
    refine Step.Leaves.bind_spares rfl fun _ ended _ => ?_
    refine (leaves_writeNodes frontal _ ended).bind_spares fun _ written _ => ?_
    have names := leaves_onFile (NodeFile.leaves_writeNamespace frontal
      (s.subject.io.size_le_blockOffset s.subject.nodeCount) ns) written
    refine names.bind_spares fun _ named _ => ?_
    intro fault after failed
    cases failed

/-- A tree next to its volume, but for which nodes are at hand. -/
def aside (s : Placed Tree) : Volume × Tree :=
  (s.volume, s.subject.withCache (.empty 0))

theorem leaves_readNode
    (seq : Nat)
    (s : Placed Tree) :
    Step.Leaves aside (onFile (NodeFile.readNode seq)) s := by
  refine (NodeFile.leaves_readNode (fun volume => volume) seq _).onPart fun after same => ?_
  exact Prod.ext (Prod.mk.inj same).1 (withCache_of_ground same rfl _)

theorem leaves_nodeAt
    (seq : Nat)
    (s : Placed Tree) :
    Step.Leaves aside (nodeAt seq) s := by
  refine Step.leaves_subject_bind ?_
  split
  · rfl
  · exact leaves_readNode seq s

theorem leaves_descend
    {α : Type}
    (t : Int)
    (visit : Node → α → α)
    (enough : α → Bool)
    (fuel : Nat)
    (node : Node)
    (gathered : α)
    (s : Placed Tree) :
    Step.Leaves aside (descend t visit enough fuel node gathered) s := by
  induction fuel generalizing node gathered s with
  | zero => rfl
  | succ fuel ih =>
      unfold descend
      dsimp only
      split
      · rfl
      · split
        · exact (leaves_nodeAt _ s).bind fun next after _ => ih next _ after
        · rfl

/-- A search changes nothing but which nodes are at hand. -/
theorem leaves_descendFromRoot
    {α : Type}
    (t : Int)
    (visit : Node → α → α)
    (enough : α → Bool)
    (gathered : α)
    (s : Placed Tree) :
    Step.Leaves aside (descendFromRoot t visit enough gathered) s := by
  have root : Step.Leaves aside root s := by
    refine Step.leaves_subject_bind ?_
    split
    · rfl
    · exact leaves_readNode _ s
  show Step.Leaves aside (Tree.root >>= _) s
  exact root.bind fun node after _ => leaves_descend t visit enough _ node gathered after

/-- A new tree is in the file of its name. -/
theorem ground_of_create
    {name : String}
    {config : Config}
    {volume made : Volume}
    {tree : Tree}
    (created : create name config volume = .ok (made, tree)) :
    ∃ file,
      made.lookup? name = some file
        ∧ ground Volume.names ⟨made, tree⟩ = (made.names, file, config) := by
  rcases create_eq_ok created with ⟨-, base, file, provided, rfl, rfl⟩
  have found := Volume.lookup?_of_create provided
  exact ⟨file, found, rfl⟩

end Tree

namespace Backend

/-- Where the file of a backend is, and its settings, if it has one. -/
structure Site where
  name : String
  file : Nat
  config : Tree.Config
deriving DecidableEq

/-- Where the file of a backend is, and its settings, if it has one. -/
def site? : Backend → Option Site
  | stored b => some ⟨b.name, b.tree.io.file, b.tree.io.config⟩
  | memory _ => none
  | unreliable _ => none

/-- A backend over a file bounds the size of intervals as its settings do. -/
theorem maxIntervalSize?_of_site
    {backend : Backend}
    {site : Site}
    (sited : backend.site? = some site) :
    backend.maxIntervalSize? = some site.config.coreCapacity := by
  cases backend with
  | memory m => cases sited
  | unreliable u => cases sited
  | stored b =>
      cases sited
      rfl

/-- Only a backend without a file leaves the size of intervals unbounded. -/
theorem maxIntervalSize?_eq_none_iff
    {backend : Backend} :
    backend.maxIntervalSize? = none ↔ backend.site? = none := by
  cases backend with
  | memory m => exact ⟨fun _ => rfl, fun _ => rfl⟩
  | stored b => exact ⟨fun none => (Option.some_ne_none _ none).elim,
      fun none => (Option.some_ne_none _ none).elim⟩
  | unreliable u => exact ⟨fun _ => rfl, fun _ => rfl⟩

/-- What is seen of the volume, and where in it a backend works. -/
def ground
    (seen : Volume → γ)
    (s : Placed Backend) :
    γ × Option Site :=
  (seen s.volume, s.subject.site?)

/-- A backend over a tree stays where it is with the tree. -/
theorem ground_stored
    {seen : Volume → γ}
    {b : Stored}
    {volume : Volume}
    {after : Placed Tree}
    (same : Tree.ground seen after = Tree.ground seen ⟨volume, b.tree⟩) :
    ground seen ⟨after.volume, stored { b with tree := after.subject }⟩
      = ground seen ⟨volume, stored b⟩ := by
  unfold Tree.ground Tree.NodeFile.ground at same
  simp only [Prod.mk.injEq] at same
  unfold ground site?
  simp only [same]

/-- What leaves a tree in its place leaves the backend of the tree there. -/
theorem leaves_onTree
    {α : Type}
    {seen : Volume → γ}
    {b : Stored}
    {step : Step Tree α}
    {volume : Volume}
    (leaves : ∀ s, Step.Leaves (Tree.ground seen) step s) :
    Step.Leaves (ground seen) (onTree b step) ⟨volume, stored b⟩ :=
  Step.leaves_ofExcept_bind fun _ _ => (leaves _).onPart fun _ same => ground_stored same

theorem leaves_insert
    {seen : Volume → γ}
    (frontal : Volume.Frontal seen)
    (i : Interval)
    (s : Placed Backend) :
    Step.Leaves (ground seen) (insert i) s := by
  rcases s with ⟨volume, backend⟩
  cases backend with
  | memory m => exact Step.leaves_ofExcept_bind fun _ _ => rfl
  | stored b => exact leaves_onTree (Tree.leaves_insert frontal i)
  | unreliable u =>
      refine Step.leaves_subject_bind ?_
      dsimp only
      refine Step.Leaves.bind rfl fun _ asked replaced => ?_
      cases replaced
      split
      · rfl
      · exact Step.leaves_ofExcept_bind fun _ _ => rfl

theorem leaves_finish
    (stop : Int)
    (ns : Namespace)
    (s : Placed Backend) :
    Step.Leaves (ground Volume.names) (finish stop ns) s := by
  rcases s with ⟨volume, backend⟩
  cases backend with
  | memory m => exact Step.leaves_ofExcept_bind fun _ _ => rfl
  | stored b => exact leaves_onTree (Tree.leaves_finish stop ns)
  | unreliable u => exact Step.leaves_ofExcept_bind fun _ _ => rfl

/-- Completing a history that fails leaves the front of its file as it was. -/
theorem spares_finish
    {seen : Volume → γ}
    (frontal : Volume.Frontal seen)
    (stop : Int)
    (ns : Namespace)
    (s : Placed Backend) :
    Step.Spares (ground seen) (finish stop ns) s := by
  rcases s with ⟨volume, backend⟩
  cases backend with
  | memory m => exact Step.Leaves.spares (Step.leaves_ofExcept_bind fun _ _ => rfl)
  | unreliable u => exact Step.Leaves.spares (Step.leaves_ofExcept_bind fun _ _ => rfl)
  | stored b =>
      exact Step.spares_ofExcept_bind fun _ _ =>
        (Tree.spares_finish frontal stop ns _).onPart fun _ same => ground_stored same

/-- A backend, but for which nodes are at hand. -/
def bare : Backend → Backend
  | memory m => memory m
  | stored b => stored { b with tree := b.tree.withCache (.empty 0) }
  | unreliable u => unreliable u

@[simp]
theorem site?_bare
    (backend : Backend) :
    backend.bare.site? = backend.site? := by
  cases backend <;> rfl

/-- A backend next to its volume, but for which nodes are at hand. -/
def aside (s : Placed Backend) : Volume × Backend :=
  (s.volume, s.subject.bare)

/-- What changes nothing about a tree but which nodes are at hand is so for its backend. -/
theorem leaves_onTree_aside
    {α : Type}
    {b : Stored}
    {step : Step Tree α}
    {volume : Volume}
    (leaves : ∀ s, Step.Leaves Tree.aside step s) :
    Step.Leaves aside (onTree b step) ⟨volume, stored b⟩ := by
  refine Step.leaves_ofExcept_bind fun _ _ => (leaves _).onPart fun after same => ?_
  rcases Prod.mk.inj same with ⟨sameVolume, sameTree⟩
  refine Prod.ext sameVolume ?_
  exact congrArg (fun tree => stored { b with tree }) sameTree

theorem leaves_find
    (t quark : Int)
    (s : Placed Backend) :
    Step.Leaves aside (find t quark) s := by
  rcases s with ⟨volume, backend⟩
  cases backend with
  | memory m => exact Step.leaves_ofExcept (m.find t quark) _
  | unreliable u => exact Step.leaves_ofExcept (u.memory.find t quark) _
  | stored b =>
      refine leaves_onTree_aside fun s => ?_
      split
      · rfl
      · exact Tree.leaves_descendFromRoot _ _ _ _ s

theorem leaves_collect
    (t : Int)
    (slots : Tree.Slots)
    (s : Placed Backend) :
    Step.Leaves aside (collect t slots) s := by
  rcases s with ⟨volume, backend⟩
  cases backend with
  | memory m => exact Step.leaves_ofExcept (m.collect t slots) _
  | unreliable u => exact Step.leaves_ofExcept (u.memory.collect t slots) _
  | stored b => exact leaves_onTree_aside (Tree.leaves_descendFromRoot _ _ _ _)

/--
The file of a completed backend can be opened again by a provider of the same
version, wherever it is found, and the backend opened from it holds what the
completed one held.
-/
theorem Complete.reopen
    {s : Placed Backend}
    {ns : Namespace}
    {taken : List Interval}
    {site : Site}
    {base : Volume}
    {name : String}
    {file : Nat}
    (complete : Complete s ns taken)
    (inRange : s.subject.InRange)
    (numbered : Tree.Numbered taken)
    (sited : s.subject.site? = some site)
    (begun : s.subject.start ≤ s.subject.stop)
    (told : site.config.version < 4294967296)
    (few : ns.size ≤ 2147483648)
    (found : base.lookup? name = some file)
    (same : base.content file = s.volume.content site.file) :
    ∃ reopened,
      Backend.reopen name site.config.version base = .ok (reopened, ns)
        ∧ Holds ⟨base, reopened⟩ taken
        ∧ reopened.InRange
        ∧ reopened.start = s.subject.start
        ∧ reopened.stop = s.subject.stop
        ∧ ∀ version, version ≠ site.config.version →
          Backend.reopen name version base = .error (.unsupportedVersion site.config.version) := by
  rcases s with ⟨volume, backend⟩
  cases backend with
  | memory m => cases sited
  | unreliable u => cases sited
  | stored b =>
      cases sited
      have treeComplete : Tree.Complete ⟨volume, b.tree⟩ ns taken := complete
      rcases treeComplete.reopen inRange numbered begun told few found same with
        ⟨tree, reopens, rests, treeInRange, config, stop, others⟩
      have wraps : ∀ {version decided}, Tree.reopen name version base = decided →
          Backend.reopen name version base
            = decided >>= fun made => pure (stored ⟨name, made.1, false⟩, made.2) := by
        rintro version decided rfl
        rfl
      refine ⟨stored ⟨name, tree, false⟩, ?_, ⟨rfl, Or.inr rests⟩, treeInRange, ?_, stop, ?_⟩
      · exact wraps reopens
      · exact (congrArg Tree.Config.start config).trans rfl
      · intro version different
        exact wraps (others version different)

end Backend

end Chronicle
