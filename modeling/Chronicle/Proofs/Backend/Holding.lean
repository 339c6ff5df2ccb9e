import Chronicle.Backend.Basic
import Chronicle.Proofs.Backend.Memory
import Chronicle.Proofs.Tree.Reopening

/-!
# What a backend holds

A memory and a tree in a file keep the same promise: they take the intervals
that they admit and answer about all that they took.  Whoever works with a
backend needs to know no more about it.
-/

namespace Chronicle.Backend

/-- A backend that was not given up holds the intervals taken. -/
def Holds
    (s : Placed Backend)
    (taken : List Interval) :
    Prop :=
  match s.subject with
  | memory m => m.Holds taken
  | stored b => b.disposed = false ∧ Tree.Tells ⟨s.volume, b.tree⟩ taken
  | unreliable _ => False

/-- Whether a backend takes more intervals. -/
def Taking : Backend → Prop
  | stored b => b.tree.finished = false
  | memory _ => True
  | unreliable _ => True

/--
All numbers and times of a tree in a file fit the fields in which they are
written.  A backend without a file writes none, and nothing is said about its
times.
-/
def InRange : Backend → Prop
  | stored b => b.tree.InRange
  | memory _ => True
  | unreliable _ => True

instance
    (backend : Backend) :
    Decidable backend.InRange :=
  match backend with
  | stored b => inferInstanceAs (Decidable b.tree.InRange)
  | memory _ => inferInstanceAs (Decidable True)
  | unreliable _ => inferInstanceAs (Decidable True)

/-- The namespaces that a backend can keep: a memory keeps none and takes any. -/
def Accepts
    (backend : Backend)
    (ns : Namespace) :
    Prop :=
  match backend with
  | stored _ => ns.Storable
  | memory _ => True
  | unreliable _ => True

/-- The file of a backend that was completed, if it has one, tells everything. -/
def Complete
    (s : Placed Backend)
    (ns : Namespace)
    (taken : List Interval) :
    Prop :=
  match s.subject with
  | stored b => Tree.Complete ⟨s.volume, b.tree⟩ ns taken
  | memory _ => True
  | unreliable _ => True

/-- A backend that was completed takes no more intervals, if it keeps them in a file. -/
theorem Complete.not_taking
    {s : Placed Backend}
    {ns : Namespace}
    {taken : List Interval}
    {capacity : Nat}
    (complete : Complete s ns taken)
    (bounded : s.subject.maxIntervalSize? = some capacity) :
    ¬ s.subject.Taking := by
  rcases s with ⟨volume, backend⟩
  cases backend with
  | memory m => cases bounded
  | unreliable u => cases bounded
  | stored b =>
      intro unfinished
      exact absurd (Tree.Complete.finished complete) (ne_true_of_eq_false unfinished)

/-- An interval that a backend can take next. -/
structure Admits
    (backend : Backend)
    (taken : List Interval)
    (i : Interval) : Prop where
  small : ∀ capacity, backend.maxIntervalSize? = some capacity → i.encodedSize ≤ capacity
  begun : backend.start ≤ i.start
  late : backend.stop ≤ i.stop
  nonneg : 0 ≤ i.quark
  separate : Interval.Separate (taken ++ [i])

/-- A backend with the same start and the same bound for the size of intervals. -/
structure Alike (backend other : Backend) : Prop where
  start : other.start = backend.start
  capacity : other.maxIntervalSize? = backend.maxIntervalSize?

theorem Alike.trans
    {first second third : Backend}
    (one : first.Alike second)
    (two : second.Alike third) :
    first.Alike third :=
  ⟨two.start.trans one.start, two.capacity.trans one.capacity⟩

/-- Where the size of intervals is bounded, names are kept in a file. -/
theorem accepts_iff
    {backend : Backend}
    {ns : Namespace} :
    backend.Accepts ns ↔ backend.maxIntervalSize? = none ∨ ns.Storable := by
  cases backend with
  | memory m => exact ⟨fun _ => Or.inl rfl, fun _ => trivial⟩
  | stored b => exact ⟨Or.inr, fun either => either.resolve_left (Option.some_ne_none _)⟩
  | unreliable u => exact ⟨fun _ => Or.inl rfl, fun _ => trivial⟩

/-- Backends that are bounded alike can keep the same namespaces. -/
theorem Alike.accepts_iff
    {backend other : Backend}
    (alike : backend.Alike other)
    (ns : Namespace) :
    other.Accepts ns ↔ backend.Accepts ns := by
  rw [Backend.accepts_iff, Backend.accepts_iff, alike.capacity]

/-- Without a bound for the size of intervals nothing is written in fields. -/
theorem inRange_of_unbounded
    {backend : Backend}
    (unbounded : backend.maxIntervalSize? = none) :
    backend.InRange := by
  cases backend with
  | memory m => trivial
  | stored b => cases unbounded
  | unreliable u => trivial

/-- Without a bound for the size of intervals they are taken at any time. -/
theorem taking_of_unbounded
    {backend : Backend}
    (unbounded : backend.maxIntervalSize? = none) :
    backend.Taking := by
  cases backend with
  | memory m => trivial
  | stored b => cases unbounded
  | unreliable u => trivial

/-- A tree in a file that is given up forgets its nodes, and its file its name unless complete. -/
theorem dispose_stored
    {b : Stored}
    (alive : b.disposed = false)
    (volume : Volume) :
    dispose ⟨volume, stored b⟩
      = .ok ()
        ⟨if b.tree.finished then volume else volume.unlink b.name,
          stored ⟨b.name, b.tree.withCache b.tree.io.cache.clear, true⟩⟩ := by
  unfold dispose
  rw [Step.subject_bind_apply]
  simp only [alive]
  cases b.tree.finished with
  | true => rfl
  | false => rfl

/-- Giving a backend up never fails, and a file that is complete stays where it is. -/
theorem exists_dispose
    (s : Placed Backend) :
    ∃ reached,
      dispose s = .ok () reached
        ∧ s.subject.Alike reached.subject
        ∧ reached.subject.stop = s.subject.stop
        ∧ (¬ s.subject.Taking → reached.volume = s.volume) := by
  rcases s with ⟨volume, backend⟩
  cases backend with
  | memory m => exact ⟨_, rfl, ⟨rfl, rfl⟩, rfl, fun _ => rfl⟩
  | unreliable u => exact ⟨_, rfl, ⟨rfl, rfl⟩, rfl, fun _ => rfl⟩
  | stored b =>
      cases gone : b.disposed with
      | true =>
          refine ⟨⟨volume, stored b⟩, ?_, ⟨rfl, rfl⟩, rfl, fun _ => rfl⟩
          unfold dispose
          rw [Step.subject_bind_apply]
          simp only [gone]
          rfl
      | false =>
          exact ⟨_, dispose_stored gone volume, ⟨rfl, rfl⟩, rfl,
            fun whole => if_pos ((Bool.not_eq_false _).mp whole)⟩

/-- A step on the tree of a backend that was not given up is done there. -/
theorem onTree_of_ok
    {α : Type}
    {b : Stored}
    {step : Step Tree α}
    {s : Placed Backend}
    {volume : Volume}
    {tree : Tree}
    {a : α}
    (alive : b.disposed = false)
    (done : step ⟨s.volume, b.tree⟩ = .ok a ⟨volume, tree⟩) :
    onTree b step s = .ok a ⟨volume, stored { b with tree }⟩ := by
  have usable : b.checkAlive = .ok () := by
    unfold Stored.checkAlive
    rw [alive]
    rfl
  unfold onTree
  rw [usable, Step.ofExcept_ok, Step.pure_bind_apply]
  exact Step.onPart_of_ok done

theorem onTree_of_error
    {α : Type}
    {b : Stored}
    {step : Step Tree α}
    {s : Placed Backend}
    {volume : Volume}
    {tree : Tree}
    {fault : Fault}
    (alive : b.disposed = false)
    (failed : step ⟨s.volume, b.tree⟩ = .error fault ⟨volume, tree⟩) :
    onTree b step s = .error fault ⟨volume, stored { b with tree }⟩ := by
  have usable : b.checkAlive = .ok () := by
    unfold Stored.checkAlive
    rw [alive]
    rfl
  unfold onTree
  rw [usable, Step.ofExcept_ok, Step.pure_bind_apply]
  exact Step.onPart_of_error failed

/-- Nothing is done on a tree that was given up. -/
theorem onTree_of_gone
    {α : Type}
    {b : Stored}
    (gone : b.disposed = true)
    (step : Step Tree α)
    (s : Placed Backend) :
    onTree b step s = .error .disposed s := by
  have unusable : b.checkAlive = .error .disposed := by
    unfold Stored.checkAlive
    rw [gone]
    rfl
  unfold onTree
  rw [unusable]
  rfl

/-- The bound for the size of intervals under a plan, if there is one. -/
def Plan.capacity? : Plan → Option Nat
  | memory => none
  | file _ config => some config.coreCapacity

/-- Under a plan for a memory any names are kept, and under one for a file what has room there. -/
theorem accepts_iff_of_plan
    {plan : Plan}
    {backend : Backend}
    {ns : Namespace}
    (capacity : backend.maxIntervalSize? = plan.capacity?) :
    backend.Accepts ns ↔ plan = .memory ∨ ns.Storable := by
  rw [accepts_iff, capacity]
  cases plan with
  | memory => exact ⟨fun _ => Or.inl rfl, fun _ => Or.inl rfl⟩
  | file name config =>
      constructor
      · exact fun either => Or.inr (either.resolve_left (Option.some_ne_none _))
      · exact fun either => Or.inr (either.resolve_left Plan.noConfusion)

/-- A new backend holds nothing. -/
theorem holds_of_create
    {plan : Plan}
    {start : Int}
    {volume made : Volume}
    {backend : Backend}
    (sound : volume.Sound)
    (created : create plan start volume = .ok (made, backend)) :
    Holds ⟨made, backend⟩ [] ∧ backend.start = start ∧ backend.stop = start
      ∧ backend.Taking ∧ backend.maxIntervalSize? = plan.capacity? := by
  cases plan with
  | memory =>
      cases created
      exact ⟨Memory.Holds.empty start, rfl, rfl, trivial, rfl⟩
  | file name config =>
      simp only [create] at created
      cases treeMade : Tree.create name { config with start } volume with
      | error fault =>
          rw [treeMade] at created
          cases created
      | ok pair =>
          rcases pair with ⟨base, tree⟩
          rw [treeMade] at created
          cases created
          rcases Tree.holds_of_create sound treeMade with ⟨holds, sameConfig, stop, unfinished⟩
          refine ⟨⟨rfl, Or.inl holds⟩, ?_, stop, unfinished, ?_⟩
          · show tree.config.start = start
            rw [sameConfig]
          · show some tree.config.coreCapacity = some config.coreCapacity
            rw [sameConfig]
            rfl

namespace Holds

variable {s : Placed Backend} {taken : List Interval}

theorem separate
    (holds : Holds s taken) :
    Interval.Separate taken := by
  rcases s with ⟨volume, backend⟩
  cases backend with
  | memory m => exact Memory.Holds.separate holds
  | stored b => exact holds.2.separate
  | unreliable u => exact holds.elim

/-- The order of intervals that end together and are of different attributes does not show. -/
theorem swap
    {others : List Interval}
    (holds : Holds s taken)
    (swapped : Interval.Swapped taken others) :
    Holds s others := by
  rcases s with ⟨volume, backend⟩
  cases backend with
  | memory m => exact Memory.Holds.swap holds swapped
  | stored b => exact ⟨holds.1, holds.2.perm swapped.perm⟩
  | unreliable u => exact holds.elim

/-- Whatever bound there is for the size of intervals, null is within it. -/
theorem null_fits
    (holds : Holds s taken)
    {capacity : Nat}
    (bounded : s.subject.maxIntervalSize? = some capacity) :
    Interval.sizeWith .null ≤ capacity := by
  rcases s with ⟨volume, backend⟩
  cases backend with
  | memory m => cases bounded
  | stored b =>
      cases bounded
      exact holds.2.valid.roomForInterval
  | unreliable u => cases bounded

/-- A backend takes every interval that it admits, and holds it next to the others. -/
theorem insert
    {i : Interval}
    (holds : Holds s taken)
    (taking : s.subject.Taking)
    (admits : s.subject.Admits taken i) :
    ∃ reached,
      Backend.insert i s = .ok () reached
        ∧ s.subject.Alike reached.subject
        ∧ reached.subject.stop = i.stop
        ∧ reached.subject.Taking
        ∧ Holds reached (taken ++ [i]) := by
  rcases s with ⟨volume, backend⟩
  cases backend with
  | memory m =>
      rcases Memory.Holds.insert holds admits.nonneg admits.late admits.separate with
        ⟨after, took, start, stop, kept⟩
      refine ⟨⟨volume, memory after⟩, ?_, ⟨start, rfl⟩, stop, trivial, kept⟩
      simp only [Backend.insert, Step.subject_bind_apply, took]
      rfl
  | stored b =>
      have treeAdmits : Tree.Admits b.tree taken i :=
        ⟨admits.small _ rfl, admits.begun, admits.late, admits.separate⟩
      rcases (holds.2.holds taking).insert taking treeAdmits with
        ⟨⟨after, tree⟩, took, config, stop, unfinished, kept⟩
      refine ⟨⟨after, stored { b with tree }⟩, ?_, ⟨?_, ?_⟩, stop, unfinished, holds.1,
        Or.inl kept⟩
      · exact onTree_of_ok holds.1 took
      · exact congrArg Tree.Config.start config
      · exact congrArg some (congrArg Tree.Config.coreCapacity config)
  | unreliable u => exact holds.elim

/--
Only a file that can be added to must not be completed beyond the end of an
interval; a memory takes what ends no earlier than the intervals it holds.
-/
theorem insert_last
    {i : Interval}
    (holds : Holds s taken)
    (taking : s.subject.Taking)
    (small : ∀ capacity, s.subject.maxIntervalSize? = some capacity → i.encodedSize ≤ capacity)
    (begun : s.subject.start ≤ i.start)
    (last : ∀ j ∈ taken, j.stop ≤ i.stop)
    (late : s.subject.maxIntervalSize? ≠ none → s.subject.stop ≤ i.stop)
    (nonneg : 0 ≤ i.quark)
    (separate : Interval.Separate (taken ++ [i])) :
    ∃ reached,
      Backend.insert i s = .ok () reached
        ∧ s.subject.Alike reached.subject
        ∧ reached.subject.stop = max s.subject.stop i.stop
        ∧ reached.subject.Taking
        ∧ Holds reached (taken ++ [i]) := by
  rcases s with ⟨volume, backend⟩
  cases backend with
  | memory m =>
      rcases Memory.Holds.insert_last holds nonneg last separate with
        ⟨after, took, start, stop, kept⟩
      refine ⟨⟨volume, memory after⟩, ?_, ⟨start, rfl⟩, stop, trivial, kept⟩
      simp only [Backend.insert, Step.subject_bind_apply, took]
      rfl
  | stored b =>
      have inTime := late (Option.some_ne_none _)
      rcases holds.insert taking ⟨small, begun, inTime, nonneg, separate⟩ with
        ⟨reached, took, alike, stop, taking, kept⟩
      exact ⟨reached, took, alike, stop.trans (Int.max_eq_right inTime).symm, taking, kept⟩
  | unreliable u => exact holds.elim

/-- What is too large for a backend, or comes when it takes no more, changes nothing. -/
theorem insert_refused
    {i : Interval}
    (holds : Holds s taken)
    (refused : ¬ (s.subject.Taking
      ∧ ∀ capacity, s.subject.maxIntervalSize? = some capacity → i.encodedSize ≤ capacity)) :
    ∃ fault,
      Backend.insert i s = .error fault s
        ∧ (fault = .badArgument .finishedTree
          ∨ ∃ size capacity, fault = .intervalTooLarge size capacity) := by
  rcases s with ⟨volume, backend⟩
  cases backend with
  | memory m =>
      refine absurd ⟨trivial, ?_⟩ refused
      intro capacity bounded
      cases bounded
  | stored b =>
      cases finished : b.tree.finished with
      | true =>
          refine ⟨.badArgument .finishedTree, onTree_of_error holds.1 ?_, Or.inl rfl⟩
          unfold Tree.insert
          rw [Step.subject_bind_apply, if_pos finished]
          rfl
      | false =>
          have large : b.tree.maxIntervalSize < i.encodedSize := by
            apply Nat.not_le.mp
            intro small
            apply refused
            refine ⟨finished, fun capacity bounded => ?_⟩
            cases bounded
            exact small
          refine ⟨.intervalTooLarge i.encodedSize b.tree.maxIntervalSize,
            onTree_of_error holds.1 ?_, Or.inr ⟨_, _, rfl⟩⟩
          unfold Tree.insert
          rw [Step.subject_bind_apply, if_neg (by rw [finished]; exact Bool.false_ne_true)]
          simp only [if_pos large]
          rfl
  | unreliable u => exact holds.elim

/-- A file that was completed is not completed again. -/
theorem finish_again
    (holds : Holds s taken)
    (full : ¬ s.subject.Taking)
    (stop : Int)
    (ns : Namespace) :
    Backend.finish stop ns s = .ok () s := by
  rcases s with ⟨volume, backend⟩
  cases backend with
  | memory m => exact absurd trivial full
  | stored b =>
      have finished : b.tree.finished = true := (Bool.not_eq_false _).mp full
      refine onTree_of_ok holds.1 ?_
      unfold Tree.finish
      rw [Step.subject_bind_apply, if_pos finished]
      rfl
  | unreliable u => exact holds.elim

/-- What questions leave as it is. -/
structure Kept
    (s reached : Placed Backend)
    (taken : List Interval) : Prop where
  holds : Holds reached taken
  alike : s.subject.Alike reached.subject
  stop : reached.subject.stop = s.subject.stop
  taking : reached.subject.Taking ↔ s.subject.Taking
  inRange : reached.subject.InRange

theorem Kept.trans
    {first second third : Placed Backend}
    (one : Kept first second taken)
    (two : Kept second third taken) :
    Kept first third taken :=
  ⟨two.holds, one.alike.trans two.alike, two.stop.trans one.stop, two.taking.trans one.taking,
    two.inRange⟩

theorem kept_of_withCache
    {volume : Volume}
    {b : Stored}
    {cache : Tree.NodeCache}
    (alive : b.disposed = false)
    (inRange : b.tree.InRange)
    (tells : Tree.Tells ⟨volume, b.tree.withCache cache⟩ taken) :
    Kept ⟨volume, stored b⟩ ⟨volume, stored { b with tree := b.tree.withCache cache }⟩ taken :=
  ⟨⟨alive, tells⟩, ⟨rfl, rfl⟩, rfl, Iff.rfl, inRange.withCache cache⟩

/-- A backend answers with the interval of the attribute that covers the instant. -/
theorem find
    (holds : Holds s taken)
    (inRange : s.subject.InRange)
    (numbered : Tree.Numbered taken)
    (t quark : Int) :
    ∃ reached,
      Backend.find t quark s = .ok (Interval.covering? taken t quark) reached
        ∧ Kept s reached taken := by
  rcases s with ⟨volume, backend⟩
  cases backend with
  | memory m =>
      refine ⟨⟨volume, memory m⟩, ?_, holds, ⟨rfl, rfl⟩, rfl, Iff.rfl, trivial⟩
      simp only [Backend.find, Step.subject_bind_apply, Memory.Holds.find holds]
      rfl
  | stored b =>
      by_cases negative : quark < 0
      · have none : Interval.covering? taken t quark = Option.none := by
          rw [Interval.covering?_eq_none_iff]
          intro i member same
          have := numbered i member
          omega
        refine ⟨⟨volume, stored b⟩, ?_, holds, ⟨rfl, rfl⟩, rfl, Iff.rfl, inRange⟩
        rw [none]
        apply onTree_of_ok holds.1
        rw [if_pos negative]
        rfl
      · rcases holds.2.find inRange numbered t quark with ⟨cache, found, kept⟩
        refine ⟨_, ?_, kept_of_withCache holds.1 inRange kept⟩
        apply onTree_of_ok holds.1
        rw [if_neg negative]
        exact found
  | unreliable u => exact holds.elim

/-- A backend fills each slot with the interval of its attribute that covers the instant. -/
theorem collect
    (holds : Holds s taken)
    (inRange : s.subject.InRange)
    (numbered : Tree.Numbered taken)
    (t : Int)
    (slots : Tree.Slots) :
    ∃ reached,
      Backend.collect t slots s = .ok (slots.fill taken t) reached
        ∧ Kept s reached taken := by
  rcases s with ⟨volume, backend⟩
  cases backend with
  | memory m =>
      refine ⟨⟨volume, memory m⟩, ?_, holds, ⟨rfl, rfl⟩, rfl, Iff.rfl, trivial⟩
      simp only [Backend.collect, Step.subject_bind_apply, Memory.Holds.collect holds]
      rfl
  | stored b =>
      rcases holds.2.collect inRange numbered t slots with ⟨cache, found, kept⟩
      exact ⟨_, onTree_of_ok holds.1 found, kept_of_withCache holds.1 inRange kept⟩
  | unreliable u => exact holds.elim

/-- A backend is completed if and only if it can keep the namespace, and holds what it held. -/
theorem finish
    (holds : Holds s taken)
    (taking : s.subject.Taking)
    (stop : Int)
    (ns : Namespace) :
    ∃ reached,
      Holds reached taken
        ∧ s.subject.Alike reached.subject
        ∧ reached.subject.stop = max s.subject.stop stop
        ∧ (s.subject.InRange → stop ≤ latestInstant → reached.subject.InRange)
        ∧ (Accepts s.subject ns ∧ Backend.finish stop ns s = .ok () reached
            ∧ Complete reached ns taken
          ∨ ¬ Accepts s.subject ns
            ∧ Backend.finish stop ns s = .error ns.obstacle reached) := by
  rcases s with ⟨volume, backend⟩
  cases backend with
  | memory m =>
      rcases Memory.Holds.finish holds stop with ⟨after, finished, start, last, kept⟩
      refine ⟨⟨volume, memory after⟩, kept, ⟨start, rfl⟩, last, fun _ _ => trivial,
        Or.inl ⟨trivial, ?_, trivial⟩⟩
      simp only [Backend.finish, Step.subject_bind_apply, finished]
      rfl
  | stored b =>
      rcases (holds.2.holds taking).finish taking stop ns with
        ⟨⟨after, tree⟩, kept, config, last, inRange, ends⟩
      refine ⟨⟨after, stored { b with tree }⟩, ⟨holds.1, Or.inl kept⟩, ⟨?_, ?_⟩, last, inRange, ?_⟩
      · exact congrArg Tree.Config.start config
      · exact congrArg some (congrArg Tree.Config.coreCapacity config)
      · rcases ends with ⟨storable, finishes, -, complete⟩ | ⟨unstorable, -, fails⟩
        · exact Or.inl ⟨storable, onTree_of_ok holds.1 finishes, complete⟩
        · exact Or.inr ⟨unstorable, onTree_of_error holds.1 fails⟩
  | unreliable u => exact holds.elim

end Holds

end Chronicle.Backend
