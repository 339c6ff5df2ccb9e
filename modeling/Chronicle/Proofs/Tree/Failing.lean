import Chronicle.Proofs.Tree.Circling
import Chronicle.Proofs.Tree.Doubles

/-!
# What a failure leaves behind

An insertion that is refused and a finish without room for the names leave a
tree as it was, with one exception: the latest end may be raised, to that of
the interval or to the end given.  Nothing else can be noticed afterwards, in
whatever the tree is told or asked.
-/

namespace Chronicle.Tree

/-- What changes a tree. -/
inductive Change
  | insert (i : Interval)
  | finish (stop : Int) (ns : Namespace)

namespace Change

/-- Takes a change. -/
def step : Change → Step Tree Unit
  | insert i => Tree.insert i
  | finish stop ns => Tree.finish stop ns

/-- The end that a change brings. -/
def stop : Change → Int
  | insert i => i.stop
  | finish stop _ => stop

/-- The attribute of the interval, if there is one, has a number that fits its field. -/
def Numbered : Change → Prop
  | insert i => 0 ≤ i.quark ∧ i.quark < 2147483648
  | finish _ _ => True

end Change

/-- What a tree is told or asked in its life. -/
inductive Demand
  | change (change : Change)
  | find (t quark : Int)
  | collect (t : Int) (slots : Slots)

namespace Demand

/-- Takes a demand. -/
def step : Demand → Step Tree Reply
  | change c => do
    c.step
    return .taken
  | find t quark => (Call.find t quark).step
  | collect t slots => (Call.collect t slots).step

/-- The attribute of the interval, if there is one, has a number that fits its field. -/
def Numbered : Demand → Prop
  | change c => c.Numbered
  | find _ _ => True
  | collect _ _ => True

theorem reached_change
    (c : Change)
    (s : Placed Tree) :
    (change c).step.reached s = c.step.reached s :=
  Step.reached_map c.step (fun _ => Reply.taken) s

end Demand

/-- What a tree tells about itself. -/
structure Outline where
  start : Int
  stop : Int
  nodeCount : Nat
  depth : Nat
  finished : Bool
deriving DecidableEq

/-- What a tree tells about itself. -/
def outline (tree : Tree) : Outline where
  start := tree.start
  stop := tree.stop
  nodeCount := tree.nodeCount
  depth := tree.depth
  finished := tree.finished

/--
A tree made anew or opened from a file, after any demands: some of them may
have failed, but all numbers and times fitted their fields.
-/
inductive Reachable : Placed Tree → Prop
  | create
      {name : String}
      {config : Config}
      {volume made : Volume}
      {tree : Tree}
      (sound : volume.Sound)
      (created : Tree.create name config volume = .ok (made, tree))
      (fits : tree.InRange) :
      Reachable ⟨made, tree⟩
  | reopen
      {name : String}
      {version : Nat}
      {volume : Volume}
      {tree : Tree}
      {ns : Namespace}
      (opened : Tree.reopen name version volume = .ok (tree, ns)) :
      Reachable ⟨volume, tree⟩
  | demand
      {s : Placed Tree}
      {demand : Demand}
      (before : Reachable s)
      (numbered : demand.Numbered)
      (fits : (demand.step.reached s).subject.InRange) :
      Reachable (demand.step.reached s)

/--
Whatever is demanded of two trees, as long as numbers and times fit, they say
the same to it and tell the same about themselves.
-/
def Alike (s' s : Placed Tree) : Prop :=
  ∀ demands : List Demand,
    (∀ demand ∈ demands, demand.Numbered) →
    (∀ before, before <+: demands →
      ((Step.each Demand.step before).reached s).subject.InRange) →
    ∃ told after' after,
      Step.each Demand.step demands s' = .ok told after'
        ∧ Step.each Demand.step demands s = .ok told after
        ∧ after'.subject.outline = after.subject.outline

/-- Every tree is like itself. -/
theorem Alike.refl (s : Placed Tree) : Alike s s := by
  intro demands _ _
  rcases Step.each_apply Demand.step demands s with ⟨told, done⟩
  exact ⟨told, _, _, done, done, rfl⟩

namespace Resembles

variable {other tree : Tree}

theorem outline
    (resembles : other.Resembles tree) :
    other.outline = tree.outline := by
  have start : other.start = tree.start := by
    unfold Tree.start
    rw [resembles.config]
  have depth : other.depth = tree.depth := Branch.length_of_opened_eq resembles.branch
  unfold Tree.outline
  rw [start, depth, resembles.stop, resembles.nodeCount, resembles.finished]

end Resembles

namespace Doubles

variable {s s' : Placed Tree}

/-- Doubles meet a demand alike. -/
theorem demand
    {demand : Demand}
    (doubles : Doubles s' s)
    (inRange : s.subject.InRange)
    (numbered : demand.Numbered)
    (later : (demand.step.reached s).subject.InRange) :
    Step.Matched Doubles (demand.step s') (demand.step s) := by
  cases demand with
  | change c =>
      rw [Demand.reached_change] at later
      refine Step.Matched.map ?_ fun _ => Reply.taken
      cases c with
      | insert i => exact doubles.insert inRange numbered later
      | finish stop ns => exact doubles.finish stop ns
  | find t quark =>
      refine Step.Matched.map ?_ Reply.interval
      exact doubles.descendFromRoot inRange (fun _ _ => rfl) (fun _ _ => rfl) none
  | collect t slots =>
      refine Step.Matched.map ?_ Reply.slots
      exact doubles.descendFromRoot inRange (fun _ _ => rfl) (fun _ _ => rfl) slots

/-- So they meet one demand after the other. -/
theorem alike
    (doubles : Doubles s' s) :
    Alike s' s := by
  intro demands
  induction demands generalizing s s' with
  | nil => exact fun _ _ => ⟨[], s', s, rfl, rfl, doubles.resembles.outline⟩
  | cons demand rest ih =>
      intro numbered inRange
      rcases Step.prefixes_cons (fun r : Placed Tree => r.subject.InRange) inRange with
        ⟨now, later⟩
      rcases (doubles.demand now (numbered demand List.mem_cons_self)
        (later [] List.nil_prefix)).reached with ⟨first, outcome', outcome, still⟩
      rcases ih still (fun other member => numbered other (List.mem_cons_of_mem _ member)) later
        with ⟨told, after', after, done', done, same⟩
      exact ⟨first :: told, after', after, (Step.bind_of_ok outcome').trans (Step.bind_of_ok done'),
        (Step.bind_of_ok outcome).trans (Step.bind_of_ok done), same⟩

end Doubles

/-- A tree is finished for good. -/
theorem finished_of_demand
    {s : Placed Tree}
    (finished : s.subject.finished = true)
    (demand : Demand) :
    (demand.step.reached s).subject.finished = true := by
  have asked : ∀ {step : Step Tree Reply}, Step.Leaves aside step s →
      (step.reached s).subject.finished = true := by
    intro step leaves
    have same := leaves.seen fun seen => seen.2.finished
    exact Eq.trans same finished
  cases demand with
  | change c =>
      rw [Demand.reached_change]
      cases c with
      | insert i => exact (leaves_finished_insert i s).trans finished
      | finish stop ns =>
          rw [show (Change.finish stop ns).step.reached s = s from
            Step.reached_of_ok (finish_of_finished finished stop ns)]
          exact finished
  | find t quark =>
      exact asked ((leaves_descendFromRoot _ _ _ _ s).bind fun _ _ _ => rfl)
  | collect t slots =>
      exact asked ((leaves_descendFromRoot _ _ _ _ s).bind fun _ _ _ => rfl)

/-- As long as it is not finished, a tree is its own double. -/
theorem Reachable.doubles
    {s : Placed Tree}
    (reachable : Reachable s)
    (unfinished : s.subject.finished = false) :
    Doubles s s ∧ s.subject.InRange := by
  induction reachable with
  | create sound created fits => exact ⟨.refl (sturdy_of_create sound created fits), fits⟩
  | reopen opened => exact absurd (opened_of_reopen opened).2.1 (ne_true_of_eq_false unfinished)
  | @demand s demand before numbered fits ih =>
      have open_ : s.subject.finished = false := by
        by_contra finished
        have still := finished_of_demand (eq_true_of_ne_false finished) demand
        exact ne_true_of_eq_false unfinished still
      rcases ih open_ with ⟨doubles, inRange⟩
      rcases (doubles.demand inRange numbered fits).reached with ⟨told, -, -, still⟩
      exact ⟨still, fits⟩

/-! ## Failures -/

section Spared

variable {s r : Placed Tree} {change : Change} {fault : Fault}

end Spared

/-- An interval that starts before such a tree does, and ends after it. -/
def early : Interval :=
  ⟨0, 99, 0, .null, by decide⟩

end Chronicle.Tree
