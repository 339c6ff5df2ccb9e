import Chronicle.Proofs.Tree.Finishing
import Mathlib.Data.List.Infix

/-!
# A tree answers like a flat set

Whatever is asked of a tree, in whatever order and between whatever insertions,
it answers as a list would that is looked through from one end to the other.
The branch, its splits, the file and the nodes at hand do not show.
-/

namespace Chronicle.Tree

/-- What a tree is told or asked. -/
inductive Call
  | insert (i : Interval)
  | find (t quark : Int)
  | collect (t : Int) (slots : Slots)

/-- What a tree says to a call. -/
inductive Reply
  | taken
  | interval (found : Option Interval)
  | slots (filled : Slots)
deriving DecidableEq

namespace Call

/-- Takes a call. -/
def step : Call → Step Tree Reply
  | insert i => do
    Tree.insert i
    return .taken
  | find t quark => do
    return .interval (← Tree.find t quark)
  | collect t slots => do
    return .slots (← Tree.collect t slots)

/-- The interval that a call brings. -/
def brings : Call → List Interval
  | insert i => [i]
  | find _ _ => []
  | collect _ _ => []

/--
Whether a reply says about the intervals taken what was asked: the interval
that covers the instant, if there is one, and for every slot the interval of
its attribute that covers the instant, or else what was in the slot.
-/
def Answered
    (taken : List Interval) :
    Call →
    Reply →
    Prop
  | insert _, .taken => True
  | find t quark, .interval found =>
    ∀ i, found = some i ↔ i ∈ taken ∧ i.quark = quark ∧ i.Covers t
  | collect t slots, .slots filled =>
    filled.size = slots.size ∧ ∀ (place : Nat) (inside : place < filled.size),
      (∀ i ∈ taken, i.quark = place → i.Covers t → filled[place] = some i)
        ∧ ((∀ i ∈ taken, i.quark = place → ¬ i.Covers t) → filled[place]? = slots[place]?)
  | _, _ => False

end Call

/-- Takes calls one after the other. -/
def run : List Call → Step Tree (List Reply)
  | [] => return []
  | call :: calls => do
    let reply ← call.step
    return reply :: (← run calls)

/-- The intervals that calls bring. -/
def brought (calls : List Call) : List Interval :=
  calls.flatMap Call.brings

/-- Whether each reply says what was asked about the intervals taken until then. -/
def Explained : (taken : List Interval) → List Call → List Reply → Prop
  | _, [], [] => True
  | taken, call :: calls, reply :: replies =>
    call.Answered taken reply ∧ Explained (taken ++ call.brings) calls replies
  | _, _, _ => False

/--
Intervals that a tree can take one after the other: each has a place in a tree
with the settings, none ends before an earlier one, and no two of one attribute
share an instant.
-/
structure Lawful
    (config : Config)
    (intervals : List Interval) : Prop where
  numbered : Numbered intervals
  begun : ∀ i ∈ intervals, config.start ≤ i.start
  small : ∀ i ∈ intervals, i.encodedSize ≤ config.coreCapacity
  ordered : intervals.Pairwise fun i j => i.stop ≤ j.stop
  separate : Interval.Separate intervals

theorem answered_find
    {taken : List Interval}
    (separate : Interval.Separate taken)
    (t quark : Int) :
    (Call.find t quark).Answered taken (.interval (Interval.covering? taken t quark)) :=
  fun _ => Interval.covering?_eq_some_iff separate

theorem answered_collect
    {taken : List Interval}
    (separate : Interval.Separate taken)
    (t : Int)
    (slots : Slots) :
    (Call.collect t slots).Answered taken (.slots (slots.fill taken t)) := by
  refine ⟨by simp [Slots.fill], ?_⟩
  intro place inside
  have inSlots : place < slots.size := by simpa [Slots.fill] using inside
  constructor
  · intro i member same covers
    have found := (Interval.covering?_eq_some_iff separate).mpr ⟨member, same, covers⟩
    simp [Slots.fill, found]
  · intro none
    have found : Interval.covering? taken t place = Option.none :=
      Interval.covering?_eq_none_iff.mpr none
    simp [Slots.fill, found, inSlots]

theorem run_cons
    {s after : Placed Tree}
    {call : Call}
    {reply : Reply}
    (answered : call.step s = .ok reply after)
    (calls : List Call) :
    run (call :: calls) s = (do return reply :: (← run calls) : Step Tree (List Reply)) after :=
  Step.bind_of_ok answered

theorem reached_run_cons
    {s after : Placed Tree}
    {call : Call}
    {reply : Reply}
    (answered : call.step s = .ok reply after)
    (calls : List Call) :
    (run (call :: calls)).reached s = (run calls).reached after := by
  unfold Step.reached
  rw [run_cons answered]
  cases rest : run calls after with
  | ok replies last => rw [Step.bind_of_ok rest]; rfl
  | error fault last => rw [Step.bind_of_error rest]

/-- A tree that holds what it took, and can take what calls bring one after the other. -/
structure Expects
    (s : Placed Tree)
    (taken : List Interval)
    (calls : List Call) : Prop where
  holds : Holds s taken
  lawful : Lawful s.subject.config (taken ++ brought calls)
  ready : ∀ i ∈ brought calls, s.subject.finished = false ∧ s.subject.stop ≤ i.stop
  now : s.subject.InRange
  later : ∀ before, before <+: calls → brought before ≠ [] →
    ((run before).reached s).subject.InRange

namespace Expects

variable {s : Placed Tree} {taken : List Interval} {calls : List Call}

theorem numbered
    (expects : Expects s taken calls) :
    Numbered taken :=
  fun i member => expects.lawful.numbered i (List.mem_append_left _ member)

/-- The first interval that calls bring can be taken next. -/
theorem admits
    {i : Interval}
    (expects : Expects s taken (.insert i :: calls)) :
    Admits s.subject taken i := by
  have first : i ∈ brought (.insert i :: calls) := List.mem_cons_self
  have inAll : i ∈ taken ++ brought (.insert i :: calls) := List.mem_append_right _ first
  have separate : Interval.Separate (taken ++ i :: brought calls) := expects.lawful.separate
  rw [List.append_cons] at separate
  constructor
  · exact expects.lawful.small i inAll
  · exact expects.lawful.begun i inAll
  · exact (expects.ready i first).2
  · exact separate.sublist (List.sublist_append_left _ _)

/-- The interval that is brought first is taken, and all others are expected afterwards. -/
theorem insert
    {i : Interval}
    (expects : Expects s taken (.insert i :: calls)) :
    ∃ reached,
      Tree.insert i s = .ok () reached
        ∧ reached.subject.config = s.subject.config
        ∧ reached.subject.finished = false
        ∧ Expects reached (taken ++ [i]) calls := by
  have unfinished := (expects.ready i List.mem_cons_self).1
  rcases expects.holds.insert unfinished expects.admits with
    ⟨reached, took, config, stop, open_, kept⟩
  have answered : (Call.insert i).step s = .ok .taken reached := Step.bind_of_ok took
  have split : taken ++ brought (.insert i :: calls) = (taken ++ [i]) ++ brought calls :=
    List.append_cons taken i (brought calls)
  refine ⟨reached, took, config, open_, ?_⟩
  constructor
  · exact kept
  · rw [config, ← split]
    exact expects.lawful
  · intro j member
    have ordered := expects.lawful.ordered
    rw [split, List.pairwise_append] at ordered
    rw [stop]
    exact ⟨open_, ordered.2.2 i (List.mem_append_right _ List.mem_cons_self) j member⟩
  · have range := expects.later [.insert i] ⟨calls, rfl⟩ (List.cons_ne_nil _ _)
    rw [reached_run_cons answered] at range
    exact range
  · intro before begins _
    rw [← reached_run_cons answered]
    exact expects.later (.insert i :: before) (List.cons_prefix_cons.mpr ⟨rfl, begins⟩)
      (List.cons_ne_nil _ _)

/-- A call that brings nothing changes nothing but which nodes are at hand. -/
theorem ask
    {call : Call}
    (expects : Expects s taken (call :: calls))
    (silent : call.brings = []) :
    ∃ reply cache,
      call.step s = .ok reply ⟨s.volume, s.subject.withCache cache⟩
        ∧ call.Answered taken reply
        ∧ Expects ⟨s.volume, s.subject.withCache cache⟩ taken calls := by
  have same : brought (call :: calls) = brought calls := congrArg (· ++ brought calls) silent
  have rest : ∀ {reply cache}, call.step s = .ok reply ⟨s.volume, s.subject.withCache cache⟩ →
      Holds ⟨s.volume, s.subject.withCache cache⟩ taken →
        Expects ⟨s.volume, s.subject.withCache cache⟩ taken calls := by
    intro reply cache answered kept
    constructor
    · exact kept
    · rw [← same]
      exact expects.lawful
    · rw [← same]
      exact expects.ready
    · exact expects.now.withCache cache
    · intro before begins some_
      rw [← reached_run_cons answered]
      apply expects.later (call :: before) (List.cons_prefix_cons.mpr ⟨rfl, begins⟩)
      intro nothing
      exact some_ (List.append_eq_nil_iff.mp nothing).2
  cases call with
  | insert i => cases silent
  | find t quark =>
      rcases expects.holds.find expects.now expects.numbered t quark with ⟨cache, found, kept⟩
      have answered : (Call.find t quark).step s
          = .ok (.interval (Interval.covering? taken t quark))
            ⟨s.volume, s.subject.withCache cache⟩ :=
        Step.bind_of_ok found
      exact ⟨_, cache, answered, answered_find expects.holds.separate t quark, rest answered kept⟩
  | collect t slots =>
      rcases expects.holds.collect expects.now expects.numbered t slots with ⟨cache, found, kept⟩
      have answered : (Call.collect t slots).step s
          = .ok (.slots (slots.fill taken t)) ⟨s.volume, s.subject.withCache cache⟩ :=
        Step.bind_of_ok found
      exact ⟨_, cache, answered, answered_collect expects.holds.separate t slots,
        rest answered kept⟩

/-- A call is answered, and the calls after it are expected as they were. -/
theorem step
    {call : Call}
    (expects : Expects s taken (call :: calls)) :
    ∃ reply reached,
      call.step s = .ok reply reached
        ∧ call.Answered taken reply
        ∧ reached.subject.config = s.subject.config
        ∧ (s.subject.finished = false → reached.subject.finished = false)
        ∧ Expects reached (taken ++ call.brings) calls := by
  by_cases silent : call.brings = []
  · rcases expects.ask silent with ⟨reply, cache, answered, explained, later⟩
    rw [silent, List.append_nil]
    exact ⟨reply, _, answered, explained, rfl, id, later⟩
  · cases call with
    | insert i =>
        rcases expects.insert with ⟨reached, took, config, unfinished, later⟩
        exact ⟨.taken, reached, Step.bind_of_ok took, trivial, config, fun _ => unfinished, later⟩
    | find t quark => exact absurd rfl silent
    | collect t slots => exact absurd rfl silent

/-- A whole run is answered, and the tree then holds all that it brought. -/
theorem run
    (expects : Expects s taken calls) :
    ∃ replies reached,
      Tree.run calls s = .ok replies reached
        ∧ Explained taken calls replies
        ∧ Holds reached (taken ++ brought calls)
        ∧ reached.subject.config = s.subject.config
        ∧ (s.subject.finished = false → reached.subject.finished = false) := by
  induction calls generalizing s taken with
  | nil =>
      refine ⟨[], s, rfl, trivial, ?_, rfl, id⟩
      rw [brought, List.flatMap_nil, List.append_nil]
      exact expects.holds
  | cons call calls ih =>
      rcases expects.step with ⟨reply, after, answered, explained, config, unfinished, later⟩
      rcases ih later with ⟨replies, reached, done, all, holds, sameConfig, still⟩
      refine ⟨reply :: replies, reached, ?_, ⟨explained, all⟩, ?_, sameConfig.trans config,
        fun open_ => still (unfinished open_)⟩
      · rw [run_cons answered, Step.bind_of_ok done]
        rfl
      · rw [List.append_assoc] at holds
        exact holds

end Expects

/--
A history tree refines a flat set of intervals.  For all settings under which a
tree can be created and all calls whose intervals it can take, every call is
answered, and answered as the intervals taken until then demand; and so is
every question after the tree was finished, which it is if the namespace has
room in the file.
-/
theorem refines_flat_set
    {name : String}
    {config : Config}
    {volume made : Volume}
    {tree : Tree}
    {calls : List Call}
    (sound : volume.Sound)
    (created : create name config volume = .ok (made, tree))
    (lawful : Lawful config (brought calls))
    (inRange : ∀ before, before <+: calls → ((run before).reached ⟨made, tree⟩).subject.InRange)
    (stop : Int)
    (bounded : stop ≤ latestInstant)
    (ns : Namespace)
    (questions : List Call)
    (asking : brought questions = []) :
    ∃ replies reached,
      run calls ⟨made, tree⟩ = .ok replies reached
        ∧ Explained [] calls replies
        ∧ ∃ outcome finished,
          Step.outcome (finish stop ns) reached = .ok outcome finished
            ∧ (ns.Storable → outcome = .ok ())
            ∧ ∃ answers last,
              run questions finished = .ok answers last
                ∧ Explained (brought calls) questions answers := by
  rcases holds_of_create sound created with ⟨holds, sameConfig, start, unfinished⟩
  have later : ∀ i ∈ brought calls, tree.finished = false ∧ tree.stop ≤ i.stop := by
    intro i member
    have begun := lawful.begun i member
    have ordered := i.ordered
    exact ⟨unfinished, by rw [start]; omega⟩
  have expects : Expects ⟨made, tree⟩ [] calls := by
    constructor
    · exact holds
    · rw [sameConfig]
      exact lawful
    · exact later
    · exact inRange [] List.nil_prefix
    · exact fun before begins _ => inRange before begins
  rcases expects.run with ⟨replies, reached, done, explained, kept, reachedConfig, open_⟩
  refine ⟨replies, reached, done, explained, ?_⟩
  rw [List.nil_append] at kept
  have reachedRange : reached.subject.InRange := by
    rw [← Step.reached_of_ok done]
    exact inRange calls (List.prefix_refl calls)
  have explains : ∀ {s : Placed Tree}, Holds s (brought calls) → s.subject.config = config →
      s.subject.InRange → ∃ answers last, run questions s = .ok answers last
        ∧ Explained (brought calls) questions answers := by
    intro s holdsStill same now
    have expectsStill : Expects s (brought calls) questions := by
      constructor
      · exact holdsStill
      · rw [asking, List.append_nil, same]
        exact lawful
      · rw [asking]
        intro i member
        cases member
      · exact now
      · rintro before ⟨others, rfl⟩ some_
        rw [brought, List.flatMap_append] at asking
        exact absurd (List.append_eq_nil_iff.mp asking).1 some_
    rcases expectsStill.run with ⟨answers, last, done, explained, -⟩
    exact ⟨answers, last, done, explained⟩
  rcases kept.finish (open_ unfinished) stop ns with
    ⟨finished, holdsStill, finishedConfig, -, finishedRange, ends⟩
  have answers := explains holdsStill (finishedConfig.trans (reachedConfig.trans sameConfig))
    (finishedRange reachedRange bounded)
  rcases ends with ⟨-, finishes, -⟩ | ⟨unstorable, -, fails⟩
  · refine ⟨.ok (), finished, ?_, fun _ => rfl, answers⟩
    unfold Step.outcome
    rw [finishes]
  · refine ⟨.error ns.obstacle, finished, ?_, fun storable => absurd storable unstorable, answers⟩
    unfold Step.outcome
    rw [fails]

/-- The settings under which an inner node has room for one interval, and a leaf for two. -/
def narrow : Config where
  blockSize := 82
  maxChildren := 2
  cacheSize := 1

/-- Calls under which such a tree grows to four levels, the last through an early start. -/
def crowd : List Call :=
  [.insert ⟨0, 4, 0, .null, by decide⟩,
    .insert ⟨0, 5, 1, .null, by decide⟩,
    .insert ⟨5, 9, 0, .null, by decide⟩,
    .insert ⟨6, 9, 1, .null, by decide⟩,
    .insert ⟨0, 12, 2, .null, by decide⟩]

theorem inRange_crowd :
    ∃ made tree,
      create "tree" narrow .empty = .ok (made, tree)
        ∧ ∀ before ∈ crowd.inits, ((run before).reached ⟨made, tree⟩).subject.InRange :=
  ⟨_, _, rfl, by decide +kernel⟩

theorem refines_flat_set_when_crowded :
    ∃ made tree replies reached,
      create "tree" narrow .empty = .ok (made, tree)
        ∧ run crowd ⟨made, tree⟩ = .ok replies reached
        ∧ Explained [] crowd replies
        ∧ ∃ outcome finished,
          Step.outcome (finish 20 .empty) reached = .ok outcome finished
            ∧ (Namespace.empty.Storable → outcome = .ok ())
            ∧ ∃ answers last,
              run [.find 3 2, .collect 7 #[none, none, none]] finished = .ok answers last
                ∧ Explained (brought crowd) [.find 3 2, .collect 7 #[none, none, none]] answers := by
  have lawful : Lawful narrow (brought crowd) := by
    refine ⟨?_, by decide, by decide, by decide, by unfold Interval.Separate; decide⟩
    unfold Numbered
    decide
  rcases inRange_crowd with ⟨made, tree, created, inRange⟩
  rcases refines_flat_set (by decide) created lawful
    (fun before begins => inRange before ((List.mem_inits before crowd).mpr begins))
    20 (by decide) .empty
    [.find 3 2, .collect 7 #[none, none, none]] rfl with ⟨replies, reached, rest⟩
  exact ⟨made, tree, replies, reached, created, rest⟩

end Chronicle.Tree
