import Chronicle.Backend.Memory
import Chronicle.Proofs.Tree.Search

/-!
# What a memory holds

A memory keeps the intervals of each attribute apart, in the order in which
they came.  Since that is the order of their ends, and no two of them share an
instant, the first that does not end before an instant is the only one that
can cover it.
-/

namespace Chronicle.Memory

/-- A memory holds the intervals taken, those of each attribute in a history of their own. -/
structure Holds
    (m : Memory)
    (taken : List Interval) : Prop where
  alive : m.disposed = false
  history : ∀ quark, (m.history quark).toList = taken.filter fun i => i.quark = quark
  ordered : taken.Pairwise fun i j => i.stop ≤ j.stop
  separate : Interval.Separate taken
  within : ∀ i ∈ taken, i.stop ≤ m.stop

/-- Of intervals in the order of their ends, the first that may cover an instant decides. -/
theorem head?_filter_eq_find?
    {items : List Interval}
    (ordered : items.Pairwise fun i j => i.stop ≤ j.stop)
    (apart : items.Pairwise fun i j => i.stop < j.start ∨ j.stop < i.start)
    (t : Int) :
    ((items.filter fun i => t ≤ i.stop).head?.filter fun i => i.start ≤ t)
      = items.find? fun i => i.Covers t := by
  induction items with
  | nil => rfl
  | cons i rest ih =>
      rw [List.pairwise_cons] at ordered apart
      by_cases lasting : t ≤ i.stop
      · by_cases begun : i.start ≤ t
        · have covers : i.Covers t := ⟨begun, lasting⟩
          simp [lasting, begun, covers]
        · have uncovered : ¬ i.Covers t := fun covers => begun covers.1
          have none : rest.find? (fun j => j.Covers t) = none := by
            rw [List.find?_eq_none]
            intro j member test
            have covers := of_decide_eq_true test
            have later := ordered.1 j member
            have beside := apart.1 j member
            have forward := i.ordered
            rcases covers with ⟨start, stop⟩
            omega
          simp only [List.filter_cons, lasting, decide_true, if_true, List.head?_cons,
          Option.filter_some, begun, decide_false, Bool.false_eq_true, if_false, List.find?_cons,
          uncovered, none]
      · have uncovered : ¬ i.Covers t := fun covers => lasting covers.2
        simp only [List.filter_cons, lasting, decide_false, Bool.false_eq_true, if_false,
          List.find?_cons, uncovered]
        exact ih ordered.2 apart.2

/-- The bisection in a history finds the interval that covers the instant. -/
theorem lookup_eq
    {intervals : Array Interval}
    (ordered : intervals.toList.Pairwise fun i j => i.stop ≤ j.stop)
    (apart : intervals.toList.Pairwise fun i j => i.stop < j.start ∨ j.stop < i.start)
    (t : Int) :
    lookup intervals t = intervals.toList.find? fun i => i.Covers t := by
  have cut : intervals.toList.Pairwise fun i j =>
      decide (j.stop < t) = true → decide (i.stop < t) = true := by
    apply ordered.imp
    intro i j before early
    simp only [decide_eq_true_eq] at early ⊢
    omega
  have late : (intervals.toList.filter fun i => !decide (i.stop < t))
      = intervals.toList.filter fun i => t ≤ i.stop := by
    apply List.filter_congr
    intro i _
    by_cases lasting : t ≤ i.stop
    · simp [lasting]
    · simp [lasting]
      omega
  rw [← head?_filter_eq_find? ordered apart, ← late, ← Bisection.drop_prefixLength cut,
    List.head?_drop, Array.getElem?_toList]
  rfl

namespace Holds

variable {m : Memory} {taken : List Interval}

theorem empty
    (start : Int) :
    (Memory.empty start).Holds [] where
  alive := rfl
  history quark := by
    unfold Memory.history Memory.empty
    split <;> simp
  ordered := List.Pairwise.nil
  separate := List.Pairwise.nil
  within i member := by cases member

/-- The order of intervals that end together and are of different attributes is not kept. -/
theorem swap
    {others : List Interval}
    (holds : m.Holds taken)
    (swapped : Interval.Swapped taken others) :
    m.Holds others where
  alive := holds.alive
  history quark := (holds.history quark).trans (swapped.filter_eq quark).symm
  ordered := swapped.ordered holds.ordered
  separate := holds.separate.perm swapped.perm
  within i member := holds.within i (swapped.perm.mem_iff.mpr member)

theorem checkAlive
    (holds : m.Holds taken) :
    m.checkAlive = .ok () := by
  unfold Memory.checkAlive
  rw [holds.alive]
  rfl

theorem lookup
    (holds : m.Holds taken)
    (t quark : Int) :
    Memory.lookup (m.history quark) t = Interval.covering? taken t quark := by
  rw [lookup_eq]
  · rw [holds.history, List.find?_filter]
    unfold Interval.covering?
    congr 1
    funext i
    apply decide_eq_decide.mpr
    simp only [decide_eq_true_eq]
  · rw [holds.history]
    exact holds.ordered.sublist List.filter_sublist
  · rw [holds.history]
    apply (holds.separate.sublist List.filter_sublist).imp_of_mem
    intro i j iMember jMember apart
    have iQuark := of_decide_eq_true (List.mem_filter.mp iMember).2
    have jQuark := of_decide_eq_true (List.mem_filter.mp jMember).2
    exact apart (iQuark.trans jQuark.symm)

/-- A memory answers with the interval of the attribute that covers the instant. -/
theorem find
    (holds : m.Holds taken)
    (t quark : Int) :
    m.find t quark = .ok (Interval.covering? taken t quark) := by
  unfold Memory.find
  simp only [holds.checkAlive, holds.lookup]
  rfl

/-- A memory fills each slot with the interval of its attribute that covers the instant. -/
theorem collect
    (holds : m.Holds taken)
    (t : Int)
    (slots : Tree.Slots) :
    m.collect t slots = .ok (slots.fill taken t) := by
  unfold Memory.collect
  simp only [holds.checkAlive, holds.lookup]
  rfl

/--
A memory takes every interval of an attribute that ends no earlier than those
it holds and shares no instant with them, however far it was completed.
-/
theorem insert_last
    {i : Interval}
    (holds : m.Holds taken)
    (nonneg : 0 ≤ i.quark)
    (last : ∀ j ∈ taken, j.stop ≤ i.stop)
    (separate : Interval.Separate (taken ++ [i])) :
    ∃ after,
      m.insert i = .ok after
        ∧ after.start = m.start
        ∧ after.stop = max m.stop i.stop
        ∧ after.Holds (taken ++ [i]) := by
  refine ⟨{ m with
    stop := max m.stop i.stop
    count := m.count + 1
    histories := setPadded m.histories i.quark.toNat ((m.history i.quark).push i) #[] },
    ?_, rfl, rfl, ?_⟩
  · unfold Memory.insert
    rw [holds.checkAlive]
    rfl
  · refine ⟨holds.alive, ?_, ?_, separate, ?_⟩
    · intro quark
      rw [List.filter_append, ← holds.history]
      unfold Memory.history
      by_cases some_ : 0 ≤ quark
      · simp only [if_pos some_, getD_setPadded]
        by_cases same : i.quark = quark
        · subst same
          simp [some_]
        · have other : quark.toNat ≠ i.quark.toNat := by omega
          simp [same, other]
      · have other : ¬ i.quark = quark := by omega
        simp [some_, other]
    · rw [List.pairwise_append]
      refine ⟨holds.ordered, List.pairwise_singleton _ _, ?_⟩
      intro j member other otherMember
      rw [List.mem_singleton.mp otherMember]
      exact last j member
    · intro j member
      rcases List.mem_append.mp member with old | new
      · exact Int.le_trans (holds.within j old) (Int.le_max_left _ _)
      · rw [List.mem_singleton.mp new]
        exact Int.le_max_right _ _

/-- A memory takes every interval of an attribute that ends last and shares no instant. -/
theorem insert
    {i : Interval}
    (holds : m.Holds taken)
    (nonneg : 0 ≤ i.quark)
    (late : m.stop ≤ i.stop)
    (separate : Interval.Separate (taken ++ [i])) :
    ∃ after,
      m.insert i = .ok after
        ∧ after.start = m.start
        ∧ after.stop = i.stop
        ∧ after.Holds (taken ++ [i]) := by
  have last : ∀ j ∈ taken, j.stop ≤ i.stop :=
    fun j member => Int.le_trans (holds.within j member) late
  rcases holds.insert_last nonneg last separate with ⟨after, took, start, stop, kept⟩
  exact ⟨after, took, start, stop.trans (Int.max_eq_right late), kept⟩

/-- A memory can be completed, and holds what it held. -/
theorem finish
    (holds : m.Holds taken)
    (stop : Int) :
    ∃ after,
      m.finish stop = .ok after
        ∧ after.start = m.start
        ∧ after.stop = max m.stop stop
        ∧ after.Holds taken := by
  refine ⟨{ m with stop := max m.stop stop }, ?_, rfl, rfl, ?_⟩
  · unfold Memory.finish
    rw [holds.checkAlive]
    rfl
  · refine ⟨holds.alive, holds.history, holds.ordered, holds.separate, ?_⟩
    intro i member
    exact Int.le_trans (holds.within i member) (Int.le_max_left _ _)

end Holds

end Chronicle.Memory
