import Chronicle.Proofs.Interval.Coverage

/-!
# Searching a node

The bisections in a node are searches through all that it holds.  Where the
intervals stand in the order of their ends, the search for an instant finds
what a look at every interval would find; where the children stand in the
order of their starts, the way down leads to the last child that starts in
time.
-/

namespace Chronicle

namespace Bisection

/-- What passes a test that cuts a list comes before what does not. -/
theorem filter_append_filter
    {α : Type}
    {items : List α}
    {test : α → Bool}
    (cut : items.Pairwise fun a b => test b = true → test a = true) :
    items.filter test ++ items.filter (fun a => !test a) = items := by
  induction items with
  | nil => rfl
  | cons a rest ih =>
      rw [List.pairwise_cons] at cut
      cases passes : test a with
      | true => simp [passes, ih cut.2]
      | false =>
          have fails : ∀ b ∈ rest, test b = false := by
            intro b member
            by_contra passed
            simp [cut.1 b member (by simpa using passed)] at passes
          have front : rest.filter test = [] := by
            simpa using fails
          have back : rest.filter (fun b => !test b) = rest := by
            simpa using fails
          simp [passes, front, back]

/-- A bisection counts all items that pass, if the test cuts the items at one place. -/
theorem prefixLength_eq
    {α : Type}
    {items : Array α}
    {test : α → Bool}
    (cut : items.toList.Pairwise fun a b => test b = true → test a = true) :
    prefixLength items test = (items.toList.filter test).length := by
  have whole := filter_append_filter cut
  have total : (items.toList.filter test).length
      + (items.toList.filter fun a => !test a).length = items.size := by
    rw [← List.length_append, whole, Array.length_toList]
  unfold prefixLength
  apply firstFailure_eq
  · intro index inside
    rw [← Array.getElem?_toList, ← whole, List.getElem?_append_left inside,
      List.getElem?_eq_getElem inside]
    have member := List.getElem_mem inside
    simpa using (List.mem_filter.mp member).2
  · intro index late inRange
    have inside : index - (items.toList.filter test).length
        < (items.toList.filter fun a => !test a).length := by omega
    rw [← Array.getElem?_toList, ← whole, List.getElem?_append_right late,
      List.getElem?_eq_getElem inside]
    have member := List.getElem_mem inside
    simpa using (List.mem_filter.mp member).2
  · exact Nat.zero_le _
  · omega

theorem drop_prefixLength
    {α : Type}
    {items : Array α}
    {test : α → Bool}
    (cut : items.toList.Pairwise fun a b => test b = true → test a = true) :
    items.toList.drop (prefixLength items test) = items.toList.filter fun a => !test a := by
  have whole := filter_append_filter cut
  rw [prefixLength_eq cut]
  conv => lhs; arg 2; rw [← whole]
  exact List.drop_left

end Bisection

namespace Tree.Node

/-- The intervals stand in the order of their ends. -/
def Sorted (node : Node) : Prop :=
  node.intervals.toList.Pairwise fun i j => i.stop ≤ j.stop

theorem candidates_eq
    {node : Node}
    (sorted : node.Sorted)
    (t : Int) :
    node.candidates t = node.intervals.toList.filter fun i => t ≤ i.stop := by
  unfold candidates firstCandidate
  rw [Bisection.drop_prefixLength]
  · apply List.filter_congr
    intro i _
    by_cases late : t ≤ i.stop
    · simp [late]
    · simp [late]
      omega
  · apply sorted.imp
    intro i j ordered early
    simp only [decide_eq_true_eq] at early ⊢
    omega

/-- The search for an instant is a look at every interval. -/
theorem find?_eq
    {node : Node}
    (sorted : node.Sorted)
    (t quark : Int) :
    node.find? t quark = Interval.covering? node.intervals.toList t quark := by
  unfold find? Interval.covering?
  rw [candidates_eq sorted, List.find?_filter]
  congr 1
  funext i
  apply decide_eq_decide.mpr
  simp only [decide_eq_true_eq, Interval.Covers]
  constructor
  · rintro ⟨ends, same, starts⟩
    exact ⟨same, starts, ends⟩
  · rintro ⟨same, starts, ends⟩
    exact ⟨ends, same, starts⟩

/-- Gathering at an instant puts every interval that covers it. -/
theorem collect_eq
    {node : Node}
    (sorted : node.Sorted)
    (t : Int)
    (slots : Slots) :
    node.collect t slots
      = (node.intervals.toList.filter fun i => i.Covers t).foldl Slots.put slots := by
  unfold collect
  rw [candidates_eq sorted, List.filter_filter]
  congr 1
  apply List.filter_congr
  intro i _
  exact (Bool.decide_and (i.start ≤ t) (t ≤ i.stop)).symm

/-- The number in the last link that starts no later than `t`. -/
def lastStarted?
    (links : List Link)
    (t : Int) :
    Option Nat :=
  ((links.filter fun link => link.start ≤ t).getLast?).map (·.seq)

/-- A link at the end is the last that starts in time, or it does not count. -/
theorem lastStarted?_concat
    (links : List Link)
    (link : Link)
    (t : Int) :
    lastStarted? (links ++ [link]) t
      = if link.start ≤ t then some link.seq else lastStarted? links t := by
  unfold lastStarted?
  rw [List.filter_append]
  by_cases started : link.start ≤ t
  · simp [started]
  · simp [started]

/-- The way down leads to the last child that starts in time. -/
theorem childAt?_eq
    {node : Node}
    (ordered : node.children.toList.Pairwise fun link other => link.start ≤ other.start)
    (t : Int) :
    node.childAt? t = lastStarted? node.children.toList t := by
  have cut : node.children.toList.Pairwise fun link other =>
      decide (other.start ≤ t) = true → decide (link.start ≤ t) = true := by
    apply ordered.imp
    intro link other before started
    simp only [decide_eq_true_eq] at started ⊢
    omega
  have whole := Bisection.filter_append_filter cut
  unfold childAt? lastStarted?
  rw [Bisection.prefixLength_eq cut, List.getLast?_eq_getElem?]
  simp only
  split
  · rename_i none
    rw [List.length_eq_zero_iff] at none
    rw [none]
    rfl
  · rename_i some_
    congr 1
    rw [← Array.getElem?_toList]
    conv => lhs; arg 1; rw [← whole]
    exact List.getElem?_append_left (by omega)

/-- What `node` tells about `t` is what a walk along all that it holds tells. -/
structure ReadsAlong
    (node : Node)
    (t : Int) :
    Prop where
  /-- The search finds the first interval of the attribute that covers the instant. -/
  finds : ∀ quark,
    node.find? t quark
      = node.intervals.toList.find? fun i => i.quark = quark ∧ i.start ≤ t ∧ t ≤ i.stop
  /-- A slot is left with the last interval of its attribute that covers the instant, or as is. -/
  collects : ∀ (slots : Slots) (place : Nat),
    (node.collect t slots)[place]? = slots[place]?.map fun slot =>
      ((node.intervals.toList.filter fun i =>
        i.quark = (place : Int) ∧ i.start ≤ t ∧ t ≤ i.stop).getLast?).or slot
  /-- The way down leads to the last child that starts no later than the instant. -/
  descends : (node.children.toList.Pairwise fun link other => link.start < other.start) →
    node.childAt? t
      = ((node.children.toList.filter fun link => link.start ≤ t).getLast?).map (·.seq)
  /-- There is no way down if all children start later. -/
  ends : (node.children.toList.Pairwise fun link other => link.start < other.start) →
    (node.childAt? t = none ↔ ∀ link ∈ node.children.toList, t < link.start)

/-- A slot holds the last interval of its attribute that covers the instant, or what it held. -/
theorem getElem?_collect
    {node : Node}
    (sorted : node.Sorted)
    (t : Int)
    (slots : Slots)
    (place : Nat) :
    (node.collect t slots)[place]? = slots[place]?.map fun slot =>
      ((node.intervals.toList.filter fun i =>
        i.quark = (place : Int) ∧ i.Covers t).getLast?).or slot := by
  rw [collect_eq sorted, Slots.getElem?_foldl_put, List.filter_filter]
  congr 1
  funext slot
  congr 2
  apply List.filter_congr
  intro i _
  exact (Bool.decide_and (i.quark = (place : Int)) (i.Covers t)).symm

/-- No child starts in time exactly if all start later. -/
theorem lastStarted?_eq_none_iff
    {links : List Link}
    {t : Int} :
    lastStarted? links t = none ↔ ∀ link ∈ links, t < link.start := by
  unfold lastStarted?
  rw [Option.map_eq_none_iff, List.getLast?_eq_none_iff, List.filter_eq_nil_iff]
  simp only [decide_eq_true_eq, Int.not_le]

/-- Where the intervals stand in the order of their ends, bisection misses nothing. -/
theorem readsAlong_of_sorted
    {node : Node}
    (sorted : node.intervals.toList.Pairwise fun i j => i.stop ≤ j.stop)
    (t : Int) :
    node.ReadsAlong t where
  finds quark := find?_eq sorted t quark
  collects slots place := getElem?_collect sorted t slots place
  descends ordered := childAt?_eq (ordered.imp Int.le_of_lt) t
  ends ordered := by
    rw [childAt?_eq (ordered.imp Int.le_of_lt) t]
    exact lastStarted?_eq_none_iff

/-- An inner node in which intervals of three attributes end at one instant. -/
def crossing : Node where
  kind := .core
  seq := 3
  parent := none
  start := 0
  stop := 20
  closed := true
  intervals := #[
    ⟨0, 3, 1, .int 7, by decide⟩,
    ⟨2, 5, 0, .null, by decide⟩,
    ⟨4, 5, 1, .int 8, by decide⟩,
    ⟨5, 5, 2, .int 9, by decide⟩,
    ⟨8, 11, 0, .int 5, by decide⟩,
    ⟨1, 12, 2, .int 6, by decide⟩]
  children := #[⟨0, 0⟩, ⟨2, 6⟩, ⟨5, 11⟩]

/-- At the common end, the first interval of an attribute is found and the last is gathered. -/
theorem readsAlong_crossing :
    (crossing.intervals.toList.Pairwise fun i j => i.stop ≤ j.stop)
      ∧ (crossing.find? 5 2).map (·.value) = some (.int 9)
      ∧ (crossing.collect 5 #[none, none, none])[2]?.map (Option.map (·.value))
        = some (some (.int 6))
      ∧ crossing.childAt? 5 = some 0
      ∧ crossing.childAt? (-1) = none := by
  have sorted : crossing.intervals.toList.Pairwise fun i j => i.stop ≤ j.stop := by decide
  have ordered : crossing.children.toList.Pairwise fun link other => link.start < other.start := by
    decide
  have reads := readsAlong_of_sorted sorted 5
  have before := readsAlong_of_sorted sorted (-1)
  refine ⟨sorted, ?_, ?_, ?_, ?_⟩
  · rw [reads.finds]
    decide
  · rw [reads.collects]
    decide
  · rw [reads.descends ordered]
    decide
  · rw [before.ends ordered]
    decide

end Tree.Node

end Chronicle
