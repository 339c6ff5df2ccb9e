import Chronicle.Tree.Node
import Mathlib.Data.List.Pairwise

/-!
# Intervals as a flat collection

A list of intervals answers a question about an instant by itself: the
interval of the attribute that covers the instant, if there is one.  Where no
two intervals of one attribute share an instant, the answer depends neither on
the order of the list nor on the way in which it was found.  This is what all
ways of keeping intervals are measured by.
-/

namespace Chronicle

namespace Interval

/-- No two intervals of one attribute share an instant. -/
def Separate (taken : List Interval) : Prop :=
  taken.Pairwise fun i j => i.quark = j.quark → i.stop < j.start ∨ j.stop < i.start

/-- The interval of `quark` among `taken` that covers `t`, if there is one. -/
def covering?
    (taken : List Interval)
    (t quark : Int) :
    Option Interval :=
  taken.find? fun i => i.quark = quark ∧ i.Covers t

/-- Of one attribute, two intervals are the same or have no instant in common. -/
theorem Separate.eq_or_apart
    {taken : List Interval}
    {i j : Interval}
    (separate : Separate taken)
    (iMember : i ∈ taken)
    (jMember : j ∈ taken)
    (sameQuark : i.quark = j.quark) :
    i = j ∨ i.stop < j.start ∨ j.stop < i.start := by
  by_cases same : i = j
  · exact Or.inl same
  · have symmetric : Std.Symm fun i j : Interval =>
        i.quark = j.quark → i.stop < j.start ∨ j.stop < i.start :=
      ⟨fun i j apart same => (apart same.symm).symm⟩
    exact Or.inr (separate.forall iMember jMember same sameQuark)

/-- Two intervals of one attribute that cover the same instant are one. -/
theorem Separate.eq_of_covers
    {taken : List Interval}
    {i j : Interval}
    {t : Int}
    (separate : Separate taken)
    (iMember : i ∈ taken)
    (jMember : j ∈ taken)
    (sameQuark : i.quark = j.quark)
    (iCovers : i.Covers t)
    (jCovers : j.Covers t) :
    i = j := by
  rcases iCovers with ⟨iStart, iStop⟩
  rcases jCovers with ⟨jStart, jStop⟩
  rcases separate.eq_or_apart iMember jMember sameQuark with same | before | after
  · exact same
  · omega
  · omega

theorem mem_of_covering?
    {taken : List Interval}
    {t quark : Int}
    {i : Interval}
    (found : covering? taken t quark = some i) :
    i ∈ taken ∧ i.quark = quark ∧ i.Covers t := by
  have test := List.find?_some found
  exact ⟨List.mem_of_find?_eq_some found, of_decide_eq_true test⟩

/-- What answers is exactly what covers. -/
theorem covering?_eq_some_iff
    {taken : List Interval}
    (separate : Separate taken)
    {t quark : Int}
    {i : Interval} :
    covering? taken t quark = some i ↔ i ∈ taken ∧ i.quark = quark ∧ i.Covers t := by
  constructor
  · exact mem_of_covering?
  · rintro ⟨member, sameQuark, covers⟩
    cases found : covering? taken t quark with
    | none =>
        have none := List.find?_eq_none.mp found i member
        exact absurd (decide_eq_true ⟨sameQuark, covers⟩) none
    | some j =>
        rcases mem_of_covering? found with ⟨jMember, jQuark, jCovers⟩
        rw [separate.eq_of_covers member jMember (sameQuark.trans jQuark.symm) covers jCovers]

theorem covering?_eq_none_iff
    {taken : List Interval}
    {t quark : Int} :
    covering? taken t quark = none ↔ ∀ i ∈ taken, i.quark = quark → ¬ i.Covers t := by
  unfold covering?
  rw [List.find?_eq_none]
  constructor
  · intro none i member sameQuark covers
    exact none i member (decide_eq_true ⟨sameQuark, covers⟩)
  · intro none i member test
    have both := of_decide_eq_true test
    exact none i member both.1 both.2

/-- An answer is known by the intervals it can be. -/
theorem eq_covering?
    {taken : List Interval}
    {t quark : Int}
    {answer : Option Interval}
    (separate : Separate taken)
    (exact_ : ∀ i, answer = some i ↔ i ∈ taken ∧ i.quark = quark ∧ i.Covers t) :
    answer = covering? taken t quark := by
  apply Option.ext
  intro i
  rw [exact_ i, covering?_eq_some_iff separate]

theorem Separate.perm
    {taken others : List Interval}
    (separate : Separate taken)
    (perm : taken.Perm others) :
    Separate others := by
  refine (perm.pairwise_iff ?_).mp separate
  intro i j apart same
  exact (apart same.symm).symm

/-- Two lists that differ in the order of last intervals, of different attributes and one end. -/
inductive Swapped : List Interval → List Interval → Prop
  | mk
      (front first second : List Interval)
      (apart : ∀ i ∈ first, ∀ j ∈ second, i.quark ≠ j.quark ∧ i.stop = j.stop) :
      Swapped (front ++ (first ++ second)) (front ++ (second ++ first))

namespace Swapped

variable {taken others : List Interval}

theorem refl
    (taken : List Interval) :
    Swapped taken taken := by
  have same := Swapped.mk taken [] [] (fun i member => by cases member)
  rwa [List.append_nil, List.append_nil] at same

theorem perm
    (swapped : Swapped taken others) :
    taken.Perm others := by
  rcases swapped with ⟨front, first, second, -⟩
  exact List.perm_append_comm.append_left front

/-- The intervals of one attribute stay in their order. -/
theorem filter_eq
    (swapped : Swapped taken others)
    (quark : Int) :
    others.filter (fun i => i.quark = quark) = taken.filter fun i => i.quark = quark := by
  rcases swapped with ⟨front, first, second, apart⟩
  have none : first.filter (fun i => i.quark = quark) = []
      ∨ second.filter (fun i => i.quark = quark) = [] := by
    by_cases some_ : ∃ i ∈ first, i.quark = quark
    · rcases some_ with ⟨i, member, own⟩
      refine Or.inr (List.filter_eq_nil_iff.mpr fun j other same => ?_)
      exact (apart i member j other).1 (own.trans (of_decide_eq_true same).symm)
    · refine Or.inl (List.filter_eq_nil_iff.mpr fun i member same => ?_)
      exact some_ ⟨i, member, of_decide_eq_true same⟩
  rcases none with none | none
  · simp only [List.filter_append, none, List.nil_append, List.append_nil]
  · simp only [List.filter_append, none, List.nil_append, List.append_nil]

/-- Intervals in the order of their ends stay so. -/
theorem ordered
    (swapped : Swapped taken others)
    (ordered : taken.Pairwise fun i j => i.stop ≤ j.stop) :
    others.Pairwise fun i j => i.stop ≤ j.stop := by
  rcases swapped with ⟨front, first, second, apart⟩
  rw [List.pairwise_append, List.pairwise_append] at ordered ⊢
  rcases ordered with ⟨early, ⟨one, two, -⟩, later⟩
  refine ⟨early, ⟨two, one, fun j other i member => ?_⟩, fun i member j last => ?_⟩
  · exact Int.le_of_eq (apart i member j other).2.symm
  · exact later i member j (List.mem_append.mpr (List.mem_append.mp last).symm)

end Swapped

/-- The order of a list makes no difference to its answers. -/
theorem covering?_perm
    {taken others : List Interval}
    (separate : Separate taken)
    (perm : taken.Perm others)
    (t quark : Int) :
    covering? others t quark = covering? taken t quark := by
  apply eq_covering? separate
  intro i
  rw [covering?_eq_some_iff (separate.perm perm), perm.mem_iff]

/-- Only what covers the instant makes a difference to the answers about it. -/
theorem covering?_of_sublist
    {taken fewer : List Interval}
    {t : Int}
    (separate : Separate taken)
    (sublist : fewer.Sublist taken)
    (complete : ∀ i ∈ taken, i.Covers t → i ∈ fewer)
    (quark : Int) :
    covering? fewer t quark = covering? taken t quark := by
  apply eq_covering? separate
  intro i
  rw [covering?_eq_some_iff (separate.sublist sublist)]
  constructor
  · rintro ⟨member, same, covers⟩
    exact ⟨sublist.subset member, same, covers⟩
  · rintro ⟨member, same, covers⟩
    exact ⟨complete i member covers, same, covers⟩

end Interval

namespace Tree.Slots

/-- The slots after every interval among `taken` that covers `t` was put into its own. -/
def fill
    (slots : Slots)
    (taken : List Interval)
    (t : Int) :
    Slots :=
  slots.mapIdx fun quark slot =>
    match Interval.covering? taken t quark with
    | some i => some i
    | none => slot

theorem getElem?_put
    (slots : Slots)
    (i : Interval)
    (place : Nat) :
    (slots.put i)[place]? = slots[place]?.map
      fun slot => if i.quark = (place : Int) then some i else slot := by
  unfold put
  by_cases nonneg : 0 ≤ i.quark
  · rw [if_pos nonneg, Array.getElem?_setIfInBounds]
    by_cases same : i.quark.toNat = place
    · have quark : i.quark = (place : Int) := by omega
      rw [if_pos same, same]
      by_cases inside : place < slots.size
      · simp only [inside, Array.getElem?_eq_getElem, Option.map_some, if_pos quark, if_true]
      · rw [if_neg inside, Array.getElem?_eq_none (Nat.le_of_not_lt inside)]
        rfl
    · have quark : ¬ i.quark = (place : Int) := by omega
      simp [same, quark]
  · have quark : ¬ i.quark = (place : Int) := by omega
    simp [nonneg, quark]

/-- Of several intervals of one attribute, the last is left in the slot. -/
theorem getElem?_foldl_put
    (items : List Interval)
    (slots : Slots)
    (place : Nat) :
    (items.foldl put slots)[place]? = slots[place]?.map fun slot =>
      ((items.filter fun i => i.quark = (place : Int)).getLast?).or slot := by
  induction items generalizing slots with
  | nil => simp
  | cons i rest ih =>
      rw [List.foldl_cons, ih, getElem?_put, Option.map_map, List.filter_cons]
      congr 1
      funext slot
      by_cases same : i.quark = (place : Int)
      · simp [same, List.getLast?_cons]
      · simp [same]

/-- Of several intervals of different attributes, each ends up in its own slot. -/
theorem getElem?_foldl_put_of_distinct
    {items : List Interval}
    (distinct : items.Pairwise fun i j => i.quark ≠ j.quark)
    (slots : Slots)
    (place : Nat) :
    (items.foldl put slots)[place]? = slots[place]?.map fun slot =>
      match items.find? fun i => i.quark = (place : Int) with
      | some i => some i
      | none => slot := by
  have alone : (items.filter fun i => i.quark = (place : Int)).getLast?
      = items.find? fun i => i.quark = (place : Int) := by
    induction items with
    | nil => rfl
    | cons i rest ih =>
        rw [List.pairwise_cons] at distinct
        by_cases same : i.quark = (place : Int)
        · have others : rest.filter (fun j => j.quark = (place : Int)) = [] := by
            rw [List.filter_eq_nil_iff]
            intro j member test
            exact distinct.1 j member (same.trans (of_decide_eq_true test).symm)
          simp [same, others]
        · simp [same, ih distinct.2]
  rw [getElem?_foldl_put, alone]
  congr 1
  funext slot
  cases items.find? fun i => i.quark = (place : Int) with
  | none => rfl
  | some i => rfl

/-- Putting one by one what covers an instant fills the slots at it. -/
theorem foldl_put_covering
    {taken : List Interval}
    (separate : Interval.Separate taken)
    (slots : Slots)
    (t : Int) :
    (taken.filter fun i => i.Covers t).foldl put slots = slots.fill taken t := by
  have distinct : (taken.filter fun i => decide (i.Covers t)).Pairwise
      fun i j => i.quark ≠ j.quark := by
    apply (separate.sublist List.filter_sublist).imp_of_mem
    intro i j iMember jMember apart same
    have iCovers := of_decide_eq_true (List.mem_filter.mp iMember).2
    have jCovers := of_decide_eq_true (List.mem_filter.mp jMember).2
    rcases iCovers with ⟨iStart, iStop⟩
    rcases jCovers with ⟨jStart, jStop⟩
    have := apart same
    omega
  apply Array.ext_getElem?
  intro place
  have same : (taken.filter fun i => decide (i.Covers t)).find?
      (fun i => i.quark = (place : Int)) = Interval.covering? taken t place := by
    unfold Interval.covering?
    rw [List.find?_filter]
    congr 1
    funext i
    apply decide_eq_decide.mpr
    simp only [decide_eq_true_eq]
    exact And.comm
  rw [getElem?_foldl_put_of_distinct distinct, same, fill, Array.getElem?_mapIdx]

/-- Slots are filled by the answers alone. -/
theorem fill_congr
    {taken others : List Interval}
    {t : Int}
    (same : ∀ quark, Interval.covering? taken t quark = Interval.covering? others t quark)
    (slots : Slots) :
    slots.fill taken t = slots.fill others t := by
  unfold fill
  simp only [same]

end Tree.Slots

end Chronicle
