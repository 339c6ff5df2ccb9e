import Chronicle.Proofs.Interval.Coverage
import Mathlib.Data.List.Induction

/-!
# Intervals that follow one another

Of each attribute the first interval starts where the history does, and every
other one right after its predecessor; the ends of all of them never go back.
No two intervals of one attribute then share an instant.
-/

namespace Chronicle.Interval

/-- Where the interval of `quark` that comes after those `taken` must start. -/
def followingStart
    (start : Int)
    (taken : List Interval)
    (quark : Int) :
    Int :=
  match taken.reverse.find? fun i => i.quark = quark with
  | some i => i.stop + 1
  | none => start

theorem followingStart_concat
    (start : Int)
    (taken : List Interval)
    (i : Interval)
    (quark : Int) :
    followingStart start (taken ++ [i]) quark
      = if i.quark = quark then i.stop + 1 else followingStart start taken quark := by
  unfold followingStart
  rw [List.reverse_append, List.reverse_singleton, List.singleton_append, List.find?_cons]
  by_cases same : i.quark = quark <;> simp [same]

/--
Intervals that follow one another: each starts where the last before it of its
attribute demands, and none ends before an earlier one.
-/
structure Consecutive
    (start : Int)
    (taken : List Interval) : Prop where
  starts : ∀ {before i}, before ++ [i] <+: taken →
    i.start = followingStart start before i.quark
  ends : taken.Pairwise fun i j => i.stop ≤ j.stop

theorem consecutive_nil
    (start : Int) :
    Consecutive start [] where
  starts begins := by
    have nothing := List.prefix_nil.mp begins
    cases (List.append_eq_nil_iff.mp nothing).2
  ends := List.Pairwise.nil

/-- The first of some intervals that follow one another follow one another. -/
theorem Consecutive.of_append
    {start : Int}
    {taken rest : List Interval}
    (consecutive : Consecutive start (taken ++ rest)) :
    Consecutive start taken where
  starts begins := consecutive.starts (begins.trans (List.prefix_append _ _))
  ends := (List.pairwise_append.mp consecutive.ends).1

/-- One more interval goes on if it starts where it must and ends last. -/
theorem consecutive_concat_iff
    {start : Int}
    {taken : List Interval}
    {i : Interval} :
    Consecutive start (taken ++ [i])
      ↔ Consecutive start taken
        ∧ i.start = followingStart start taken i.quark
        ∧ ∀ j ∈ taken, j.stop ≤ i.stop := by
  constructor
  · intro consecutive
    have ends := List.pairwise_append.mp consecutive.ends
    refine ⟨consecutive.of_append, consecutive.starts (List.prefix_refl _), ?_⟩
    intro j member
    exact ends.2.2 j member i (List.mem_singleton_self i)
  · rintro ⟨consecutive, next, last⟩
    constructor
    · intro before j begins
      rcases List.prefix_concat_iff.mp begins with whole | earlier
      · rcases List.append_inj' whole rfl with ⟨rfl, same⟩
        cases same
        exact next
      · exact consecutive.starts earlier
    · rw [List.pairwise_append]
      refine ⟨consecutive.ends, List.pairwise_singleton _ _, ?_⟩
      intro j member other otherMember
      rw [List.mem_singleton.mp otherMember]
      exact last j member

namespace Consecutive

variable {start : Int} {taken : List Interval}

/-- No attribute goes on before the start of the history. -/
theorem start_le_followingStart
    (consecutive : Consecutive start taken)
    (quark : Int) :
    start ≤ followingStart start taken quark := by
  induction taken using List.reverseRecOn with
  | nil => exact Int.le_refl start
  | append_singleton taken i ih =>
      rcases consecutive_concat_iff.mp consecutive with ⟨before, next, -⟩
      rw [followingStart_concat]
      by_cases same : i.quark = quark
      · subst same
        have begun := ih before
        have ordered := i.ordered
        rw [if_pos rfl]
        omega
      · rw [if_neg same]
        exact ih before

/-- No interval starts before the history does. -/
theorem start_le
    (consecutive : Consecutive start taken)
    {i : Interval}
    (member : i ∈ taken) :
    start ≤ i.start := by
  induction taken using List.reverseRecOn with
  | nil => cases member
  | append_singleton taken last ih =>
      rcases consecutive_concat_iff.mp consecutive with ⟨before, next, -⟩
      rcases List.mem_append.mp member with old | new
      · exact ih before old
      · rw [List.mem_singleton.mp new, next]
        exact before.start_le_followingStart last.quark

/-- Every interval is over before its attribute goes on. -/
theorem stop_lt_followingStart
    (consecutive : Consecutive start taken)
    {i : Interval}
    (member : i ∈ taken) :
    i.stop < followingStart start taken i.quark := by
  induction taken using List.reverseRecOn with
  | nil => cases member
  | append_singleton taken last ih =>
      rcases consecutive_concat_iff.mp consecutive with ⟨before, next, -⟩
      rw [followingStart_concat]
      rcases List.mem_append.mp member with old | new
      · by_cases same : last.quark = i.quark
        · have ended := ih before old
          have ordered := last.ordered
          rw [if_pos same]
          rw [← same] at ended
          omega
        · rw [if_neg same]
          exact ih before old
      · rw [List.mem_singleton.mp new, if_pos rfl]
        omega

/-- Intervals that follow one another share no instant within an attribute. -/
theorem separate
    (consecutive : Consecutive start taken) :
    Separate taken := by
  induction taken using List.reverseRecOn with
  | nil => exact List.Pairwise.nil
  | append_singleton taken i ih =>
      rcases consecutive_concat_iff.mp consecutive with ⟨before, next, -⟩
      unfold Separate
      rw [List.pairwise_append]
      refine ⟨ih before, List.pairwise_singleton _ _, ?_⟩
      intro j member other otherMember same
      rw [List.mem_singleton.mp otherMember] at same ⊢
      have ended := before.stop_lt_followingStart member
      rw [same, ← next] at ended
      exact Or.inl ended

end Consecutive

end Chronicle.Interval
