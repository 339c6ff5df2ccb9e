import Chronicle.Proofs.History.Scanning
import Mathlib.Data.Int.Range

/-!
# Counting

An attribute counts if all that is answered about it are counts.  How far it
grew over a range, with what happened at the first instant, is then a
difference of two counts.  Before the history nothing was counted; but a range
that ends before the history is taken to end at its first instant, and what
was counted there is part of it.
-/

namespace Chronicle

namespace Value

/-- Whether a value stands for a count. -/
def IsCount : Value → Prop
  | null => True
  | int _ => True
  | long _ => True
  | double _ => False
  | string _ => False

instance : DecidablePred IsCount
  | null => instDecidableTrue
  | int _ => instDecidableTrue
  | long _ => instDecidableTrue
  | double _ => instDecidableFalse
  | string _ => instDecidableFalse

/-- The count a value stands for, and zero if it stands for none. -/
def count : Value → Int
  | int n => n.toInt
  | long n => n.toInt
  | _ => 0

theorem asCount_of_isCount
    {value : Value}
    (counts : value.IsCount) :
    value.asCount = .ok value.count := by
  cases value with
  | double bits => exact counts.elim
  | string text => exact counts.elim
  | _ => rfl

end Value

/-- Whether something is so of what was answered, if there was an answer. -/
def Step.decidableAnswered
    {σ α : Type}
    (p : α → Prop)
    [DecidablePred p] :
    (result : EStateM.Result Fault (Placed σ) α) →
    Decidable (∀ a reached, result = .ok a reached → p a)
  | .ok a _ =>
    decidable_of_iff (p a)
      ⟨fun holds b _ same => by cases same; exact holds, fun all => all a _ rfl⟩
  | .error _ _ => isTrue fun _ _ same => by cases same

namespace History

/-! ## The count at an instant -/

/-- Whether all that is answered about an attribute are counts. -/
def HoldsCounts
    (s : Placed History)
    (quark : Int) :
    Prop :=
  ∀ t, s.subject.start ≤ t → t ≤ s.subject.currentEnd →
    ∀ i reached, intervalAt t quark s = .ok i reached → i.value.IsCount

instance
    (s : Placed History)
    (quark : Int) :
    Decidable (HoldsCounts s quark) :=
  have : DecidablePred fun t =>
      ∀ i reached, intervalAt t quark s = .ok i reached → i.value.IsCount :=
    fun t => Step.decidableAnswered (fun i => i.value.IsCount) (intervalAt t quark s)
  Int.decidableLELE _ _ _

/-- A history that answers by a ledger about an attribute whose count at each instant is given. -/
structure Counter
    (s : Placed History)
    (ledger : Ledger)
    (quark : Int)
    (count : Int → Int) : Prop where
  readable : Readable s ledger
  known : s.subject.names.Contains quark
  tells : ∀ t i, s.subject.start ≤ t → t ≤ s.subject.currentEnd →
    ledger.intervalAt s.subject.currentEnd t quark = .ok i → i.value.asCount = .ok (count t)

variable {s reached : Placed History} {ledger : Ledger} {quark : Int} {count : Int → Int}

/-- If all that is answered about an attribute are counts, there is one at each instant. -/
theorem Readable.exists_counter
    (readable : Readable s ledger)
    (known : s.subject.names.Contains quark)
    (counts : HoldsCounts s quark) :
    ∃ count, Counter s ledger quark count := by
  let count (t : Int) : Int :=
    match ledger.intervalAt s.subject.currentEnd t quark with
    | .ok i => i.value.count
    | .error _ => 0
  refine ⟨count, readable, known, fun t i begun until_ told => ?_⟩
  have same : count t = i.value.count := by
    show (match ledger.intervalAt s.subject.currentEnd t quark with
      | .ok i => i.value.count
      | .error _ => 0) = i.value.count
    rw [told]
  rcases readable.kept.intervalAt_of_told readable.inRange ⟨begun, until_⟩ told with
    ⟨reached, asks, -⟩
  rw [same]
  exact Value.asCount_of_isCount (counts t begun until_ i reached asks)

theorem Asked.counter
    (asked : Asked s reached ledger)
    (counter : Counter s ledger quark count) :
    Counter reached ledger quark count := by
  refine ⟨asked.readable counter.readable, ?_, ?_⟩
  · rw [asked.names]
    exact counter.known
  · rw [asked.start, asked.currentEnd]
    exact counter.tells

namespace Counter

/-- The count at a time is the one at the nearest instant. -/
theorem countAt
    (counter : Counter s ledger quark count)
    (t : Int) :
    ∃ reached,
      History.countAt quark t s = .ok (count (s.subject.clamp t)) reached
        ∧ Asked s reached ledger := by
  rcases counter.readable.nearest counter.known t with ⟨i, reached, asks, told, asked⟩
  refine ⟨reached, ?_, asked⟩
  unfold History.countAt
  rw [Step.subject_bind_apply]
  refine (Step.bind_of_ok asks).trans ?_
  rw [counter.tells _ i start_le_clamp (clamp_le counter.readable.begun) told]
  rfl

/-- The growth over a range is what was counted at its end less what was counted before it. -/
theorem growth
    (counter : Counter s ledger quark count)
    (a b : Int) :
    ∃ reached,
      History.growth quark a b s
        = .ok (count (s.subject.clamp b)
          - if a ≤ s.subject.start then 0 else count (s.subject.clamp (a - 1))) reached
        ∧ Asked s reached ledger := by
  unfold History.growth
  rw [Step.subject_bind_apply, counter.readable.kept.checkUsable, Step.ofExcept_ok,
    Step.pure_bind_apply]
  by_cases early : a ≤ s.subject.start
  · rcases counter.countAt b with ⟨reached, counts, asked⟩
    refine ⟨reached, ?_, asked⟩
    rw [if_pos early, if_pos early, Step.pure_bind_apply]
    exact Step.bind_of_ok counts
  · rcases counter.countAt (a - 1) with ⟨between, countsBefore, asked⟩
    rcases (asked.counter counter).countAt b with ⟨reached, counts, askedAgain⟩
    refine ⟨reached, ?_, asked.trans askedAgain⟩
    rw [asked.clamp] at counts
    rw [if_neg early, if_neg early]
    exact (Step.bind_of_ok countsBefore).trans (Step.bind_of_ok counts)

end Counter

/-! ## Splitting a range -/

/--
How far an attribute grew over two ranges, of which one begins where the other
ends, against the range that they make up.  What was counted at the start of
the history comes twice if the first of them ends before it, and all else
comes once.
-/
def SplitsAnywhere
    (s : Placed History)
    (quark : Int) :
    Prop :=
  ∀ a b c, ∃ first second whole origin r₁ r₂ r₃ r₄,
    growth quark a b s = .ok first r₁
      ∧ growth quark (b + 1) c r₁ = .ok second r₂
      ∧ growth quark a c r₂ = .ok whole r₃
      ∧ countAt quark s.subject.start r₃ = .ok origin r₄
      ∧ first + second = whole + if b < s.subject.start then origin else 0

theorem Counter.splitsAnywhere
    (counter : Counter s ledger quark count) :
    SplitsAnywhere s quark := by
  intro a b c
  rcases counter.growth a b with ⟨r₁, first, asked₁⟩
  rcases (asked₁.counter counter).growth (b + 1) c with ⟨r₂, second, asked⟩
  have asked₂ := asked₁.trans asked
  rcases (asked₂.counter counter).growth a c with ⟨r₃, whole, asked⟩
  have asked₃ := asked₂.trans asked
  rcases (asked₃.counter counter).countAt s.subject.start with ⟨r₄, origin, -⟩
  simp only [asked₁.start, asked₁.clamp] at second
  simp only [asked₂.start, asked₂.clamp] at whole
  rw [asked₃.clamp] at origin
  refine ⟨_, _, _, _, r₁, r₂, r₃, r₄, first, second, whole, origin, ?_⟩
  -- The count at `b` is what the second range begins from, unless it begins with the history.
  rw [Int.add_sub_cancel, clamp_of_le_start (Int.le_refl _)]
  by_cases early : b < s.subject.start
  · have begins : b + 1 ≤ s.subject.start := early
    rw [if_pos begins, if_pos early, clamp_of_le_start (Int.le_of_lt early)]
    omega
  · have continues : ¬ b + 1 ≤ s.subject.start := early
    rw [if_neg continues, if_neg early]
    omega

/--
However a history arose, an attribute that counts can be split anywhere: the
growth over a range is the growth up to an instant and the growth after it, and
the count at the start once more if that instant lies before the start.
-/
theorem splitsAnywhere_of_arises
    (arises : Arises s)
    (known : s.subject.names.Contains quark)
    (counts : HoldsCounts s quark) :
    SplitsAnywhere s quark := by
  rcases arises.exists_readable with ⟨ledger, readable⟩
  rcases readable.exists_counter known counts with ⟨count, counter⟩
  exact counter.splitsAnywhere

/-- Counts at the start of a history and later. -/
def strokes : List Call :=
  [.make (.intern (-1) ["a"]), .make (.increment 0 0), .make (.increment 5 0)]

theorem arises_from_strokes :
    ∃ made history,
      create "early" 0 .memory .empty = .ok (made, history)
        ∧ Arises ((Step.each Call.step strokes).reached ⟨made, history⟩)
        ∧ ((Step.each Call.step strokes).reached ⟨made, history⟩).subject.names.Contains 0
        ∧ HoldsCounts ((Step.each Call.step strokes).reached ⟨made, history⟩) 0 := by
  obtain ⟨made, history, created, inRange, known, counts⟩ : ∃ made history,
      create "early" 0 .memory .empty = .ok (made, history)
        ∧ (∀ before ∈ strokes.inits,
          ((Step.each Call.step before).reached ⟨made, history⟩).subject.InRange)
        ∧ ((Step.each Call.step strokes).reached ⟨made, history⟩).subject.names.Contains 0
        ∧ HoldsCounts ((Step.each Call.step strokes).reached ⟨made, history⟩) 0 :=
    ⟨_, _, rfl, by decide +kernel, by decide +kernel, by decide +kernel⟩
  exact ⟨made, history, created, .written (by decide) created (by decide) fun before begins =>
    inRange before ((List.mem_inits before strokes).mpr begins), known, counts⟩

theorem splitsAnywhere_after_strokes :
    ∃ made history,
      create "early" 0 .memory .empty = .ok (made, history)
        ∧ HoldsCounts ((Step.each Call.step strokes).reached ⟨made, history⟩) 0
        ∧ SplitsAnywhere ((Step.each Call.step strokes).reached ⟨made, history⟩) 0 := by
  rcases arises_from_strokes with ⟨made, history, created, written, known, counts⟩
  exact ⟨made, history, created, counts, splitsAnywhere_of_arises written known counts⟩

/-- The growth over a range, if there is one. -/
def growth?
    (quark a b : Int)
    (s : Placed History) :
    Option Int :=
  match growth quark a b s with
  | .ok grown _ => some grown
  | .error _ _ => none

/-- What was counted at the start is found again in a range that ends before the start. -/
theorem not_once_before_start :
    ∃ made history,
      create "early" 0 .memory .empty = .ok (made, history)
        ∧ Arises ((Step.each Call.step strokes).reached ⟨made, history⟩)
        ∧ HoldsCounts ((Step.each Call.step strokes).reached ⟨made, history⟩) 0
        ∧ growth? 0 (-5) (-1) ((Step.each Call.step strokes).reached ⟨made, history⟩) = some 1
        ∧ growth? 0 0 10 ((Step.each Call.step strokes).reached ⟨made, history⟩) = some 2
        ∧ growth? 0 (-5) 10 ((Step.each Call.step strokes).reached ⟨made, history⟩) = some 2 := by
  rcases arises_from_strokes with ⟨made, history, created, written, -, counts⟩
  refine ⟨made, history, created, written, counts, ?_⟩
  cases created
  decide +kernel

end History

end Chronicle
