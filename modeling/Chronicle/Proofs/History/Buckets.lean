import Chronicle.Proofs.History.Counting
import Chronicle.Proofs.History.Noting
import Mathlib.Algebra.BigOperators.Group.List.Basic
import Mathlib.Algebra.Ring.Int.Defs

/-!
# Buckets

A histogram goes from border to border.  Each one lies one width behind the
last, but for the last of all, which is the end of the range, so that the last
bucket has what is left over.  What is in a bucket is how far the count grew
between its borders, and the buckets add up to the growth over the range.
-/

namespace Chronicle

namespace Signal

variable {signal : Signal} {question : Nat}

theorem check_of_quiet
    (quiet : signal question = false) :
    signal.check question = .ok () := by
  unfold check
  rw [quiet, if_neg Bool.false_ne_true]

theorem check_of_raised
    (raised : signal question = true) :
    signal.check question = .error .cancelled := by
  unfold check
  rw [raised, if_pos rfl]

theorem quiet_of_check
    {done : Unit}
    (passed : signal.check question = .ok done) :
    signal question = false := by
  cases raised : signal question with
  | false => rfl
  | true => cases (check_of_raised raised).symm.trans passed

end Signal

namespace History

/-! ## Borders -/

/-- Where the bucket of the given number begins, and the one before it ends. -/
def border
    (start stop : Int)
    (buckets place : Nat) :
    Int :=
  if place < buckets then start + place * ((stop - start) / buckets) else stop

section Border

variable {start stop : Int} {buckets place later : Nat}

theorem border_zero
    (some_ : 0 < buckets) :
    border start stop buckets 0 = start := by
  unfold border
  rw [if_pos some_, Int.natCast_zero, Int.zero_mul, Int.add_zero]

theorem border_last : border start stop buckets buckets = stop :=
  if_neg (Nat.lt_irrefl buckets)

theorem width_nonneg
    (ordered : start ≤ stop)
    (buckets : Nat) :
    0 ≤ (stop - start) / (buckets : Int) :=
  Int.ediv_nonneg (Int.sub_nonneg_of_le ordered) (Int.natCast_nonneg buckets)

/-- No border lies beyond the end, as all widths together fit into the range. -/
theorem border_le_stop
    (ordered : start ≤ stop) :
    border start stop buckets place ≤ stop := by
  unfold border
  split
  · rename_i inside
    have some_ : (buckets : Int) ≠ 0 := by omega
    have fit : (buckets : Int) * ((stop - start) / buckets) ≤ stop - start :=
      Int.mul_ediv_self_le some_
    have part : (place : Int) * ((stop - start) / buckets)
        ≤ buckets * ((stop - start) / buckets) :=
      Int.mul_le_mul_of_nonneg_right (by omega) (width_nonneg ordered buckets)
    omega
  · exact Int.le_refl stop

/-- No border lies before an earlier one. -/
theorem border_mono
    (ordered : start ≤ stop)
    (le : place ≤ later) :
    border start stop buckets place ≤ border start stop buckets later := by
  by_cases inside : later < buckets
  · unfold border
    rw [if_pos inside, if_pos (Nat.lt_of_le_of_lt le inside)]
    exact Int.add_le_add_left
      (Int.mul_le_mul_of_nonneg_right (Int.ofNat_le.mpr le) (width_nonneg ordered buckets)) start
  · have last : border start stop buckets later = stop := if_neg inside
    rw [last]
    exact border_le_stop ordered

end Border

/-! ## Filling buckets -/

/-- How far a total grows at each place, from one to the next. -/
def differences
    (total : Nat → Int)
    (count : Nat) :
    List Int :=
  (List.range count).map fun place => total (place + 1) - total place

theorem differences_succ
    (total : Nat → Int)
    (count : Nat) :
    differences total (count + 1)
      = (total 1 - total 0) :: differences (fun place => total (place + 1)) count := by
  unfold differences
  rw [List.range_succ_eq_map, List.map_cons, List.map_map]
  rfl

theorem length_differences
    (total : Nat → Int)
    (count : Nat) :
    (differences total count).length = count := by
  unfold differences
  rw [List.length_map, List.length_range]

theorem getElem?_differences
    {total : Nat → Int}
    {count place : Nat}
    (inside : place < count) :
    (differences total count)[place]? = some (total (place + 1) - total place) := by
  unfold differences
  rw [List.getElem?_map, List.getElem?_range inside]
  rfl

/-- The differences add up to that of the outermost. -/
theorem sum_differences
    (total : Nat → Int)
    (count : Nat) :
    (differences total count).sum = total count - total 0 := by
  unfold differences
  induction count with
  | zero => exact (Int.sub_self _).symm
  | succ count ih =>
      rw [List.sum_range_succ, ih]
      omega

/-- Where a total does not fall, no difference is negative. -/
theorem nonneg_of_mem_differences
    {total : Nat → Int}
    {count : Nat}
    {grown : Int}
    (rises : ∀ place < count, total place ≤ total (place + 1))
    (member : grown ∈ differences total count) :
    0 ≤ grown := by
  rcases List.mem_map.mp member with ⟨place, listed, rfl⟩
  exact Int.sub_nonneg_of_le (rises place (List.mem_range.mp listed))

namespace Counter

variable {s : Placed History} {ledger : Ledger} {quark : Int} {count : Int → Int}

/-- If it is not called off, filling goes through the differences of the counts at the borders. -/
theorem fillBuckets
    {width stop start previous : Int}
    {signal : Signal}
    {question left : Nat}
    (counter : Counter s ledger quark count)
    (total : Nat → Int)
    (first : total 0 = previous)
    (between : ∀ place < left,
      total (place + 1) = count (s.subject.clamp (start + (place + 1) * width)))
    (last : total (left + 1) = count (s.subject.clamp stop))
    (quiet : ∀ asked, question ≤ asked → asked ≤ question + left → signal asked = false) :
    ∃ reached,
      History.fillBuckets quark width stop signal question left start previous s
          = .ok (differences total (left + 1)) reached
        ∧ Asked s reached ledger := by
  have goesOn := Signal.check_of_quiet (quiet question (Nat.le_refl _) (Nat.le_add_right _ _))
  induction left generalizing s question start previous total with
  | zero =>
      rcases counter.countAt stop with ⟨reached, counts, asked⟩
      refine ⟨reached, ?_, asked⟩
      unfold History.fillBuckets
      rw [goesOn, Step.ofExcept_ok, Step.pure_bind_apply]
      refine (Step.bind_of_ok counts).trans ?_
      rw [← last, ← first]
      rfl
  | succ left ih =>
      rcases counter.countAt (start + width) with ⟨reached, counts, asked⟩
      have here : total 1 = count (s.subject.clamp (start + width)) := by
        have here := between 0 (Nat.succ_pos left)
        rwa [Int.natCast_zero, Int.zero_add, Int.one_mul] at here
      -- The rest is about the totals from the next border on.
      have later : ∀ place < left, total (place + 1 + 1)
          = count (reached.subject.clamp (start + width + (place + 1) * width)) := by
        intro place inside
        have border : start + ((place + 1 : Nat) + 1) * width
            = start + width + (place + 1) * width := by
          rw [Int.natCast_add, Int.natCast_one, Int.add_mul _ 1, Int.one_mul]
          omega
        rw [between (place + 1) (by omega), asked.clamp, border]
      have end_ : total (left + 1 + 1) = count (reached.subject.clamp stop) := by
        rw [last, asked.clamp]
      have silent : ∀ asked, question + 1 ≤ asked → asked ≤ question + 1 + left →
          signal asked = false :=
        fun asked after before => quiet asked (by omega) (by omega)
      rcases ih (asked.counter counter) (fun place => total (place + 1)) here later end_ silent
        (Signal.check_of_quiet (silent _ (Nat.le_refl _) (Nat.le_add_right _ _))) with
        ⟨after, fills, askedLater⟩
      refine ⟨after, ?_, asked.trans askedLater⟩
      unfold History.fillBuckets
      rw [goesOn, Step.ofExcept_ok, Step.pure_bind_apply]
      refine (Step.bind_of_ok counts).trans ((Step.bind_of_ok fills).trans ?_)
      rw [differences_succ total, ← here, ← first]
      rfl

/-- Filling is called off as soon as it asks a question that is told so. -/
theorem fillBuckets_of_calledOff
    {width stop start previous : Int}
    {signal : Signal}
    {question left : Nat}
    (counter : Counter s ledger quark count)
    (calledOff : ∃ asked, question ≤ asked ∧ asked ≤ question + left ∧ signal asked = true) :
    ∃ reached,
      History.fillBuckets quark width stop signal question left start previous s
        = .error .cancelled reached := by
  induction left generalizing s question start previous with
  | zero =>
      rcases calledOff with ⟨asked, after, before, raised⟩
      obtain rfl : asked = question := by omega
      refine ⟨s, ?_⟩
      unfold History.fillBuckets
      rw [Signal.check_of_raised raised]
      rfl
  | succ left ih =>
      unfold History.fillBuckets
      cases raised : signal question with
      | true =>
          refine ⟨s, ?_⟩
          rw [Signal.check_of_raised raised]
          rfl
      | false =>
          rcases calledOff with ⟨asked, after, before, raisedThen⟩
          have later : question ≠ asked := by
            rintro rfl
            cases raised.symm.trans raisedThen
          rcases counter.countAt (start + width) with ⟨between, counts, leaves⟩
          have rest : ∃ asked, question + 1 ≤ asked ∧ asked ≤ question + 1 + left
              ∧ signal asked = true := ⟨asked, by omega, by omega, raisedThen⟩
          rcases ih (leaves.counter counter) rest with ⟨reached, fails⟩
          refine ⟨reached, ?_⟩
          rw [Signal.check_of_quiet raised, Step.ofExcept_ok, Step.pure_bind_apply]
          exact (Step.bind_of_ok counts).trans (Step.bind_of_error fails)

end Counter

/-- Filling gives one number for each bucket or none at all, and none once it was called off. -/
theorem length_of_fillBuckets
    {quark width stop start previous : Int}
    {signal : Signal}
    {question left : Nat}
    {s reached : Placed History}
    {found : List Int}
    (done : fillBuckets quark width stop signal question left start previous s
      = .ok found reached) :
    found.length = left + 1
      ∧ ∀ asked, question ≤ asked → asked ≤ question + left → signal asked = false := by
  induction left generalizing s question start previous found with
  | zero =>
      unfold fillBuckets at done
      rcases Step.ofExcept_bind_eq_ok done with ⟨_, passed, rest⟩
      rcases Step.bind_eq_ok_iff.mp rest with ⟨_, _, -, ends⟩
      cases ends
      refine ⟨rfl, fun asked after before => ?_⟩
      obtain rfl : asked = question := by omega
      exact Signal.quiet_of_check passed
  | succ left ih =>
      unfold fillBuckets at done
      rcases Step.ofExcept_bind_eq_ok done with ⟨_, passed, rest⟩
      rcases Step.bind_eq_ok_iff.mp rest with ⟨_, _, -, more⟩
      rcases Step.bind_eq_ok_iff.mp more with ⟨later, _, fills, ends⟩
      cases ends
      rcases ih fills with ⟨length, quiet⟩
      refine ⟨congrArg (· + 1) length, fun asked after before => ?_⟩
      rcases Nat.eq_or_lt_of_le after with rfl | beyond
      · exact Signal.quiet_of_check passed
      · exact quiet asked beyond (by omega)

/-! ## The histogram -/

/-- What the buckets of a histogram hold, where the count at each time is given. -/
structure Filled
    (history : History)
    (count : Int → Int)
    (start stop : Int)
    (buckets : Nat)
    (found : List Int) : Prop where
  length : found.length = buckets
  each : ∀ place < buckets, found[place]?
    = some (count (border start stop buckets (place + 1)) - count (border start stop buckets place))
  sum : found.sum = count stop - count start
  /-- A count that never falls while the history lasts grows in every bucket. -/
  nonneg :
    (∀ t later, history.start ≤ t → t ≤ later → later ≤ history.currentEnd →
      count t ≤ count later) → ∀ grown ∈ found, 0 ≤ grown

/-- How a histogram of an attribute comes out. -/
structure HistogramLaw
    (s : Placed History)
    (quark start stop : Int)
    (buckets : Nat)
    (signal : Signal)
    (count : Int → Int) : Prop where
  counts : ∀ t, ∃ reached, countAt quark t s = .ok (count t) reached
  fills : buckets ≤ mostBuckets → (∀ question < buckets, signal question = false) →
    ∃ found reached,
      histogram quark start stop buckets signal s = .ok found reached
        ∧ Filled s.subject count start stop buckets found
  calledOff : buckets ≤ mostBuckets → (∃ question < buckets, signal question = true) →
    ∃ reached, histogram quark start stop buckets signal s = .error .cancelled reached
  /-- Buckets that there are no addresses for are not made, called off or not. -/
  breaksOff : mostBuckets < buckets →
    ∃ reached, histogram quark start stop buckets signal s = .error (.oversized buckets) reached

section Histogram

variable {s : Placed History} {ledger : Ledger} {quark start stop : Int} {count : Int → Int}
  {buckets : Nat} {signal : Signal}

/-- The differences of the counts at the borders are what the buckets should hold. -/
theorem Readable.filled
    (readable : Readable s ledger)
    (ordered : start ≤ stop)
    (some_ : 0 < buckets) :
    Filled s.subject (fun t => count (s.subject.clamp t)) start stop buckets
      (differences (fun place => count (s.subject.clamp (border start stop buckets place)))
        buckets) := by
  constructor
  · exact length_differences _ buckets
  · exact fun place inside => getElem?_differences inside
  · rw [sum_differences, border_last, border_zero some_]
  · intro rises grown member
    refine nonneg_of_mem_differences (fun place _ => ?_) member
    have level := rises (s.subject.clamp (border start stop buckets place))
      (s.subject.clamp (border start stop buckets (place + 1))) start_le_clamp
      (clamp_mono (border_mono ordered (Nat.le_succ place))) (clamp_le readable.begun)
    rwa [clamp_of_inside start_le_clamp (clamp_le readable.begun),
      clamp_of_inside start_le_clamp (clamp_le readable.begun)] at level

/--
A histogram with buckets over a range that is not too wide counts up to the
first border, and then fills the buckets if there is room for them.
-/
theorem histogram_of_ordered
    (quark : Int)
    (signal : Signal)
    (usable : s.subject.checkUsable = .ok ())
    (ordered : start ≤ stop)
    (narrow : stop - start ≤ latestInstant)
    (some_ : 0 < buckets) :
    histogram quark start stop buckets signal s
      = (countAt quark start >>= fun first =>
          if mostBuckets < buckets then throw (.oversized buckets)
          else fillBuckets quark ((stop - start) / buckets) stop signal 0 (buckets - 1) start first)
        s := by
  have sound : ¬ (buckets = 0 ∨ stop < start) := by omega
  unfold histogram
  rw [Step.subject_bind_apply, usable, Step.ofExcept_ok, Step.pure_bind_apply]
  simp only [if_neg sound, if_neg (Int.not_lt.mpr narrow)]
  rfl

/-- If it is not called off, a histogram goes through the counts at all borders. -/
theorem Counter.histogram
    (counter : Counter s ledger quark count)
    (ordered : start ≤ stop)
    (narrow : stop - start ≤ latestInstant)
    (some_ : 0 < buckets)
    (room : buckets ≤ mostBuckets)
    (quiet : ∀ question < buckets, signal question = false) :
    ∃ reached, History.histogram quark start stop buckets signal s
      = .ok (differences (fun place => count (s.subject.clamp (border start stop buckets place)))
        buckets) reached := by
  obtain ⟨left, rfl⟩ : ∃ left, buckets = left + 1 := ⟨buckets - 1, by omega⟩
  rcases counter.countAt start with ⟨between, counts, asked⟩
  let total (place : Nat) : Int := count (s.subject.clamp (border start stop (left + 1) place))
  have first : total 0 = count (s.subject.clamp start) := by
    show count (s.subject.clamp (border start stop (left + 1) 0)) = _
    rw [border_zero some_]
  have inner : ∀ place < left, total (place + 1) = count (between.subject.clamp
      (start + (place + 1) * ((stop - start) / (left + 1 : Nat)))) := by
    intro place inside
    show count (s.subject.clamp (border start stop (left + 1) (place + 1))) = _
    unfold border
    rw [if_pos (by omega), asked.clamp, Int.natCast_add, Int.natCast_one]
  have last : total (left + 1) = count (between.subject.clamp stop) := by
    show count (s.subject.clamp (border start stop (left + 1) (left + 1))) = _
    rw [border_last, asked.clamp]
  have silent : ∀ asked, 0 ≤ asked → asked ≤ 0 + left → signal asked = false :=
    fun asked _ before => quiet asked (by omega)
  rcases (asked.counter counter).fillBuckets total first inner last silent with
    ⟨reached, fills, -⟩
  refine ⟨reached, ?_⟩
  rw [histogram_of_ordered quark signal counter.readable.kept.checkUsable ordered narrow some_]
  simp only [if_neg (Nat.not_lt.mpr room)]
  exact (Step.bind_of_ok counts).trans fills

theorem Counter.histogram_of_calledOff
    (counter : Counter s ledger quark count)
    (ordered : start ≤ stop)
    (narrow : stop - start ≤ latestInstant)
    (some_ : 0 < buckets)
    (room : buckets ≤ mostBuckets)
    (calledOff : ∃ question < buckets, signal question = true) :
    ∃ reached, History.histogram quark start stop buckets signal s
      = .error .cancelled reached := by
  rcases calledOff with ⟨question, inside, raised⟩
  rcases counter.countAt start with ⟨between, counts, asked⟩
  have told : ∃ asked, 0 ≤ asked ∧ asked ≤ 0 + (buckets - 1) ∧ signal asked = true :=
    ⟨question, Nat.zero_le _, by omega, raised⟩
  obtain ⟨reached, fails⟩ : ∃ reached, History.fillBuckets quark ((stop - start) / buckets) stop
      signal 0 (buckets - 1) start (count (s.subject.clamp start)) between
      = .error .cancelled reached :=
    (asked.counter counter).fillBuckets_of_calledOff told
  refine ⟨reached, ?_⟩
  rw [histogram_of_ordered quark signal counter.readable.kept.checkUsable ordered narrow some_]
  simp only [if_neg (Nat.not_lt.mpr room)]
  exact (Step.bind_of_ok counts).trans fails

theorem Counter.histogram_of_many
    (counter : Counter s ledger quark count)
    (ordered : start ≤ stop)
    (narrow : stop - start ≤ latestInstant)
    (many : mostBuckets < buckets)
    (signal : Signal) :
    ∃ reached, History.histogram quark start stop buckets signal s
      = .error (.oversized buckets) reached := by
  rcases counter.countAt start with ⟨reached, counts, -⟩
  refine ⟨reached, ?_⟩
  rw [histogram_of_ordered quark signal counter.readable.kept.checkUsable ordered narrow
    (Nat.zero_lt_of_lt many)]
  simp only [if_pos many]
  exact Step.bind_of_ok counts

theorem Counter.histogramLaw
    (counter : Counter s ledger quark count)
    (ordered : start ≤ stop)
    (narrow : stop - start ≤ latestInstant)
    (some_ : 0 < buckets)
    (signal : Signal) :
    HistogramLaw s quark start stop buckets signal fun t => count (s.subject.clamp t) where
  counts t := by
    rcases counter.countAt t with ⟨reached, counts, -⟩
    exact ⟨reached, counts⟩
  fills room quiet := by
    rcases counter.histogram ordered narrow some_ room quiet with ⟨reached, fills⟩
    exact ⟨_, reached, fills, counter.readable.filled ordered some_⟩
  calledOff := counter.histogram_of_calledOff ordered narrow some_
  breaksOff many := counter.histogram_of_many ordered narrow many signal

/-- A histogram has one number for each bucket or there is none, and none once it was called off. -/
theorem length_of_histogram
    {reached : Placed History}
    {found : List Int}
    (done : histogram quark start stop buckets signal s = .ok found reached) :
    found.length = buckets ∧ ∀ question < buckets, signal question = false := by
  unfold histogram at done
  rw [Step.subject_bind_apply] at done
  rcases Step.ofExcept_bind_eq_ok done with ⟨_, -, afterCheck⟩
  by_cases unsound : buckets = 0 ∨ stop < start
  · rw [if_pos unsound] at afterCheck
    cases afterCheck
  · by_cases wide : latestInstant < stop - start
    · simp only [if_neg unsound, if_pos wide] at afterCheck
      cases afterCheck
    · simp only [if_neg unsound, if_neg wide] at afterCheck
      rcases Step.bind_eq_ok_iff.mp afterCheck with ⟨first, between, -, rest⟩
      by_cases many : mostBuckets < buckets
      · rw [if_pos many] at rest
        cases rest
      · rw [if_neg many] at rest
        rcases length_of_fillBuckets rest with ⟨length, quiet⟩
        refine ⟨by omega, fun question inside => ?_⟩
        exact quiet question (Nat.zero_le _) (by omega)

/--
However a history arose, a histogram of an attribute that counts follows the
counts from border to border.  The borders go from the start of the range to
its end and never back, so that no border is beyond either.  Unless it is
called off there is one bucket between each of them and the next, as long as
there are addresses for the buckets; less than that a histogram never gives, of
whatever history.
-/
theorem histogram_of_arises
    (arises : Arises s)
    (known : s.subject.names.Contains quark)
    (counts : HoldsCounts s quark)
    (ordered : start ≤ stop)
    (narrow : stop - start ≤ latestInstant)
    (some_ : 0 < buckets)
    (signal : Signal) :
    (∃ count, HistogramLaw s quark start stop buckets signal count)
      ∧ border start stop buckets 0 = start
      ∧ border start stop buckets buckets = stop
      ∧ (∀ place later, place ≤ later →
        start ≤ border start stop buckets place
          ∧ border start stop buckets place ≤ border start stop buckets later
          ∧ border start stop buckets later ≤ stop)
      ∧ ∀ other found reached,
        histogram quark start stop buckets signal other = .ok found reached →
          found.length = buckets ∧ ∀ question < buckets, signal question = false := by
  rcases arises.exists_readable with ⟨ledger, readable⟩
  rcases readable.exists_counter known counts with ⟨count, counter⟩
  refine ⟨⟨_, counter.histogramLaw ordered narrow some_ signal⟩, border_zero some_, border_last,
    fun place later le => ⟨?_, border_mono ordered le, border_le_stop ordered⟩,
    fun other found reached done => length_of_histogram done⟩
  have origin : border start stop buckets 0 ≤ border start stop buckets place :=
    border_mono ordered (Nat.zero_le place)
  rwa [border_zero some_] at origin

end Histogram

/-- How a histogram comes to have no buckets. -/
def histogramFault?
    (quark start stop : Int)
    (buckets : Nat)
    (signal : Signal)
    (s : Placed History) :
    Option Fault :=
  match histogram quark start stop buckets signal s with
  | .ok _ _ => none
  | .error fault _ => some fault

/-- One bucket more than there are addresses for. -/
theorem breaksOff_over_mostBuckets :
    ∃ made history,
      create "early" 0 .memory .empty = .ok (made, history)
        ∧ HoldsCounts ((Step.each Call.step strokes).reached ⟨made, history⟩) 0
        ∧ histogramFault? 0 (-3) 10 1152921504606846976 .never
            ((Step.each Call.step strokes).reached ⟨made, history⟩)
          = some (.oversized 1152921504606846976)
        ∧ histogramFault? 0 (-3) 10 1152921504606846976 (.always true)
            ((Step.each Call.step strokes).reached ⟨made, history⟩)
          ≠ some .cancelled :=
  ⟨_, _, rfl, by decide +kernel, by decide +kernel, by decide +kernel⟩

theorem histogram_of_strokes :
    ∃ made history count,
      create "early" 0 .memory .empty = .ok (made, history)
        ∧ HistogramLaw ((Step.each Call.step strokes).reached ⟨made, history⟩) 0 (-3) 10 4
          .never count
        ∧ border (-3) 10 4 3 = 6
        ∧ border (-3) 10 4 4 = 10 := by
  rcases arises_from_strokes with ⟨made, history, created, written, known, counts⟩
  rcases histogram_of_arises written known counts (show (-3 : Int) ≤ 10 by decide) (by decide)
    (show 0 < 4 by decide) .never with ⟨⟨count, law⟩, -, last, -⟩
  exact ⟨made, history, count, created, law, by decide, last⟩

end History

end Chronicle
