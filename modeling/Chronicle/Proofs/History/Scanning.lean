import Chronicle.History.Scan
import Chronicle.Proofs.History.Snapshot

/-!
# Scanning a range

A scan asks about one instant, and then about the one after the end of what it
was answered.  As a history has no gaps, it meets every interval that has an
instant in the range, each of them once and in order, and ends.
-/

namespace Chronicle

namespace Ledger

/-- What is answered from one instant to another, each time about the instant after the last end. -/
inductive Tour (ledger : Ledger) (ending quark stop : Int) : Int → List Interval → Prop
  | last
      {t : Int}
      {i : Interval}
      (answered : ledger.intervalAt ending t quark = .ok i)
      (arrived : stop ≤ i.stop) :
      Tour ledger ending quark stop t [i]
  | next
      {t : Int}
      {i : Interval}
      {later : List Interval}
      (answered : ledger.intervalAt ending t quark = .ok i)
      (onward : i.stop < stop)
      (rest : Tour ledger ending quark stop (i.stop + 1) later) :
      Tour ledger ending quark stop t (i :: later)

variable {ledger : Ledger} {ending quark stop t : Int} {intervals : List Interval}

/-- From every instant of a history there is a tour to every later one. -/
theorem Tiled.exists_tour
    {slot : Recording.Slot}
    (tiled : ledger.Tiled)
    (found : ledger.ongoing.slot quark = .ok slot)
    (begun : ledger.ongoing.start ≤ t)
    (inside : t ≤ stop)
    (until_ : stop ≤ ending) :
    ∃ intervals, ledger.Tour ending quark stop t intervals := by
  -- Every answer covers its instant, so the next question is about a later one.
  induction left : (stop - t).toNat using Nat.strong_induction_on generalizing t with
  | _ _ ih =>
      rcases tiled.exists_intervalAt found begun with ⟨i, answered⟩
      have covers := (Tiled.intervalAt_covers answered (Int.le_trans inside until_)).2
      have later : t ≤ i.stop := covers.2
      by_cases arrived : stop ≤ i.stop
      · exact ⟨[i], .last answered arrived⟩
      · have onward := Int.not_le.mp arrived
        rcases ih (stop - (i.stop + 1)).toNat (by omega) (by omega) onward rfl with ⟨rest, tour⟩
        exact ⟨i :: rest, .next answered onward tour⟩

/-- The answer about the instant after the end of another begins there. -/
theorem Tiled.start_eq_of_next
    {i j : Interval}
    (tiled : ledger.Tiled)
    (separate : Interval.Separate ledger.taken)
    (one : ledger.intervalAt ending t quark = .ok i)
    (inside : t ≤ ending)
    (two : ledger.intervalAt ending (i.stop + 1) quark = .ok j)
    (onward : i.stop + 1 ≤ ending) :
    j.start = i.stop + 1 := by
  rcases intervalAt_covers one inside with ⟨-, begins, ends⟩
  rcases intervalAt_covers two onward with ⟨-, beginsNext, endsNext⟩
  rcases tiled.intervalAt_eq_or_apart separate one two with rfl | before | after <;> omega

namespace Tour

theorem exists_head
    (tour : ledger.Tour ending quark stop t intervals) :
    ∃ i later, intervals = i :: later ∧ ledger.intervalAt ending t quark = .ok i := by
  cases tour with
  | last answered arrived => exact ⟨_, _, rfl, answered⟩
  | next answered onward rest => exact ⟨_, _, rfl, answered⟩

/-- The last answer is the one about the end of the range. -/
theorem exists_getLast
    (tour : ledger.Tour ending quark stop t intervals)
    (inside : t ≤ stop)
    (until_ : stop ≤ ending) :
    ∃ i, intervals.getLast? = some i ∧ i.Covers stop := by
  induction tour with
  | last answered arrived =>
      have covers := (Tiled.intervalAt_covers answered (Int.le_trans inside until_)).2
      exact ⟨_, rfl, Int.le_trans covers.1 inside, arrived⟩
  | next answered onward rest ih =>
      rcases ih onward with ⟨i, last, covers⟩
      refine ⟨i, ?_, covers⟩
      rw [List.getLast?_cons, last]
      rfl

/-- Each answer begins one instant after the end of the one before. -/
theorem isChain
    (tour : ledger.Tour ending quark stop t intervals)
    (tiled : ledger.Tiled)
    (separate : Interval.Separate ledger.taken)
    (inside : t ≤ stop)
    (until_ : stop ≤ ending) :
    intervals.IsChain fun i j => j.start = i.stop + 1 := by
  induction tour with
  | last answered arrived => exact .singleton _
  | next answered onward rest ih =>
      have chain := ih onward
      rcases rest.exists_head with ⟨j, later, rfl, answeredNext⟩
      refine .cons_cons ?_ chain
      exact tiled.start_eq_of_next separate answered (Int.le_trans inside until_) answeredNext
        (Int.le_trans onward until_)

/-- On a tour is what is answered about some instant of the range, and nothing else. -/
theorem mem_iff
    (tour : ledger.Tour ending quark stop t intervals)
    (tiled : ledger.Tiled)
    (separate : Interval.Separate ledger.taken)
    (inside : t ≤ stop)
    (until_ : stop ≤ ending)
    (j : Interval) :
    j ∈ intervals ↔ ∃ u, t ≤ u ∧ u ≤ stop ∧ ledger.intervalAt ending u quark = .ok j := by
  -- The first answer is also the one about all other instants up to its end.
  have first : ∀ {t u i j}, t ≤ stop → ledger.intervalAt ending t quark = .ok i →
      t ≤ u → u ≤ stop → u ≤ i.stop → ledger.intervalAt ending u quark = .ok j → j = i := by
    intro t u i j inside answered begun until' early other
    rcases Tiled.intervalAt_covers answered (Int.le_trans inside until_) with ⟨-, begins, -⟩
    rcases Tiled.intervalAt_covers other (Int.le_trans until' until_) with ⟨-, beginsToo, endsToo⟩
    rcases tiled.intervalAt_eq_or_apart separate answered other with rfl | before | after
    · rfl
    all_goals omega
  induction tour with
  | @last t i answered arrived =>
      rw [List.mem_singleton]
      constructor
      · rintro rfl
        exact ⟨t, Int.le_refl t, inside, answered⟩
      · rintro ⟨u, begun, until', other⟩
        exact first inside answered begun until' (Int.le_trans until' arrived) other
  | @next t i later answered onward rest ih =>
      rw [List.mem_cons]
      have ends : t ≤ i.stop :=
        (Tiled.intervalAt_covers answered (Int.le_trans inside until_)).2.2
      constructor
      · rintro (rfl | listed)
        · exact ⟨t, Int.le_refl t, inside, answered⟩
        · rcases (ih onward).mp listed with ⟨u, begun, until', other⟩
          exact ⟨u, by omega, until', other⟩
      · rintro ⟨u, begun, until', other⟩
        by_cases early : u ≤ i.stop
        · exact Or.inl (first inside answered begun until' early other)
        · exact Or.inr ((ih onward).mpr ⟨u, by omega, until', other⟩)

/-- No answer is met twice. -/
theorem nodup
    (tour : ledger.Tour ending quark stop t intervals)
    (tiled : ledger.Tiled)
    (separate : Interval.Separate ledger.taken)
    (inside : t ≤ stop)
    (until_ : stop ≤ ending) :
    intervals.Nodup := by
  induction tour with
  | last answered arrived => exact List.nodup_singleton _
  | @next t i later answered onward rest ih =>
      refine List.nodup_cons.mpr ⟨?_, ih onward⟩
      intro again
      rcases (rest.mem_iff tiled separate onward until_ i).mp again with
        ⟨u, beyond, until', answeredAgain⟩
      have ends := (Tiled.intervalAt_covers answeredAgain (Int.le_trans until' until_)).2.2
      omega

end Tour

end Ledger

namespace History

variable {s : Placed History} {ledger : Ledger} {quark stop t : Int} {intervals : List Interval}

/-- However many rounds it is allowed beyond the number of instants, a scan is the tour. -/
theorem Readable.gather
    (readable : Readable s ledger)
    (tour : ledger.Tour s.subject.currentEnd quark stop t intervals)
    (begun : s.subject.start ≤ t)
    (inside : t ≤ stop)
    (until_ : stop ≤ s.subject.currentEnd) :
    ∃ reached,
      Asked s reached ledger
        ∧ ∀ instants, (stop - t).toNat ≤ instants →
          History.gather quark stop instants t s = .ok intervals reached := by
  generalize endsAt : s.subject.currentEnd = ending at tour
  induction tour generalizing s with
  | @last t i answered arrived =>
      subst endsAt
      rcases readable.kept.intervalAt_of_told readable.inRange
        ⟨begun, Int.le_trans inside until_⟩ answered with ⟨reached, asks, asked⟩
      refine ⟨reached, asked, fun instants _ => ?_⟩
      cases instants with
      | zero => exact Step.bind_of_ok asks
      | succ instants =>
          refine (Step.bind_of_ok asks).trans ?_
          rw [if_pos arrived]
          rfl
  | @next t i later answered onward rest ih =>
      subst endsAt
      have covers := (Ledger.Tiled.intervalAt_covers answered (Int.le_trans inside until_)).2
      have late : t ≤ i.stop := covers.2
      rcases readable.kept.intervalAt_of_told readable.inRange
        ⟨begun, Int.le_trans inside until_⟩ answered with ⟨between, asks, asked⟩
      have begunLater : between.subject.start ≤ i.stop + 1 := by
        rw [asked.start]
        omega
      have untilLater : stop ≤ between.subject.currentEnd := by
        rw [asked.currentEnd]
        exact until_
      rcases ih (asked.readable readable) begunLater onward untilLater asked.currentEnd with
        ⟨reached, askedLater, gathers⟩
      refine ⟨reached, asked.trans askedLater, fun instants enough => ?_⟩
      cases instants with
      | zero => omega
      | succ instants =>
          refine (Step.bind_of_ok asks).trans ?_
          rw [if_neg (Int.not_le.mpr onward)]
          exact Step.bind_of_ok (gathers instants (by omega))

/-- The intervals of an attribute that have instants in a range, each of them once and in order. -/
structure ExactScan
    (s : Placed History)
    (quark first last : Int)
    (intervals : List Interval) : Prop where
  own : ∀ i ∈ intervals, i.quark = quark
  begins : ∃ i, intervals.head? = some i ∧ i.Covers first
  ends : ∃ i, intervals.getLast? = some i ∧ i.Covers last
  adjoin : intervals.IsChain fun i j => j.start = i.stop + 1
  once : intervals.Nodup
  answers : ∀ i, i ∈ intervals ↔
    ∃ t reached, first ≤ t ∧ t ≤ last ∧ intervalAt t quark s = .ok i reached

/--
A scan of an attribute of the history gives the intervals that have instants
between those nearest to the borders of the range.  It ends by itself: with
more rounds than there are instants it is the same.  A range that ends before
it begins is refused.
-/
def ScansExactly (s : Placed History) : Prop :=
  ∀ quark start stop, s.subject.names.Contains quark →
    (start ≤ stop → ∃ intervals reached,
      intervalsBetween quark start stop s = .ok intervals reached
        ∧ ExactScan s quark (s.subject.clamp start) (s.subject.clamp stop) intervals
        ∧ ∀ instants, (s.subject.clamp stop - s.subject.clamp start).toNat ≤ instants →
          gather quark (s.subject.clamp stop) instants (s.subject.clamp start) s
            = .ok intervals reached)
      ∧ (stop < start →
        intervalsBetween quark start stop s
          = .error (.badArgument (.reversedRange start stop)) s)

/-- A tour is what a scan of the range should be. -/
theorem Readable.exactScan
    (readable : Readable s ledger)
    (tour : ledger.Tour s.subject.currentEnd quark stop t intervals)
    (begun : s.subject.start ≤ t)
    (inside : t ≤ stop)
    (until_ : stop ≤ s.subject.currentEnd) :
    ExactScan s quark t stop intervals := by
  have tiled := readable.kept.keeps.tiled
  have separate := readable.kept.keeps.holds.separate
  have members := tour.mem_iff tiled separate inside until_
  constructor
  · intro i listed
    rcases (members i).mp listed with ⟨u, -, early, answered⟩
    exact (Ledger.Tiled.intervalAt_covers answered (Int.le_trans early until_)).1
  · rcases tour.exists_head with ⟨i, later, rfl, answered⟩
    exact ⟨i, rfl, (Ledger.Tiled.intervalAt_covers answered (Int.le_trans inside until_)).2⟩
  · exact tour.exists_getLast inside until_
  · exact tour.isChain tiled separate inside until_
  · exact tour.nodup tiled separate inside until_
  · intro i
    rw [members i]
    constructor
    · rintro ⟨u, late, early, answered⟩
      rcases readable.kept.intervalAt_of_told readable.inRange
        ⟨Int.le_trans begun late, Int.le_trans early until_⟩ answered with ⟨reached, asks, -⟩
      exact ⟨u, reached, late, early, asks⟩
    · rintro ⟨u, reached, late, early, asks⟩
      exact ⟨u, late, early, (readable.kept.told_of_intervalAt readable.inRange asks).2.1⟩

/-- Between the instants nearest to the borders of a range there is a tour. -/
theorem Readable.exists_tour
    {start : Int}
    (readable : Readable s ledger)
    (known : s.subject.names.Contains quark)
    (ordered : start ≤ stop) :
    ∃ intervals, ledger.Tour s.subject.currentEnd quark (s.subject.clamp stop)
      (s.subject.clamp start) intervals := by
  rcases readable.kept.exists_slot known with ⟨slot, found⟩
  have begun : ledger.ongoing.start ≤ s.subject.clamp start :=
    readable.kept.keeps.start ▸ start_le_clamp
  exact readable.kept.keeps.tiled.exists_tour found begun (clamp_mono ordered)
    (clamp_le readable.begun)

/-- A scan of a range that is not reversed gathers what is between the nearest instants. -/
theorem intervalsBetween_of_ordered
    {start : Int}
    (quark : Int)
    (usable : s.subject.checkUsable = .ok ())
    (ordered : start ≤ stop) :
    intervalsBetween quark start stop s
      = History.gather quark (s.subject.clamp stop)
          (s.subject.clamp stop - s.subject.clamp start).toNat (s.subject.clamp start) s := by
  unfold intervalsBetween
  rw [Step.subject_bind_apply, usable, Step.ofExcept_ok, Step.pure_bind_apply,
    if_neg (Int.not_lt.mpr ordered)]

/-- A history that can be read is scanned exactly. -/
theorem Readable.scansExactly
    (readable : Readable s ledger) :
    ScansExactly s := by
  intro quark start stop known
  have usable := readable.kept.checkUsable
  constructor
  · intro ordered
    have begun : s.subject.start ≤ s.subject.clamp start := start_le_clamp
    have inside : s.subject.clamp start ≤ s.subject.clamp stop := clamp_mono ordered
    have until_ : s.subject.clamp stop ≤ s.subject.currentEnd := clamp_le readable.begun
    rcases readable.exists_tour known ordered with ⟨intervals, tour⟩
    rcases readable.gather tour begun inside until_ with ⟨reached, -, gathers⟩
    refine ⟨intervals, reached, ?_, readable.exactScan tour begun inside until_, gathers⟩
    rw [intervalsBetween_of_ordered quark usable ordered]
    exact gathers _ (Nat.le_refl _)
  · intro reversed
    unfold intervalsBetween
    rw [Step.subject_bind_apply, usable, Step.ofExcept_ok, Step.pure_bind_apply,
      if_pos reversed]
    rfl

/--
However a history arose, a scan of an attribute over a range ends and gives the
intervals that are answered about the instants of the range, each of them once
and in order.
-/
theorem scansExactly_of_arises
    (arises : Arises s) :
    ScansExactly s := by
  rcases arises.exists_readable with ⟨ledger, readable⟩
  exact readable.scansExactly

theorem scansExactly_in_cramped :
    ∃ made history closed again,
      create "cramped" 0 (.file "cramped" cramping) .empty = .ok (made, history)
        ∧ ScansExactly ((Step.each Call.step errands).reached ⟨made, history⟩)
        ∧ History.close 9 ((Step.each Call.step chores).reached ⟨made, history⟩) = .ok () closed
        ∧ History.reopen "again" "cramped" 0 closed.volume = .ok again
        ∧ ScansExactly ⟨closed.volume, again⟩ := by
  rcases arises_in_cramped with ⟨made, history, closed, again, created, written, closes, opened,
    reopened⟩
  exact ⟨made, history, closed, again, created, scansExactly_of_arises written, closes, opened,
    scansExactly_of_arises reopened⟩

end History

end Chronicle
