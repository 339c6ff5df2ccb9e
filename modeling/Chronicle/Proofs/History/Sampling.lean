import Chronicle.History.Rates
import Chronicle.Proofs.History.Buckets
import Mathlib.Tactic.Choose

/-!
# Sampling

The rates of counters are taken from sample to sample, for all counters at
once.  What is carried along are the time of the last sample, even where it lay
before the history, and the counts of the last snapshot.  For each counter
alone this comes to the difference of two counts over the time between two
samples.
-/

namespace Chronicle.History

/-- The count of a counter at the time of a sample; before the history nothing was counted. -/
def countBy
    (history : History)
    (total : Int → Int)
    (t : Int) :
    Int :=
  if history.start ≤ t then total t else 0

/-- The rate of a counter at a sample, by the sample time before and its total at each instant. -/
def rateAt
    (history : History)
    (total : Int → Int)
    (scale : Float)
    (before t : Int) :
    Float :=
  if t < history.start ∨ history.currentEnd < t ∨ t = before then 0.0
  else rate (total t - countBy history total before) scale (t - before)

theorem rateAt_of_outside
    {history : History}
    {t : Int}
    (outside : t < history.start ∨ history.currentEnd < t)
    (total : Int → Int)
    (scale : Float)
    (before : Int) :
    rateAt history total scale before t = 0.0 := by
  have silent : t < history.start ∨ history.currentEnd < t ∨ t = before := by omega
  exact if_pos silent

/-- At an instant of the history the rate is taken if there is time since the last sample. -/
theorem rateAt_of_inside
    {history : History}
    {before t : Int}
    (begun : history.start ≤ t)
    (until_ : t ≤ history.currentEnd)
    (ordered : before ≤ t)
    (total : Int → Int)
    (scale : Float) :
    rateAt history total scale before t
      = if 0 < t - before then
          rate (total t - countBy history total before) scale (t - before)
        else 0.0 := by
  unfold rateAt
  by_cases same : t = before
  · have still : ¬ 0 < t - before := by omega
    rw [if_pos (Or.inr (Or.inr same)), if_neg still]
  · have sampled : ¬ (t < history.start ∨ history.currentEnd < t ∨ t = before) := by omega
    have later : 0 < t - before := by omega
    rw [if_neg sampled, if_pos later]

theorem Asked.countBy
    {s reached : Placed History}
    {ledger : Ledger}
    (asked : Asked s reached ledger) :
    countBy reached.subject = countBy s.subject := by
  funext total t
  unfold History.countBy
  rw [asked.start]

theorem Asked.rateAt
    {s reached : Placed History}
    {ledger : Ledger}
    (asked : Asked s reached ledger) :
    rateAt reached.subject = rateAt s.subject := by
  funext total scale before t
  unfold History.rateAt
  rw [asked.start, asked.currentEnd, asked.countBy]

/-! ## The counts of a snapshot -/

/-- A history that answers by a ledger about attributes whose totals at each instant are given. -/
structure Counters
    (s : Placed History)
    (ledger : Ledger)
    (quarks : List Int)
    (total : Int → Int → Int) : Prop where
  readable : Readable s ledger
  counter : ∀ quark ∈ quarks, s.subject.names.Contains quark →
    Counter s ledger quark (total quark)
  nothing : ∀ quark ∈ quarks, ¬ s.subject.names.Contains quark → ∀ t, total quark t = 0

variable {s reached : Placed History} {ledger : Ledger} {quarks : List Int}
  {total : Int → Int → Int}

/-- If all that is answered about attributes are counts, there are totals of all of them. -/
theorem Readable.exists_counters
    (readable : Readable s ledger)
    (counts : ∀ quark ∈ quarks, s.subject.names.Contains quark → HoldsCounts s quark) :
    ∃ total, Counters s ledger quarks total := by
  have each : ∀ quark, ∃ count : Int → Int,
      (quark ∈ quarks → s.subject.names.Contains quark → Counter s ledger quark count)
        ∧ (¬ s.subject.names.Contains quark → ∀ t, count t = 0) := by
    intro quark
    by_cases counted : quark ∈ quarks ∧ s.subject.names.Contains quark
    · rcases readable.exists_counter counted.2 (counts quark counted.1 counted.2) with
        ⟨count, counter⟩
      exact ⟨count, fun _ _ => counter, fun unknown => absurd counted.2 unknown⟩
    · exact ⟨fun _ => 0, fun listed known => absurd ⟨listed, known⟩ counted, fun _ _ => rfl⟩
  choose total spec using each
  exact ⟨total, readable, fun quark => (spec quark).1, fun quark _ => (spec quark).2⟩

theorem Asked.counters
    (asked : Asked s reached ledger)
    (counters : Counters s ledger quarks total) :
    Counters reached ledger quarks total where
  readable := asked.readable counters.readable
  counter quark listed known :=
    asked.counter (counters.counter quark listed (asked.names ▸ known))
  nothing quark listed unknown := counters.nothing quark listed (asked.names ▸ unknown)

namespace Counters

/-- In a snapshot every attribute has its total, and a number without an attribute has none. -/
theorem countIn
    {t quark : Int}
    {intervals : List Interval}
    (counters : Counters s ledger quarks total)
    (inside : s.subject.start ≤ t ∧ t ≤ s.subject.currentEnd)
    (length : intervals.length = s.subject.names.size)
    (entries : ∀ quark : Nat, quark < s.subject.names.size → ∃ i, intervals[quark]? = some i
      ∧ ledger.intervalAt s.subject.currentEnd t quark = .ok i)
    (listed : quark ∈ quarks) :
    History.countIn intervals quark = .ok (total quark t) := by
  unfold History.countIn
  by_cases known : s.subject.names.Contains quark
  · obtain ⟨place, rfl⟩ := Int.eq_ofNat_of_zero_le known.1
    rcases entries place (Int.ofNat_lt.mp known.2) with ⟨i, found, answered⟩
    rw [if_pos (Int.natCast_nonneg place), Int.toNat_natCast, found]
    exact (counters.counter place listed known).tells t i inside.1 inside.2 answered
  · have missing : (if 0 ≤ quark then intervals[quark.toNat]? else none) = none := by
      by_cases nonneg : 0 ≤ quark
      · have beyond : ¬ quark < s.subject.names.size := fun less => known ⟨nonneg, less⟩
        rw [if_pos nonneg, List.getElem?_eq_none_iff]
        omega
      · exact if_neg nonneg
    rw [missing, counters.nothing quark listed known]

/-- The counts on all attributes at an instant are their totals. -/
theorem countsAt
    {t : Int}
    (counters : Counters s ledger quarks total)
    (begun : s.subject.start ≤ t)
    (until_ : t ≤ s.subject.currentEnd) :
    ∃ reached,
      History.countsAt quarks t s = .ok (quarks.map fun quark => total quark t) reached
        ∧ Asked s reached ledger := by
  rcases counters.readable.kept.exists_snapshot counters.readable.inRange ⟨begun, until_⟩ with
    ⟨intervals, reached, asks, asked, length, entries⟩
  have all : ∀ {some_ : List Int}, (∀ quark ∈ some_, quark ∈ quarks) →
      some_.mapM (History.countIn intervals) = .ok (some_.map fun quark => total quark t) := by
    intro some_ among
    induction some_ with
    | nil => rfl
    | cons quark rest ih =>
        rw [List.mapM_cons, ih fun other member => among other (List.mem_cons_of_mem _ member),
          counters.countIn ⟨begun, until_⟩ length entries (among quark List.mem_cons_self)]
        rfl
  refine ⟨reached, ?_, asked⟩
  unfold History.countsAt
  refine (Step.bind_of_ok asks).trans ?_
  rw [all fun quark listed => listed]
  rfl

end Counters

/-! ## From sample to sample -/

section Rows

variable {history : History} {scale : Float} {before t : Int} {later : List Int}

/-- The counts of all counters that are carried along from a sample. -/
def countsBy
    (history : History)
    (total : Int → Int → Int)
    (quarks : List Int)
    (t : Int) :
    List Int :=
  quarks.map fun quark => countBy history (total quark) t

/-- The rates of all counters at a sample time. -/
def rateRow
    (history : History)
    (total : Int → Int → Int)
    (quarks : List Int)
    (scale : Float)
    (before t : Int) :
    List Float :=
  quarks.map fun quark => rateAt history (total quark) scale before t

/-- The rates of all counters at sample times that follow one another. -/
def rateRows
    (history : History)
    (total : Int → Int → Int)
    (quarks : List Int)
    (scale : Float)
    (before : Int)
    (times : List Int) :
    List (List Float) :=
  List.zipWith (rateRow history total quarks scale) (before :: times) times

theorem rateRows_cons :
    rateRows history total quarks scale before (t :: later)
      = rateRow history total quarks scale before t
        :: rateRows history total quarks scale t later := rfl

/-- Outside of the history all rates are zero. -/
theorem rateRow_of_outside
    (outside : t < history.start ∨ history.currentEnd < t) :
    rateRow history total quarks scale before t = quarks.map fun _ => 0.0 :=
  List.map_congr_left fun quark _ => rateAt_of_outside outside (total quark) scale before

theorem rateRows_of_late
    {times : List Int}
    (late : ∀ t ∈ times, history.currentEnd < t) :
    rateRows history total quarks scale before times
      = List.replicate times.length (quarks.map fun _ => 0.0) := by
  induction times generalizing before with
  | nil => rfl
  | cons t later ih =>
      rw [rateRows_cons, rateRow_of_outside (Or.inr (late t List.mem_cons_self)),
        ih fun other member => late other (List.mem_cons_of_mem t member), List.length_cons,
        List.replicate_succ]

/-- A sample of the totals, after that of the counts carried along, gives the rates. -/
theorem sample_eq
    (begun : history.start ≤ t)
    (until_ : t ≤ history.currentEnd)
    (ordered : before ≤ t) :
    sample scale (t - before) (quarks.map fun quark => total quark t)
        (countsBy history total quarks before)
      = rateRow history total quarks scale before t := by
  unfold sample countsBy
  rw [List.zipWith_map, List.zipWith_self]
  exact List.map_congr_left fun quark _ =>
    (rateAt_of_inside begun until_ ordered (total quark) scale).symm

theorem countsBy_of_inside
    (begun : history.start ≤ t) :
    countsBy history total quarks t = quarks.map fun quark => total quark t :=
  List.map_congr_left fun _ _ => if_pos begun

/-- From one time before the history to another the same counts are carried along. -/
theorem countsBy_of_early
    (ordered : before ≤ t)
    (early : t < history.start) :
    countsBy history total quarks before = countsBy history total quarks t :=
  List.map_congr_left fun _ _ =>
    (if_neg (Int.not_le.mpr (Int.lt_of_le_of_lt ordered early))).trans
      (if_neg (Int.not_le.mpr early)).symm

end Rows

/--
The samples give the rates of all counters, if the counts carried along are
those at the time of the last sample.
-/
theorem Counters.samples
    {times previous : List Int}
    {question : Nat}
    {before : Int}
    {signal : Signal}
    (counters : Counters s ledger quarks total)
    (scale : Float)
    (ordered : (before :: times).Pairwise (· ≤ ·))
    (quiet : ∀ asked, question ≤ asked → asked < question + times.length → signal asked = false)
    (carried : before ≤ s.subject.currentEnd →
      previous = countsBy s.subject total quarks before) :
    ∃ reached,
      History.samples quarks scale signal times question before previous s
        = .ok (rateRows s.subject total quarks scale before times) reached := by
  induction times generalizing s question before previous with
  | nil => exact ⟨s, rfl⟩
  | cons t later ih =>
      rcases List.pairwise_cons.mp ordered with ⟨least, rest⟩
      have le : before ≤ t := least t List.mem_cons_self
      have goesOn := Signal.check_of_quiet
        (quiet question (Nat.le_refl _) (Nat.lt_add_of_pos_right (Nat.succ_pos _)))
      have silent : ∀ asked, question + 1 ≤ asked → asked < question + 1 + later.length →
          signal asked = false := by
        intro asked after early
        rw [List.length_cons] at quiet
        exact quiet asked (by omega) (by omega)
      unfold History.samples
      rw [goesOn, Step.ofExcept_ok, Step.pure_bind_apply, Step.subject_bind_apply]
      by_cases beyond : s.subject.currentEnd < t
      · -- Every later sample lies behind the history as well.
        have late : ∀ other ∈ t :: later, s.subject.currentEnd < other := by
          intro other member
          rcases List.mem_cons.mp member with rfl | behind
          · exact beyond
          · exact Int.lt_of_lt_of_le beyond ((List.pairwise_cons.mp rest).1 other behind)
        refine ⟨s, ?_⟩
        rw [rateRows_of_late late, if_pos beyond]
        rfl
      · have until_ : t ≤ s.subject.currentEnd := Int.not_lt.mp beyond
        have known := carried (Int.le_trans le until_)
        rw [if_neg beyond, rateRows_cons]
        by_cases begun : s.subject.start ≤ t
        · rcases counters.countsAt begun until_ with ⟨between, counts, asked⟩
          have same : countsBy between.subject = countsBy s.subject := by
            unfold countsBy
            rw [asked.countBy]
          rcases ih (asked.counters counters) rest silent
            (fun _ => (countsBy_of_inside begun).symm.trans (by rw [same])) with ⟨reached, goes⟩
          refine ⟨reached, ?_⟩
          rw [if_pos begun]
          refine (Step.bind_of_ok counts).trans ((Step.bind_of_ok goes).trans ?_)
          unfold rateRows rateRow
          rw [known, sample_eq begun until_ le, asked.rateAt]
          rfl
        · have early := Int.not_le.mp begun
          rcases ih counters rest silent (fun _ => known.trans (countsBy_of_early le early)) with
            ⟨reached, goes⟩
          refine ⟨reached, ?_⟩
          rw [if_neg begun, rateRow_of_outside (Or.inl early)]
          exact Step.bind_of_ok goes

/-! ## The series of each counter -/

/-- The rates of one counter at the sample times. -/
def ratesOf
    (history : History)
    (total : Int → Int)
    (scale : Float) :
    List Int → List Float
  | [] => []
  | first :: later => 0.0 :: List.zipWith (rateAt history total scale) (first :: later) later

/-- In its column a counter has its own rates. -/
theorem column_rateRows
    {history : History}
    {place : Nat}
    {quark : Int}
    (listed : quarks[place]? = some quark)
    (total : Int → Int → Int)
    (scale : Float)
    (before : Int)
    (times : List Int) :
    (rateRows history total quarks scale before times).map (fun row => row.getD place 0.0)
      = List.zipWith (rateAt history (total quark) scale) (before :: times) times := by
  have entry : ∀ before t, (rateRow history total quarks scale before t).getD place 0.0
      = rateAt history (total quark) scale before t := by
    intro before t
    unfold rateRow
    rw [List.getD_eq_getElem?_getD, List.getElem?_map, listed]
    rfl
  unfold rateRows
  rw [List.map_zipWith]
  simp only [entry]

/-- The columns of the rates, each headed by the zero of the first sample, are the series. -/
theorem mapIdx_rateRows
    {history : History}
    (total : Int → Int → Int)
    (scale : Float)
    (first : Int)
    (later : List Int) :
    (quarks.mapIdx fun place quark => Series.mk quark
        (0.0 :: (rateRows history total quarks scale first later).map fun row =>
          row.getD place 0.0))
      = quarks.map fun quark =>
        ⟨quark, ratesOf history (total quark) scale (first :: later)⟩ := by
  apply List.ext_getElem?
  intro place
  rw [List.getElem?_mapIdx, List.getElem?_map]
  cases listed : quarks[place]? with
  | none => rfl
  | some quark =>
      rw [Option.map_some, Option.map_some, column_rateRows listed]
      rfl

/-- The rates of all counters are those of each of them, unless they are called off. -/
theorem Counters.rates
    {times : List Int}
    {signal : Signal}
    (counters : Counters s ledger quarks total)
    (ordered : times.Pairwise (· ≤ ·))
    (scale : Float)
    (quiet : ∀ question, question + 1 < times.length → signal question = false) :
    ∃ reached,
      History.rates quarks times scale signal s
        = .ok (quarks.map fun quark => ⟨quark, ratesOf s.subject (total quark) scale times⟩)
          reached := by
  unfold History.rates
  rw [Step.subject_bind_apply, counters.readable.kept.checkUsable, Step.ofExcept_ok,
    Step.pure_bind_apply]
  cases times with
  | nil => exact ⟨s, rfl⟩
  | cons first later =>
      have silent : ∀ asked, 0 ≤ asked → asked < 0 + later.length → signal asked = false := by
        intro asked _ early
        rw [List.length_cons] at quiet
        exact quiet asked (by omega)
      by_cases inside : s.subject.start ≤ first ∧ first ≤ s.subject.currentEnd
      · rcases counters.countsAt inside.1 inside.2 with ⟨between, counts, asked⟩
        have carried : countsBy between.subject total quarks first
            = quarks.map fun quark => total quark first :=
          countsBy_of_inside (asked.start ▸ inside.1)
        rcases (asked.counters counters).samples scale ordered silent
          (fun _ => carried.symm) with ⟨reached, goes⟩
        refine ⟨reached, ?_⟩
        simp only [if_pos inside]
        refine (Step.bind_of_ok counts).trans ((Step.bind_of_ok goes).trans ?_)
        show EStateM.Result.ok _ _ = _
        rw [mapIdx_rateRows]
        unfold ratesOf
        rw [asked.rateAt]
      · -- Behind the history no sample asks for what is carried along.
        have carried : first ≤ s.subject.currentEnd →
            (quarks.map fun _ => 0) = countsBy s.subject total quarks first :=
          fun until_ => List.map_congr_left fun _ _ =>
            (if_neg fun begun => inside ⟨begun, until_⟩).symm
        rcases counters.samples scale ordered silent carried with ⟨reached, goes⟩
        refine ⟨reached, ?_⟩
        simp only [if_neg inside]
        rw [Step.pure_bind_apply]
        refine (Step.bind_of_ok goes).trans ?_
        show EStateM.Result.ok _ _ = _
        rw [mapIdx_rateRows]

/--
A series of rates as its counter alone has it, given its total at each instant.
There is one rate for each sample; the first is zero, and each other one is
taken between its sample and the one before.
-/
structure Sampled
    (s : Placed History)
    (times : List Int)
    (scale : Float)
    (quark : Int)
    (series : Series)
    (total : Int → Int) : Prop where
  numbered : series.quark = quark
  counts : s.subject.names.Contains quark →
    ∀ t, s.subject.start ≤ t → t ≤ s.subject.currentEnd →
      ∃ reached, countAt quark t s = .ok (total t) reached
  nothing : ¬ s.subject.names.Contains quark → ∀ t, total t = 0
  length : series.rates.length = times.length
  first : 0 < times.length → series.rates[0]? = some 0.0
  later : ∀ (place : Nat) (before t : Int),
    times[place]? = some before → times[place + 1]? = some t →
      series.rates[place + 1]? = some (rateAt s.subject total scale before t)

theorem length_ratesOf
    (history : History)
    (total : Int → Int)
    (scale : Float)
    (times : List Int) :
    (ratesOf history total scale times).length = times.length := by
  cases times with
  | nil => rfl
  | cons first later => simp [ratesOf]

theorem getElem?_ratesOf
    {times : List Int}
    {place : Nat}
    {before t : Int}
    (earlier : times[place]? = some before)
    (sampled : times[place + 1]? = some t)
    (history : History)
    (total : Int → Int)
    (scale : Float) :
    (ratesOf history total scale times)[place + 1]?
      = some (rateAt history total scale before t) := by
  cases times with
  | nil => cases earlier
  | cons first later =>
      rw [List.getElem?_cons_succ] at sampled
      unfold ratesOf
      rw [List.getElem?_cons_succ, List.getElem?_zipWith, earlier, sampled]

theorem Counters.sampled
    {quark : Int}
    (counters : Counters s ledger quarks total)
    (listed : quark ∈ quarks)
    (times : List Int)
    (scale : Float) :
    Sampled s times scale quark ⟨quark, ratesOf s.subject (total quark) scale times⟩
      (total quark) where
  numbered := rfl
  counts known t begun until_ := by
    rcases (counters.counter quark listed known).countAt t with ⟨reached, counts, -⟩
    rw [clamp_of_inside begun until_] at counts
    exact ⟨reached, counts⟩
  nothing := counters.nothing quark listed
  length := length_ratesOf s.subject (total quark) scale times
  first some_ := by
    cases times with
    | nil => cases some_
    | cons first later => rfl
  later _ _ _ earlier sampled := getElem?_ratesOf earlier sampled s.subject (total quark) scale

/--
However a history arose, the rates of any counters at sample times in order are
one series for each counter, and this is as the counter alone has it.
-/
theorem rates_of_arises
    {times : List Int}
    {signal : Signal}
    (arises : Arises s)
    (counts : ∀ quark ∈ quarks, s.subject.names.Contains quark → HoldsCounts s quark)
    (ordered : times.Pairwise (· ≤ ·))
    (scale : Float)
    (quiet : ∀ question, question + 1 < times.length → signal question = false) :
    ∃ found reached,
      rates quarks times scale signal s = .ok found reached
        ∧ List.Forall₂ (fun quark series => ∃ total, Sampled s times scale quark series total)
          quarks found := by
  rcases arises.exists_readable with ⟨ledger, readable⟩
  rcases readable.exists_counters counts with ⟨total, counters⟩
  rcases counters.rates ordered scale quiet with ⟨reached, done⟩
  refine ⟨_, reached, done, ?_⟩
  rw [List.forall₂_map_right_iff, List.forall₂_same]
  exact fun quark listed => ⟨total quark, counters.sampled listed times scale⟩

theorem rates_of_strokes :
    ∃ made history found reached,
      create "early" 0 .memory .empty = .ok (made, history)
        ∧ rates [0, 0, 7, -1] [-2, 0, 3, 5, 5, 9] 1.0 .never
            ((Step.each Call.step strokes).reached ⟨made, history⟩) = .ok found reached
        ∧ List.Forall₂ (fun quark series => ∃ total,
            Sampled ((Step.each Call.step strokes).reached ⟨made, history⟩) [-2, 0, 3, 5, 5, 9]
              1.0 quark series total) [0, 0, 7, -1] found := by
  rcases arises_from_strokes with ⟨made, history, created, written, -, counts⟩
  have counting : ∀ quark ∈ [0, 0, 7, -1],
      ((Step.each Call.step strokes).reached ⟨made, history⟩).subject.names.Contains quark →
        HoldsCounts ((Step.each Call.step strokes).reached ⟨made, history⟩) quark := by
    have only : ∀ quark ∈ [0, 0, 7, -1],
        ((Step.each Call.step strokes).reached ⟨made, history⟩).subject.names.Contains quark →
          quark = 0 := by
      cases created
      decide +kernel
    intro quark listed known
    rw [only quark listed known]
    exact counts
  have ordered : ([-2, 0, 3, 5, 5, 9] : List Int).Pairwise (· ≤ ·) := by decide
  rcases rates_of_arises written counting ordered 1.0 (fun _ _ => rfl) with
    ⟨found, reached, done, sampled⟩
  exact ⟨made, history, found, reached, created, done, sampled⟩

end Chronicle.History
