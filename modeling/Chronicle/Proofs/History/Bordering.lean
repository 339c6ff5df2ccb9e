import Chronicle.Proofs.History.Scanning
import Chronicle.Proofs.Recording.Borders
import Mathlib.Data.List.Chain

/-!
# Few intervals

A scan over a whole history has a border between two intervals wherever the
attribute turned, and no other.  So two intervals that follow one another have
different values, unless the attribute was given another value at the time of
the border and its old value again at that time: what has ended is stored and
stays as it is, so that the border stays as well.
-/

namespace Chronicle

namespace Ledger

variable {ledger : Ledger} {journal : List Entry} {ending quark t u : Int} {i : Interval}

/-- Over all of its instants an answer has the value that the journal tells. -/
theorem Replays.heldAt_of_answer
    (replays : ledger.Replays journal ending)
    (answered : ledger.intervalAt ending u quark = .ok i)
    (covers : i.Covers t)
    (until_ : t ≤ ending) :
    heldAt journal quark t = i.value := by
  rcases intervalAt_eq_ok answered with ⟨place, slot, rfl, known, ⟨-, rfl⟩ | ⟨-, member, same, -⟩⟩
  · exact (replays.now known covers.1 until_).symm
  · exact same ▸ (replays.past i member covers).symm

/-- What is answered about an attribute began. -/
theorem begins_of_answer
    (answered : ledger.intervalAt ending u quark = .ok i) :
    ledger.Begins quark i.start := by
  rcases intervalAt_eq_ok answered with ⟨place, slot, rfl, known, ⟨-, rfl⟩ | ⟨-, member, same, -⟩⟩
  · exact Or.inl ⟨slot, Ongoing.slot_eq_ok_iff.mpr ⟨Int.natCast_nonneg place, known⟩, rfl⟩
  · exact Or.inr ⟨i, member, same, rfl⟩

/-- What began at an instant is answered about this instant. -/
theorem Tiled.exists_answer_of_begins
    {slot : Recording.Slot}
    (tiled : ledger.Tiled)
    (separate : Interval.Separate ledger.taken)
    (found : ledger.ongoing.slot quark = .ok slot)
    (begins : ledger.Begins quark t)
    (ending : Int) :
    ∃ i, ledger.intervalAt ending t quark = .ok i ∧ i.start = t := by
  rcases begins with ⟨other, foundToo, rfl⟩ | ⟨i, member, same, rfl⟩
  · exact ⟨_, intervalAt_of_now foundToo (Int.le_refl _), rfl⟩
  · rcases Ongoing.slot_eq_ok_iff.mp found with ⟨nonneg, known⟩
    have own : i.quark = quark.toNat := same.trans (Int.toNat_of_nonneg nonneg).symm
    rcases tiled.before known member own with ⟨begun, ended⟩
    have early : i.start < slot.since := Int.lt_of_le_of_lt i.ordered ended
    rcases tiled.intervalAt_of_past found begun early ending with ⟨j, -, answered⟩
    refine ⟨j, answered, ?_⟩
    rcases intervalAt_eq_ok answered with
      ⟨place, otherSlot, rfl, knownToo, ⟨late, -⟩ | ⟨-, memberToo, sameToo, covers⟩⟩
    · rw [Int.toNat_natCast] at known
      obtain rfl := Option.some.inj (knownToo.symm.trans known)
      exact absurd early (Int.not_lt.mpr late)
    · rw [separate.eq_of_covers memberToo member (sameToo.trans same.symm) covers i.covers_start]

end Ledger

namespace History

/-- Whether a call replaces what is held for all the time that it was held. -/
def Call.Overwrites : Call → Prop
  | overwrite _ _ => True
  | _ => False

instance : DecidablePred Call.Overwrites
  | .make _ => instDecidableFalse
  | .overwrite _ _ => instDecidableTrue
  | .close _ => instDecidableFalse
  | .abandon => instDecidableFalse
  | .ask _ => instDecidableFalse

theorem Call.plain_of_stays
    {call : Call}
    (stays : ¬ call.Ends)
    (keeps : ¬ call.Overwrites) :
    call.Plain := by
  cases call with
  | make change => trivial
  | overwrite value quark => exact absurd trivial keeps
  | close stop => exact absurd trivial stays
  | abandon => exact absurd trivial stays
  | ask question => trivial

/--
The intervals of an attribute over a whole history have the values that were
set and a border at each turn.  Two neighbours have different values, and no
interval could be longer, unless its attribute went away and came back at the
time of the border.
-/
structure Bordered
    (s : Placed History)
    (entries : List Entry)
    (quark : Int)
    (intervals : List Interval) : Prop where
  tells : ∀ i ∈ intervals, ∀ t, i.Covers t → t ≤ s.subject.currentEnd →
    heldAt entries quark t = i.value
  borders : ∀ t, s.subject.start < t → t ≤ s.subject.currentEnd →
    ((∃ i ∈ intervals, i.start = t) ↔ Turns entries quark t)
  differ : intervals.IsChain fun i j =>
    j.start = i.stop + 1 ∧ (i.value = j.value → Returns entries quark j.start i.value)
  maximal : ∀ i ∈ intervals,
    (s.subject.start < i.start → heldAt entries quark (i.start - 1) = i.value →
        Returns entries quark i.start i.value)
      ∧ (i.stop < s.subject.currentEnd → heldAt entries quark (i.stop + 1) = i.value →
        Returns entries quark (i.stop + 1) i.value)

/-- Scans over a whole history have as few borders as can be. -/
def ScansFewBorders
    (s : Placed History)
    (entries : List Entry) :
    Prop :=
  ∀ quark, s.subject.names.Contains quark → ∃ intervals reached,
    intervalsBetween quark s.subject.start s.subject.currentEnd s = .ok intervals reached
      ∧ Bordered s entries quark intervals

/-- A history that answers by a ledger that tells a journal as far as the current end. -/
structure Traced
    (s : Placed History)
    (ledger : Ledger)
    (entries : List Entry) : Prop where
  kept : Kept s ledger
  begun : s.subject.start ≤ s.subject.currentEnd
  ordered : entries.Pairwise fun entry later => entry.time ≤ later.time
  replays : ledger.Replays entries s.subject.currentEnd
  borders : ledger.Borders entries s.subject.currentEnd

namespace Traced

section Tour

variable {s : Placed History} {ledger : Ledger} {entries : List Entry} {quark t : Int}
  {intervals : List Interval} {i : Interval}

/-- An interval of a tour is one that is answered, about an instant of the history. -/
theorem answered
    (traced : Traced s ledger entries)
    (tour : ledger.Tour s.subject.currentEnd quark s.subject.currentEnd s.subject.start intervals)
    (listed : i ∈ intervals) :
    ∃ u, ledger.intervalAt s.subject.currentEnd u quark = .ok i
      ∧ u ≤ s.subject.currentEnd
      ∧ i.start ≤ s.subject.currentEnd
      ∧ s.subject.start ≤ i.stop := by
  have keeps := traced.kept.keeps
  have members := tour.mem_iff keeps.tiled keeps.holds.separate traced.begun (Int.le_refl _)
  rcases (members i).mp listed with ⟨u, after, until_, answered⟩
  have covers := (Ledger.Tiled.intervalAt_covers answered until_).2
  exact ⟨u, answered, until_, Int.le_trans covers.1 until_, Int.le_trans after covers.2⟩

/-- The intervals of a tour tell what was set. -/
theorem tells
    (traced : Traced s ledger entries)
    (tour : ledger.Tour s.subject.currentEnd quark s.subject.currentEnd s.subject.start intervals)
    (listed : i ∈ intervals)
    (covers : i.Covers t)
    (until_ : t ≤ s.subject.currentEnd) :
    heldAt entries quark t = i.value := by
  rcases traced.answered tour listed with ⟨u, answered, -⟩
  exact traced.replays.heldAt_of_answer answered covers until_

/-- A tour has a border wherever its attribute turned, and no other. -/
theorem exists_start_iff
    (traced : Traced s ledger entries)
    (known : s.subject.names.Contains quark)
    (tour : ledger.Tour s.subject.currentEnd quark s.subject.currentEnd s.subject.start intervals)
    (after : s.subject.start < t)
    (until_ : t ≤ s.subject.currentEnd) :
    (∃ i ∈ intervals, i.start = t) ↔ Turns entries quark t := by
  have keeps := traced.kept.keeps
  have start : s.subject.start = ledger.ongoing.start := keeps.start
  have members := tour.mem_iff keeps.tiled keeps.holds.separate traced.begun (Int.le_refl _)
  rcases traced.kept.exists_slot known with ⟨slot, found⟩
  rw [← traced.borders quark t (start ▸ after) until_]
  constructor
  · rintro ⟨i, listed, rfl⟩
    rcases traced.answered tour listed with ⟨u, answered, -⟩
    exact Ledger.begins_of_answer answered
  · intro begins
    rcases keeps.tiled.exists_answer_of_begins keeps.holds.separate found begins
      s.subject.currentEnd with ⟨i, answered, starts⟩
    exact ⟨i, (members i).mpr ⟨t, Int.le_of_lt after, until_, answered⟩, starts⟩

/-- Where an interval begins with the value of before, its attribute went away and came back. -/
theorem returns
    (traced : Traced s ledger entries)
    (known : s.subject.names.Contains quark)
    (tour : ledger.Tour s.subject.currentEnd quark s.subject.currentEnd s.subject.start intervals)
    (listed : i ∈ intervals)
    (after : s.subject.start < i.start)
    (same : heldAt entries quark (i.start - 1) = i.value) :
    Returns entries quark i.start i.value := by
  rcases traced.answered tour listed with ⟨u, -, -, until_, -⟩
  have now : heldAt entries quark i.start = i.value :=
    traced.tells tour listed i.covers_start until_
  have turned := (traced.exists_start_iff known tour after until_).mp ⟨i, listed, rfl⟩
  exact now ▸ returns_of_turns traced.ordered turned (now.trans same.symm)

/-- So it did where one interval follows another one with the same value. -/
theorem returns_of_next
    {j : Interval}
    (traced : Traced s ledger entries)
    (known : s.subject.names.Contains quark)
    (tour : ledger.Tour s.subject.currentEnd quark s.subject.currentEnd s.subject.start intervals)
    (listed : i ∈ intervals)
    (listedNext : j ∈ intervals)
    (next : j.start = i.stop + 1)
    (same : i.value = j.value) :
    Returns entries quark j.start i.value := by
  rcases traced.answered tour listed with ⟨-, -, -, -, begun⟩
  rcases traced.answered tour listedNext with ⟨-, -, -, until_, -⟩
  have held : heldAt entries quark (j.start - 1) = j.value := by
    rw [next, Int.add_sub_cancel, ← same]
    exact traced.tells tour listed i.covers_stop (by omega)
  exact same ▸ traced.returns known tour listedNext (by omega) held

/-- Behind an interval that ends before the history does, another one begins. -/
theorem exists_next
    (traced : Traced s ledger entries)
    (known : s.subject.names.Contains quark)
    (tour : ledger.Tour s.subject.currentEnd quark s.subject.currentEnd s.subject.start intervals)
    (listed : i ∈ intervals)
    (onward : i.stop < s.subject.currentEnd) :
    ∃ j ∈ intervals, j.start = i.stop + 1 := by
  have keeps := traced.kept.keeps
  have start : s.subject.start = ledger.ongoing.start := keeps.start
  have separate := keeps.holds.separate
  have members := tour.mem_iff keeps.tiled separate traced.begun (Int.le_refl _)
  rcases traced.kept.exists_slot known with ⟨slot, found⟩
  rcases traced.answered tour listed with ⟨u, answered, until_, -, begun⟩
  rcases keeps.tiled.exists_intervalAt found (by omega : ledger.ongoing.start ≤ i.stop + 1)
    with ⟨j, answeredNext⟩
  exact ⟨j, (members j).mpr ⟨i.stop + 1, by omega, onward, answeredNext⟩,
    keeps.tiled.start_eq_of_next separate answered until_ answeredNext onward⟩

/-- A tour of a whole history has as few borders as can be. -/
theorem bordered
    (traced : Traced s ledger entries)
    (known : s.subject.names.Contains quark)
    (tour : ledger.Tour s.subject.currentEnd quark s.subject.currentEnd s.subject.start
      intervals) :
    Bordered s entries quark intervals where
  tells i listed t covers until_ := traced.tells tour listed covers until_
  borders t after until_ := traced.exists_start_iff known tour after until_
  differ := by
    have keeps := traced.kept.keeps
    have adjoin := tour.isChain keeps.tiled keeps.holds.separate traced.begun (Int.le_refl _)
    rw [List.isChain_iff_forall_rel_of_append_cons_cons] at adjoin ⊢
    intro i j before after split
    have listed : i ∈ intervals := by simp [split]
    have listedNext : j ∈ intervals := by simp [split]
    exact ⟨adjoin split, traced.returns_of_next known tour listed listedNext (adjoin split)⟩
  maximal i listed := by
    refine ⟨traced.returns known tour listed, fun onward same => ?_⟩
    rcases traced.exists_next known tour listed onward with ⟨j, listedNext, next⟩
    have value : heldAt entries quark j.start = j.value :=
      traced.tells tour listedNext j.covers_start (by omega)
    rw [next, same] at value
    exact next ▸ traced.returns_of_next known tour listed listedNext next value

/-- So have the scans of a history that tells a journal. -/
theorem scansFewBorders
    (traced : Traced s ledger entries)
    (inRange : s.subject.InRange) :
    ScansFewBorders s entries := by
  intro quark known
  have readable : Readable s ledger := ⟨traced.kept, inRange, traced.begun⟩
  have fromStart : s.subject.clamp s.subject.start = s.subject.start :=
    clamp_of_inside (Int.le_refl _) traced.begun
  have toEnd : s.subject.clamp s.subject.currentEnd = s.subject.currentEnd :=
    clamp_of_inside traced.begun (Int.le_refl _)
  rcases readable.exists_tour known traced.begun with ⟨intervals, tour⟩
  rw [fromStart, toEnd] at tour
  rcases readable.gather tour (Int.le_refl _) traced.begun (Int.le_refl _) with
    ⟨reached, -, gathers⟩
  refine ⟨intervals, reached, ?_, traced.bordered known tour⟩
  rw [intervalsBetween_of_ordered quark traced.kept.checkUsable traced.begun, fromStart, toEnd]
  exact gathers _ (Nat.le_refl _)

end Tour

/-! ## Through a run -/

variable {s reached : Placed History} {ledger after : Ledger} {entries : List Entry}
  {calls : List Call}

/-- A history that is being written tells all that was set. -/
theorem of_open
    (open_ : Open s ledger)
    (traces : ledger.Traces entries) :
    Traced s ledger entries where
  kept := open_.kept
  begun := open_.begun
  ordered := traces.timely.ordered
  replays := traces.replays _
  borders := traces.borders _

/-- However its writer ends, what it told it tells. -/
theorem of_ended
    (open_ : Open s ledger)
    (traces : ledger.Traces entries)
    (ended : Ended s ledger reached after) :
    Traced reached after entries := by
  have begun : reached.subject.start ≤ reached.subject.currentEnd := by
    rw [ended.start]
    exact Int.le_trans open_.begun ended.currentEnd_le
  refine ⟨ended.kept, begun, traces.timely.ordered, ?_, ?_⟩
  · rcases ended.closes with rfl | ⟨stop, inTime, rfl⟩
    · exact traces.replays _
    · exact (traces.replays stop).close.mono inTime
  · rcases ended.closes with rfl | ⟨stop, inTime, rfl⟩
    · exact traces.borders _
    · exact (traces.borders stop).close.mono inTime

theorem asked
    (traced : Traced s ledger entries)
    (asked : Asked s reached ledger) :
    Traced reached ledger entries where
  kept := asked.kept traced.kept
  begun := by
    rw [asked.start, asked.currentEnd]
    exact traced.begun
  ordered := traced.ordered
  replays := asked.currentEnd ▸ traced.replays
  borders := asked.currentEnd ▸ traced.borders

end Traced

/-- Through all calls that do not replace what is held, a history tells all that is set. -/
theorem Open.traced_of_run
    {s : Placed History}
    {ledger : Ledger}
    {entries : List Entry}
    {calls : List Call}
    (open_ : Open s ledger)
    (traces : ledger.Traces entries)
    (lawful : Lawful calls)
    (keeps : ∀ call ∈ calls, ¬ call.Overwrites)
    (inRange : ∀ before, before <+: calls →
      ((Step.each Call.step before).reached s).subject.InRange) :
    ∃ after, Traced ((Step.each Call.step calls).reached s) after
      (entries ++ entriesOf calls s) := by
  generalize total : entries ++ entriesOf calls s = all
  -- What was set and what will be set is the same at each point of the run.
  have run := lawful.carries
    (P := fun rest r => ∃ ledger made, made ++ entriesOf rest r = all
      ∧ (∀ call ∈ rest, ¬ call.Overwrites) ∧ Open r ledger ∧ ledger.Traces made)
    (Q := fun rest r => ∃ ledger made, made ++ entriesOf rest r = all ∧ Traced r ledger made)
    inRange ?stays ?ends ?asks ?settles ⟨ledger, entries, total, keeps, open_, traces⟩
  case stays =>
    rintro call rest r now stays ⟨ledger, made, total, keeps, open_, traces⟩
    rcases open_.call now call with ⟨after, called⟩
    have plain := Call.plain_of_stays stays (keeps call List.mem_cons_self)
    exact ⟨after, _, (List.append_assoc ..).trans total,
      fun other member => keeps other (List.mem_cons_of_mem _ member),
      called.open_ stays, called.lasts plain Ledger.lasting_traces traces⟩
  case ends =>
    rintro call rest r now ends ⟨ledger, made, total, -, open_, traces⟩
    rcases open_.ended ends with ⟨after, ended⟩
    have silent : call.entries r = [] := by
      cases call with
      | make change => exact ends.elim
      | _ => rfl
    rw [entriesOf, silent, List.nil_append] at total
    exact ⟨after, made, total, .of_ended open_ traces ended⟩
  case asks =>
    rintro question rest r now ⟨ledger, made, total, traced⟩
    refine ⟨ledger, made, total, ?_⟩
    rw [Call.reached_ask]
    exact traced.asked (traced.kept.asked now question)
  case settles =>
    rintro r ⟨ledger, made, total, -, open_, traces⟩
    exact ⟨ledger, made, total, .of_open open_ traces⟩
  rcases run with ⟨after, made, same, traced⟩
  rw [entriesOf, List.append_nil] at same
  exact ⟨after, same ▸ traced⟩

/--
At every point of a run in which attributes are entered and values are set,
counted, stacked and removed, and after it was closed or given up, the scan of
an attribute over the whole history has the values that were set and a border
exactly where the attribute was given another value than before.  Neighbours
have different values and no interval could be longer, but for the borders at
which the attribute got its old value back at the time when it lost it.
-/
theorem scansFewBorders_of_created
    {id : String}
    {start : Int}
    {plan : Backend.Plan}
    {volume made : Volume}
    {history : History}
    {calls : List Call}
    (sound : volume.Sound)
    (created : create id start plan volume = .ok (made, history))
    (lawful : Lawful calls)
    (keeps : ∀ call ∈ calls, ¬ call.Overwrites)
    (inRange : ∀ before, before <+: calls →
      ((Step.each Call.step before).reached ⟨made, history⟩).subject.InRange) :
    ScansFewBorders ((Step.each Call.step calls).reached ⟨made, history⟩)
      (entriesOf calls ⟨made, history⟩) := by
  rcases open_of_create sound created with ⟨open_, -⟩
  rcases open_.traced_of_run (Ledger.traces_empty start) lawful keeps inRange with
    ⟨after, traced⟩
  rw [List.nil_append] at traced
  exact traced.scansFewBorders (inRange calls (List.prefix_refl calls))

/-- Values that are set anew, in vain, and for no time at all. -/
def detours : List Call :=
  [.make (.intern (-1) ["a"]),
    .make (.set 3 (.int 1) 0),
    .make (.set 5 (.int 2) 0),
    .make (.set 5 (.int 1) 0),
    .make (.set 7 (.int 1) 0),
    .make (.increment 9 0),
    .close 12]

theorem scansFewBorders_of_detours :
    ∃ made history,
      create "detours" 0 .memory .empty = .ok (made, history)
        ∧ ScansFewBorders ((Step.each Call.step detours).reached ⟨made, history⟩)
          [⟨3, .int 1, 0⟩, ⟨5, .int 2, 0⟩, ⟨5, .int 1, 0⟩, ⟨7, .int 1, 0⟩, ⟨9, .int 2, 0⟩] := by
  obtain ⟨made, history, created, inRange, sets⟩ : ∃ made history,
      create "detours" 0 .memory .empty = .ok (made, history)
        ∧ (∀ before ∈ detours.inits,
          ((Step.each Call.step before).reached ⟨made, history⟩).subject.InRange)
        ∧ entriesOf detours ⟨made, history⟩
          = [⟨3, .int 1, 0⟩, ⟨5, .int 2, 0⟩, ⟨5, .int 1, 0⟩, ⟨7, .int 1, 0⟩, ⟨9, .int 2, 0⟩] :=
    ⟨_, _, rfl, by decide +kernel, by decide +kernel⟩
  have few := scansFewBorders_of_created (by decide) created (by decide) (by decide)
    fun before begins => inRange before ((List.mem_inits before detours).mpr begins)
  rw [sets] at few
  exact ⟨made, history, created, few⟩

/-- The first and last instants and the values of the intervals that a scan gives. -/
def spans?
    (quark start stop : Int)
    (s : Placed History) :
    Option (List (Int × Int × Value)) :=
  match intervalsBetween quark start stop s with
  | .ok intervals _ => some (intervals.map fun i => (i.start, i.stop, i.value))
  | .error _ _ => none

/-- A value that is left and set again at the same time is found in two intervals, not in one. -/
theorem neighbours_alike_of_detours :
    ∃ made history intervals reached,
      create "detours" 0 .memory .empty = .ok (made, history)
        ∧ Lawful detours
        ∧ (∀ call ∈ detours, ¬ call.Overwrites)
        ∧ intervalsBetween 0 0 12 ((Step.each Call.step detours).reached ⟨made, history⟩)
          = .ok intervals reached
        ∧ intervals.map (fun i => (i.start, i.stop, i.value))
          = [(0, 2, .null), (3, 4, .int 1), (5, 8, .int 1), (9, 12, .int 2)]
        ∧ ¬ intervals.IsChain fun i j => i.value ≠ j.value := by
  obtain ⟨made, history, created, spans⟩ : ∃ made history,
      create "detours" 0 .memory .empty = .ok (made, history)
        ∧ spans? 0 0 12 ((Step.each Call.step detours).reached ⟨made, history⟩)
          = some [(0, 2, .null), (3, 4, .int 1), (5, 8, .int 1), (9, 12, .int 2)] :=
    ⟨_, _, rfl, by decide +kernel⟩
  unfold spans? at spans
  cases scan : intervalsBetween 0 0 12 ((Step.each Call.step detours).reached ⟨made, history⟩) with
  | error fault reached =>
      rw [scan] at spans
      cases spans
  | ok intervals reached =>
      rw [scan] at spans
      have told := Option.some.inj spans
      refine ⟨made, history, intervals, reached, created, by decide, by decide, scan, told, ?_⟩
      intro differ
      have chain : (intervals.map fun i => (i.start, i.stop, i.value)).IsChain
          fun i j => i.2.2 ≠ j.2.2 := (List.isChain_map _).mpr differ
      rw [told] at chain
      revert chain
      decide

end History

end Chronicle
