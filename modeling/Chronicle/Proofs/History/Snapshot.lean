import Chronicle.Proofs.History.Clamping
import Chronicle.Proofs.History.Reopening

/-!
# Snapshots

A snapshot goes over all attributes at once: what is stored is put into slots
on one way down, and what is held now is laid over it.  Slot by slot this comes
to what is answered about the attribute alone.
-/

namespace Chronicle

namespace Tree.Slots

/-- Slots that are all full have their intervals in them. -/
theorem exists_intervals?
    {slots : Slots}
    (full : ∀ slot ∈ slots.toList, slot.isSome) :
    ∃ intervals, slots.intervals? = some intervals ∧ slots.toList = intervals.map some := by
  obtain ⟨intervals, listed⟩ : ∃ intervals : List Interval, slots.toList = intervals.map some := by
    refine ⟨slots.toList.pmap Option.get full, ?_⟩
    rw [List.map_pmap]
    simp
  refine ⟨intervals, ?_, listed⟩
  unfold intervals?
  rw [listed]
  clear listed
  induction intervals with
  | nil => rfl
  | cons i rest ih =>
      rw [List.map_cons, List.mapM_cons, ih]
      rfl

end Tree.Slots

namespace Ledger

variable {ledger : Ledger} {ending t : Int}

/-- In its slot, an attribute has what is answered about it. -/
theorem getElem?_slotsAt
    {quark : Nat}
    (within : ∀ i ∈ ledger.taken, i.stop ≤ ledger.stop)
    (known : quark < ledger.ongoing.slots.size) :
    (ledger.slotsAt ending t ledger.ongoing.slots.size)[quark]?
      = some (ledger.intervalAt ending t quark).toOption := by
  let empty : Tree.Slots :=
    Array.replicate (min ledger.ongoing.slots.size ledger.ongoing.slots.size) none
  have blank : empty[quark]? = some none := by
    rw [Array.getElem?_replicate, if_pos (by omega)]
  have stored : (if t ≤ ledger.stop then empty.fill ledger.taken t else empty)[quark]?
      = some (Interval.covering? ledger.taken t quark) := by
    split
    · unfold Tree.Slots.fill
      rw [Array.getElem?_mapIdx, blank]
      cases covering : Interval.covering? ledger.taken t quark <;> simp
    · rename_i late
      have none_ : Interval.covering? ledger.taken t quark = none := by
        rw [Interval.covering?_eq_none_iff]
        rintro i member - ⟨-, ends⟩
        have := within i member
        omega
      rw [blank, none_]
  have found : ledger.ongoing.slots[quark]? = some ledger.ongoing.slots[quark] :=
    Array.getElem?_eq_getElem known
  have slot : ledger.ongoing.slot quark = .ok ledger.ongoing.slots[quark] :=
    Ongoing.slot_eq_ok_iff.mpr ⟨Int.natCast_nonneg quark, found⟩
  unfold slotsAt intervalAt
  rw [Array.getElem?_mapIdx, stored, slot]
  simp only [Option.map_some, found, bind, Except.bind]
  by_cases now : ledger.ongoing.slots[quark].since ≤ t
  · simp only [if_pos now]
    rfl
  · simp only [if_neg now]
    cases Interval.covering? ledger.taken t quark <;> rfl

/--
In a snapshot every attribute has its place, and there the interval that is
answered about it alone.
-/
theorem Tiled.exists_snapshot
    (tiled : ledger.Tiled)
    (within : ∀ i ∈ ledger.taken, i.stop ≤ ledger.stop)
    (begun : ledger.ongoing.start ≤ t)
    (ending : Int) :
    ∃ intervals,
      ledger.snapshot ending t ledger.ongoing.slots.size = .ok intervals
        ∧ intervals.length = ledger.ongoing.slots.size
        ∧ ∀ quark : Nat, quark < ledger.ongoing.slots.size →
          ∃ i, intervals[quark]? = some i ∧ ledger.intervalAt ending t quark = .ok i := by
  let slots := ledger.slotsAt ending t ledger.ongoing.slots.size
  have size : slots.size = ledger.ongoing.slots.size := by
    show (ledger.slotsAt ending t ledger.ongoing.slots.size).size = _
    unfold slotsAt
    split <;> simp [Tree.Slots.fill]
  have answered : ∀ quark : Nat, quark < ledger.ongoing.slots.size →
      ∃ i, slots[quark]? = some (some i) ∧ ledger.intervalAt ending t quark = .ok i := by
    intro quark known
    have found : ledger.ongoing.slot quark = .ok ledger.ongoing.slots[quark] :=
      Ongoing.slot_eq_ok_iff.mpr ⟨Int.natCast_nonneg quark, Array.getElem?_eq_getElem known⟩
    obtain ⟨i, answer⟩ : ∃ i, ledger.intervalAt ending t quark = .ok i :=
      tiled.exists_intervalAt found begun
    refine ⟨i, ?_, answer⟩
    rw [getElem?_slotsAt within known, answer]
    rfl
  have full : ∀ slot ∈ slots.toList, slot.isSome := by
    intro slot member
    rcases List.mem_iff_getElem?.mp member with ⟨quark, place⟩
    rw [Array.getElem?_toList] at place
    have inside : quark < slots.size := (Array.getElem?_eq_some_iff.mp place).1
    rcases answered quark (size ▸ inside) with ⟨i, held, -⟩
    rw [place] at held
    cases held
    rfl
  rcases Tree.Slots.exists_intervals? full with ⟨intervals, told, listed⟩
  refine ⟨intervals, ?_, ?_, ?_⟩
  · unfold snapshot
    rw [told]
  · rw [← size, ← Array.length_toList, listed, List.length_map]
  · intro quark known
    rcases answered quark known with ⟨i, place, answer⟩
    refine ⟨i, ?_, answer⟩
    rw [← Array.getElem?_toList, listed, List.getElem?_map, Option.map_eq_some_iff] at place
    rcases place with ⟨j, found, same⟩
    rw [found, Option.some.inj same]

end Ledger

namespace History

/--
A snapshot is given at the instants up to the current end and at no other.  It
has one interval for each attribute, in order, and this is the one that is
answered about the attribute, asked before the snapshot or after.
-/
def SnapshotsAgree (s : Placed History) : Prop :=
  ∀ t,
    ((∃ intervals reached, snapshot t s = .ok intervals reached)
        ↔ s.subject.start ≤ t ∧ t ≤ s.subject.currentEnd)
      ∧ ∀ intervals reached, snapshot t s = .ok intervals reached →
        intervals.length = s.subject.names.size
          ∧ ∀ quark : Nat, quark < s.subject.names.size →
            ∃ i after again,
              intervals[quark]? = some i
                ∧ intervalAt t quark s = .ok i after
                ∧ intervalAt t quark reached = .ok i again

/-- At an instant up to the current end there is a snapshot, with the answers of the ledger. -/
theorem Kept.exists_snapshot
    {s : Placed History}
    {ledger : Ledger}
    {t : Int}
    (kept : Kept s ledger)
    (inRange : s.subject.InRange)
    (inside : s.subject.start ≤ t ∧ t ≤ s.subject.currentEnd) :
    ∃ intervals reached,
      History.snapshot t s = .ok intervals reached
        ∧ Asked s reached ledger
        ∧ intervals.length = s.subject.names.size
        ∧ ∀ quark : Nat, quark < s.subject.names.size →
          ∃ i, intervals[quark]? = some i
            ∧ ledger.intervalAt s.subject.currentEnd t quark = .ok i := by
  have keeps := kept.keeps
  have begun : ledger.ongoing.start ≤ t := by
    rw [← keeps.start]
    exact inside.1
  obtain ⟨intervals, told, length, entries⟩ :=
    keeps.tiled.exists_snapshot keeps.within begun s.subject.currentEnd
  rw [← kept.named] at told length entries
  rcases kept.snapshot inRange t with ⟨reached, asks, asked⟩
  refine ⟨intervals, reached, ?_, asked, length, entries⟩
  rw [asks, checkTime_eq_ok_iff.mpr inside]
  show Step.ofExcept (ledger.snapshot _ _ _) reached = _
  rw [told]
  rfl

/-- A history that answers by a ledger has snapshots that agree with its other answers. -/
theorem Kept.snapshotsAgree
    {s : Placed History}
    {ledger : Ledger}
    (kept : Kept s ledger)
    (inRange : s.subject.InRange) :
    SnapshotsAgree s := by
  intro t
  by_cases inside : s.subject.start ≤ t ∧ t ≤ s.subject.currentEnd
  · rcases kept.exists_snapshot inRange inside with
      ⟨intervals, reached, given, asked, length, entries⟩
    constructor
    · exact ⟨fun _ => inside, fun _ => ⟨intervals, reached, given⟩⟩
    · intro others after givenAgain
      cases given.symm.trans givenAgain
      refine ⟨length, ?_⟩
      intro quark known
      rcases entries quark known with ⟨i, place, answer⟩
      rcases kept.intervalAt_of_told inRange inside answer with ⟨after, first, -⟩
      rw [← asked.start, ← asked.currentEnd] at inside
      rw [← asked.currentEnd] at answer
      rcases (asked.kept kept).intervalAt_of_told (asked.inRange inRange) inside answer with
        ⟨again, second, -⟩
      exact ⟨i, after, again, place, first, second⟩
  · rcases kept.snapshot inRange t with ⟨reached, asks, -⟩
    have failed : ∃ fault, History.snapshot t s = .error fault reached := by
      cases timely : s.subject.checkTime t with
      | ok done => exact absurd (checkTime_eq_ok_iff.mp timely) inside
      | error fault =>
          rw [asks, timely]
          exact ⟨fault, rfl⟩
    rcases failed with ⟨fault, failed⟩
    constructor
    · constructor
      · rintro ⟨intervals, after, told⟩
        cases failed.symm.trans told
      · intro within
        exact absurd within inside
    · intro intervals after told
      cases failed.symm.trans told

/--
The histories that there can be before they are given up: new ones after
whatever their writer did, and those that were opened from the file of a
completed one, after they were asked.  If the completed one had an attribute,
it ended before the last instant, since its slots begin one instant after its
end.
-/
inductive Arises : Placed History → Prop
  | written
      {id : String}
      {start : Int}
      {plan : Backend.Plan}
      {volume made : Volume}
      {history : History}
      {calls : List Call}
      (sound : volume.Sound)
      (created : create id start plan volume = .ok (made, history))
      (lawful : Lawful calls)
      (inRange : ∀ before, before <+: calls →
        ((Step.each Call.step before).reached ⟨made, history⟩).subject.InRange) :
      Arises ((Step.each Call.step calls).reached ⟨made, history⟩)
  | reopened
      {id name : String}
      {start stop : Int}
      {config : Tree.Config}
      {volume made base : Volume}
      {history again : History}
      {closed : Placed History}
      {calls : List Call}
      {otherId otherName : String}
      (sound : volume.Sound)
      (created : create id start (.file name config) volume = .ok (made, history))
      (told : config.version < 4294967296)
      (stays : ∀ call ∈ calls, ¬ call.Ends)
      (inRange : ∀ before, before <+: calls →
        ((Step.each Call.step before).reached ⟨made, history⟩).subject.InRange)
      (closes : History.close stop ((Step.each Call.step calls).reached ⟨made, history⟩)
        = .ok () closed)
      (closedInRange : closed.subject.InRange)
      (dated : closed.subject.names.size = 0 ∨ stop < latestInstant)
      (untouched : base.image? otherName = closed.volume.image? name)
      (opened : History.reopen otherId otherName config.version base = .ok again)
      (questions : List Question) :
      Arises ((Step.each Question.step questions).reached ⟨base, again⟩)

/-- However a history arose, it can be read. -/
theorem Arises.exists_readable
    {s : Placed History}
    (arises : Arises s) :
    ∃ ledger, Readable s ledger := by
  cases arises with
  | written sound created lawful inRange =>
      rcases open_of_create sound created with ⟨open_, -⟩
      exact open_.readable_of_run lawful inRange
  | reopened sound created told stays inRange closes closedInRange dated untouched opened
      questions =>
      rcases exists_whole sound created stays inRange closes closedInRange dated with
        ⟨ledger, whole⟩
      rcases sited_of_close created closes with ⟨file, found, sited⟩
      rcases whole.exists_reopen sited found told untouched _ with
        ⟨anew, reopens, kept, reopenedInRange, outline, -⟩
      have ending : anew.currentEnd = _ := congrArg Outline.currentEnd outline
      have begun : anew.start ≤ anew.currentEnd := by
        have start : anew.start = _ := kept.keeps.start.trans whole.kept.keeps.start.symm
        rw [start, ending, whole.ending]
        exact whole.begun
      cases opened.symm.trans reopens
      rcases kept.tells reopenedInRange questions with ⟨reached, answered, asked⟩
      rw [Step.reached_of_ok answered]
      exact ⟨ledger, asked.readable ⟨kept, reopenedInRange, begun⟩⟩

/-- However a history arose, it answers by a ledger. -/
theorem Arises.exists_kept
    {s : Placed History}
    (arises : Arises s) :
    ∃ ledger, Kept s ledger ∧ s.subject.InRange := by
  rcases arises.exists_readable with ⟨ledger, readable⟩
  exact ⟨ledger, readable.kept, readable.inRange⟩

/-- A history of a cramped file while it is written, and another one opened from such a file. -/
theorem arises_in_cramped :
    ∃ made history closed again,
      create "cramped" 0 (.file "cramped" cramping) .empty = .ok (made, history)
        ∧ Arises ((Step.each Call.step errands).reached ⟨made, history⟩)
        ∧ History.close 9 ((Step.each Call.step chores).reached ⟨made, history⟩) = .ok () closed
        ∧ History.reopen "again" "cramped" 0 closed.volume = .ok again
        ∧ Arises ⟨closed.volume, again⟩ := by
  rcases inRange_errands with ⟨made, history, created, inRangeErrands⟩
  rcases inRange_chores with ⟨made', history', created', inRange, -, ends⟩
  cases created.symm.trans created'
  have lawful : Lawful errands := by decide
  have stays : ∀ call ∈ chores, ¬ call.Ends := by decide
  have written : Arises ((Step.each Call.step errands).reached ⟨made, history⟩) :=
    .written (by decide) created lawful fun before begins =>
      inRangeErrands before ((List.mem_inits before errands).mpr begins)
  have prefixes : ∀ before, before <+: chores →
      ((Step.each Call.step before).reached ⟨made, history⟩).subject.InRange :=
    fun before begins => inRange before ((List.mem_inits before chores).mpr begins)
  cases closes : History.close 9 ((Step.each Call.step chores).reached ⟨made, history⟩) with
  | error fault closed =>
      rw [closes] at ends
      cases ends
  | ok a closed =>
      rw [closes] at ends
      have closedInRange : closed.subject.InRange := of_decide_eq_true ends
      rcases exists_whole (by decide) created stays prefixes closes closedInRange
        (Or.inr (by decide)) with ⟨ledger, whole⟩
      rcases sited_of_close created closes with ⟨file, found, sited⟩
      have told : cramping.version < 4294967296 := by decide
      rcases whole.exists_reopen sited found told rfl "again" with ⟨again, opened, -⟩
      exact ⟨made, history, closed, again, created, written, closes, opened,
        .reopened (by decide) created told stays prefixes closes closedInRange
          (Or.inr (by decide)) rfl opened []⟩

/-- However a history arose, its snapshots agree with what it answers about each attribute. -/
theorem snapshotsAgree_of_arises
    {s : Placed History}
    (arises : Arises s) :
    SnapshotsAgree s := by
  rcases arises.exists_kept with ⟨ledger, kept, inRange⟩
  exact kept.snapshotsAgree inRange

theorem snapshotsAgree_in_cramped :
    ∃ made history closed again,
      create "cramped" 0 (.file "cramped" cramping) .empty = .ok (made, history)
        ∧ SnapshotsAgree ((Step.each Call.step errands).reached ⟨made, history⟩)
        ∧ History.close 9 ((Step.each Call.step chores).reached ⟨made, history⟩) = .ok () closed
        ∧ History.reopen "again" "cramped" 0 closed.volume = .ok again
        ∧ SnapshotsAgree ⟨closed.volume, again⟩ := by
  rcases arises_in_cramped with ⟨made, history, closed, again, created, written, closes, opened,
    reopened⟩
  exact ⟨made, history, closed, again, created, snapshotsAgree_of_arises written, closes, opened,
    snapshotsAgree_of_arises reopened⟩

end History

end Chronicle
