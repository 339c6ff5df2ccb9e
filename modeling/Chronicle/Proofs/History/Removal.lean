import Chronicle.Proofs.History.Noting
import Chronicle.Proofs.History.Refusal
import Chronicle.Proofs.History.Snapshot

/-!
# Removing an attribute

An attribute is removed by giving null to it and to all that is below it, one
attribute after the other and all at the same time.  That time becomes the
latest one.  Nothing else is touched: what other attributes hold, since when
they hold it and what is stored about them stays as it is, and so does the
value of every answer about the time before.
-/

namespace Chronicle.History

variable {s after : Placed History} {ledger : Ledger} {t quark : Int}

/-- What a history is once an attribute was removed at `t`. -/
structure Removed
    (s after : Placed History)
    (t quark : Int) : Prop where
  names : after.subject.names = s.subject.names
  currentEnd : after.subject.currentEnd = t
  /-- The attribute and all that it is above hold null now. -/
  cleared : ∀ place, place = quark ∨ s.subject.names.Ancestor quark place →
    after.subject.ongoingValue place = .ok .null
  /-- What any other attribute holds, and since when, is as before. -/
  ongoing : ∀ place, s.subject.names.Contains place → place ≠ quark →
    ¬ s.subject.names.Ancestor quark place →
      after.subject.recording.ongoing.slot place = s.subject.recording.ongoing.slot place
  /-- About any other attribute the same intervals are stored. -/
  stored : ∀ place, place ≠ quark → ¬ s.subject.names.Ancestor quark place → ∀ instant i,
    (∃ reached, onStore (Store.find instant place) after = .ok (some i) reached)
      ↔ ∃ reached, onStore (Store.find instant place) s = .ok (some i) reached
  /-- About the time before, whatever was answered is answered with the same value. -/
  answers : ∀ instant place i reached, instant < t →
    intervalAt instant place s = .ok i reached →
      ∃ j last, intervalAt instant place after = .ok j last ∧ j.value = i.value
  snapshots : ∀ instant intervals reached, instant < t →
    snapshot instant s = .ok intervals reached →
      ∃ others last, snapshot instant after = .ok others last
        ∧ others.map (·.value) = intervals.map (·.value)
  /-- From the latest change until the removal everything kept the value it had. -/
  lasted : ∀ instant place value, s.subject.currentEnd ≤ instant → instant < t →
    s.subject.ongoingValue place = .ok value →
      ∃ j last, intervalAt instant place after = .ok j last ∧ j.value = value

/-- What is stored covers instants only between the start and the end of the store. -/
theorem Kept.within_of_covers
    {instant : Int}
    {i : Interval}
    (kept : Kept s ledger)
    (member : i ∈ ledger.taken)
    (covers : i.Covers instant) :
    ledger.ongoing.start ≤ instant ∧ instant ≤ ledger.stop := by
  have keeps := kept.keeps
  rcases covers with ⟨begins, ends⟩
  rcases keeps.tiled.known member with ⟨nonneg, known⟩
  have found : ledger.slot? i.quark.toNat = some _ := Array.getElem?_eq_getElem (by omega)
  have first := (keeps.tiled.before found member (Int.toNat_of_nonneg nonneg).symm).1
  have last := keeps.within i member
  omega

/-- At no other instant is the store asked with success. -/
theorem Kept.find_of_outside
    {instant : Int}
    (kept : Kept s ledger)
    (outside : ¬ (ledger.ongoing.start ≤ instant ∧ instant ≤ ledger.stop))
    (place : Int) :
    onStore (Store.find instant place) s
      = .error (.timeOutside instant ledger.ongoing.start ledger.stop) s := by
  have keeps := kept.keeps
  have start : s.subject.recording.store.start = ledger.ongoing.start := keeps.start
  have stop : s.subject.recording.store.stop = ledger.stop := keeps.stop
  have healthy : s.subject.recording.store.checkHealthy = .ok () := by
    unfold Store.checkHealthy
    rw [keeps.healthy]
    rfl
  have late : s.subject.recording.store.checkTime instant
      = .error (.timeOutside instant ledger.ongoing.start ledger.stop) := by
    unfold Store.checkTime
    rw [start, stop]
    exact if_pos (by omega)
  refine onRecording_of_error (Step.onPart_of_error ?_)
  unfold Store.find
  rw [Step.subject_bind_apply, healthy, Step.ofExcept_ok, Step.pure_bind_apply, late]
  rfl

/-- The intervals of the ledger are the ones that are stored. -/
theorem Kept.find_iff
    {place instant : Int}
    {i : Interval}
    (kept : Kept s ledger)
    (inRange : s.subject.InRange) :
    (∃ reached, onStore (Store.find instant place) s = .ok (some i) reached)
      ↔ i ∈ ledger.taken ∧ i.quark = place ∧ i.Covers instant := by
  have keeps := kept.keeps
  by_cases inside : ledger.ongoing.start ≤ instant ∧ instant ≤ ledger.stop
  · rcases keeps.holds.find inRange.backend (kept.numbered inRange) instant place with
      ⟨⟨volume, backend⟩, finds, leaves⟩
    rcases kept.ask inside.1 inside.2 finds leaves with ⟨reached, asks, -⟩
    have found : onStore (Store.find instant place) s
        = .ok (Interval.covering? ledger.taken instant place) reached := asks
    rw [found, ← Interval.covering?_eq_some_iff keeps.holds.separate]
    constructor
    · rintro ⟨other, same⟩
      exact (EStateM.Result.ok.inj same).1
    · intro covering
      rw [covering]
      exact ⟨reached, rfl⟩
  · rw [kept.find_of_outside inside place]
    constructor
    · rintro ⟨reached, same⟩
      cases same
    · rintro ⟨member, -, covers⟩
      exact absurd (kept.within_of_covers member covers) inside

/-- What was noted when an attribute was removed, with all that is below it. -/
structure Cleared
    (s : Placed History)
    (ledger : Ledger)
    (t quark : Int)
    (after : Placed History)
    (ledgerAfter : Ledger) : Prop where
  open_ : Open s ledger
  known : s.subject.names.Contains quark
  noted : Noted s ledger (nulled t (s.subject.names.descendants quark ++ [quark])) after
    ledgerAfter
  names : after.subject.names = s.subject.names

namespace Cleared

variable {ledgerAfter : Ledger} {place instant : Int} {value : Value} {i : Interval}
  {reached : Placed History}

/-- Nothing is noted about the other attributes. -/
theorem apart
    (other : place ≠ quark)
    (outside : ¬ s.subject.names.Ancestor quark place) :
    ∀ entry ∈ nulled t (s.subject.names.descendants quark ++ [quark]), entry.quark ≠ place := by
  intro entry member same
  rcases List.mem_map.mp member with ⟨inner, removed, rfl⟩
  obtain rfl : inner = place := same
  exact (Namespace.mem_descendants_concat.mp removed).elim other outside

/-- All that is noted is noted at one time, which is not before the latest change. -/
theorem times
    (cleared : Cleared s ledger t quark after ledgerAfter) :
    s.subject.currentEnd ≤ t ∧ after.subject.currentEnd = t := by
  have notes := cleared.noted.notes
  have last : (⟨t, .null, quark⟩ : Entry)
      ∈ nulled t (s.subject.names.descendants quark ++ [quark]) :=
    List.mem_map.mpr ⟨quark, Namespace.mem_descendants_concat.mpr (Or.inl rfl), rfl⟩
  rw [cleared.open_.ending, cleared.noted.open_.ending]
  refine ⟨(notes.times _ last).1, ?_⟩
  rcases notes.latest with ⟨none_, -⟩ | ⟨entry, member, same⟩
  · rw [none_] at last
    cases last
  · rcases List.mem_map.mp member with ⟨inner, -, rfl⟩
    exact same

theorem start
    (cleared : Cleared s ledger t quark after ledgerAfter) :
    after.subject.start = s.subject.start :=
  (cleared.noted.open_.kept.keeps.start.trans cleared.noted.notes.start).trans
    cleared.open_.kept.keeps.start.symm

/-- The history still answers about the time before, with the values that were held. -/
theorem intervalAt_of_holds
    (cleared : Cleared s ledger t quark after ledgerAfter)
    (inRangeAfter : after.subject.InRange)
    (known : s.subject.names.Contains place)
    (begun : s.subject.start ≤ instant)
    (early : instant < t)
    (holds : ledger.Holds place instant value) :
    ∃ j last, intervalAt instant place after = .ok j last ∧ j.value = value := by
  have held := cleared.noted.notes.holds holds
  rw [overridden_nulled, if_neg fun both => absurd both.2 (by omega)] at held
  have ending := cleared.times.2
  exact cleared.noted.open_.kept.intervalAt_of_holds inRangeAfter (cleared.names ▸ known)
    (cleared.start ▸ begun) (by omega) held

theorem intervalAt
    (cleared : Cleared s ledger t quark after ledgerAfter)
    (inRange : s.subject.InRange)
    (inRangeAfter : after.subject.InRange)
    (early : instant < t)
    (told : intervalAt instant place s = .ok i reached) :
    ∃ j last, History.intervalAt instant place after = .ok j last ∧ j.value = i.value := by
  rcases cleared.open_.kept.holds_of_intervalAt inRange told with ⟨known, begun, -, holds⟩
  exact cleared.intervalAt_of_holds inRangeAfter known begun early holds

theorem snapshot
    {intervals : List Interval}
    (cleared : Cleared s ledger t quark after ledgerAfter)
    (inRange : s.subject.InRange)
    (inRangeAfter : after.subject.InRange)
    (early : instant < t)
    (told : snapshot instant s = .ok intervals reached) :
    ∃ others last, History.snapshot instant after = .ok others last
      ∧ others.map (·.value) = intervals.map (·.value) := by
  have agree := cleared.open_.kept.snapshotsAgree inRange instant
  have agreeAfter := cleared.noted.open_.kept.snapshotsAgree inRangeAfter instant
  have ending := cleared.times.2
  rcases agree.1.mp ⟨intervals, reached, told⟩ with ⟨begun, -⟩
  rcases agreeAfter.1.mpr ⟨cleared.start ▸ begun, by omega⟩ with ⟨others, last, toldAfter⟩
  refine ⟨others, last, toldAfter, ?_⟩
  rcases agree.2 intervals reached told with ⟨length, entries⟩
  rcases agreeAfter.2 others last toldAfter with ⟨lengthAfter, entriesAfter⟩
  rw [cleared.names] at lengthAfter entriesAfter
  apply List.ext_getElem?
  intro place
  rw [List.getElem?_map, List.getElem?_map]
  by_cases inside : place < s.subject.names.size
  · rcases entries place inside with ⟨i, _, _, here, asked, -⟩
    rcases entriesAfter place inside with ⟨j, _, _, hereAfter, askedAfter, -⟩
    rcases cleared.intervalAt inRange inRangeAfter early asked with ⟨k, _, askedToo, same⟩
    cases askedAfter.symm.trans askedToo
    rw [here, hereAfter, Option.map_some, Option.map_some, same]
  · rw [List.getElem?_eq_none (by omega), List.getElem?_eq_none (by omega)]

theorem ongoingValue
    (cleared : Cleared s ledger t quark after ledgerAfter)
    (removed : place = quark ∨ s.subject.names.Ancestor quark place) :
    after.subject.ongoingValue place = .ok .null := by
  have known : s.subject.names.Contains place := by
    rcases removed with rfl | below
    · exact cleared.known
    · exact below.contains
  have started := cleared.open_.goes.current.start_le
  have onTime := cleared.open_.ending ▸ cleared.times.1
  rcases Ledger.Holds.exists_value cleared.open_.kept.keeps.tiled known.1
    (Int.le_trans started onTime) with ⟨value, holds⟩
  have held := cleared.noted.notes.holds holds
  rw [overridden_nulled,
    if_pos ⟨Namespace.mem_descendants_concat.mpr removed, Int.le_refl t⟩] at held
  exact cleared.noted.open_.ongoingValue_of_holds (cleared.names ▸ known)
    (Int.le_of_eq cleared.times.2) held

/-- The slots of the other attributes are not touched. -/
theorem slot
    (cleared : Cleared s ledger t quark after ledgerAfter)
    (known : s.subject.names.Contains place)
    (other : place ≠ quark)
    (outside : ¬ s.subject.names.Ancestor quark place) :
    after.subject.recording.ongoing.slot place = s.subject.recording.ongoing.slot place := by
  rcases cleared.open_.kept.exists_slot known with ⟨slot, found⟩
  have still := cleared.noted.notes.slots (apart other outside) found
  have ongoing : s.subject.recording.ongoing = ledger.ongoing :=
    cleared.open_.kept.keeps.ongoing
  have ongoingAfter : after.subject.recording.ongoing = ledgerAfter.ongoing :=
    cleared.noted.open_.kept.keeps.ongoing
  rw [ongoing, ongoingAfter, still, found]

/-- What is held now was held since the latest change. -/
theorem lasted
    (cleared : Cleared s ledger t quark after ledgerAfter)
    (inRangeAfter : after.subject.InRange)
    (late : s.subject.currentEnd ≤ instant)
    (early : instant < t)
    (held : s.subject.ongoingValue place = .ok value) :
    ∃ j last, History.intervalAt instant place after = .ok j last ∧ j.value = value := by
  have kept := cleared.open_.kept
  have holds := cleared.open_.holds_of_ongoingValue held late
  rcases kept.ongoingValue_eq_ok_iff.mp held with ⟨slot, found, -⟩
  rcases Ongoing.slot_eq_ok_iff.mp found with ⟨nonneg, inSlots⟩
  have inside := (Array.getElem?_eq_some_iff.mp inSlots).1
  have named := kept.named
  have started : s.subject.start ≤ s.subject.currentEnd := by
    rw [cleared.open_.ending]
    exact Int.le_trans (Int.le_of_eq kept.keeps.start) cleared.open_.goes.current.start_le
  exact cleared.intervalAt_of_holds inRangeAfter ⟨nonneg, by omega⟩
    (Int.le_trans started late) early holds

theorem removed
    (cleared : Cleared s ledger t quark after ledgerAfter)
    (inRange : s.subject.InRange)
    (inRangeAfter : after.subject.InRange) :
    Removed s after t quark where
  names := cleared.names
  currentEnd := cleared.times.2
  cleared _ := cleared.ongoingValue
  ongoing _ := cleared.slot
  stored place other outside instant i := by
    rw [cleared.noted.open_.kept.find_iff inRangeAfter, cleared.open_.kept.find_iff inRange]
    refine and_congr_left fun ⟨same, _⟩ => cleared.noted.notes.taken ?_
    rw [same]
    exact apart other outside
  answers _ _ _ _ := cleared.intervalAt inRange inRangeAfter
  snapshots _ _ _ := cleared.snapshot inRange inRangeAfter
  lasted _ _ _ := cleared.lasted inRangeAfter

end Cleared

end Chronicle.History
