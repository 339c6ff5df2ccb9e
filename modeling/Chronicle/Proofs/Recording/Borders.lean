import Chronicle.Proofs.Recording.Journal

/-!
# Where intervals begin

An attribute turns at the times at which it was given another value than it
held just before, even if it was given its old value again at the same time:
what ended at such a time stays ended.  In a ledger an interval begins at each
turn of its attribute and nowhere else.
-/

namespace Chronicle

/-- Whether a journal gives an attribute at `t` another value than it held just before. -/
def Turns
    (journal : List Entry)
    (quark t : Int) :
    Prop :=
  ∃ entry ∈ journal,
    entry.quark = quark ∧ entry.time = t ∧ entry.value ≠ heldAt journal quark (t - 1)

/-- Whether a journal gives an attribute at `t` some other value than `value`, and then `value`. -/
def Returns
    (journal : List Entry)
    (quark t : Int)
    (value : Value) :
    Prop :=
  ∃ away back, [away, back].Sublist journal
    ∧ (away.quark = quark ∧ away.time = t ∧ away.value ≠ value)
    ∧ back.quark = quark ∧ back.time = t ∧ back.value = value

/-- The times of a journal that are in order, and not beyond `latest`. -/
structure Timely
    (journal : List Entry)
    (latest : Int) : Prop where
  ordered : journal.Pairwise fun entry later => entry.time ≤ later.time
  until_ : ∀ entry ∈ journal, entry.time ≤ latest

theorem timely_nil
    (latest : Int) :
    Timely [] latest where
  ordered := .nil
  until_ _ member := by cases member

section Turns

variable {journal : List Entry} {quark t latest : Int} {entry : Entry}

theorem Timely.concat
    (timely : Timely journal latest)
    (onTime : latest ≤ entry.time) :
    Timely (journal ++ [entry]) entry.time where
  ordered := by
    rw [List.pairwise_append]
    refine ⟨timely.ordered, List.pairwise_singleton _ _, ?_⟩
    intro earlier member last same
    rw [List.mem_singleton.mp same]
    exact Int.le_trans (timely.until_ earlier member) onTime
  until_ other member := by
    rcases List.mem_append.mp member with old | new
    · exact Int.le_trans (timely.until_ other old) onTime
    · exact Int.le_of_eq (congrArg Entry.time (List.mem_singleton.mp new))

theorem not_turns_nil : ¬ Turns [] quark t := by
  rintro ⟨entry, member, -⟩
  cases member

/-- The latest entry adds at most one turn, at its own time. -/
theorem turns_concat_iff
    (timely : Timely journal latest)
    (onTime : latest ≤ entry.time) :
    Turns (journal ++ [entry]) quark t
      ↔ Turns journal quark t
        ∨ entry.quark = quark ∧ entry.time = t ∧ entry.value ≠ heldAt journal quark (t - 1) := by
  by_cases late : entry.time < t
  · have early : ∀ other ∈ journal ++ [entry], other.time < t := fun other member =>
      Int.lt_of_le_of_lt ((timely.concat onTime).until_ other member) late
    constructor
    · rintro ⟨other, member, -, same, -⟩
      exact absurd same (Int.ne_of_lt (early other member))
    · rintro (⟨other, member, -, same, -⟩ | ⟨-, same, -⟩)
      · exact absurd same (Int.ne_of_lt (early other (List.mem_append_left _ member)))
      · exact absurd same (Int.ne_of_lt late)
  · have before : heldAt (journal ++ [entry]) quark (t - 1) = heldAt journal quark (t - 1) := by
      rw [heldAt_concat, if_neg (by omega)]
    unfold Turns
    rw [before]
    constructor
    · rintro ⟨other, member, turns⟩
      rcases List.mem_append.mp member with old | new
      · exact Or.inl ⟨other, old, turns⟩
      · exact Or.inr (List.mem_singleton.mp new ▸ turns)
    · rintro (⟨other, member, turns⟩ | turns)
      · exact ⟨other, List.mem_append_left _ member, turns⟩
      · exact ⟨entry, List.mem_append_right _ List.mem_cons_self, turns⟩

/-- Where an attribute turned but holds what it held before, it went away and came back. -/
theorem returns_of_turns
    (ordered : journal.Pairwise fun entry later => entry.time ≤ later.time)
    (turns : Turns journal quark t)
    (same : heldAt journal quark t = heldAt journal quark (t - 1)) :
    Returns journal quark t (heldAt journal quark t) := by
  rcases turns with ⟨away, member, awayQuark, awayTime, differs⟩
  rw [← same] at differs
  cases found : journal.reverse.find? fun entry => entry.quark = quark ∧ entry.time ≤ t with
  | none =>
      rw [List.find?_eq_none] at found
      exact absurd (decide_eq_true ⟨awayQuark, Int.le_of_eq awayTime⟩)
        (found away (List.mem_reverse.mpr member))
  | some back =>
      have held : heldAt journal quark t = back.value := by
        unfold heldAt
        rw [found]
      rcases List.find?_eq_some_iff_append.mp found with ⟨test, later, earlier, split, others⟩
      rcases of_decide_eq_true test with ⟨backQuark, backTime⟩
      have listed : journal = earlier.reverse ++ back :: later.reverse := by
        rw [← List.reverse_reverse journal, split]
        simp
      -- The entry that decides is the last one, so that the other one stands before it.
      have before : away ∈ earlier.reverse := by
        rw [listed] at member
        rcases List.mem_append.mp member with old | rest
        · exact old
        · rcases List.mem_cons.mp rest with rfl | new
          · exact absurd held.symm differs
          · have unfit := others away (List.mem_reverse.mp new)
            simp [awayQuark, awayTime] at unfit
      have inOrder : [away, back].Sublist journal := by
        rw [listed]
        exact (List.singleton_sublist.mpr before).append
          (List.singleton_sublist.mpr List.mem_cons_self)
      have onward : away.time ≤ back.time :=
        List.rel_of_pairwise_cons (ordered.sublist inOrder) List.mem_cons_self
      exact ⟨away, back, inOrder, ⟨awayQuark, awayTime, differs⟩, backQuark, by omega, held.symm⟩

end Turns

namespace Ledger

/-- Whether an attribute began at `t` to hold what it holds now, or what ended since. -/
def Begins
    (ledger : Ledger)
    (quark t : Int) :
    Prop :=
  (∃ slot, ledger.ongoing.slot quark = .ok slot ∧ slot.since = t)
    ∨ ∃ i ∈ ledger.taken, i.quark = quark ∧ i.start = t

variable {ledger : Ledger} {journal : List Entry} {horizon quark t : Int}

/-- When an attribute is given another value, what began before is still there. -/
theorem begins_switch_iff
    {place : Nat}
    {slot : Recording.Slot}
    {time : Int}
    (known : ledger.slot? place = some slot)
    (begun : slot.since ≤ time)
    (value : Value) :
    (ledger.switch place slot value time).Begins quark t
      ↔ ledger.Begins quark t ∨ quark = place ∧ t = time := by
  have found : ledger.ongoing.slot place = .ok slot :=
    Ongoing.slot_eq_ok_iff.mpr ⟨Int.natCast_nonneg place, known⟩
  have slots : (ledger.switch place slot value time).ongoing.slot quark
      = if (place : Int) = quark then .ok ⟨value, time⟩ else ledger.ongoing.slot quark :=
    Ongoing.slot_setSlot found ⟨value, time⟩ quark
  unfold Begins
  rw [slots]
  constructor
  · rintro (⟨other, given, rfl⟩ | ⟨i, member, same, rfl⟩)
    · split at given
      · rename_i same
        cases given
        exact Or.inr ⟨same.symm, rfl⟩
      · exact Or.inl (Or.inl ⟨other, given, rfl⟩)
    · rcases List.mem_append.mp member with old | new
      · exact Or.inl (Or.inr ⟨i, old, same, rfl⟩)
      · rcases Recording.Slot.mem_past.mp new with ⟨-, start, -, ofPlace, -⟩
        rw [ofPlace] at same
        exact Or.inl (Or.inl ⟨slot, same ▸ found, start.symm⟩)
  · rintro ((⟨other, given, rfl⟩ | ⟨i, member, same, rfl⟩) | ⟨rfl, rfl⟩)
    · by_cases same : (place : Int) = quark
      · subst same
        obtain rfl := Except.ok.inj (found.symm.trans given)
        by_cases held : slot.since < time
        · exact Or.inr ⟨⟨slot.since, time - 1, place, slot.value, by omega⟩,
            List.mem_append_right _ (Recording.Slot.mem_past.mpr ⟨held, rfl, rfl, rfl, rfl⟩),
            rfl, rfl⟩
        · exact Or.inl ⟨_, if_pos rfl, (by omega : time = slot.since)⟩
      · exact Or.inl ⟨other, (if_neg same).trans given, rfl⟩
    · exact Or.inr ⟨i, List.mem_append_left _ member, same, rfl⟩
    · exact Or.inl ⟨_, if_pos rfl, rfl⟩

/-- What new attributes hold began with the history. -/
theorem begins_grow_iff
    (begun : ledger.ongoing.start < t)
    (count : Nat) :
    (ledger.grow count).Begins quark t ↔ ledger.Begins quark t := by
  unfold Begins
  refine or_congr ⟨?_, ?_⟩ Iff.rfl
  · rintro ⟨slot, found, rfl⟩
    rcases Ongoing.slot_eq_ok_iff.mp found with ⟨nonneg, known⟩
    rcases Ongoing.getElem?_grow known with old | ⟨-, rfl⟩
    · exact ⟨slot, Ongoing.slot_eq_ok_iff.mpr ⟨nonneg, old⟩, rfl⟩
    · exact absurd begun (Int.lt_irrefl _)
  · rintro ⟨slot, found, rfl⟩
    exact ⟨slot, Ongoing.slot_grow found count, rfl⟩

/-- A ledger whose intervals begin where a journal turns, about the present as far as `horizon`. -/
def Borders
    (ledger : Ledger)
    (journal : List Entry)
    (horizon : Int) :
    Prop :=
  ∀ quark t, ledger.ongoing.start < t → t ≤ horizon →
    (ledger.Begins quark t ↔ Turns journal quark t)

theorem borders_empty
    (start horizon : Int) :
    (empty start).Borders [] horizon := by
  intro quark t _ _
  refine iff_of_false ?_ not_turns_nil
  rintro (⟨slot, found, -⟩ | ⟨i, member, -⟩)
  · cases (Ongoing.slot_eq_ok_iff.mp found).2
  · cases member

namespace Borders

theorem mono
    {earlier : Int}
    (borders : ledger.Borders journal horizon)
    (le : earlier ≤ horizon) :
    ledger.Borders journal earlier :=
  fun quark t begun until_ => borders quark t begun (Int.le_trans until_ le)

/-- A value that is set turns an attribute if and only if an interval begins then. -/
theorem change
    {after : Ledger}
    {fits : Except Fault Unit}
    {value : Value}
    {time : Int}
    (borders : ∀ horizon, ledger.Borders journal horizon)
    (replays : ∀ horizon, ledger.Replays journal horizon)
    (timely : Timely journal ledger.ongoing.latest)
    (current : ledger.Current)
    (changed : ledger.change fits time value quark = .ok after) :
    ∀ horizon, after.Borders (journal ++ [⟨time, value, quark⟩]) horizon := by
  rcases change_eq_ok changed with ⟨place, slot, rfl, known, onTime, rest⟩
  have found : ledger.ongoing.slot place = .ok slot :=
    Ongoing.slot_eq_ok_iff.mpr ⟨Int.natCast_nonneg place, known⟩
  have begun : slot.since ≤ time := Int.le_trans (current.since_le known) onTime
  have held : slot.since < time → heldAt journal place (time - 1) = slot.value := fun earlier =>
    ((replays time).now known (by omega) (by omega)).symm
  intro horizon other t started until_
  rw [turns_concat_iff timely onTime]
  rcases rest with ⟨rfl, rfl⟩ | ⟨differs, -, rfl⟩
  · have old : (ledger.advance time).Begins other t ↔ Turns journal other t :=
      borders horizon other t started until_
    rw [old]
    refine ⟨Or.inl, ?_⟩
    rintro (turns | ⟨rfl, rfl, differs⟩)
    · exact turns
    · -- The value that it holds already is another one only at the time when it was given.
      have now : ¬ slot.since < time := fun earlier => differs (held earlier).symm
      exact old.mp (Or.inl ⟨slot, found, by simp only at now ⊢; omega⟩)
  · have begins : ((ledger.switch place slot value time).advance time).Begins other t
        ↔ ledger.Begins other t ∨ other = place ∧ t = time :=
      begins_switch_iff known begun value
    have old : ledger.Begins other t ↔ Turns journal other t :=
      borders horizon other t started until_
    rw [begins, old]
    constructor
    · rintro (turns | ⟨rfl, rfl⟩)
      · exact Or.inl turns
      · by_cases earlier : slot.since < t
        · exact Or.inr ⟨rfl, rfl, fun same => differs ((held earlier).symm.trans same.symm)⟩
        · exact Or.inl (old.mp (Or.inl ⟨slot, found, by omega⟩))
    · rintro (turns | ⟨same, onTime', -⟩)
      · exact Or.inl turns
      · exact Or.inr ⟨same.symm, onTime'.symm⟩

theorem grow
    (borders : ledger.Borders journal horizon)
    (count : Nat) :
    (ledger.grow count).Borders journal horizon := by
  intro quark t begun until_
  have started : ledger.ongoing.start < t := begun
  exact (begins_grow_iff started count).trans (borders quark t started until_)

theorem closeSlot
    (borders : ledger.Borders journal horizon)
    (place : Nat) :
    (ledger.closeSlot horizon place).Borders journal horizon := by
  intro quark t begun until_
  rw [start_closeSlot] at begun
  unfold Ledger.closeSlot
  cases known : ledger.slot? place with
  | none => exact borders quark t begun until_
  | some slot =>
      simp only
      split
      · rename_i inTime
        rw [begins_switch_iff known (by omega), borders quark t begun until_]
        refine or_iff_left ?_
        rintro ⟨-, late⟩
        omega
      · exact borders quark t begun until_

/-- In a ledger that is closed, intervals begin where they began before. -/
theorem close
    (borders : ledger.Borders journal horizon) :
    ((ledger.close horizon).finish horizon).Borders journal horizon := by
  have all : ∀ (quarks : List Nat) (ledger : Ledger), ledger.Borders journal horizon →
      (quarks.foldl (Ledger.closeSlot horizon) ledger).Borders journal horizon := by
    intro quarks
    induction quarks with
    | nil => exact fun _ borders => borders
    | cons quark rest ih => exact fun _ borders => ih _ (borders.closeSlot quark)
  exact all (List.range ledger.ongoing.slots.size) ledger borders

end Borders

/-- A ledger that tells a journal: what was held at each instant, and where it turned. -/
structure Traces
    (ledger : Ledger)
    (journal : List Entry) : Prop where
  timely : Timely journal ledger.ongoing.latest
  replays : ∀ horizon, ledger.Replays journal horizon
  borders : ∀ horizon, ledger.Borders journal horizon

theorem traces_empty
    (start : Int) :
    (empty start).Traces [] where
  timely := timely_nil start
  replays := replays_empty start
  borders := borders_empty start

theorem lasting_traces : Lasting Traces where
  grow count traces :=
    ⟨traces.timely, fun horizon => (traces.replays horizon).grow count,
      fun horizon => Borders.grow (traces.borders horizon) count⟩
  change tiled current changed traces := by
    have latest := latest_of_change changed
    rcases change_eq_ok changed with ⟨-, -, -, -, onTime, -⟩
    refine ⟨?_, Replays.change traces.replays tiled current changed,
      Borders.change traces.borders traces.replays traces.timely current changed⟩
    rw [latest]
    exact traces.timely.concat onTime

end Ledger

end Chronicle
