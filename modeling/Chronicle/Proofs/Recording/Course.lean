import Chronicle.Proofs.History.Growing

/-!
# What attributes held over time

By a ledger every attribute held some value at every instant from the start
on.  Setting a value makes a difference to one attribute only, and only from
the time on at which it was set; all before that, and all other attributes,
keep their course.  So do attributes whose neighbours are overwritten, and so
does everything that is closed, up to the closing time.
-/

namespace Chronicle

/-- What an attribute that held `value` at `t` held there once `entries` were noted. -/
def overridden
    (entries : List Entry)
    (quark t : Int)
    (value : Value) :
    Value :=
  entries.foldl
    (fun held entry => if entry.quark = quark ∧ entry.time ≤ t then entry.value else held)
    value

theorem overridden_append
    (entries later : List Entry)
    (quark t : Int)
    (value : Value) :
    overridden (entries ++ later) quark t value
      = overridden later quark t (overridden entries quark t value) :=
  List.foldl_append ..

/-- Entries that are later, or about other attributes, make no difference. -/
theorem overridden_of_apart
    {entries : List Entry}
    {quark t : Int}
    (apart : ∀ entry ∈ entries, entry.quark = quark → t < entry.time)
    (value : Value) :
    overridden entries quark t value = value := by
  induction entries with
  | nil => rfl
  | cons entry entries ih =>
      have first : ¬ (entry.quark = quark ∧ entry.time ≤ t) := fun both =>
        absurd both.2 (Int.not_le.mpr (apart entry List.mem_cons_self both.1))
      show overridden entries quark t (if entry.quark = quark ∧ entry.time ≤ t then _ else value)
        = value
      rw [if_neg first]
      exact ih fun other member => apart other (List.mem_cons_of_mem entry member)

/-- The entries by which attributes are set to null, one after the other. -/
def nulled
    (t : Int)
    (quarks : List Int) :
    List Entry :=
  quarks.map fun quark => ⟨t, .null, quark⟩

theorem nulled_append
    (t : Int)
    (quarks more : List Int) :
    nulled t (quarks ++ more) = nulled t quarks ++ nulled t more :=
  List.map_append

theorem time_of_mem_nulled
    {t : Int}
    {quarks : List Int}
    {entry : Entry}
    (member : entry ∈ nulled t quarks) :
    entry.time = t := by
  rcases List.mem_map.mp member with ⟨quark, -, rfl⟩
  rfl

/-- What is set to null holds null from then on, and nothing else changes. -/
theorem overridden_nulled
    (time : Int)
    (quarks : List Int)
    (quark t : Int)
    (value : Value) :
    overridden (nulled time quarks) quark t value
      = if quark ∈ quarks ∧ time ≤ t then .null else value := by
  induction quarks generalizing value with
  | nil => rfl
  | cons first rest ih =>
      show overridden (nulled time rest) quark t
        (if first = quark ∧ time ≤ t then .null else value) = _
      rw [ih]
      by_cases reached : time ≤ t
      · by_cases listed : quark ∈ rest
        · rw [if_pos ⟨listed, reached⟩, if_pos ⟨List.mem_cons_of_mem first listed, reached⟩]
        · rw [if_neg fun both => listed both.1]
          refine if_congr ?_ rfl rfl
          rw [List.mem_cons, eq_comm]
          simp only [listed, or_false]
      · simp only [reached, and_false, if_false]

theorem Ongoing.inside_of_slot
    {ongoing : Ongoing}
    {quark : Int}
    {slot : Recording.Slot}
    (found : ongoing.slot quark = .ok slot) :
    0 ≤ quark ∧ quark < ongoing.slots.size := by
  rcases slot_eq_ok_iff.mp found with ⟨nonneg, known⟩
  have inside := (Array.getElem?_eq_some_iff.mp known).1
  omega

namespace Ledger

variable {ledger between after : Ledger} {quark t : Int} {value : Value}
  {entries later : List Entry}

/-- What an attribute held at `t`: by what it holds now, or by what ended. -/
inductive Holds (ledger : Ledger) (quark t : Int) : Value → Prop
  | now
      {slot : Recording.Slot}
      (found : ledger.ongoing.slot quark = .ok slot)
      (begun : slot.since ≤ t) :
      Holds ledger quark t slot.value
  | past
      {slot : Recording.Slot}
      {i : Interval}
      (found : ledger.ongoing.slot quark = .ok slot)
      (ended : t < slot.since)
      (member : i ∈ ledger.taken)
      (same : i.quark = quark)
      (covers : i.Covers t) :
      Holds ledger quark t i.value
  /-- An attribute that is not there yet will have held null since the start. -/
  | unborn
      (new : ledger.ongoing.slots.size ≤ quark)
      (begun : ledger.ongoing.start ≤ t) :
      Holds ledger quark t .null

namespace Holds

/-- Every attribute held something at every instant from the start on. -/
theorem exists_value
    (tiled : ledger.Tiled)
    (nonneg : 0 ≤ quark)
    (begun : ledger.ongoing.start ≤ t) :
    ∃ value, ledger.Holds quark t value := by
  lift quark to Nat using nonneg
  cases known : ledger.slot? quark with
  | none =>
      refine ⟨.null, .unborn ?_ begun⟩
      exact Int.ofNat_le.mpr (Array.getElem?_eq_none_iff.mp known)
  | some slot =>
      have found : ledger.ongoing.slot quark = .ok slot :=
        Ongoing.slot_eq_ok_iff.mpr ⟨Int.natCast_nonneg quark, known⟩
      by_cases now : slot.since ≤ t
      · exact ⟨slot.value, .now found now⟩
      · have ended := Int.not_le.mp now
        rcases tiled.covered known begun ended with ⟨i, member, same, covers⟩
        exact ⟨i.value, .past found ended member same covers⟩

/-- The answer of a ledger has the value that was held. -/
theorem value_eq
    {ending : Int}
    {i : Interval}
    (holds : ledger.Holds quark t value)
    (separate : Interval.Separate ledger.taken)
    (answered : ledger.intervalAt ending t quark = .ok i) :
    i.value = value := by
  rcases intervalAt_eq_ok answered with ⟨place, slot, rfl, known, told⟩
  have found : ledger.ongoing.slot place = .ok slot :=
    Ongoing.slot_eq_ok_iff.mpr ⟨Int.natCast_nonneg place, known⟩
  cases holds with
  | now foundToo begun =>
      obtain rfl := Except.ok.inj (found.symm.trans foundToo)
      rcases told with ⟨-, rfl⟩ | ⟨ended, -⟩
      · rfl
      · exact absurd begun (Int.not_le.mpr ended)
  | past foundToo ended member same covers =>
      obtain rfl := Except.ok.inj (found.symm.trans foundToo)
      rcases told with ⟨begun, -⟩ | ⟨-, memberToo, sameToo, coversToo⟩
      · exact absurd begun (Int.not_le.mpr ended)
      · rw [separate.eq_of_covers memberToo member (sameToo.trans same.symm) coversToo covers]
  | unborn new _ => exact absurd (Ongoing.inside_of_slot found).2 (Int.not_lt.mpr new)

/-- What was held at an instant since which an attribute holds its value is that value. -/
theorem slot_value
    {slot : Recording.Slot}
    (holds : ledger.Holds quark t value)
    (found : ledger.ongoing.slot quark = .ok slot)
    (begun : slot.since ≤ t) :
    slot.value = value := by
  cases holds with
  | now foundToo _ =>
      obtain rfl := Except.ok.inj (found.symm.trans foundToo)
      rfl
  | past foundToo ended _ _ _ =>
      obtain rfl := Except.ok.inj (found.symm.trans foundToo)
      exact absurd begun (Int.not_le.mpr ended)
  | unborn new _ => exact absurd (Ongoing.inside_of_slot found).2 (Int.not_lt.mpr new)

/-- At an instant an attribute held one value. -/
theorem unique
    {other : Value}
    (separate : Interval.Separate ledger.taken)
    (one : ledger.Holds quark t value)
    (two : ledger.Holds quark t other) :
    value = other := by
  cases one with
  | now found begun => exact two.slot_value found begun
  | past found ended member same covers =>
      cases two with
      | now foundToo begun =>
          obtain rfl := Except.ok.inj (found.symm.trans foundToo)
          exact absurd begun (Int.not_le.mpr ended)
      | past _ _ memberToo sameToo coversToo =>
          rw [separate.eq_of_covers member memberToo (same.trans sameToo.symm) covers coversToo]
      | unborn new _ => exact absurd (Ongoing.inside_of_slot found).2 (Int.not_lt.mpr new)
  | unborn new begun =>
      cases two with
      | unborn _ _ => rfl
      | now found _ => exact absurd (Ongoing.inside_of_slot found).2 (Int.not_lt.mpr new)
      | past found _ _ _ _ => exact absurd (Ongoing.inside_of_slot found).2 (Int.not_lt.mpr new)

/-- From its time on an attribute holds what it was given, and all else is held as before. -/
theorem switch
    {place : Nat}
    {slot : Recording.Slot}
    (holds : ledger.Holds quark t value)
    (known : ledger.slot? place = some slot)
    (given : Value)
    (time : Int) :
    (ledger.switch place slot given time).Holds quark t
      (if (place : Int) = quark ∧ time ≤ t then given else value) := by
  have found : ledger.ongoing.slot place = .ok slot :=
    Ongoing.slot_eq_ok_iff.mpr ⟨Int.natCast_nonneg place, known⟩
  have slots := Ongoing.slot_setSlot found ⟨given, time⟩
  by_cases same : (place : Int) = quark
  · subst same
    have foundAfter : (ledger.switch place slot given time).ongoing.slot place
        = .ok ⟨given, time⟩ := (slots place).trans (if_pos rfl)
    by_cases reached : time ≤ t
    · rw [if_pos ⟨rfl, reached⟩]
      exact .now foundAfter reached
    · rw [if_neg fun both => reached both.2]
      have ended := Int.not_le.mp reached
      -- What was held then has just ended, or had ended before.
      cases holds with
      | now foundToo begun =>
          obtain rfl := Except.ok.inj (found.symm.trans foundToo)
          have held : slot.since < time := Int.lt_of_le_of_lt begun ended
          exact .past (i := ⟨slot.since, time - 1, place, slot.value, by omega⟩) foundAfter ended
            (List.mem_append_right _ (Recording.Slot.mem_past.mpr ⟨held, rfl, rfl, rfl, rfl⟩)) rfl
            ⟨begun, Int.le_sub_one_of_lt ended⟩
      | past foundToo endedBefore member same covers =>
          exact .past foundAfter ended (List.mem_append_left _ member) same covers
      | unborn new _ => exact absurd (Ongoing.inside_of_slot found).2 (Int.not_lt.mpr new)
  · rw [if_neg fun both => same both.1]
    have foundAfter : (ledger.switch place slot given time).ongoing.slot quark
        = ledger.ongoing.slot quark := (slots quark).trans (if_neg same)
    cases holds with
    | now foundToo begun => exact .now (foundAfter.trans foundToo) begun
    | past foundToo ended member same covers =>
        exact .past (foundAfter.trans foundToo) ended (List.mem_append_left _ member) same covers
    | unborn new begun =>
        have size : (ledger.switch place slot given time).ongoing.slots.size
            = ledger.ongoing.slots.size := Ongoing.size_setSlot _ _ _
        exact .unborn (size.symm ▸ new) begun

/-- To the past it makes no difference when the latest change was, or the end. -/
theorem advance
    (holds : ledger.Holds quark t value)
    (time : Int) :
    (ledger.advance time).Holds quark t value := by
  cases holds with
  | now found begun => exact .now found begun
  | past found ended member same covers => exact .past found ended member same covers
  | unborn new begun => exact .unborn new begun

theorem finish
    (holds : ledger.Holds quark t value)
    (stop : Int) :
    (ledger.finish stop).Holds quark t value := by
  cases holds with
  | now found begun => exact .now found begun
  | past found ended member same covers => exact .past found ended member same covers
  | unborn new begun => exact .unborn new begun

theorem grow
    (holds : ledger.Holds quark t value)
    (count : Nat) :
    (ledger.grow count).Holds quark t value := by
  have kept : ∀ {slot}, ledger.ongoing.slot quark = .ok slot →
      (ledger.grow count).ongoing.slot quark = .ok slot :=
    fun found => Ongoing.slot_grow found count
  cases holds with
  | now found begun => exact .now (kept found) begun
  | past found ended member same covers => exact .past (kept found) ended member same covers
  | unborn new begun =>
      by_cases inside : quark < count
      · have found : (ledger.grow count).ongoing.slot quark = .ok ⟨.null, ledger.ongoing.start⟩ :=
          Ongoing.slot_eq_ok_iff.mpr
            ⟨by omega, Ongoing.getElem?_grow_of_le (by omega) (by omega)⟩
        exact .now found begun
      · have size := ledger.size_grow count
        exact .unborn (by omega) begun

/-- What attributes held is left alone when another one is overwritten. -/
theorem overwrite
    {place : Nat}
    {slot : Recording.Slot}
    {given : Value}
    (holds : ledger.Holds quark t value)
    (known : ledger.slot? place = some slot)
    (other : (place : Int) ≠ quark) :
    (ledger.overwrite place slot given).Holds quark t value := by
  have switched := holds.switch known given slot.since
  rwa [if_neg fun both => other both.1, switch_since] at switched

/-- What was held up to the closing time is what was held before the closing. -/
theorem close
    {stop : Int}
    (holds : ledger.Holds quark t value)
    (until_ : t ≤ stop) :
    ((ledger.close stop).finish stop).Holds quark t value := by
  have all : ∀ (quarks : List Nat) (ledger : Ledger), ledger.Holds quark t value →
      (quarks.foldl (Ledger.closeSlot stop) ledger).Holds quark t value := by
    intro quarks
    induction quarks with
    | nil => exact fun _ holds => holds
    | cons place rest ih =>
        intro ledger holds
        refine ih _ ?_
        unfold Ledger.closeSlot
        cases known : ledger.slot? place with
        | none => exact holds
        | some slot =>
            simp only
            split
            · have switched := holds.switch known .null (stop + 1)
              rwa [if_neg fun both => absurd both.2 (by omega)] at switched
            · exact holds
  exact ((all _ ledger holds).advance stop).finish stop

end Holds

/-! ## Noting what is set -/

/-- What becomes of a ledger when entries are noted, whatever attributes are new. -/
structure Notes
    (ledger : Ledger)
    (entries : List Entry)
    (after : Ledger) : Prop where
  start : after.ongoing.start = ledger.ongoing.start
  holds : ∀ {quark t value}, ledger.Holds quark t value →
    after.Holds quark t (overridden entries quark t value)
  /-- Attributes that no entry is about are held as before, since the same time. -/
  slots : ∀ {quark slot}, (∀ entry ∈ entries, entry.quark ≠ quark) →
    ledger.ongoing.slot quark = .ok slot → after.ongoing.slot quark = .ok slot
  taken : ∀ {i : Interval}, (∀ entry ∈ entries, entry.quark ≠ i.quark) →
    (i ∈ after.taken ↔ i ∈ ledger.taken)
  times : ∀ entry ∈ entries, ledger.ongoing.latest ≤ entry.time
    ∧ entry.time ≤ after.ongoing.latest
  latest : entries = [] ∧ after.ongoing.latest = ledger.ongoing.latest
    ∨ ∃ entry ∈ entries, after.ongoing.latest = entry.time

namespace Notes

theorem latest_le
    (notes : ledger.Notes entries after) :
    ledger.ongoing.latest ≤ after.ongoing.latest := by
  rcases notes.latest with ⟨-, same⟩ | ⟨entry, member, same⟩
  · exact Int.le_of_eq same.symm
  · rw [same]
    exact (notes.times entry member).1

theorem refl
    (ledger : Ledger) :
    ledger.Notes [] ledger where
  start := rfl
  holds holds := holds
  slots _ found := found
  taken _ := Iff.rfl
  times _ member := by cases member
  latest := Or.inl ⟨rfl, rfl⟩

theorem trans
    (one : ledger.Notes entries between)
    (two : between.Notes later after) :
    ledger.Notes (entries ++ later) after where
  start := two.start.trans one.start
  holds holds := by
    rw [overridden_append]
    exact two.holds (one.holds holds)
  slots apart found :=
    two.slots (fun entry member => apart entry (List.mem_append_right _ member))
      (one.slots (fun entry member => apart entry (List.mem_append_left _ member)) found)
  taken apart :=
    (two.taken fun entry member => apart entry (List.mem_append_right _ member)).trans
      (one.taken fun entry member => apart entry (List.mem_append_left _ member))
  times := by
    intro entry member
    rcases List.mem_append.mp member with old | new
    · exact ⟨(one.times entry old).1, Int.le_trans (one.times entry old).2 two.latest_le⟩
    · exact ⟨Int.le_trans one.latest_le (two.times entry new).1, (two.times entry new).2⟩
  latest := by
    rcases two.latest with ⟨rfl, same⟩ | ⟨entry, member, same⟩
    · rw [List.append_nil, same]
      exact one.latest
    · exact Or.inr ⟨entry, List.mem_append_right _ member, same⟩

theorem grow
    (ledger : Ledger)
    (count : Nat) :
    ledger.Notes [] (ledger.grow count) where
  start := rfl
  holds holds := holds.grow count
  slots _ found := Ongoing.slot_grow found count
  taken _ := Iff.rfl
  times _ member := by cases member
  latest := Or.inl ⟨rfl, rfl⟩

/-- A change is noted as one entry. -/
theorem change
    {fits : Except Fault Unit}
    (current : ledger.Current)
    (changed : ledger.change fits t value quark = .ok after) :
    ledger.Notes [⟨t, value, quark⟩] after := by
  rcases change_eq_ok changed with ⟨place, slot, rfl, known, onTime, ways⟩
  have found : ledger.ongoing.slot place = .ok slot :=
    Ongoing.slot_eq_ok_iff.mpr ⟨Int.natCast_nonneg place, known⟩
  have since_le : slot.since ≤ t := Int.le_trans (current.since_le known) onTime
  have latest := latest_of_change changed
  have times : ∀ entry ∈ [(⟨t, value, place⟩ : Entry)], ledger.ongoing.latest ≤ entry.time
      ∧ entry.time ≤ after.ongoing.latest := by
    intro entry member
    rw [List.mem_singleton.mp member, latest]
    exact ⟨onTime, Int.le_refl t⟩
  have last : ∃ entry ∈ [(⟨t, value, place⟩ : Entry)], after.ongoing.latest = entry.time :=
    ⟨_, List.mem_cons_self, latest⟩
  rcases ways with ⟨rfl, rfl⟩ | ⟨-, -, rfl⟩
  · refine ⟨rfl, ?_, fun _ found => found, fun _ => Iff.rfl, times, Or.inr last⟩
    intro quark t' held holds
    show (ledger.advance t).Holds quark t'
      (if (place : Int) = quark ∧ t ≤ t' then slot.value else held)
    split
    · rename_i both
      exact (Holds.now (both.1 ▸ found) (Int.le_trans since_le both.2)).advance t
    · exact holds.advance t
  · refine ⟨rfl, fun holds => (holds.switch known value t).advance t, ?_, ?_, times, Or.inr last⟩
    · intro quark other apart foundOther
      have elsewhere : (place : Int) ≠ quark := apart _ List.mem_cons_self
      have still := (Ongoing.slot_setSlot found ⟨value, t⟩ quark).trans (if_neg elsewhere)
      exact still.trans foundOther
    · intro i apart
      have elsewhere : (place : Int) ≠ i.quark := apart _ List.mem_cons_self
      refine List.mem_append.trans ⟨?_, Or.inl⟩
      rintro (old | new)
      · exact old
      · exact absurd (Recording.Slot.mem_past.mp new).2.2.2.1.symm elsewhere

end Notes

end Ledger

namespace History.Kept

variable {s reached : Placed History} {ledger : Ledger} {quark t : Int} {value : Value}
  {i : Interval}

/-- About every instant up to the current end, an answer has the value that was held. -/
theorem intervalAt_of_holds
    (kept : Kept s ledger)
    (inRange : s.subject.InRange)
    (known : s.subject.names.Contains quark)
    (begun : s.subject.start ≤ t)
    (until_ : t ≤ s.subject.currentEnd)
    (holds : ledger.Holds quark t value) :
    ∃ i reached, History.intervalAt t quark s = .ok i reached ∧ i.value = value := by
  rcases kept.answer inRange known begun until_ with ⟨i, reached, asks, answered, -⟩
  exact ⟨i, reached, asks, holds.value_eq kept.keeps.holds.separate answered⟩

/-- What is answered about an attribute was held, at an instant up to the current end. -/
theorem holds_of_intervalAt
    (kept : Kept s ledger)
    (inRange : s.subject.InRange)
    (told : History.intervalAt t quark s = .ok i reached) :
    s.subject.names.Contains quark
      ∧ s.subject.start ≤ t
      ∧ t ≤ s.subject.currentEnd
      ∧ ledger.Holds quark t i.value := by
  rcases kept.told_of_intervalAt inRange told with ⟨⟨begun, until_⟩, answered, -⟩
  rcases Ledger.intervalAt_eq_ok answered with ⟨place, slot, rfl, known, -⟩
  have inside := (Array.getElem?_eq_some_iff.mp known).1
  have named := kept.named
  have start : s.subject.start = ledger.ongoing.start := kept.keeps.start
  rcases Ledger.Holds.exists_value kept.keeps.tiled (Int.natCast_nonneg place)
    (start ▸ begun) with ⟨value, holds⟩
  rw [holds.value_eq kept.keeps.holds.separate answered]
  exact ⟨⟨Int.natCast_nonneg place, by omega⟩, begun, until_, holds⟩

end History.Kept

end Chronicle
