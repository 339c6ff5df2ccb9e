import Chronicle.Proofs.Interval.Coverage
import Chronicle.Recording

/-!
# Ledgers

A recording as it is meant: what each attribute holds now, next to a flat list
of all intervals that ended.  For each attribute these tile the time from the
start of the history up to what it holds now.  The cursor of the store and
whatever the backend does with the intervals do not appear.
-/

namespace Chronicle

namespace Recording.Slot

/-- The interval that ends when an attribute gets another value at `t`, if it held its value. -/
def past
    (slot : Slot)
    (quark t : Int) :
    List Interval :=
  if held : slot.since < t then
    [⟨slot.since, t - 1, quark, slot.value, by omega⟩]
  else
    []

theorem mem_past
    {slot : Slot}
    {quark t : Int}
    {i : Interval} :
    i ∈ slot.past quark t ↔
      slot.since < t ∧ i.start = slot.since ∧ i.stop = t - 1 ∧ i.quark = quark
        ∧ i.value = slot.value := by
  unfold past
  split
  · rename_i held
    rw [List.mem_singleton]
    constructor
    · rintro rfl
      exact ⟨held, rfl, rfl, rfl, rfl⟩
    · rintro ⟨-, start, stop, same, value⟩
      rcases i with ⟨iStart, iStop, iQuark, iValue, ordered⟩
      subst start stop same value
      rfl
  · rename_i empty
    constructor
    · intro member
      cases member
    · rintro ⟨held, -⟩
      exact absurd held empty

end Recording.Slot

namespace Ongoing

theorem slot_eq_ok_iff
    {ongoing : Ongoing}
    {quark : Int}
    {slot : Recording.Slot} :
    ongoing.slot quark = .ok slot ↔ 0 ≤ quark ∧ ongoing.slots[quark.toNat]? = some slot := by
  unfold Ongoing.slot
  by_cases nonneg : 0 ≤ quark
  · rw [if_pos nonneg]
    cases found : ongoing.slots[quark.toNat]? with
    | none => simp
    | some other => simp [nonneg]
  · rw [if_neg nonneg]
    simp [nonneg]

@[simp]
theorem size_setSlot
    (ongoing : Ongoing)
    (quark : Int)
    (slot : Recording.Slot) :
    (ongoing.setSlot quark slot).slots.size = ongoing.slots.size :=
  Array.size_setIfInBounds

/-- What the attributes hold after one of them was given something else. -/
theorem getElem?_setSlot
    {ongoing : Ongoing}
    {quark place : Nat}
    {old new : Recording.Slot}
    (known : ongoing.slots[quark]? = some old) :
    (ongoing.setSlot quark new).slots[place]?
      = if quark = place then some new else ongoing.slots[place]? := by
  have inside : quark < ongoing.slots.size := by
    rw [Array.getElem?_eq_some_iff] at known
    exact known.1
  show (ongoing.slots.setIfInBounds ((quark : Int).toNat) new)[place]? = _
  rw [Int.toNat_natCast, Array.getElem?_setIfInBounds, if_pos inside]

/-- What an attribute of any number holds after one was given something else. -/
theorem slot_setSlot
    {ongoing : Ongoing}
    {quark : Int}
    {old : Recording.Slot}
    (known : ongoing.slot quark = .ok old)
    (new : Recording.Slot)
    (place : Int) :
    (ongoing.setSlot quark new).slot place
      = if quark = place then .ok new else ongoing.slot place := by
  rcases slot_eq_ok_iff.mp known with ⟨nonneg, found⟩
  obtain ⟨index, rfl⟩ := Int.eq_ofNat_of_zero_le nonneg
  rw [Int.toNat_natCast] at found
  have slots : ∀ other : Nat, (ongoing.setSlot index new).slots[other]?
      = if index = other then some new else ongoing.slots[other]? :=
    fun _ => getElem?_setSlot found
  by_cases same : (index : Int) = place
  · subst same
    rw [if_pos rfl]
    exact slot_eq_ok_iff.mpr ⟨nonneg, (slots index).trans (if_pos rfl)⟩
  · rw [if_neg same]
    unfold slot
    by_cases inside : 0 ≤ place
    · obtain ⟨other, rfl⟩ := Int.eq_ofNat_of_zero_le inside
      have apart : index ≠ other := fun eq => same (congrArg Int.ofNat eq)
      rw [if_pos inside, if_pos inside, Int.toNat_natCast, slots other, if_neg apart]
    · rw [if_neg inside, if_neg inside]

theorem latest_le_of_checkTime
    {ongoing : Ongoing}
    {t : Int}
    {done : Unit}
    (checked : ongoing.checkTime t = .ok done) :
    ongoing.latest ≤ t := by
  unfold Ongoing.checkTime at checked
  split at checked
  · cases checked
  · omega

theorem getElem?_grow
    {ongoing : Ongoing}
    {count place : Nat}
    {slot : Recording.Slot}
    (known : (ongoing.grow count).slots[place]? = some slot) :
    ongoing.slots[place]? = some slot
      ∨ ongoing.slots.size ≤ place ∧ slot = ⟨.null, ongoing.start⟩ := by
  unfold Ongoing.grow at known
  rw [Array.getElem?_append] at known
  split at known
  · exact Or.inl known
  · rename_i new
    rw [Array.getElem?_replicate] at known
    split at known
    · exact Or.inr ⟨Nat.le_of_not_lt new, (Option.some.inj known).symm⟩
    · cases known

theorem getElem?_grow_of_lt
    {ongoing : Ongoing}
    {count place : Nat}
    (known : place < ongoing.slots.size) :
    (ongoing.grow count).slots[place]? = ongoing.slots[place]? :=
  Array.getElem?_append_left known

theorem getElem?_grow_of_le
    {ongoing : Ongoing}
    {count place : Nat}
    (new : ongoing.slots.size ≤ place)
    (inside : place < count) :
    (ongoing.grow count).slots[place]? = some ⟨.null, ongoing.start⟩ := by
  unfold grow
  rw [Array.getElem?_append_right new, Array.getElem?_replicate, if_pos (by omega)]

/-- An attribute holds what it held, however many there are. -/
theorem slot_grow
    {ongoing : Ongoing}
    {quark : Int}
    {slot : Recording.Slot}
    (found : ongoing.slot quark = .ok slot)
    (count : Nat) :
    (ongoing.grow count).slot quark = .ok slot := by
  rcases slot_eq_ok_iff.mp found with ⟨nonneg, known⟩
  refine slot_eq_ok_iff.mpr ⟨nonneg, ?_⟩
  exact (getElem?_grow_of_lt (Array.getElem?_eq_some_iff.mp known).1).trans known

theorem size_grow
    (ongoing : Ongoing)
    (count : Nat) :
    (ongoing.grow count).slots.size = max ongoing.slots.size count := by
  simp only [Ongoing.grow, Array.size_append, Array.size_replicate]
  omega

end Ongoing

/-- What is held now, and all that ended before. -/
structure Ledger where
  ongoing : Ongoing
  taken : List Interval
  /-- The end of what ended last. -/
  stop : Int

namespace Ledger

/-- The slot of an attribute. -/
def slot?
    (ledger : Ledger)
    (quark : Nat) :
    Option Recording.Slot :=
  ledger.ongoing.slots[quark]?

/--
For every attribute, what ended tiles the time from the start up to what is
held now, and nothing else ended.
-/
structure Tiled (ledger : Ledger) : Prop where
  start_le : ∀ {quark slot}, ledger.slot? quark = some slot → ledger.ongoing.start ≤ slot.since
  covered : ∀ {quark slot}, ledger.slot? quark = some slot → ∀ {t}, ledger.ongoing.start ≤ t →
    t < slot.since → ∃ i ∈ ledger.taken, i.quark = quark ∧ i.Covers t
  before : ∀ {quark slot}, ledger.slot? quark = some slot → ∀ {i}, i ∈ ledger.taken →
    i.quark = quark → ledger.ongoing.start ≤ i.start ∧ i.stop < slot.since
  known : ∀ {i}, i ∈ ledger.taken → 0 ≤ i.quark ∧ i.quark < ledger.ongoing.slots.size

/-- No attribute began to hold its value after the latest change. -/
structure Current (ledger : Ledger) : Prop where
  start_le : ledger.ongoing.start ≤ ledger.ongoing.latest
  since_le : ∀ {quark slot}, ledger.slot? quark = some slot → slot.since ≤ ledger.ongoing.latest

/-- A ledger without attributes. -/
def empty (start : Int) : Ledger :=
  ⟨.empty start, [], start⟩

/-- The ledger in which an attribute holds `value` from `t` on. -/
def switch
    (ledger : Ledger)
    (quark : Nat)
    (slot : Recording.Slot)
    (value : Value)
    (t : Int) :
    Ledger where
  ongoing := ledger.ongoing.setSlot quark ⟨value, t⟩
  taken := ledger.taken ++ slot.past quark t
  stop := if slot.since < t then t - 1 else ledger.stop

/-- The ledger in which the latest change was at `t`. -/
def advance
    (ledger : Ledger)
    (t : Int) :
    Ledger :=
  { ledger with ongoing := { ledger.ongoing with latest := t } }

/-- The ledger that was completed at `stop`. -/
def finish
    (ledger : Ledger)
    (stop : Int) :
    Ledger :=
  { ledger with stop := max ledger.stop stop }

/-- The ledger of at least `count` attributes. -/
def grow
    (ledger : Ledger)
    (count : Nat) :
    Ledger :=
  { ledger with ongoing := ledger.ongoing.grow count }

theorem size_grow
    (ledger : Ledger)
    (count : Nat) :
    (ledger.grow count).ongoing.slots.size = max ledger.ongoing.slots.size count :=
  Ongoing.size_grow _ _

/-- The ledger in which an attribute holds another value since the same time. -/
def overwrite
    (ledger : Ledger)
    (quark : Nat)
    (slot : Recording.Slot)
    (value : Value) :
    Ledger :=
  { ledger with ongoing := ledger.ongoing.setSlot quark { slot with value } }

/--
The ledger after an attribute was given a value from `t` on.  A value that it
does not hold yet must be one that `fits`.
-/
def change
    (ledger : Ledger)
    (fits : Except Fault Unit)
    (t : Int)
    (value : Value)
    (quark : Int) :
    Except Fault Ledger := do
  let slot ← ledger.ongoing.slot quark
  ledger.ongoing.checkTime t
  if slot.value = value then
    return ledger.advance t
  fits
  return (ledger.switch quark.toNat slot value t).advance t

@[simp]
theorem slot?_advance
    (ledger : Ledger)
    (t : Int)
    (quark : Nat) :
    (ledger.advance t).slot? quark = ledger.slot? quark := rfl

theorem slot?_switch
    {ledger : Ledger}
    {quark place : Nat}
    {slot : Recording.Slot}
    (known : ledger.slot? quark = some slot)
    (value : Value)
    (t : Int) :
    (ledger.switch quark slot value t).slot? place
      = if quark = place then some ⟨value, t⟩ else ledger.slot? place :=
  Ongoing.getElem?_setSlot known

/-- What was given at the same time is replaced as if it had not been given. -/
theorem switch_since
    (ledger : Ledger)
    (quark : Nat)
    (slot : Recording.Slot)
    (value : Value) :
    ledger.switch quark slot value slot.since = ledger.overwrite quark slot value := by
  have past : slot.past quark slot.since = [] := by
    unfold Recording.Slot.past
    rw [dif_neg (Int.lt_irrefl _)]
  unfold switch overwrite
  rw [past, List.append_nil, if_neg (Int.lt_irrefl _)]

/-- What ended shares no instant with the interval that ends next. -/
theorem Tiled.separate_switch
    {ledger : Ledger}
    {quark : Nat}
    {slot : Recording.Slot}
    (tiled : ledger.Tiled)
    (known : ledger.slot? quark = some slot)
    (separate : Interval.Separate ledger.taken)
    (value : Value)
    (t : Int) :
    Interval.Separate (ledger.switch quark slot value t).taken := by
  unfold switch Interval.Separate
  rw [List.pairwise_append]
  refine ⟨separate, ?_, ?_⟩
  · unfold Recording.Slot.past
    split
    · exact List.pairwise_singleton _ _
    · exact List.Pairwise.nil
  · intro i old j new same
    rcases Recording.Slot.mem_past.mp new with ⟨-, start, -, sameQuark, -⟩
    have ends := (tiled.before known old (same.trans sameQuark)).2
    left
    rw [start]
    exact ends

/-- The time of an attribute stays tiled when it is given another value. -/
theorem Tiled.switch
    {ledger : Ledger}
    {quark : Nat}
    {slot : Recording.Slot}
    {t : Int}
    (tiled : ledger.Tiled)
    (known : ledger.slot? quark = some slot)
    (since_le : slot.since ≤ t)
    (value : Value) :
    (ledger.switch quark slot value t).Tiled where
  start_le := by
    intro place other found
    have start := tiled.start_le known
    rw [slot?_switch known] at found
    split at found
    · cases found
      exact Int.le_trans start since_le
    · exact tiled.start_le found
  covered := by
    intro place other found t' begun early
    rw [slot?_switch known] at found
    split at found
    · rename_i same
      subst same
      cases found
      by_cases old : t' < slot.since
      · rcases tiled.covered known begun old with ⟨i, member, sameQuark, covers⟩
        exact ⟨i, List.mem_append_left _ member, sameQuark, covers⟩
      · simp only at early
        have held : slot.since < t := by omega
        refine ⟨⟨slot.since, t - 1, quark, slot.value, by omega⟩, ?_, rfl, ?_⟩
        · exact List.mem_append_right _ (Recording.Slot.mem_past.mpr ⟨held, rfl, rfl, rfl, rfl⟩)
        · show slot.since ≤ t' ∧ t' ≤ t - 1
          omega
    · rcases tiled.covered found begun early with ⟨i, member, sameQuark, covers⟩
      exact ⟨i, List.mem_append_left _ member, sameQuark, covers⟩
  before := by
    intro place other found i member same
    rw [slot?_switch known] at found
    rcases List.mem_append.mp member with old | new
    · split at found
      · rename_i samePlace
        subst samePlace
        cases found
        have before := tiled.before known old same
        exact ⟨before.1, Int.lt_of_lt_of_le before.2 since_le⟩
      · exact tiled.before found old same
    · rcases Recording.Slot.mem_past.mp new with ⟨held, start, stop, sameQuark, -⟩
      have samePlace : quark = place := by omega
      rw [if_pos samePlace] at found
      cases found
      have first := tiled.start_le known
      refine ⟨by rw [start]; exact first, ?_⟩
      show i.stop < t
      omega
  known := by
    intro i member
    have inside : quark < ledger.ongoing.slots.size := by
      unfold slot? at known
      rw [Array.getElem?_eq_some_iff] at known
      exact known.1
    have size : (ledger.switch quark slot value t).ongoing.slots.size
        = ledger.ongoing.slots.size := Ongoing.size_setSlot _ _ _
    rw [size]
    rcases List.mem_append.mp member with old | new
    · exact tiled.known old
    · rcases Recording.Slot.mem_past.mp new with ⟨-, -, -, sameQuark, -⟩
      omega

theorem Tiled.advance
    {ledger : Ledger}
    (tiled : ledger.Tiled)
    (t : Int) :
    (ledger.advance t).Tiled :=
  ⟨tiled.start_le, tiled.covered, tiled.before, tiled.known⟩

theorem tiled_empty
    (start : Int) :
    (empty start).Tiled where
  start_le found := by cases found
  covered found := by cases found
  before found := by cases found
  known member := by cases member

theorem current_empty
    (start : Int) :
    (empty start).Current where
  start_le := Int.le_refl start
  since_le found := by cases found

/-- New attributes have held null since the start. -/
theorem Tiled.grow
    {ledger : Ledger}
    (tiled : ledger.Tiled)
    (count : Nat) :
    (ledger.grow count).Tiled where
  start_le := by
    intro quark slot found
    rcases Ongoing.getElem?_grow found with old | ⟨-, rfl⟩
    · exact tiled.start_le old
    · exact Int.le_refl _
  covered := by
    intro quark slot found t begun early
    rcases Ongoing.getElem?_grow found with old | ⟨-, rfl⟩
    · exact tiled.covered old begun early
    · exact absurd early (Int.not_lt.mpr begun)
  before := by
    intro quark slot found i member same
    rcases Ongoing.getElem?_grow found with old | ⟨new, -⟩
    · exact tiled.before old member same
    · have := tiled.known member
      omega
  known := by
    intro i member
    have := tiled.known member
    rw [size_grow]
    omega

theorem slot?_overwrite
    {ledger : Ledger}
    {quark place : Nat}
    {slot : Recording.Slot}
    (known : ledger.slot? quark = some slot)
    (value : Value) :
    (ledger.overwrite quark slot value).slot? place
      = if quark = place then some { slot with value } else ledger.slot? place :=
  Ongoing.getElem?_setSlot known

/-- Another value over the same time leaves the times as they are. -/
theorem slot?_of_overwrite
    {ledger : Ledger}
    {quark place : Nat}
    {slot other : Recording.Slot}
    {value : Value}
    (known : ledger.slot? quark = some slot)
    (found : (ledger.overwrite quark slot value).slot? place = some other) :
    ∃ old, ledger.slot? place = some old ∧ old.since = other.since := by
  rw [slot?_overwrite known] at found
  split at found
  · rename_i same
    subst same
    cases found
    exact ⟨slot, known, rfl⟩
  · exact ⟨other, found, rfl⟩

theorem Tiled.overwrite
    {ledger : Ledger}
    {quark : Nat}
    {slot : Recording.Slot}
    (tiled : ledger.Tiled)
    (known : ledger.slot? quark = some slot)
    (value : Value) :
    (ledger.overwrite quark slot value).Tiled where
  start_le := by
    intro place other found
    rcases slot?_of_overwrite known found with ⟨old, oldFound, same⟩
    rw [← same]
    exact tiled.start_le oldFound
  covered := by
    intro place other found
    rcases slot?_of_overwrite known found with ⟨old, oldFound, same⟩
    rw [← same]
    exact tiled.covered oldFound
  before := by
    intro place other found
    rcases slot?_of_overwrite known found with ⟨old, oldFound, same⟩
    rw [← same]
    exact tiled.before oldFound
  known := by
    intro i member
    have size : (ledger.overwrite quark slot value).ongoing.slots.size
        = ledger.ongoing.slots.size := Ongoing.size_setSlot _ _ _
    rw [size]
    exact tiled.known member

theorem Current.grow
    {ledger : Ledger}
    (current : ledger.Current)
    (count : Nat) :
    (ledger.grow count).Current where
  start_le := current.start_le
  since_le := by
    intro quark slot found
    rcases Ongoing.getElem?_grow found with old | ⟨-, rfl⟩
    · exact current.since_le old
    · exact current.start_le

theorem Current.overwrite
    {ledger : Ledger}
    {quark : Nat}
    {slot : Recording.Slot}
    (current : ledger.Current)
    (known : ledger.slot? quark = some slot)
    (value : Value) :
    (ledger.overwrite quark slot value).Current where
  start_le := current.start_le
  since_le := by
    intro place other found
    rcases slot?_of_overwrite known found with ⟨old, oldFound, same⟩
    rw [← same]
    exact current.since_le oldFound

/-! ## Changes -/

section Change

variable {ledger after : Ledger} {fits : Except Fault Unit} {t : Int} {value : Value} {quark : Int}

/-- A change that is made either gives an attribute the value it holds, or another that fits. -/
theorem change_eq_ok
    (changed : ledger.change fits t value quark = .ok after) :
    ∃ (place : Nat) (slot : Recording.Slot),
      quark = place
        ∧ ledger.slot? place = some slot
        ∧ ledger.ongoing.latest ≤ t
        ∧ (slot.value = value ∧ after = ledger.advance t
          ∨ slot.value ≠ value ∧ fits = .ok ()
            ∧ after = (ledger.switch place slot value t).advance t) := by
  unfold change at changed
  cases found : ledger.ongoing.slot quark with
  | error fault =>
      rw [found] at changed
      cases changed
  | ok slot =>
      rcases Ongoing.slot_eq_ok_iff.mp found with ⟨nonneg, known⟩
      rw [found] at changed
      cases checked : ledger.ongoing.checkTime t with
      | error fault =>
          rw [checked] at changed
          cases changed
      | ok done =>
          rw [checked] at changed
          refine ⟨quark.toNat, slot, (Int.toNat_of_nonneg nonneg).symm, known,
            Ongoing.latest_le_of_checkTime checked, ?_⟩
          simp only [bind, Except.bind] at changed
          by_cases same : slot.value = value
          · rw [if_pos same] at changed
            cases changed
            exact Or.inl ⟨same, rfl⟩
          · rw [if_neg same] at changed
            cases fits with
            | error fault => cases changed
            | ok done =>
                cases changed
                exact Or.inr ⟨same, rfl, rfl⟩

/-- A change that is made is the latest. -/
theorem latest_of_change
    (changed : ledger.change fits t value quark = .ok after) :
    after.ongoing.latest = t := by
  rcases change_eq_ok changed with ⟨place, slot, -, -, -, ⟨-, rfl⟩ | ⟨-, -, rfl⟩⟩ <;> rfl

/-- A change is refused for its attribute, for its time or for its value. -/
theorem change_eq_error
    {fault : Fault}
    (refused : ledger.change fits t value quark = .error fault) :
    ledger.ongoing.slot quark = .error fault
      ∨ (∃ slot, ledger.ongoing.slot quark = .ok slot ∧ ledger.ongoing.checkTime t = .error fault)
      ∨ ∃ slot, ledger.ongoing.slot quark = .ok slot ∧ ledger.ongoing.checkTime t = .ok ()
        ∧ slot.value ≠ value ∧ fits = .error fault := by
  unfold change at refused
  cases found : ledger.ongoing.slot quark with
  | error other =>
      rw [found] at refused
      cases refused
      exact Or.inl rfl
  | ok slot =>
      rw [found] at refused
      cases checked : ledger.ongoing.checkTime t with
      | error other =>
          rw [checked] at refused
          cases refused
          exact Or.inr (Or.inl ⟨slot, rfl, rfl⟩)
      | ok done =>
          rw [checked] at refused
          simp only [bind, Except.bind] at refused
          by_cases same : slot.value = value
          · rw [if_pos same] at refused
            cases refused
          · rw [if_neg same] at refused
            cases fits with
            | error other =>
                cases refused
                exact Or.inr (Or.inr ⟨slot, rfl, rfl, same, rfl⟩)
            | ok done => cases refused

/-- After a change no attribute began to hold its value later than the change was. -/
theorem Current.change
    (current : ledger.Current)
    (changed : ledger.change fits t value quark = .ok after) :
    after.Current := by
  rcases change_eq_ok changed with ⟨place, slot, rfl, known, onTime, ⟨-, rfl⟩ | ⟨-, -, rfl⟩⟩
  · refine ⟨Int.le_trans current.start_le onTime, ?_⟩
    intro other found held
    exact Int.le_trans (current.since_le held) onTime
  · refine ⟨Int.le_trans current.start_le onTime, ?_⟩
    intro other found held
    rw [slot?_advance, slot?_switch known] at held
    split at held
    · cases held
      exact Int.le_refl _
    · exact Int.le_trans (current.since_le held) onTime

end Change

/-! ## Closing -/

/-- The ledger in which what an attribute holds ended at `stop`, if it began by then. -/
def closeSlot
    (stop : Int)
    (ledger : Ledger)
    (quark : Nat) :
    Ledger :=
  match ledger.slot? quark with
  | some slot => if slot.since ≤ stop then ledger.switch quark slot .null (stop + 1) else ledger
  | none => ledger

/-- The ledger in which all that is held ended at `stop`. -/
def close
    (ledger : Ledger)
    (stop : Int) :
    Ledger :=
  ((List.range ledger.ongoing.slots.size).foldl (closeSlot stop) ledger).advance stop

@[simp]
theorem size_closeSlot
    (stop : Int)
    (ledger : Ledger)
    (quark : Nat) :
    (ledger.closeSlot stop quark).ongoing.slots.size = ledger.ongoing.slots.size := by
  unfold closeSlot
  split
  · split
    · exact Ongoing.size_setSlot _ _ _
    · rfl
  · rfl

/-- Nothing ends after the closing time. -/
theorem stop_closeSlot_le
    {ledger : Ledger}
    {stop : Int}
    {quark : Nat}
    (early : ledger.stop ≤ stop) :
    (ledger.closeSlot stop quark).stop ≤ stop := by
  unfold closeSlot
  split
  · rename_i slot known
    split
    · rename_i begun
      have ends : (ledger.switch quark slot .null (stop + 1)).stop = stop + 1 - 1 :=
        if_pos (Int.lt_add_one_of_le begun)
      exact Int.le_of_eq (ends.trans (Int.add_sub_cancel stop 1))
    · exact early
  · exact early

@[simp]
theorem size_close
    (ledger : Ledger)
    (stop : Int) :
    (ledger.close stop).ongoing.slots.size = ledger.ongoing.slots.size := by
  unfold close
  generalize List.range ledger.ongoing.slots.size = quarks
  show (quarks.foldl (closeSlot stop) ledger).ongoing.slots.size = _
  induction quarks generalizing ledger with
  | nil => rfl
  | cons quark rest ih => rw [List.foldl_cons, ih, size_closeSlot]

@[simp]
theorem start_closeSlot
    (stop : Int)
    (ledger : Ledger)
    (quark : Nat) :
    (ledger.closeSlot stop quark).ongoing.start = ledger.ongoing.start := by
  unfold closeSlot
  split
  · split <;> rfl
  · rfl

/-- An attribute that began by the closing time holds null after it. -/
theorem slot?_closeSlot
    {ledger : Ledger}
    {stop : Int}
    {quark : Nat}
    {slot : Recording.Slot}
    (known : ledger.slot? quark = some slot)
    (begun : slot.since ≤ stop)
    (place : Nat) :
    (ledger.closeSlot stop quark).slot? place
      = if quark = place then some ⟨.null, stop + 1⟩ else ledger.slot? place := by
  unfold closeSlot
  simp only [known, if_pos begun]
  exact slot?_switch known .null (stop + 1)

/-- After the first `count` attributes were closed, they hold null and the others what they held. -/
theorem slot?_foldl_closeSlot
    {ledger : Ledger}
    {stop : Int}
    {count : Nat}
    (begun : ∀ {quark slot}, ledger.slot? quark = some slot → slot.since ≤ stop)
    (inside : count ≤ ledger.ongoing.slots.size)
    (place : Nat) :
    ((List.range count).foldl (closeSlot stop) ledger).slot? place
      = if place < count then some ⟨.null, stop + 1⟩ else ledger.slot? place := by
  induction count generalizing place with
  | zero => rfl
  | succ count ih =>
      have before := ih (Nat.le_of_lt inside)
      have known : ledger.slot? count = some ledger.ongoing.slots[count] :=
        Array.getElem?_eq_getElem inside
      have still : ((List.range count).foldl (closeSlot stop) ledger).slot? count
          = some ledger.ongoing.slots[count] := by
        rw [before, if_neg (Nat.lt_irrefl count), known]
      rw [List.range_succ, List.foldl_append, List.foldl_cons, List.foldl_nil,
        slot?_closeSlot still (begun known), before]
      grind

/-- What is held after all was closed is nothing, from after the closing time on. -/
theorem ongoing_close
    {ledger : Ledger}
    {stop : Int}
    (current : ledger.Current)
    (onTime : ledger.ongoing.latest ≤ stop) :
    (ledger.close stop).ongoing
      = ⟨Array.replicate ledger.ongoing.slots.size ⟨.null, stop + 1⟩, ledger.ongoing.start,
        stop⟩ := by
  have begun : ∀ {quark slot}, ledger.slot? quark = some slot → slot.since ≤ stop :=
    fun known => Int.le_trans (current.since_le known) onTime
  have slots : (ledger.close stop).ongoing.slots
      = Array.replicate ledger.ongoing.slots.size ⟨.null, stop + 1⟩ := by
    apply Array.ext_getElem?
    intro place
    rw [Array.getElem?_replicate]
    refine (slot?_foldl_closeSlot begun (Nat.le_refl _) place).trans ?_
    split
    · rfl
    · rename_i outside
      exact Array.getElem?_eq_none (Nat.not_lt.mp outside)
  have start : (ledger.close stop).ongoing.start = ledger.ongoing.start := by
    unfold close
    generalize List.range ledger.ongoing.slots.size = quarks
    show (quarks.foldl (closeSlot stop) ledger).ongoing.start = _
    clear slots begun current onTime
    induction quarks generalizing ledger with
    | nil => rfl
    | cons quark rest ih => rw [List.foldl_cons, ih, start_closeSlot]
  rw [← slots, ← start]
  rfl

/-- What is held after all was closed is what a history holds that is closed from the first. -/
theorem ongoing_close_eq_closed
    {ledger : Ledger}
    {stop : Int}
    (current : ledger.Current)
    (onTime : ledger.ongoing.latest ≤ stop)
    (dated : ledger.ongoing.slots.size = 0 ∨ stop < latestInstant) :
    (ledger.close stop).ongoing
      = .closed ledger.ongoing.start stop ledger.ongoing.slots.size := by
  rw [ongoing_close current onTime]
  unfold Ongoing.closed
  rcases dated with empty | early
  · rw [empty]
    rfl
  · rw [Int.min_eq_left (Int.add_one_le_of_lt early)]

/-- Nothing ends after the closing time, however many attributes are closed. -/
theorem stop_close_le
    {ledger : Ledger}
    {stop : Int}
    (early : ledger.stop ≤ stop) :
    (ledger.close stop).stop ≤ stop := by
  unfold close
  generalize List.range ledger.ongoing.slots.size = quarks
  show (quarks.foldl (closeSlot stop) ledger).stop ≤ stop
  induction quarks generalizing ledger with
  | nil => exact early
  | cons quark rest ih => exact ih (stop_closeSlot_le early)

end Ledger

end Chronicle
