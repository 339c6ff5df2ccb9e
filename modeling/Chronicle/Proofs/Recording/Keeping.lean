import Chronicle.Proofs.Backend.Holding
import Chronicle.Proofs.Recording.Ledger

/-!
# A recording keeps a ledger

A recording keeps a ledger when its backend holds what ended and the cursor of
its store stands, for every attribute, where the attribute began to hold its
present value.  What ends next is then just what the store expects, so the
store refuses nothing that a recording wants to store, and every change leads
from one ledger to the next.
-/

namespace Chronicle

namespace Recording

/-- A recording whose backend holds all that ended and that answers by its ledger. -/
structure Keeps
    (s : Placed Recording)
    (ledger : Ledger) : Prop where
  ongoing : s.subject.ongoing = ledger.ongoing
  healthy : s.subject.store.corrupted = false
  start : s.subject.store.start = ledger.ongoing.start
  holds : Backend.Holds ⟨s.volume, s.subject.store.backend⟩ ledger.taken
  stop : s.subject.store.stop = ledger.stop
  within : ∀ i ∈ ledger.taken, i.stop ≤ ledger.stop
  tiled : ledger.Tiled

/-- A recording whose store expects what its ledger will have to store next. -/
structure Takes
    (s : Placed Recording)
    (ledger : Ledger) : Prop where
  keeps : Keeps s ledger
  taking : s.subject.store.backend.Taking
  cursor : ∀ quark : Nat, s.subject.store.expectedStart quark
    = ((ledger.slot? quark).map (·.since)).getD ledger.ongoing.start
  last : s.subject.store.lastStop = ledger.stop
  fits : ∀ {quark slot}, ledger.slot? quark = some slot →
    s.subject.store.checkFits slot.value = .ok ()
  nullFits : s.subject.store.checkFits .null = .ok ()

/-- A recording that can be changed at any time from its latest change on. -/
structure Goes
    (s : Placed Recording)
    (ledger : Ledger) : Prop where
  takes : Takes s ledger
  current : ledger.Current
  last_le : ledger.stop ≤ max ledger.ongoing.start (ledger.ongoing.latest - 1)

end Recording

namespace Store

theorem checkFits_eq_ok_iff
    {store : Store}
    {value : Value} :
    store.checkFits value = .ok () ↔
      ∀ capacity, store.backend.maxIntervalSize? = some capacity →
        Interval.sizeWith value ≤ capacity := by
  unfold checkFits
  cases store.backend.maxIntervalSize? with
  | none => simp
  | some capacity =>
      by_cases large : capacity < Interval.sizeWith value
      · simp [large]
      · simp only [if_neg large, true_iff]
        intro other same
        cases same
        omega

/-- What fits is decided by the bound for the size of intervals alone. -/
theorem checkFits_congr
    {store other : Store}
    (same : other.backend.maxIntervalSize? = store.backend.maxIntervalSize?)
    (value : Value) :
    other.checkFits value = store.checkFits value := by
  unfold checkFits
  rw [same]

end Store

namespace Recording.Takes

variable {s : Placed Recording} {ledger : Ledger}

theorem slot_of_known
    {quark : Nat}
    {slot : Slot}
    (takes : Takes s ledger)
    (known : ledger.slot? quark = some slot) :
    s.subject.ongoing.slot quark = .ok slot := by
  rw [takes.keeps.ongoing]
  exact Ongoing.slot_eq_ok_iff.mpr ⟨Int.natCast_nonneg _, known⟩

theorem checkTime_of_le
    {t : Int}
    (takes : Takes s ledger)
    (onTime : ledger.ongoing.latest ≤ t) :
    s.subject.ongoing.checkTime t = .ok () := by
  rw [takes.keeps.ongoing]
  unfold Ongoing.checkTime
  rw [if_neg (Int.not_lt.mpr onTime)]

/-- What ends next is an interval that the backend admits. -/
theorem admits
    {quark : Nat}
    {slot : Slot}
    {t : Int}
    (takes : Takes s ledger)
    (known : ledger.slot? quark = some slot)
    (held : slot.since < t)
    (late : ledger.stop ≤ t - 1) :
    s.subject.store.backend.Admits ledger.taken
      ⟨slot.since, t - 1, quark, slot.value, by omega⟩ where
  small := Store.checkFits_eq_ok_iff.mp (takes.fits known)
  begun := by
    have begun := takes.keeps.tiled.start_le known
    rw [← takes.keeps.start] at begun
    exact begun
  late := by
    rw [← takes.keeps.stop] at late
    exact late
  nonneg := Int.natCast_nonneg quark
  separate := by
    have separate := takes.keeps.tiled.separate_switch known takes.keeps.holds.separate slot.value t
    unfold Ledger.switch Slot.past at separate
    rwa [dif_pos held] at separate

/-- A store that expects an interval takes it if its backend does. -/
theorem store_insert
    {quark : Nat}
    {slot : Slot}
    {t : Int}
    {volume : Volume}
    {backend : Backend}
    (takes : Takes s ledger)
    (known : ledger.slot? quark = some slot)
    (held : slot.since < t)
    (late : ledger.stop ≤ t - 1)
    (took : Backend.insert ⟨slot.since, t - 1, quark, slot.value, by omega⟩
      ⟨s.volume, s.subject.store.backend⟩ = .ok () ⟨volume, backend⟩) :
    Store.insert slot.since (t - 1) quark slot.value ⟨s.volume, s.subject.store⟩
      = .ok () ⟨volume, Store.advance { s.subject.store with backend } quark (t - 1)⟩ := by
  have healthy : s.subject.store.checkHealthy = .ok () := by
    unfold Store.checkHealthy
    rw [takes.keeps.healthy]
    rfl
  have expected : s.subject.store.expectedStart quark = slot.since := by
    rw [takes.cursor, known]
    rfl
  have made : Interval.make slot.since (t - 1) quark slot.value
      = .ok ⟨slot.since, t - 1, quark, slot.value, by omega⟩ := by
    unfold Interval.make
    rw [dif_pos (by omega)]
  unfold Store.insert
  rw [Step.subject_bind_apply, healthy, Step.ofExcept_ok, Step.pure_bind_apply,
    if_neg (Int.not_lt.mpr (Int.natCast_nonneg quark)), if_neg (not_not.mpr expected.symm),
    if_neg (Int.not_lt.mpr (takes.last ▸ late)), made, Step.ofExcept_ok]
  exact Step.bind_of_ok (Step.onPart_of_ok took)

/-- A store that took what an attribute held expects what the attribute will have held. -/
theorem switch
    {quark : Nat}
    {slot : Slot}
    {t : Int}
    {value : Value}
    {volume : Volume}
    {backend : Backend}
    (takes : Takes s ledger)
    (known : ledger.slot? quark = some slot)
    (held : slot.since < t)
    (late : ledger.stop ≤ t - 1)
    (holds : Backend.Holds ⟨volume, backend⟩ (ledger.switch quark slot value t).taken)
    (alike : s.subject.store.backend.Alike backend)
    (stop : backend.stop = t - 1)
    (taking : backend.Taking)
    (fits : s.subject.store.checkFits value = .ok ()) :
    Takes ⟨volume, ⟨ledger.ongoing.setSlot quark ⟨value, t⟩,
        Store.advance { s.subject.store with backend } quark (t - 1)⟩⟩
      (ledger.switch quark slot value t) := by
  have ends : (ledger.switch quark slot value t).stop = t - 1 := if_pos held
  have start : backend.start = s.subject.store.start := alike.start
  constructor
  · constructor
    · rfl
    · exact takes.keeps.healthy
    · exact start.trans takes.keeps.start
    · exact holds
    · exact stop.trans ends.symm
    · intro i member
      rw [ends]
      rcases List.mem_append.mp member with old | new
      · exact Int.le_trans (takes.keeps.within i old) late
      · exact Int.le_of_eq (Slot.mem_past.mp new).2.2.1
    · exact takes.keeps.tiled.switch known (Int.le_of_lt held) value
  · exact taking
  · intro place
    have cursor := takes.cursor place
    have padded := getD_setPadded s.subject.store.nextStarts quark place t s.subject.store.start
    unfold Store.expectedStart at cursor ⊢
    unfold Store.advance
    rw [Int.toNat_natCast] at cursor ⊢
    rw [Ledger.slot?_switch known, Int.toNat_natCast, Int.sub_add_cancel]
    show (setPadded s.subject.store.nextStarts quark t backend.start).getD place backend.start = _
    rw [start, padded]
    by_cases same : place = quark
    · rw [if_pos same, if_pos same.symm]
      rfl
    · rw [if_neg same, if_neg (Ne.symm same)]
      exact cursor
  · exact ends.symm
  · intro place other found
    rw [Ledger.slot?_switch known] at found
    show Store.checkFits _ _ = _
    apply (Store.checkFits_congr alike.capacity _).trans
    split at found
    · cases found
      exact fits
    · exact takes.fits found
  · exact (Store.checkFits_congr alike.capacity _).trans takes.nullFits

/--
The store takes what an attribute held, up to any time after the latest end,
and then expects what the attribute will have held.
-/
theorem insert
    {quark : Nat}
    {slot : Slot}
    {t : Int}
    (takes : Takes s ledger)
    (known : ledger.slot? quark = some slot)
    (held : slot.since < t)
    (late : ledger.stop ≤ t - 1) :
    ∃ reached : Placed Store,
      Store.insert slot.since (t - 1) quark slot.value ⟨s.volume, s.subject.store⟩ = .ok () reached
        ∧ s.subject.store.backend.Alike reached.subject.backend
        ∧ ∀ value, s.subject.store.checkFits value = .ok () →
          Takes ⟨reached.volume, ⟨ledger.ongoing.setSlot quark ⟨value, t⟩, reached.subject⟩⟩
            (ledger.switch quark slot value t) := by
  rcases takes.keeps.holds.insert takes.taking (takes.admits known held late) with
    ⟨⟨volume, backend⟩, took, alike, stop, taking, kept⟩
  refine ⟨_, takes.store_insert known held late took, alike, ?_⟩
  intro value fits
  have holds : Backend.Holds ⟨volume, backend⟩ (ledger.switch quark slot value t).taken := by
    unfold Ledger.switch Slot.past
    rw [dif_pos held]
    exact kept
  exact takes.switch known held late holds alike stop taking fits

/-- Another value over the same time is nothing that the store takes notice of. -/
theorem overwrite
    {quark : Nat}
    {slot : Slot}
    {value : Value}
    (takes : Takes s ledger)
    (known : ledger.slot? quark = some slot)
    (fits : s.subject.store.checkFits value = .ok ()) :
    Takes ⟨s.volume, { s.subject with ongoing := ledger.ongoing.setSlot quark { slot with value } }⟩
      (ledger.overwrite quark slot value) where
  keeps := ⟨rfl, takes.keeps.healthy, takes.keeps.start, takes.keeps.holds, takes.keeps.stop,
    takes.keeps.within, takes.keeps.tiled.overwrite known value⟩
  taking := takes.taking
  cursor := by
    intro place
    apply (takes.cursor place).trans
    rw [Ledger.slot?_overwrite known]
    by_cases same : quark = place
    · subst same
      rw [if_pos rfl, known]
      rfl
    · rw [if_neg same]
      rfl
  last := takes.last
  fits := by
    intro place other found
    rw [Ledger.slot?_overwrite known] at found
    split at found
    · cases found
      exact fits
    · exact takes.fits found
  nullFits := takes.nullFits

theorem advance
    (takes : Takes s ledger)
    (t : Int) :
    Takes ⟨s.volume, { s.subject with ongoing := { ledger.ongoing with latest := t } }⟩
      (ledger.advance t) where
  keeps := ⟨rfl, takes.keeps.healthy, takes.keeps.start, takes.keeps.holds, takes.keeps.stop,
    takes.keeps.within, takes.keeps.tiled.advance t⟩
  taking := takes.taking
  cursor := takes.cursor
  last := takes.last
  fits := takes.fits
  nullFits := takes.nullFits

/-- New attributes are expected to be stored from the start on. -/
theorem grow
    (takes : Takes s ledger)
    (count : Nat) :
    Takes ⟨s.volume, { s.subject with ongoing := ledger.ongoing.grow count }⟩
      (ledger.grow count) where
  keeps := ⟨rfl, takes.keeps.healthy, takes.keeps.start, takes.keeps.holds, takes.keeps.stop,
    takes.keeps.within, takes.keeps.tiled.grow count⟩
  taking := takes.taking
  cursor := by
    intro quark
    apply (takes.cursor quark).trans
    cases found : (ledger.grow count).slot? quark with
    | none =>
        cases old : ledger.slot? quark with
        | none => rfl
        | some slot =>
            unfold Ledger.slot? at found old
            rw [Array.getElem?_eq_none_iff] at found
            have inside := (Array.getElem?_eq_some_iff.mp old).1
            have size : (ledger.grow count).ongoing.slots.size
                = max ledger.ongoing.slots.size count := Ongoing.size_grow _ _
            omega
    | some slot =>
        rcases Ongoing.getElem?_grow found with old | ⟨new, rfl⟩
        · rw [show ledger.slot? quark = some slot from old]
          rfl
        · rw [show ledger.slot? quark = none from Array.getElem?_eq_none new]
          rfl
  last := takes.last
  fits := by
    intro quark slot found
    rcases Ongoing.getElem?_grow found with old | ⟨-, rfl⟩
    · exact takes.fits old
    · exact takes.nullFits
  nullFits := takes.nullFits

end Recording.Takes

/-- A recording over a backend that holds nothing can be changed at any time. -/
theorem Recording.goes_ofBackend
    {volume : Volume}
    {backend : Backend}
    {start : Int}
    (holds : Backend.Holds ⟨volume, backend⟩ [])
    (begins : backend.start = start)
    (stop : backend.stop = start)
    (taking : backend.Taking) :
    Goes ⟨volume, ⟨.empty start, .ofBackend backend⟩⟩ (.empty start) := by
  have takes : Takes ⟨volume, ⟨.empty start, .ofBackend backend⟩⟩ (.empty start) := by
    constructor
    · constructor
      · rfl
      · rfl
      · exact begins
      · exact holds
      · exact stop
      · intro i member
        cases member
      · exact Ledger.tiled_empty start
    · exact taking
    · intro quark
      show (Store.ofBackend backend).expectedStart quark = start
      unfold Store.expectedStart
      exact begins
    · exact begins
    · intro quark slot found
      cases found
    · exact Store.checkFits_eq_ok_iff.mpr fun capacity bounded => holds.null_fits bounded
  exact ⟨takes, Ledger.current_empty start, Int.le_max_left _ _⟩

namespace Recording.Goes

variable {s : Placed Recording} {ledger : Ledger}

theorem overwrite
    {quark : Nat}
    {slot : Slot}
    {value : Value}
    (goes : Goes s ledger)
    (known : ledger.slot? quark = some slot)
    (fits : s.subject.store.checkFits value = .ok ()) :
    Goes ⟨s.volume, { s.subject with ongoing := ledger.ongoing.setSlot quark { slot with value } }⟩
      (ledger.overwrite quark slot value) where
  takes := goes.takes.overwrite known fits
  current := goes.current.overwrite known value
  last_le := goes.last_le

theorem grow
    (goes : Goes s ledger)
    (count : Nat) :
    Goes ⟨s.volume, { s.subject with ongoing := ledger.ongoing.grow count }⟩
      (ledger.grow count) where
  takes := goes.takes.grow count
  current := goes.current.grow count
  last_le := goes.last_le

end Recording.Goes

/-! ## Changes -/

/-- A step that stores an interval wherever a store takes it. -/
def Store.Follows (insert : Int → Int → Int → Value → Step Store Unit) : Prop :=
  ∀ {start stop quark : Int} {value : Value} {s reached : Placed Store},
    Store.insert start stop quark value s = .ok () reached →
      insert start stop quark value s = .ok () reached

theorem Store.follows_insert : Store.Follows Store.insert := id

namespace Recording

/-- A change that stores what ends by the given step. -/
def changeWith
    (insert : Int → Int → Int → Value → Step Store Unit)
    (t : Int)
    (value : Value)
    (quark : Int) :
    Step Recording Unit := do
  let recording ← Step.subject
  let slot ← Step.ofExcept (recording.ongoing.slot quark)
  Step.ofExcept (recording.ongoing.checkTime t)
  if slot.value ≠ value then
    if t < slot.since then
      throw (.timeOutside t slot.since latestInstant)
    Step.ofExcept (recording.store.checkFits value)
    if slot.since < t then
      onStore (insert slot.since (t - 1) quark slot.value)
    updateOngoing fun ongoing => ongoing.setSlot quark ⟨value, t⟩
  updateOngoing fun ongoing => { ongoing with latest := t }

theorem changeWith_insert : changeWith Store.insert = change := rfl

namespace Goes

variable {s : Placed Recording} {ledger : Ledger} {place : Nat} {slot : Slot} {t : Int}
  {value : Value}

/-- Setting what an attribute holds already only moves the latest change on. -/
theorem change_same
    (goes : Goes s ledger)
    (known : ledger.slot? place = some slot)
    (onTime : ledger.ongoing.latest ≤ t)
    (insert : Int → Int → Int → Value → Step Store Unit) :
    changeWith insert t slot.value place s
      = .ok () ⟨s.volume, { s.subject with ongoing := { ledger.ongoing with latest := t } }⟩ := by
  have found := goes.takes.slot_of_known known
  have checked := goes.takes.checkTime_of_le onTime
  simp only [changeWith, Step.subject_bind_apply, found, checked, Step.ofExcept_ok,
    Step.pure_bind_apply, ne_eq, not_true_eq_false, if_false]
  rw [← goes.takes.keeps.ongoing]
  rfl

/-- What an attribute held for some time is stored when it changes. -/
theorem change_held
    {insert : Int → Int → Int → Value → Step Store Unit}
    {stored : Placed Store}
    (goes : Goes s ledger)
    (known : ledger.slot? place = some slot)
    (onTime : ledger.ongoing.latest ≤ t)
    (different : slot.value ≠ value)
    (fits : s.subject.store.checkFits value = .ok ())
    (held : slot.since < t)
    (took : insert slot.since (t - 1) place slot.value ⟨s.volume, s.subject.store⟩
      = .ok () stored) :
    changeWith insert t value place s
      = .ok () ⟨stored.volume,
        ⟨{ ledger.ongoing.setSlot place ⟨value, t⟩ with latest := t }, stored.subject⟩⟩ := by
  have found := goes.takes.slot_of_known known
  have checked := goes.takes.checkTime_of_le onTime
  have begun : ¬ t < slot.since := by omega
  simp only [changeWith, Step.subject_bind_apply, found, checked, Step.ofExcept_ok,
    Step.pure_bind_apply, different, ne_eq, not_false_eq_true, if_true, begun, if_false, fits,
    held]
  apply (Step.bind_of_ok (Step.onPart_of_ok took)).trans
  rw [goes.takes.keeps.ongoing]
  rfl

/-- What an attribute was given at the same time is replaced, and nothing is stored. -/
theorem change_at_once
    (goes : Goes s ledger)
    (known : ledger.slot? place = some slot)
    (onTime : ledger.ongoing.latest ≤ slot.since)
    (different : slot.value ≠ value)
    (fits : s.subject.store.checkFits value = .ok ())
    (insert : Int → Int → Int → Value → Step Store Unit) :
    changeWith insert slot.since value place s
      = .ok () ⟨s.volume, { s.subject with
        ongoing := { ledger.ongoing.setSlot place { slot with value } with
          latest := slot.since } }⟩ := by
  have found := goes.takes.slot_of_known known
  have checked := goes.takes.checkTime_of_le onTime
  simp only [changeWith, Step.subject_bind_apply, found, checked, Step.ofExcept_ok,
    Step.pure_bind_apply, different, ne_eq, not_false_eq_true, if_true, Int.lt_irrefl, if_false,
    fits]
  rw [← goes.takes.keeps.ongoing]
  rfl

/-- A recording is changed wherever its ledger is; the store never has a say. -/
theorem change
    {after : Ledger}
    {quark : Int}
    (goes : Goes s ledger)
    (changed : ledger.change (s.subject.store.checkFits value) t value quark = .ok after) :
    ∃ reached,
      (∀ insert, Store.Follows insert → changeWith insert t value quark s = .ok () reached)
        ∧ Goes reached after
        ∧ s.subject.store.backend.Alike reached.subject.store.backend := by
  have takes := goes.takes
  have calm := goes.last_le
  have current := goes.current.change changed
  rcases Ledger.change_eq_ok changed with ⟨place, slot, rfl, known, onTime, rest⟩
  have begun : slot.since ≤ t := Int.le_trans (goes.current.since_le known) onTime
  rcases rest with ⟨rfl, rfl⟩ | ⟨different, fits, rfl⟩
  · refine ⟨_, fun insert _ => goes.change_same known onTime insert,
      ⟨takes.advance t, current, ?_⟩, ⟨rfl, rfl⟩⟩
    show ledger.stop ≤ max ledger.ongoing.start (t - 1)
    omega
  · rcases Int.lt_or_eq_of_le begun with held | rfl
    · have late : ledger.stop ≤ t - 1 := by
        have first := takes.keeps.tiled.start_le known
        omega
      rcases takes.insert known held late with ⟨stored, took, alike, kept⟩
      refine ⟨_, fun insert follows => goes.change_held known onTime different fits held
        (follows took), ⟨(kept value fits).advance t, current, ?_⟩, alike⟩
      show (ledger.switch place slot value t).stop ≤ max ledger.ongoing.start (t - 1)
      rw [show (ledger.switch place slot value t).stop = t - 1 from if_pos held]
      exact Int.le_max_right _ _
    · have moved := (takes.overwrite known fits).advance slot.since
      rw [Ledger.switch_since] at current ⊢
      refine ⟨_, fun insert _ => goes.change_at_once known onTime different fits insert,
        ⟨moved, current, ?_⟩, ⟨rfl, rfl⟩⟩
      show ledger.stop ≤ max ledger.ongoing.start (slot.since - 1)
      omega

end Goes

/-- A change that the ledger refuses changes nothing. -/
theorem Goes.change_of_error
    {s : Placed Recording}
    {ledger : Ledger}
    {insert : Int → Int → Int → Value → Step Store Unit}
    {t : Int}
    {value : Value}
    {quark : Int}
    {fault : Fault}
    (goes : Goes s ledger)
    (refused : ledger.change (s.subject.store.checkFits value) t value quark = .error fault) :
    changeWith insert t value quark s = .error fault s := by
  have ongoing := goes.takes.keeps.ongoing
  rcases Ledger.change_eq_error refused with
    missing | ⟨slot, found, early⟩ | ⟨slot, found, onTime, different, unfit⟩
  · simp only [changeWith, Step.subject_bind_apply, ongoing, missing, Step.ofExcept_error,
      Step.throw_bind_apply]
  · simp only [changeWith, Step.subject_bind_apply, ongoing, found, early, Step.ofExcept_ok,
      Step.pure_bind_apply, Step.ofExcept_error, Step.throw_bind_apply]
  · have begun : ¬ t < slot.since := by
      rcases Ongoing.slot_eq_ok_iff.mp found with ⟨-, known⟩
      have := goes.current.since_le known
      have := Ongoing.latest_le_of_checkTime onTime
      omega
    simp only [changeWith, Step.subject_bind_apply, ongoing, found, onTime, Step.ofExcept_ok,
      Step.pure_bind_apply, different, ne_eq, not_false_eq_true, if_true, begun, if_false,
      unfit, Step.ofExcept_error, Step.throw_bind_apply]

/-! ## Closing -/

/-- The closing of one attribute that stores what ends by the given step. -/
def closeSlotWith
    (insert : Int → Int → Int → Value → Step Store Unit)
    (stop quark : Int) :
    Step Recording Unit := do
  let slot ← Step.ofExcept ((← Step.subject).ongoing.slot quark)
  if slot.since ≤ stop then
    onStore (insert slot.since stop quark slot.value)
    updateOngoing fun ongoing => ongoing.setSlot quark ⟨.null, stop + 1⟩

section CloseSlot

variable {s : Placed Recording} {stop quark : Int}

theorem closeSlotWith_of_missing
    {fault : Fault}
    (missing : s.subject.ongoing.slot quark = .error fault)
    (insert : Int → Int → Int → Value → Step Store Unit) :
    closeSlotWith insert stop quark s = .error fault s := by
  unfold closeSlotWith
  rw [Step.subject_bind_apply, missing, Step.ofExcept_error, Step.throw_bind_apply]

variable {slot : Slot}

/-- An attribute has nothing to be stored if what it holds starts after the end. -/
theorem closeSlotWith_of_later
    (found : s.subject.ongoing.slot quark = .ok slot)
    (later : stop < slot.since)
    (insert : Int → Int → Int → Value → Step Store Unit) :
    closeSlotWith insert stop quark s = .ok () s := by
  unfold closeSlotWith
  rw [Step.subject_bind_apply, found, Step.ofExcept_ok, Step.pure_bind_apply,
    if_neg (Int.not_le.mpr later)]
  rfl

/-- What an attribute holds is stored, and replaced by null from then on. -/
theorem closeSlotWith_of_begun
    (found : s.subject.ongoing.slot quark = .ok slot)
    (begun : slot.since ≤ stop)
    (insert : Int → Int → Int → Value → Step Store Unit) :
    closeSlotWith insert stop quark s
      = (onStore (insert slot.since stop quark slot.value) >>= fun _ =>
        updateOngoing fun ongoing => ongoing.setSlot quark ⟨.null, stop + 1⟩) s := by
  unfold closeSlotWith
  rw [Step.subject_bind_apply, found, Step.ofExcept_ok, Step.pure_bind_apply, if_pos begun]

end CloseSlot

/-- The closing of several attributes that stores what ends by the given step. -/
def closeSlotsWith
    (insert : Int → Int → Int → Value → Step Store Unit)
    (stop : Int)
    (quarks : List Nat) :
    Step Recording Unit :=
  quarks.forM fun quark => closeSlotWith insert stop quark

/-- The closing of all attributes that stores what ends by the given step. -/
def closeWith
    (insert : Int → Int → Int → Value → Step Store Unit)
    (stop : Int) :
    Step Recording Unit := do
  let recording ← Step.subject
  Step.ofExcept (recording.ongoing.checkTime stop)
  (List.range recording.ongoing.slots.size).forM fun quark => closeSlotWith insert stop quark
  updateOngoing fun ongoing => { ongoing with latest := stop }

theorem closeWith_insert : closeWith Store.insert = close := rfl

section Close

variable {s : Placed Recording} {stop : Int}

theorem closeWith_of_late
    {fault : Fault}
    (late : s.subject.ongoing.checkTime stop = .error fault)
    (insert : Int → Int → Int → Value → Step Store Unit) :
    closeWith insert stop s = .error fault s := by
  unfold closeWith
  rw [Step.subject_bind_apply, late, Step.ofExcept_error, Step.throw_bind_apply]

theorem closeWith_of_timely
    (timely : s.subject.ongoing.checkTime stop = .ok ())
    (insert : Int → Int → Int → Value → Step Store Unit) :
    closeWith insert stop s
      = (closeSlotsWith insert stop (List.range s.subject.ongoing.slots.size) >>= fun _ =>
        updateOngoing fun ongoing => { ongoing with latest := stop }) s := by
  unfold closeWith
  rw [Step.subject_bind_apply, timely, Step.ofExcept_ok, Step.pure_bind_apply]
  rfl

end Close

/-- What an attribute holds is stored when it is closed. -/
theorem Takes.closeSlot
    {s : Placed Recording}
    {ledger : Ledger}
    {stop : Int}
    {quark : Nat}
    {slot : Slot}
    (takes : Takes s ledger)
    (known : ledger.slot? quark = some slot)
    (late : ledger.stop ≤ stop) :
    ∃ reached,
      (∀ insert, Store.Follows insert → closeSlotWith insert stop quark s = .ok () reached)
        ∧ Takes reached (ledger.closeSlot stop quark)
        ∧ s.subject.store.backend.Alike reached.subject.store.backend := by
  have found := takes.slot_of_known known
  unfold Ledger.closeSlot
  rw [known]
  simp only
  by_cases begun : slot.since ≤ stop
  · rw [if_pos begun]
    rcases takes.insert known (Int.lt_add_one_of_le begun) (by rw [Int.add_sub_cancel]; exact late)
      with ⟨stored, took, alike, kept⟩
    rw [Int.add_sub_cancel] at took
    refine ⟨_, ?_, kept .null takes.nullFits, alike⟩
    intro insert follows
    rw [closeSlotWith_of_begun found begun]
    apply (Step.bind_of_ok (Step.onPart_of_ok (follows took))).trans
    rw [takes.keeps.ongoing]
    rfl
  · rw [if_neg begun]
    exact ⟨s, fun insert _ => closeSlotWith_of_later found (Int.not_le.mp begun) insert, takes,
      ⟨rfl, rfl⟩⟩

theorem Takes.closeSlots
    {s : Placed Recording}
    {ledger : Ledger}
    {stop : Int}
    {quarks : List Nat}
    (takes : Takes s ledger)
    (known : ∀ quark ∈ quarks, quark < ledger.ongoing.slots.size)
    (late : ledger.stop ≤ stop) :
    ∃ reached,
      (∀ insert, Store.Follows insert →
        (quarks.forM fun (quark : Nat) => closeSlotWith insert stop quark) s = .ok () reached)
        ∧ Takes reached (quarks.foldl (Ledger.closeSlot stop) ledger)
        ∧ s.subject.store.backend.Alike reached.subject.store.backend := by
  induction quarks generalizing s ledger with
  | nil => exact ⟨s, fun _ _ => rfl, takes, ⟨rfl, rfl⟩⟩
  | cons quark rest ih =>
      have inside := known quark List.mem_cons_self
      have slot : ledger.slot? quark = some ledger.ongoing.slots[quark] :=
        Array.getElem?_eq_getElem inside
      rcases takes.closeSlot slot late with ⟨after, closed, taken, alike⟩
      have knownAfter : ∀ other ∈ rest,
          other < (ledger.closeSlot stop quark).ongoing.slots.size := by
        intro other member
        rw [Ledger.size_closeSlot]
        exact known other (List.mem_cons_of_mem _ member)
      rcases ih taken knownAfter (Ledger.stop_closeSlot_le late) with
        ⟨reached, closedRest, takenAll, alikeAll⟩
      refine ⟨reached, ?_, takenAll, alike.trans alikeAll⟩
      intro insert follows
      exact (Step.bind_of_ok (closed insert follows)).trans (closedRest insert follows)

/-- A recording is closed at any time from its latest change on. -/
theorem Goes.close
    {s : Placed Recording}
    {ledger : Ledger}
    {stop : Int}
    (goes : Goes s ledger)
    (onTime : ledger.ongoing.latest ≤ stop) :
    ∃ reached,
      (∀ insert, Store.Follows insert → closeWith insert stop s = .ok () reached)
        ∧ Takes reached (ledger.close stop)
        ∧ s.subject.store.backend.Alike reached.subject.store.backend := by
  have takes := goes.takes
  have late : ledger.stop ≤ stop := by
    have calm := goes.last_le
    have start := goes.current.start_le
    omega
  rcases takes.closeSlots (fun quark member => List.mem_range.mp member) late with
    ⟨closed, done, taken, alike⟩
  have checked := takes.checkTime_of_le onTime
  refine ⟨_, ?_, taken.advance stop, alike⟩
  intro insert follows
  rw [closeWith_of_timely checked, takes.keeps.ongoing]
  apply (Step.bind_of_ok (done insert follows)).trans
  rw [← taken.keeps.ongoing]
  rfl

/-- A recording is completed if and only if its backend can keep the namespace. -/
theorem Takes.finish
    {s : Placed Recording}
    {ledger : Ledger}
    (takes : Takes s ledger)
    (stop : Int)
    (ns : Namespace) :
    ∃ reached,
      Keeps reached (ledger.finish stop)
        ∧ s.subject.store.backend.Alike reached.subject.store.backend
        ∧ (s.subject.store.backend.InRange → stop ≤ latestInstant →
          reached.subject.store.backend.InRange)
        ∧ (s.subject.store.backend.Accepts ns
            ∧ Recording.onStore (Store.finish stop ns) s = .ok () reached
            ∧ Backend.Complete ⟨reached.volume, reached.subject.store.backend⟩ ns ledger.taken
          ∨ ¬ s.subject.store.backend.Accepts ns
            ∧ Recording.onStore (Store.finish stop ns) s = .error ns.obstacle reached) := by
  have keeps := takes.keeps
  rcases keeps.holds.finish takes.taking stop ns with
    ⟨⟨volume, backend⟩, holds, alike, last, inRange, ends⟩
  have healthy : s.subject.store.checkHealthy = .ok () := by
    unfold Store.checkHealthy
    rw [keeps.healthy]
    rfl
  have unfolds : ∀ placed : Placed Store, placed.subject = s.subject.store →
      Store.finish stop ns placed = Store.onBackend (Backend.finish stop ns) placed := by
    intro placed same
    unfold Store.finish
    rw [Step.subject_bind_apply, same, healthy, Step.ofExcept_ok, Step.pure_bind_apply]
  refine ⟨⟨volume, { s.subject with store := { s.subject.store with backend } }⟩,
    ⟨keeps.ongoing, keeps.healthy, alike.start.trans keeps.start, holds, ?_, ?_, ?_⟩,
    alike, inRange, ?_⟩
  · exact last.trans (congrArg (max · stop) keeps.stop)
  · intro i member
    exact Int.le_trans (keeps.within i member) (Int.le_max_left _ _)
  · exact ⟨keeps.tiled.start_le, keeps.tiled.covered, keeps.tiled.before, keeps.tiled.known⟩
  · rcases ends with ⟨accepted, finishes, complete⟩ | ⟨refused, fails⟩
    · refine Or.inl ⟨accepted, Step.onPart_of_ok ?_, complete⟩
      rw [unfolds _ rfl]
      exact Step.onPart_of_ok finishes
    · refine Or.inr ⟨refused, Step.onPart_of_error ?_⟩
      rw [unfolds _ rfl]
      exact Step.onPart_of_error fails

end Recording

end Chronicle
