import Chronicle.Proofs.Recording.Keeping
import Chronicle.Proofs.Store.Reliability

/-!
# Recordings over backends that fail

A backend may refuse any interval.  A change that fails for it leaves all that
is held as it was.  A closing that fails at some attribute has stored what was
held by attributes before that one, and by no others; closing again stores the
rest, and ends as if nothing had failed.
-/

namespace Chronicle.Recording

open Chronicle.Store (insertUnless)

/-- A recording whose store has a backend that never fails, next to its volume. -/
def reliable (s : Placed Recording) : Placed Recording :=
  ⟨s.volume, { s.subject with store := s.subject.store.reliable }⟩

/-- Whatever becomes of the store, what is held stays as it is. -/
theorem ongoing_of_onStore_error
    {α : Type}
    {step : Step Store α}
    {s r : Placed Recording}
    {fault : Fault}
    (failed : onStore step s = .error fault r) :
    r.subject.ongoing = s.subject.ongoing := by
  have reached := Step.reached_of_error failed
  unfold onStore at reached
  rw [Step.reached_onPart] at reached
  rw [← reached]

/-- A change that fails leaves all that is held as it was, whatever became of the store. -/
theorem ongoing_of_changeWith_error
    {insert : Int → Int → Int → Value → Step Store Unit}
    {t : Int}
    {value : Value}
    {quark : Int}
    {s r : Placed Recording}
    {fault : Fault}
    (failed : changeWith insert t value quark s = .error fault r) :
    r.subject.ongoing = s.subject.ongoing := by
  unfold changeWith at failed
  rw [Step.subject_bind_apply] at failed
  rcases Step.ofExcept_bind_eq_error failed with ⟨-, rfl⟩ | ⟨slot, -, timed⟩
  · rfl
  rcases Step.ofExcept_bind_eq_error timed with ⟨-, rfl⟩ | ⟨_, -, compared⟩
  · rfl
  dsimp only at compared
  split at compared
  · split at compared
    · cases compared
      rfl
    · rcases Step.ofExcept_bind_eq_error compared with ⟨-, rfl⟩ | ⟨_, -, stored⟩
      · rfl
      split at stored
      · -- only the store can still fail, and what is held is updated after it
        rcases Step.bind_eq_error stored with refused | ⟨_, after, -, updated⟩
        · exact ongoing_of_onStore_error refused
        · cases updated
      · cases stored
  · cases compared

/-! ### Attributes that ended -/

/-- What an attribute holds starts after an instant. -/
def Past
    (ongoing : Ongoing)
    (stop quark : Int) :
    Prop :=
  ∃ slot, ongoing.slot quark = .ok slot ∧ stop < slot.since

/-- What is past stays past while attributes are given something after the instant. -/
theorem Past.setSlot
    {ongoing : Ongoing}
    {stop quark other : Int}
    {slot : Slot}
    (past : Past ongoing stop other)
    (found : ongoing.slot quark = .ok slot)
    (value : Value) :
    Past (ongoing.setSlot quark ⟨value, stop + 1⟩) stop other := by
  unfold Past
  rw [Ongoing.slot_setSlot found]
  split
  · exact ⟨_, rfl, Int.lt_succ stop⟩
  · exact past

/-- An attribute that was given something after an instant is past. -/
theorem past_setSlot
    {ongoing : Ongoing}
    {stop quark : Int}
    {slot : Slot}
    (found : ongoing.slot quark = .ok slot)
    (value : Value) :
    Past (ongoing.setSlot quark ⟨value, stop + 1⟩) stop quark := by
  unfold Past
  rw [Ongoing.slot_setSlot found, if_pos rfl]
  exact ⟨_, rfl, Int.lt_succ stop⟩

/-- An attribute that is past has nothing to be stored. -/
theorem closeSlotWith_of_past
    {s : Placed Recording}
    {stop quark : Int}
    (past : Past s.subject.ongoing stop quark)
    (insert : Int → Int → Int → Value → Step Store Unit) :
    closeSlotWith insert stop quark s = .ok () s := by
  rcases past with ⟨slot, found, later⟩
  exact closeSlotWith_of_later found later insert

/-- A recording that has come from another by closing attributes, be it as far as a failure. -/
structure Along
    (origin stop : Int)
    (s r : Placed Recording) : Prop where
  roomy : r.subject.store.Roomy origin
  past : ∀ quark, Past s.subject.ongoing stop quark → Past r.subject.ongoing stop quark
  size : r.subject.ongoing.slots.size = s.subject.ongoing.slots.size
  latest : r.subject.ongoing.latest = s.subject.ongoing.latest

theorem Along.trans
    {origin stop : Int}
    {s between r : Placed Recording}
    (first : Along origin stop s between)
    (second : Along origin stop between r) :
    Along origin stop s r where
  roomy := second.roomy
  past quark past := second.past quark (first.past quark past)
  size := second.size.trans first.size
  latest := second.latest.trans first.latest

/-- With a backend that never fails, a step comes from `r` to where it comes from `s`. -/
def Resumes
    (step : Step Recording Unit)
    (s r : Placed Recording) :
    Prop :=
  ∀ t, step (reliable s) = .ok () t ↔ step (reliable r) = .ok () t

theorem Resumes.bind
    {step : Step Recording Unit}
    {s r : Placed Recording}
    (resumes : Resumes step s r)
    (next : Unit → Step Recording Unit) :
    Resumes (step >>= next) s r := by
  intro t
  rw [Step.bind_eq_ok_iff, Step.bind_eq_ok_iff]
  exact exists_congr fun _ => exists_congr fun between => and_congr_left' (resumes between)

section Closing

variable {origin : Int} {s : Placed Recording}

/-- An attribute cannot be closed if what it holds cannot be stored. -/
theorem closeSlot_ne_ok
    {stop quark : Int}
    {slot : Slot}
    (found : s.subject.ongoing.slot quark = .ok slot)
    (begun : slot.since ≤ stop)
    (fails : ∀ t, Store.insert slot.since stop quark slot.value ⟨s.volume, s.subject.store⟩
      ≠ .ok () t)
    (t : Placed Recording) :
    closeSlot stop quark s ≠ .ok () t := by
  intro done
  have applied := closeSlotWith_of_begun found begun Store.insert
  rcases Step.bind_eq_ok_iff.mp (applied.symm.trans done) with ⟨_, between, stored, -⟩
  exact Step.onPart_ne_ok (fun _ => fails) _ _ _ stored

/--
The closing of one attribute fails and can be resumed where it was begun, or it
succeeds as it does with a backend that never fails.
-/
theorem closeSlotWith_cases
    (roomy : s.subject.store.Roomy origin)
    (refusal : Interval → Option Fault)
    (stop quark : Int) :
    (∃ fault r, closeSlotWith (insertUnless refusal) stop quark s = .error fault r
        ∧ Along origin stop s r
        ∧ Resumes (closeSlot stop quark) s r)
      ∨ ∃ r, closeSlotWith (insertUnless refusal) stop quark s = .ok () r
        ∧ Along origin stop s r
        ∧ Past r.subject.ongoing stop quark
        ∧ closeSlot stop quark (reliable s) = .ok () (reliable r) := by
  cases found : s.subject.ongoing.slot quark with
  | error fault =>
      exact Or.inl ⟨fault, s, closeSlotWith_of_missing found _, ⟨roomy, fun _ => id, rfl, rfl⟩,
        fun t => Iff.rfl⟩
  | ok slot =>
      by_cases later : stop < slot.since
      · have past : Past s.subject.ongoing stop quark := ⟨slot, found, later⟩
        exact Or.inr ⟨s, closeSlotWith_of_past past _, ⟨roomy, fun _ => id, rfl, rfl⟩, past,
          closeSlotWith_of_past (s := reliable s) past Store.insert⟩
      have begun := Int.not_lt.mp later
      rw [closeSlotWith_of_begun found begun]
      rcases roomy.insertUnless (s := ⟨s.volume, s.subject.store⟩) refusal slot.since stop quark
          slot.value with
        ⟨fault, r, failed, same⟩ | ⟨expected, failed, fails⟩ | ⟨r, took, kept, takes⟩
      · -- the store is as it was, so that nothing has happened yet
        refine Or.inl ⟨fault, _, Step.bind_of_error (Step.onPart_of_error failed), ?_⟩
        rcases same with rfl | rfl
        · exact ⟨⟨roomy, fun _ => id, rfl, rfl⟩, fun t => Iff.rfl⟩
        · refine ⟨⟨roomy.asked, fun _ => id, rfl, rfl⟩, fun t => ?_⟩
          unfold reliable
          rw [Store.reliable_asked]
      · -- the store has given up, and would have done so over any backend
        refine Or.inl ⟨_, _, Step.bind_of_error (Step.onPart_of_error failed),
          ⟨roomy.corrupt, fun _ => id, rfl, rfl⟩, fun t => iff_of_false ?_ ?_⟩
        · exact closeSlot_ne_ok (s := reliable s) found begun fails t
        · refine closeSlot_ne_ok (s := ⟨s.volume, ⟨s.subject.ongoing,
            Store.reliable { s.subject.store with corrupted := true }⟩⟩) found begun ?_ t
          intro t took
          cases (Store.insertWith_of_corrupted rfl Backend.insert _ _ _ _).symm.trans took
      · refine Or.inr ⟨_, Step.bind_of_ok (Step.onPart_of_ok took),
          ⟨kept, fun other past => past.setSlot found .null, Ongoing.size_setSlot _ _ _, rfl⟩,
          past_setSlot found .null, ?_⟩
        have stored : onStore (Store.insert slot.since stop quark slot.value) (reliable s)
            = .ok () (reliable ⟨r.volume, { s.subject with store := r.subject }⟩) :=
          Step.onPart_of_ok takes
        exact (closeSlotWith_of_begun (s := reliable s) found begun Store.insert).trans
          (Step.bind_of_ok stored)

/--
The closing of several attributes fails at one of them and can be resumed where
it was begun, or it succeeds as it does with a backend that never fails.
-/
theorem closeSlotsWith_cases
    (roomy : s.subject.store.Roomy origin)
    (refusal : Interval → Option Fault)
    (stop : Int)
    (quarks : List Nat) :
    (∃ fault r, closeSlotsWith (insertUnless refusal) stop quarks s = .error fault r
        ∧ Along origin stop s r
        ∧ Resumes (closeSlotsWith Store.insert stop quarks) s r)
      ∨ ∃ r, closeSlotsWith (insertUnless refusal) stop quarks s = .ok () r
        ∧ Along origin stop s r
        ∧ closeSlotsWith Store.insert stop quarks (reliable s) = .ok () (reliable r) := by
  induction quarks generalizing s with
  | nil => exact Or.inr ⟨s, rfl, ⟨roomy, fun _ => id, rfl, rfl⟩, rfl⟩
  | cons quark rest ih =>
      rcases closeSlotWith_cases roomy refusal stop quark with
        ⟨fault, r, failed, along, resumes⟩ | ⟨between, closed, along, past, closes⟩
      · exact Or.inl ⟨fault, r, Step.bind_of_error failed, along, resumes.bind _⟩
      · rcases ih along.roomy with
          ⟨fault, r, failed, further, resumes⟩ | ⟨r, closedRest, further, closesRest⟩
        · refine Or.inl ⟨fault, r, (Step.bind_of_ok closed).trans failed, along.trans further,
            fun t => ?_⟩
          -- the first attribute is past by now, and closing it again does nothing
          have passes : closeSlot stop quark (reliable r) = .ok () (reliable r) :=
            closeSlotWith_of_past (s := reliable r) (further.past quark past) Store.insert
          have first : closeSlotsWith Store.insert stop (quark :: rest) (reliable s)
              = closeSlotsWith Store.insert stop rest (reliable between) := Step.bind_of_ok closes
          have again : closeSlotsWith Store.insert stop (quark :: rest) (reliable r)
              = closeSlotsWith Store.insert stop rest (reliable r) := Step.bind_of_ok passes
          rw [first, again]
          exact resumes t
        · exact Or.inr ⟨r, (Step.bind_of_ok closed).trans closedRest, along.trans further,
            (Step.bind_of_ok closes).trans closesRest⟩

/--
A closing fails and can be resumed where it was begun, or it succeeds as it
does with a backend that never fails.
-/
theorem closeWith_cases
    (roomy : s.subject.store.Roomy origin)
    (refusal : Interval → Option Fault)
    (stop : Int) :
    (∃ fault r, closeWith (insertUnless refusal) stop s = .error fault r
        ∧ r.subject.store.Roomy origin
        ∧ Resumes (close stop) s r)
      ∨ ∃ r, closeWith (insertUnless refusal) stop s = .ok () r
        ∧ close stop (reliable s) = .ok () (reliable r) := by
  cases timely : s.subject.ongoing.checkTime stop with
  | error fault =>
      exact Or.inl ⟨fault, s, closeWith_of_late timely _, roomy, fun t => Iff.rfl⟩
  | ok done =>
      have applied := closeWith_of_timely (s := reliable s) timely Store.insert
      rw [closeWith_of_timely timely]
      rcases closeSlotsWith_cases roomy refusal stop (List.range s.subject.ongoing.slots.size) with
        ⟨fault, r, failed, along, resumes⟩ | ⟨r, closed, along, closes⟩
      · refine Or.inl ⟨fault, r, Step.bind_of_error failed, along.roomy, fun t => ?_⟩
        -- a failure leaves the latest change and the number of attributes as they were
        have still : r.subject.ongoing.checkTime stop = .ok () := by
          unfold Ongoing.checkTime at timely ⊢
          rw [along.latest]
          exact timely
        have again := closeWith_of_timely (s := reliable r) still Store.insert
        rw [show (reliable r).subject.ongoing.slots.size = _ from along.size] at again
        rw [← closeWith_insert, applied, again]
        exact resumes.bind _ t
      · exact Or.inr ⟨_, Step.bind_of_ok closed, applied.trans (Step.bind_of_ok closes)⟩

end Closing

/-- A closing that is tried again, with any refusals each time, until it succeeds. -/
inductive Persists (stop : Int) : Placed Recording → Placed Recording → Prop
  | closed
      {refusal : Interval → Option Fault}
      {s t : Placed Recording}
      (done : closeWith (insertUnless refusal) stop s = .ok () t) :
      Persists stop s t
  | again
      {refusal : Interval → Option Fault}
      {s r t : Placed Recording}
      {fault : Fault}
      (failed : closeWith (insertUnless refusal) stop s = .error fault r)
      (later : Persists stop r t) :
      Persists stop s t

/-- It ends as one closing does with a backend that never fails. -/
theorem Persists.close
    {origin stop : Int}
    {s t : Placed Recording}
    (persists : Persists stop s t)
    (roomy : s.subject.store.Roomy origin) :
    Recording.close stop (reliable s) = .ok () (reliable t) := by
  induction persists with
  | @closed refusal s t done =>
      rcases closeWith_cases roomy refusal stop with ⟨fault, r, failed, -, -⟩ | ⟨r, closed, closes⟩
      · cases failed.symm.trans done
      · cases closed.symm.trans done
        exact closes
  | @again refusal s r t fault failed later ih =>
      rcases closeWith_cases roomy refusal stop with ⟨other, r, fails, kept, resumes⟩ | ⟨r, done, -⟩
      · cases fails.symm.trans failed
        exact (resumes _).mpr (ih kept)
      · cases done.symm.trans failed

/-- What can be relied on with a recording whose backend may refuse any insertion. -/
structure Resilient (s : Placed Recording) : Prop where
  /-- An interval that was refused, although it followed its predecessor, leaves no trace: at most
  it was counted, and then all is answered as if it had not been on the schedule of refusals. -/
  refused : ∀ {refusal : Interval → Option Fault} {start stop quark : Int} {value : Value}
    {fault : Fault} {r : Placed Store},
    insertUnless refusal start stop quark value ⟨s.volume, s.subject.store⟩ = .error fault r →
    (∀ quark expected actual, fault ≠ .contiguity quark expected actual) →
    r = ⟨s.volume, s.subject.store⟩
      ∨ r = ⟨s.volume, s.subject.store.asked⟩
        ∧ Store.Echoes r ⟨s.volume, s.subject.store.struck⟩
  /-- A change that failed has changed nothing that is held. -/
  changed : ∀ {refusal : Interval → Option Fault} {t : Int} {value : Value} {quark : Int}
    {fault : Fault} {r : Placed Recording},
    changeWith (insertUnless refusal) t value quark s = .error fault r →
    r.subject.ongoing = s.subject.ongoing
  /-- A closing that failed can be resumed, and then ends where it should have ended. -/
  resumed : ∀ {refusal : Interval → Option Fault} {stop : Int} {fault : Fault}
    {r : Placed Recording},
    closeWith (insertUnless refusal) stop s = .error fault r →
    Resumes (close stop) s r
  /-- A closing that was tried until it succeeded has ended there. -/
  closed : ∀ {stop : Int} {t : Placed Recording},
    Persists stop s t →
    close stop (reliable s) = .ok () (reliable t)

/--
A backend may refuse any insertion that a store passes on to it.  No state is
lost for that, and none is stored twice: the store goes on as if it had not
been asked, a change leaves all that is held as it was, and a closing that is
tried until it succeeds ends as one that nothing is refused to.
-/
theorem resilient_of_reached
    {s : Placed Recording}
    (reached : Store.Reached ⟨s.volume, s.subject.store⟩) :
    Resilient s := by
  rcases reached.roomy with ⟨origin, roomy⟩
  constructor
  · intro refusal start stop quark value fault r failed mild
    rcases roomy.insertUnless refusal start stop quark value with
      ⟨other, _, refused, same⟩ | ⟨expected, stray, -⟩ | ⟨_, took, -⟩
    · cases refused.symm.trans failed
      rcases same with rfl | rfl
      · exact Or.inl rfl
      · exact Or.inr ⟨rfl, Store.echoes_asked s.volume s.subject.store⟩
    · cases stray.symm.trans failed
      exact absurd rfl (mild _ _ _)
    · cases took.symm.trans failed
  · exact ongoing_of_changeWith_error
  · intro refusal stop fault r failed
    rcases closeWith_cases roomy refusal stop with ⟨_, _, fails, -, resumes⟩ | ⟨_, done, -⟩
    · cases fails.symm.trans failed
      exact resumes
    · cases done.symm.trans failed
  · exact fun persists => persists.close roomy

/-- A recording in memory of two attributes that have held null from the start on. -/
def twoNulls : Placed Recording :=
  ⟨.empty, ⟨(Ongoing.empty 0).grow 2, .ofBackend (.memory (.empty 0))⟩⟩

/-- A storage that is full when something of the second attribute comes. -/
def fullAtSecond (i : Interval) : Option Fault :=
  if i.quark = 1 then some (.storage (.stated "disk full")) else none

/-- A closing that stops at the second attribute, and at the second try goes on from there. -/
theorem closed_at_second_try :
    ∃ r t,
      closeWith (insertUnless fullAtSecond) 9 twoNulls
          = .error (.storage (.stated "disk full")) r
        ∧ r.subject.ongoing = ⟨#[⟨.null, 10⟩, ⟨.null, 0⟩], 0, 0⟩
        ∧ closeWith (insertUnless fun _ => none) 9 r = .ok () t
        ∧ t.subject.ongoing = ⟨#[⟨.null, 10⟩, ⟨.null, 10⟩], 0, 9⟩
        ∧ Resilient twoNulls := by
  have created : Backend.create .memory 0 .empty = .ok (.empty, .memory (.empty 0)) := rfl
  exact ⟨_, _, rfl, rfl, rfl, rfl, resilient_of_reached (.create created)⟩

end Chronicle.Recording
