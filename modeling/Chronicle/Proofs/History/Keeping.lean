import Chronicle.History.Writer
import Chronicle.Proofs.Namespace
import Chronicle.Proofs.Recording.Keeping

/-!
# A history keeps a ledger

A history that is written to keeps a ledger of all its attributes, whose
latest change is its current end.  What its writer does leads from one ledger
to another or leaves all as it is; closing and giving up leave a ledger that
can still be asked about.
-/

namespace Chronicle

theorem Ledger.grow_of_le
    {ledger : Ledger}
    {count : Nat}
    (enough : count ≤ ledger.ongoing.slots.size) :
    ledger.grow count = ledger := by
  unfold Ledger.grow Ongoing.grow
  rw [Nat.sub_eq_zero_of_le enough]
  simp

namespace History

/-- What a history tells without its recording. -/
structure Outline where
  id : String
  names : Namespace
  currentEnd : Int
  disposed : Bool
  status : Status

/-- What a history tells without its recording. -/
def outline (history : History) : Outline where
  id := history.id
  names := history.names
  currentEnd := history.currentEnd
  disposed := history.disposed
  status := history.status

/-- The backend of a history. -/
def backend (history : History) : Backend :=
  history.recording.store.backend

theorem onRecording_of_ok
    {α : Type}
    {step : Step Recording α}
    {s : Placed History}
    {volume : Volume}
    {recording : Recording}
    {a : α}
    (done : step ⟨s.volume, s.subject.recording⟩ = .ok a ⟨volume, recording⟩) :
    onRecording step s = .ok a ⟨volume, { s.subject with recording }⟩ :=
  Step.onPart_of_ok done

theorem onRecording_of_error
    {α : Type}
    {step : Step Recording α}
    {s : Placed History}
    {volume : Volume}
    {recording : Recording}
    {fault : Fault}
    (failed : step ⟨s.volume, s.subject.recording⟩ = .error fault ⟨volume, recording⟩) :
    onRecording step s = .error fault ⟨volume, { s.subject with recording }⟩ :=
  Step.onPart_of_error failed

/-- A history that answers by its ledger. -/
structure Kept
    (s : Placed History)
    (ledger : Ledger) : Prop where
  alive : s.subject.disposed = false
  keeps : Recording.Keeps ⟨s.volume, s.subject.recording⟩ ledger
  named : s.subject.names.size = ledger.ongoing.slots.size

/-- A history that can be written to, with its ledger. -/
structure Open
    (s : Placed History)
    (ledger : Ledger) : Prop where
  alive : s.subject.disposed = false
  goes : Recording.Goes ⟨s.volume, s.subject.recording⟩ ledger
  named : s.subject.names.size = ledger.ongoing.slots.size
  ending : s.subject.currentEnd = ledger.ongoing.latest

/-- The status after a writer is gone. -/
def Status.settled
    (status : Status)
    (now : Status) :
    Status :=
  if now = .building then status else now

theorem outline_settle
    (status : Status)
    (history : History) :
    (settle status history).outline
      = { history.outline with status := status.settled history.status } := by
  unfold settle Status.settled
  split
  · rfl
  · rfl

theorem recording_settle
    (status : Status)
    (history : History) :
    (settle status history).recording = history.recording := by
  unfold settle
  split <;> rfl

namespace Kept

variable {s : Placed History} {ledger : Ledger}

theorem checkUsable
    (kept : Kept s ledger) :
    s.subject.checkUsable = .ok () := by
  unfold History.checkUsable Store.checkHealthy
  rw [kept.alive, if_neg Bool.false_ne_true, kept.keeps.healthy, if_neg Bool.false_ne_true]

/-- Every attribute has a slot. -/
theorem exists_slot
    {quark : Int}
    (kept : Kept s ledger)
    (known : s.subject.names.Contains quark) :
    ∃ slot, ledger.ongoing.slot quark = .ok slot := by
  rcases known with ⟨nonneg, inside⟩
  have named := kept.named
  have inSlots : quark.toNat < ledger.ongoing.slots.size := by omega
  exact ⟨_, Ongoing.slot_eq_ok_iff.mpr ⟨nonneg, Array.getElem?_eq_getElem inSlots⟩⟩

theorem settle
    (kept : Kept s ledger)
    (status : Status) :
    Kept ⟨s.volume, History.settle status s.subject⟩ ledger := by
  have outline := outline_settle status s.subject
  constructor
  · exact (congrArg Outline.disposed outline).trans kept.alive
  · rw [recording_settle]
    exact kept.keeps
  · exact (congrArg (fun o : Outline => o.names.size) outline).trans kept.named

end Kept

namespace Open

variable {s : Placed History} {ledger after : Ledger}

theorem kept
    (open_ : Open s ledger) :
    Kept s ledger :=
  ⟨open_.alive, open_.goes.takes.keeps, open_.named⟩

end Open

/-- A new history can be written to. -/
theorem open_of_create
    {id : String}
    {start : Int}
    {plan : Backend.Plan}
    {volume made : Volume}
    {history : History}
    (sound : volume.Sound)
    (created : create id start plan volume = .ok (made, history)) :
    Open ⟨made, history⟩ (.empty start)
      ∧ history.outline = ⟨id, .empty, start, false, .building⟩
      ∧ history.backend.maxIntervalSize? = plan.capacity? := by
  simp only [create] at created
  cases backendMade : Backend.create plan start volume with
  | error fault =>
      rw [backendMade] at created
      cases created
  | ok pair =>
      rcases pair with ⟨base, backend⟩
      rw [backendMade] at created
      cases created
      rcases Backend.holds_of_create sound backendMade with
        ⟨holds, begins, stop, taking, capacity⟩
      refine ⟨?_, rfl, capacity⟩
      constructor
      · rfl
      · exact Recording.goes_ofBackend holds begins stop taking
      · rfl
      · rfl

/-! ## Changes -/

/-- The setting of a value that stores what ends by the given step. -/
def setWith
    (insert : Int → Int → Int → Value → Step Store Unit)
    (t : Int)
    (value : Value)
    (quark : Int) :
    Step History Unit := do
  Step.ofExcept (← Step.subject).checkUsable
  onRecording (Recording.changeWith insert t value quark)
  Step.update fun history => { history with currentEnd := max history.currentEnd t }

theorem setWith_insert : setWith Store.insert = set := rfl

namespace Open

variable {s : Placed History} {ledger after : Ledger}
  {insert : Int → Int → Int → Value → Step Store Unit}

/-- Values are set where the ledger is changed. -/
theorem set
    {t : Int}
    {value : Value}
    {quark : Int}
    (open_ : Open s ledger)
    (changed : ledger.change (s.subject.recording.store.checkFits value) t value quark
      = .ok after) :
    ∃ reached,
      (∀ insert, Store.Follows insert → setWith insert t value quark s = .ok () reached)
        ∧ Open reached after
        ∧ reached.subject.outline
          = { s.subject.outline with currentEnd := max s.subject.currentEnd t }
        ∧ s.subject.backend.Alike reached.subject.backend := by
  rcases open_.goes.change changed with ⟨⟨volume, recording⟩, done, goes, alike⟩
  rcases Ledger.change_eq_ok changed with ⟨place, slot, -, known, onTime, rest⟩
  have size : after.ongoing.slots.size = ledger.ongoing.slots.size := by
    rcases rest with ⟨-, rfl⟩ | ⟨-, -, rfl⟩
    · rfl
    · exact Ongoing.size_setSlot _ _ _
  have latest := Ledger.latest_of_change changed
  refine ⟨⟨volume, { s.subject with recording, currentEnd := max s.subject.currentEnd t }⟩, ?_,
    ⟨open_.alive, goes, open_.named.trans size.symm, ?_⟩, rfl, alike⟩
  · intro insert follows
    unfold setWith
    rw [Step.subject_bind_apply, open_.kept.checkUsable, Step.ofExcept_ok, Step.pure_bind_apply]
    exact Step.bind_of_ok (onRecording_of_ok (done insert follows))
  · show max s.subject.currentEnd t = after.ongoing.latest
    rw [open_.ending, latest]
    exact Int.max_eq_right onTime

theorem set_of_error
    {t : Int}
    {value : Value}
    {quark : Int}
    {fault : Fault}
    (open_ : Open s ledger)
    (refused : ledger.change (s.subject.recording.store.checkFits value) t value quark
      = .error fault) :
    setWith insert t value quark s = .error fault s := by
  have failed : Recording.changeWith insert t value quark ⟨s.volume, s.subject.recording⟩
      = .error fault ⟨s.volume, s.subject.recording⟩ := open_.goes.change_of_error refused
  unfold setWith
  rw [Step.subject_bind_apply, open_.kept.checkUsable, Step.ofExcept_ok, Step.pure_bind_apply]
  exact Step.bind_of_error (onRecording_of_error failed)

/-- A value is set where the ledger is changed, and refused without a change where it is not. -/
theorem set_cases
    (open_ : Open s ledger)
    (t : Int)
    (value : Value)
    (quark : Int) :
    (∃ reached after,
        ledger.change (s.subject.recording.store.checkFits value) t value quark = .ok after
          ∧ History.set t value quark s = .ok () reached
          ∧ Open reached after
          ∧ reached.subject.names = s.subject.names
          ∧ s.subject.backend.Alike reached.subject.backend)
      ∨ ∃ fault,
        ledger.change (s.subject.recording.store.checkFits value) t value quark = .error fault
          ∧ History.set t value quark s = .error fault s := by
  cases changed : ledger.change (s.subject.recording.store.checkFits value) t value quark with
  | error fault => exact Or.inr ⟨fault, rfl, open_.set_of_error changed⟩
  | ok after =>
      rcases open_.set changed with ⟨reached, done, openAfter, outline, alike⟩
      exact Or.inl ⟨reached, after, rfl, done Store.insert Store.follows_insert, openAfter,
        congrArg Outline.names outline, alike⟩

/-- A path is entered, with all that is missing on its way, or refused without a change. -/
theorem intern
    (open_ : Open s ledger)
    (base : Int)
    (path : List String) :
    (∃ names quark reached,
        s.subject.names.intern base path = .ok (names, quark)
          ∧ History.intern base path s = .ok quark reached
          ∧ Open reached (ledger.grow names.size)
          ∧ reached.subject.outline = { s.subject.outline with names }
          ∧ s.subject.backend.Alike reached.subject.backend)
      ∨ ∃ fault, s.subject.names.intern base path = .error fault
          ∧ History.intern base path s = .error fault s := by
  unfold History.intern
  rw [Step.subject_bind_apply]
  cases resolved : s.subject.names.resolve? base path with
  | some quark =>
      refine Or.inl ⟨s.subject.names, quark, s, Namespace.intern_of_resolve? resolved, rfl, ?_,
        rfl, ⟨rfl, rfl⟩⟩
      rw [Ledger.grow_of_le (Nat.le_of_eq open_.named)]
      exact open_
  | none =>
      simp only [open_.kept.checkUsable, Step.ofExcept_ok, Step.pure_bind_apply]
      cases interned : s.subject.names.intern base path with
      | error fault => exact Or.inr ⟨fault, rfl, rfl⟩
      | ok pair =>
          rcases pair with ⟨names, quark⟩
          have takes := open_.goes.takes
          have grows := Namespace.size_le_of_intern interned
          have size := ledger.size_grow names.size
          have named := open_.named
          have done : onRecording
              (Recording.updateOngoing fun ongoing => ongoing.grow names.size)
              ⟨s.volume, { s.subject with names }⟩
              = .ok () ⟨s.volume, { s.subject with
                names
                recording :=
                  { s.subject.recording with ongoing := ledger.ongoing.grow names.size } }⟩ := by
            rw [← takes.keeps.ongoing]
            rfl
          refine Or.inl ⟨names, quark, ⟨s.volume, { s.subject with
            names
            recording := { s.subject.recording with ongoing := ledger.ongoing.grow names.size } }⟩,
            rfl, (Step.bind_of_ok rfl).trans ((Step.bind_of_ok rfl).trans (Step.bind_of_ok done)),
            ?_, rfl, ⟨rfl, rfl⟩⟩
          refine ⟨open_.alive, open_.goes.grow names.size, ?_, open_.ending⟩
          show names.size = _
          omega

/-- The present value of an attribute is replaced by one that fits, or nothing is changed. -/
theorem overwrite
    (open_ : Open s ledger)
    (value : Value)
    (quark : Int) :
    (∃ (place : Nat) (slot : Recording.Slot) (reached : Placed History),
        s.subject.recording.store.checkFits value = .ok ()
          ∧ ledger.ongoing.slot quark = .ok slot
          ∧ quark = place
          ∧ History.overwrite value quark s = .ok () reached
          ∧ Open reached (ledger.overwrite place slot value)
          ∧ reached.subject.outline = s.subject.outline
          ∧ s.subject.backend.Alike reached.subject.backend)
      ∨ ∃ fault,
        (do
            s.subject.recording.store.checkFits value
            ledger.ongoing.slot quark : Except Fault Recording.Slot) = .error fault
          ∧ History.overwrite value quark s = .error fault s := by
  have takes := open_.goes.takes
  have ongoing : s.subject.recording.ongoing = ledger.ongoing := takes.keeps.ongoing
  unfold History.overwrite
  rw [Step.subject_bind_apply, open_.kept.checkUsable, Step.ofExcept_ok, Step.pure_bind_apply,
    ongoing]
  cases fits : s.subject.recording.store.checkFits value with
  | error fault => exact Or.inr ⟨fault, rfl, rfl⟩
  | ok done =>
      cases found : ledger.ongoing.slot quark with
      | error fault => exact Or.inr ⟨fault, rfl, rfl⟩
      | ok slot =>
          rcases Ongoing.slot_eq_ok_iff.mp found with ⟨nonneg, known⟩
          obtain ⟨place, rfl⟩ : ∃ place : Nat, quark = place := ⟨quark.toNat, by omega⟩
          rw [Int.toNat_natCast] at known
          have slotKnown : ledger.slot? place = some slot := known
          have goes := open_.goes.overwrite slotKnown fits
          refine Or.inl ⟨place, slot, ⟨s.volume, { s.subject with
            recording := { s.subject.recording with
              ongoing := ledger.ongoing.setSlot place { slot with value } } }⟩,
            rfl, rfl, rfl, ?_, ?_, rfl, ⟨rfl, rfl⟩⟩
          · rw [← ongoing]
            rfl
          · exact ⟨open_.alive, goes, open_.named.trans (Ongoing.size_setSlot _ _ _).symm,
              open_.ending⟩

end Open

/-! ## Closing -/

/-- The closing of a history that stores what ends by the given step. -/
def closeWith
    (insert : Int → Int → Int → Value → Step Store Unit)
    (stop : Int) :
    Step History Unit := orAbandon do
  Step.ofExcept (← Step.subject).checkUsable
  onRecording (Recording.closeWith insert stop)
  onStore (Store.finish stop (← Step.subject).names)
  Step.update fun history =>
    settle .completed { history with currentEnd := max history.currentEnd stop }

theorem closeWith_insert : closeWith Store.insert = close := rfl

theorem orAbandon_of_ok
    {α : Type}
    {step : Step History α}
    {s reached : Placed History}
    {a : α}
    (done : step s = .ok a reached) :
    orAbandon step s = .ok a reached := by
  have outcome : Step.outcome step s = .ok (.ok a) reached := by
    unfold Step.outcome
    rw [done]
  exact Step.bind_of_ok outcome

theorem orAbandon_of_error
    {α : Type}
    {step : Step History α}
    {s : Placed History}
    {fault : Fault}
    (reached : Placed History)
    (failed : step s = .error fault reached) :
    orAbandon step s
      = .error fault ⟨reached.volume, settle .cancelled reached.subject⟩ := by
  have outcome : Step.outcome step s = .ok (.error fault) reached := by
    unfold Step.outcome
    rw [failed]
  exact Step.bind_of_ok outcome

namespace Open

variable {s : Placed History} {ledger : Ledger}
  {insert : Int → Int → Int → Value → Step Store Unit}

/-- A history is not closed before its latest change. -/
theorem close_of_early
    {stop : Int}
    (open_ : Open s ledger)
    (early : stop < ledger.ongoing.latest) :
    closeWith insert stop s
      = .error (.timeOutside stop ledger.ongoing.latest latestInstant)
          ⟨s.volume, settle .cancelled s.subject⟩ := by
  have refused : Recording.closeWith insert stop ⟨s.volume, s.subject.recording⟩
      = .error (.timeOutside stop ledger.ongoing.latest latestInstant)
        ⟨s.volume, s.subject.recording⟩ := by
    have checked : s.subject.recording.ongoing.checkTime stop
        = .error (.timeOutside stop ledger.ongoing.latest latestInstant) := by
      rw [open_.goes.takes.keeps.ongoing]
      unfold Ongoing.checkTime
      rw [if_pos early]
    exact Recording.closeWith_of_late checked insert
  unfold closeWith
  apply orAbandon_of_error s
  rw [Step.subject_bind_apply, open_.kept.checkUsable, Step.ofExcept_ok, Step.pure_bind_apply]
  exact Step.bind_of_error (onRecording_of_error refused)

/--
From its latest change on a history can be closed.  All that was held is then
stored, even where the backend has no room for the names and closing fails.
-/
theorem close
    {stop : Int}
    (open_ : Open s ledger)
    (onTime : ledger.ongoing.latest ≤ stop) :
    ∃ reached,
      Kept reached ((ledger.close stop).finish stop)
        ∧ s.subject.backend.Alike reached.subject.backend
        ∧ (s.subject.backend.Accepts s.subject.names
            ∧ (∀ insert, Store.Follows insert → closeWith insert stop s = .ok () reached)
            ∧ reached.subject.outline
              = { s.subject.outline with
                  currentEnd := max s.subject.currentEnd stop
                  status := Status.settled .completed s.subject.status }
            ∧ Backend.Complete ⟨reached.volume, reached.subject.backend⟩ s.subject.names
              (ledger.close stop).taken
          ∨ ¬ s.subject.backend.Accepts s.subject.names
            ∧ (∀ insert, Store.Follows insert →
              closeWith insert stop s = .error s.subject.names.obstacle reached)
            ∧ reached.subject.outline
              = { s.subject.outline with
                  status := Status.settled .cancelled s.subject.status }) := by
  rcases open_.goes.close onTime with ⟨⟨between, closed⟩, done, takes, alike⟩
  rcases takes.finish stop s.subject.names with
    ⟨⟨volume, recording⟩, keeps, alikeAfter, -, ends⟩
  have accepts := alike.accepts_iff s.subject.names
  have kept : Kept ⟨volume, { s.subject with recording }⟩ ((ledger.close stop).finish stop) :=
    ⟨open_.alive, keeps, open_.named.trans (Ledger.size_close ledger stop).symm⟩
  rcases ends with ⟨accepted, finishes, complete⟩ | ⟨refused, fails⟩
  · refine ⟨⟨volume, settle .completed
      { s.subject with recording, currentEnd := max s.subject.currentEnd stop }⟩,
      ?_, ?_, Or.inl ⟨accepts.mp accepted, ?_, outline_settle _ _, ?_⟩⟩
    · have keptLonger : Kept ⟨volume, { s.subject with
          recording
          currentEnd := max s.subject.currentEnd stop }⟩ ((ledger.close stop).finish stop) :=
        ⟨kept.alive, kept.keeps, kept.named⟩
      exact keptLonger.settle .completed
    · show s.subject.backend.Alike (settle _ _).recording.store.backend
      rw [recording_settle]
      exact alike.trans alikeAfter
    · intro insert follows
      unfold closeWith
      apply orAbandon_of_ok
      rw [Step.subject_bind_apply, open_.kept.checkUsable, Step.ofExcept_ok,
        Step.pure_bind_apply]
      apply (Step.bind_of_ok (onRecording_of_ok (done insert follows))).trans
      rw [Step.subject_bind_apply]
      exact (Step.bind_of_ok (onRecording_of_ok finishes)).trans rfl
    · unfold backend
      rw [recording_settle]
      exact complete
  · refine ⟨⟨volume, settle .cancelled { s.subject with recording }⟩,
      kept.settle .cancelled, ?_,
      Or.inr ⟨fun accepted => refused (accepts.mpr accepted), ?_, outline_settle _ _⟩⟩
    · show s.subject.backend.Alike (settle _ _).recording.store.backend
      rw [recording_settle]
      exact alike.trans alikeAfter
    · intro insert follows
      unfold closeWith
      refine orAbandon_of_error ⟨volume, { s.subject with recording }⟩ ?_
      rw [Step.subject_bind_apply, open_.kept.checkUsable, Step.ofExcept_ok,
        Step.pure_bind_apply]
      apply (Step.bind_of_ok (onRecording_of_ok (done insert follows))).trans
      rw [Step.subject_bind_apply]
      exact Step.bind_of_error (onRecording_of_error fails)

/-- What a history is after it was closed with success. -/
theorem close_eq_ok
    {stop : Int}
    {closed : Placed History}
    (open_ : Open s ledger)
    (closes : History.close stop s = .ok () closed) :
    ledger.ongoing.latest ≤ stop
      ∧ Kept closed ((ledger.close stop).finish stop)
      ∧ closed.subject.outline
        = { s.subject.outline with
            currentEnd := stop
            status := Status.settled .completed s.subject.status }
      ∧ Backend.Complete ⟨closed.volume, closed.subject.backend⟩ s.subject.names
        (ledger.close stop).taken := by
  by_cases early : stop < ledger.ongoing.latest
  · have failed : History.close stop s = _ := open_.close_of_early early
    rw [closes] at failed
    cases failed
  · have onTime := Int.not_lt.mp early
    rcases open_.close onTime with
      ⟨reached, kept, -, ⟨-, done, outline, complete⟩ | ⟨-, failed, -⟩⟩
    · have doneHere : History.close stop s = _ := done Store.insert Store.follows_insert
      rw [closes] at doneHere
      cases doneHere
      rw [open_.ending, Int.max_eq_right onTime] at outline
      exact ⟨onTime, kept, outline, complete⟩
    · have failedHere : History.close stop s = _ := failed Store.insert Store.follows_insert
      rw [closes] at failedHere
      cases failedHere

end Open

end History

end Chronicle
