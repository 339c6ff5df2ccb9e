import Chronicle.History.Writer
import Chronicle.Proofs.Recording.Journal
import Chronicle.Proofs.Step

/-!
# Scripts of a writer

Whatever a writer does to attributes is done by a script of a few
instructions: it looks at what is held or at what is below an attribute, asks
whether a value fits, enters a path, or sets a value.  Counters and stacks are
such scripts.  What every instruction keeps, all that a writer does keeps.
-/

namespace Chronicle.History

/-- A script that ends with an answer. -/
inductive Script (α : Type)
  | done (a : α)
  | fail (fault : Fault)
  | held (quark : Int) (next : Value → Script α)
  | under (quark : Int) (next : List Int → Script α)
  | fit (value : Value) (next : Script α)
  | intern (base : Int) (path : List String) (next : Int → Script α)
  | set (t : Int) (value : Value) (quark : Int) (next : Script α)

namespace Script

variable {α β : Type}

/-- Follows a script in which values are set by the given step. -/
def runWith
    (setting : Int → Value → Int → Step History Unit) :
    Script α →
    Step History α
  | done a => return a
  | fail fault => throw fault
  | held quark next => do
    let value ← Step.ofExcept ((← Step.subject).ongoingValue quark)
    runWith setting (next value)
  | under quark next => do
    let inner ← Step.ofExcept ((← Step.subject).names.below quark true)
    runWith setting (next inner)
  | fit value next => do
    Step.ofExcept ((← Step.subject).recording.store.checkFits value)
    runWith setting next
  | intern base path next => do
    let quark ← History.intern base path
    runWith setting (next quark)
  | set t value quark next => do
    setting t value quark
    runWith setting next

/-- Follows a script. -/
def run (script : Script α) : Step History α :=
  script.runWith History.set

/-- Goes on with what was decided. -/
def given
    (decided : Except Fault β)
    (next : β → Script α) :
    Script α :=
  match decided with
  | .ok b => next b
  | .error fault => fail fault

/-- Sets attributes to null, one after the other. -/
def clear
    (t : Int)
    (quarks : List Int)
    (next : Script α) :
    Script α :=
  match quarks with
  | [] => next
  | quark :: rest => set t .null quark (clear t rest next)

/-- Sets an attribute and all below it to null. -/
def remove
    (t quark : Int)
    (next : Script α) :
    Script α :=
  under quark fun inner => clear t inner (set t .null quark next)

/-- Counts one more. -/
def increment
    (t quark : Int)
    (next : Script α) :
    Script α :=
  held quark fun value => given value.successor fun more => set t more quark next

/-- Goes on with the height of a stack. -/
def height
    (quark : Int)
    (next : Int → Script α) :
    Script α :=
  held quark fun value => given value.asHeight fun height => next height.toInt

/-- Puts a value on a stack. -/
def push
    (t : Int)
    (value : Value)
    (quark : Int)
    (next : Script α) :
    Script α :=
  fit value (height quark fun height =>
    if (maxStackHeight : Int) ≤ height then
      fail (.badArgument (.deepStack quark maxStackHeight))
    else
      intern quark [toString (height + 1)] fun element =>
        set t (.int (Int32.ofInt (height + 1))) quark (set t value element next))

/-- Takes the uppermost value from a stack. -/
def pop
    (t quark : Int)
    (next : Option Value → Script α) :
    Script α :=
  height quark fun height =>
    if height ≤ 0 then
      next none
    else
      intern quark [toString height] fun element =>
        held element fun popped =>
          set t (if height = 1 then .null else .int (Int32.ofInt (height - 1))) quark
            (remove t element (next (some popped)))

end Script

/-! ## Changes -/

/-- What a writer can do to attributes. -/
inductive Change
  | intern (base : Int) (path : List String)
  | set (t : Int) (value : Value) (quark : Int)
  | increment (t quark : Int)
  | push (t : Int) (value : Value) (quark : Int)
  | pop (t quark : Int)
  | remove (t quark : Int)

/-- What a writer is told. -/
inductive Answer
  | done
  | quark (quark : Int)
  | popped (value : Option Value)
deriving DecidableEq

namespace Change

/-- Makes a change. -/
def step : Change → Step History Answer
  | intern base path => do
    return .quark (← History.intern base path)
  | set t value quark => do
    History.set t value quark
    return .done
  | increment t quark => do
    History.increment t quark
    return .done
  | push t value quark => do
    History.push t value quark
    return .done
  | pop t quark => do
    return .popped (← History.pop t quark)
  | remove t quark => do
    History.remove t quark
    return .done

/-- The script of a change. -/
def script : Change → Script Answer
  | intern base path => .intern base path fun quark => .done (.quark quark)
  | set t value quark => .set t value quark (.done .done)
  | increment t quark => .increment t quark (.done .done)
  | push t value quark => .push t value quark (.done .done)
  | pop t quark => .pop t quark fun value => .done (.popped value)
  | remove t quark => .remove t quark (.done .done)

end Change

/-! ## What scripts do -/

namespace Script

variable {α β : Type}

theorem run_held
    (quark : Int)
    (next : Value → Script α) :
    (held quark next).run
      = Step.subject >>= fun history =>
          Step.ofExcept (history.ongoingValue quark) >>= fun value => (next value).run := rfl

theorem run_given
    (decided : Except Fault β)
    (next : β → Script α) :
    (given decided next).run = Step.ofExcept decided >>= fun b => (next b).run := by
  cases decided with
  | ok b => rfl
  | error fault => rfl

theorem run_set
    (t : Int)
    (value : Value)
    (quark : Int)
    (next : Script α) :
    (set t value quark next).run = History.set t value quark >>= fun _ => next.run := rfl

theorem run_intern
    (base : Int)
    (path : List String)
    (next : Int → Script α) :
    (intern base path next).run = History.intern base path >>= fun quark => (next quark).run := rfl

theorem run_clear
    (t : Int)
    (quarks : List Int)
    (next : Script α) :
    (clear t quarks next).run
      = (quarks.forM fun quark => History.set t .null quark) >>= fun _ => next.run := by
  induction quarks with
  | nil => rfl
  | cons quark rest ih =>
      show History.set t .null quark >>= (fun _ => (clear t rest next).run)
        = (History.set t .null quark >>= fun _ =>
            rest.forM fun quark => History.set t .null quark) >>= _
      rw [bind_assoc, ih]

theorem run_remove
    (t quark : Int)
    (next : Script α) :
    (remove t quark next).run = History.remove t quark >>= fun _ => next.run := by
  have first : (remove t quark next).run
      = Step.subject >>= fun history =>
          Step.ofExcept (history.names.below quark true) >>= fun inner =>
            (clear t inner (set t .null quark next)).run := rfl
  rw [first]
  unfold History.remove
  simp only [run_clear, run_set, bind_assoc]

theorem run_height
    (quark : Int)
    (next : Int → Script α) :
    (height quark next).run
      = Step.subject >>= fun history =>
          Step.ofExcept (history.stackHeight quark) >>= fun height => (next height).run := by
  unfold height
  rw [run_held]
  congr 1
  funext history
  unfold stackHeight
  cases history.ongoingValue quark with
  | error fault => rfl
  | ok value =>
      rw [Step.ofExcept_ok, pure_bind, run_given]
      show _ = Step.ofExcept (value.asHeight >>= fun height => pure height.toInt) >>= _
      cases value.asHeight with
      | error fault => rfl
      | ok height => rfl

theorem run_increment
    (t quark : Int)
    (next : Script α) :
    (increment t quark next).run = History.increment t quark >>= fun _ => next.run := by
  unfold increment History.increment
  simp only [run_held, run_given, run_set, bind_assoc]

theorem run_push
    (t : Int)
    (value : Value)
    (quark : Int)
    (next : Script α) :
    (push t value quark next).run = History.push t value quark >>= fun _ => next.run := by
  funext s
  unfold push History.push
  show (Step.subject >>= fun history =>
    Step.ofExcept (history.recording.store.checkFits value) >>= fun _ => (height quark _).run) s = _
  rw [run_height, bind_assoc, Step.subject_bind_apply, Step.subject_bind_apply]
  cases s.subject.recording.store.checkFits value with
  | error fault => rfl
  | ok done =>
      rw [Step.ofExcept_ok, Step.pure_bind_apply, Step.subject_bind_apply, pure_bind, bind_assoc]
      cases s.subject.stackHeight quark with
      | error fault => rfl
      | ok height =>
          rw [Step.ofExcept_ok, pure_bind, pure_bind]
          by_cases deep : (maxStackHeight : Int) ≤ height
          · simp only [if_pos deep]
            rfl
          · simp only [if_neg deep, run_intern, run_set, bind_assoc]
            rfl

theorem run_pop
    (t quark : Int)
    (next : Option Value → Script α) :
    (pop t quark next).run = History.pop t quark >>= fun value => (next value).run := by
  unfold pop History.pop
  simp only [run_height, bind_assoc]
  congr 1
  funext history
  congr 1
  funext height
  by_cases empty : height ≤ 0
  · simp only [if_pos empty, pure_bind]
  · simp only [if_neg empty, run_intern, run_held, run_set, run_remove, bind_assoc, pure_bind]
    rfl

end Script

/-! ## What happens when a script is followed -/

/-- What happened: a value was asked about or set, with or without success. -/
inductive Event
  | asked (value : Value)
  | refused (entry : Entry)
  | accepted (entry : Entry)
deriving DecidableEq

namespace Event

/-- The value that an event is about. -/
def value : Event → Value
  | asked value => value
  | refused entry => entry.value
  | accepted entry => entry.value

/-- What was set. -/
def entry? : Event → Option Entry
  | asked _ => none
  | refused _ => none
  | accepted entry => some entry

end Event

/-- All that was set, in order. -/
def journal (events : List Event) : List Entry :=
  events.filterMap Event.entry?

namespace Script

variable {α : Type}

/-- What happens when a script is followed. -/
def events : Script α → Placed History → List Event
  | done _, _ => []
  | fail _, _ => []
  | held quark next, s =>
    match s.subject.ongoingValue quark with
    | .ok value => events (next value) s
    | .error _ => []
  | under quark next, s =>
    match s.subject.names.below quark true with
    | .ok inner => events (next inner) s
    | .error _ => []
  | fit value next, s =>
    .asked value :: match s.subject.recording.store.checkFits value with
      | .ok _ => events next s
      | .error _ => []
  | intern base path next, s =>
    match History.intern base path s with
    | .ok quark reached => events (next quark) reached
    | .error _ _ => []
  | set t value quark next, s =>
    match History.set t value quark s with
    | .ok _ reached => .accepted ⟨t, value, quark⟩ :: events next reached
    | .error _ _ => [.refused ⟨t, value, quark⟩]

end Script

/-- The script of a change does what the change does. -/
theorem Change.run_script
    (change : Change) :
    change.script.run = change.step := by
  cases change with
  | intern base path => rfl
  | set t value quark => rfl
  | increment t quark => exact Script.run_increment t quark _
  | push t value quark => exact Script.run_push t value quark _
  | pop t quark => exact Script.run_pop t quark fun value => .done (Answer.popped value)
  | remove t quark => exact Script.run_remove t quark _

end Chronicle.History
