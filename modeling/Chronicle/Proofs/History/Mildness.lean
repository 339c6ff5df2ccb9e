import Chronicle.Proofs.History.Following

/-!
# Why changes fail

While a history can be written to, nothing that its writer does to it fails
for a reason that is fatal.  What the store and the namespace refuse are
unknown attributes, times that are over and values that do not fit; counters,
stacks and removals give up for reasons of their own, which are as mild.
-/

namespace Chronicle.History

variable {α : Type} {s after : Placed History} {ledger : Ledger}

/-- A script that gives up for no fatal reason of its own. -/
def Script.Mild : Script α → Prop
  | done _ => True
  | fail fault => fault.isFatal = false
  | held _ next => ∀ value, (next value).Mild
  | under _ next => ∀ inner, (next inner).Mild
  | fit _ next => next.Mild
  | intern _ _ next => ∀ quark, (next quark).Mild
  | set _ _ _ next => next.Mild

section Faults

variable {fault : Fault}

theorem isFatal_of_slot
    {ongoing : Ongoing}
    {quark : Int}
    (missing : ongoing.slot quark = .error fault) :
    fault.isFatal = false := by
  unfold Ongoing.slot at missing
  split at missing
  · cases missing
  · cases missing
    rfl

theorem isFatal_of_checkFits
    {store : Store}
    {value : Value}
    (refused : store.checkFits value = .error fault) :
    fault.isFatal = false := by
  unfold Store.checkFits at refused
  split at refused
  · cases refused
  · split at refused
    · cases refused
      rfl
    · cases refused

/-- A change is refused for no fatal reason. -/
theorem isFatal_of_change
    {store : Store}
    {t quark : Int}
    {value : Value}
    (refused : ledger.change (store.checkFits value) t value quark = .error fault) :
    fault.isFatal = false := by
  rcases Ledger.change_eq_error refused with missing | ⟨-, -, early⟩ | ⟨-, -, -, -, unfit⟩
  · exact isFatal_of_slot missing
  · unfold Ongoing.checkTime at early
    split at early
    · cases early
      rfl
    · cases early
  · exact isFatal_of_checkFits unfit

theorem isFatal_of_intern
    {ns : Namespace}
    {base : Int}
    {path : List String}
    (refused : ns.intern base path = .error fault) :
    fault.isFatal = false := by
  unfold Namespace.intern at refused
  split at refused
  · cases refused
  · cases refused
    rfl

theorem isFatal_of_below
    {ns : Namespace}
    {quark : Int}
    (refused : ns.below quark true = .error fault) :
    fault.isFatal = false := by
  unfold Namespace.below at refused
  split at refused
  · cases refused
  · cases refused
    rfl

theorem isFatal_of_successor
    {value : Value}
    (refused : value.successor = .error fault) :
    fault.isFatal = false := by
  cases value <;> cases refused <;> rfl

theorem isFatal_of_asHeight
    {value : Value}
    (refused : value.asHeight = .error fault) :
    fault.isFatal = false := by
  cases value <;> cases refused <;> rfl

/-- A history that answers by a ledger has no fatal reason to keep back what an attribute holds. -/
theorem Kept.isFatal_of_ongoingValue
    {quark : Int}
    (kept : Kept s ledger)
    (missing : s.subject.ongoingValue quark = .error fault) :
    fault.isFatal = false := by
  unfold ongoingValue at missing
  rw [kept.checkUsable] at missing
  cases found : s.subject.recording.ongoing.slot quark with
  | error other =>
      rw [found] at missing
      cases missing
      exact isFatal_of_slot found
  | ok slot =>
      rw [found] at missing
      cases missing

/-- While a history can be written to, a mild script fails for no fatal reason. -/
theorem Open.isFatal_of_mild
    {script : Script α}
    (open_ : Open s ledger)
    (mild : script.Mild)
    (failed : script.run s = .error fault after) :
    fault.isFatal = false := by
  induction script generalizing s ledger with
  | done a => cases failed
  | fail reason =>
      cases failed
      exact mild
  | held quark next ih =>
      rcases Step.ofExcept_bind_eq_error failed with ⟨read, -⟩ | ⟨value, -, rest⟩
      · exact open_.kept.isFatal_of_ongoingValue read
      · exact ih value open_ (mild value) rest
  | under quark next ih =>
      rcases Step.ofExcept_bind_eq_error failed with ⟨read, -⟩ | ⟨inner, -, rest⟩
      · exact isFatal_of_below read
      · exact ih inner open_ (mild inner) rest
  | fit value next ih =>
      rcases Step.ofExcept_bind_eq_error failed with ⟨read, -⟩ | ⟨done, -, rest⟩
      · exact isFatal_of_checkFits read
      · exact ih open_ mild rest
  | intern base path next ih =>
      rw [Script.run_intern] at failed
      rcases open_.intern base path with
        ⟨names, quark, reached, -, done, openAfter, -⟩ | ⟨reason, refused, failsHere⟩
      · rw [Step.bind_of_ok done] at failed
        exact ih quark openAfter (mild quark) failed
      · rw [Step.bind_of_error failsHere] at failed
        cases failed
        exact isFatal_of_intern refused
  | set t value quark next ih =>
      rw [Script.run_set] at failed
      rcases open_.set_cases t value quark with
        ⟨reached, between, -, done, openAfter, -⟩ | ⟨reason, refused, failsHere⟩
      · rw [Step.bind_of_ok done] at failed
        exact ih openAfter mild failed
      · rw [Step.bind_of_error failsHere] at failed
        cases failed
        exact isFatal_of_change refused

end Faults

namespace Script

variable {β : Type}

theorem mild_given
    {decided : Except Fault β}
    {next : β → Script α}
    (calm : ∀ fault, decided = .error fault → fault.isFatal = false)
    (later : ∀ b, (next b).Mild) :
    (given decided next).Mild := by
  cases decided with
  | error fault => exact calm fault rfl
  | ok b => exact later b

theorem mild_clear
    {t : Int}
    {quarks : List Int}
    {next : Script α}
    (later : next.Mild) :
    (clear t quarks next).Mild := by
  induction quarks with
  | nil => exact later
  | cons quark rest ih => exact ih

theorem mild_increment
    {t quark : Int}
    {next : Script α}
    (later : next.Mild) :
    (increment t quark next).Mild := by
  intro value
  exact mild_given (fun fault => isFatal_of_successor) fun _ => later

theorem mild_push
    {t quark : Int}
    {value : Value}
    {next : Script α}
    (later : next.Mild) :
    (push t value quark next).Mild := by
  intro held
  refine mild_given (fun fault => isFatal_of_asHeight) fun height => ?_
  dsimp only
  split
  · rfl
  · exact fun _ => later

theorem mild_pop
    {t quark : Int}
    {next : Option Value → Script α}
    (later : ∀ popped, (next popped).Mild) :
    (pop t quark next).Mild := by
  intro held
  refine mild_given (fun fault => isFatal_of_asHeight) fun height => ?_
  dsimp only
  split
  · exact later none
  · exact fun _ popped _ => mild_clear (later (some popped))

theorem mild_remove
    {t quark : Int}
    {next : Script α}
    (later : next.Mild) :
    (remove t quark next).Mild :=
  fun _ => mild_clear later

end Script

/-- Counters, stacks and removals give up for no fatal reason of their own. -/
theorem Change.mild
    (change : Change) :
    change.script.Mild := by
  cases change with
  | intern base path => exact fun _ => trivial
  | set t value quark => trivial
  | increment t quark => exact Script.mild_increment trivial
  | push t value quark => exact Script.mild_push trivial
  | pop t quark =>
      show (Script.pop t quark fun value => .done (Answer.popped value)).Mild
      exact Script.mild_pop fun _ => trivial
  | remove t quark => exact Script.mild_remove trivial

end Chronicle.History
