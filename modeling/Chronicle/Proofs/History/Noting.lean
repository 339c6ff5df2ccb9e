import Chronicle.Proofs.History.Running
import Chronicle.Proofs.Namespace.Subtree
import Chronicle.Proofs.Recording.Course

/-!
# Noting what is set

What a writer sets is noted in the ledger of a history, one entry after the
other, whatever becomes of the script that it is set by.  Meanwhile the
namespace only gets more names.
-/

namespace Chronicle

/-- If something succeeds after a decision, the decision was made. -/
theorem Step.ofExcept_bind_eq_ok
    {σ α β : Type}
    {decided : Except Fault α}
    {next : α → Step σ β}
    {s after : Placed σ}
    {b : β}
    (done : (Step.ofExcept decided >>= next) s = .ok b after) :
    ∃ a, decided = .ok a ∧ next a s = .ok b after := by
  cases decided with
  | ok a => exact ⟨a, rfl, done⟩
  | error fault => cases done

namespace History

variable {s reached : Placed History} {ledger : Ledger}

/-- What an attribute holds now is in its slot. -/
theorem Kept.ongoingValue_eq_ok_iff
    {quark : Int}
    {value : Value}
    (kept : Kept s ledger) :
    s.subject.ongoingValue quark = .ok value
      ↔ ∃ slot, ledger.ongoing.slot quark = .ok slot ∧ slot.value = value := by
  have ongoing : s.subject.recording.ongoing = ledger.ongoing := kept.keeps.ongoing
  unfold ongoingValue
  rw [kept.checkUsable, ongoing]
  cases ledger.ongoing.slot quark with
  | error fault =>
      constructor
      · rintro ⟨⟩
      · rintro ⟨slot, ⟨⟩, -⟩
  | ok slot =>
      constructor
      · rintro ⟨⟩
        exact ⟨slot, rfl, rfl⟩
      · rintro ⟨other, ⟨⟩, rfl⟩
        rfl

/-- What an attribute holds now it has held since the latest change at least. -/
theorem Open.holds_of_ongoingValue
    {quark t : Int}
    {value : Value}
    (open_ : Open s ledger)
    (held : s.subject.ongoingValue quark = .ok value)
    (late : s.subject.currentEnd ≤ t) :
    ledger.Holds quark t value := by
  rcases open_.kept.ongoingValue_eq_ok_iff.mp held with ⟨slot, found, rfl⟩
  have since := open_.goes.current.since_le (Ongoing.slot_eq_ok_iff.mp found).2
  have ending := open_.ending
  exact .now found (by omega)

/-- What was held at the latest change or after it is what is held now. -/
theorem Open.ongoingValue_of_holds
    {quark t : Int}
    {value : Value}
    (open_ : Open s ledger)
    (known : s.subject.names.Contains quark)
    (late : s.subject.currentEnd ≤ t)
    (holds : ledger.Holds quark t value) :
    s.subject.ongoingValue quark = .ok value := by
  rcases open_.kept.exists_slot known with ⟨slot, found⟩
  have since := open_.goes.current.since_le (Ongoing.slot_eq_ok_iff.mp found).2
  have ending := open_.ending
  exact open_.kept.ongoingValue_eq_ok_iff.mpr ⟨slot, found, holds.slot_value found (by omega)⟩

/-- What is left of a history with the given ledger once entries were noted. -/
structure Noted
    (s : Placed History)
    (ledger : Ledger)
    (entries : List Entry)
    (reached : Placed History)
    (after : Ledger) : Prop where
  open_ : Open reached after
  notes : ledger.Notes entries after
  names : s.subject.names.Extends reached.subject.names

namespace Noted

variable {between : Placed History} {ledgerBetween after : Ledger} {first later : List Entry}

theorem refl
    (open_ : Open s ledger) :
    Noted s ledger [] s ledger :=
  ⟨open_, .refl ledger, .refl s.subject.names⟩

theorem trans
    (one : Noted s ledger first between ledgerBetween)
    (two : Noted between ledgerBetween later reached after) :
    Noted s ledger (first ++ later) reached after :=
  ⟨two.open_, one.notes.trans two.notes, one.names.trans two.names⟩

/-- What an attribute holds when nothing was noted was held before. -/
theorem holds_of_ongoingValue
    {quark t : Int}
    {value : Value}
    (noted : Noted s ledger [] reached after)
    (open_ : Open s ledger)
    (held : reached.subject.ongoingValue quark = .ok value)
    (late : reached.subject.currentEnd ≤ t) :
    ledger.Holds quark t value := by
  have holds := noted.open_.holds_of_ongoingValue held late
  rcases noted.open_.kept.ongoingValue_eq_ok_iff.mp held with ⟨slot, found, -⟩
  have begun : ledger.ongoing.start ≤ t := by
    have started := open_.goes.current.start_le
    have later := noted.notes.latest_le
    have ending := noted.open_.ending
    omega
  have nonneg := (Ongoing.inside_of_slot found).1
  rcases Ledger.Holds.exists_value open_.kept.keeps.tiled nonneg begun with ⟨before, holdsBefore⟩
  have still : after.Holds quark t before := noted.notes.holds holdsBefore
  rwa [still.unique noted.open_.kept.keeps.holds.separate holds] at holdsBefore

end Noted

namespace Open

/-- A path that is refused leaves the history as it is. -/
theorem eq_of_intern_error
    {base : Int}
    {path : List String}
    {fault : Fault}
    (open_ : Open s ledger)
    (failed : History.intern base path s = .error fault reached) :
    reached = s := by
  rcases open_.intern base path with ⟨_, _, _, -, done, -⟩ | ⟨_, -, failedToo⟩
  · cases done.symm.trans failed
  · cases failedToo.symm.trans failed
    rfl

/-- So does a value that is refused. -/
theorem eq_of_set_error
    {t quark : Int}
    {value : Value}
    {fault : Fault}
    (open_ : Open s ledger)
    (failed : History.set t value quark s = .error fault reached) :
    reached = s := by
  rcases open_.set_cases t value quark with ⟨_, _, -, done, -⟩ | ⟨_, -, failedToo⟩
  · cases done.symm.trans failed
  · cases failedToo.symm.trans failed
    rfl

/-- A value that is set is noted. -/
theorem note_set
    {t quark : Int}
    {value : Value}
    (open_ : Open s ledger)
    (done : History.set t value quark s = .ok () reached) :
    (∃ after, Noted s ledger [⟨t, value, quark⟩] reached after)
      ∧ reached.subject.names = s.subject.names := by
  rcases open_.set_cases t value quark with
    ⟨other, after, changed, doneToo, openAfter, names, -⟩ | ⟨fault, -, failed⟩
  · cases doneToo.symm.trans done
    exact ⟨⟨after, openAfter, .change open_.goes.current changed, names ▸ .refl _⟩, names⟩
  · cases failed.symm.trans done

/-- A path that is entered leads to an attribute, and nothing is noted. -/
theorem note_intern
    {base quark : Int}
    {path : List String}
    (open_ : Open s ledger)
    (done : History.intern base path s = .ok quark reached) :
    (∃ after, Noted s ledger [] reached after)
      ∧ path.foldlM reached.subject.names.child? base = some quark := by
  rcases open_.intern base path with
    ⟨names, found, other, entered, doneToo, openAfter, outline, -⟩ | ⟨fault, -, failed⟩
  · cases doneToo.symm.trans done
    obtain rfl : reached.subject.names = names := congrArg Outline.names outline
    unfold Namespace.intern at entered
    split at entered
    · rename_i place
      have goes := Except.ok.inj entered
      have placed : (s.subject.names, base).1.IsPlace (s.subject.names, base).2 := place
      have extended := Namespace.extends_foldl_descend placed path
      have leads := Namespace.foldlM_foldl_descend placed path
      rw [goes] at extended leads
      exact ⟨⟨_, openAfter, .grow ledger _, extended⟩, leads⟩
    · cases entered
  · cases failed.symm.trans done

/-- A script that reads something ends with it or goes on from the same history. -/
theorem note_of_read
    {α β : Type}
    {script : Script α}
    {next : β → Script α}
    (open_ : Open s ledger)
    (read : Except Fault β)
    (tells : journal (script.events s) = match read with
      | .ok b => journal ((next b).events s)
      | .error _ => [])
    (goes : script.run s = (Step.ofExcept read >>= fun b => (next b).run) s)
    (later : ∀ b, ∃ after,
      Noted s ledger (journal ((next b).events s)) ((next b).run.reached s) after) :
    ∃ after, Noted s ledger (journal (script.events s)) (script.run.reached s) after := by
  unfold Step.reached
  rw [goes, tells]
  cases read with
  | error fault => exact ⟨ledger, .refl open_⟩
  | ok b => exact later b

/-- All that a script sets is noted, however it ends. -/
theorem note
    {α : Type}
    (open_ : Open s ledger)
    (script : Script α) :
    ∃ after, Noted s ledger (journal (script.events s)) (script.run.reached s) after := by
  induction script generalizing s ledger with
  | done a => exact ⟨ledger, .refl open_⟩
  | fail fault => exact ⟨ledger, .refl open_⟩
  | held quark next ih =>
      refine open_.note_of_read (s.subject.ongoingValue quark) ?_ rfl fun value => ih value open_
      conv_lhs => unfold Script.events
      cases s.subject.ongoingValue quark <;> rfl
  | under quark next ih =>
      refine open_.note_of_read (s.subject.names.below quark true) ?_ rfl
        fun inner => ih inner open_
      conv_lhs => unfold Script.events
      cases s.subject.names.below quark true <;> rfl
  | fit value next ih =>
      refine open_.note_of_read (s.subject.recording.store.checkFits value) ?_ rfl
        fun _ => ih open_
      conv_lhs => unfold Script.events
      cases s.subject.recording.store.checkFits value <;> rfl
  | intern base path next ih =>
      unfold Script.events
      rw [Script.run_intern]
      cases ends : History.intern base path s with
      | error fault other =>
          obtain rfl := open_.eq_of_intern_error ends
          rw [Step.reached_bind_of_error ends]
          exact ⟨ledger, .refl open_⟩
      | ok quark between =>
          rcases open_.note_intern ends with ⟨⟨ledgerBetween, entered⟩, -⟩
          rcases ih quark entered.open_ with ⟨after, noted⟩
          rw [Step.reached_bind_of_ok ends]
          exact ⟨after, entered.trans noted⟩
  | set t value quark next ih =>
      unfold Script.events
      rw [Script.run_set]
      cases ends : History.set t value quark s with
      | error fault other =>
          obtain rfl := open_.eq_of_set_error ends
          rw [Step.reached_bind_of_error ends]
          exact ⟨ledger, .refl open_⟩
      | ok done between =>
          rcases open_.note_set ends with ⟨⟨ledgerBetween, taken⟩, -⟩
          rcases ih taken.open_ with ⟨after, noted⟩
          rw [Step.reached_bind_of_ok ends]
          exact ⟨after, taken.trans noted⟩

/-! ## Setting to null -/

/-- What is set to null one after the other is noted so. -/
theorem note_clear
    {t : Int}
    {quarks : List Int}
    (open_ : Open s ledger)
    (done : (quarks.forM fun quark => History.set t .null quark) s = .ok () reached) :
    (∃ after, Noted s ledger (nulled t quarks) reached after)
      ∧ reached.subject.names = s.subject.names := by
  induction quarks generalizing s ledger with
  | nil =>
      cases done
      exact ⟨⟨ledger, .refl open_⟩, rfl⟩
  | cons quark rest ih =>
      rcases Step.bind_eq_ok_iff.mp done with ⟨_, between, first, later⟩
      rcases open_.note_set first with ⟨⟨ledgerBetween, taken⟩, same⟩
      rcases ih taken.open_ later with ⟨⟨after, noted⟩, sameLater⟩
      exact ⟨⟨after, taken.trans noted⟩, sameLater.trans same⟩

/-- What is below an attribute that is removed is set to null, and then the attribute. -/
theorem note_remove
    {t quark : Int}
    (open_ : Open s ledger)
    (done : History.remove t quark s = .ok () reached) :
    (∃ after,
        Noted s ledger (nulled t (s.subject.names.descendants quark ++ [quark])) reached after)
      ∧ reached.subject.names = s.subject.names := by
  unfold History.remove at done
  rw [Step.subject_bind_apply] at done
  cases listed : s.subject.names.below quark true with
  | error fault =>
      rw [listed] at done
      cases done
  | ok inner =>
      rw [listed, Step.ofExcept_ok, Step.pure_bind_apply] at done
      obtain ⟨-, rfl⟩ := Namespace.isPlace_of_below listed
      rcases Step.bind_eq_ok_iff.mp done with ⟨_, between, first, last⟩
      rcases open_.note_clear first with ⟨⟨ledgerBetween, cleared⟩, same⟩
      rcases cleared.open_.note_set last with ⟨⟨after, noted⟩, sameLast⟩
      rw [nulled_append]
      exact ⟨⟨after, cleared.trans noted⟩, sameLast.trans same⟩

/-! ## Stacks -/

/-- What entering the place of an element leads to. -/
theorem note_stackElement
    {quark height element : Int}
    (open_ : Open s ledger)
    (done : History.stackElement quark height s = .ok element reached) :
    (∃ after, Noted s ledger [] reached after)
      ∧ reached.subject.names.child? quark (toString height) = some element := by
  rcases open_.note_intern done with ⟨noted, leads⟩
  refine ⟨noted, ?_⟩
  rw [List.foldlM_cons] at leads
  rcases Option.bind_eq_some_iff.mp leads with ⟨child, found, ends⟩
  cases ends
  exact found

/-- A value that is pushed is noted at its place, after the height that the stack has then. -/
theorem note_push
    {t quark : Int}
    {value : Value}
    (open_ : Open s ledger)
    (done : History.push t value quark s = .ok () reached) :
    ∃ height element after,
      s.subject.stackHeight quark = .ok height
        ∧ height < maxStackHeight
        ∧ reached.subject.names.child? quark (toString (height + 1)) = some element
        ∧ Noted s ledger
          [⟨t, .int (Int32.ofInt (height + 1)), quark⟩, ⟨t, value, element⟩] reached after := by
  unfold History.push at done
  rw [Step.subject_bind_apply] at done
  rcases Step.ofExcept_bind_eq_ok done with ⟨_, -, afterFit⟩
  rcases Step.ofExcept_bind_eq_ok afterFit with ⟨height, read, afterRead⟩
  by_cases deep : (maxStackHeight : Int) ≤ height
  · rw [if_pos deep] at afterRead
    cases afterRead
  · rw [if_neg deep] at afterRead
    rcases Step.bind_eq_ok_iff.mp afterRead with ⟨element, between, entered, afterEntry⟩
    rcases Step.bind_eq_ok_iff.mp afterEntry with ⟨_, raised, raises, puts⟩
    rcases open_.note_stackElement entered with ⟨⟨_, noted⟩, child⟩
    rcases noted.open_.note_set raises with ⟨⟨_, notedRaised⟩, names⟩
    rcases notedRaised.open_.note_set puts with ⟨⟨after, notedPut⟩, namesPut⟩
    refine ⟨height, element, after, read, Int.not_le.mp deep, ?_,
      (noted.trans notedRaised).trans notedPut⟩
    rw [namesPut, names]
    exact child

/-- A pop finds nothing, or what the uppermost element holds, which is then removed. -/
theorem note_pop
    {t quark : Int}
    {popped : Option Value}
    (open_ : Open s ledger)
    (done : History.pop t quark s = .ok popped reached) :
    ∃ height,
      s.subject.stackHeight quark = .ok height
        ∧ (height ≤ 0 ∧ popped = none ∧ reached = s
          ∨ 0 < height ∧ ∃ element value after,
            popped = some value
              ∧ ledger.Holds element t value
              ∧ reached.subject.names.child? quark (toString height) = some element
              ∧ Noted s ledger
                (⟨t, if height = 1 then .null else .int (Int32.ofInt (height - 1)), quark⟩
                  :: nulled t (reached.subject.names.descendants element ++ [element]))
                reached after) := by
  unfold History.pop at done
  rw [Step.subject_bind_apply] at done
  rcases Step.ofExcept_bind_eq_ok done with ⟨height, read, afterRead⟩
  refine ⟨height, read, ?_⟩
  by_cases empty : height ≤ 0
  · rw [if_pos empty] at afterRead
    cases afterRead
    exact Or.inl ⟨empty, rfl, rfl⟩
  · rw [if_neg empty] at afterRead
    rcases Step.bind_eq_ok_iff.mp afterRead with ⟨element, between, entered, afterEntry⟩
    rw [Step.subject_bind_apply] at afterEntry
    rcases Step.ofExcept_bind_eq_ok afterEntry with ⟨value, held, afterHeld⟩
    rcases Step.bind_eq_ok_iff.mp afterHeld with ⟨_, lowered, lowers, afterLowered⟩
    rcases Step.bind_eq_ok_iff.mp afterLowered with ⟨_, last, removes, ends⟩
    cases ends
    rcases open_.note_stackElement entered with ⟨⟨_, noted⟩, child⟩
    rcases noted.open_.note_set lowers with ⟨⟨_, notedLowered⟩, names⟩
    rcases notedLowered.open_.note_remove removes with ⟨⟨after, notedRemoved⟩, namesRemoved⟩
    have onTime := (notedLowered.notes.times _ List.mem_cons_self).1
    refine Or.inr ⟨Int.not_le.mp empty, element, value, after, rfl, ?_, ?_, ?_⟩
    · exact noted.holds_of_ongoingValue open_ held (noted.open_.ending ▸ onTime)
    · rw [namesRemoved, names]
      exact child
    · rw [namesRemoved]
      exact (noted.trans notedLowered).trans notedRemoved

end Open

end History

end Chronicle
