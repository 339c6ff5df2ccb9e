import Chronicle.Proofs.History.Growing
import Chronicle.Proofs.History.Mildness
import Chronicle.Proofs.History.Running

/-!
# Refused changes

A change that fails, fails before it has set anything, or else nothing of it
can fail any more: what it sets after the first value is set at the same time,
to attributes that are there and to values that fit.  All it can leave behind
are new attributes, which have held null since the start.  The removal of the
root alone is different.  It sets all attributes to null and then fails, since
the root itself is none.
-/

namespace Chronicle

namespace Ledger

/-- A change of a known attribute is made if it is on time and its value fits. -/
theorem exists_change
    {ledger : Ledger}
    {t quark : Int}
    {slot : Recording.Slot}
    (found : ledger.ongoing.slot quark = .ok slot)
    (onTime : ledger.ongoing.latest ≤ t)
    (value : Value) :
    ∃ after, ledger.change (.ok ()) t value quark = .ok after := by
  have checked : ledger.ongoing.checkTime t = .ok () := by
    unfold Ongoing.checkTime
    rw [if_neg (Int.not_lt.mpr onTime)]
  unfold change
  rw [found, checked]
  simp only [bind, Except.bind]
  split
  · exact ⟨_, rfl⟩
  · exact ⟨_, rfl⟩

/-- Whether an attribute holds null. -/
def Nulls
    (ledger : Ledger)
    (place : Nat) :
    Prop :=
  ∃ slot, ledger.slot? place = some slot ∧ slot.value = .null

/-- Setting an attribute to null leaves null what was null. -/
theorem nulls_of_change
    {ledger after : Ledger}
    {fits : Except Fault Unit}
    {t : Int}
    {quark : Int}
    (changed : ledger.change fits t .null quark = .ok after)
    (place : Nat) :
    (quark = place → after.Nulls place) ∧ (ledger.Nulls place → after.Nulls place) := by
  rcases change_eq_ok changed with ⟨set_, slot, rfl, known, -, ⟨held, rfl⟩ | ⟨-, -, rfl⟩⟩
  · constructor
    · intro same
      obtain rfl := Int.ofNat_inj.mp same
      exact ⟨slot, known, held⟩
    · exact id
  · have slots : ((ledger.switch set_ slot .null t).advance t).slot? place
        = if set_ = place then some ⟨.null, t⟩ else ledger.slot? place := slot?_switch known .null t
    by_cases same : set_ = place
    · rw [if_pos same] at slots
      exact ⟨fun _ => ⟨_, slots, rfl⟩, fun _ => ⟨_, slots, rfl⟩⟩
    · rw [if_neg same] at slots
      constructor
      · intro other
        exact absurd (Int.ofNat_inj.mp other) same
      · rintro ⟨old, found, null⟩
        exact ⟨old, slots.trans found, null⟩

end Ledger

namespace History

variable {α : Type} {s after : Placed History} {ledger : Ledger}

/-! ## What cannot fail -/

/-- A step that answers when it is taken from `s`. -/
def Surely
    (step : Step History α)
    (s : Placed History) :
    Prop :=
  ∃ a reached, step s = .ok a reached

/-- A known attribute is set at any time from the latest change on to any value that fits. -/
theorem Open.exists_set
    {t quark : Int}
    {value : Value}
    (open_ : Open s ledger)
    (known : s.subject.names.Contains quark)
    (onTime : ledger.ongoing.latest ≤ t)
    (fits : s.subject.recording.store.checkFits value = .ok ()) :
    ∃ reached after,
      ledger.change (s.subject.recording.store.checkFits value) t value quark = .ok after
        ∧ History.set t value quark s = .ok () reached
        ∧ Open reached after
        ∧ reached.subject.names = s.subject.names
        ∧ s.subject.backend.Alike reached.subject.backend := by
  rcases open_.set_cases t value quark with done | ⟨fault, refused, -⟩
  · exact done
  · rcases open_.kept.exists_slot known with ⟨slot, found⟩
    rcases Ledger.exists_change found onTime value with ⟨after, changed⟩
    rw [fits] at refused
    cases changed.symm.trans refused

/-- Known attributes are set to null one after the other. -/
theorem Open.exists_clear
    {t : Int}
    {quarks : List Int}
    (open_ : Open s ledger)
    (known : ∀ quark ∈ quarks, s.subject.names.Contains quark)
    (onTime : ledger.ongoing.latest ≤ t) :
    ∃ reached after,
      (quarks.forM fun quark => History.set t .null quark) s = .ok () reached
        ∧ Open reached after
        ∧ after.ongoing.latest ≤ t
        ∧ reached.subject.names = s.subject.names
        ∧ ∀ place : Nat, (place : Int) ∈ quarks ∨ ledger.Nulls place → after.Nulls place := by
  induction quarks generalizing s ledger with
  | nil =>
      refine ⟨s, ledger, rfl, open_, onTime, rfl, ?_⟩
      rintro place (listed | nulls)
      · cases listed
      · exact nulls
  | cons quark rest ih =>
      rcases open_.exists_set (known quark List.mem_cons_self) onTime open_.goes.takes.nullFits with
        ⟨between, ledgerBetween, changed, done, openBetween, names, -⟩
      have knownRest : ∀ other ∈ rest, between.subject.names.Contains other := by
        intro other member
        rw [names]
        exact known other (List.mem_cons_of_mem quark member)
      rcases ih openBetween knownRest (Int.le_of_eq (Ledger.latest_of_change changed)) with
        ⟨reached, after, doneRest, openAfter, latest, namesRest, nulls⟩
      refine ⟨reached, after, (Step.bind_of_ok done).trans doneRest, openAfter, latest,
        namesRest.trans names, ?_⟩
      intro place cleared
      apply nulls place
      rcases cleared with listed | before
      · rcases List.mem_cons.mp listed with same | later
        · exact Or.inr ((Ledger.nulls_of_change changed place).1 same.symm)
        · exact Or.inl later
      · exact Or.inr ((Ledger.nulls_of_change changed place).2 before)

namespace Script

/-- What follows after known attributes were set to null cannot fail if it cannot fail by itself. -/
theorem surely_clear
    {t : Int}
    {quarks : List Int}
    {next : Script α}
    (open_ : Open s ledger)
    (known : ∀ quark ∈ quarks, s.subject.names.Contains quark)
    (onTime : ledger.ongoing.latest ≤ t)
    (later : ∀ {reached : Placed History} {after : Ledger}, Open reached after →
      after.ongoing.latest ≤ t → reached.subject.names = s.subject.names →
        Surely next.run reached) :
    Surely (clear t quarks next).run s := by
  rcases open_.exists_clear known onTime with ⟨reached, after, done, openAfter, latest, names, -⟩
  rcases later openAfter latest names with ⟨a, last, rest⟩
  refine ⟨a, last, ?_⟩
  rw [run_clear]
  exact (Step.bind_of_ok done).trans rest

/-- An attribute that is known is removed with all that is below it. -/
theorem surely_remove
    {t quark : Int}
    {a : α}
    (open_ : Open s ledger)
    (known : s.subject.names.Contains quark)
    (onTime : ledger.ongoing.latest ≤ t) :
    Surely (remove t quark (.done a)).run s := by
  have below : s.subject.names.below quark true = .ok (s.subject.names.descendants quark) :=
    Namespace.below_of_isPlace (Or.inr known)
  have goes : Surely (clear t (s.subject.names.descendants quark)
      (.set t .null quark (.done a))).run s := by
    refine surely_clear open_ (fun inner => Namespace.contains_of_mem_descendants) onTime ?_
    intro reached after openAfter onTimeAfter names
    rcases openAfter.exists_set (names ▸ known) onTimeAfter openAfter.goes.takes.nullFits with
      ⟨last, -, -, done, -⟩
    exact ⟨a, last, Step.bind_of_ok done⟩
  rcases goes with ⟨b, reached, done⟩
  refine ⟨b, reached, ?_⟩
  show (Step.ofExcept (s.subject.names.below quark true) >>= fun inner =>
    (clear t inner (.set t .null quark (.done a))).run) s = _
  rw [below]
  exact done

end Script

/-! ## What fails without harm -/

/-- A script that leaves nothing but new names behind if it fails from `s`. -/
def Script.Harmless
    (script : Script α)
    (s : Placed History)
    (ledger : Ledger) :
    Prop :=
  ∀ fault after, script.run s = .error fault after → Grown s after ledger

namespace Script

theorem harmless_done
    (a : α) :
    (done a).Harmless s ledger := by
  intro fault after failed
  cases failed

theorem harmless_fail
    (open_ : Open s ledger)
    (reason : Fault) :
    (fail reason : Script α).Harmless s ledger := by
  intro fault after failed
  cases failed
  exact .refl open_

/-- Looking at something does no harm. -/
theorem harmless_of_read
    {β : Type}
    {script : Script α}
    {next : β → Script α}
    (open_ : Open s ledger)
    (read : Except Fault β)
    (goes : script.run s = (Step.ofExcept read >>= fun b => (next b).run) s)
    (later : ∀ b, read = .ok b → (next b).Harmless s ledger) :
    script.Harmless s ledger := by
  intro fault after failed
  rw [goes] at failed
  rcases Step.ofExcept_bind_eq_error failed with ⟨-, rfl⟩ | ⟨b, decided, rest⟩
  · exact .refl open_
  · exact later b decided fault after rest

/-- Entering a path leaves new names behind. -/
theorem harmless_intern
    {base : Int}
    {path : List String}
    {next : Int → Script α}
    (open_ : Open s ledger)
    (later : ∀ {quark : Int} {reached : Placed History},
      s.subject.names.intern base path = .ok (reached.subject.names, quark) →
        Open reached (ledger.grow reached.subject.names.size) →
          s.subject.backend.Alike reached.subject.backend →
            (next quark).Harmless reached (ledger.grow reached.subject.names.size)) :
    (intern base path next).Harmless s ledger := by
  intro fault after failed
  rcases open_.intern base path with
    ⟨names, quark, reached, entered, done, openAfter, outline, alike⟩ | ⟨reason, -, refused⟩
  · obtain rfl : reached.subject.names = names := congrArg Outline.names outline
    have rest : (next quark).run reached = .error fault after :=
      (Step.bind_of_ok done).symm.trans failed
    exact Grown.trans ⟨openAfter, outline⟩ (later entered openAfter alike fault after rest)
  · have ends : (intern base path next).run s = .error reason s := Step.bind_of_error refused
    rw [ends] at failed
    cases failed
    exact .refl open_

/-- Setting a value does no harm if nothing that follows can fail. -/
theorem harmless_set
    {t quark : Int}
    {value : Value}
    {next : Script α}
    (open_ : Open s ledger)
    (later : ∀ {reached : Placed History} {after : Ledger}, Open reached after →
      after.ongoing.latest = t → reached.subject.names = s.subject.names →
        s.subject.backend.Alike reached.subject.backend → Surely next.run reached) :
    (set t value quark next).Harmless s ledger := by
  intro fault after failed
  rcases open_.set_cases t value quark with
    ⟨reached, between, changed, done, openAfter, names, alike⟩ | ⟨reason, -, refused⟩
  · rcases later openAfter (Ledger.latest_of_change changed) names alike with ⟨a, last, rest⟩
    have ends : (set t value quark next).run s = .ok a last := (Step.bind_of_ok done).trans rest
    cases failed.symm.trans ends
  · have ends : (set t value quark next).run s = .error reason s := Step.bind_of_error refused
    rw [ends] at failed
    cases failed
    exact .refl open_

theorem surely_done
    (a : α) :
    Surely (done a).run s :=
  ⟨a, s, rfl⟩

/-- Whatever time and count, one more is set at once or not at all. -/
theorem harmless_increment
    {t quark : Int}
    {a : α}
    (open_ : Open s ledger) :
    (increment t quark (.done a)).Harmless s ledger := by
  refine harmless_of_read open_ (s.subject.ongoingValue quark) rfl fun value _ => ?_
  cases successor : value.successor with
  | error fault => exact harmless_fail open_ fault
  | ok more => exact harmless_set open_ fun _ _ _ _ => surely_done a

/-- An attribute is removed with all that is below it, or not at all. -/
theorem harmless_remove
    {t quark : Int}
    {a : α}
    (open_ : Open s ledger)
    (placed : quark ≠ Quark.root) :
    (remove t quark (.done a)).Harmless s ledger := by
  refine harmless_of_read open_ (s.subject.names.below quark true) rfl fun inner below => ?_
  rcases Namespace.isPlace_of_below below with ⟨atRoot | known, rfl⟩
  · exact absurd atRoot placed
  · have inside : ∀ inner ∈ s.subject.names.descendants quark, s.subject.names.Contains inner :=
      fun inner => Namespace.contains_of_mem_descendants
    cases listed : s.subject.names.descendants quark with
    | nil => exact harmless_set open_ fun _ _ _ _ => surely_done a
    | cons first rest =>
        rw [listed] at inside
        -- Once the first attribute is set to null, the others can be at the same time.
        refine harmless_set open_ fun {reached after} openAfter latest names _ => ?_
        refine surely_clear openAfter ?_ (Int.le_of_eq latest) ?_
        · intro other member
          rw [names]
          exact inside other (List.mem_cons_of_mem first member)
        · intro last final openLast onTime namesLast
          have knownLast : last.subject.names.Contains quark := by
            rw [namesLast, names]
            exact known
          rcases openLast.exists_set knownLast onTime openLast.goes.takes.nullFits with
            ⟨final, -, -, done, -⟩
          exact ⟨a, final, Step.bind_of_ok done⟩

/-- The height of a stack and its new element are set at once, or neither is. -/
theorem harmless_push
    {t quark : Int}
    {value : Value}
    {a : α}
    (open_ : Open s ledger) :
    (push t value quark (.done a)).Harmless s ledger := by
  refine harmless_of_read open_ (s.subject.recording.store.checkFits value) rfl fun done fits => ?_
  refine harmless_of_read open_ (s.subject.ongoingValue quark) rfl fun held _ => ?_
  cases read : held.asHeight with
  | error fault => exact harmless_fail open_ fault
  | ok height =>
      show Script.Harmless (if (maxStackHeight : Int) ≤ height.toInt then _ else _) s ledger
      split
      · exact harmless_fail open_ _
      · refine harmless_intern open_ fun {element reached} entered openAfter alike => ?_
        refine harmless_set openAfter fun {last after} openLast latest names alikeLast => ?_
        have known : last.subject.names.Contains element := by
          rw [names]
          exact Namespace.contains_of_intern (List.cons_ne_nil _ _) entered
        have fitsLast : last.subject.recording.store.checkFits value = .ok () :=
          (Store.checkFits_congr (alike.trans alikeLast).capacity value).trans fits
        rcases openLast.exists_set known (Int.le_of_eq latest) fitsLast with
          ⟨final, -, -, done, -⟩
        exact ⟨a, final, Step.bind_of_ok done⟩

/-- The height of a stack is set and its uppermost element removed at once, or neither is. -/
theorem harmless_pop
    {t quark : Int}
    {a : Option Value → α}
    (open_ : Open s ledger) :
    (pop t quark fun value => .done (a value)).Harmless s ledger := by
  refine harmless_of_read open_ (s.subject.ongoingValue quark) rfl fun held _ => ?_
  cases read : held.asHeight with
  | error fault => exact harmless_fail open_ fault
  | ok height =>
      show Script.Harmless (if height.toInt ≤ 0 then _ else _) s ledger
      split
      · exact harmless_done _
      · refine harmless_intern open_ fun {element reached} entered openAfter _ => ?_
        refine harmless_of_read openAfter (reached.subject.ongoingValue element) rfl
          fun popped _ => ?_
        refine harmless_set openAfter fun {last after} openLast latest names _ => ?_
        have known : last.subject.names.Contains element := by
          rw [names]
          exact Namespace.contains_of_intern (List.cons_ne_nil _ _) entered
        exact surely_remove openLast known (Int.le_of_eq latest)

end Script

/-- The removal of the root. -/
def Change.Uproots : Change → Prop
  | remove _ quark => quark = Quark.root
  | _ => False

instance : DecidablePred Change.Uproots := fun change => by
  cases change <;> unfold Change.Uproots <;> infer_instance

/-- No change but the removal of the root leaves anything but new names behind when it fails. -/
theorem Change.harmless
    {change : Change}
    (open_ : Open s ledger)
    (placed : ¬ change.Uproots) :
    change.script.Harmless s ledger := by
  cases change with
  | intern base path =>
      exact Script.harmless_intern open_ fun _ _ _ => Script.harmless_done _
  | set t value quark => exact Script.harmless_set open_ fun _ _ _ _ => Script.surely_done _
  | increment t quark => exact Script.harmless_increment open_
  | push t value quark => exact Script.harmless_push open_
  | pop t quark => exact Script.harmless_pop open_
  | remove t quark => exact Script.harmless_remove open_ placed

/-! ## Calls that fail -/

/-- Whether a call changes what attributes hold and leaves the writer in place. -/
def Call.Changes (call : Call) : Prop :=
  call.Writes ∧ ¬ call.Ends

/-- The removal of the root. -/
def Call.Uproots : Call → Prop
  | make change => change.Uproots
  | _ => False

instance : DecidablePred Call.Changes := fun call =>
  inferInstanceAs (Decidable (call.Writes ∧ ¬ call.Ends))

instance : DecidablePred Call.Uproots
  | .make change => inferInstanceAs (Decidable change.Uproots)
  | .overwrite _ _ => instDecidableFalse
  | .close _ => instDecidableFalse
  | .abandon => instDecidableFalse
  | .ask _ => instDecidableFalse

/-- The removal of the root changes nothing, or sets all attributes to null and fails then. -/
theorem Open.uprooted
    {t : Int}
    {fault : Fault}
    (open_ : Open s ledger)
    (failed : History.remove t Quark.root s = .error fault after) :
    Grown s after ledger
      ∨ fault = .notFound (.quark Quark.root)
        ∧ ∀ quark, s.subject.names.Contains quark →
          after.subject.ongoingValue quark = .ok .null := by
  have goes : History.remove t Quark.root s
      = ((s.subject.names.quarks.forM fun quark => History.set t .null quark) >>= fun _ =>
        History.set t .null Quark.root) s := by
    unfold History.remove
    rw [Step.subject_bind_apply, Namespace.below_of_isPlace (Or.inl rfl),
      Namespace.descendants_root]
    rfl
  rw [goes] at failed
  by_cases onTime : ledger.ongoing.latest ≤ t
  · right
    rcases open_.exists_clear (fun quark => Namespace.mem_quarks.mp) onTime with
      ⟨reached, between, done, openAfter, -, names, nulls⟩
    have refused : between.change (reached.subject.recording.store.checkFits .null) t .null
        Quark.root = .error (.notFound (.quark Quark.root)) := rfl
    have fails : History.set t .null Quark.root reached = .error _ reached :=
      openAfter.set_of_error refused
    cases ((Step.bind_of_ok done).trans fails).symm.trans failed
    refine ⟨rfl, ?_⟩
    intro quark known
    obtain ⟨place, rfl⟩ : ∃ place : Nat, quark = place := ⟨quark.toNat, by have := known.1; omega⟩
    rcases nulls place (Or.inl (Namespace.mem_quarks.mpr known)) with ⟨slot, found, null⟩
    have slotFound : between.ongoing.slot place = .ok slot :=
      Ongoing.slot_eq_ok_iff.mpr ⟨Int.natCast_nonneg place, found⟩
    unfold ongoingValue
    rw [openAfter.kept.checkUsable, openAfter.kept.keeps.ongoing, slotFound, ← null]
    rfl
  · left
    have refuses : ∀ quark, ∃ reason, History.set t .null quark s = .error reason s := by
      intro quark
      rcases open_.set_cases t .null quark with
        ⟨reached, between, changed, -⟩ | ⟨reason, -, refused⟩
      · rcases Ledger.change_eq_ok changed with ⟨place, slot, -, -, timely, -⟩
        exact absurd timely onTime
      · exact ⟨reason, refused⟩
    cases listed : s.subject.names.quarks with
    | nil =>
        rw [listed] at failed
        rcases refuses Quark.root with ⟨reason, refused⟩
        cases refused.symm.trans failed
        exact .refl open_
    | cons first rest =>
        rw [listed] at failed
        rcases refuses first with ⟨reason, refused⟩
        cases (Step.bind_of_error (Step.bind_of_error refused)).symm.trans failed
        exact .refl open_

/-- A call that fails leaves nothing but new names behind, unless it is the removal of the root. -/
theorem Open.refused
    {call : Call}
    {fault : Fault}
    (open_ : Open s ledger)
    (changes : call.Changes)
    (failed : call.step s = .error fault after) :
    fault.isFatal = false
      ∧ (Grown s after ledger
        ∨ call.Uproots
          ∧ fault = .notFound (.quark Quark.root)
          ∧ ∀ quark, s.subject.names.Contains quark →
            after.subject.ongoingValue quark = .ok .null) := by
  cases call with
  | make change =>
      have fails : change.step s = .error fault after := Step.eq_error_of_map failed
      have follows : change.script.run s = .error fault after := by
        rw [change.run_script]
        exact fails
      refine ⟨open_.isFatal_of_mild change.mild follows, ?_⟩
      by_cases uproots : change.Uproots
      · cases change with
        | remove t quark =>
            obtain rfl : quark = Quark.root := uproots
            rcases open_.uprooted (Step.eq_error_of_map fails) with grown | nulled
            · exact Or.inl grown
            · exact Or.inr ⟨rfl, nulled⟩
        | intern base path => exact uproots.elim
        | set t value quark => exact uproots.elim
        | increment t quark => exact uproots.elim
        | push t value quark => exact uproots.elim
        | pop t quark => exact uproots.elim
      · exact Or.inl (Change.harmless open_ uproots fault after follows)
  | overwrite value quark =>
      have fails : History.overwrite value quark s = .error fault after :=
        Step.eq_error_of_map failed
      rcases open_.overwrite value quark with
        ⟨place, slot, reached, -, -, -, done, -⟩ | ⟨reason, refused, same⟩
      · cases fails.symm.trans done
      · cases fails.symm.trans same
        refine ⟨?_, Or.inl (.refl open_)⟩
        cases fits : s.subject.recording.store.checkFits value with
        | error other =>
            rw [fits] at refused
            cases refused
            exact isFatal_of_checkFits fits
        | ok done =>
            rw [fits] at refused
            exact isFatal_of_slot refused
  | close stop => exact absurd trivial changes.2
  | abandon => exact absurd trivial changes.2
  | ask question => exact changes.1.elim

/--
A call of its writer that fails changes nothing in a history that is being
written, and it fails for no fatal reason.  There is one exception: the removal
of the root can have set all attributes to null before it fails.
-/
theorem unchanged_of_refused
    {id : String}
    {start : Int}
    {plan : Backend.Plan}
    {volume made : Volume}
    {history : History}
    {calls : List Call}
    {call : Call}
    {fault : Fault}
    (sound : volume.Sound)
    (created : create id start plan volume = .ok (made, history))
    (stays : ∀ call ∈ calls, ¬ call.Ends)
    (changes : call.Changes)
    (inRange : ∀ before, before <+: calls ++ [call] →
      ((Step.each Call.step before).reached ⟨made, history⟩).subject.InRange)
    (failed : call.step ((Step.each Call.step calls).reached ⟨made, history⟩)
      = .error fault after) :
    fault.isFatal = false
      ∧ (Unchanged ((Step.each Call.step calls).reached ⟨made, history⟩) after
        ∨ call.Uproots
          ∧ fault = .notFound (.quark Quark.root)
          ∧ ∀ quark,
            ((Step.each Call.step calls).reached ⟨made, history⟩).subject.names.Contains quark →
              after.subject.ongoingValue quark = .ok .null) := by
  rcases open_of_create sound created with ⟨open_, -⟩
  have inRangeBefore : ∀ before, before <+: calls →
      ((Step.each Call.step before).reached ⟨made, history⟩).subject.InRange :=
    fun before begins => inRange before (begins.trans (List.prefix_append calls [call]))
  rcases open_.stay stays inRangeBefore with ⟨ledger, openLast⟩
  have now := inRangeBefore calls (List.prefix_refl calls)
  have later : after.subject.InRange := by
    have last := inRange (calls ++ [call]) (List.prefix_refl _)
    rw [Step.reached_each_append, Step.reached_each_cons, Step.reached_of_error failed] at last
    exact last
  rcases openLast.refused changes failed with ⟨mild, grown | nulled⟩
  · exact ⟨mild, Or.inl (grown.unchanged openLast now later)⟩
  · exact ⟨mild, Or.inr nulled⟩

/-- Calls after which a push at an earlier time is refused, when its element was created. -/
def stackCalls : List Call :=
  [.make (.intern (-1) ["a"]), .make (.set 2 (.int 1) 0)]

theorem inRange_stackCalls :
    ∃ made history,
      create "cramped" 0 (.file "cramped" cramping) .empty = .ok (made, history)
        ∧ (∀ before ∈ (stackCalls ++ [Call.make (.push 1 .null 0)]).inits,
          ((Step.each Call.step before).reached ⟨made, history⟩).subject.InRange)
        ∧ (match (Call.make (.push 1 .null 0)).step
            ((Step.each Call.step stackCalls).reached ⟨made, history⟩) with
          | .ok _ _ => false
          | .error fault _ => fault = .timeOutside 1 2 latestInstant) = true :=
  ⟨_, _, rfl, by decide +kernel, by decide +kernel⟩

theorem unchanged_by_late_push :
    ∃ made history after,
      create "cramped" 0 (.file "cramped" cramping) .empty = .ok (made, history)
        ∧ (Call.make (.push 1 .null 0)).step
          ((Step.each Call.step stackCalls).reached ⟨made, history⟩)
          = .error (.timeOutside 1 2 latestInstant) after
        ∧ Unchanged ((Step.each Call.step stackCalls).reached ⟨made, history⟩) after := by
  rcases inRange_stackCalls with ⟨made, history, created, inRange, fails⟩
  have stays : ∀ call ∈ stackCalls, ¬ call.Ends := by decide
  have changes : (Call.make (.push 1 .null 0)).Changes := by decide
  cases failed : (Call.make (.push 1 .null 0)).step
      ((Step.each Call.step stackCalls).reached ⟨made, history⟩) with
  | ok reply after =>
      rw [failed] at fails
      cases fails
  | error fault after =>
      rw [failed] at fails
      obtain rfl := of_decide_eq_true fails
      rcases unchanged_of_refused (by decide) created stays changes
        (fun before begins => inRange before ((List.mem_inits before _).mpr begins)) failed with
        ⟨-, unchanged | ⟨uproots, -⟩⟩
      · exact ⟨made, history, after, created, failed, unchanged⟩
      · exact uproots.elim

/-- The removal of the root fails, and changes what there is all the same. -/
theorem changed_by_removal_of_root :
    ∃ made history before after,
      create "removed" 0 .memory .empty = .ok (made, history)
        ∧ before = (Step.each Call.step
          [.make (.intern (-1) ["a"]), .make (.set 1 (.int 5) 0)]).reached ⟨made, history⟩
        ∧ (Call.make (.remove 3 Quark.root)).step before
          = .error (.notFound (.quark Quark.root)) after
        ∧ (Fault.notFound (.quark Quark.root)).isFatal = false
        ∧ ¬ Unchanged before after := by
  refine ⟨_, _, _, _, rfl, rfl, rfl, rfl, ?_⟩
  intro unchanged
  have latest := unchanged.latest
  cases latest

end History

end Chronicle
