import Chronicle.Proofs.History.Asking
import Chronicle.Proofs.History.Script

/-!
# Following scripts

A history that can be written to can still be written to after any script,
whatever becomes of it.  Its store takes all that the script stores, and its
ledger goes on telling what the journal tells.
-/

namespace Chronicle

/-- The value in an answer is the one that the journal tells. -/
theorem Ledger.Replays.intervalAt
    {ledger : Ledger}
    {entries : List Entry}
    {ending t quark : Int}
    {i : Interval}
    (replays : ledger.Replays entries ending)
    (answered : ledger.intervalAt ending t quark = .ok i)
    (until_ : t ≤ ending) :
    i.value = heldAt entries quark t := by
  rcases Ledger.intervalAt_eq_ok answered with
    ⟨place, slot, rfl, known, ⟨begun, rfl⟩ | ⟨-, member, same, covers⟩⟩
  · exact replays.now known begun until_
  · rw [← same]
    exact replays.past i member covers

namespace History

/-- What is kept when a script is followed from a history with the given ledger. -/
structure Followed
    {α : Type}
    (script : Script α)
    (s : Placed History)
    (ledger after : Ledger) : Prop where
  open_ : Open (script.run.reached s) after
  follows : ∀ insert, Store.Follows insert → script.runWith (setWith insert) s = script.run s
  lasts : ∀ {p}, Ledger.Lasting p → ∀ {entries}, p ledger entries →
    p after (entries ++ journal (script.events s))

namespace Followed

variable {α : Type} {script next : Script α} {s between : Placed History}
  {ledger ledgerBetween after : Ledger}

/-- A script that ends at once leaves all as it is. -/
theorem of_end
    {ended : EStateM.Result Fault (Placed History) α}
    (open_ : Open s ledger)
    (ends : ∀ insert, script.runWith (setWith insert) s = ended)
    (same : script.run.reached s = s)
    (silent : journal (script.events s) = []) :
    Followed script s ledger ledger where
  open_ := by
    rw [same]
    exact open_
  follows insert _ := (ends insert).trans (ends Store.insert).symm
  lasts _ _ holds := by
    rw [silent, List.append_nil]
    exact holds

/-- A script that fails at once leaves all as it is. -/
theorem of_error
    (fault : Fault)
    (open_ : Open s ledger)
    (fails : ∀ insert, script.runWith (setWith insert) s = .error fault s)
    (silent : journal (script.events s) = []) :
    Followed script s ledger ledger :=
  of_end open_ fails (Step.reached_of_error (fails Store.insert)) silent

/-- A script that goes on from another history keeps what is kept from there. -/
theorem of_next
    (noted : List Entry)
    (goes : ∀ insert, Store.Follows insert →
      script.runWith (setWith insert) s = next.runWith (setWith insert) between)
    (tells : journal (script.events s) = noted ++ journal (next.events between))
    (notes : ∀ {p}, Ledger.Lasting p → ∀ {entries}, p ledger entries →
      p ledgerBetween (entries ++ noted))
    (later : Followed next between ledgerBetween after) :
    Followed script s ledger after where
  open_ := by
    have same : script.run s = next.run between := goes Store.insert Store.follows_insert
    unfold Step.reached
    rw [same]
    exact later.open_
  follows insert follows := by
    have same : script.run s = next.run between := goes Store.insert Store.follows_insert
    rw [goes insert follows, later.follows insert follows, same]
  lasts lasting _ holds := by
    rw [tells, ← List.append_assoc]
    exact later.lasts lasting (notes lasting holds)

/-- A script that only looks goes on from the same history. -/
theorem of_look
    (goes : ∀ insert, script.runWith (setWith insert) s = next.runWith (setWith insert) s)
    (tells : journal (script.events s) = journal (next.events s))
    (later : Followed next s ledger after) :
    Followed script s ledger after :=
  of_next [] (fun insert _ => goes insert) tells
    (fun _ _ holds => (List.append_nil _).symm ▸ holds) later

/-- A script that reads something fails with it or goes on from the same history. -/
theorem exists_of_read
    {β : Type}
    {next : β → Script α}
    (read : Except Fault β)
    (tells : journal (script.events s) = match read with
      | .ok b => journal ((next b).events s)
      | .error _ => [])
    (goes : ∀ insert, script.runWith (setWith insert) s
      = (Step.ofExcept read >>= fun b => (next b).runWith (setWith insert)) s)
    (open_ : Open s ledger)
    (later : ∀ b, ∃ after, Followed (next b) s ledger after) :
    ∃ after, Followed script s ledger after := by
  cases read with
  | error fault => exact ⟨ledger, .of_error fault open_ goes tells⟩
  | ok b =>
      rcases later b with ⟨after, followed⟩
      exact ⟨after, .of_look goes tells followed⟩

end Followed

namespace Open

variable {α : Type} {s : Placed History} {ledger : Ledger}

/-- A history can be written to after any script. -/
theorem follow
    (open_ : Open s ledger)
    (script : Script α) :
    ∃ after, Followed script s ledger after := by
  induction script generalizing s ledger with
  | done a => exact ⟨ledger, .of_end open_ (fun _ => rfl) rfl rfl⟩
  | fail fault => exact ⟨ledger, .of_error fault open_ (fun _ => rfl) rfl⟩
  | held quark next ih =>
      refine Followed.exists_of_read (s.subject.ongoingValue quark) ?_ (fun _ => rfl) open_
        (fun value => ih value open_)
      conv_lhs => unfold Script.events
      cases s.subject.ongoingValue quark <;> rfl
  | under quark next ih =>
      refine Followed.exists_of_read (s.subject.names.below quark true) ?_ (fun _ => rfl) open_
        (fun inner => ih inner open_)
      conv_lhs => unfold Script.events
      cases s.subject.names.below quark true <;> rfl
  | fit value next ih =>
      refine Followed.exists_of_read (s.subject.recording.store.checkFits value) ?_
        (fun _ => rfl) open_ (fun _ => ih open_)
      conv_lhs => unfold Script.events
      cases s.subject.recording.store.checkFits value <;> rfl
  | intern base path next ih =>
      rcases open_.intern base path with
        ⟨names, quark, reached, -, done, openAfter, -⟩ | ⟨fault, -, failed⟩
      · rcases ih quark openAfter with ⟨after, followed⟩
        refine ⟨after, .of_next [] ?_ ?_ ?_ followed⟩
        · intro insert _
          conv_lhs => unfold Script.runWith
          exact Step.bind_of_ok done
        · conv_lhs => unfold Script.events
          rw [done]
          rfl
        · intro p lasting entries holds
          rw [List.append_nil]
          exact lasting.grow names.size holds
      · refine ⟨ledger, .of_error fault open_ ?_ ?_⟩
        · intro insert
          unfold Script.runWith
          exact Step.bind_of_error failed
        · unfold Script.events
          rw [failed]
          rfl
  | set t value quark next ih =>
      cases changed : ledger.change (s.subject.recording.store.checkFits value) t value quark with
      | error fault =>
          have failed : ∀ insert, setWith insert t value quark s = .error fault s :=
            fun insert => open_.set_of_error changed
          have failedHere : History.set t value quark s = .error fault s := failed Store.insert
          refine ⟨ledger, .of_error fault open_ ?_ ?_⟩
          · intro insert
            unfold Script.runWith
            exact Step.bind_of_error (failed insert)
          · unfold Script.events
            rw [failedHere]
            rfl
      | ok between =>
          rcases open_.set changed with ⟨reached, done, openAfter, -, -⟩
          rcases ih openAfter with ⟨after, followed⟩
          have doneHere : History.set t value quark s = .ok () reached :=
            done Store.insert Store.follows_insert
          refine ⟨after, .of_next [⟨t, value, quark⟩] ?_ ?_ ?_ followed⟩
          · intro insert follows
            conv_lhs => unfold Script.runWith
            exact Step.bind_of_ok (done insert follows)
          · conv_lhs => unfold Script.events
            rw [doneHere]
            rfl
          · intro p lasting entries holds
            exact lasting.change open_.goes.takes.keeps.tiled open_.goes.current changed holds

end Open

end History

end Chronicle
