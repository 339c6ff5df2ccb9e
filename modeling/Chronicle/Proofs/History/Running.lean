import Chronicle.Proofs.History.Following

/-!
# Running a history

A history is written to by one writer, call after call, until the writer ends;
in between and afterwards it is asked.  Whatever a call comes to, the history
still answers by a ledger, and its store refused nothing on the way.
-/

namespace Chronicle.History

/-- What a history is told to do or asked. -/
inductive Call
  | make (change : Change)
  | overwrite (value : Value) (quark : Int)
  | close (stop : Int)
  | abandon
  | ask (question : Question)

/-- What is said to a call. -/
inductive Reply
  | answer (answer : Answer)
  | intervals (found : List Interval)
deriving DecidableEq

namespace Call

/-- Does what a call says. -/
def step : Call → Step History Reply
  | make change => do
    return .answer (← change.step)
  | overwrite value quark => do
    History.overwrite value quark
    return .answer .done
  | close stop => do
    History.close stop
    return .answer .done
  | abandon => do
    History.abandon
    return .answer .done
  | ask question => do
    return .intervals (← question.step)

/-- Does what a call says, where what ends is stored by the given step. -/
def stepWith (insert : Int → Int → Int → Value → Step Store Unit) : Call → Step History Reply
  | make change => do
    return .answer (← change.script.runWith (setWith insert))
  | overwrite value quark => do
    History.overwrite value quark
    return .answer .done
  | close stop => do
    closeWith insert stop
    return .answer .done
  | abandon => do
    History.abandon
    return .answer .done
  | ask question => do
    return .intervals (← question.step)

theorem stepWith_insert
    (call : Call) :
    call.stepWith Store.insert = call.step := by
  cases call with
  | make change =>
      have same : change.script.runWith (setWith Store.insert) = change.step := change.run_script
      exact congrArg (fun step => step >>= fun answer => pure (Reply.answer answer)) same
  | overwrite value quark => rfl
  | close stop => rfl
  | abandon => rfl
  | ask question => rfl

/-! What is made of an answer makes no difference to where a call ends. -/

theorem reached_make
    (change : Change)
    (s : Placed History) :
    (make change).step.reached s = change.step.reached s :=
  Step.reached_map _ _ _

theorem reached_overwrite
    (value : Value)
    (quark : Int)
    (s : Placed History) :
    (overwrite value quark).step.reached s = (History.overwrite value quark).reached s :=
  Step.reached_map _ (fun _ => _) _

theorem reached_close
    (stop : Int)
    (s : Placed History) :
    (close stop).step.reached s = (History.close stop).reached s :=
  Step.reached_map _ (fun _ => _) _

theorem reached_ask
    (question : Question)
    (s : Placed History) :
    (ask question).step.reached s = question.step.reached s :=
  Step.reached_map _ _ _

/-- Whether a call is one of the writer. -/
def Writes : Call → Prop
  | ask _ => False
  | _ => True

/-- Whether the writer is gone after a call. -/
def Ends : Call → Prop
  | close _ => True
  | abandon => True
  | _ => False

/-- Whether a call leaves the past as it is and the writer in place. -/
def Plain : Call → Prop
  | make _ => True
  | ask _ => True
  | _ => False

instance : DecidablePred Writes := fun call => by
  cases call <;> unfold Writes <;> infer_instance

instance : DecidablePred Ends := fun call => by
  cases call <;> unfold Ends <;> infer_instance

instance : DecidablePred Plain := fun call => by
  cases call <;> unfold Plain <;> infer_instance

/-- What is set by a call. -/
def entries : Call → Placed History → List Entry
  | make change, s => journal (change.script.events s)
  | _, _ => []

end Call

/-- All that is set by calls one after the other. -/
def entriesOf : List Call → Placed History → List Entry
  | [], _ => []
  | call :: calls, s => call.entries s ++ entriesOf calls (call.step.reached s)

/-- No call comes from a writer that is gone. -/
def Lawful (calls : List Call) : Prop :=
  calls.Pairwise fun call later => call.Ends → ¬ later.Writes

instance : DecidablePred Lawful :=
  fun calls => inferInstanceAs (Decidable (calls.Pairwise _))

/-- What a call leaves of a history that can be written to. -/
structure Called
    (call : Call)
    (s : Placed History)
    (ledger after : Ledger) : Prop where
  kept : Kept (call.step.reached s) after
  open_ : ¬ call.Ends → Open (call.step.reached s) after
  follows : ∀ insert, Store.Follows insert → call.stepWith insert s = call.step s
  lasts : call.Plain → ∀ {p}, Ledger.Lasting p → ∀ {entries}, p ledger entries →
    p after (entries ++ call.entries s)

variable {s : Placed History} {ledger : Ledger}

namespace Open

/-- The present value of an attribute is replaced, or not, and writing goes on. -/
theorem exists_overwrite
    (open_ : Open s ledger)
    (value : Value)
    (quark : Int) :
    ∃ after, Open ((History.overwrite value quark).reached s) after := by
  rcases open_.overwrite value quark with
    ⟨place, slot, reached, -, -, -, done, openAfter, -⟩ | ⟨fault, -, failed⟩
  · refine ⟨ledger.overwrite place slot value, ?_⟩
    rw [Step.reached_of_ok done]
    exact openAfter
  · refine ⟨ledger, ?_⟩
    rw [Step.reached_of_error failed]
    exact open_

/-- However closing ends, the history then answers by a ledger, and nothing was refused. -/
theorem exists_close
    (open_ : Open s ledger)
    (stop : Int) :
    ∃ after reached decided,
      Kept reached after
        ∧ ∀ insert, Store.Follows insert →
          closeWith insert stop s = Step.ofExcept decided reached := by
  by_cases early : stop < ledger.ongoing.latest
  · exact ⟨ledger, ⟨s.volume, settle .cancelled s.subject⟩, .error _, open_.kept.settle .cancelled,
      fun insert _ => open_.close_of_early early⟩
  · rcases open_.close (Int.not_lt.mp early) with
      ⟨reached, kept, -, ⟨-, done, -⟩ | ⟨-, failed, -⟩⟩
    · exact ⟨_, reached, .ok (), kept, done⟩
    · exact ⟨_, reached, .error s.subject.names.obstacle, kept, failed⟩

/-- A history that can be written to takes any call. -/
theorem call
    (open_ : Open s ledger)
    (inRange : s.subject.InRange)
    (call : Call) :
    ∃ after, Called call s ledger after := by
  cases call with
  | make change =>
      rcases open_.follow change.script with ⟨after, followed⟩
      have reaches : (Call.make change).step.reached s = change.script.run.reached s := by
        rw [change.run_script, Call.reached_make]
      refine ⟨after, ?_, fun _ => ?_, ?_, fun _ => followed.lasts⟩
      · rw [reaches]
        exact followed.open_.kept
      · rw [reaches]
        exact followed.open_
      · intro insert follows
        have same : change.script.runWith (setWith insert) s = change.step s := by
          rw [followed.follows insert follows, change.run_script]
        exact Step.bind_congr_at same _
  | overwrite value quark =>
      rcases open_.exists_overwrite value quark with ⟨after, openAfter⟩
      rw [← Call.reached_overwrite] at openAfter
      exact ⟨after, openAfter.kept, fun _ => openAfter, fun _ _ => rfl, fun plain => plain.elim⟩
  | close stop =>
      rcases open_.exists_close stop with ⟨after, reached, decided, kept, closes⟩
      have closesHere : History.close stop s = Step.ofExcept decided reached :=
        closes Store.insert Store.follows_insert
      have reaches : (Call.close stop).step.reached s = reached :=
        (Call.reached_close stop s).trans (Step.reached_of_ofExcept closesHere)
      refine ⟨after, ?_, fun stays => absurd trivial stays, ?_, fun plain => plain.elim⟩
      · rw [reaches]
        exact kept
      · intro insert follows
        exact Step.bind_congr_at ((closes insert follows).trans closesHere.symm) _
  | abandon =>
      have reaches : Call.abandon.step.reached s = ⟨s.volume, settle .cancelled s.subject⟩ := rfl
      refine ⟨ledger, ?_, fun stays => absurd trivial stays, fun _ _ => rfl,
        fun plain => plain.elim⟩
      rw [reaches]
      exact open_.kept.settle .cancelled
  | ask question =>
      have asked := open_.kept.asked inRange question
      refine ⟨ledger, ?_, fun _ => ?_, fun _ _ => rfl, ?_⟩
      · rw [Call.reached_ask]
        exact asked.kept open_.kept
      · rw [Call.reached_ask]
        exact asked.open_ open_
      · intro _ p lasting entries holds
        exact (List.append_nil entries).symm ▸ holds

/-- As long as its writer stays, a history can be written to. -/
theorem stay
    {calls : List Call}
    (open_ : Open s ledger)
    (stays : ∀ call ∈ calls, ¬ call.Ends)
    (inRange : ∀ before, before <+: calls →
      ((Step.each Call.step before).reached s).subject.InRange) :
    ∃ after, Open ((Step.each Call.step calls).reached s) after := by
  induction calls generalizing s ledger with
  | nil => exact ⟨ledger, open_⟩
  | cons call calls ih =>
      rcases Step.prefixes_cons (fun r : Placed History => r.subject.InRange) inRange with
        ⟨now, later⟩
      rcases open_.call now call with ⟨between, called⟩
      rw [Step.reached_each_cons]
      exact ih (called.open_ (stays call List.mem_cons_self))
        (fun other member => stays other (List.mem_cons_of_mem _ member)) later

end Open

/-- A history without a writer is only asked, which leaves its ledger as it is. -/
theorem Kept.call
    {call : Call}
    (kept : Kept s ledger)
    (inRange : s.subject.InRange)
    (asks : ¬ call.Writes) :
    Kept (call.step.reached s) ledger ∧ ∀ insert, call.stepWith insert s = call.step s := by
  cases call with
  | make change => exact absurd trivial asks
  | overwrite value quark => exact absurd trivial asks
  | close stop => exact absurd trivial asks
  | abandon => exact absurd trivial asks
  | ask question =>
      rw [Call.reached_ask]
      exact ⟨(kept.asked inRange question).kept kept, fun _ => rfl⟩

/-- What questions one after the other carry along, about those that are left as well. -/
theorem carries_of_silent
    {Q : List Call → Placed History → Prop}
    {calls : List Call}
    (silent : ∀ call ∈ calls, ¬ call.Writes)
    (inRange : ∀ before, before <+: calls →
      ((Step.each Call.step before).reached s).subject.InRange)
    (asks : ∀ {question rest r}, r.subject.InRange →
      Q (.ask question :: rest) r → Q rest ((Call.ask question).step.reached r))
    (begins : Q calls s) :
    Q [] ((Step.each Call.step calls).reached s) := by
  induction calls generalizing s with
  | nil => exact begins
  | cons call calls ih =>
      rcases Step.prefixes_cons (fun r : Placed History => r.subject.InRange) inRange with
        ⟨now, later⟩
      rw [Step.reached_each_cons]
      refine ih (fun other member => silent other (List.mem_cons_of_mem _ member)) later ?_
      have first := silent call List.mem_cons_self
      cases call with
      | ask question => exact asks now begins
      | _ => exact absurd trivial first

/--
What calls one after the other carry along: `P` while the writer stays and `Q`
once it is gone, both of them about the calls that are left as well.
-/
theorem Lawful.carries
    {P Q : List Call → Placed History → Prop}
    {calls : List Call}
    (lawful : Lawful calls)
    (inRange : ∀ before, before <+: calls →
      ((Step.each Call.step before).reached s).subject.InRange)
    (stays : ∀ {call rest r}, r.subject.InRange → ¬ call.Ends →
      P (call :: rest) r → P rest (call.step.reached r))
    (ends : ∀ {call rest r}, r.subject.InRange → call.Ends →
      P (call :: rest) r → Q rest (call.step.reached r))
    (asks : ∀ {question rest r}, r.subject.InRange →
      Q (.ask question :: rest) r → Q rest ((Call.ask question).step.reached r))
    (settles : ∀ {r}, P [] r → Q [] r)
    (begins : P calls s) :
    Q [] ((Step.each Call.step calls).reached s) := by
  induction calls generalizing s with
  | nil => exact settles begins
  | cons call calls ih =>
      rcases Step.prefixes_cons (fun r : Placed History => r.subject.InRange) inRange with
        ⟨now, later⟩
      rcases List.pairwise_cons.mp lawful with ⟨first, rest⟩
      rw [Step.reached_each_cons]
      by_cases last : call.Ends
      · -- From here on there are only questions.
        exact carries_of_silent (fun other member => first other member last) later asks
          (ends now last begins)
      · exact ih rest later (stays now last begins)

/-- Settings under which an inner node has room for one count, and a leaf for two. -/
def cramping : Tree.Config where
  blockSize := 85
  maxChildren := 2
  cacheSize := 1

end Chronicle.History
