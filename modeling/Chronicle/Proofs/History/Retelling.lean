import Chronicle.Proofs.History.Running

/-!
# A history retells what was set

At every point of a run, and after closing, the value that an attribute held
at an instant is the one that was set last of those set at no later time.  It
does not show where the answer is taken from: from what is held now, from a
node at hand or from a block of a file.
-/

namespace Chronicle.History

/-- About every attribute and instant up to the current end, the answer has the value last set. -/
def Retells
    (s : Placed History)
    (entries : List Entry) :
    Prop :=
  ∀ quark t, s.subject.names.Contains quark → s.subject.start ≤ t → t ≤ s.subject.currentEnd →
    ∃ i reached,
      intervalAt t quark s = .ok i reached
        ∧ i.value = heldAt entries quark t

variable {s : Placed History} {ledger : Ledger} {entries : List Entry} {calls : List Call}

/-- A history retells what its ledger replays. -/
theorem Kept.retells
    (kept : Kept s ledger)
    (inRange : s.subject.InRange)
    (replays : ledger.Replays entries s.subject.currentEnd) :
    Retells s entries := by
  intro quark t known begun until_
  rcases kept.answer inRange known begun until_ with ⟨i, reached, asks, answered, -⟩
  exact ⟨i, reached, asks, replays.intervalAt answered until_⟩

/-- Through all calls that only set values, the ledger replays all that is set. -/
theorem Open.replay
    (open_ : Open s ledger)
    (replays : ∀ horizon, ledger.Replays entries horizon)
    (plain : ∀ call ∈ calls, call.Plain)
    (inRange : ∀ before, before <+: calls →
      ((Step.each Call.step before).reached s).subject.InRange) :
    ∃ after,
      Open ((Step.each Call.step calls).reached s) after
        ∧ ∀ horizon, after.Replays (entries ++ entriesOf calls s) horizon := by
  induction calls generalizing s ledger entries with
  | nil =>
      refine ⟨ledger, open_, ?_⟩
      rw [entriesOf, List.append_nil]
      exact replays
  | cons call calls ih =>
      rcases Step.prefixes_cons (fun r : Placed History => r.subject.InRange) inRange with
        ⟨now, later⟩
      have plainCall := plain call List.mem_cons_self
      have stays : ¬ call.Ends := by
        intro ends
        cases call with
        | close stop => exact plainCall
        | abandon => exact plainCall
        | make change => exact ends
        | overwrite value quark => exact ends
        | ask question => exact ends
      rcases open_.call now call with ⟨between, called⟩
      rcases ih (called.open_ stays) (called.lasts plainCall Ledger.lasting_replays replays)
        (fun other member => plain other (List.mem_cons_of_mem _ member)) later with
        ⟨after, openLast, replaysLast⟩
      refine ⟨after, ?_, ?_⟩
      · rw [Step.reached_each_cons]
        exact openLast
      · rw [entriesOf, ← List.append_assoc]
        exact replaysLast

/-- What was closed with success retells what was set, however often it is asked. -/
theorem Open.retells_of_close
    {stop : Int}
    {closed : Placed History}
    (open_ : Open s ledger)
    (replays : ∀ horizon, ledger.Replays entries horizon)
    (closes : History.close stop s = .ok () closed)
    (inRange : closed.subject.InRange)
    (questions : List Question) :
    Retells ((Step.each Question.step questions).reached closed) entries := by
  rcases open_.close_eq_ok closes with ⟨-, kept, outline, -⟩
  rcases kept.tells inRange questions with ⟨reached, told, asked⟩
  have ending : reached.subject.currentEnd = stop :=
    congrArg Outline.currentEnd (asked.outline.trans outline)
  rw [Step.reached_of_ok told]
  apply (asked.kept kept).retells (asked.inRange inRange)
  rw [ending]
  exact (replays stop).close

/--
A new history retells all that was set: at every point of a run in which
attributes are entered and values are set, counted, stacked and removed, and
after the run was closed with success.
-/
theorem retells_of_created
    {id : String}
    {start : Int}
    {plan : Backend.Plan}
    {volume made : Volume}
    {history : History}
    (sound : volume.Sound)
    (created : create id start plan volume = .ok (made, history))
    (plain : ∀ call ∈ calls, call.Plain)
    (inRange : ∀ before, before <+: calls →
      ((Step.each Call.step before).reached ⟨made, history⟩).subject.InRange) :
    Retells ((Step.each Call.step calls).reached ⟨made, history⟩) (entriesOf calls ⟨made, history⟩)
      ∧ ∀ stop closed,
        History.close stop ((Step.each Call.step calls).reached ⟨made, history⟩) = .ok () closed →
          closed.subject.InRange → ∀ questions,
            Retells ((Step.each Question.step questions).reached closed)
              (entriesOf calls ⟨made, history⟩) := by
  rcases open_of_create sound created with ⟨open_, -⟩
  rcases open_.replay (Ledger.replays_empty start) plain inRange with ⟨after, openLast, replays⟩
  rw [List.nil_append] at replays
  refine ⟨openLast.kept.retells (inRange calls (List.prefix_refl calls)) (replays _), ?_⟩
  intro stop closed closes closedRange questions
  exact openLast.retells_of_close replays closes closedRange questions

/-- Calls that set values late, again, at the same time and in vain. -/
def chores : List Call :=
  [.make (.intern (-1) ["a"]),
    .make (.set 2 (.int 1) 0),
    .make (.increment 4 0),
    .make (.intern (-1) ["b", "c"]),
    .make (.set 4 (.int 2) 0),
    .make (.set 5 (.int 7) 2),
    .make (.set 5 (.int 8) 2),
    .make (.set 3 .null 0),
    .ask (.interval 5 2),
    .make (.remove 6 1)]

/-- What is set by them. -/
def choreEntries : List Entry :=
  [⟨2, .int 1, 0⟩, ⟨4, .int 2, 0⟩, ⟨4, .int 2, 0⟩, ⟨5, .int 7, 2⟩, ⟨5, .int 8, 2⟩, ⟨6, .null, 2⟩,
    ⟨6, .null, 1⟩]

theorem inRange_chores :
    ∃ made history,
      create "cramped" 0 (.file "cramped" cramping) .empty = .ok (made, history)
        ∧ (∀ before ∈ chores.inits,
          ((Step.each Call.step before).reached ⟨made, history⟩).subject.InRange)
        ∧ entriesOf chores ⟨made, history⟩ = choreEntries
        ∧ (match History.close 9 ((Step.each Call.step chores).reached ⟨made, history⟩) with
          | .ok _ closed => decide closed.subject.InRange
          | .error _ _ => false) = true :=
  ⟨_, _, rfl, by decide +kernel, by decide +kernel, by decide +kernel⟩

theorem retells_chores :
    ∃ made history closed,
      create "cramped" 0 (.file "cramped" cramping) .empty = .ok (made, history)
        ∧ Retells ((Step.each Call.step chores).reached ⟨made, history⟩) choreEntries
        ∧ History.close 9 ((Step.each Call.step chores).reached ⟨made, history⟩) = .ok () closed
        ∧ Retells closed choreEntries := by
  rcases inRange_chores with ⟨made, history, created, inRange, tells, ends⟩
  have plain : ∀ call ∈ chores, call.Plain := by decide
  rcases retells_of_created (by decide) created plain
    (fun before begins => inRange before ((List.mem_inits before chores).mpr begins)) with
    ⟨open_, closed_⟩
  rw [tells] at open_ closed_
  cases closes : History.close 9 ((Step.each Call.step chores).reached ⟨made, history⟩) with
  | error fault closed =>
      rw [closes] at ends
      cases ends
  | ok a closed =>
      rw [closes] at ends
      exact ⟨made, history, closed, created, open_, closes,
        closed_ 9 closed closes (of_decide_eq_true ends) []⟩

end Chronicle.History
