import Chronicle.Proofs.History.Contiguity
import Chronicle.Proofs.Recording.Course

/-!
# Asking about any time

A question about a range may name any times.  It is asked about the instants of
the history that are nearest to them, of which there is one for each time,
since a history does not end before its start.
-/

namespace Chronicle.History

/-! ## The nearest instant -/

section Clamp

variable {history : History} {t a b : Int}

theorem start_le_clamp : history.start ≤ history.clamp t :=
  Int.le_max_left _ _

theorem clamp_le
    (begun : history.start ≤ history.currentEnd) :
    history.clamp t ≤ history.currentEnd := by
  unfold clamp
  omega

theorem clamp_mono
    (le : a ≤ b) :
    history.clamp a ≤ history.clamp b := by
  unfold clamp
  omega

/-- The instant nearest to one of the history is this one. -/
theorem clamp_of_inside
    (begun : history.start ≤ t)
    (until_ : t ≤ history.currentEnd) :
    history.clamp t = t := by
  unfold clamp
  omega

theorem clamp_of_le_start
    (early : t ≤ history.start) :
    history.clamp t = history.start := by
  unfold clamp
  omega

end Clamp

/-! ## A history that does not end before its start -/

/-- A history that answers by its ledger, about its start at least. -/
structure Readable
    (s : Placed History)
    (ledger : Ledger) : Prop where
  kept : Kept s ledger
  inRange : s.subject.InRange
  begun : s.subject.start ≤ s.subject.currentEnd

variable {s reached : Placed History} {ledger : Ledger}

namespace Asked

theorem clamp
    (asked : Asked s reached ledger)
    (t : Int) :
    reached.subject.clamp t = s.subject.clamp t := by
  unfold History.clamp
  rw [asked.start, asked.currentEnd]

theorem readable
    (asked : Asked s reached ledger)
    (readable : Readable s ledger) :
    Readable reached ledger := by
  refine ⟨asked.kept readable.kept, asked.inRange readable.inRange, ?_⟩
  rw [asked.start, asked.currentEnd]
  exact readable.begun

end Asked

/-- About every attribute there is an answer at the instant nearest to any time. -/
theorem Readable.nearest
    {quark : Int}
    (readable : Readable s ledger)
    (known : s.subject.names.Contains quark)
    (t : Int) :
    ∃ i reached,
      intervalAt (s.subject.clamp t) quark s = .ok i reached
        ∧ ledger.intervalAt s.subject.currentEnd (s.subject.clamp t) quark = .ok i
        ∧ Asked s reached ledger :=
  readable.kept.answer readable.inRange known start_le_clamp (clamp_le readable.begun)

/-! ## The end of a writer -/

theorem start_settle
    (status : Status)
    (history : History) :
    (settle status history).start = history.start :=
  congrArg (fun recording : Recording => recording.store.start) (recording_settle status history)

theorem currentEnd_settle
    (status : Status)
    (history : History) :
    (settle status history).currentEnd = history.currentEnd :=
  congrArg Outline.currentEnd (outline_settle status history)

theorem names_settle
    (status : Status)
    (history : History) :
    (settle status history).names = history.names :=
  congrArg Outline.names (outline_settle status history)

/-- What the end of its writer leaves of a history: its ledger, closed or not, and all names. -/
structure Ended
    (s : Placed History)
    (ledger : Ledger)
    (reached : Placed History)
    (after : Ledger) : Prop where
  kept : Kept reached after
  start : reached.subject.start = s.subject.start
  currentEnd_le : s.subject.currentEnd ≤ reached.subject.currentEnd
  names : reached.subject.names = s.subject.names
  closes : after = ledger
    ∨ ∃ stop, reached.subject.currentEnd ≤ stop ∧ after = (ledger.close stop).finish stop

/-- What a history held up to its end it has held. -/
theorem Ended.holds
    {after : Ledger}
    {quark t : Int}
    {value : Value}
    (ended : Ended s ledger reached after)
    (until_ : t ≤ reached.subject.currentEnd)
    (holds : ledger.Holds quark t value) :
    after.Holds quark t value := by
  rcases ended.closes with rfl | ⟨stop, inTime, rfl⟩
  · exact holds
  · exact holds.close (Int.le_trans until_ inTime)

namespace Open

theorem begun
    (open_ : Open s ledger) :
    s.subject.start ≤ s.subject.currentEnd := by
  have start : s.subject.start = ledger.ongoing.start := open_.kept.keeps.start
  rw [start, open_.ending]
  exact open_.goes.current.start_le

/-- A history that is given up by its writer is left as it is. -/
theorem ended_of_settle
    (open_ : Open s ledger)
    (status : Status) :
    Ended s ledger ⟨s.volume, settle status s.subject⟩ ledger where
  kept := open_.kept.settle status
  start := start_settle status s.subject
  currentEnd_le := Int.le_of_eq (currentEnd_settle status s.subject).symm
  names := names_settle status s.subject
  closes := Or.inl rfl

/-- So it is up to the time at which it was to be closed, whether that was a success or not. -/
theorem ended_of_close
    (open_ : Open s ledger)
    (stop : Int) :
    ∃ after, Ended s ledger ((History.close stop).reached s) after := by
  by_cases early : stop < ledger.ongoing.latest
  · have failed : History.close stop s = _ := open_.close_of_early early
    rw [Step.reached_of_error failed]
    exact ⟨ledger, open_.ended_of_settle .cancelled⟩
  · have ending := open_.ending
    rcases open_.close (Int.not_lt.mp early) with
      ⟨reached, kept, alike, ⟨-, done, outline, -⟩ | ⟨-, failed, outline⟩⟩
    · have closes : History.close stop s = _ := done Store.insert Store.follows_insert
      have last : reached.subject.currentEnd = max s.subject.currentEnd stop :=
        congrArg Outline.currentEnd outline
      rw [Step.reached_of_ok closes]
      exact ⟨_, kept, alike.start, by omega, congrArg Outline.names outline,
        Or.inr ⟨stop, by omega, rfl⟩⟩
    · have closes : History.close stop s = _ := failed Store.insert Store.follows_insert
      have last : reached.subject.currentEnd = s.subject.currentEnd :=
        congrArg Outline.currentEnd outline
      rw [Step.reached_of_error closes]
      exact ⟨_, kept, alike.start, by omega, congrArg Outline.names outline,
        Or.inr ⟨stop, by omega, rfl⟩⟩

/-- However its writer ends, what a history held it has held. -/
theorem ended
    {call : Call}
    (open_ : Open s ledger)
    (ends : call.Ends) :
    ∃ after, Ended s ledger (call.step.reached s) after := by
  cases call with
  | close stop =>
      rw [Call.reached_close]
      exact open_.ended_of_close stop
  | abandon => exact ⟨ledger, open_.ended_of_settle .cancelled⟩
  | _ => exact ends.elim

/-- After whatever its writer did, a history can be read. -/
theorem readable_of_run
    {calls : List Call}
    (open_ : Open s ledger)
    (lawful : Lawful calls)
    (inRange : ∀ before, before <+: calls →
      ((Step.each Call.step before).reached s).subject.InRange) :
    ∃ after, Readable ((Step.each Call.step calls).reached s) after := by
  have run : ∃ after, Kept ((Step.each Call.step calls).reached s) after
      ∧ ((Step.each Call.step calls).reached s).subject.start
        ≤ ((Step.each Call.step calls).reached s).subject.currentEnd := by
    refine lawful.carries (P := fun _ r => ∃ after, Open r after)
      (Q := fun _ r => ∃ after, Kept r after ∧ r.subject.start ≤ r.subject.currentEnd)
      inRange ?stays ?ends ?asks ?settles ⟨ledger, open_⟩
    case stays =>
      rintro call _ r now stays ⟨ledger, open_⟩
      rcases open_.call now call with ⟨after, called⟩
      exact ⟨after, called.open_ stays⟩
    case ends =>
      rintro call _ r now ends ⟨ledger, open_⟩
      rcases open_.ended ends with ⟨after, ended⟩
      refine ⟨after, ended.kept, ?_⟩
      rw [ended.start]
      exact Int.le_trans open_.begun ended.currentEnd_le
    case asks =>
      rintro question _ r now ⟨ledger, kept, begun⟩
      rw [Call.reached_ask]
      have readable := (kept.asked now question).readable ⟨kept, now, begun⟩
      exact ⟨ledger, readable.kept, readable.begun⟩
    case settles =>
      rintro r ⟨ledger, open_⟩
      exact ⟨ledger, open_.kept, open_.begun⟩
  rcases run with ⟨after, kept, begun⟩
  exact ⟨after, kept, inRange calls (List.prefix_refl calls), begun⟩

end Open

end Chronicle.History
