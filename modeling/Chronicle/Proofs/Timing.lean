import Chronicle.Proofs.History.Noting
import Chronicle.Proofs.History.Refusal
import Chronicle.Proofs.Replay

/-!
# When a build ends

A build ends at the latest change of its history.  Every change that sets
something sets it at its own time, which is then the latest one; a change that
fails leaves the latest time as it is.  So a build ends at the greatest time of
the changes that it counts as made, and these come in the order of their times.

There are two exceptions.  A pop that finds nothing is made, whatever its time,
and the latest time does not become its own.  And the removal of the root is
skipped, but not before it has set all attributes to null at its time.
-/

namespace Chronicle.Replay

open History (Open Noted Grown Script)

/-- A change that is tried, and the history that it is tried on. -/
structure Trial where
  change : Change
  before : Placed History

namespace Trial

/-- Whether the change is made. -/
def made (trial : Trial) : Bool :=
  match apply trial.change trial.before with
  | .ok _ _ => true
  | .error _ _ => false

/-- Whether the change is a pop that finds nothing. -/
def idle (trial : Trial) : Bool :=
  match trial.change.update, History.intern Quark.root trial.change.path trial.before with
  | .pop, .ok quark between =>
    match History.pop trial.change.time quark between with
    | .ok none _ => true
    | _ => false
  | _, _ => false

/-- Whether the change is the removal of the root, on time and with something to remove. -/
def uproots (trial : Trial) : Bool :=
  trial.change.path = [] ∧ trial.change.update = .remove
    ∧ trial.before.subject.latest ≤ trial.change.time
    ∧ 0 < trial.before.subject.names.size

/-- Whether the change sets something. -/
def telling (trial : Trial) : Bool :=
  trial.made && !trial.idle || trial.uproots

/-- Whether the change is made without setting anything at its time, or sets something and fails. -/
def astray (trial : Trial) : Bool :=
  trial.uproots || trial.idle && trial.change.time ≠ trial.before.subject.latest

/-- Whether the latest time becomes that of the change if it counts, and else stays as it is. -/
def Timed
    (trial : Trial)
    (counts : Bool) :
    Prop :=
  if counts then
    trial.before.subject.latest ≤ trial.change.time
      ∧ ((apply trial.change).reached trial.before).subject.latest = trial.change.time
  else
    ((apply trial.change).reached trial.before).subject.latest = trial.before.subject.latest

end Trial

/-- All changes tried one after the other, whatever becomes of them. -/
def trials : List Change → Placed History → List Trial
  | [], _ => []
  | change :: later, s => ⟨change, s⟩ :: trials later ((apply change).reached s)

/-- The history after all changes were tried one after the other. -/
def afterTrials
    (changes : List Change)
    (s : Placed History) :
    Placed History :=
  changes.foldl (fun s change => (apply change).reached s) s

/-- The times of the changes that count. -/
def timesOf
    (counts : Trial → Bool)
    (tried : List Trial) :
    List Int :=
  (tried.filter counts).map (·.change.time)

/-- All changes that a build tries. -/
def attempts
    (signal : Signal)
    (events : List Event)
    (s : Placed History) :
    List Trial :=
  trials ((consumed signal 0 events).flatMap Event.made) s

variable {s reached : Placed History} {ledger : Ledger} {change : Change}

/-! ## One change -/

/-- When nothing is noted, the latest time stays as it is. -/
theorem latest_of_silent
    {after : Ledger}
    (open_ : Open s ledger)
    (noted : Noted s ledger [] reached after) :
    reached.subject.latest = s.subject.latest := by
  rw [latest_eq_currentEnd noted.open_, latest_eq_currentEnd open_, noted.open_.ending,
    open_.ending]
  rcases noted.notes.latest with ⟨-, same⟩ | ⟨entry, member, -⟩
  · exact same
  · cases member

/-- When something is noted at one time only, this is the latest time. -/
theorem latest_of_noted
    {entries : List Entry}
    {t : Int}
    {after : Ledger}
    (open_ : Open s ledger)
    (noted : Noted s ledger entries reached after)
    (some_ : entries ≠ [])
    (once : ∀ entry ∈ entries, entry.time = t) :
    s.subject.latest ≤ t ∧ reached.subject.latest = t := by
  rw [latest_eq_currentEnd noted.open_, latest_eq_currentEnd open_, noted.open_.ending,
    open_.ending]
  rcases noted.notes.latest with ⟨none_, -⟩ | ⟨entry, member, same⟩
  · exact absurd none_ some_
  · have time := once entry member
    exact ⟨time ▸ (noted.notes.times entry member).1, same.trans time⟩

/-- A change other than a pop is not an idle one. -/
theorem idle_of_not_pop
    (other : change.update ≠ .pop) :
    Trial.idle ⟨change, s⟩ = false := by
  rcases change with ⟨path, time, update⟩
  cases update with
  | pop => exact absurd rfl other
  | _ => rfl

/-- A pop is idle if nothing was found. -/
theorem idle_of_popped
    {path : List String}
    {time quark : Int}
    {between last : Placed History}
    {popped : Option Value}
    (entered : History.intern Quark.root path s = .ok quark between)
    (pops : History.pop time quark between = .ok popped last) :
    Trial.idle ⟨⟨path, time, .pop⟩, s⟩ = popped.isNone := by
  unfold Trial.idle
  rw [entered]
  simp only [pops]
  cases popped <;> rfl

/-- A pop sets something at its time, or nothing if nothing was found. -/
theorem note_popped
    {time quark : Int}
    {popped : Option Value}
    (open_ : Open s ledger)
    (pops : History.pop time quark s = .ok popped reached) :
    ∃ entries after,
      Noted s ledger entries reached after
        ∧ (∀ entry ∈ entries, entry.time = time)
        ∧ (entries = [] ↔ popped.isNone = true) := by
  rcases open_.note_pop pops with
    ⟨height, -, ⟨-, rfl, rfl⟩ | ⟨-, element, value, after, rfl, -, -, noted⟩⟩
  · exact ⟨[], ledger, .refl open_, by simp, by simp⟩
  · refine ⟨_, after, noted, ?_, by simp⟩
    intro entry member
    rcases List.mem_cons.mp member with rfl | later
    · rfl
    · exact time_of_mem_nulled later

/-- What a change sets that is made is set at its time, and only an idle pop sets nothing. -/
theorem note_apply
    (open_ : Open s ledger)
    (done : apply change s = .ok () reached) :
    ∃ entries after,
      Noted s ledger entries reached after
        ∧ (∀ entry ∈ entries, entry.time = change.time)
        ∧ (entries = [] ↔ Trial.idle ⟨change, s⟩ = true) := by
  unfold apply at done
  rcases Step.bind_eq_ok_iff.mp done with ⟨quark, between, entered, updates⟩
  rcases open_.note_intern entered with ⟨⟨ledgerBetween, noted⟩, -⟩
  -- All but a pop set something whenever they are made.
  have telling : ∀ {entries after}, change.update ≠ .pop → entries ≠ [] →
      Noted between ledgerBetween entries reached after →
        (∀ entry ∈ entries, entry.time = change.time) →
          ∃ entries after, Noted s ledger entries reached after
            ∧ (∀ entry ∈ entries, entry.time = change.time)
            ∧ (entries = [] ↔ Trial.idle ⟨change, s⟩ = true) := by
    intro entries after other some_ notedHere once
    refine ⟨entries, after, noted.trans notedHere, once, ?_⟩
    rw [idle_of_not_pop other]
    exact ⟨fun none_ => absurd none_ some_, fun same => by cases same⟩
  rcases change with ⟨path, time, update⟩
  cases update with
  | set value =>
      rcases noted.open_.note_set updates with ⟨⟨after, notedSet⟩, -⟩
      exact telling Update.noConfusion (List.cons_ne_nil _ _) notedSet (by simp)
  | increment =>
      simp only [History.increment] at updates
      rw [Step.subject_bind_apply] at updates
      rcases Step.ofExcept_bind_eq_ok updates with ⟨value, -, counts⟩
      rcases Step.ofExcept_bind_eq_ok counts with ⟨more, -, sets⟩
      rcases noted.open_.note_set sets with ⟨⟨after, notedSet⟩, -⟩
      exact telling Update.noConfusion (List.cons_ne_nil _ _) notedSet (by simp)
  | push value =>
      rcases noted.open_.note_push updates with ⟨height, element, after, -, -, -, notedPush⟩
      exact telling Update.noConfusion (List.cons_ne_nil _ _) notedPush (by simp)
  | remove =>
      rcases noted.open_.note_remove updates with ⟨⟨after, notedRemove⟩, -⟩
      refine telling Update.noConfusion ?_ notedRemove fun entry => time_of_mem_nulled
      rw [nulled_append]
      exact List.append_ne_nil_of_right_ne_nil _ (List.cons_ne_nil _ _)
  | pop =>
      have discards : (History.pop time quark >>= fun _ => pure ()) between = .ok () reached :=
        (congrFun (map_eq_pure_bind (fun _ => ()) (History.pop time quark)) between).symm.trans
          updates
      rcases Step.bind_eq_ok_iff.mp discards with ⟨popped, last, pops, ends⟩
      cases ends
      rw [idle_of_popped entered pops]
      rcases note_popped noted.open_ pops with ⟨entries, after, notedPop, once, idle⟩
      exact ⟨entries, after, noted.trans notedPop, once, idle⟩

/-- A change that fails leaves new names behind at most, unless it is the removal of the root. -/
theorem grown_of_failed
    {fault : Fault}
    (open_ : Open s ledger)
    (placed : change.path ≠ [] ∨ change.update ≠ .remove)
    (failed : apply change s = .error fault reached) :
    Grown s reached ledger := by
  rw [← run_script] at failed
  refine Script.harmless_intern open_ (fun {quark between} entered openBetween _ => ?_) fault
    reached failed
  rcases change with ⟨path, time, update⟩
  cases update with
  | set value => exact Script.harmless_set openBetween fun _ _ _ _ => Script.surely_done ()
  | increment => exact Script.harmless_increment openBetween
  | push value => exact Script.harmless_push openBetween
  | pop => exact Script.harmless_pop openBetween
  | remove =>
      have absolute := placed.resolve_right fun other => other rfl
      have known := Namespace.contains_of_intern absolute entered
      exact Script.harmless_remove openBetween (Namespace.ne_root_of_contains known)

theorem latest_of_grown
    (open_ : Open s ledger)
    (grown : Grown s reached ledger) :
    reached.subject.latest = s.subject.latest :=
  (latest_eq_currentEnd grown.open_).trans
    ((congrArg History.Outline.currentEnd grown.outline).trans (latest_eq_currentEnd open_).symm)

/-- Setting the root fails and leaves all as it is. -/
theorem set_root
    (open_ : Open s ledger)
    (t : Int) :
    ∃ fault, History.set t .null Quark.root s = .error fault s :=
  ⟨.notFound (.quark Quark.root), open_.set_of_error rfl⟩

/-- The removal of the root fails.  On time it has set all attributes to null before. -/
theorem remove_root
    (open_ : Open s ledger)
    (t : Int) :
    ∃ fault reached,
      History.remove t Quark.root s = .error fault reached
        ∧ (∃ after, Open reached after)
        ∧ reached.subject.latest
          = if s.subject.latest ≤ t ∧ 0 < s.subject.names.size then t else s.subject.latest := by
  have goes : History.remove t Quark.root s
      = ((s.subject.names.quarks.forM fun quark => History.set t .null quark) >>= fun _ =>
        History.set t .null Quark.root) s := by
    unfold History.remove
    rw [Step.subject_bind_apply, Namespace.below_of_isPlace (Or.inl rfl),
      Namespace.descendants_root]
    rfl
  have current : s.subject.latest = ledger.ongoing.latest :=
    congrArg Ongoing.latest open_.kept.keeps.ongoing
  have listed : s.subject.names.quarks = [] ↔ s.subject.names.size = 0 := by
    simp [Namespace.quarks]
  rw [goes]
  by_cases onTime : s.subject.latest ≤ t
  · rcases open_.exists_clear (fun quark => Namespace.mem_quarks.mp) (current ▸ onTime) with
      ⟨reached, _, clears, -⟩
    rcases open_.note_clear clears with ⟨⟨after, noted⟩, -⟩
    rcases set_root noted.open_ t with ⟨fault, failed⟩
    refine ⟨fault, reached, (Step.bind_of_ok clears).trans failed, ⟨after, noted.open_⟩, ?_⟩
    by_cases inhabited : 0 < s.subject.names.size
    · rw [if_pos ⟨onTime, inhabited⟩]
      refine (latest_of_noted open_ noted ?_ fun entry => time_of_mem_nulled).2
      rw [ne_eq, nulled, List.map_eq_nil_iff, listed]
      omega
    · rw [if_neg fun both => inhabited both.2]
      rw [listed.mpr (by omega)] at noted
      exact latest_of_silent open_ noted
  · rw [if_neg fun both => onTime both.1]
    rcases set_root open_ t with ⟨fault, failed⟩
    cases named : s.subject.names.quarks with
    | nil => exact ⟨fault, s, failed, ⟨ledger, open_⟩, rfl⟩
    | cons first rest =>
        rcases open_.set_cases t .null first with ⟨_, _, changed, -⟩ | ⟨reason, -, refused⟩
        · rcases Ledger.change_eq_ok changed with ⟨_, _, -, -, timely, -⟩
          exact absurd (current ▸ timely) onTime
        · exact ⟨reason, s, Step.bind_of_error (Step.bind_of_error refused), ⟨ledger, open_⟩, rfl⟩

theorem apply_root
    (t : Int)
    (s : Placed History) :
    apply ⟨[], t, .remove⟩ s = History.remove t Quark.root s := by
  have entered : History.intern Quark.root [] s = .ok Quark.root s := by
    have resolved : s.subject.names.resolve? Quark.root [] = some Quark.root :=
      if_pos (Or.inl rfl)
    unfold History.intern
    rw [Step.subject_bind_apply, resolved]
    rfl
  exact Step.bind_of_ok entered

theorem Trial.made_of_ok
    (ends : apply change s = .ok () reached) :
    Trial.made ⟨change, s⟩ = true := by
  unfold made
  simp only [ends]

theorem Trial.made_of_error
    {fault : Fault}
    (ends : apply change s = .error fault reached) :
    Trial.made ⟨change, s⟩ = false := by
  unfold made
  simp only [ends]

/-- Of the removals of the root, those on time set something. -/
theorem timed_of_root
    (open_ : Open s ledger)
    (t : Int) :
    Trial.Timed ⟨⟨[], t, .remove⟩, s⟩ (Trial.telling ⟨⟨[], t, .remove⟩, s⟩) := by
  rcases remove_root open_ t with ⟨fault, reached, removes, -, latest⟩
  have failed : apply ⟨[], t, .remove⟩ s = .error fault reached :=
    (apply_root t s).trans removes
  have telling : Trial.telling ⟨⟨[], t, .remove⟩, s⟩
      = decide (s.subject.latest ≤ t ∧ 0 < s.subject.names.size) := by
    unfold Trial.telling Trial.uproots
    rw [Trial.made_of_error failed]
    simp
  unfold Trial.Timed
  rw [telling, Step.reached_of_error failed, latest]
  by_cases both : s.subject.latest ≤ t ∧ 0 < s.subject.names.size
  · rw [if_pos (decide_eq_true both), if_pos both]
    exact ⟨both.1, rfl⟩
  · rw [if_neg fun yes => both (of_decide_eq_true yes), if_neg both]

/-- A change that sets something makes its time the latest one; any other leaves that as it is. -/
theorem timed_of_open
    (open_ : Open s ledger)
    (change : Change) :
    Trial.Timed ⟨change, s⟩ (Trial.telling ⟨change, s⟩) := by
  by_cases root : change.path = [] ∧ change.update = .remove
  · rcases change with ⟨path, time, update⟩
    obtain ⟨rfl, rfl⟩ := root
    exact timed_of_root open_ time
  · have stays : Trial.uproots ⟨change, s⟩ = false :=
      decide_eq_false fun all => root ⟨all.1, all.2.1⟩
    unfold Trial.Timed Trial.telling
    rw [stays, Bool.or_false]
    cases ends : apply change s with
    | ok done reached =>
        rcases note_apply open_ ends with ⟨entries, after, noted, once, silent⟩
        rw [Trial.made_of_ok ends, Bool.true_and, Step.reached_of_ok ends]
        cases idle : Trial.idle ⟨change, s⟩ with
        | true =>
            rw [silent.mpr idle] at noted
            exact latest_of_silent open_ noted
        | false =>
            refine latest_of_noted open_ noted (fun none_ => ?_) once
            rw [silent.mp none_] at idle
            cases idle
    | error fault reached =>
        rw [Trial.made_of_error ends, Bool.false_and, Step.reached_of_error ends]
        have placed : change.path ≠ [] ∨ change.update ≠ .remove := by
          rwa [not_and_or] at root
        exact latest_of_grown open_ (grown_of_failed open_ placed ends)

/-- Where nothing goes astray, just the changes that are made count. -/
theorem Trial.Timed.of_made
    {trial : Trial}
    (timed : trial.Timed trial.telling)
    (straight : trial.astray = false) :
    trial.Timed trial.made := by
  unfold Trial.astray at straight
  rw [Bool.or_eq_false_iff] at straight
  rcases straight with ⟨stays, usual⟩
  unfold Trial.Timed Trial.telling at timed
  rw [stays, Bool.or_false] at timed
  unfold Trial.Timed
  cases made : trial.made with
  | false =>
      rw [made] at timed
      exact timed
  | true =>
      rw [made, Bool.true_and] at timed
      cases idle : trial.idle with
      | false =>
          rw [idle] at timed
          exact timed
      | true =>
          rw [idle] at timed usual
          have same : trial.change.time = trial.before.subject.latest := by
            simpa using usual
          rw [same]
          exact ⟨Int.le_refl _, timed⟩

/-! ## All changes -/

/-- A history can be written to after all changes, and before each of them. -/
theorem exists_open_afterTrials
    (open_ : Open s ledger)
    (changes : List Change) :
    (∃ after, Open (afterTrials changes s) after)
      ∧ ∀ trial ∈ trials changes s, ∃ before, Open trial.before before := by
  induction changes generalizing s ledger with
  | nil =>
      refine ⟨⟨ledger, open_⟩, ?_⟩
      intro trial member
      cases member
  | cons change later ih =>
      rcases (built_apply open_ change).1.open_ with ⟨between, openBetween⟩
      rcases ih openBetween with ⟨last, before⟩
      refine ⟨last, ?_⟩
      intro trial member
      rcases List.mem_cons.mp member with rfl | listed
      · exact ⟨ledger, open_⟩
      · exact before trial listed

/--
If each change that counts makes its time the latest one, and no other changes
the latest time, the latest time in the end is the greatest of those that
count, and these are in order.
-/
theorem latest_of_timed
    {counts : Trial → Bool}
    {changes : List Change}
    (timed : ∀ trial ∈ trials changes s, trial.Timed (counts trial)) :
    (afterTrials changes s).subject.latest
        = (timesOf counts (trials changes s)).foldl max s.subject.latest
      ∧ (s.subject.latest :: timesOf counts (trials changes s)).Pairwise (· ≤ ·) := by
  induction changes generalizing s with
  | nil => exact ⟨rfl, List.pairwise_singleton _ _⟩
  | cons change later ih =>
      have first := timed ⟨change, s⟩ List.mem_cons_self
      rcases ih fun trial member => timed trial (List.mem_cons_of_mem _ member) with
        ⟨latest, sorted⟩
      show (afterTrials later ((apply change).reached s)).subject.latest
          = (timesOf counts (⟨change, s⟩ :: trials later ((apply change).reached s))).foldl max
            s.subject.latest
        ∧ (s.subject.latest
          :: timesOf counts (⟨change, s⟩ :: trials later ((apply change).reached s))).Pairwise _
      unfold Trial.Timed at first
      unfold timesOf at latest sorted ⊢
      cases counted : counts ⟨change, s⟩ with
      | false =>
          rw [counted] at first
          rw [List.filter_cons_of_neg (by simp [counted]), ← first]
          exact ⟨latest, sorted⟩
      | true =>
          rw [counted] at first
          rcases first with ⟨onTime, becomes⟩
          rw [becomes] at latest sorted
          rw [List.filter_cons_of_pos counted, List.map_cons, List.foldl_cons,
            Int.max_eq_right onTime]
          refine ⟨latest, List.pairwise_cons.mpr ⟨?_, sorted⟩⟩
          intro t member
          rcases List.mem_cons.mp member with rfl | listed
          · exact onTime
          · exact Int.le_trans onTime ((List.pairwise_cons.mp sorted).1 t listed)

/-! ## A build -/

/-- A tally after changes were tried, with those counted that were made. -/
structure Tallied
    (s : Placed History)
    (before : Tally)
    (changes : List Change)
    (reached : Placed History)
    (after : Tally) : Prop where
  reached_eq : reached = afterTrials changes s
  counted : after.changes = before.changes + (timesOf Trial.made (trials changes s)).length

theorem Tallied.trans
    {between : Placed History}
    {first second third : Tally}
    {changes later : List Change}
    (one : Tallied s first changes between second)
    (two : Tallied between second later reached third) :
    Tallied s first (changes ++ later) reached third := by
  rcases one with ⟨rfl, counted⟩
  rcases two with ⟨rfl, countedLater⟩
  have split : trials (changes ++ later) s
      = trials changes s ++ trials later (afterTrials changes s) := by
    clear counted countedLater
    induction changes generalizing s with
    | nil => rfl
    | cons change rest ih => exact congrArg (List.cons _) ih
  refine ⟨(List.foldl_append ..).symm, ?_⟩
  unfold timesOf at counted countedLater ⊢
  rw [countedLater, counted, split, List.filter_append, List.map_append, List.length_append,
    Nat.add_assoc]

/-- A change that is made is counted. -/
theorem Tallied.of_made
    (tally : Tally)
    (ends : apply change s = .ok () reached) :
    Tallied s tally [change] reached { tally with changes := tally.changes + 1 } := by
  refine ⟨(Step.reached_of_ok ends).symm, ?_⟩
  show _ = tally.changes + (List.map _ (List.filter Trial.made [⟨change, s⟩])).length
  rw [List.filter_cons_of_pos (Trial.made_of_ok ends)]
  rfl

/-- A change that fails is skipped. -/
theorem Tallied.of_failed
    {fault : Fault}
    (tally : Tally)
    (ends : apply change s = .error fault reached) :
    Tallied s tally [change] reached { tally with skipped := tally.skipped + 1 } := by
  refine ⟨(Step.reached_of_error ends).symm, ?_⟩
  show _ = tally.changes + (List.map _ (List.filter Trial.made [⟨change, s⟩])).length
  rw [List.filter_cons_of_neg (by simp [Trial.made_of_error ends])]
  rfl

/-- Changes that were all taken in were tried one after the other. -/
theorem tallied_of_applyAll
    {tally after : Tally}
    {changes : List Change}
    (done : applyAll tally changes s = .ok after reached) :
    Tallied s tally changes reached after := by
  induction changes generalizing s tally with
  | nil =>
      cases done
      exact ⟨rfl, rfl⟩
  | cons change later ih =>
      unfold applyAll at done
      rcases Step.bind_eq_ok_iff.mp done with ⟨told, between, outcome, goesOn⟩
      cases ends : apply change s with
      | ok done other =>
          unfold Step.outcome at outcome
          rw [ends] at outcome
          cases outcome
          exact (Tallied.of_made tally ends).trans (ih goesOn)
      | error fault other =>
          unfold Step.outcome at outcome
          rw [ends] at outcome
          cases outcome
          cases calm : fault.isFatal with
          | true =>
              simp only [calm, if_true] at goesOn
              cases goesOn
          | false =>
              simp only [calm] at goesOn
              exact (Tallied.of_failed tally ends).trans (ih goesOn)

theorem tallied_of_deliver
    {tally after : Tally}
    {event : Event}
    (done : deliver tally event s = .ok after reached) :
    Tallied s tally event.made reached after := by
  cases event with
  | changes changes =>
      rcases tallied_of_applyAll done with ⟨same, counted⟩
      exact ⟨same, counted⟩
  | refused fault =>
      cases done
      exact ⟨rfl, rfl⟩
  | broken => cases done

/-- A step that is not abandoned succeeded. -/
theorem eq_ok_of_orAbandon
    {α : Type}
    {step : Step History α}
    {a : α}
    (done : History.orAbandon step s = .ok a reached) :
    step s = .ok a reached := by
  cases ends : step s with
  | ok b between => exact (History.orAbandon_of_ok ends).symm.trans done
  | error fault between => cases (History.orAbandon_of_error between ends).symm.trans done

/-- What a build has come to when it took in all that it was to take in. -/
theorem tallied_of_feed
    {signal : Signal}
    {question : Nat}
    {tally : Tally}
    {events : List Event}
    {progress : Progress}
    (done : feed signal question tally events s = .ok progress reached) :
    ∃ counted between,
      Tallied s tally ((consumed signal question events).flatMap Event.made) between counted
        ∧ (progress = .reading counted ∧ reached = between
          ∨ ∃ outcome, progress = .ended outcome
            ∧ callOff counted between = .ok outcome reached) := by
  induction events generalizing s question tally with
  | nil =>
      cases done
      exact ⟨tally, _, ⟨rfl, rfl⟩, Or.inl ⟨rfl, rfl⟩⟩
  | cons event later ih =>
      unfold feed at done
      unfold consumed
      cases asked : signal question with
      | true =>
          simp only [asked, if_true] at done
          rcases Step.bind_eq_ok_iff.mp done with ⟨outcome, last, stops, ends⟩
          cases ends
          exact ⟨tally, s, ⟨rfl, rfl⟩, Or.inr ⟨outcome, rfl, stops⟩⟩
      | false =>
          simp only [asked, Bool.false_eq_true, if_false] at done
          rcases Step.bind_eq_ok_iff.mp done with ⟨counted, between, delivered, goesOn⟩
          have first := tallied_of_deliver (eq_ok_of_orAbandon delivered)
          rcases ih goesOn with ⟨total, last, tallied, ends⟩
          simp only [Bool.false_eq_true, if_false, List.flatMap_cons]
          exact ⟨total, last, first.trans tallied, ends⟩

/-- A build that is called off ends at the latest change of its history. -/
theorem ends_of_callOff
    {tally : Tally}
    {outcome : Outcome}
    (open_ : Open s ledger)
    (done : callOff tally s = .ok outcome reached) :
    outcome.tally = tally
      ∧ outcome.stop = s.subject.latest
      ∧ reached.subject.currentEnd = s.subject.latest := by
  have stops : callOff tally s = .ok ⟨.cancelled, s.subject.latest, tally⟩
      ⟨s.volume, History.settle .cancelled s.subject⟩ := rfl
  cases stops.symm.trans done
  have settled := History.outline_settle .cancelled s.subject
  exact ⟨rfl, rfl,
    (congrArg History.Outline.currentEnd settled).trans (latest_eq_currentEnd open_).symm⟩

/-- So does a build that gets to the end of its events. -/
theorem ends_of_conclude
    {calledOff : Bool}
    {tally : Tally}
    {outcome : Outcome}
    (open_ : Open s ledger)
    (done : conclude calledOff tally s = .ok outcome reached) :
    outcome.tally = tally
      ∧ outcome.stop = s.subject.latest
      ∧ reached.subject.currentEnd = s.subject.latest := by
  cases calledOff with
  | true => exact ends_of_callOff open_ done
  | false =>
      have closes : (History.close s.subject.latest >>= fun _ =>
          pure ⟨.completed, s.subject.latest, tally⟩) s = .ok outcome reached := done
      rcases Step.bind_eq_ok_iff.mp closes with ⟨_, closed, closed_, ends⟩
      cases ends
      rcases open_.close_eq_ok closed_ with ⟨-, -, outline, -⟩
      exact ⟨rfl, rfl, congrArg History.Outline.currentEnd outline⟩

/-- A build that ends with an outcome ends at the latest change of all that it tried. -/
theorem ends_of_run
    {signal : Signal}
    {events : List Event}
    {outcome : Outcome}
    (open_ : Open s ledger)
    (done : run signal events s = .ok outcome reached) :
    let changes := (consumed signal 0 events).flatMap Event.made
    outcome.tally.changes = (timesOf Trial.made (trials changes s)).length
      ∧ outcome.stop = (afterTrials changes s).subject.latest
      ∧ reached.subject.currentEnd = (afterTrials changes s).subject.latest := by
  intro changes
  rcases Step.bind_eq_ok_iff.mp done with ⟨progress, between, reads, goesOn⟩
  rcases tallied_of_feed reads with ⟨counted, last, ⟨rfl, total⟩, ends⟩
  rcases (exists_open_afterTrials open_ changes).1 with ⟨after, openAfter⟩
  have all : outcome.tally = counted
      ∧ outcome.stop = (afterTrials changes s).subject.latest
      ∧ reached.subject.currentEnd = (afterTrials changes s).subject.latest := by
    rcases ends with ⟨rfl, rfl⟩ | ⟨stopped, rfl, stops⟩
    · exact ends_of_conclude openAfter goesOn
    · cases goesOn
      exact ends_of_callOff openAfter stops
  refine ⟨?_, all.2⟩
  rw [all.1, total]
  exact Nat.zero_add _

/--
A build of a new history that ends with an outcome ends at the greatest time of
the changes that set something, or at its start if nothing was set; so does its
history.  The times of these changes are in order.  They are the changes that
were counted as made, unless a pop that found nothing came at a time other than
the latest one, or all attributes were set to null by a removal of the root.
-/
theorem stop_of_run
    {id : String}
    {start : Int}
    {plan : Backend.Plan}
    {volume made : Volume}
    {history : History}
    {signal : Signal}
    {events : List Event}
    {outcome : Outcome}
    {ended : Placed History}
    (sound : volume.Sound)
    (created : History.create id start plan volume = .ok (made, history))
    (done : run signal events ⟨made, history⟩ = .ok outcome ended) :
    outcome.tally.changes
        = (timesOf Trial.made (attempts signal events ⟨made, history⟩)).length
      ∧ ended.subject.currentEnd = outcome.stop
      ∧ outcome.stop
        = (timesOf Trial.telling (attempts signal events ⟨made, history⟩)).foldl max start
      ∧ (start :: timesOf Trial.telling (attempts signal events ⟨made, history⟩)).Pairwise (· ≤ ·)
      ∧ ((∀ trial ∈ attempts signal events ⟨made, history⟩, trial.astray = false) →
        outcome.stop = (timesOf Trial.made (attempts signal events ⟨made, history⟩)).foldl max start
          ∧ (start :: timesOf Trial.made (attempts signal events ⟨made, history⟩)).Pairwise
            (· ≤ ·)) := by
  rcases History.open_of_create sound created with ⟨open_, outline, -⟩
  rcases ends_of_run open_ done with ⟨total, stop, ending⟩
  have first : history.latest = start :=
    (latest_eq_currentEnd open_).trans (congrArg History.Outline.currentEnd outline)
  have opens := (exists_open_afterTrials open_
    ((consumed signal 0 events).flatMap Event.made)).2
  have timed : ∀ trial ∈ attempts signal events ⟨made, history⟩, trial.Timed trial.telling := by
    intro trial member
    rcases opens trial member with ⟨before, openBefore⟩
    exact timed_of_open openBefore trial.change
  rcases latest_of_timed timed with ⟨latest, sorted⟩
  rw [first] at latest sorted
  refine ⟨total, ending.trans stop.symm, stop.trans latest, sorted, fun straight => ?_⟩
  rcases latest_of_timed fun trial member => (timed trial member).of_made (straight trial member)
    with ⟨latestMade, sortedMade⟩
  rw [first] at latestMade sortedMade
  exact ⟨stop.trans latestMade, sortedMade⟩

theorem stop_of_incidents :
    ∃ made history outcome ended,
      History.create "incidents" 0 .memory .empty = .ok (made, history)
        ∧ run .never incidents ⟨made, history⟩ = .ok outcome ended
        ∧ timesOf Trial.made (attempts .never incidents ⟨made, history⟩) = [3, 5]
        ∧ ended.subject.currentEnd = outcome.stop
        ∧ outcome.stop = 5 := by
  obtain ⟨made, history, created, ends, times, straight⟩ : ∃ made history,
      History.create "incidents" 0 .memory .empty = .ok (made, history)
        ∧ (match run .never incidents ⟨made, history⟩ with
          | .ok _ _ => true
          | .error _ _ => false) = true
        ∧ timesOf Trial.made (attempts .never incidents ⟨made, history⟩) = [3, 5]
        ∧ ∀ trial ∈ attempts .never incidents ⟨made, history⟩, trial.astray = false :=
    ⟨_, _, rfl, by decide +kernel, by decide +kernel, by decide +kernel⟩
  cases done : run .never incidents ⟨made, history⟩ with
  | error fault reached =>
      rw [done] at ends
      cases ends
  | ok outcome ended =>
      rcases stop_of_run (by decide) created done with ⟨-, ending, -, -, straightly⟩
      refine ⟨made, history, outcome, ended, created, done, times, ending, ?_⟩
      rw [(straightly straight).1, times]
      rfl

/-- A pop that finds nothing is counted as made, but the build does not end at its time. -/
theorem stop_before_idle_pop :
    ∃ made history outcome ended,
      History.create "idle" 0 .memory .empty = .ok (made, history)
        ∧ run .never [.changes [⟨["a"], 100, .pop⟩]] ⟨made, history⟩ = .ok outcome ended
        ∧ outcome.tally.changes = 1
        ∧ timesOf Trial.made
          (attempts .never [.changes [⟨["a"], 100, .pop⟩]] ⟨made, history⟩) = [100]
        ∧ outcome.stop = 0
        ∧ ended.subject.currentEnd = 0 :=
  ⟨_, _, _, _, rfl, rfl, by decide +kernel, by decide +kernel, by decide +kernel,
    by decide +kernel⟩

end Chronicle.Replay
