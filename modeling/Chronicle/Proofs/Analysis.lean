import Chronicle.Analysis
import Chronicle.Proofs.Rebuilding

/-!
# Reused or built anew

An analysis over a file takes what is there as a whole or not at all.  A file
that opens for the version of its decoder is the history, and no event is read.
Any other file is written over, and nothing of it is left in what is built.
-/

namespace Chronicle

namespace Replay

/-! ## Held up and called off -/

/--
What a build is told that is called off or not from the start, is held up
before the event of number `gate`, if there is a gate, and is called off there
if `cancels`.  Where there are only `count` events, it is held up at their end.
-/
def interruption
    (calledOff : Bool)
    (gate : Option Nat)
    (cancels : Bool)
    (count : Nat) :
    Signal :=
  fun question => calledOff || cancels && gate.any fun place => min place count ≤ question

theorem interruption_none
    (calledOff cancels : Bool)
    (count : Nat) :
    interruption calledOff none cancels count = .always calledOff := by
  funext question
  simp [interruption, Signal.always]

/-- A build that is held up does first what it does before and then what it does behind the gate. -/
theorem run_interruption
    (calledOff cancels : Bool)
    (place : Nat)
    (events : List Event) :
    run (interruption calledOff (some place) cancels events.length) events
      = feed (.always calledOff) 0 {} (events.take place) >>= fun progress =>
          match progress with
          | .ended outcome => pure outcome
          | .reading tally =>
            resume (.always (calledOff || cancels)) place tally (events.drop place) := by
  have length : (events.take place).length = min place events.length := List.length_take
  rw [run_eq_feed_take _ events place]
  congr 1
  · refine feed_congr (fun k inside => ?_) {}
    rw [length] at inside
    simp only [interruption, Signal.always, Option.any_some]
    rw [decide_eq_false (by omega), Bool.and_false, Bool.or_false]
  · funext progress
    cases progress with
    | ended outcome => rfl
    | reading tally =>
        refine resume_congr (fun k _ => ?_) tally
        simp only [interruption, Signal.always, Option.any_some]
        rw [decide_eq_true (by omega), Bool.and_true]

end Replay

namespace Trace

open History (AnswersAlike)

variable {r : Placed Trace} {analysis : Analysis} {number : Nat} {placed : Placed History}

/-! ## An analysis and its history -/

/-- The trace after the analysis called `id` was changed. -/
def changed
    (trace : Trace)
    (id : String)
    (change : Analysis → Analysis) :
    Trace :=
  { trace with
    analyses := trace.analyses.map fun analysis =>
      if analysis.id = id then change analysis else analysis }

/-- An analysis that was changed and kept its name is found as it was changed. -/
theorem get?_changed
    (change : Analysis → Analysis)
    (sameName : ∀ analysis, (change analysis).id = analysis.id)
    (trace : Trace)
    (id : String) :
    (trace.changed id change).get? id = (trace.get? id).map change := by
  unfold get? changed
  have named : ∀ analysis : Analysis,
      (if analysis.id = id then change analysis else analysis).id = analysis.id := by
    intro analysis
    split
    · exact sameName analysis
    · rfl
  rw [List.find?_map]
  simp only [Function.comp_def, named]
  cases found : trace.analyses.find? fun analysis => decide (analysis.id = id) with
  | none => rfl
  | some analysis =>
      have same : analysis.id = id := by simpa using List.find?_some found
      simp only [Option.map_some, if_pos same]

/-- An analysis works on the history of a number, which is as given next to the volume. -/
structure Works
    (r : Placed Trace)
    (analysis : Analysis)
    (number : Nat)
    (placed : Placed History) : Prop where
  known : r.subject.get? analysis.id = some analysis
  history : analysis.history = some number
  found : r.subject.histories[number]? = some placed.subject
  volume : r.volume = placed.volume

/-- Calls the build of an analysis off, or does nothing. -/
def cancelIf
    (cancels : Bool)
    (id : String) :
    Step Trace Unit :=
  if cancels then cancel id else return

/-- The history of an analysis next to the volume. -/
def historyAt?
    (s : Placed Trace)
    (id : String) :
    Option (Placed History) :=
  ((s.subject.historyOf id).bind fun number => s.subject.histories[number]?).map
    (Placed.mk s.volume)

namespace Works

theorem historyAt?_eq
    (works : Works r analysis number placed) :
    historyAt? r analysis.id = some placed := by
  unfold historyAt? historyOf
  rw [works.known, Option.bind_some, works.history, Option.bind_some, works.found, works.volume]
  rfl

/-- A change of the analysis leaves its history alone. -/
theorem modify
    (works : Works r analysis number placed)
    (change : Analysis → Analysis)
    (sameName : ∀ analysis, (change analysis).id = analysis.id)
    (sameHistory : (change analysis).history = analysis.history) :
    ∃ after,
      Trace.modify analysis.id change r = .ok () after
        ∧ Works after (change analysis) number placed := by
  refine ⟨⟨r.volume, r.subject.changed analysis.id change⟩, rfl, ?_, ?_, works.found, works.volume⟩
  · rw [sameName]
    exact (get?_changed change sameName _ _).trans (congrArg (Option.map change) works.known)
  · exact sameHistory.trans works.history

/-- A build that has ended keeps its result until it is told. -/
theorem settle
    (works : Works r analysis number placed)
    (result : Except Fault Replay.Outcome) :
    ∃ after,
      Trace.settle analysis.id result r = .ok () after
        ∧ Works after { analysis with worker := .done result } number placed :=
  works.modify (fun analysis => { analysis with worker := .done result }) (fun _ => rfl) rfl

/-- What is done with the history is done with it alone. -/
theorem onHistory
    {α : Type}
    (works : Works r analysis number placed)
    (step : Step History α) :
    ∃ told after ended,
      (Trace.onHistory number step).outcome r = .ok told after
        ∧ step.outcome placed = .ok told ended
        ∧ Works after analysis number ended := by
  have inside : number < r.subject.histories.size :=
    (Array.getElem?_eq_some_iff.mp works.found).1
  have goes : Trace.onHistory number step r
      = Step.onPart (fun _ => placed.subject)
        (fun trace history =>
          { trace with histories := trace.histories.setIfInBounds number history }) step r := by
    unfold Trace.onHistory
    rw [Step.subject_bind_apply, works.found]
  have same : (⟨r.volume, placed.subject⟩ : Placed History) = placed := by rw [works.volume]
  have carries : ∀ ended : Placed History,
      Works ⟨ended.volume, { r.subject with
        histories := r.subject.histories.setIfInBounds number ended.subject }⟩
        analysis number ended :=
    fun ended =>
      ⟨works.known, works.history, Array.getElem?_setIfInBounds_self_of_lt inside, rfl⟩
  unfold Step.outcome
  rw [goes]
  cases ends : step placed with
  | ok a ended =>
      rw [← same] at ends
      rw [Step.onPart_of_ok ends]
      exact ⟨.ok a, _, ended, rfl, rfl, carries ended⟩
  | error fault ended =>
      rw [← same] at ends
      rw [Step.onPart_of_error ends]
      exact ⟨.error fault, _, ended, rfl, rfl, carries ended⟩

/-! ### The end of a build -/

/-- Without a build that is held up there is nothing to let go on. -/
theorem release_of_done
    {result : Except Fault Replay.Outcome}
    (works : Works r analysis number placed)
    (done : analysis.worker = .done result) :
    release analysis.id r = .ok () r := by
  unfold release
  rw [Step.subject_bind_apply, works.known]
  simp only [done]
  rfl

/-- A build that is held up goes on to its end. -/
theorem release_of_held
    {question : Nat}
    {tally : Replay.Tally}
    {events : List Replay.Event}
    (works : Works r analysis number placed)
    (held : analysis.worker = .held number question tally events) :
    ∃ result after ended,
      release analysis.id r = .ok () after
        ∧ (Replay.resume (.always analysis.calledOff) question tally events).outcome placed
          = .ok result ended
        ∧ Works after { analysis with worker := .done result } number ended := by
  rcases works.onHistory (Replay.resume (.always analysis.calledOff) question tally events) with
    ⟨result, between, ended, outcome, resumed, worksBetween⟩
  rcases worksBetween.settle result with ⟨after, settles, worksAfter⟩
  refine ⟨result, after, ended, ?_, resumed, worksAfter⟩
  unfold release
  rw [Step.subject_bind_apply, works.known]
  simp only [held]
  exact (Step.bind_of_ok outcome).trans settles

/-- The result of a build that has ended is told. -/
theorem join_of_release
    {s : Placed Trace}
    {result : Except Fault Replay.Outcome}
    (works : Works r analysis number placed)
    (releases : release analysis.id s = .ok () r)
    (done : analysis.worker = .done result) :
    ∃ after,
      join analysis.id s = .ok (some result) after
        ∧ Works after { analysis with worker := .none } number placed := by
  rcases works.modify (fun analysis => { analysis with worker := .none }) (fun _ => rfl) rfl with
    ⟨after, told, worksAfter⟩
  refine ⟨after, ?_, worksAfter⟩
  unfold join
  rw [Step.bind_of_ok releases, Step.subject_bind_apply, works.known]
  rcases analysis with ⟨id, plan, start, calledOff, scheduled, initialized, history, worker⟩
  cases done
  exact (Step.bind_of_ok told).trans rfl

/-- Without a build there is nothing to wait for. -/
theorem join_of_none
    (works : Works r analysis number placed)
    (idle : analysis.worker = .none) :
    join analysis.id r = .ok none r := by
  have releases : release analysis.id r = .ok () r := by
    unfold release
    rw [Step.subject_bind_apply, works.known]
    simp only [idle]
    rfl
  unfold join
  rw [Step.bind_of_ok releases, Step.subject_bind_apply, works.known]
  rcases analysis with ⟨id, plan, start, calledOff, scheduled, initialized, history, worker⟩
  cases idle
  rfl

/-- An analysis is called off, or goes on as before. -/
theorem cancelIf
    (works : Works r analysis number placed)
    (cancels : Bool) :
    ∃ after,
      Trace.cancelIf cancels analysis.id r = .ok () after
        ∧ Works after { analysis with calledOff := analysis.calledOff || cancels }
          number placed := by
  cases cancels with
  | false =>
      rw [Bool.or_false]
      exact ⟨r, rfl, works⟩
  | true =>
      rw [Bool.or_true]
      exact works.modify (fun analysis => { analysis with calledOff := true }) (fun _ => rfl) rfl

end Works

/-! ## From the first event to the end -/

/-- How far a build has come that was begun: it has ended, or it is held up before an event. -/
inductive Begun
    (calledOff : Bool)
    (number : Nat)
    (events : List Replay.Event)
    (placed reached : Placed History) :
    Option Nat →
    Analysis.Worker →
    Prop
  /-- Whether it is called off makes no difference any more. -/
  | ended
      {gate : Option Nat}
      {result : Except Fault Replay.Outcome}
      (runs : ∀ cancels,
        (Replay.run (Replay.interruption calledOff gate cancels events.length) events).outcome
          placed = .ok result reached) :
      Begun calledOff number events placed reached gate (.done result)
  | held
      {place : Nat}
      {tally : Replay.Tally}
      (feeds : Replay.feed (.always calledOff) 0 {} (events.take place) placed
        = .ok (.reading tally) reached) :
      Begun calledOff number events placed reached (some place)
        (.held number place tally (events.drop place))

/-- What becomes of a build that is held up before an event unless it has ended by then. -/
def workerAfter
    (number place : Nat)
    (events : List Replay.Event) :
    Except Fault Replay.Progress →
    Analysis.Worker
  | .error fault => .done (.error fault)
  | .ok (.reading tally) => .held number place tally (events.drop place)
  | .ok (.ended outcome) => .done (.ok outcome)

theorem begun_of_feed
    {calledOff : Bool}
    {place : Nat}
    {events : List Replay.Event}
    {made reached : Placed History}
    {told : Except Fault Replay.Progress}
    (feeds : Replay.feed (.always calledOff) 0 {} (events.take place) made
      = Step.ofExcept told reached) :
    Begun calledOff number events made reached (some place)
      (workerAfter number place events told) := by
  rcases told with fault | tally | outcome
  · refine .ended fun cancels => Step.outcome_of_ofExcept ?_
    rw [Replay.run_interruption]
    exact Step.bind_of_error feeds
  · exact .held feeds
  · refine .ended fun cancels => Step.outcome_of_ofExcept ?_
    rw [Replay.run_interruption]
    exact Step.bind_of_ok feeds

namespace Works

/-- A build ends or is held up. -/
theorem build
    (works : Works r analysis number placed)
    (events : List Replay.Event)
    (gate : Option Nat) :
    ∃ worker after reached,
      Trace.build analysis number events gate r = .ok () after
        ∧ Works after { analysis with worker } number reached
        ∧ Begun analysis.calledOff number events placed reached gate worker := by
  cases gate with
  | none =>
      rcases works.onHistory (Replay.run (.always analysis.calledOff) events) with
        ⟨result, between, ended, outcome, runs, worksBetween⟩
      rcases worksBetween.settle result with ⟨after, settles, worksAfter⟩
      refine ⟨.done result, after, ended, (Step.bind_of_ok outcome).trans settles, worksAfter,
        .ended fun cancels => ?_⟩
      rw [Replay.interruption_none]
      exact runs
  | some place =>
      rcases works.onHistory
          (Replay.feed (.always analysis.calledOff) 0 {} (events.take place)) with
        ⟨told, between, reached, outcome, fed, worksBetween⟩
      rcases worksBetween.modify
          (fun analysis => { analysis with worker := workerAfter number place events told })
          (fun _ => rfl) rfl with
        ⟨after, leaves, worksAfter⟩
      refine ⟨_, after, reached, (Step.bind_of_ok outcome).trans ?_, worksAfter,
        begun_of_feed (Step.ofExcept_of_outcome fed)⟩
      rcases told with fault | tally | stopped
      · exact leaves
      · exact leaves
      · exact leaves

/-- Called off or not, a build that was begun comes to its end when that is waited for. -/
theorem exists_end
    {events : List Replay.Event}
    {gate : Option Nat}
    {made : Placed History}
    (works : Works r analysis number placed)
    (begun : Begun analysis.calledOff number events made placed gate analysis.worker)
    (cancels : Bool) :
    ∃ result after ended,
      (Trace.cancelIf cancels analysis.id >>= fun _ => join analysis.id) r = .ok (some result) after
        ∧ (Replay.run (Replay.interruption analysis.calledOff gate cancels events.length)
          events).outcome made = .ok result ended
        ∧ historyAt? after analysis.id = some ended := by
  rcases works.cancelIf cancels with ⟨between, cancelled, worksBetween⟩
  rw [Step.bind_of_ok cancelled]
  generalize shown : analysis.worker = worker at begun
  cases begun with
  | @ended _ result runs =>
      rcases worksBetween.join_of_release (worksBetween.release_of_done shown) shown with
        ⟨after, joins, worksAfter⟩
      exact ⟨result, after, placed, joins, runs cancels, worksAfter.historyAt?_eq⟩
  | @held place tally feeds =>
      rcases worksBetween.release_of_held shown with
        ⟨result, settled, ended, releases, resumed, worksSettled⟩
      rcases worksSettled.join_of_release releases rfl with ⟨after, joins, worksAfter⟩
      refine ⟨result, after, ended, joins, ?_, worksAfter.historyAt?_eq⟩
      refine Step.outcome_of_ofExcept ?_
      rw [Replay.run_interruption]
      exact (Step.bind_of_ok feeds).trans (Step.ofExcept_of_outcome resumed)

end Works

/-! ## What is there when an analysis begins -/

/-- Asks an analysis for its history, calls its build off or not, and waits for the end. -/
def attend
    (analysis : Analysis)
    (version : Nat)
    (events : List Replay.Event)
    (gate : Option Nat)
    (cancels : Bool) :
    Step Trace (Option (Except Fault Replay.Outcome)) := do
  schedule analysis version events gate
  cancelIf cancels analysis.id
  join analysis.id

/-- The analysis after it has begun to work on a history. -/
def beginner
    (analysis : Analysis)
    (number : Nat) :
    Analysis :=
  { analysis with
    scheduled := true
    initialized := true
    history := some number }

/-- Begins to keep a history for an analysis, and gives it a number. -/
def take
    (id : String)
    (history : History) :
    Step Trace Nat := do
  let number ← keep history
  modify id fun analysis => analysis.withHistory (some number)
  return number

section Beginning

variable {s : Placed Trace} {version : Nat}

/-- The trace after an analysis was asked for its history. -/
def asked
    (trace : Trace)
    (id : String) :
    Trace :=
  trace.changed id fun analysis => { analysis with scheduled := true }

theorem modify_scheduled
    (id : String)
    (s : Placed Trace) :
    modify id (fun analysis => { analysis with scheduled := true }) s
      = .ok () ⟨s.volume, s.subject.asked id⟩ := rfl

/-- An analysis begins to work on a history that its trace begins to keep. -/
theorem works_of_take
    (known : s.subject.get? analysis.id = some analysis)
    (placed : Placed History) :
    ∃ number after,
      take analysis.id placed.subject ⟨placed.volume, s.subject.asked analysis.id⟩
          = .ok number after
        ∧ Works after (beginner analysis number) number placed := by
  refine ⟨s.subject.histories.size, _, rfl, ?_, rfl, Array.getElem?_push_size, rfl⟩
  have asks : (s.subject.asked analysis.id).get? analysis.id
      = some { analysis with scheduled := true } := by
    have asks := get?_changed (fun analysis => { analysis with scheduled := true }) (fun _ => rfl)
      s.subject analysis.id
    rw [known] at asks
    exact asks
  have takes := get?_changed
    (fun analysis => analysis.withHistory (some s.subject.histories.size)) (fun _ => rfl)
    (s.subject.asked analysis.id) analysis.id
  rw [asks] at takes
  exact takes

theorem schedule_of_reusable
    {history : History}
    (fresh : analysis.scheduled = false)
    (reusable : reusable? analysis version s.volume = some history)
    (events : List Replay.Event)
    (gate : Option Nat) :
    schedule analysis version events gate s
      = (take analysis.id history >>= fun _ => pure ())
        ⟨s.volume, s.subject.asked analysis.id⟩ := by
  unfold schedule
  rw [fresh, if_neg Bool.false_ne_true, Step.bind_of_ok (modify_scheduled analysis.id s),
    Step.volume_bind_apply]
  simp only [reusable]
  rfl

theorem schedule_of_created
    {made : Volume}
    {history : History}
    (fresh : analysis.scheduled = false)
    (unusable : reusable? analysis version s.volume = none)
    (created : History.create analysis.id analysis.start (planFor version analysis.plan) s.volume
      = .ok (made, history))
    (events : List Replay.Event)
    (gate : Option Nat) :
    schedule analysis version events gate s
      = (take analysis.id history >>= fun number => build analysis number events gate)
        ⟨made, s.subject.asked analysis.id⟩ := by
  unfold schedule
  rw [fresh, if_neg Bool.false_ne_true, Step.bind_of_ok (modify_scheduled analysis.id s),
    Step.volume_bind_apply]
  simp only [unusable, created]
  rfl

/--
What comes of an analysis over a file that is asked in `s` for its history.
Where the file opens for one version, it is built anew for any other; where a
build was called off, it opens for none and is built anew for all.
-/
structure ReusesOrRebuilds
    (analysis : Analysis)
    (name : String)
    (config : Tree.Config)
    (version : Nat)
    (s : Placed Trace) : Prop where
  /-- A file that opens is the history, whatever the events are. -/
  reuses : ∀ {opened},
    Tree.reopen name version s.volume = .ok opened →
    ∃ history,
      History.reopen analysis.id name version s.volume = .ok history
        ∧ ∀ cancels, ∃ after,
          (∀ events gate, attend analysis version events gate cancels s = .ok none after)
            ∧ historyAt? after analysis.id = some ⟨s.volume, history⟩
  /-- A file that opens for another version does not open. -/
  refuses : ∀ {other opened},
    Tree.reopen name other s.volume = .ok opened →
    version ≠ other →
    Tree.reopen name version s.volume = .error (.unsupportedVersion other)
  /-- A file that does not open is filled from the events alone, whatever there was in it. -/
  rebuilds : ∀ {fault},
    Tree.reopen name version s.volume = .error fault →
    ∀ events gate cancels, ∃ result built after,
      attend analysis version events gate cancels s = .ok (some result) after
        ∧ historyAt? after analysis.id = some built
        ∧ Replay.Rebuilt analysis.id name analysis.start { config with version }
          (Replay.interruption analysis.calledOff gate cancels events.length) events result built

theorem exists_reuse
    {name : String}
    {config : Tree.Config}
    {history : History}
    (known : s.subject.get? analysis.id = some analysis)
    (planned : analysis.plan = .file name config)
    (fresh : analysis.scheduled = false)
    (idle : analysis.worker = .none)
    (reopens : History.reopen analysis.id name version s.volume = .ok history)
    (cancels : Bool) :
    ∃ after,
      (∀ events gate, attend analysis version events gate cancels s = .ok none after)
        ∧ historyAt? after analysis.id = some ⟨s.volume, history⟩ := by
  have reusable : reusable? analysis version s.volume = some history := by
    unfold reusable?
    rw [planned]
    simp only [reopens]
    rfl
  rcases works_of_take known ⟨s.volume, history⟩ with ⟨number, taken, takes, works⟩
  rcases works.cancelIf cancels with ⟨after, cancelled, worksAfter⟩
  refine ⟨after, fun events gate => ?_, worksAfter.historyAt?_eq⟩
  have schedules : schedule analysis version events gate s = .ok () taken := by
    rw [schedule_of_reusable fresh reusable]
    exact Step.bind_of_ok takes
  exact (Step.bind_of_ok schedules).trans
    ((Step.bind_of_ok cancelled).trans (worksAfter.join_of_none idle))

/--
An analysis over a file reuses it if it opens for the version of its decoder,
and builds the history anew otherwise.
-/
theorem reusesOrRebuilds_of_fresh
    {name : String}
    {config : Tree.Config}
    {provided : Volume × Nat}
    (sound : s.volume.Sound)
    (known : s.subject.get? analysis.id = some analysis)
    (planned : analysis.plan = .file name config)
    (fresh : analysis.scheduled = false)
    (idle : analysis.worker = .none)
    (valid : config.Valid)
    (creatable : s.volume.create name = .ok provided)
    (told : version < 4294967296)
    (start_ge : -9223372036854775808 ≤ analysis.start)
    (start_le : analysis.start ≤ latestInstant) :
    ReusesOrRebuilds analysis name config version s where
  reuses := by
    intro opened opens
    have reopens := History.reopen_eq_map analysis.id name version s.volume
    rw [opens] at reopens
    exact ⟨_, reopens, exists_reuse known planned fresh idle reopens⟩
  refuses opens different := Tree.reopen_of_other opens different
  rebuilds := by
    intro fault refused events gate cancels
    have reopens := History.reopen_eq_map analysis.id name version s.volume
    rw [refused] at reopens
    have unusable : reusable? analysis version s.volume = none := by
      unfold reusable?
      rw [planned]
      simp only [reopens]
      rfl
    have validHere : ({ config with version } : Tree.Config).Valid :=
      ⟨valid.twoChildren, valid.childrenFit, valid.blockFits, valid.roomForInterval⟩
    rcases History.exists_create validHere creatable analysis.id analysis.start with
      ⟨made, history, created⟩
    have begins : History.create analysis.id analysis.start (planFor version analysis.plan) s.volume
        = .ok (made, history) := by
      rw [planned]
      exact created
    rcases works_of_take known ⟨made, history⟩ with ⟨number, taken, takes, works⟩
    rcases works.build events gate with ⟨worker, between, reached, builds, worksBetween, begun⟩
    rcases worksBetween.exists_end begun cancels with ⟨result, after, built, ends, ran, shown⟩
    have schedules : schedule analysis version events gate s = .ok () between := by
      rw [schedule_of_created fresh unusable begins]
      exact (Step.bind_of_ok takes).trans builds
    exact ⟨result, built, after, (Step.bind_of_ok schedules).trans ends, shown,
      Replay.rebuilt_of_created sound told start_ge start_le created ran⟩

end Beginning

/-! ## Twice over one file -/

/-- An analysis over a cramped file. -/
def survey : Analysis :=
  .idle "survey" (.file "survey" History.cramping) 0

/-- The trace with one analysis, which was not asked for its history yet. -/
def surveying : Trace :=
  ⟨#[], [survey]⟩

theorem attend_surveying :
    (match attend survey 0 Replay.incidents none false ⟨.empty, surveying⟩ with
    | .ok (some (.ok outcome)) after =>
      match historyAt? after "survey" with
      | some built =>
        decide (outcome.status = .completed ∧ outcome.stop < latestInstant
          ∧ built.subject.InRange ∧ built.volume.Sound)
          && (built.volume.create "survey").isOk
      | none => false
    | _ => false) = true := by
  decide +kernel

/--
Asked over no file at all, an analysis builds one.  Asked again, it takes it as
it is; asked for another version, it builds it anew.
-/
theorem reusesOrRebuilds_surveying :
    ∃ outcome after built history,
      Tree.reopen "survey" 0 .empty = .error (.storage .noSuchFile)
        ∧ attend survey 0 Replay.incidents none false ⟨.empty, surveying⟩
          = .ok (some (.ok outcome)) after
        ∧ outcome.status = .completed
        ∧ historyAt? after "survey" = some built
        ∧ History.reopen "survey" "survey" 0 built.volume = .ok history
        ∧ AnswersAlike built ⟨built.volume, history⟩
        ∧ (∀ cancels, ∃ later,
          (∀ events gate,
            attend survey 0 events gate cancels ⟨built.volume, surveying⟩ = .ok none later)
            ∧ historyAt? later "survey" = some ⟨built.volume, history⟩)
        ∧ Tree.reopen "survey" 1 built.volume = .error (.unsupportedVersion 0)
        ∧ ∀ events gate cancels, ∃ result anew later,
          attend survey 1 events gate cancels ⟨built.volume, surveying⟩ = .ok (some result) later
            ∧ historyAt? later "survey" = some anew := by
  have valid : History.cramping.Valid := (Tree.Config.validate_eq_ok_iff _).mp rfl
  have missing : Tree.reopen "survey" 0 Volume.empty = .error (.storage .noSuchFile) := rfl
  have first : ReusesOrRebuilds survey "survey" History.cramping 0 ⟨.empty, surveying⟩ :=
    reusesOrRebuilds_of_fresh (by decide) rfl rfl rfl rfl valid rfl (by decide) (by decide)
      (by decide)
  have good := attend_surveying
  rcases first.rebuilds missing Replay.incidents none false with
    ⟨result, built, after, attended, shown, rebuilt⟩
  have named : historyAt? after "survey" = some built := shown
  rw [attended] at good
  cases result with
  | error fault => cases good
  | ok outcome =>
      simp only [named, Bool.and_eq_true, decide_eq_true_eq] at good
      rcases good with ⟨⟨completed, dated, inRange, sound⟩, creatable⟩
      rcases rebuilt.complete rfl completed inRange (Or.inr dated) with
        ⟨⟨history, reopens, alike⟩, -⟩
      cases provides : built.volume.create "survey" with
      | error fault =>
          rw [provides] at creatable
          cases creatable
      | ok provided =>
          have again : ∀ version, version < 4294967296 →
              ReusesOrRebuilds survey "survey" History.cramping version ⟨built.volume, surveying⟩ :=
            fun version told => reusesOrRebuilds_of_fresh sound rfl rfl rfl rfl valid provides told
              (by decide) (by decide)
          rcases History.exists_tree_of_reopen reopens with ⟨tree, opened⟩
          rcases (again 0 (by decide)).reuses opened with ⟨same, reopensSame, reuses⟩
          cases reopens.symm.trans reopensSame
          have refused := (again 1 (by decide)).refuses opened (by decide)
          refine ⟨outcome, after, built, history, missing, attended, completed, named, reopens,
            alike, reuses, refused, fun events gate cancels => ?_⟩
          rcases (again 1 (by decide)).rebuilds refused events gate cancels with
            ⟨other, anew, later, attends, told, -⟩
          exact ⟨other, anew, later, attends, told⟩

end Trace

end Chronicle
