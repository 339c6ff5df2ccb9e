import Chronicle.Proofs.History.Turning

/-!
# The life of a history

A history is built until its writer closes it, stops or goes away, or until it
is given up.  Whatever is done to it, in whatever order, it is settled once and
then tells the same for ever, until it is given up and tells nothing.  Giving a
history up leaves a completed file alone and takes the name of any other.
-/

namespace Chronicle.History

/-- Where operations lead that are done one after the other. -/
def after
    (operations : List Operation)
    (s : Placed History) :
    Placed History :=
  (Step.each Operation.step operations).reached s

theorem after_cons
    (operation : Operation)
    (operations : List Operation)
    (s : Placed History) :
    after (operation :: operations) s = after operations (operation.step.reached s) :=
  Step.reached_each_cons _ _ _ _

theorem after_append
    (before later : List Operation)
    (s : Placed History) :
    after (before ++ later) s = after later (after before s) :=
  Step.reached_each_append _ _ _ _

/-- What a history says of itself, even after it was given up. -/
structure Present where
  names : Namespace
  /-- What is held now, and the time of the latest change. -/
  ongoing : Ongoing
  currentEnd : Int
  status : Status

/-- What a history says of itself, even after it was given up. -/
def present (history : History) : Present where
  names := history.names
  ongoing := history.recording.ongoing
  currentEnd := history.currentEnd
  status := history.status

variable {plan : Backend.Plan} {writing : Prop} {s r : Placed History} {operation : Operation}

/-! ## What is known all the time -/

/-- What is known of a history at any time of its life. -/
structure Lives
    (plan : Backend.Plan)
    (writing : Prop)
    (s : Placed History) : Prop where
  settled : s.subject.disposed = true → s.subject.status ≠ .building
  building : writing → s.subject.disposed = false → s.subject.status = .building
  stage : s.subject.disposed = false → s.subject.backend.stage?
    = plan.name?.map fun name => ⟨name, false, decide (s.subject.status = .completed)⟩

theorem lives_of_create
    {id : String}
    {start : Int}
    {volume made : Volume}
    {history : History}
    (created : create id start plan volume = .ok (made, history)) :
    Lives plan True ⟨made, history⟩ := by
  simp only [create] at created
  cases backendMade : Backend.create plan start volume with
  | error fault =>
      rw [backendMade] at created
      cases created
  | ok pair =>
      rcases pair with ⟨base, backend⟩
      rw [backendMade] at created
      cases created
      exact ⟨fun gone => Bool.noConfusion gone, fun _ _ => rfl,
        fun _ => Backend.stage?_of_create backendMade⟩

theorem Status.settled_cancelled_eq_completed_iff
    (now : Status) :
    Status.settled .cancelled now = .completed ↔ now = .completed := by
  cases now <;> decide

namespace Turn

/-- A history is given up for good, and only by giving it up. -/
theorem disposed_iff
    (turn : Turn s operation r) :
    r.subject.disposed = true ↔ s.subject.disposed = true ∨ operation = .dispose := by
  cases turn with
  | keep stays again same =>
      have disposed : r.subject.disposed = s.subject.disposed := congrArg Standing.disposed same
      rw [disposed]
      exact (or_iff_left_of_imp again).symm
  | complete closes alive turned =>
      have disposed : r.subject.disposed = s.subject.disposed := congrArg Standing.disposed turned
      rw [disposed]
      exact (or_iff_left fun other => nomatch other).symm
  | cancel ends fails turned =>
      have disposed : r.subject.disposed = s.subject.disposed := congrArg Standing.disposed turned
      rw [disposed]
      refine (or_iff_left ?_).symm
      rintro rfl
      exact ends.elim
  | dispose gone turned => exact ⟨fun _ => Or.inr rfl, fun _ => gone⟩

/-- A history at hand was at hand before, and was not given up since. -/
theorem of_alive
    (turn : Turn s operation r)
    (alive : r.subject.disposed = false) :
    s.subject.disposed = false ∧ operation ≠ .dispose := by
  rw [Bool.eq_false_iff] at alive ⊢
  exact not_or.mp fun either => alive (turn.disposed_iff.mpr either)

theorem lives
    (turn : Turn s operation r)
    (lives : Lives plan writing s)
    (may : operation.Writes → writing) :
    Lives plan (writing ∧ ¬ operation.Ends) r := by
  cases turn with
  | keep stays again same =>
      have status : r.subject.status = s.subject.status := congrArg Standing.status same
      have disposed : r.subject.disposed = s.subject.disposed := congrArg Standing.disposed same
      have stage : r.subject.backend.stage? = s.subject.backend.stage? :=
        congrArg Standing.seen same
      constructor
      · rw [status, disposed]
        exact lives.settled
      · rw [status, disposed]
        exact fun both => lives.building both.1
      · rw [status, disposed, stage]
        exact lives.stage
  | complete closes alive turned =>
      have building := lives.building (may trivial) alive
      have status : r.subject.status = Status.settled .completed s.subject.status :=
        congrArg Standing.status turned
      have stage : r.subject.backend.stage?
          = s.subject.backend.stage?.map Backend.Stage.finish := congrArg Standing.seen turned
      constructor
      · exact fun _ => status ▸ Status.settled_ne_building (by decide) _
      · exact fun both => absurd trivial both.2
      · intro _
        rw [stage, lives.stage alive, status, building, Option.map_map]
        rfl
  | cancel ends fails turned =>
      have status : r.subject.status = Status.settled .cancelled s.subject.status :=
        congrArg Standing.status turned
      have disposed : r.subject.disposed = s.subject.disposed := congrArg Standing.disposed turned
      have stage : r.subject.backend.stage? = s.subject.backend.stage? :=
        congrArg Standing.seen turned
      constructor
      · exact fun _ => status ▸ Status.settled_ne_building (by decide) _
      · exact fun both => absurd ends both.2
      · rw [disposed, stage, status, decide_eq_decide.mpr
          (Status.settled_cancelled_eq_completed_iff s.subject.status)]
        exact lives.stage
  | dispose gone turned =>
      constructor
      · exact fun _ => turned ▸ Status.settled_ne_building (by decide) _
      · exact fun _ alive => nomatch gone.symm.trans alive
      · exact fun alive => nomatch gone.symm.trans alive

/-- A history is completed by closing it, if that succeeds, and by nothing else. -/
theorem completed_iff
    (turn : Turn s operation r)
    (lives : Lives plan writing s)
    (may : operation.Writes → writing) :
    r.subject.status = .completed
      ↔ s.subject.status = .completed
        ∨ ∃ stop report, operation = .call (.close stop) ∧ operation.step s = .ok report r := by
  cases turn with
  | keep stays again same =>
      have status : r.subject.status = s.subject.status := congrArg Standing.status same
      rw [status]
      refine (or_iff_left ?_).symm
      rintro ⟨stop, report, rfl, -⟩
      exact absurd trivial stays
  | complete closes alive turned =>
      have status : r.subject.status = Status.settled .completed s.subject.status :=
        congrArg Standing.status turned
      rw [status, lives.building (may trivial) alive]
      exact ⟨fun _ => Or.inr ⟨_, _, rfl, closes⟩, fun _ => rfl⟩
  | cancel ends fails turned =>
      have status : r.subject.status = Status.settled .cancelled s.subject.status :=
        congrArg Standing.status turned
      rw [status, Status.settled_cancelled_eq_completed_iff]
      refine (or_iff_left ?_).symm
      rintro ⟨stop, report, close, answered⟩
      rcases fails stop close with ⟨fault, refused⟩
      cases refused.symm.trans answered
  | dispose gone turned =>
      rw [turned, Status.settled_cancelled_eq_completed_iff]
      exact (or_iff_left fun ⟨stop, report, other, _⟩ => nomatch other).symm

end Turn

/-! ## Settled histories -/

/-- A settled history changes no more than what is at hand, short of giving it up. -/
theorem Lives.rests
    (lives : Lives plan writing s)
    (may : operation.Writes → writing)
    (settled : s.subject.status ≠ .building) :
    (operation.step.reached s).subject.present = s.subject.present := by
  cases gone : s.subject.disposed with
  | true => rw [operation.reached_of_disposed gone settled]
  | false =>
      rcases operation.cases with asks | writes | rfl
      · exact (operation.leaves_of_asks asks s).seen fun seen => seen.2.present
      · exact absurd (lives.building (may writes) gone) settled
      · rcases dispose_of_alive gone with ⟨volume, backend, gives, -, -⟩
        have gives' : Operation.dispose.step s = .ok .disposed ⟨volume, givenUp s.subject backend⟩ :=
          Step.bind_of_ok gives
        rw [Step.reached_of_ok gives']
        unfold givenUp
        rw [settle_of_settled (by exact settled)]
        rfl

/-- Between questions, a history answers by one ledger. -/
theorem Kept.consulted
    {ledger : Ledger}
    (kept : Kept s ledger)
    (inRange : s.subject.InRange) :
    Consulted fun r r' => Asked s r ledger ∧ Asked s r' ledger where
  checkUsable both := by
    rw [(both.1.kept kept).checkUsable, (both.2.kept kept).checkUsable]
  start both := both.2.start.trans both.1.start.symm
  outline both := both.2.outline.trans both.1.outline.symm
  ongoing both :=
    (both.2.kept kept).keeps.ongoing.trans (both.1.kept kept).keeps.ongoing.symm
  intervalAt := by
    rintro r r' ⟨asked, asked'⟩ t quark
    rcases (asked.kept kept).intervalAt (asked.inRange inRange) t quark with
      ⟨next, answers, askedNext⟩
    rcases (asked'.kept kept).intervalAt (asked'.inRange inRange) t quark with
      ⟨next', answers', askedNext'⟩
    have start : r'.subject.start = r.subject.start := asked'.start.trans asked.start.symm
    have ending : r'.subject.currentEnd = r.subject.currentEnd :=
      congrArg Outline.currentEnd (asked'.outline.trans asked.outline.symm)
    have timely : r'.subject.checkTime t = r.subject.checkTime t := by
      unfold checkTime
      rw [start, ending]
    rw [answers, answers', timely, ending]
    exact .ofExcept ⟨asked.trans askedNext, asked'.trans askedNext'⟩ _
  snapshot := by
    rintro r r' ⟨asked, asked'⟩ t
    rcases (asked.kept kept).snapshot (asked.inRange inRange) t with ⟨next, answers, askedNext⟩
    rcases (asked'.kept kept).snapshot (asked'.inRange inRange) t with
      ⟨next', answers', askedNext'⟩
    have start : r'.subject.start = r.subject.start := asked'.start.trans asked.start.symm
    have outline := asked'.outline.trans asked.outline.symm
    have same : (Question.snapshot t).told r'.subject ledger
        = (Question.snapshot t).told r.subject ledger :=
      Question.told_congr start (congrArg Outline.currentEnd outline)
        (congrArg Outline.names outline) ledger _
    have alike : History.snapshot t r'
        = Step.ofExcept ((Question.snapshot t).told r.subject ledger) next' :=
      answers'.trans (congrArg (fun told => Step.ofExcept told next') same)
    rw [answers, alike]
    exact .ofExcept ⟨asked.trans askedNext, asked'.trans askedNext'⟩ _

/-- What is asked leaves an answering history as it is, but for what is at hand. -/
theorem Asked.next
    {ledger : Ledger}
    (asked : Asked s r ledger)
    (kept : Kept s ledger)
    (inRange : s.subject.InRange)
    (asks : operation.Asks) :
    Asked s (operation.step.reached r) ledger := by
  rcases ((kept.consulted inRange).operation ⟨asked, asked⟩ asks).reached with
    ⟨told, -, -, again, -⟩
  exact again

/-- What is known of a history that was settled when it was like `base`. -/
structure Resting
    (plan : Backend.Plan)
    (base : Placed History)
    (writing : Prop)
    (s : Placed History) : Prop where
  lives : Lives plan writing s
  present : s.subject.present = base.subject.present
  asked : ∀ {ledger}, Kept base ledger → base.subject.InRange → s.subject.disposed = false →
    Asked base s ledger

theorem Resting.next
    {base : Placed History}
    (resting : Resting plan base writing s)
    (settled : base.subject.status ≠ .building)
    (operation : Operation)
    (may : operation.Writes → writing) :
    Resting plan base (writing ∧ ¬ operation.Ends) (operation.step.reached s) := by
  have still : s.subject.status ≠ .building := by
    rw [show s.subject.status = base.subject.status from congrArg Present.status resting.present]
    exact settled
  have turn := operation.turn s
  constructor
  · exact turn.lives resting.lives may
  · exact (resting.lives.rests may still).trans resting.present
  · intro ledger kept inRange alive
    rcases turn.of_alive alive with ⟨before, stays⟩
    rcases operation.cases with asks | writes | disposes
    · exact (resting.asked kept inRange before).next kept inRange asks
    · exact absurd (resting.lives.building (may writes) before) still
    · exact absurd disposes stays

/-! ## Histories that are told what to do -/

/-- A history at hand answers by a ledger, and can be written to as long as there is a writer. -/
structure Answering
    (plan : Backend.Plan)
    (writing : Prop)
    (s : Placed History) : Prop where
  lives : Lives plan writing s
  kept : s.subject.disposed = false → ∃ ledger, Kept s ledger ∧ (writing → Open s ledger)

theorem Answering.next
    (answering : Answering plan writing s)
    (inRange : s.subject.InRange)
    (operation : Operation)
    (may : operation.Writes → writing) :
    Answering plan (writing ∧ ¬ operation.Ends) (operation.step.reached s) := by
  have turn := operation.turn s
  refine ⟨turn.lives answering.lives may, fun alive => ?_⟩
  rcases turn.of_alive alive with ⟨before, stays⟩
  rcases answering.kept before with ⟨ledger, kept, opens⟩
  rcases operation.cases with asks | writes | disposes
  · have asked := (Asked.refl kept inRange).next kept inRange asks
    exact ⟨ledger, asked.kept kept, fun both => asked.open_ (opens both.1)⟩
  · cases operation with
    | call call =>
        rcases (opens (may writes)).call inRange call with ⟨after, called⟩
        have reaches : (Operation.call call).step.reached s = call.step.reached s :=
          Step.reached_map _ Report.reply s
        rw [reaches]
        exact ⟨after, called.kept, fun both => called.open_ both.2⟩
    | look lookup => exact writes.elim
    | scan scan => exact writes.elim
    | describe => exact writes.elim
    | dispose => exact writes.elim
  · exact absurd disposes stays

/-! ## Runs -/

/--
What every operation keeps holds all along a run, as long as no operation of a
writer comes after the writer is gone.
-/
theorem Orderly.reach
    {I : Prop → Placed History → Prop}
    {P : Placed History → Prop}
    {before later : List Operation}
    (orderly : Orderly (before ++ later))
    (step : ∀ {writing s} (operation : Operation),
      P s → I writing s → (operation.Writes → writing) →
      I (writing ∧ ¬ operation.Ends) (operation.step.reached s))
    (holds : I writing s)
    (may : ∀ operation ∈ before ++ later, operation.Writes → writing)
    (along : ∀ part, part <+: before → P (after part s)) :
    ∃ still, I still (after before s) ∧ ∀ operation ∈ later, operation.Writes → still := by
  induction before generalizing s writing with
  | nil => exact ⟨writing, holds, may⟩
  | cons operation before ih =>
      rcases orderly.tail may with ⟨rest, mayLater⟩
      rcases Step.prefixes_cons P along with ⟨now, then_⟩
      rw [after_cons]
      exact ih rest (step operation now holds (may operation List.mem_cons_self)) mayLater then_

theorem Orderly.throughout
    {I : Prop → Placed History → Prop}
    {P : Placed History → Prop}
    {operations : List Operation}
    (orderly : Orderly operations)
    (step : ∀ {writing s} (operation : Operation),
      P s → I writing s → (operation.Writes → writing) →
      I (writing ∧ ¬ operation.Ends) (operation.step.reached s))
    (holds : I writing s)
    (may : ∀ operation ∈ operations, operation.Writes → writing)
    (along : ∀ part, part <+: operations → P (after part s)) :
    ∃ still, I still (after operations s) := by
  rw [← List.append_nil operations] at orderly may
  rcases orderly.reach step holds may along with ⟨still, last, -⟩
  exact ⟨still, last⟩

theorem disposed_after_iff
    (operations : List Operation)
    (s : Placed History) :
    (after operations s).subject.disposed = true
      ↔ s.subject.disposed = true ∨ .dispose ∈ operations := by
  induction operations generalizing s with
  | nil => exact (or_iff_left (List.not_mem_nil)).symm
  | cons operation operations ih =>
      rw [after_cons, ih, (operation.turn s).disposed_iff, or_assoc, List.mem_cons,
        @eq_comm _ operation]

/-- After a settled history was given up, nothing changes it any more. -/
theorem after_of_disposed
    (gone : s.subject.disposed = true)
    (settled : s.subject.status ≠ .building)
    (operations : List Operation) :
    after operations s = s := by
  induction operations with
  | nil => rfl
  | cons operation operations ih =>
      rw [after_cons, operation.reached_of_disposed gone settled]
      exact ih

/-- A history is completed in a run if and only if one of the closings succeeds. -/
theorem Lives.completed_iff
    {operations : List Operation}
    {reports : List (Except Fault Report)}
    (lives : Lives plan writing s)
    (orderly : Orderly operations)
    (may : ∀ operation ∈ operations, operation.Writes → writing)
    (done : Step.each Operation.step operations s = .ok reports r) :
    r.subject.status = .completed
      ↔ s.subject.status = .completed
        ∨ ∃ stop report, (.call (.close stop), .ok report) ∈ operations.zip reports := by
  induction operations generalizing s writing reports with
  | nil =>
      cases done
      refine (or_iff_left ?_).symm
      rintro ⟨stop, report, member⟩
      cases member
  | cons operation operations ih =>
      rcases orderly.tail may with ⟨rest, mayLater⟩
      rcases Step.each_cons_eq_ok done with ⟨told, others, rfl, outcome, done⟩
      have mayNow := may operation List.mem_cons_self
      have turn := operation.turn s
      have closes : ∀ stop report, (operation = .call (.close stop)
            ∧ operation.step s = .ok report (operation.step.reached s))
          ↔ ((.call (.close stop), .ok report) : Operation × Except Fault Report)
            = (operation, told) := by
        intro stop report
        rw [Step.eq_ok_iff_of_outcome outcome, Prod.mk.injEq, @eq_comm _ operation, @eq_comm _ told]
      rw [ih (turn.lives lives mayNow) rest mayLater done, turn.completed_iff lives mayNow]
      simp only [List.zip_cons_cons, List.mem_cons, exists_or, closes, or_assoc]

section Runs

variable {before later : List Operation}

theorem Lives.reach
    (lives : Lives plan True s)
    (orderly : Orderly (before ++ later)) :
    ∃ still, Lives plan still (after before s) ∧ ∀ operation ∈ later, operation.Writes → still :=
  orderly.reach (P := fun _ => True)
    (fun operation _ lives may => (operation.turn _).lives lives may)
    lives (fun _ _ _ => trivial) fun _ _ => trivial

theorem Lives.throughout
    {operations : List Operation}
    (lives : Lives plan True s)
    (orderly : Orderly operations) :
    ∃ still, Lives plan still (after operations s) :=
  orderly.throughout (P := fun _ => True)
    (fun operation _ lives may => (operation.turn _).lives lives may)
    lives (fun _ _ _ => trivial) fun _ _ => trivial

/-- What is done after a history is settled leads to a history that was settled then. -/
theorem Lives.resting
    (lives : Lives plan True s)
    (orderly : Orderly (before ++ later))
    (settled : (after before s).subject.status ≠ .building) :
    ∃ still, Resting plan (after before s) still (after (before ++ later) s) := by
  rcases lives.reach orderly with ⟨still, livesThen, may⟩
  have start : Resting plan (after before s) still (after before s) :=
    ⟨livesThen, rfl, fun kept inRange _ => .refl kept inRange⟩
  have orderlyLater : Orderly later := (List.pairwise_append.mp orderly).2.1
  rw [after_append]
  exact orderlyLater.throughout (P := fun _ => True)
    (fun operation _ resting may => resting.next settled operation may) start may
    (fun _ _ => trivial)

theorem Answering.throughout
    {operations : List Operation}
    (answering : Answering plan True s)
    (orderly : Orderly operations)
    (inRange : ∀ part, part <+: operations → (after part s).subject.InRange) :
    ∃ still, Answering plan still (after operations s) :=
  orderly.throughout (P := fun r => r.subject.InRange)
    (fun operation inRange answering may => answering.next inRange operation may) answering
    (fun _ _ _ => trivial) inRange

/-- A settled history gives the same answers until it is given up. -/
theorem Answering.matched
    {question : Operation}
    (answering : Answering plan True s)
    (orderly : Orderly (before ++ later))
    (settled : (after before s).subject.status ≠ .building)
    (alive : (after (before ++ later) s).subject.disposed = false)
    (inRange : ∀ part, part <+: before → (after part s).subject.InRange)
    (asks : question.Asks) :
    Step.Matched (fun _ _ => True)
      (question.step (after before s)) (question.step (after (before ++ later) s)) := by
  rcases answering.lives.resting orderly settled with ⟨last, resting⟩
  rcases answering.throughout (List.pairwise_append.mp orderly).1 inRange with
    ⟨still, answeringThen⟩
  have aliveThen : (after before s).subject.disposed = false := by
    rw [after_append, Bool.eq_false_iff] at alive
    rw [Bool.eq_false_iff]
    exact fun gone => alive ((disposed_after_iff later _).mpr (Or.inl gone))
  rcases answeringThen.kept aliveThen with ⟨ledger, kept, -⟩
  have inRangeThen := inRange before (List.prefix_refl before)
  have related := resting.asked kept inRangeThen alive
  exact ((kept.consulted inRangeThen).operation ⟨.refl kept inRangeThen, related⟩ asks).mono
    fun _ => trivial

end Runs

/-- Giving a history over a file up takes the name of the file, unless the history is completed. -/
theorem Lives.volume_of_dispose
    {name : String}
    (lives : Lives plan writing s)
    (named : plan.name? = some name)
    (alive : s.subject.disposed = false) :
    (Operation.dispose.step.reached s).volume
      = if s.subject.status = .completed then s.volume else s.volume.unlink name := by
  have stage := lives.stage alive
  rw [named] at stage
  rcases Backend.dispose_of_stage (s := ⟨s.volume, s.subject.backend⟩) stage with ⟨backend, gives⟩
  have reaches : Operation.dispose.step s = .ok .disposed _ :=
    Step.bind_of_ok (dispose_of_backend alive gives)
  rw [Step.reached_of_ok reaches]
  simp only [decide_eq_true_eq]

/-- A new history answers by a ledger. -/
theorem answering_of_create
    {id : String}
    {start : Int}
    {volume made : Volume}
    {history : History}
    (sound : volume.Sound)
    (created : create id start plan volume = .ok (made, history)) :
    Answering plan True ⟨made, history⟩ := by
  rcases open_of_create sound created with ⟨open_, -⟩
  exact ⟨lives_of_create created, fun _ => ⟨_, open_.kept, fun _ => open_⟩⟩

/-! ## Lives -/

/-- The life of a history that is new in `s`, whose backend was made by a plan. -/
structure Lifecycle
    (plan : Backend.Plan)
    (s : Placed History) : Prop where
  begins : s.subject.status = .building
  /-- The history is completed if and only if one of its closings succeeded. -/
  completes : ∀ {operations reports r},
    Orderly operations →
    Step.each Operation.step operations s = .ok reports r →
    (r.subject.status = .completed
      ↔ ∃ stop report, (.call (.close stop), .ok report) ∈ operations.zip reports)
  /-- A settled history stays settled, and with it all that its writer changed. -/
  rests : ∀ {before later},
    Orderly (before ++ later) →
    (after before s).subject.status ≠ .building →
    (after (before ++ later) s).subject.present = (after before s).subject.present
  /-- A settled history gives the same answers until it is given up. -/
  answers : ∀ {before later} {question : Operation},
    Orderly (before ++ later) →
    (after before s).subject.status ≠ .building →
    .dispose ∉ before ++ later →
    (∀ part, part <+: before → (after part s).subject.InRange) →
    question.Asks →
    Step.Matched (fun _ _ => True)
      (question.step (after before s)) (question.step (after (before ++ later) s))
  /-- A history that was given up refuses whatever is asked about the present and the past. -/
  refuses : ∀ {operations},
    Orderly operations →
    .dispose ∈ operations →
    (∀ question : Question,
      question.step (after operations s) = .error .disposed (after operations s))
      ∧ ∀ scan : Scan, scan.step (after operations s) = .error .disposed (after operations s)
  /-- A history that was given up stays as it is, and its volume with it. -/
  ends : ∀ {before later},
    Orderly (before ++ later) →
    .dispose ∈ before →
    after (before ++ later) s = after before s
  /-- As long as a history is at hand, its file is finished if and only if it is completed. -/
  finished : ∀ {operations},
    Orderly operations →
    .dispose ∉ operations →
    (after operations s).subject.backend.stage? = plan.name?.map fun name =>
      ⟨name, false, decide ((after operations s).subject.status = .completed)⟩
  /-- Giving a history up leaves a finished file where it is and removes an unfinished one. -/
  frees : ∀ {before later name},
    Orderly (before ++ .dispose :: later) →
    .dispose ∉ before →
    plan.name? = some name →
    (after (before ++ .dispose :: later) s).volume
      = if (after before s).subject.status = .completed then (after before s).volume
        else (after before s).volume.unlink name

/-- Whatever is done to a new history, as long as it has one writer, it lives this life. -/
theorem lifecycle_of_created
    {id : String}
    {start : Int}
    {volume made : Volume}
    {history : History}
    (sound : volume.Sound)
    (created : create id start plan volume = .ok (made, history)) :
    Lifecycle plan ⟨made, history⟩ := by
  have lives := lives_of_create created
  rcases open_of_create sound created with ⟨open_, outline, -⟩
  have answering := answering_of_create sound created
  have begins : history.status = .building := congrArg Outline.status outline
  have gone : ∀ operations, (after operations ⟨made, history⟩).subject.disposed = true
      ↔ .dispose ∈ operations := by
    intro operations
    rw [disposed_after_iff, open_.alive]
    exact or_iff_right Bool.false_ne_true
  have atHand : ∀ {operations}, .dispose ∉ operations →
      (after operations ⟨made, history⟩).subject.disposed = false := by
    intro operations absent
    rw [Bool.eq_false_iff]
    exact fun disposed => absent ((gone operations).mp disposed)
  constructor
  · exact begins
  · intro operations reports r orderly done
    rw [lives.completed_iff orderly (fun _ _ _ => trivial) done, begins]
    exact or_iff_right (by decide)
  · intro before later orderly settled
    rcases lives.resting orderly settled with ⟨still, resting⟩
    exact resting.present
  · intro before later question orderly settled absent inRange asks
    exact answering.matched orderly settled (atHand absent) inRange asks
  · intro operations orderly disposed
    have gone := (gone operations).mpr disposed
    exact ⟨fun question => question.step_of_disposed gone, fun scan => scan.step_of_disposed gone⟩
  · intro before later orderly disposed
    have gone := (gone before).mpr disposed
    rcases lives.reach orderly with ⟨still, livesThen, -⟩
    rw [after_append, after_of_disposed gone (livesThen.settled gone)]
  · intro operations orderly absent
    rcases lives.throughout orderly with ⟨still, livesThen⟩
    exact livesThen.stage (atHand absent)
  · intro before later name orderly absent named
    rcases lives.reach orderly with ⟨still, livesThen, may⟩
    have turn := Operation.dispose.turn (after before ⟨made, history⟩)
    have livesThere := turn.lives livesThen (may .dispose List.mem_cons_self)
    have gone := turn.disposed_iff.mpr (Or.inr rfl)
    rw [after_append, after_cons, after_of_disposed gone (livesThere.settled gone)]
    exact livesThen.volume_of_dispose named (atHand absent)

theorem completed_in_dealings :
    ∃ made file,
      create "cramped" 0 (.file "cramped" cramping) .empty = .ok (made, file)
        ∧ (after (dealings.take 13) ⟨made, file⟩).subject.status = .completed :=
  ⟨_, _, rfl, by decide +kernel⟩

/-- Closed by its thirteenth operation and given up by the fifteenth, a history keeps its file. -/
theorem lifecycle_in_dealings :
    ∃ made file,
      Volume.empty.Sound
        ∧ create "cramped" 0 (.file "cramped" cramping) .empty = .ok (made, file)
        ∧ (after (dealings.take 13) ⟨made, file⟩).subject.status = .completed
        ∧ (after (dealings.take 13 ++ dealings.drop 13) ⟨made, file⟩).subject.present
          = (after (dealings.take 13) ⟨made, file⟩).subject.present
        ∧ Step.Matched (fun _ _ => True)
          ((Operation.call (.ask (.interval 3 1))).step (after (dealings.take 13) ⟨made, file⟩))
          ((Operation.call (.ask (.interval 3 1))).step
            (after (dealings.take 13 ++ [.describe]) ⟨made, file⟩))
        ∧ (Scan.count 0 100).step (after dealings ⟨made, file⟩)
          = .error .disposed (after dealings ⟨made, file⟩)
        ∧ (after (dealings.take 13 ++ .dispose :: [.describe]) ⟨made, file⟩).volume
          = (after (dealings.take 13) ⟨made, file⟩).volume
        ∧ (after ([] ++ .dispose :: dealings) ⟨made, file⟩).volume = made.unlink "cramped" := by
  rcases completed_in_dealings with ⟨made, file, created, completed⟩
  rcases inRange_dealings with ⟨made', file', created', inRange, -⟩
  cases created.symm.trans created'
  have sound : Volume.empty.Sound := by decide
  have life : Lifecycle (.file "cramped" cramping) ⟨made, file⟩ :=
    lifecycle_of_created sound created
  have settled : (after (dealings.take 13) ⟨made, file⟩).subject.status ≠ .building := by
    rw [completed]
    decide
  have within : ∀ part, part <+: dealings.take 13 → (after part ⟨made, file⟩).subject.InRange := by
    intro part begins
    have begins := begins.trans (List.take_prefix 13 dealings)
    exact (inRange part ((List.mem_inits part dealings).mpr begins)).1
  have absent : .dispose ∉ dealings.take 13 := by simp [dealings]
  refine ⟨made, file, sound, created, completed, life.rests (by decide) settled,
    life.answers (by decide) settled ?_ within not_false, ?_, ?_, ?_⟩
  · simp [dealings]
  · exact (life.refuses (by decide) (List.mem_of_getElem? (i := 14) rfl)).2 _
  · rw [life.frees (by decide) absent rfl, if_pos completed]
  · rw [life.frees (by decide) List.not_mem_nil rfl]
    refine if_neg ?_
    show file.status ≠ .completed
    rw [show file.status = .building from life.begins]
    decide

end Chronicle.History
