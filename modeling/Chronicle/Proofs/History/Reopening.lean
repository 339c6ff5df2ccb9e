import Chronicle.Proofs.History.Retelling
import Chronicle.Proofs.History.Siting
import Chronicle.Proofs.History.Twins

/-!
# Opening a history again

The file of a history that was closed with success has all of it.  A history
opened from the file, or from a copy of it, keeps the ledger that the closed
one keeps, under the same names.  Neither can therefore be told from the other
by what is asked about instants, attributes and names.
-/

namespace Chronicle.History

/-- Two histories with the same times and names that answer all questions alike. -/
structure Agree (s other : Placed History) : Prop where
  start : other.subject.start = s.subject.start
  currentEnd : other.subject.currentEnd = s.subject.currentEnd
  names : other.subject.names = s.subject.names
  ongoing : ∀ quark, other.subject.ongoingValue quark = s.subject.ongoingValue quark
  answers : ∀ questions, ∃ told reached otherReached,
    Step.each Question.step questions s = .ok told reached
      ∧ Step.each Question.step questions other = .ok told otherReached

/-- Histories that keep one ledger, up to the same end and under the same names, agree. -/
theorem Kept.agree
    {s other : Placed History}
    {ledger : Ledger}
    (kept : Kept s ledger)
    (inRange : s.subject.InRange)
    (otherKept : Kept other ledger)
    (otherInRange : other.subject.InRange)
    (ending : other.subject.currentEnd = s.subject.currentEnd)
    (names : other.subject.names = s.subject.names) :
    Agree s other := by
  have start : other.subject.start = s.subject.start :=
    otherKept.keeps.start.trans kept.keeps.start.symm
  constructor
  · exact start
  · exact ending
  · exact names
  · intro quark
    have ongoing : other.subject.recording.ongoing = s.subject.recording.ongoing :=
      otherKept.keeps.ongoing.trans kept.keeps.ongoing.symm
    unfold ongoingValue
    rw [otherKept.checkUsable, kept.checkUsable, ongoing]
  · intro questions
    rcases kept.tells inRange questions with ⟨reached, told, -⟩
    rcases otherKept.tells otherInRange questions with ⟨otherReached, otherTold, -⟩
    have same : (questions.map fun question => question.told other.subject ledger)
        = questions.map fun question => question.told s.subject ledger :=
      List.map_congr_left fun question _ => Question.told_congr start ending names ledger question
    rw [same] at otherTold
    exact ⟨_, reached, otherReached, told, otherTold⟩

/-- A history over a tree that was opened again. -/
def ofReopened
    (id name : String)
    (opened : Tree × Namespace) :
    History where
  id := id
  names := opened.2
  recording :=
    ⟨.closed opened.1.start opened.1.stop opened.2.size,
      .ofBackend (.stored ⟨name, opened.1, false⟩)⟩
  currentEnd := opened.1.stop
  disposed := false
  status := .completed

/-- A history is opened again if its tree is, and fails to be for the same reason. -/
theorem reopen_eq_map
    (id name : String)
    (version : Nat)
    (volume : Volume) :
    reopen id name version volume
      = (Tree.reopen name version volume).map (ofReopened id name) := by
  unfold reopen Backend.reopen
  cases Tree.reopen name version volume with
  | ok opened => rfl
  | error fault => rfl

/-- What keeps a history from being opened again keeps its tree. -/
theorem tree_reopen_of_error
    {id name : String}
    {version : Nat}
    {volume : Volume}
    {fault : Fault}
    (failed : reopen id name version volume = .error fault) :
    Tree.reopen name version volume = .error fault := by
  rw [reopen_eq_map] at failed
  cases opened : Tree.reopen name version volume with
  | ok pair =>
      rw [opened] at failed
      cases failed
  | error other =>
      rw [opened] at failed
      cases failed
      rfl

/-- A history that is opened again has a tree that is. -/
theorem exists_tree_of_reopen
    {id name : String}
    {version : Nat}
    {volume : Volume}
    {history : History}
    (reopens : reopen id name version volume = .ok history) :
    ∃ opened, Tree.reopen name version volume = .ok opened := by
  rw [reopen_eq_map] at reopens
  cases opened : Tree.reopen name version volume with
  | ok pair => exact ⟨pair, rfl⟩
  | error fault =>
      rw [opened] at reopens
      cases reopens

variable {s closed : Placed History} {ledger : Ledger} {stop : Int} {site : Backend.Site}

/-- A history that was completed at `stop` and whose file, if it has one, tells everything. -/
structure Whole
    (s : Placed History)
    (ledger : Ledger)
    (stop : Int) : Prop where
  kept : Kept s ledger
  inRange : s.subject.InRange
  complete : Backend.Complete ⟨s.volume, s.subject.backend⟩ s.subject.names ledger.taken
  ending : s.subject.currentEnd = stop
  begun : s.subject.start ≤ stop
  last : s.subject.backend.stop = stop
  ongoing : ledger.ongoing = .closed s.subject.start stop s.subject.names.size

/--
Closing with success completes a history.  The slots that it leaves are those
of a history that is closed from the first, unless there is an attribute and
no instant after the last.
-/
theorem Open.whole_of_close
    (open_ : Open s ledger)
    (closes : History.close stop s = .ok () closed)
    (inRange : closed.subject.InRange)
    (dated : closed.subject.names.size = 0 ∨ stop < latestInstant) :
    Whole closed ((ledger.close stop).finish stop) stop := by
  rcases open_.close_eq_ok closes with ⟨onTime, kept, outline, complete⟩
  have names : closed.subject.names = s.subject.names := congrArg Outline.names outline
  have calm := open_.goes.last_le
  have begun := open_.goes.current.start_le
  have named : closed.subject.names.size = ledger.ongoing.slots.size :=
    kept.named.trans (Ledger.size_close ledger stop)
  have ongoing : ((ledger.close stop).finish stop).ongoing
      = .closed ledger.ongoing.start stop ledger.ongoing.slots.size :=
    Ledger.ongoing_close_eq_closed open_.goes.current onTime (named ▸ dated)
  have start : closed.subject.start = ledger.ongoing.start := by
    refine kept.keeps.start.trans ?_
    rw [ongoing]
    rfl
  have last : ((ledger.close stop).finish stop).stop = stop :=
    Int.max_eq_right (Ledger.stop_close_le (by omega))
  constructor
  · exact kept
  · exact inRange
  · rw [names]
    exact complete
  · exact congrArg Outline.currentEnd outline
  · omega
  · exact kept.keeps.stop.trans last
  · rw [start, named]
    exact ongoing

namespace Whole

/-- A history that was completed over a file can be given up, and the file stays as it is. -/
theorem exists_dispose
    {asked : Placed History}
    (whole : Whole s ledger stop)
    (sited : s.subject.backend.site? = some site)
    (leaves : Asked s asked ledger) :
    ∃ gone, dispose asked = .ok () gone ∧ gone.volume = asked.volume := by
  rcases dispose_of_alive (leaves.kept whole.kept).alive with ⟨volume, backend, gives, -, stays⟩
  refine ⟨_, gives, stays ?_⟩
  intro taking
  have bounded := Backend.maxIntervalSize?_of_site sited
  exact whole.complete.not_taking bounded (leaves.backend.taking.mp taking)

/-- A history opened again keeps the ledger of the completed one, wherever its file is found. -/
theorem exists_reopen
    {base : Volume}
    {name : String}
    (whole : Whole s ledger stop)
    (sited : s.subject.backend.site? = some site)
    (found : s.volume.lookup? site.name = some site.file)
    (told : site.config.version < 4294967296)
    (copied : base.image? name = s.volume.image? site.name)
    (id : String) :
    ∃ reopened,
      History.reopen id name site.config.version base = .ok reopened
        ∧ Kept ⟨base, reopened⟩ ledger
        ∧ reopened.InRange
        ∧ reopened.outline
          = ⟨id, s.subject.names, s.subject.currentEnd, false, .completed⟩
        ∧ ∀ version, version ≠ site.config.version →
          History.reopen id name version base
            = .error (.unsupportedVersion site.config.version) := by
  have kept := whole.kept
  have keeps := kept.keeps
  have few : s.subject.names.size ≤ 2147483648 := by
    have few := whole.inRange.few
    rwa [keeps.ongoing, ← kept.named] at few
  have begun : s.subject.backend.start ≤ s.subject.backend.stop := by
    rw [whole.last]
    exact whole.begun
  have image : base.image? name = some (s.volume.content site.file) :=
    copied.trans (Volume.image?_eq_some_iff.mpr ⟨site.file, found, rfl⟩)
  rcases Volume.image?_eq_some_iff.mp image with ⟨file, copyFound, same⟩
  rcases whole.complete.reopen whole.inRange.backend (kept.numbered whole.inRange) sited begun told
    few copyFound same with
    ⟨backend, reopens, holds, backendInRange, sameStart, sameEnd, others⟩
  have slots : Ongoing.closed backend.start backend.stop s.subject.names.size
      = ledger.ongoing := by
    rw [whole.ongoing, sameStart, sameEnd.trans whole.last]
    rfl
  refine ⟨{
      id := id
      names := s.subject.names
      recording := ⟨.closed backend.start backend.stop s.subject.names.size, .ofBackend backend⟩
      currentEnd := backend.stop
      disposed := false
      status := .completed }, ?_, ?_, ?_, ?_, ?_⟩
  · unfold History.reopen
    rw [reopens]
    rfl
  · refine ⟨rfl, ⟨slots, rfl, ?_, holds, ?_, keeps.within, keeps.tiled⟩, kept.named⟩
    · exact sameStart.trans keeps.start
    · exact sameEnd.trans keeps.stop
  · refine ⟨?_, backendInRange⟩
    show (Ongoing.closed backend.start backend.stop s.subject.names.size).slots.size ≤ _
    rw [slots, ← kept.named]
    exact few
  · have ending : backend.stop = s.subject.currentEnd :=
      sameEnd.trans (whole.last.trans whole.ending.symm)
    exact congrArg (fun stop => Outline.mk id s.subject.names stop false .completed) ending
  · intro version different
    unfold History.reopen
    rw [others version different]
    rfl

end Whole

/-- A history that is closed with success is where it was made, if it was so before. -/
theorem sited_of_ground
    {id name : String}
    {start : Int}
    {config : Tree.Config}
    {volume made : Volume}
    {history : History}
    (created : create id start (.file name config) volume = .ok (made, history))
    (stays : ground Volume.names s = ground Volume.names ⟨made, history⟩)
    (closes : History.close stop s = .ok () closed) :
    ∃ file,
      closed.volume.lookup? name = some file
        ∧ closed.subject.backend.site? = some ⟨name, file, { config with start }⟩ := by
  rcases ground_of_create created with ⟨file, found, placed⟩
  have end_ := leaves_close stop s
  unfold Step.Leaves at end_
  rw [Step.reached_of_ok closes, stays, placed] at end_
  rcases Prod.mk.inj end_ with ⟨names, site⟩
  refine ⟨file, ?_, site⟩
  unfold Volume.lookup? at found ⊢
  rw [names]
  exact found

/-- A new history that is closed with success is where it was made, whatever its writer did. -/
theorem sited_of_close
    {id name : String}
    {start : Int}
    {config : Tree.Config}
    {volume made : Volume}
    {history : History}
    {calls : List Call}
    (created : create id start (.file name config) volume = .ok (made, history))
    (closes : History.close stop ((Step.each Call.step calls).reached ⟨made, history⟩)
      = .ok () closed) :
    ∃ file,
      closed.volume.lookup? name = some file
        ∧ closed.subject.backend.site? = some ⟨name, file, { config with start }⟩ :=
  sited_of_ground created (Step.leaves_each Call.leaves_step calls ⟨made, history⟩) closes

/-- A new history that is closed with success before its writer ended otherwise is completed. -/
theorem exists_whole
    {id : String}
    {start : Int}
    {plan : Backend.Plan}
    {volume made : Volume}
    {history : History}
    {calls : List Call}
    (sound : volume.Sound)
    (created : create id start plan volume = .ok (made, history))
    (stays : ∀ call ∈ calls, ¬ call.Ends)
    (inRange : ∀ before, before <+: calls →
      ((Step.each Call.step before).reached ⟨made, history⟩).subject.InRange)
    (closes : History.close stop ((Step.each Call.step calls).reached ⟨made, history⟩)
      = .ok () closed)
    (closedInRange : closed.subject.InRange)
    (dated : closed.subject.names.size = 0 ∨ stop < latestInstant) :
    ∃ ledger, Whole closed ledger stop := by
  rcases open_of_create sound created with ⟨open_, -⟩
  rcases open_.stay stays inRange with ⟨ledger, openLast⟩
  exact ⟨_, openLast.whole_of_close closes closedInRange dated⟩

/--
Opening a history again loses and changes nothing.  After a history over a
file was closed with success, asked and given up, it can be opened wherever
its file is found unchanged, and then agrees with what it was when it was
closed; a provider of another version is told the version of the file.
-/
theorem reopens_of_created
    {id name : String}
    {start : Int}
    {config : Tree.Config}
    {volume made : Volume}
    {history : History}
    {calls : List Call}
    (sound : volume.Sound)
    (created : create id start (.file name config) volume = .ok (made, history))
    (told : config.version < 4294967296)
    (stays : ∀ call ∈ calls, ¬ call.Ends)
    (inRange : ∀ before, before <+: calls →
      ((Step.each Call.step before).reached ⟨made, history⟩).subject.InRange)
    (closes : History.close stop ((Step.each Call.step calls).reached ⟨made, history⟩)
      = .ok () closed)
    (closedInRange : closed.subject.InRange)
    (dated : closed.subject.names.size = 0 ∨ stop < latestInstant) :
    (∀ questions,
        ((Step.each Question.step questions).reached closed).volume = closed.volume
          ∧ ∃ gone, dispose ((Step.each Question.step questions).reached closed) = .ok () gone
            ∧ gone.volume = closed.volume)
      ∧ ∀ base otherName otherId, base.image? otherName = closed.volume.image? name →
        (∃ reopened, History.reopen otherId otherName config.version base = .ok reopened
          ∧ Agree closed ⟨base, reopened⟩)
        ∧ ∀ version, version ≠ config.version →
          History.reopen otherId otherName version base
            = .error (.unsupportedVersion config.version) := by
  rcases exists_whole sound created stays inRange closes closedInRange dated with ⟨ledger, whole⟩
  rcases sited_of_close created closes with ⟨file, found, sited⟩
  constructor
  · intro questions
    rcases whole.kept.tells whole.inRange questions with ⟨asked, answered, leaves⟩
    have same : asked.volume = closed.volume := by
      have leavesAll := Step.leaves_each Question.leaves_step questions closed
      unfold Step.Leaves at leavesAll
      rw [Step.reached_of_ok answered] at leavesAll
      exact congrArg Prod.fst leavesAll
    rw [Step.reached_of_ok answered]
    rcases whole.exists_dispose sited leaves with ⟨gone, gives, stays⟩
    exact ⟨same, gone, gives, stays.trans same⟩
  · intro base otherName otherId copied
    rcases whole.exists_reopen sited found told copied otherId with
      ⟨reopened, reopens, kept, reopenedInRange, outline, others⟩
    exact ⟨⟨reopened, reopens, whole.kept.agree whole.inRange kept reopenedInRange
      (congrArg Outline.currentEnd outline) (congrArg Outline.names outline)⟩, others⟩

theorem reopens_chores :
    ∃ made history closed gone reopened,
      create "cramped" 0 (.file "cramped" cramping) .empty = .ok (made, history)
        ∧ History.close 9 ((Step.each Call.step chores).reached ⟨made, history⟩) = .ok () closed
        ∧ dispose closed = .ok () gone
        ∧ History.reopen "again" "cramped" 0 gone.volume = .ok reopened
        ∧ Agree closed ⟨gone.volume, reopened⟩
        ∧ History.reopen "again" "cramped" 1 gone.volume = .error (.unsupportedVersion 0) := by
  rcases inRange_chores with ⟨made, history, created, inRange, -, ends⟩
  have stays : ∀ call ∈ chores, ¬ call.Ends := by decide
  cases closes : History.close 9 ((Step.each Call.step chores).reached ⟨made, history⟩) with
  | error fault closed =>
      rw [closes] at ends
      cases ends
  | ok a closed =>
      rw [closes] at ends
      rcases reopens_of_created (by decide) created (by decide) stays
        (fun before begins => inRange before ((List.mem_inits before chores).mpr begins)) closes
        (of_decide_eq_true ends) (Or.inr (by decide)) with ⟨gives, reopens⟩
      rcases gives [] with ⟨-, gone, disposes, same⟩
      rcases reopens gone.volume "cramped" "again" (by rw [same]) with
        ⟨⟨reopened, opened, agree⟩, others⟩
      exact ⟨made, history, closed, gone, reopened, created, closes, disposes, opened, agree,
        others 1 (by decide)⟩

end Chronicle.History
