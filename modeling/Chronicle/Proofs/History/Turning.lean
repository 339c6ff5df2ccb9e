import Chronicle.Proofs.Backend.Stage
import Chronicle.Proofs.History.Equivalence
import Chronicle.Proofs.History.Siting

/-!
# What turns the life of a history

Of all that can be done to a history, only closing it, stopping it and giving
it up tell on how far it has come.  Each of them settles a history that is
being built.  A history that was given up tells nothing and stays as it is.
-/

namespace Chronicle

namespace Step

variable {σ γ α : Type} {view : Placed σ → γ} {step : Step σ α} {s : Placed σ}

/-- A step that leaves a view alone goes like itself, with the view as before. -/
theorem Leaves.matched
    {seen : γ}
    (leaves : Leaves view step s)
    (before : view s = seen) :
    Matched (fun s s' => s' = s ∧ view s = seen) (step s) (step s) := by
  rcases leaves.ends with ⟨a, after, ends, same⟩ | ⟨fault, after, ends, same⟩
  · rw [ends]
    exact .ok a ⟨rfl, same.trans before⟩
  · rw [ends]
    exact .error fault ⟨rfl, same.trans before⟩

end Step

namespace History

variable {s : Placed History}

/-! ## Asking -/

theorem consulted_aside
    (seen : Volume × History) :
    Consulted fun s s' => s' = s ∧ aside s = seen where
  checkUsable related := by rw [related.1]
  start related := by rw [related.1]
  outline related := by rw [related.1]
  ongoing related := by rw [related.1]
  intervalAt related t quark := by
    rw [related.1]
    exact (leaves_intervalAt t quark _).matched related.2
  snapshot related t := by
    rw [related.1]
    exact (leaves_snapshot t _).matched related.2

/-- What is asked changes nothing but which nodes are at hand. -/
theorem Operation.leaves_of_asks
    {operation : Operation}
    (asks : operation.Asks)
    (s : Placed History) :
    Step.Leaves aside operation.step s := by
  rcases ((consulted_aside (aside s)).operation ⟨rfl, rfl⟩ asks).reached with
    ⟨told, outcome, outcome', -, same⟩
  exact same

/-- An operation asks, is one of the writer, or gives the history up. -/
theorem Operation.cases
    (operation : Operation) :
    operation.Asks ∨ operation.Writes ∨ operation = .dispose := by
  cases operation with
  | call call =>
      by_cases writes : call.Writes
      · exact Or.inr (Or.inl writes)
      · exact Or.inl writes
  | look lookup => exact Or.inl trivial
  | scan scan => exact Or.inl trivial
  | describe => exact Or.inl trivial
  | dispose => exact Or.inr (Or.inr rfl)

/-! ## Closing and giving up -/

theorem Status.settled_ne_building
    {status : Status}
    (ends : status ≠ .building)
    (now : Status) :
    status.settled now ≠ .building := by
  unfold settled
  split
  · exact ends
  · assumption

/-- A history is settled once. -/
theorem settle_of_settled
    {history : History}
    (settled : history.status ≠ .building)
    (status : Status) :
    settle status history = history :=
  if_neg settled

namespace Standing

/-- The standing after settling. -/
def settle
    {γ : Type}
    (status : Status)
    (standing : Standing γ) :
    Standing γ :=
  { standing with status := status.settled standing.status }

/-- The standing after finishing. -/
def finish (standing : Standing (Option Backend.Stage)) : Standing (Option Backend.Stage) :=
  { standing with seen := standing.seen.map Backend.Stage.finish }

end Standing

theorem standing_settle
    {γ : Type}
    (view : Placed Backend → γ)
    (status : Status)
    (s : Placed History) :
    standing view ⟨s.volume, settle status s.subject⟩ = (standing view s).settle status := by
  have outline := outline_settle status s.subject
  have settled : (settle status s.subject).status = status.settled s.subject.status :=
    congrArg Outline.status outline
  have disposed : (settle status s.subject).disposed = s.subject.disposed :=
    congrArg Outline.disposed outline
  have id : (settle status s.subject).id = s.subject.id := congrArg Outline.id outline
  unfold standing Standing.settle
  rw [beneath_settle, settled, disposed]
  simp only [id]

/-- How far a history has come is seen next to it as well. -/
theorem standing_of_aside
    (s : Placed History) :
    standing Backend.staged s
      = ⟨(aside s).2.id, (aside s).2.status, (aside s).2.disposed, (aside s).2.backend.stage?⟩ :=
  congrArg (Standing.mk s.subject.id s.subject.status s.subject.disposed)
    (Backend.stage?_bare s.subject.backend).symm

/-- The backend of a history is finished if finishing succeeds, and as far as before if not. -/
theorem finish_cases
    (stop : Int)
    (ns : Namespace)
    (s : Placed History) :
    (∃ reached, onStore (Store.finish stop ns) s = .ok () reached
        ∧ standing Backend.staged reached = (standing Backend.staged s).finish)
      ∨ ∃ fault reached, onStore (Store.finish stop ns) s = .error fault reached
        ∧ standing Backend.staged reached = standing Backend.staged s := by
  have start : Store.finish stop ns ⟨s.volume, s.subject.recording.store⟩
      = (Step.ofExcept s.subject.recording.store.checkHealthy >>= fun _ =>
        Store.onBackend (Backend.finish stop ns)) ⟨s.volume, s.subject.recording.store⟩ := rfl
  cases healthy : s.subject.recording.store.checkHealthy with
  | error fault =>
      rw [healthy] at start
      exact Or.inr ⟨fault, s, onRecording_of_error (Step.onPart_of_error start), rfl⟩
  | ok done =>
      rw [healthy] at start
      rcases Backend.finish_cases stop ns ⟨s.volume, s.subject.backend⟩ with
        ⟨⟨volume, backend⟩, finishes, finished⟩ | ⟨fault, ⟨volume, backend⟩, fails, same⟩
      · refine Or.inl ⟨⟨volume, s.subject.withBackend backend⟩, ?_, ?_⟩
        · have done : Store.onBackend (Backend.finish stop ns)
              ⟨s.volume, s.subject.recording.store⟩ = _ := Step.onPart_of_ok finishes
          exact onRecording_of_ok (Step.onPart_of_ok (start.trans done))
        · exact congrArg (Standing.mk s.subject.id s.subject.status s.subject.disposed) finished
      · refine Or.inr ⟨fault, ⟨volume, s.subject.withBackend backend⟩, ?_, ?_⟩
        · have failed : Store.onBackend (Backend.finish stop ns)
              ⟨s.volume, s.subject.recording.store⟩ = _ := Step.onPart_of_error fails
          exact onRecording_of_error (Step.onPart_of_error (start.trans failed))
        · exact congrArg (Standing.mk s.subject.id s.subject.status s.subject.disposed) same

theorem closing_cases
    (stop : Int)
    (s : Placed History) :
    (∃ closed, closing stop s = .ok () closed
        ∧ s.subject.disposed = false
        ∧ standing Backend.staged closed = (standing Backend.staged s).finish.settle .completed)
      ∨ ∃ fault reached, closing stop s = .error fault reached
        ∧ standing Backend.staged reached = standing Backend.staged s := by
  unfold closing
  rw [Step.subject_bind_apply]
  cases gone : s.subject.disposed with
  | true =>
      rw [checkUsable_of_disposed gone]
      exact Or.inr ⟨.disposed, s, rfl, rfl⟩
  | false =>
      cases usable : s.subject.checkUsable with
      | error fault => exact Or.inr ⟨fault, s, rfl, rfl⟩
      | ok done =>
          rw [Step.ofExcept_ok, Step.pure_bind_apply]
          rcases (leaves_onRecording
              (Recording.leaves_close Backend.leaves_staged_insert stop) s).ends with
            ⟨_, recorded, records, same⟩ | ⟨fault, recorded, failed, same⟩
          · rw [Step.bind_of_ok records, Step.subject_bind_apply]
            rcases finish_cases stop recorded.subject.names recorded with
              ⟨finished, finishes, finishedSame⟩ | ⟨fault, finished, failed, finishedSame⟩
            · rw [Step.bind_of_ok finishes]
              refine Or.inl ⟨_, rfl, rfl, ?_⟩
              rw [← same, ← finishedSame]
              exact standing_settle Backend.staged .completed ⟨finished.volume,
                { finished.subject with currentEnd := max finished.subject.currentEnd stop }⟩
            · rw [Step.bind_of_error failed]
              exact Or.inr ⟨fault, finished, rfl, finishedSame.trans same⟩
          · rw [Step.bind_of_error failed]
            exact Or.inr ⟨fault, recorded, rfl, same⟩

/-- A history is completed if closing succeeds, and cancelled if it fails. -/
theorem close_cases
    (stop : Int)
    (s : Placed History) :
    (∃ closed, close stop s = .ok () closed
        ∧ s.subject.disposed = false
        ∧ standing Backend.staged closed = (standing Backend.staged s).finish.settle .completed)
      ∨ ∃ fault closed, close stop s = .error fault closed
        ∧ standing Backend.staged closed = (standing Backend.staged s).settle .cancelled := by
  rw [close_eq_closing]
  rcases closing_cases stop s with ⟨closed, done, alive, same⟩ | ⟨fault, reached, failed, same⟩
  · exact Or.inl ⟨closed, orAbandon_of_ok done, alive, same⟩
  · refine Or.inr ⟨fault, _, orAbandon_of_error reached failed, ?_⟩
    rw [← same]
    exact standing_settle Backend.staged .cancelled reached

/-! ## Histories that were given up -/

section Disposed

variable (gone : s.subject.disposed = true)
include gone

theorem intervalAt_of_disposed
    (t quark : Int) :
    intervalAt t quark s = .error .disposed s :=
  usable_bind_of_disposed gone _

theorem snapshot_of_disposed
    (t : Int) :
    snapshot t s = .error .disposed s :=
  usable_bind_of_disposed gone _

theorem Question.step_of_disposed
    (question : Question) :
    question.step s = .error .disposed s := by
  cases question with
  | interval t quark => exact Step.bind_of_error (intervalAt_of_disposed gone t quark)
  | snapshot t => exact snapshot_of_disposed gone t

theorem countAt_of_disposed
    (quark t : Int) :
    countAt quark t s = .error .disposed s := by
  unfold countAt
  rw [Step.subject_bind_apply]
  exact Step.bind_of_error (intervalAt_of_disposed gone _ quark)

theorem Scan.step_of_disposed
    (scan : Scan) :
    scan.step s = .error .disposed s := by
  cases scan with
  | ongoing quark =>
      have refused : s.subject.ongoingValue quark = .error .disposed := by
        unfold ongoingValue
        rw [checkUsable_of_disposed gone]
        rfl
      show (Step.subject >>= _) s = _
      rw [Step.subject_bind_apply, refused]
      rfl
  | first quark start stop => exact Step.bind_of_error (usable_bind_of_disposed gone _)
  | between quark start stop => exact Step.bind_of_error (usable_bind_of_disposed gone _)
  | count quark t => exact Step.bind_of_error (countAt_of_disposed gone quark t)
  | histogram quark start stop buckets signal =>
      exact Step.bind_of_error (usable_bind_of_disposed gone _)
  | growth quark start stop => exact Step.bind_of_error (usable_bind_of_disposed gone _)
  | rates quarks times scale signal => exact Step.bind_of_error (usable_bind_of_disposed gone _)

theorem leaves_intern_of_disposed
    (base : Int)
    (path : List String) :
    Step.Leaves (fun placed => placed) (intern base path) s := by
  refine Step.leaves_subject_bind ?_
  split
  · rfl
  · rw [checkUsable_of_disposed gone]
    rfl

/-- A script finds nothing to do in a history that was given up. -/
theorem Script.leaves_run_of_disposed
    {α : Type}
    (script : Script α) :
    Step.Leaves (fun placed => placed) script.run s := by
  induction script with
  | done a => rfl
  | fail fault => rfl
  | held quark next ih =>
      exact Step.leaves_subject_bind (Step.leaves_ofExcept_bind fun value _ => ih value)
  | under quark next ih =>
      exact Step.leaves_subject_bind (Step.leaves_ofExcept_bind fun inner _ => ih inner)
  | fit value next ih =>
      exact Step.leaves_subject_bind (Step.leaves_ofExcept_bind fun _ _ => ih)
  | intern base path next ih =>
      have enters := leaves_intern_of_disposed gone base path
      refine enters.bind fun quark after done => ?_
      have same : after = s := (Step.reached_of_ok done).symm.trans enters
      rw [same]
      exact ih quark
  | set t value quark next ih =>
      exact Step.reached_bind_of_error (usable_bind_of_disposed gone _)

/-- Whatever is done to a settled history that was given up, it stays as it is. -/
theorem Operation.reached_of_disposed
    (operation : Operation)
    (settled : s.subject.status ≠ .building) :
    operation.step.reached s = s := by
  have same : (⟨s.volume, settle .cancelled s.subject⟩ : Placed History) = s := by
    rw [settle_of_settled settled]
  cases operation with
  | call call =>
      refine (Step.reached_map call.step Report.reply s).trans ?_
      cases call with
      | make change =>
          refine (Step.reached_map change.step Reply.answer s).trans ?_
          rw [← change.run_script]
          exact change.script.leaves_run_of_disposed gone
      | overwrite value quark =>
          have refused : overwrite value quark s = .error .disposed s :=
            usable_bind_of_disposed gone _
          exact Step.reached_bind_of_error refused
      | close stop =>
          have refused : closing stop s = .error .disposed s := usable_bind_of_disposed gone _
          exact (Step.reached_bind_of_error (orAbandon_of_error _ refused)).trans same
      | abandon => exact same
      | ask question => exact Step.reached_bind_of_error (question.step_of_disposed gone)
  | look lookup =>
      have looks : Step.Leaves (fun placed => placed) (Operation.look lookup).step s :=
        Step.leaves_subject_bind (Step.leaves_ofExcept_bind fun _ _ => rfl)
      exact looks
  | scan scan => exact Step.reached_bind_of_error (scan.step_of_disposed gone)
  | describe => rfl
  | dispose => exact Step.reached_bind_of_ok (dispose_of_disposed gone)

end Disposed

/-! ## Turns -/

/-- How an operation turns the life of a history, if it does. -/
inductive Turn
    (s : Placed History) :
    Operation →
    Placed History →
    Prop
  | keep
      {operation : Operation}
      {r : Placed History}
      (stays : ¬ operation.Ends)
      (again : operation = .dispose → s.subject.disposed = true)
      (same : standing Backend.staged r = standing Backend.staged s) :
      Turn s operation r
  | complete
      {stop : Int}
      {report : Report}
      {r : Placed History}
      (closes : (Operation.call (.close stop)).step s = .ok report r)
      (alive : s.subject.disposed = false)
      (turned : standing Backend.staged r
        = (standing Backend.staged s).finish.settle .completed) :
      Turn s (.call (.close stop)) r
  | cancel
      {operation : Operation}
      {r : Placed History}
      (ends : operation.Ends)
      (fails : ∀ stop, operation = .call (.close stop) →
        ∃ fault, operation.step s = .error fault r)
      (turned : standing Backend.staged r = (standing Backend.staged s).settle .cancelled) :
      Turn s operation r
  | dispose
      {r : Placed History}
      (gone : r.subject.disposed = true)
      (turned : r.subject.status = Status.settled .cancelled s.subject.status) :
      Turn s .dispose r

theorem Operation.turn
    (operation : Operation)
    (s : Placed History) :
    Turn s operation (operation.step.reached s) := by
  have asking : operation.Asks → standing Backend.staged (operation.step.reached s)
      = standing Backend.staged s := by
    intro asks
    have same := operation.leaves_of_asks asks s
    rw [standing_of_aside, same, ← standing_of_aside]
  cases operation with
  | call call =>
      cases call with
      | make change =>
          have reaches : (Operation.call (.make change)).step.reached s = change.step.reached s :=
            (Step.reached_map _ Report.reply s).trans (Step.reached_map _ Reply.answer s)
          rw [reaches]
          exact .keep not_false (fun other => nomatch other)
            (change.leaves_step Backend.leaves_staged_insert s)
      | overwrite value quark =>
          have reaches : (Operation.call (.overwrite value quark)).step.reached s
              = (overwrite value quark).reached s :=
            (Step.reached_map _ Report.reply s).trans
              (Step.reached_map _ (fun _ => Reply.answer .done) s)
          rw [reaches]
          exact .keep not_false (fun other => nomatch other) (leaves_overwrite value quark s)
      | close stop =>
          rcases close_cases stop s with ⟨closed, closes, alive, turned⟩ | ⟨fault, r, fails, turned⟩
          · have answered : (Operation.call (.close stop)).step s
                = .ok (.reply (.answer .done)) closed :=
              Step.bind_of_ok (Step.bind_of_ok closes)
            rw [Step.reached_of_ok answered]
            exact .complete answered alive turned
          · have refused : (Operation.call (.close stop)).step s = .error fault r :=
              Step.bind_of_error (Step.bind_of_error fails)
            rw [Step.reached_of_error refused]
            exact .cancel trivial (fun _ _ => ⟨fault, refused⟩) turned
      | abandon =>
          exact .cancel trivial (fun stop other => nomatch other)
            (standing_settle Backend.staged .cancelled s)
      | ask question => exact .keep not_false (fun other => nomatch other) (asking not_false)
  | look lookup => exact .keep not_false (fun other => nomatch other) (asking trivial)
  | scan scan => exact .keep not_false (fun other => nomatch other) (asking trivial)
  | describe => exact .keep not_false (fun other => nomatch other) (asking trivial)
  | dispose =>
      have reaches : Operation.dispose.step.reached s = History.dispose.reached s :=
        Step.reached_map _ (fun _ => _) _
      rw [reaches]
      cases gone : s.subject.disposed with
      | true =>
          rw [Step.reached_of_ok (dispose_of_disposed gone)]
          exact .keep not_false (fun _ => gone) rfl
      | false =>
          rcases dispose_of_alive gone with ⟨volume, backend, gives, -, -⟩
          rw [Step.reached_of_ok gives]
          have outline := outline_settle .cancelled { s.subject with disposed := true }
          exact .dispose (congrArg Outline.disposed outline) (congrArg Outline.status outline)

end History

end Chronicle
