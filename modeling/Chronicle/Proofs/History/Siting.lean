import Chronicle.Proofs.Backend.Siting
import Chronicle.Proofs.History.Running

/-!
# Where a history is kept

Whatever a history is told to do or asked, short of giving it up, its backend
goes on with the same file under the same name, and the volume keeps its
names.  More generally, what its writer does leaves alone whatever the taking
of an interval leaves alone in the backend.  Asking changes nothing but which
nodes are at hand.
-/

namespace Chronicle

variable {γ : Type} {view : Placed Backend → γ}

namespace Store

/-- What is seen of the backend of a store. -/
def beneath
    (view : Placed Backend → γ)
    (s : Placed Store) :
    γ :=
  view ⟨s.volume, s.subject.backend⟩

theorem leaves_onBackend
    {α : Type}
    {step : Step Backend α}
    (leaves : ∀ s, Step.Leaves view step s)
    (s : Placed Store) :
    Step.Leaves (beneath view) (onBackend step) s :=
  (leaves _).onPart fun _ same => same

theorem leaves_insert
    (inserts : ∀ i s, Step.Leaves view (Backend.insert i) s)
    (start stop quark : Int)
    (value : Value)
    (s : Placed Store) :
    Step.Leaves (beneath view) (insert start stop quark value) s := by
  refine Step.leaves_subject_bind (Step.leaves_ofExcept_bind fun _ _ => ?_)
  dsimp only
  split
  · rfl
  split
  · rfl
  split
  · rfl
  · refine Step.leaves_ofExcept_bind fun i _ => ?_
    exact (leaves_onBackend (inserts i) s).bind fun _ _ _ => rfl

theorem leaves_finish
    (stop : Int)
    (ns : Namespace)
    (s : Placed Store) :
    Step.Leaves (beneath (Backend.ground Volume.names)) (finish stop ns) s :=
  Step.leaves_subject_bind (Step.leaves_ofExcept_bind fun _ _ =>
    leaves_onBackend (Backend.leaves_finish stop ns) s)

theorem spares_finish
    {seen : Volume → γ}
    (frontal : Volume.Frontal seen)
    (stop : Int)
    (ns : Namespace)
    (s : Placed Store) :
    Step.Spares (beneath (Backend.ground seen)) (finish stop ns) s := by
  refine Step.Leaves.bind_spares rfl fun _ _ subject => ?_
  cases subject
  exact Step.spares_ofExcept_bind fun _ _ =>
    (Backend.spares_finish frontal stop ns _).onPart fun _ same => same

/-- A store next to its volume, but for which nodes are at hand. -/
def aside (s : Placed Store) : Volume × Store :=
  (s.volume, { s.subject with backend := s.subject.backend.bare })

theorem leaves_onBackend_aside
    {α : Type}
    {step : Step Backend α}
    (leaves : ∀ s, Step.Leaves Backend.aside step s)
    (s : Placed Store) :
    Step.Leaves aside (onBackend step) s := by
  refine (leaves _).onPart fun after same => ?_
  rcases Prod.mk.inj same with ⟨sameVolume, sameBackend⟩
  exact Prod.ext sameVolume (congrArg (fun backend => { s.subject with backend }) sameBackend)

theorem leaves_find
    (t quark : Int)
    (s : Placed Store) :
    Step.Leaves aside (find t quark) s :=
  Step.leaves_subject_bind (Step.leaves_ofExcept_bind fun _ _ =>
    Step.leaves_ofExcept_bind fun _ _ => leaves_onBackend_aside (Backend.leaves_find t quark) s)

theorem leaves_collect
    (t : Int)
    (slots : Tree.Slots)
    (s : Placed Store) :
    Step.Leaves aside (collect t slots) s :=
  Step.leaves_subject_bind (Step.leaves_ofExcept_bind fun _ _ =>
    Step.leaves_ofExcept_bind fun _ _ => leaves_onBackend_aside (Backend.leaves_collect t slots) s)

end Store

namespace Recording

/-- What is seen of the backend of a recording. -/
def beneath
    (view : Placed Backend → γ)
    (s : Placed Recording) :
    γ :=
  Store.beneath view ⟨s.volume, s.subject.store⟩

theorem leaves_onStore
    {α : Type}
    {step : Step Store α}
    (leaves : ∀ s, Step.Leaves (Store.beneath view) step s)
    (s : Placed Recording) :
    Step.Leaves (beneath view) (onStore step) s :=
  (leaves _).onPart fun _ same => same

theorem leaves_change
    (inserts : ∀ i s, Step.Leaves view (Backend.insert i) s)
    (t : Int)
    (value : Value)
    (quark : Int)
    (s : Placed Recording) :
    Step.Leaves (beneath view) (change t value quark) s := by
  refine Step.leaves_subject_bind (Step.leaves_ofExcept_bind fun slot _ =>
    Step.leaves_ofExcept_bind fun _ _ => ?_)
  have advances : ∀ placed, Step.Leaves (beneath view)
      (updateOngoing fun ongoing => { ongoing with latest := t }) placed := fun _ => rfl
  dsimp only
  split
  · split
    · rfl
    · refine Step.leaves_ofExcept_bind fun _ _ => ?_
      split
      · refine (leaves_onStore (Store.leaves_insert inserts _ _ _ _) s).bind fun _ _ _ => ?_
        exact Step.leaves_update_bind rfl advances
      · exact Step.leaves_update_bind rfl advances
  · exact advances s

theorem leaves_closeSlot
    (inserts : ∀ i s, Step.Leaves view (Backend.insert i) s)
    (stop quark : Int)
    (s : Placed Recording) :
    Step.Leaves (beneath view) (closeSlot stop quark) s := by
  refine Step.leaves_subject_bind (Step.leaves_ofExcept_bind fun slot _ => ?_)
  split
  · exact (leaves_onStore (Store.leaves_insert inserts _ _ _ _) s).bind fun _ _ _ => rfl
  · rfl

theorem leaves_close
    (inserts : ∀ i s, Step.Leaves view (Backend.insert i) s)
    (stop : Int)
    (s : Placed Recording) :
    Step.Leaves (beneath view) (close stop) s := by
  refine Step.leaves_subject_bind (Step.leaves_ofExcept_bind fun _ _ => ?_)
  have slots := Step.leaves_forM (fun quark : Nat => leaves_closeSlot inserts stop quark)
    (List.range s.subject.ongoing.slots.size) s
  exact slots.bind fun _ _ _ => rfl

end Recording

namespace History

/-- What is seen of the backend of a history. -/
def beneath
    (view : Placed Backend → γ)
    (s : Placed History) :
    γ :=
  view ⟨s.volume, s.subject.backend⟩

/-- Which history it is and how far it has come, with what is seen of its backend. -/
structure Standing (γ : Type) where
  id : String
  status : Status
  disposed : Bool
  seen : γ

/-- Which history it is and how far it has come, with what is seen of its backend. -/
def standing
    (view : Placed Backend → γ)
    (s : Placed History) :
    Standing γ where
  id := s.subject.id
  status := s.subject.status
  disposed := s.subject.disposed
  seen := beneath view s

/-- What is seen of the volume, and where in it a history is kept. -/
def ground
    (seen : Volume → γ)
    (s : Placed History) :
    γ × Option Backend.Site :=
  beneath (Backend.ground seen) s

theorem leaves_beneath
    {α : Type}
    {step : Step History α}
    {s : Placed History}
    (leaves : Step.Leaves (standing view) step s) :
    Step.Leaves (beneath view) step s :=
  leaves.seen Standing.seen

/-! ## Writing -/

theorem leaves_onRecording
    {α : Type}
    {step : Step Recording α}
    (leaves : ∀ s, Step.Leaves (Recording.beneath view) step s)
    (s : Placed History) :
    Step.Leaves (standing view) (onRecording step) s :=
  (leaves _).onPart fun _ same =>
    congrArg (Standing.mk s.subject.id s.subject.status s.subject.disposed) same

theorem leaves_intern
    (base : Int)
    (path : List String)
    (s : Placed History) :
    Step.Leaves (standing view) (intern base path) s := by
  refine Step.leaves_subject_bind ?_
  split
  · rfl
  · refine Step.leaves_ofExcept_bind fun _ _ => Step.leaves_ofExcept_bind fun pair _ => ?_
    exact Step.leaves_update_bind rfl fun _ => rfl

theorem leaves_set
    (inserts : ∀ i s, Step.Leaves view (Backend.insert i) s)
    (t : Int)
    (value : Value)
    (quark : Int)
    (s : Placed History) :
    Step.Leaves (standing view) (set t value quark) s :=
  Step.leaves_subject_bind (Step.leaves_ofExcept_bind fun _ _ =>
    (leaves_onRecording (Recording.leaves_change inserts t value quark) s).bind fun _ _ _ => rfl)

theorem leaves_overwrite
    (value : Value)
    (quark : Int)
    (s : Placed History) :
    Step.Leaves (standing view) (overwrite value quark) s :=
  Step.leaves_subject_bind (Step.leaves_ofExcept_bind fun _ _ =>
    Step.leaves_ofExcept_bind fun _ _ => Step.leaves_ofExcept_bind fun _ _ => rfl)

theorem Script.leaves_run
    {α : Type}
    (inserts : ∀ i s, Step.Leaves view (Backend.insert i) s)
    (script : Script α)
    (s : Placed History) :
    Step.Leaves (standing view) script.run s := by
  induction script generalizing s with
  | done a => rfl
  | fail fault => rfl
  | held quark next ih =>
      exact Step.leaves_subject_bind (Step.leaves_ofExcept_bind fun value _ => ih value s)
  | under quark next ih =>
      exact Step.leaves_subject_bind (Step.leaves_ofExcept_bind fun inner _ => ih inner s)
  | fit value next ih =>
      exact Step.leaves_subject_bind (Step.leaves_ofExcept_bind fun _ _ => ih s)
  | intern base path next ih =>
      exact (leaves_intern base path s).bind fun quark after _ => ih quark after
  | set t value quark next ih =>
      exact (leaves_set inserts t value quark s).bind fun _ after _ => ih after

theorem Change.leaves_step
    (inserts : ∀ i s, Step.Leaves view (Backend.insert i) s)
    (change : Change)
    (s : Placed History) :
    Step.Leaves (standing view) change.step s := by
  rw [← change.run_script]
  exact change.script.leaves_run inserts s

/-- A settled history is kept where it was. -/
theorem beneath_settle
    (view : Placed Backend → γ)
    (status : Status)
    (s : Placed History) :
    beneath view ⟨s.volume, settle status s.subject⟩ = beneath view s := by
  unfold beneath backend
  rw [recording_settle]

/-- Given up after a failure, a history is kept where the failure left it. -/
theorem leaves_orAbandon
    {α : Type}
    {step : Step History α}
    {s : Placed History}
    (leaves : Step.Leaves (beneath view) step s) :
    Step.Leaves (beneath view) (orAbandon step) s := by
  refine leaves.outcome.bind fun decided after _ => ?_
  cases decided with
  | ok a => rfl
  | error fault => exact beneath_settle _ .cancelled after

/-- What closing does before it is known how it ends. -/
def closing (stop : Int) : Step History Unit := do
  Step.ofExcept (← Step.subject).checkUsable
  onRecording (Recording.close stop)
  onStore (Store.finish stop (← Step.subject).names)
  Step.update fun history =>
    settle .completed { history with currentEnd := max history.currentEnd stop }

theorem close_eq_closing
    (stop : Int) :
    close stop = orAbandon (closing stop) := rfl

theorem leaves_close
    (stop : Int)
    (s : Placed History) :
    Step.Leaves (ground Volume.names) (close stop) s := by
  have closes : Step.Leaves (ground Volume.names) (closing stop) s := by
    refine Step.leaves_subject_bind (Step.leaves_ofExcept_bind fun _ _ => ?_)
    have recorded := leaves_onRecording
      (Recording.leaves_close (Backend.leaves_insert Volume.frontal_names) stop) s
    refine (leaves_beneath recorded).bind fun _ closed _ => ?_
    refine Step.leaves_subject_bind ?_
    have finished := leaves_onRecording
      (Recording.leaves_onStore (Store.leaves_finish stop closed.subject.names)) closed
    refine (leaves_beneath finished).bind fun _ after _ => ?_
    exact beneath_settle _ .completed
      ⟨after.volume, { after.subject with currentEnd := max after.subject.currentEnd stop }⟩
  exact leaves_orAbandon closes

theorem spares_onStore
    {α : Type}
    {step : Step Store α}
    (spares : ∀ s, Step.Spares (Store.beneath view) step s)
    (s : Placed History) :
    Step.Spares (beneath view) (onStore step) s := by
  have recorded : Step.Spares (Recording.beneath view) (Recording.onStore step)
      ⟨s.volume, s.subject.recording⟩ :=
    (spares _).onPart fun _ same => same
  unfold onStore onRecording
  exact recorded.onPart fun _ same => same

/-- Closing that fails leaves the front of the file as it was. -/
theorem spares_close
    {seen : Volume → γ}
    (frontal : Volume.Frontal seen)
    (stop : Int)
    (s : Placed History) :
    Step.Spares (ground seen) (close stop) s := by
  have closes : Step.Spares (ground seen) (closing stop) s := by
    refine Step.Leaves.bind_spares rfl fun _ _ subject => ?_
    cases subject
    refine Step.spares_ofExcept_bind fun _ _ => ?_
    have recorded := leaves_onRecording
      (Recording.leaves_close (Backend.leaves_insert frontal) stop) s
    refine (leaves_beneath recorded).bind_spares fun _ closed _ => ?_
    refine Step.Leaves.bind_spares rfl fun _ _ subject => ?_
    cases subject
    have finished := spares_onStore (Store.spares_finish frontal stop closed.subject.names) closed
    refine finished.bind fun _ _ _ _ failed => ?_
    cases failed
  intro fault after failed
  cases ends : closing stop s with
  | ok done between => cases (orAbandon_of_ok ends).symm.trans failed
  | error other between =>
      cases (orAbandon_of_error between ends).symm.trans failed
      exact (beneath_settle _ .cancelled between).trans (closes fault between ends)

/-! ## Asking -/

/-- A history next to its volume, but for which nodes are at hand. -/
def aside (s : Placed History) : Volume × History :=
  (s.volume, s.subject.withBackend s.subject.backend.bare)

theorem leaves_onStore_aside
    {α : Type}
    {step : Step Store α}
    (leaves : ∀ s, Step.Leaves Store.aside step s)
    (s : Placed History) :
    Step.Leaves aside (onStore step) s := by
  have recorded : Step.Leaves (fun r : Placed Recording => (r.volume, { r.subject with
      store := { r.subject.store with backend := r.subject.store.backend.bare } }))
      (Recording.onStore step) ⟨s.volume, s.subject.recording⟩ := by
    refine (leaves _).onPart fun after same => ?_
    rcases Prod.mk.inj same with ⟨sameVolume, sameStore⟩
    exact Prod.ext sameVolume
      (congrArg (fun store => { s.subject.recording with store }) sameStore)
  unfold onStore onRecording
  refine recorded.onPart fun after same => ?_
  rcases Prod.mk.inj same with ⟨sameVolume, sameRecording⟩
  exact Prod.ext sameVolume (congrArg (fun recording => { s.subject with recording }) sameRecording)

theorem leaves_intervalAt
    (t quark : Int)
    (s : Placed History) :
    Step.Leaves aside (intervalAt t quark) s := by
  refine Step.leaves_subject_bind (Step.leaves_ofExcept_bind fun _ _ =>
    Step.leaves_ofExcept_bind fun _ _ => Step.leaves_ofExcept_bind fun slot _ => ?_)
  split
  · rfl
  · refine (leaves_onStore_aside (Store.leaves_find t quark) s).bind fun found after _ => ?_
    cases found with
    | some i => rfl
    | none => rfl

theorem leaves_snapshot
    (t : Int)
    (s : Placed History) :
    Step.Leaves aside (snapshot t) s := by
  refine Step.leaves_subject_bind (Step.leaves_ofExcept_bind fun _ _ =>
    Step.leaves_ofExcept_bind fun _ _ => ?_)
  dsimp only
  split
  · refine (leaves_onStore_aside (Store.leaves_collect t _) s).bind fun stored after _ => ?_
    cases (s.subject.overlayOngoing t stored).intervals? with
    | some intervals => rfl
    | none => rfl
  · refine Step.Leaves.bind rfl fun stored after same => ?_
    cases same
    cases (s.subject.overlayOngoing t _).intervals? with
    | some intervals => rfl
    | none => rfl

theorem Question.leaves_step
    (question : Question)
    (s : Placed History) :
    Step.Leaves aside question.step s := by
  cases question with
  | interval t quark => exact (leaves_intervalAt t quark s).bind fun _ _ _ => rfl
  | snapshot t => exact leaves_snapshot t s

theorem ground_of_aside
    (seen : Volume → γ)
    (s : Placed History) :
    ground seen s = (seen (aside s).1, (aside s).2.backend.site?) :=
  Prod.ext rfl (Backend.site?_bare s.subject.backend).symm

theorem Call.leaves_step
    (call : Call)
    (s : Placed History) :
    Step.Leaves (ground Volume.names) call.step s := by
  cases call with
  | make change =>
      have makes := leaves_beneath
        (change.leaves_step (Backend.leaves_insert Volume.frontal_names) s)
      exact makes.bind fun _ _ _ => rfl
  | overwrite value quark =>
      exact (leaves_beneath (leaves_overwrite value quark s)).bind fun _ _ _ => rfl
  | close stop => exact (leaves_close stop s).bind fun _ _ _ => rfl
  | abandon => exact beneath_settle _ .cancelled s
  | ask question =>
      have asks : Step.Leaves (ground Volume.names) question.step s := by
        unfold Step.Leaves
        rw [ground_of_aside, ground_of_aside, question.leaves_step s]
      exact asks.bind fun _ _ _ => rfl

/-- With settings that are accepted, a history is begun in any file that can be created. -/
theorem exists_create
    {name : String}
    {config : Tree.Config}
    {volume : Volume}
    {provided : Volume × Nat}
    (valid : config.Valid)
    (creatable : volume.create name = .ok provided)
    (id : String)
    (start : Int) :
    ∃ made history, create id start (.file name config) volume = .ok (made, history) := by
  have accepted : ({ config with start } : Tree.Config).validate = .ok () :=
    (Tree.Config.validate_eq_ok_iff _).mpr
      ⟨valid.twoChildren, valid.childrenFit, valid.blockFits, valid.roomForInterval⟩
  unfold create Backend.create Tree.create
  simp only [accepted, creatable, bind, Except.bind]
  exact ⟨_, _, rfl⟩

/-- A new history over a file is one over a new tree in that file. -/
theorem exists_tree_of_create
    {id name : String}
    {start : Int}
    {config : Tree.Config}
    {volume made : Volume}
    {history : History}
    (created : create id start (.file name config) volume = .ok (made, history)) :
    ∃ tree,
      Tree.create name { config with start } volume = .ok (made, tree)
        ∧ history.backend = .stored ⟨name, tree, false⟩ := by
  simp only [create, Backend.create] at created
  cases treeMade : Tree.create name { config with start } volume with
  | error fault =>
      rw [treeMade] at created
      cases created
  | ok pair =>
      rcases pair with ⟨base, tree⟩
      rw [treeMade] at created
      cases created
      exact ⟨tree, rfl, rfl⟩

/-- A new history over a file is kept in the file of that name. -/
theorem ground_of_create
    {id name : String}
    {start : Int}
    {config : Tree.Config}
    {volume made : Volume}
    {history : History}
    (created : create id start (.file name config) volume = .ok (made, history)) :
    ∃ file,
      made.lookup? name = some file
        ∧ ground Volume.names ⟨made, history⟩
          = (made.names, some ⟨name, file, { config with start }⟩) := by
  rcases exists_tree_of_create created with ⟨tree, treeMade, backend⟩
  rcases Tree.ground_of_create treeMade with ⟨file, found, same⟩
  refine ⟨file, found, ?_⟩
  unfold Tree.ground Tree.NodeFile.ground at same
  simp only [Prod.mk.injEq] at same
  unfold ground beneath Backend.ground
  rw [backend]
  unfold Backend.site?
  simp only [same]

end History

end Chronicle
