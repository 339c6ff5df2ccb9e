import Chronicle.Proofs.Backend.Siting

/-!
# How far a backend has come

A backend over a file is at hand until it is given up, and its tree takes
intervals until it is finished.  Only finishing and giving up lead further, and
finishing does so if and only if it succeeds.
-/

namespace Chronicle

namespace Tree

theorem leaves_finished_onFile
    {α : Type}
    (step : Step NodeFile α)
    (s : Placed Tree) :
    Step.Leaves (fun placed => placed.subject.finished) (onFile step) s := by
  have nothing : Step.Leaves (fun _ => ()) step ⟨s.volume, s.subject.io⟩ := rfl
  exact nothing.onPart fun _ _ => rfl

theorem leaves_finished_insert
    (i : Interval)
    (s : Placed Tree) :
    Step.Leaves (fun placed => placed.subject.finished) (insert i) s := by
  unfold Step.Leaves
  rcases insert_apply i s with ⟨-, fault, stop, -, refused⟩ | ⟨root, below, -, -, -, -, took⟩
  · rw [Step.reached_of_error refused]
  · have same := withCache_reached_of_writeNodes took (.empty 0)
    exact (congrArg (fun tree : Tree => tree.finished) same :)

/-- A tree is finished if finishing succeeds, and as unfinished as before if it fails. -/
theorem finish_cases
    (stop : Int)
    (ns : Namespace)
    (s : Placed Tree) :
    (∃ reached, finish stop ns s = .ok () reached ∧ reached.subject.finished = true)
      ∨ ∃ fault reached, finish stop ns s = .error fault reached
        ∧ reached.subject.finished = s.subject.finished := by
  unfold finish
  rw [Step.subject_bind_apply]
  by_cases finished : s.subject.finished = true
  · rw [if_pos finished]
    exact Or.inl ⟨s, rfl, finished⟩
  rw [if_neg finished]
  dsimp only
  rw [Step.update_bind_apply]
  have writes : ∀ nodes placed, Step.Leaves (fun placed : Placed Tree => placed.subject.finished)
      (writeNodes nodes) placed :=
    Step.leaves_forM fun node => leaves_finished_onFile (NodeFile.writeNode node)
  -- Each of the three writings can fail, and none of them marks the tree as finished.
  rcases (writes _ _).ends with ⟨_, written, wrote, same⟩ | ⟨fault, written, failed, same⟩
  · rw [Step.bind_of_ok wrote]
    rcases (leaves_finished_onFile (NodeFile.writeNamespace _ ns) written).ends with
      ⟨size, named, told, sameNamed⟩ | ⟨fault, named, failed, sameNamed⟩
    · rw [Step.bind_of_ok told]
      rcases (leaves_finished_onFile (NodeFile.writeHeader _) named).ends with
        ⟨_, headed, header, sameHeaded⟩ | ⟨fault, headed, failed, sameHeaded⟩
      · rw [Step.bind_of_ok header]
        exact Or.inl ⟨_, rfl, rfl⟩
      · rw [Step.bind_of_error failed]
        exact Or.inr ⟨fault, headed, rfl, sameHeaded.trans (sameNamed.trans same)⟩
    · rw [Step.bind_of_error failed]
      exact Or.inr ⟨fault, named, rfl, sameNamed.trans same⟩
  · rw [Step.bind_of_error failed]
    exact Or.inr ⟨fault, written, rfl, same⟩

end Tree

namespace Backend

/-- How far a backend over a file has come. -/
structure Stage where
  name : String
  disposed : Bool
  finished : Bool
deriving DecidableEq

/-- How far a backend has come, if it is over a file. -/
def stage? : Backend → Option Stage
  | stored b => some ⟨b.name, b.disposed, b.tree.finished⟩
  | memory _ => none
  | unreliable _ => none

/-- How far a backend has come, wherever it works. -/
def staged (s : Placed Backend) : Option Stage :=
  s.subject.stage?

/-- The stage after finishing. -/
def Stage.finish (stage : Stage) : Stage :=
  { stage with finished := true }

/-- The name of the file under a plan, if there is one. -/
def Plan.name? : Plan → Option String
  | memory => none
  | file name _ => some name

@[simp]
theorem stage?_bare
    (backend : Backend) :
    backend.bare.stage? = backend.stage? := by
  cases backend <;> rfl

/-- A new backend is at hand and unfinished. -/
theorem stage?_of_create
    {plan : Plan}
    {start : Int}
    {volume made : Volume}
    {backend : Backend}
    (created : create plan start volume = .ok (made, backend)) :
    backend.stage? = plan.name?.map fun name => ⟨name, false, false⟩ := by
  cases plan with
  | memory =>
      cases created
      rfl
  | file name config =>
      simp only [create] at created
      cases treeMade : Tree.create name { config with start } volume with
      | error fault =>
          rw [treeMade] at created
          cases created
      | ok pair =>
          rcases pair with ⟨base, tree⟩
          rw [treeMade] at created
          cases created
          rcases Tree.create_eq_ok treeMade with ⟨-, -, -, -, -, rfl⟩
          rfl

theorem leaves_staged_insert
    (i : Interval)
    (s : Placed Backend) :
    Step.Leaves staged (insert i) s := by
  rcases s with ⟨volume, backend⟩
  cases backend with
  | memory m => exact Step.leaves_ofExcept_bind fun _ _ => rfl
  | stored b =>
      show Step.Leaves staged (onTree b (Tree.insert i)) _
      refine Step.leaves_ofExcept_bind fun _ _ => ?_
      refine (Tree.leaves_finished_insert i _).onPart fun after same => ?_
      exact congrArg (some ∘ Stage.mk b.name b.disposed) same
  | unreliable u =>
      refine Step.leaves_subject_bind ?_
      refine Step.Leaves.bind rfl fun _ asked replaced => ?_
      cases replaced
      dsimp only
      split
      · rfl
      · exact Step.leaves_ofExcept_bind fun _ _ => rfl

/-- A backend is finished if finishing succeeds, and as far as before if it fails. -/
theorem finish_cases
    (stop : Int)
    (ns : Namespace)
    (s : Placed Backend) :
    (∃ reached, finish stop ns s = .ok () reached
        ∧ reached.subject.stage? = s.subject.stage?.map Stage.finish)
      ∨ ∃ fault reached, finish stop ns s = .error fault reached
        ∧ reached.subject.stage? = s.subject.stage? := by
  rcases s with ⟨volume, backend⟩
  cases backend with
  | memory m =>
      unfold finish
      rw [Step.subject_bind_apply]
      dsimp only
      cases m.finish stop with
      | ok after => exact Or.inl ⟨_, rfl, rfl⟩
      | error fault => exact Or.inr ⟨fault, _, rfl, rfl⟩
  | stored b =>
      cases gone : b.disposed with
      | true =>
          refine Or.inr ⟨.disposed, ⟨volume, stored b⟩, ?_, rfl⟩
          unfold finish onTree Stored.checkAlive
          rw [Step.subject_bind_apply]
          dsimp only
          rw [if_pos gone]
          rfl
      | false =>
          rcases Tree.finish_cases stop ns ⟨volume, b.tree⟩ with
            ⟨⟨after, tree⟩, finishes, finished⟩ | ⟨fault, ⟨after, tree⟩, fails, same⟩
          · refine Or.inl ⟨_, onTree_of_ok gone finishes, ?_⟩
            exact congrArg (some ∘ Stage.mk b.name b.disposed) finished
          · refine Or.inr ⟨fault, _, onTree_of_error gone fails, ?_⟩
            exact congrArg (some ∘ Stage.mk b.name b.disposed) same
  | unreliable u =>
      unfold finish
      rw [Step.subject_bind_apply]
      dsimp only
      cases u.memory.finish stop with
      | ok after => exact Or.inl ⟨_, rfl, rfl⟩
      | error fault => exact Or.inr ⟨fault, _, rfl, rfl⟩

/-- A finished file stays as it is when its backend is given up; an unfinished one loses its name. -/
theorem dispose_of_stage
    {name : String}
    {finished : Bool}
    {s : Placed Backend}
    (stage : s.subject.stage? = some ⟨name, false, finished⟩) :
    ∃ backend,
      dispose s
        = .ok () ⟨if finished then s.volume else s.volume.unlink name, backend⟩ := by
  rcases s with ⟨volume, backend⟩
  cases backend with
  | memory m => cases stage
  | unreliable u => cases stage
  | stored b =>
      rcases b with ⟨_, tree, _⟩
      cases stage
      exact ⟨_, dispose_stored rfl volume⟩

end Backend

end Chronicle
