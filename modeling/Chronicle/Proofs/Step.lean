import Chronicle.Step
import Mathlib.Data.List.Infix

/-!
# How steps go

What becomes of a state when a step is taken: one equation for each of the
steps that all others are made of, and two for taking one step after another.
Proofs about a composed step follow it along these equations.
-/

namespace Chronicle

/-- What is decided on the way to an answer is decided in its favour. -/
theorem exists_ok_of_bind
    {α β : Type}
    {decided : Except Fault α}
    {next : α → Except Fault β}
    {b : β}
    (done : (decided >>= next) = .ok b) :
    ∃ a, decided = .ok a ∧ next a = .ok b := by
  cases decided with
  | error fault => cases done
  | ok a => exact ⟨a, rfl, done⟩

end Chronicle

namespace Chronicle.Step

variable {σ τ α β : Type}

/-- The state in which a step ends, whether it answers or fails. -/
def reached
    (step : Step σ α)
    (s : Placed σ) :
    Placed σ :=
  match step s with
  | .ok _ after => after
  | .error _ after => after

@[simp]
theorem pure_apply
    (a : α)
    (s : Placed σ) :
    (pure a : Step σ α) s = .ok a s := rfl

@[simp]
theorem throw_apply
    (fault : Fault)
    (s : Placed σ) :
    (throw fault : Step σ α) s = .error fault s := rfl

@[simp]
theorem subject_apply
    (s : Placed σ) :
    (subject : Step σ σ) s = .ok s.subject s := rfl

@[simp]
theorem volume_apply
    (s : Placed σ) :
    (volume : Step σ Volume) s = .ok s.volume s := rfl

@[simp]
theorem replace_apply
    (subject : σ)
    (s : Placed σ) :
    replace subject s = .ok () ⟨s.volume, subject⟩ := rfl

@[simp]
theorem update_apply
    (change : σ → σ)
    (s : Placed σ) :
    update change s = .ok () ⟨s.volume, change s.subject⟩ := rfl

@[simp]
theorem updateVolume_apply
    (change : Volume → Volume)
    (s : Placed σ) :
    updateVolume change s = .ok () ⟨change s.volume, s.subject⟩ := rfl

@[simp]
theorem ofExcept_ok
    (a : α) :
    (ofExcept (.ok a) : Step σ α) = pure a := rfl

@[simp]
theorem ofExcept_error
    (fault : Fault) :
    (ofExcept (.error fault) : Step σ α) = throw fault := rfl

/-- After a step that answered, the next one goes on with the answer. -/
theorem bind_of_ok
    {step : Step σ α}
    {next : α → Step σ β}
    {s reached : Placed σ}
    {a : α}
    (done : step s = .ok a reached) :
    (step >>= next) s = next a reached := by
  show EStateM.bind step next s = next a reached
  simp only [EStateM.bind, done]

/-- After a step that failed, nothing else is done. -/
theorem bind_of_error
    {step : Step σ α}
    {next : α → Step σ β}
    {s reached : Placed σ}
    {fault : Fault}
    (failed : step s = .error fault reached) :
    (step >>= next) s = .error fault reached := by
  show EStateM.bind step next s = .error fault reached
  simp only [EStateM.bind, failed]

/-- Steps that go the same way from a state go on the same way. -/
theorem bind_congr_at
    {step other : Step σ α}
    {s : Placed σ}
    (same : step s = other s)
    (next : α → Step σ β) :
    (step >>= next) s = (other >>= next) s := by
  show EStateM.bind step next s = EStateM.bind other next s
  simp only [EStateM.bind, same]

@[simp]
theorem pure_bind_apply
    (a : α)
    (next : α → Step σ β)
    (s : Placed σ) :
    (pure a >>= next) s = next a s := rfl

@[simp]
theorem throw_bind_apply
    (fault : Fault)
    (next : α → Step σ β)
    (s : Placed σ) :
    (throw fault >>= next) s = .error fault s := rfl

@[simp]
theorem subject_bind_apply
    (next : σ → Step σ β)
    (s : Placed σ) :
    (subject >>= next) s = next s.subject s := rfl

@[simp]
theorem volume_bind_apply
    (next : Volume → Step σ β)
    (s : Placed σ) :
    (volume >>= next) s = next s.volume s := rfl

@[simp]
theorem update_bind_apply
    (change : σ → σ)
    (next : Unit → Step σ β)
    (s : Placed σ) :
    (update change >>= next) s = next () ⟨s.volume, change s.subject⟩ := rfl

theorem reached_of_ok
    {step : Step σ α}
    {s after : Placed σ}
    {a : α}
    (done : step s = .ok a after) :
    step.reached s = after := by
  simp only [reached, done]

theorem reached_of_error
    {step : Step σ α}
    {s after : Placed σ}
    {fault : Fault}
    (failed : step s = .error fault after) :
    step.reached s = after := by
  simp only [reached, failed]

/-- Steps that go the same way end in the same state. -/
theorem reached_congr
    {step other : Step σ α}
    {s t : Placed σ}
    (same : step s = other t) :
    step.reached s = other.reached t := by
  unfold reached
  rw [same]

theorem reached_of_ofExcept
    {step : Step σ α}
    {s after : Placed σ}
    {decided : Except Fault α}
    (ends : step s = ofExcept decided after) :
    step.reached s = after := by
  cases decided with
  | ok a => exact reached_of_ok ends
  | error fault => exact reached_of_error ends

theorem reached_bind_of_ok
    {step : Step σ α}
    {next : α → Step σ β}
    {s after : Placed σ}
    {a : α}
    (done : step s = .ok a after) :
    (step >>= next).reached s = (next a).reached after := by
  unfold reached
  rw [bind_of_ok done]

theorem reached_bind_of_error
    {step : Step σ α}
    {next : α → Step σ β}
    {s after : Placed σ}
    {fault : Fault}
    (failed : step s = .error fault after) :
    (step >>= next).reached s = after :=
  reached_of_error (bind_of_error failed)

/-- A step on a part answers as it does on the part alone, and the part is put back. -/
theorem onPart_of_ok
    {part : σ → τ}
    {putBack : σ → τ → σ}
    {step : Step τ α}
    {s : Placed σ}
    {volume : Volume}
    {changed : τ}
    {a : α}
    (done : step ⟨s.volume, part s.subject⟩ = .ok a ⟨volume, changed⟩) :
    onPart part putBack step s = .ok a ⟨volume, putBack s.subject changed⟩ := by
  simp only [onPart, done]

theorem onPart_of_error
    {part : σ → τ}
    {putBack : σ → τ → σ}
    {step : Step τ α}
    {s : Placed σ}
    {volume : Volume}
    {changed : τ}
    {fault : Fault}
    (failed : step ⟨s.volume, part s.subject⟩ = .error fault ⟨volume, changed⟩) :
    onPart part putBack step s = .error fault ⟨volume, putBack s.subject changed⟩ := by
  simp only [onPart, failed]

/-- A step on a part fails if it does on the part alone. -/
theorem onPart_ne_ok
    {part : σ → τ}
    {step : Step τ α}
    {s : Placed σ}
    (fails : ∀ a after, step ⟨s.volume, part s.subject⟩ ≠ .ok a after)
    (putBack : σ → τ → σ)
    (a : α)
    (after : Placed σ) :
    onPart part putBack step s ≠ .ok a after := by
  intro done
  cases ends : step ⟨s.volume, part s.subject⟩ with
  | ok b reached => exact fails b reached ends
  | error fault reached => cases (onPart_of_error ends).symm.trans done

/-- Where a step on a part ends is where it ends on the part alone. -/
theorem reached_onPart
    (part : σ → τ)
    (putBack : σ → τ → σ)
    (step : Step τ α)
    (s : Placed σ) :
    (onPart part putBack step).reached s
      = ⟨(step.reached ⟨s.volume, part s.subject⟩).volume,
        putBack s.subject (step.reached ⟨s.volume, part s.subject⟩).subject⟩ := by
  unfold reached onPart
  cases step ⟨s.volume, part s.subject⟩ with
  | ok a after => rfl
  | error fault after => rfl

/-- What is only made of an answer does not change where a step ends. -/
theorem reached_map
    (step : Step σ α)
    (f : α → β)
    (s : Placed σ) :
    (step >>= fun a => pure (f a)).reached s = step.reached s := by
  cases ends : step s with
  | ok a after => rw [reached_bind_of_ok ends, reached_of_ok ends]; rfl
  | error fault after => rw [reached_bind_of_error ends, reached_of_error ends]

/-- Two steps succeed one after the other if and only if each of them does. -/
theorem bind_eq_ok_iff
    {step : Step σ α}
    {next : α → Step σ β}
    {s after : Placed σ}
    {b : β} :
    (step >>= next) s = .ok b after
      ↔ ∃ a between, step s = .ok a between ∧ next a between = .ok b after := by
  constructor
  · intro done
    cases ends : step s with
    | ok a between => exact ⟨a, between, rfl, (bind_of_ok ends).symm.trans done⟩
    | error fault between => cases (bind_of_error ends).symm.trans done
  · rintro ⟨a, between, first, second⟩
    exact (bind_of_ok first).trans second

/-- Two steps that fail one after the other fail in the first or in the second. -/
theorem bind_eq_error
    {step : Step σ α}
    {next : α → Step σ β}
    {s after : Placed σ}
    {fault : Fault}
    (failed : (step >>= next) s = .error fault after) :
    step s = .error fault after
      ∨ ∃ a between, step s = .ok a between ∧ next a between = .error fault after := by
  cases ends : step s with
  | ok a between => exact Or.inr ⟨a, between, rfl, (bind_of_ok ends).symm.trans failed⟩
  | error other reached =>
      cases (bind_of_error ends).symm.trans failed
      exact Or.inl rfl

theorem ofExcept_bind_eq_error
    {decided : Except Fault α}
    {next : α → Step σ β}
    {s after : Placed σ}
    {fault : Fault}
    (failed : (ofExcept decided >>= next) s = .error fault after) :
    decided = .error fault ∧ after = s
      ∨ ∃ a, decided = .ok a ∧ next a s = .error fault after := by
  cases decided with
  | ok a => exact Or.inr ⟨a, rfl, failed⟩
  | error other =>
      cases failed
      exact Or.inl ⟨rfl, rfl⟩

/-- What holds before a step and after all that follows a decision holds in the end. -/
theorem reached_ofExcept_bind
    {decided : Except Fault α}
    {next : α → Step σ β}
    {s : Placed σ}
    (p : Placed σ → Prop)
    (stays : p s)
    (goes : ∀ a, decided = .ok a → p ((next a).reached s)) :
    p ((ofExcept decided >>= next).reached s) := by
  cases decided with
  | ok a => exact goes a rfl
  | error fault => exact stays

/-- If only something is made of its answer, it is the step that failed. -/
theorem eq_error_of_map
    {step : Step σ α}
    {f : α → β}
    {s after : Placed σ}
    {fault : Fault}
    (failed : (step >>= fun a => pure (f a)) s = .error fault after) :
    step s = .error fault after := by
  rcases bind_eq_error failed with fails | ⟨a, between, -, done⟩
  · exact fails
  · cases done

/-- What is made of an answer is made of what was decided. -/
theorem map_of_ofExcept
    {step : Step σ α}
    {s after : Placed σ}
    {decided : Except Fault α}
    (ends : step s = ofExcept decided after)
    (f : α → β) :
    (step >>= fun a => pure (f a)) s = ofExcept (decided.map f) after := by
  cases decided with
  | ok a => exact bind_of_ok ends
  | error fault => exact bind_of_error ends

/-! ## What steps leave alone -/

section Leaves

variable {γ δ : Type} {view : Placed σ → γ}

/-- A step that, taken from `s`, changes nothing about a view of the state. -/
def Leaves
    (view : Placed σ → γ)
    (step : Step σ α)
    (s : Placed σ) :
    Prop :=
  view (step.reached s) = view s

/-- What is seen of a view is left alone with the view. -/
theorem Leaves.seen
    {step : Step σ α}
    {s : Placed σ}
    (leaves : Leaves view step s)
    (see : γ → δ) :
    Leaves (fun placed => see (view placed)) step s :=
  congrArg see leaves

theorem leaves_ofExcept
    (decided : Except Fault α)
    (s : Placed σ) :
    Leaves view (ofExcept decided) s := by
  cases decided with
  | ok a => rfl
  | error fault => rfl

/-- What is done next to looking at the subject is done with the subject as it is. -/
theorem leaves_subject_bind
    {next : σ → Step σ β}
    {s : Placed σ}
    (rest : Leaves view (next s.subject) s) :
    Leaves view (subject >>= next) s := rest

/-- One step after another leaves alone what both do. -/
theorem Leaves.bind
    {step : Step σ α}
    {next : α → Step σ β}
    {s : Placed σ}
    (first : Leaves view step s)
    (rest : ∀ a after, step s = .ok a after → Leaves view (next a) after) :
    Leaves view (step >>= next) s := by
  unfold Leaves at first ⊢
  cases ends : step s with
  | ok a after =>
      rw [reached_of_ok ends] at first
      rw [reached_bind_of_ok ends, ← first]
      exact rest a after ends
  | error fault after =>
      rw [reached_of_error ends] at first
      rw [reached_bind_of_error ends]
      exact first

/-- What is decided beforehand changes nothing. -/
theorem leaves_ofExcept_bind
    {decided : Except Fault α}
    {next : α → Step σ β}
    {s : Placed σ}
    (rest : ∀ a, decided = .ok a → Leaves view (next a) s) :
    Leaves view (ofExcept decided >>= next) s := by
  cases decided with
  | ok a => exact rest a rfl
  | error fault => rfl

/-- A change of the subject that a view does not show leaves it alone. -/
theorem leaves_update_bind
    {change : σ → σ}
    {next : Unit → Step σ β}
    {s : Placed σ}
    (same : view ⟨s.volume, change s.subject⟩ = view s)
    (rest : ∀ placed, Leaves view (next ()) placed) :
    Leaves view (update change >>= next) s :=
  Leaves.bind same fun _ after _ => rest after

/-- A step on a part leaves alone what is seen of the part alone. -/
theorem Leaves.onPart
    {part : σ → τ}
    {putBack : σ → τ → σ}
    {step : Step τ α}
    {partView : Placed τ → δ}
    {s : Placed σ}
    (leaves : Leaves partView step ⟨s.volume, part s.subject⟩)
    (carries : ∀ after, partView after = partView ⟨s.volume, part s.subject⟩ →
      view ⟨after.volume, putBack s.subject after.subject⟩ = view s) :
    Leaves view (onPart part putBack step) s := by
  unfold Leaves at leaves ⊢
  cases ends : step ⟨s.volume, part s.subject⟩ with
  | ok a after =>
      rw [reached_of_ok ends] at leaves
      rw [reached_of_ok (onPart_of_ok ends)]
      exact carries after leaves
  | error fault after =>
      rw [reached_of_error ends] at leaves
      rw [reached_of_error (onPart_of_error ends)]
      exact carries after leaves

theorem Leaves.outcome
    {step : Step σ α}
    {s : Placed σ}
    (leaves : Leaves view step s) :
    Leaves view step.outcome s := by
  unfold Leaves at leaves ⊢
  unfold Step.outcome reached at *
  cases ends : step s with
  | ok a after => simpa only [ends] using leaves
  | error fault after => simpa only [ends] using leaves

/-- However a step ends that leaves a view alone, the view is as before. -/
theorem Leaves.ends
    {step : Step σ α}
    {s : Placed σ}
    (leaves : Leaves view step s) :
    (∃ a after, step s = .ok a after ∧ view after = view s)
      ∨ ∃ fault after, step s = .error fault after ∧ view after = view s := by
  unfold Leaves reached at leaves
  cases ends : step s with
  | ok a after =>
      rw [ends] at leaves
      exact Or.inl ⟨a, after, rfl, leaves⟩
  | error fault after =>
      rw [ends] at leaves
      exact Or.inr ⟨fault, after, rfl, leaves⟩

/-- A step that, taken from `s`, changes nothing about a view of the state if it fails. -/
def Spares
    (view : Placed σ → γ)
    (step : Step σ α)
    (s : Placed σ) :
    Prop :=
  ∀ fault after, step s = .error fault after → view after = view s

theorem Leaves.spares
    {step : Step σ α}
    {s : Placed σ}
    (leaves : Leaves view step s) :
    Spares view step s := by
  intro fault after failed
  rw [← reached_of_error failed]
  exact leaves

/-- After a step that leaves a view alone, the next one may still fail and spare it. -/
theorem Leaves.bind_spares
    {step : Step σ α}
    {next : α → Step σ β}
    {s : Placed σ}
    (first : Leaves view step s)
    (rest : ∀ a after, step s = .ok a after → Spares view (next a) after) :
    Spares view (step >>= next) s := by
  intro fault after failed
  rcases bind_eq_error failed with fails | ⟨a, between, done, fails⟩
  · exact first.spares fault after fails
  · have same : view between = view s := by
      rw [← reached_of_ok done]
      exact first
    exact (rest a between done fault after fails).trans same

/-- What is decided beforehand spares every view. -/
theorem spares_ofExcept_bind
    {decided : Except Fault α}
    {next : α → Step σ β}
    {s : Placed σ}
    (rest : ∀ a, decided = .ok a → Spares view (next a) s) :
    Spares view (ofExcept decided >>= next) s := by
  cases decided with
  | ok a => exact rest a rfl
  | error fault =>
      rintro _ _ ⟨⟩
      rfl

/-- After a step that spares a view, nothing more may fail. -/
theorem Spares.bind
    {step : Step σ α}
    {next : α → Step σ β}
    {s : Placed σ}
    (first : Spares view step s)
    (succeeds : ∀ a between fault after, next a between ≠ .error fault after) :
    Spares view (step >>= next) s := by
  intro fault after failed
  rcases bind_eq_error failed with fails | ⟨a, between, -, fails⟩
  · exact first fault after fails
  · exact absurd fails (succeeds a between fault after)

/-- A step on a part spares what is seen of the part alone. -/
theorem Spares.onPart
    {part : σ → τ}
    {putBack : σ → τ → σ}
    {step : Step τ α}
    {partView : Placed τ → δ}
    {s : Placed σ}
    (spares : Spares partView step ⟨s.volume, part s.subject⟩)
    (carries : ∀ after, partView after = partView ⟨s.volume, part s.subject⟩ →
      view ⟨after.volume, putBack s.subject after.subject⟩ = view s) :
    Spares view (onPart part putBack step) s := by
  intro fault after failed
  cases ends : step ⟨s.volume, part s.subject⟩ with
  | ok a reached => cases (onPart_of_ok ends).symm.trans failed
  | error other reached =>
      cases (onPart_of_error ends).symm.trans failed
      exact carries reached (spares fault reached ends)

theorem leaves_forM
    {ι : Type}
    {step : ι → Step σ PUnit}
    (each : ∀ item s, Leaves view (step item) s)
    (items : List ι)
    (s : Placed σ) :
    Leaves view (items.forM step) s := by
  induction items generalizing s with
  | nil => rfl
  | cons item rest ih => exact (each item s).bind fun _ after _ => ih after

end Leaves

/-! ## Step by step -/

/-- Takes a step for each item, whatever becomes of the others, and tells how each went. -/
def each
    {γ : Type}
    (step : γ → Step σ β) :
    List γ →
    Step σ (List (Except Fault β))
  | [] => return []
  | item :: items => do
    let outcome ← (step item).outcome
    return outcome :: (← each step items)

theorem outcome_apply
    (step : Step σ α)
    (s : Placed σ) :
    ∃ told, step.outcome s = .ok told (step.reached s) := by
  unfold outcome reached
  cases step s with
  | ok a after => exact ⟨.ok a, rfl⟩
  | error fault after => exact ⟨.error fault, rfl⟩

theorem outcome_of_ofExcept
    {step : Step σ α}
    {s after : Placed σ}
    {decided : Except Fault α}
    (ends : step s = ofExcept decided after) :
    step.outcome s = .ok decided after := by
  unfold outcome
  rw [ends]
  cases decided with
  | ok a => rfl
  | error fault => rfl

/-- A step ends as its outcome tells. -/
theorem ofExcept_of_outcome
    {step : Step σ α}
    {s after : Placed σ}
    {decided : Except Fault α}
    (outcome : step.outcome s = .ok decided after) :
    step s = ofExcept decided after := by
  unfold Step.outcome at outcome
  cases ends : step s with
  | ok a reached =>
      rw [ends] at outcome
      cases outcome
      rfl
  | error fault reached =>
      rw [ends] at outcome
      cases outcome
      rfl

/-- A step answers what its outcome tells. -/
theorem eq_ok_iff_of_outcome
    {step : Step σ α}
    {s : Placed σ}
    {told : Except Fault α}
    {a : α}
    (outcome : step.outcome s = .ok told (step.reached s)) :
    step s = .ok a (step.reached s) ↔ told = .ok a := by
  rw [ofExcept_of_outcome outcome]
  cases told with
  | ok b =>
      constructor
      · rintro ⟨⟩
        rfl
      · rintro ⟨⟩
        rfl
  | error fault =>
      constructor
      · rintro ⟨⟩
      · rintro ⟨⟩

/-- A step after which there is nothing to change is as it is without the change. -/
theorem thenUpdate_of_same
    {change : σ → σ}
    {step : Step σ α}
    {s : Placed σ}
    (same : change (step.reached s).subject = (step.reached s).subject) :
    step.thenUpdate change s = step s := by
  rcases outcome_apply step s with ⟨told, outcome⟩
  have unchanged : update change (step.reached s) = .ok () (step.reached s) := by
    rw [update_apply, same]
  rw [ofExcept_of_outcome outcome]
  exact (bind_of_ok outcome).trans (bind_of_ok unchanged)

/-- Steps for each item do not fail. -/
theorem each_apply
    {γ : Type}
    (step : γ → Step σ β)
    (items : List γ)
    (s : Placed σ) :
    ∃ told, each step items s = .ok told ((each step items).reached s) := by
  induction items generalizing s with
  | nil => exact ⟨[], rfl⟩
  | cons item items ih =>
      rcases outcome_apply (step item) s with ⟨first, outcome⟩
      rcases ih ((step item).reached s) with ⟨rest, all⟩
      refine ⟨first :: rest, ?_⟩
      have done : each step (item :: items) s
          = .ok (first :: rest) ((each step items).reached ((step item).reached s)) :=
        (bind_of_ok outcome).trans ((bind_of_ok all).trans rfl)
      rw [reached_of_ok done]
      exact done

theorem reached_each_cons
    {γ : Type}
    (step : γ → Step σ β)
    (item : γ)
    (items : List γ)
    (s : Placed σ) :
    (each step (item :: items)).reached s = (each step items).reached ((step item).reached s) := by
  rcases outcome_apply (step item) s with ⟨first, outcome⟩
  rcases each_apply step items ((step item).reached s) with ⟨rest, all⟩
  exact reached_of_ok ((bind_of_ok outcome).trans ((bind_of_ok all).trans rfl))

theorem reached_each_append
    {γ : Type}
    (step : γ → Step σ β)
    (items later : List γ)
    (s : Placed σ) :
    (each step (items ++ later)).reached s
      = (each step later).reached ((each step items).reached s) := by
  induction items generalizing s with
  | nil => rfl
  | cons item items ih => rw [List.cons_append, reached_each_cons, reached_each_cons, ih]

/-- What is told about each item is told about the first one and about the others after it. -/
theorem each_cons_eq_ok
    {γ : Type}
    {step : γ → Step σ β}
    {item : γ}
    {items : List γ}
    {s r : Placed σ}
    {told : List (Except Fault β)}
    (done : each step (item :: items) s = .ok told r) :
    ∃ first rest, told = first :: rest
      ∧ (step item).outcome s = .ok first ((step item).reached s)
      ∧ each step items ((step item).reached s) = .ok rest r := by
  rcases outcome_apply (step item) s with ⟨first, outcome⟩
  rcases each_apply step items ((step item).reached s) with ⟨rest, all⟩
  cases ((bind_of_ok outcome).trans ((bind_of_ok all).trans rfl)).symm.trans done
  exact ⟨first, rest, rfl, outcome, all⟩

/-- The first item is told about first. -/
theorem each_cons_of_ok
    {γ : Type}
    {step : γ → Step σ β}
    {item : γ}
    {items : List γ}
    {s r after : Placed σ}
    {first : Except Fault β}
    {rest : List (Except Fault β)}
    (outcome : (step item).outcome s = .ok first r)
    (done : each step items r = .ok rest after) :
    each step (item :: items) s = .ok (first :: rest) after :=
  (bind_of_ok outcome).trans ((bind_of_ok done).trans rfl)

/-- Steps for each item leave alone what each of them does. -/
theorem leaves_each
    {γ δ : Type}
    {view : Placed σ → δ}
    {step : γ → Step σ β}
    (leaves : ∀ item s, Leaves view (step item) s)
    (items : List γ)
    (s : Placed σ) :
    Leaves view (each step items) s := by
  induction items generalizing s with
  | nil => rfl
  | cons item items ih =>
      unfold Leaves
      rw [reached_each_cons]
      exact (ih _).trans (leaves item s)

/-- Taken from the same states, steps that go the same way go the same way as a whole. -/
theorem each_congr_cons
    {γ : Type}
    {step other : γ → Step σ β}
    {item : γ}
    {items : List γ}
    {s : Placed σ}
    (first : other item s = step item s)
    (rest : each other items ((step item).reached s) = each step items ((step item).reached s)) :
    each other (item :: items) s = each step (item :: items) s := by
  have sameOutcome : (other item).outcome s = (step item).outcome s := by
    unfold outcome
    rw [first]
  rcases outcome_apply (step item) s with ⟨told, outcome⟩
  refine (bind_of_ok (sameOutcome.trans outcome)).trans ((bind_of_ok outcome).trans ?_).symm
  exact bind_congr_at rest.symm _

/-- What holds at every point of a run holds at its start and at every point of the rest. -/
theorem prefixes_cons
    {γ : Type}
    {step : γ → Step σ β}
    {item : γ}
    {items : List γ}
    {s : Placed σ}
    (P : Placed σ → Prop)
    (all : ∀ before, before <+: item :: items → P ((each step before).reached s)) :
    P s ∧ ∀ before, before <+: items → P ((each step before).reached ((step item).reached s)) := by
  refine ⟨all [] List.nil_prefix, ?_⟩
  intro before begins
  rw [← reached_each_cons]
  exact all (item :: before) (List.cons_prefix_cons.mpr ⟨rfl, begins⟩)

end Chronicle.Step
