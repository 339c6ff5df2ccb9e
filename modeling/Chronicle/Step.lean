import Chronicle.Volume

/-!
# Steps

A step works on one subject next to a volume.  It answers or fails with a
fault; whatever it changed before a failure stays changed.  A step on a part
of a subject is a step on the subject.
-/

namespace Chronicle

/-- A subject next to the volume that it works with. -/
structure Placed (σ : Type) where
  volume : Volume
  subject : σ

/-- A computation on a subject and a volume that can fail. -/
abbrev Step (σ : Type) := EStateM Fault (Placed σ)

namespace Step

/-- The subject. -/
def subject {σ : Type} : Step σ σ :=
  return (← get).subject

/-- The volume. -/
def volume {σ : Type} : Step σ Volume :=
  return (← get).volume

/-- Replaces the subject. -/
def replace
    {σ : Type}
    (subject : σ) :
    Step σ Unit :=
  modify fun placed => { placed with subject }

/-- Changes the subject. -/
def update
    {σ : Type}
    (change : σ → σ) :
    Step σ Unit :=
  modify fun placed => { placed with subject := change placed.subject }

/-- Changes the volume. -/
def updateVolume
    {σ : Type}
    (change : Volume → Volume) :
    Step σ Unit :=
  modify fun placed => { placed with volume := change placed.volume }

/-- Answers or fails without a change. -/
def ofExcept
    {σ α : Type} :
    Except Fault α →
    Step σ α
  | .ok a => pure a
  | .error fault => throw fault

/-- Works on a part of the subject. -/
def onPart
    {σ τ α : Type}
    (part : σ → τ)
    (putBack : σ → τ → σ)
    (step : Step τ α) :
    Step σ α := fun placed =>
  match step ⟨placed.volume, part placed.subject⟩ with
  | .ok a after => .ok a ⟨after.volume, putBack placed.subject after.subject⟩
  | .error fault after => .error fault ⟨after.volume, putBack placed.subject after.subject⟩

/-- The outcome of a step as a value, so that what follows is done in any case. -/
def outcome
    {σ α : Type}
    (step : Step σ α) :
    Step σ (Except Fault α) := fun placed =>
  match step placed with
  | .ok a after => .ok (.ok a) after
  | .error fault after => .ok (.error fault) after

/-- A step after which the subject is changed, also if the step fails. -/
def thenUpdate
    {σ α : Type}
    (change : σ → σ)
    (step : Step σ α) :
    Step σ α := do
  let result ← step.outcome
  update change
  ofExcept result

end Step

end Chronicle
