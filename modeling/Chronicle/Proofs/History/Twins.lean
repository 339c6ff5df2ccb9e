import Chronicle.Proofs.History.Peers

/-!
# Twins

Twins are peers of which one is over a backend that takes values of any size
and one over a backend that takes small ones.
-/

namespace Chronicle.History

/-- Two histories that differ in their backends and in the values that these take. -/
structure Twins
    (capacity : Nat)
    (writing : Prop)
    (s s' : Placed History) : Prop where
  outline : s'.subject.outline = s.subject.outline
  start : s'.subject.start = s.subject.start
  ongoing : s'.subject.recording.ongoing = s.subject.recording.ongoing
  unbounded : s.subject.backend.maxIntervalSize? = none
  bounded : s'.subject.backend.maxIntervalSize? = some capacity
  kept : s.subject.disposed = false → ∃ ledger,
    Kept s ledger ∧ Kept s' ledger ∧ (writing → Open s ledger ∧ Open s' ledger)

variable {capacity : Nat} {writing : Prop} {s s' : Placed History}

theorem Twins.peers
    (twins : Twins capacity writing s s') :
    Peers none (some capacity) writing s s' :=
  ⟨twins.outline, twins.start, twins.ongoing, twins.unbounded, twins.bounded, twins.kept⟩

theorem Peers.twins
    (peers : Peers none (some capacity) writing s s') :
    Twins capacity writing s s' :=
  ⟨peers.outline, peers.start, peers.ongoing, peers.capacity, peers.capacity', peers.kept⟩

/-- Twins judge small values alike. -/
theorem judgedAlike_of_small
    {value : Value}
    (small : Interval.sizeWith value ≤ capacity) :
    JudgedAlike none (some capacity) value := by
  refine Or.inr ⟨?_, ?_⟩
  · intro other bounded
    cases bounded
  · intro other bounded
    cases bounded
    exact small

/-- New histories over a memory and over a file are twins. -/
theorem twins_of_create
    {id : String}
    {start : Int}
    {name : String}
    {config : Tree.Config}
    {volume made : Volume}
    {memory file : History}
    (sound : volume.Sound)
    (created : create id start .memory volume = .ok (volume, memory))
    (created' : create id start (.file name config) volume = .ok (made, file)) :
    Twins config.coreCapacity True ⟨volume, memory⟩ ⟨made, file⟩ :=
  (peers_of_create sound created sound created').twins

end Chronicle.History
