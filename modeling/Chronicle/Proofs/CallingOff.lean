import Chronicle.Proofs.History.Snapshot
import Chronicle.Proofs.History.Wrapping
import Chronicle.Proofs.Replay

/-!
# Calling off leaves a clean prefix

A build that is called off before some event leaves the history of the events
before it.  Had there been no more events, the history would have been closed
at its latest change, and all that its attributes hold would have been stored.
That does not show: what is held up to the current end and what was stored up
to it are the same intervals, so every question is answered alike.
-/

namespace Chronicle

namespace Ledger

variable {ledger : Ledger} {stop t : Int}

/-! ## Closing does not show -/

end Ledger

namespace History

variable {s : Placed History} {ledger : Ledger}

end History

namespace Replay

open History (Open Kept Question wrapping)

/-! ## Feeding in two parts -/

theorem feed_cons
    (signal : Signal)
    (question : Nat)
    (tally : Tally)
    (event : Event)
    (later : List Event) :
    feed signal question tally (event :: later)
      = if signal question then callOff tally >>= fun outcome => pure (.ended outcome)
        else History.orAbandon (deliver tally event) >>= fun counted =>
          feed signal (question + 1) counted later := rfl

/-- Events are taken in one part after the other, unless the first part ends the build. -/
theorem feed_append
    (signal : Signal)
    (question : Nat)
    (tally : Tally)
    (events later : List Event) :
    feed signal question tally (events ++ later)
      = feed signal question tally events >>= fun progress =>
          match progress with
          | .ended outcome => pure (.ended outcome)
          | .reading tally => feed signal (question + events.length) tally later := by
  induction events generalizing question tally with
  | nil => exact (pure_bind _ _).symm
  | cons event events ih =>
      rw [List.cons_append, feed_cons, feed_cons]
      by_cases asked : signal question = true
      · simp only [if_pos asked, bind_assoc, pure_bind]
      · simp only [if_neg asked, bind_assoc]
        congr 1
        funext counted
        rw [ih, List.length_cons, Nat.add_assoc, Nat.add_comm 1]

/-- Only the answers to the questions that are asked make a difference, and not their numbers. -/
theorem feed_congr
    {signal other : Signal}
    {question place : Nat}
    {events : List Event}
    (same : ∀ k < events.length, signal (question + k) = other (place + k))
    (tally : Tally) :
    feed signal question tally events = feed other place tally events := by
  induction events generalizing question place tally with
  | nil => rfl
  | cons event events ih =>
      have first := same 0 (Nat.succ_pos _)
      have later : ∀ k < events.length, signal (question + 1 + k) = other (place + 1 + k) := by
        intro k inside
        have next := same (k + 1) (Nat.succ_lt_succ inside)
        rwa [show question + (k + 1) = question + 1 + k by omega,
          show place + (k + 1) = place + 1 + k by omega] at next
      rw [Nat.add_zero, Nat.add_zero] at first
      rw [feed_cons, feed_cons, first]
      simp only [ih later]

theorem resume_congr
    {signal other : Signal}
    {question place : Nat}
    {events : List Event}
    (same : ∀ k ≤ events.length, signal (question + k) = other (place + k))
    (tally : Tally) :
    resume signal question tally events = resume other place tally events := by
  unfold resume
  rw [feed_congr (fun k inside => same k (Nat.le_of_lt inside)) tally,
    same events.length (Nat.le_refl _)]

/-- A build takes in its first events and then, unless it has ended, goes on with the others. -/
theorem run_eq_feed_take
    (signal : Signal)
    (events : List Event)
    (count : Nat) :
    run signal events
      = feed signal 0 {} (events.take count) >>= fun progress =>
          match progress with
          | .ended outcome => pure outcome
          | .reading tally =>
            resume signal (events.take count).length tally (events.drop count) := by
  have parts : events.take count ++ events.drop count = events := List.take_append_drop count events
  have length : (events.take count).length + (events.drop count).length = events.length := by
    rw [← List.length_append, parts]
  unfold run resume
  conv_lhs => rw [← parts, feed_append]
  rw [bind_assoc]
  congr 1
  funext progress
  cases progress with
  | ended outcome => rfl
  | reading tally =>
      rw [Nat.zero_add, Nat.zero_add, parts, length]

/-- A history as it is when a build that made it was called off. -/
def stopped (s : Placed History) : Placed History :=
  ⟨s.volume, History.settle .cancelled s.subject⟩

/-- Where a build of all its events has come to before it is closed or called off. -/
theorem exists_read
    {id : String}
    {start : Int}
    {plan : Backend.Plan}
    {volume made : Volume}
    {history : History}
    {events : List Event}
    (sound : volume.Sound)
    (created : History.create id start plan volume = .ok (made, history))
    (whole : Event.broken ∉ events) :
    ∃ tally between ledger,
      feed .never 0 {} events ⟨made, history⟩ = .ok (.reading tally) between
        ∧ Open between ledger
        ∧ between.subject.start = start
        ∧ (between.subject.backend.Accepts between.subject.names ↔
          plan = .memory ∨ between.subject.names.Storable) := by
  rcases History.open_of_create sound created with ⟨open_, -, capacity⟩
  rcases exists_feed open_ whole .never 0 {} with
    ⟨tally, between, fed, ⟨-, reads⟩ | ⟨⟨j, -, fires⟩, -⟩⟩
  · rcases fed.built.open_ with ⟨ledger, openBetween⟩
    exact ⟨tally, between, ledger, reads, openBetween,
      fed.built.start.trans open_.kept.keeps.start,
      (fed.built.accepts_iff _).trans (Backend.accepts_iff_of_plan capacity)⟩
  · cases fires

end Replay

end Chronicle
