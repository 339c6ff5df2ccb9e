import Chronicle.Proofs.History.Lifecycle
import Chronicle.Proofs.History.Reopening
import Chronicle.Proofs.Recording.Commuting

/-!
# Changes at one time

Of two attributes that are given something at one time, it does not matter
which is first.  What they held ends in another order then, and a tree may keep
it in other nodes, but no later answer tells, not even that of a history that
was opened again from the file.
-/

namespace Chronicle.History

variable {s : Placed History} {ledger : Ledger} {t : Int} {value otherValue : Value}
  {quark other : Int}

/-! ## In either order -/

/-- A history keeps no order between what ended together. -/
theorem Open.swap
    {others : List Interval}
    (open_ : Open s ledger)
    (swapped : Interval.Swapped ledger.taken others) :
    Open s { ledger with taken := others } :=
  ⟨open_.alive, open_.goes.swap swapped, open_.named, open_.ending⟩

/-- A history that can be written to is its own peer. -/
theorem Open.peers
    {bound : Option Nat}
    (open_ : Open s ledger)
    (capacity : s.subject.backend.maxIntervalSize? = bound) :
    Peers bound bound True s s :=
  open_.kept.peers open_.kept (fun _ => ⟨open_, open_⟩) rfl capacity capacity

/-- The operation that gives an attribute a value. -/
def setting
    (t : Int)
    (value : Value)
    (quark : Int) :
    Operation :=
  .call (.make (.set t value quark))

section Exchange

variable {plan : Backend.Plan} {left right : Operation} {before later : List Operation}

end Exchange

/-! ## Opened again -/

/-- What is done before two attributes are given something at one time. -/
def approach : List Operation :=
  [.call (.make (.intern (-1) ["a"])),
    .call (.make (.intern (-1) ["b", "c"])),
    setting 2 (.int 1) 0,
    setting 3 (.int 2) 2]

/-- What is done and asked afterwards. -/
def departure : List Operation :=
  [setting 7 (.int 9) 1,
    .scan (.ongoing 2),
    .describe]

/-- Two attributes are given something at one time. -/
def crossing : List Operation :=
  approach ++ setting 5 (.int 7) 0 :: setting 5 (.int 8) 2 :: departure

end Chronicle.History
