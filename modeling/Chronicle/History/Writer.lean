import Chronicle.History.Basic

/-!
# Writing a history

The changes that the one writer of a history makes.  Besides setting a value
there are counters, which hold the count, and stacks: an attribute holds the
height of its stack, and its children `1`, `2`, … hold the elements from the
bottom up.  A writer ends by closing the history or by giving it up.
-/

namespace Chronicle.History

/-- The greatest height of a stack. -/
def maxStackHeight : Nat := 100000

/-- The attribute that `path` leads to from `base`; it is created if it is missing. -/
def intern
    (base : Int)
    (path : List String) :
    Step History Int := do
  let history ← Step.subject
  match history.names.resolve? base path with
  | some quark => return quark
  | none =>
    Step.ofExcept history.checkUsable
    let (names, quark) ← Step.ofExcept (history.names.intern base path)
    Step.update fun history => { history with names }
    onRecording (Recording.updateOngoing fun ongoing => ongoing.grow names.size)
    return quark

/-- Gives `quark` a value from `t` on. -/
def set
    (t : Int)
    (value : Value)
    (quark : Int) :
    Step History Unit := do
  Step.ofExcept (← Step.subject).checkUsable
  onRecording (Recording.change t value quark)
  Step.update fun history => { history with currentEnd := max history.currentEnd t }

/-- Counts one more on `quark` from `t` on. -/
def increment
    (t quark : Int) :
    Step History Unit := do
  let value ← Step.ofExcept ((← Step.subject).ongoingValue quark)
  set t (← Step.ofExcept value.successor) quark

/-- The height of the stack on `quark`. -/
def stackHeight
    (history : History)
    (quark : Int) :
    Except Fault Int := do
  let value ← history.ongoingValue quark
  let height ← value.asHeight
  return height.toInt

/-- The attribute that holds the element of a stack at a height. -/
def stackElement
    (quark height : Int) :
    Step History Int :=
  intern quark [toString height]

/-- Gives `quark` and all that is below it the value null from `t` on. -/
def remove
    (t quark : Int) :
    Step History Unit := do
  let below ← Step.ofExcept ((← Step.subject).names.below quark true)
  below.forM fun inner => set t .null inner
  set t .null quark

/-- Puts a value on the stack on `quark` at `t`. -/
def push
    (t : Int)
    (value : Value)
    (quark : Int) :
    Step History Unit := do
  let history ← Step.subject
  Step.ofExcept (history.recording.store.checkFits value)
  let height ← Step.ofExcept (history.stackHeight quark)
  if (maxStackHeight : Int) ≤ height then
    throw (.badArgument (.deepStack quark maxStackHeight))
  let element ← stackElement quark (height + 1)
  set t (.int (Int32.ofInt (height + 1))) quark
  set t value element

/-- Takes the uppermost value from the stack on `quark` at `t`, if there is one. -/
def pop
    (t quark : Int) :
    Step History (Option Value) := do
  let height ← Step.ofExcept ((← Step.subject).stackHeight quark)
  if height ≤ 0 then
    return none
  let element ← stackElement quark height
  let popped ← Step.ofExcept ((← Step.subject).ongoingValue element)
  set t (if height = 1 then .null else .int (Int32.ofInt (height - 1))) quark
  remove t element
  return some popped

/-- Gives `quark` another value for the whole time that it has held the present one. -/
def overwrite
    (value : Value)
    (quark : Int) :
    Step History Unit := do
  let history ← Step.subject
  Step.ofExcept history.checkUsable
  Step.ofExcept (history.recording.store.checkFits value)
  let slot ← Step.ofExcept (history.recording.ongoing.slot quark)
  onRecording (Recording.updateOngoing fun ongoing => ongoing.setSlot quark { slot with value })

/-- The time of the latest change. -/
def latest (history : History) : Int :=
  history.recording.ongoing.latest

/-- Stops the building of a history.  What there is can still be asked about. -/
def abandon : Step History Unit :=
  Step.update (settle .cancelled)

/-- A step after whose failure the history is given up by its writer. -/
def orAbandon
    {α : Type}
    (step : Step History α) :
    Step History α := do
  match ← Step.outcome step with
  | .ok a => return a
  | .error fault =>
    abandon
    throw fault

/-- Ends all that is held now at `stop` and completes the history. -/
def close (stop : Int) : Step History Unit := orAbandon do
  Step.ofExcept (← Step.subject).checkUsable
  onRecording (Recording.close stop)
  onStore (Store.finish stop (← Step.subject).names)
  Step.update fun history =>
    settle .completed { history with currentEnd := max history.currentEnd stop }

end Chronicle.History
