import Chronicle.Cancellation
import Chronicle.History.Basic

/-!
# Rates of counters

How fast counts grow, sampled at given times: the growth since the previous
sample, times a scale, over the time since then.  A sample costs one snapshot
for all counters.  Samples outside of the history are zero.
-/

namespace Chronicle.History

/-- The rates of one counter at the sample times; the first is zero. -/
structure Series where
  quark : Int
  rates : List Float

/-- The rate of a growth over a time, which is positive. -/
def rate
    (growth : Int)
    (scale : Float)
    (elapsed : Int) :
    Float :=
  (Int64.ofInt growth).toFloat * scale / (Int64.ofInt elapsed).toFloat

/-- From sectors in a nanosecond to bytes in a second. -/
def diskScale : Float := 512.0 * 1000000000.0

/-- The count on `quark` in a snapshot; a number without an attribute counts nothing. -/
def countIn
    (intervals : List Interval)
    (quark : Int) :
    Except Fault Int :=
  match (if 0 ≤ quark then intervals[quark.toNat]? else none) with
  | some i => i.value.asCount
  | none => .ok 0

/-- The counts on `quarks` at `t`. -/
def countsAt
    (quarks : List Int)
    (t : Int) :
    Step History (List Int) := do
  let intervals ← snapshot t
  Step.ofExcept (quarks.mapM (countIn intervals))

/-- The rates of all counters at one sample time. -/
def sample
    (scale : Float)
    (elapsed : Int)
    (counts previous : List Int) :
    List Float :=
  List.zipWith (fun count before => if 0 < elapsed then rate (count - before) scale elapsed else 0.0)
    counts previous

/--
The rates of all counters at each of the sample times after the first.  The
previous sample was at `previousTime`, and the counts known last are
`previous`.  Before each sample `signal` is asked.  After the first time
beyond the history all rates are zero.
-/
def samples
    (quarks : List Int)
    (scale : Float)
    (signal : Signal) :
    (times : List Int) →
    (question : Nat) →
    (previousTime : Int) →
    (previous : List Int) →
    Step History (List (List Float))
  | [], _, _, _ => return []
  | time :: later, question, previousTime, previous => do
    Step.ofExcept (signal.check question)
    let history ← Step.subject
    let silent := quarks.map fun _ => 0.0
    if history.currentEnd < time then
      return List.replicate (later.length + 1) silent
    else if history.start ≤ time then
      let counts ← countsAt quarks time
      return sample scale (time - previousTime) counts previous
        :: (← samples quarks scale signal later (question + 1) time counts)
    else
      return silent :: (← samples quarks scale signal later (question + 1) time previous)

/-- The rates of each of `quarks` at the sample times. -/
def rates
    (quarks times : List Int)
    (scale : Float)
    (signal : Signal) :
    Step History (List Series) := do
  let history ← Step.subject
  Step.ofExcept history.checkUsable
  match times with
  | [] => return quarks.map fun quark => ⟨quark, []⟩
  | first :: later =>
    let counts ←
      if history.start ≤ first ∧ first ≤ history.currentEnd then
        countsAt quarks first
      else
        pure (quarks.map fun _ => 0)
    let rows ← samples quarks scale signal later 0 first counts
    return quarks.mapIdx fun place quark =>
      ⟨quark, 0.0 :: rows.map fun row => row.getD place 0.0⟩

end Chronicle.History
