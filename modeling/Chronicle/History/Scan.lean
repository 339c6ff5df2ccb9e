import Chronicle.Cancellation
import Chronicle.History.Basic

/-!
# Scanning a history

Questions about ranges of time.  Unlike questions about one instant they take
any times and ask about the nearest instants that answers are given about.
-/

namespace Chronicle.History

/--
Goes over the intervals of `quark` from `t` to `stop`, for at most `instants`
of them, up to the first that does not hold null.
-/
def seekValue
    (quark stop : Int) :
    (instants : Nat) →
    (t : Int) →
    Step History (Option Interval)
  | 0, _ => return none
  | instants + 1, t => do
    if stop < t then
      return none
    let i ← intervalAt t quark
    if !i.value.isNull then
      return some i
    if stop ≤ i.stop then
      return none
    seekValue quark stop instants (i.stop + 1)

/-- The first interval of `quark` between two times that does not hold null. -/
def firstValue
    (quark start stop : Int) :
    Step History (Option Interval) := do
  let history ← Step.subject
  Step.ofExcept history.checkUsable
  let first := history.clamp start
  let last := history.clamp stop
  seekValue quark last (last + 1 - first).toNat first

/-- Gathers the intervals of `quark` from `t` to `stop`, at most `instants + 1` of them. -/
def gather
    (quark stop : Int) :
    (instants : Nat) →
    (t : Int) →
    Step History (List Interval)
  | 0, t => do
    return [← intervalAt t quark]
  | instants + 1, t => do
    let i ← intervalAt t quark
    if stop ≤ i.stop then
      return [i]
    return i :: (← gather quark stop instants (i.stop + 1))

/-- The intervals of `quark` that have instants between two times, in order. -/
def intervalsBetween
    (quark start stop : Int) :
    Step History (List Interval) := do
  let history ← Step.subject
  Step.ofExcept history.checkUsable
  if stop < start then
    throw (.badArgument (.reversedRange start stop))
  let first := history.clamp start
  let last := history.clamp stop
  gather quark last (last - first).toNat first

/-- The count on `quark` at the instant nearest to `t`. -/
def countAt
    (quark t : Int) :
    Step History Int := do
  let i ← intervalAt ((← Step.subject).clamp t) quark
  Step.ofExcept i.value.asCount

/--
How far the count on `quark` grew over each of the buckets that are left:
`count` of the width `width` from `border` on, where it was `previous`, and a
last one up to `stop`.  Before each of them `signal` is asked.
-/
def fillBuckets
    (quark width stop : Int)
    (signal : Signal)
    (question : Nat) :
    (count : Nat) →
    (border previous : Int) →
    Step History (List Int)
  | 0, _, previous => do
    Step.ofExcept (signal.check question)
    return [(← countAt quark stop) - previous]
  | count + 1, border, previous => do
    Step.ofExcept (signal.check question)
    let current ← countAt quark (border + width)
    return (current - previous)
      :: (← fillBuckets quark width stop signal (question + 1) count (border + width) current)

/-- The most buckets for which a piece of memory has room: eight bytes each, of 2^63 - 1 at most. -/
def mostBuckets : Nat := 1152921504606846975

/--
How far the count on `quark` grew over each of `buckets` parts of equal width
between two times; the last part also has what is left over.  Room is made for
all of them before the first one is counted and before `signal` is asked.
-/
def histogram
    (quark start stop : Int)
    (buckets : Nat)
    (signal : Signal) :
    Step History (List Int) := do
  Step.ofExcept (← Step.subject).checkUsable
  if buckets = 0 ∨ stop < start then
    throw (.badArgument (.unbucketed buckets start stop))
  if latestInstant < stop - start then
    throw (.badArgument (.wideRange start stop))
  let first ← countAt quark start
  if mostBuckets < buckets then
    throw (.oversized buckets)
  fillBuckets quark ((stop - start) / buckets) stop signal 0 (buckets - 1) start first

/-- How far the count on `quark` grew between two times, with what happened at the first. -/
def growth
    (quark start stop : Int) :
    Step History Int := do
  let history ← Step.subject
  Step.ofExcept history.checkUsable
  let before ← if start ≤ history.start then pure 0 else countAt quark (start - 1)
  return (← countAt quark stop) - before

end Chronicle.History
