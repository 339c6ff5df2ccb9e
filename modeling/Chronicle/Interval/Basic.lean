import Chronicle.Value.Basic

/-!
# Intervals

A closed range of time over which one attribute held one value.  Both bounds
belong to it, and it contains at least one instant.
-/

namespace Chronicle

/-- A closed range of time over which an attribute held a value. -/
structure Interval where
  start : Int
  stop : Int
  quark : Int
  value : Value
  ordered : start ≤ stop
deriving DecidableEq

namespace Interval

/-- The interval with the given bounds, which must not be reversed. -/
def make
    (start stop : Int)
    (quark : Int)
    (value : Value) :
    Except Fault Interval :=
  if ordered : start ≤ stop then
    .ok ⟨start, stop, quark, value, ordered⟩
  else
    .error (.badArgument (.reversedInterval quark start stop))

/-- Whether an instant belongs to an interval. -/
def Covers
    (i : Interval)
    (t : Int) :
    Prop :=
  i.start ≤ t ∧ t ≤ i.stop

instance
    (i : Interval)
    (t : Int) :
    Decidable (i.Covers t) :=
  inferInstanceAs (Decidable (_ ∧ _))

theorem covers_start
    (i : Interval) :
    i.Covers i.start :=
  ⟨Int.le_refl _, i.ordered⟩

theorem covers_stop
    (i : Interval) :
    i.Covers i.stop :=
  ⟨i.ordered, Int.le_refl _⟩

end Interval

end Chronicle
