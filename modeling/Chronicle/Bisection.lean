/-!
# Bisection

The first index at which a test fails, found by halving an index range.  The
answer is meaningful for tests that hold on an initial stretch of the range
and fail on the rest, which is how sorted sequences are searched.
-/

namespace Chronicle.Bisection

/--
The first index of `[low, high)` at which `holds` fails, or `high`, for a test
that never holds again once it has failed.
-/
def firstFailure
    (holds : Nat → Bool)
    (low high : Nat) :
    Nat :=
  if inside : low < high then
    let middle := low + (high - low) / 2
    if holds middle then
      firstFailure holds (middle + 1) high
    else
      firstFailure holds low middle
  else
    low
termination_by high - low
decreasing_by all_goals omega

/-- The number of leading elements of `items` that pass `test`. -/
def prefixLength
    {α : Type}
    (items : Array α)
    (test : α → Bool) :
    Nat :=
  firstFailure (fun index => (items[index]?.map test).getD false) 0 items.size

/--
What a search over `[low, high)` returns: everything before it passes the
test and everything from it on fails, if the test is cut at one place.
-/
theorem firstFailure_eq
    {holds : Nat → Bool}
    {low cut high : Nat}
    (below : ∀ index, index < cut → holds index = true)
    (above : ∀ index, cut ≤ index → index < high → holds index = false)
    (low_le : low ≤ cut)
    (le_high : cut ≤ high) :
    firstFailure holds low high = cut := by
  fun_induction firstFailure holds low high with
  | case1 low high inside middle passes ih =>
    have : ¬ cut ≤ middle := fun late => by
      simp [above middle late (by omega)] at passes
    exact ih above (by omega) le_high
  | case2 low high inside middle fails ih =>
    have : ¬ middle < cut := fun early => fails (below middle early)
    exact ih (fun index late inRange => above index late (by omega)) low_le (by omega)
  | case3 low high outside => omega

end Chronicle.Bisection
