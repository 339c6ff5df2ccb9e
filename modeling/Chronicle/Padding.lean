/-!
# Padded arrays

Arrays indexed by attribute numbers grow on demand: a place beyond the end is
made by filling up what is missing before it.
-/

namespace Chronicle

/-- The array with `a` in place `index`; places missing before it get `fill`. -/
def setPadded
    {α : Type}
    (items : Array α)
    (index : Nat)
    (a fill : α) :
    Array α :=
  (items ++ Array.replicate (index + 1 - items.size) fill).setIfInBounds index a

@[simp]
theorem size_setPadded
    {α : Type}
    (items : Array α)
    (index : Nat)
    (a fill : α) :
    (setPadded items index a fill).size = max items.size (index + 1) := by
  simp only [setPadded, Array.size_setIfInBounds, Array.size_append, Array.size_replicate]
  omega

/-- What a place holds after one place was set. -/
theorem getD_setPadded
    {α : Type}
    (items : Array α)
    (index place : Nat)
    (a fill : α) :
    (setPadded items index a fill).getD place fill
      = if place = index then a else items.getD place fill := by
  simp only [setPadded, Array.getD_eq_getD_getElem?, Array.getElem?_setIfInBounds,
    Array.size_append, Array.size_replicate, Array.getElem?_append, Array.getElem?_replicate]
  by_cases same : place = index
  · subst same
    have : place < items.size + (place + 1 - items.size) := by omega
    simp [this]
  · by_cases inside : place < items.size
    · simp [same, Ne.symm same, inside]
    · simp only [same, Ne.symm same, inside, if_false]
      split <;> simp [Array.getElem?_eq_none (Nat.le_of_not_lt inside)]

end Chronicle
