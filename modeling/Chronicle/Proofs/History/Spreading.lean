import Chronicle.Proofs.Namespace.Subtree
import Chronicle.History.Writer

/-!
# Stacks over attributes

A stack is what pushes and pops come to.  It is spread over attributes: one of
them holds the height, and its children `1`, `2`, … hold the elements from the
bottom up.  What else is below that attribute holds null, so that an element
can be put there or taken away with all that is below it.
-/

namespace Chronicle.History

/-! ## Stacks as they are meant -/

/-- What is done to a stack. -/
inductive Act
  | push (t : Int) (value : Value)
  | pop (t : Int) (found : Option Value)
deriving DecidableEq

namespace Act

def time : Act → Int
  | push t _ => t
  | pop t _ => t

/-- Whether nothing was found. -/
def idle : Act → Bool
  | pop _ none => true
  | _ => false

/-- What a stack becomes, from the bottom up. -/
def apply
    (values : List Value) :
    Act →
    List Value
  | push _ value => values ++ [value]
  | pop _ _ => values.dropLast

end Act

/-- The stack that acts come to, one after the other. -/
def stackOf (acts : List Act) : List Value :=
  acts.foldl Act.apply []

/-- The stack that the acts up to `t` come to. -/
def stackAt
    (acts : List Act)
    (t : Int) :
    List Value :=
  stackOf (acts.filter fun act => act.time ≤ t)

/-- The acts that did something. -/
def effective (acts : List Act) : List Act :=
  acts.filter fun act => !act.idle

/-- Acts of which each pop found the uppermost value of the stack, or nothing if there was none. -/
inductive Told : List Act → Prop
  | nil : Told []
  | push
      {acts : List Act}
      (told : Told acts)
      (t : Int)
      (value : Value) :
      Told (acts ++ [.push t value])
  | pop
      {acts : List Act}
      (told : Told acts)
      (t : Int) :
      Told (acts ++ [.pop t (stackOf acts).getLast?])

/-- Acts none of which comes earlier than an act before it that did something. -/
def Timely (acts : List Act) : Prop :=
  acts.Pairwise fun before after => before.idle = true ∨ before.time ≤ after.time

instance : DecidablePred Timely :=
  fun acts => inferInstanceAs (Decidable (acts.Pairwise _))

section Acts

variable {acts : List Act} {t : Int}

theorem stackOf_concat
    (acts : List Act)
    (act : Act) :
    stackOf (acts ++ [act]) = act.apply (stackOf acts) :=
  List.foldl_append

theorem stackAt_concat
    (acts : List Act)
    (act : Act)
    (t : Int) :
    stackAt (acts ++ [act]) t
      = if act.time ≤ t then act.apply (stackAt acts t) else stackAt acts t := by
  unfold stackAt
  rw [List.filter_append]
  by_cases reached : act.time ≤ t
  · rw [List.filter_cons_of_pos (by simpa using reached), List.filter_nil, if_pos reached]
    exact stackOf_concat _ act
  · rw [List.filter_cons_of_neg (by simpa using reached), List.filter_nil, List.append_nil,
      if_neg reached]

theorem effective_concat_of_idle
    {act : Act}
    (idle : act.idle = true)
    (acts : List Act) :
    effective (acts ++ [act]) = effective acts := by
  unfold effective
  simp [List.filter_append, idle]

theorem effective_concat_of_busy
    {act : Act}
    (busy : act.idle = false)
    (acts : List Act) :
    effective (acts ++ [act]) = effective acts ++ [act] := by
  unfold effective
  simp [List.filter_append, busy]

/-- From the last act on, the stack is what all acts come to. -/
theorem stackAt_of_late
    (late : ∀ act ∈ acts, act.time ≤ t) :
    stackAt acts t = stackOf acts := by
  unfold stackAt
  rw [List.filter_eq_self.mpr fun act member => decide_eq_true (late act member)]

namespace Told

/-- Acts that did nothing can be left out. -/
theorem stackOf_effective
    (told : Told acts) :
    stackOf (effective acts) = stackOf acts := by
  induction told with
  | nil => rfl
  | push _ t value ih =>
      rw [effective_concat_of_busy rfl, stackOf_concat, ih, stackOf_concat]
  | @pop acts _ t ih =>
      rw [stackOf_concat]
      cases found : (stackOf acts).getLast? with
      | none =>
          rw [effective_concat_of_idle rfl, ih, List.getLast?_eq_none_iff.mp found]
          rfl
      | some value =>
          rw [effective_concat_of_busy rfl, stackOf_concat, ih]

/-- At any instant, if they came in time. -/
theorem stackAt_effective
    (told : Told acts)
    (timely : Timely acts)
    (t : Int) :
    stackAt (effective acts) t = stackAt acts t := by
  induction told with
  | nil => rfl
  | push _ time value ih =>
      have before := (List.pairwise_append.mp timely).1
      rw [effective_concat_of_busy rfl, stackAt_concat, stackAt_concat, ih before]
  | @pop acts told time ih =>
      rcases List.pairwise_append.mp timely with ⟨before, -, follows⟩
      rw [stackAt_concat]
      cases found : (stackOf acts).getLast? with
      | some value =>
          rw [effective_concat_of_busy rfl, stackAt_concat, ih before]
      | none =>
          rw [effective_concat_of_idle rfl, ← ih before]
          split
          · rename_i reached
            -- All that did something came by then, and it came to an empty stack.
            have late : ∀ act ∈ effective acts, act.time ≤ t := by
              intro act member
              rcases List.mem_filter.mp member with ⟨listed, busy⟩
              rcases follows act listed _ List.mem_cons_self with idle | earlier
              · simp [idle] at busy
              · exact Int.le_trans earlier reached
            rw [stackAt_of_late late, told.stackOf_effective, List.getLast?_eq_none_iff.mp found]
            rfl
          · rfl

end Told

end Acts

/-! ## Stacks as they are spread -/

/-- What an attribute holds that a stack of the given height is on. -/
def heightOf (height : Nat) : Value :=
  if height = 0 then .null else .int (Int32.ofInt height)

/-- The name of the element that `k` others are below. -/
def elementName (k : Nat) : String :=
  toString ((k : Int) + 1)

theorem elementName_injective : Function.Injective elementName := by
  have read : ∀ k, Nat.ofDigitChars 10 (elementName k).toList 0 = k + 1 := by
    intro k
    show Nat.ofDigitChars 10 (Nat.repr (k + 1)).toList 0 = k + 1
    rw [Nat.toList_repr, Nat.ofDigitChars_toDigits (by decide) (by decide)]
  intro k j same
  have numbers := read k
  rw [same, read j] at numbers
  omega

/-- Heights are small enough to be told as they are. -/
theorem toInt_height
    {height : Nat}
    (few : height ≤ maxStackHeight) :
    (Int32.ofInt height).toInt = height := by
  have bound : height ≤ 100000 := few
  exact Int32.toInt_ofInt_of_le (by omega) (by omega)

theorem asHeight_heightOf
    (height : Nat) :
    (heightOf height).asHeight = .ok (Int32.ofInt height) := by
  unfold heightOf
  split
  · rename_i empty
    rw [empty]
    rfl
  · rfl

/-- What is set when one of so many elements and one more is taken away. -/
theorem heightOf_lowered (height : Nat) :
    (if (height : Int) + 1 = 1 then .null else .int (Int32.ofInt (height + 1 - 1)))
      = heightOf height := by
  unfold heightOf
  rw [Int.add_sub_cancel]
  exact if_congr (by omega) rfl rfl

/-- What hangs below an attribute that a stack is on, and what of it holds something. -/
structure Spread
    (holds : Int → Value → Prop)
    (names : Namespace)
    (stack : Int)
    (values : List Value) : Prop where
  few : values.length ≤ maxStackHeight
  height : holds stack (heightOf values.length)
  element : ∀ k (inside : k < values.length), ∃ q,
    names.child? stack (elementName k) = some q ∧ holds q values[k]
  /-- Children for elements above the uppermost one hold null. -/
  beyond : ∀ k, values.length ≤ k → ∀ q,
    names.child? stack (elementName k) = some q → holds q .null
  /-- So does all that is below the attribute and is no element of the stack. -/
  rest : ∀ q, names.Ancestor stack q →
    (∀ k < values.length, names.child? stack (elementName k) ≠ some q) → holds q .null

namespace Spread

variable {holds after : Int → Value → Prop} {names more : Namespace} {stack element : Int}
  {values : List Value} {value : Value}

/-- Two elements of a stack have two places. -/
theorem index_eq
    {k j : Nat}
    {q : Int}
    (one : names.child? stack (elementName k) = some q)
    (two : names.child? stack (elementName j) = some q) :
    k = j := by
  have named := (Namespace.hangs_of_child? one).2.2
  have namedToo := (Namespace.hangs_of_child? two).2.2
  exact elementName_injective (Except.ok.inj (named.symm.trans namedToo))

theorem ancestor_of_child?
    {k : Nat}
    {q : Int}
    (found : names.child? stack (elementName k) = some q) :
    names.Ancestor stack q := by
  rcases Namespace.hangs_of_child? found with ⟨known, hangs, -⟩
  exact .parent known hangs

/-- What no element is in the place of includes the places above the uppermost element. -/
theorem of_rest
    (few : values.length ≤ maxStackHeight)
    (height : holds stack (heightOf values.length))
    (element : ∀ k (inside : k < values.length), ∃ q,
      names.child? stack (elementName k) = some q ∧ holds q values[k])
    (rest : ∀ q, names.Ancestor stack q →
      (∀ k < values.length, names.child? stack (elementName k) ≠ some q) → holds q .null) :
    Spread holds names stack values where
  few := few
  height := height
  element := element
  beyond k above q found := by
    refine rest q (ancestor_of_child? found) fun j inside other => ?_
    have same := index_eq found other
    omega
  rest := rest

/-- What was no element, or was not there, is not held anything by in a namespace that grew. -/
theorem rest_of_extends
    {q : Int}
    (spread : Spread holds names stack values)
    (extends_ : names.Extends more)
    (fresh : ∀ q, more.Ancestor stack q → ¬ names.Contains q → holds q .null)
    (below : more.Ancestor stack q)
    (other : ∀ k < values.length, more.child? stack (elementName k) ≠ some q) :
    holds q .null := by
  by_cases known : names.Contains q
  · refine spread.rest q ((extends_.ancestor_iff known).mp below) fun k inside found => ?_
    exact other k inside (extends_.finds found)
  · exact fresh q below known

/-- A stack stays what it is if all that is at or below it is held as before. -/
theorem frame
    (spread : Spread holds names stack values)
    (extends_ : names.Extends more)
    (fresh : ∀ q, more.Ancestor stack q → ¬ names.Contains q → holds q .null)
    (keeps : ∀ q v, q = stack ∨ more.Ancestor stack q → holds q v → after q v) :
    Spread after more stack values := by
  refine of_rest spread.few (keeps _ _ (Or.inl rfl) spread.height) ?_ ?_
  · intro k inside
    rcases spread.element k inside with ⟨q, found, held⟩
    have foundAfter := extends_.finds found
    exact ⟨q, foundAfter, keeps q _ (Or.inr (ancestor_of_child? foundAfter)) held⟩
  · intro q below other
    exact keeps q _ (Or.inr below) (spread.rest_of_extends extends_ fresh below other)

/-- A stack gets one more value, in the place above the uppermost element. -/
theorem push
    (spread : Spread holds names stack values)
    (extends_ : names.Extends more)
    (fresh : ∀ q, more.Ancestor stack q → ¬ names.Contains q → holds q .null)
    (room : values.length < maxStackHeight)
    (child : more.child? stack (elementName values.length) = some element)
    (height : after stack (heightOf (values.length + 1)))
    (top : after element value)
    (keeps : ∀ q v, more.Ancestor stack q → q ≠ element → holds q v → after q v) :
    Spread after more stack (values ++ [value]) := by
  have length : (values ++ [value]).length = values.length + 1 := List.length_append
  refine of_rest (length ▸ room) (length ▸ height) ?_ ?_
  · intro k inside
    by_cases last : k = values.length
    · subst last
      refine ⟨element, child, ?_⟩
      rw [List.getElem_concat_length rfl]
      exact top
    · have before : k < values.length := by omega
      rcases spread.element k before with ⟨q, found, held⟩
      have foundAfter := extends_.finds found
      refine ⟨q, foundAfter, ?_⟩
      rw [List.getElem_append_left before]
      refine keeps q _ (ancestor_of_child? foundAfter) ?_ held
      rintro rfl
      exact last (index_eq foundAfter child)
  · intro q below other
    refine keeps q _ below ?_ (spread.rest_of_extends extends_ fresh below fun k inside => ?_)
    · rintro rfl
      exact other values.length (by omega) child
    · exact other k (by omega)

/-- A stack loses its uppermost value, and all that is below the place of it is set to null. -/
theorem pop
    (spread : Spread holds names stack (values ++ [value]))
    (extends_ : names.Extends more)
    (fresh : ∀ q, more.Ancestor stack q → ¬ names.Contains q → holds q .null)
    (child : more.child? stack (elementName values.length) = some element)
    (height : after stack (heightOf values.length))
    (gone : ∀ q, q = element ∨ more.Ancestor element q → after q .null)
    (keeps : ∀ q v, more.Ancestor stack q → ¬ (q = element ∨ more.Ancestor element q) →
      holds q v → after q v) :
    Spread after more stack values := by
  have length : (values ++ [value]).length = values.length + 1 := List.length_append
  have few := spread.few
  refine of_rest (by omega) height ?_ ?_
  · intro k inside
    rcases spread.element k (by omega) with ⟨q, found, held⟩
    have foundAfter := extends_.finds found
    rw [List.getElem_append_left inside] at held
    refine ⟨q, foundAfter, keeps q _ (ancestor_of_child? foundAfter) ?_ held⟩
    -- Another element is neither the uppermost one nor below it, since both hang side by side.
    rintro (rfl | below)
    · exact Nat.ne_of_lt inside (index_eq foundAfter child)
    · rcases Namespace.hangs_of_child? foundAfter with ⟨known, hangs, -⟩
      rcases Namespace.hangs_of_child? child with ⟨knownTop, hangsTop, -⟩
      exact Namespace.Ancestor.not_of_siblings knownTop hangsTop hangs known below
  · intro q below other
    by_cases removed : q = element ∨ more.Ancestor element q
    · exact gone q removed
    · refine keeps q _ below removed
        (spread.rest_of_extends extends_ fresh below fun k inside found => ?_)
      by_cases last : k = values.length
      · subst last
        exact removed (Or.inl (Option.some.inj (found.symm.trans child)))
      · exact other k (by omega) found

end Spread

end Chronicle.History
