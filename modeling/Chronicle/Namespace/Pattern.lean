import Chronicle.Namespace.Basic

/-!
# Patterns

A pattern is a path in which a segment can also stand for any child, or for
the parent.  Its matches are the attributes that some chain of steps, one for
each segment, leads to; the root itself is no match.
-/

namespace Chronicle.Namespace

/-- One step of a pattern. -/
inductive Move
  /-- To any child. -/
  | anyChild
  /-- To the parent. -/
  | parent
  /-- To the child of this name. -/
  | child (name : String)
deriving DecidableEq, Repr

/-- The step that a segment stands for. -/
def Move.ofSegment (segment : String) : Move :=
  if segment = "*" then .anyChild
  else if segment = ".." then .parent
  else .child segment

/-- The places that one step leads to from `q`. -/
def step
    (ns : Namespace)
    (q : Int) :
    Move →
    List Int
  | .anyChild => ns.children q
  | .parent => ((ns.attribute? q).map (·.parent)).toList
  | .child name => (ns.child? q name).toList

/-- The places among `found`, in increasing order and each once. -/
def arrange
    (ns : Namespace)
    (found : List Int) :
    List Int :=
  (Quark.root :: ns.quarks).filter fun q => q ∈ found

/-- The places that the steps lead to from any of `places`. -/
def walk
    (ns : Namespace)
    (places : List Int)
    (moves : List Move) :
    List Int :=
  moves.foldl
    (fun reached move => ns.arrange (reached.flatMap fun q => ns.step q move))
    places

/-- The attributes below `base` that match a pattern, in increasing order. -/
def matching
    (ns : Namespace)
    (base : Int)
    (pattern : List String) :
    Except Fault (List Int) :=
  if pattern = [] ∨ "" ∈ pattern then
    .error (.badPattern pattern)
  else if ns.IsPlace base then
    .ok ((ns.walk [base] (pattern.map Move.ofSegment)).filter (· ≠ Quark.root))
  else
    .error (.notFound (.quark base))

end Chronicle.Namespace
