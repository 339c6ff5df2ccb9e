import Chronicle.Fault

/-!
# Namespaces

Attributes are named by paths of segments below a nameless root and numbered
in the order of their creation.  A namespace only grows: numbers are never
taken away, reused or changed.  Every attribute comes after its parent, which
makes the way up from any attribute end at the root.
-/

namespace Chronicle

/-- One attribute: the place it hangs below, and the last segment of its path. -/
structure Attribute where
  parent : Int
  name : String
deriving DecidableEq, Repr

/-- A growing hierarchy of named and numbered attributes. -/
structure Namespace where
  /-- The attributes in the order of their numbers. -/
  attributes : Array Attribute
  parentsFirst :
    ∀ (index : Nat) (inside : index < attributes.size),
      attributes[index].parent = Quark.root
        ∨ (0 ≤ attributes[index].parent ∧ attributes[index].parent < index)
deriving DecidableEq

namespace Namespace

/-- The namespace without attributes. -/
def empty : Namespace :=
  ⟨#[], fun _ inside => absurd inside (Nat.not_lt_zero _)⟩

instance : Inhabited Namespace := ⟨empty⟩

/-- The number of attributes, which is the number the next one gets. -/
def size (ns : Namespace) : Nat :=
  ns.attributes.size

/-- Whether `q` is the number of an attribute. -/
def Contains
    (ns : Namespace)
    (q : Int) :
    Prop :=
  0 ≤ q ∧ q < ns.size

instance
    (ns : Namespace)
    (q : Int) :
    Decidable (ns.Contains q) :=
  inferInstanceAs (Decidable (_ ∧ _))

/-- Whether attributes can hang below `q`: the root and every attribute. -/
def IsPlace
    (ns : Namespace)
    (q : Int) :
    Prop :=
  q = Quark.root ∨ ns.Contains q

instance
    (ns : Namespace)
    (q : Int) :
    Decidable (ns.IsPlace q) :=
  inferInstanceAs (Decidable (_ ∨ _))

/-- The attribute with the number `q`. -/
def attribute?
    (ns : Namespace)
    (q : Int) :
    Option Attribute :=
  if 0 ≤ q then ns.attributes[q.toNat]? else none

/-- The attribute with the number `q`, or the fault of its absence. -/
def find
    (ns : Namespace)
    (q : Int) :
    Except Fault Attribute :=
  match ns.attribute? q with
  | some found => .ok found
  | none => .error (.notFound (.quark q))

/-- The numbers of all attributes, in increasing order. -/
def quarks (ns : Namespace) : List Int :=
  (List.range ns.size).map Int.ofNat

/-- The attributes that hang directly below `q`, in increasing order. -/
def children
    (ns : Namespace)
    (q : Int) :
    List Int :=
  ns.quarks.filter fun child => (ns.attribute? child).map (·.parent) = some q

/-- The child of `q` called `name`; of several the latest. -/
def child?
    (ns : Namespace)
    (q : Int)
    (name : String) :
    Option Int :=
  (ns.children q).reverse.find? fun child => (ns.attribute? child).map (·.name) = some name

/-- The attribute that `path` leads to from `base`.  The empty path leads to `base` itself. -/
def resolve?
    (ns : Namespace)
    (base : Int)
    (path : List String) :
    Option Int :=
  if ns.IsPlace base then path.foldlM ns.child? base else none

/-- The attribute that `path` leads to from `base`, or the fault of its absence. -/
def resolve
    (ns : Namespace)
    (base : Int)
    (path : List String) :
    Except Fault Int :=
  match ns.resolve? base path with
  | some q => .ok q
  | none => .error (.notFound (.path path))

/-- The namespace with one more attribute, which hangs below the place `parent`. -/
def add
    (ns : Namespace)
    (parent : Int)
    (name : String) :
    Namespace :=
  if place : ns.IsPlace parent then
    { attributes := ns.attributes.push ⟨parent, name⟩
      parentsFirst := by
        intro index inside
        rw [Array.getElem_push]
        split
        · rename_i earlier
          exact ns.parentsFirst index earlier
        · rename_i last
          rcases place with atRoot | ⟨nonneg, below⟩
          · exact Or.inl atRoot
          · refine Or.inr ⟨nonneg, ?_⟩
            have size_push :
                (ns.attributes.push ⟨parent, name⟩).size = ns.attributes.size + 1 :=
              Array.size_push _
            have below : parent < (ns.attributes.size : Int) := below
            show parent < (index : Int)
            omega }
  else
    ns

/-- Goes to the child called `segment` and creates it if it is missing. -/
def descend
    (reached : Namespace × Int)
    (segment : String) :
    Namespace × Int :=
  match reached.1.child? reached.2 segment with
  | some child => (reached.1, child)
  | none => (reached.1.add reached.2 segment, reached.1.size)

/-- The attribute that `path` leads to from `base`, with all that was missing on the way. -/
def intern
    (ns : Namespace)
    (base : Int)
    (path : List String) :
    Except Fault (Namespace × Int) :=
  if ns.IsPlace base then
    .ok (path.foldl descend (ns, base))
  else
    .error (.notFound (.quark base))

/-- The last segment of the path of `q`. -/
def name
    (ns : Namespace)
    (q : Int) :
    Except Fault String :=
  (·.name) <$> ns.find q

/-- The place that `q` hangs below; the root hangs below itself. -/
def parent
    (ns : Namespace)
    (q : Int) :
    Except Fault Int :=
  if q = Quark.root then .ok Quark.root else (·.parent) <$> ns.find q

/-- The segments on the way from the root down to `q`. -/
def trail
    (ns : Namespace)
    (q : Int) :
    List String :=
  if inside : 0 ≤ q ∧ q.toNat < ns.attributes.size then
    trail ns ns.attributes[q.toNat].parent ++ [ns.attributes[q.toNat].name]
  else
    []
termination_by (q + 1).toNat
decreasing_by
  have earlier := ns.parentsFirst q.toNat inside.2
  simp only [Quark.root] at earlier
  omega

/-- The path of `q` as segments. -/
def segments
    (ns : Namespace)
    (q : Int) :
    Except Fault (List String) :=
  if ns.IsPlace q then .ok (ns.trail q) else .error (.notFound (.quark q))

/-- The path of `q` as one text. -/
def fullPath
    (ns : Namespace)
    (q : Int) :
    Except Fault String :=
  "/".intercalate <$> ns.segments q

/-- The attributes below `q`, at any depth, in increasing order. -/
def descendants
    (ns : Namespace)
    (q : Int) :
    List Int :=
  ns.quarks.foldl
    (fun found child =>
      match ns.attribute? child with
      | some entry =>
        if entry.parent = q ∨ entry.parent ∈ found then found ++ [child] else found
      | none => found)
    []

/-- The children of `q` or, if `recursive`, all that is below it. -/
def below
    (ns : Namespace)
    (q : Int)
    (recursive : Bool) :
    Except Fault (List Int) :=
  if ns.IsPlace q then
    .ok (if recursive then ns.descendants q else ns.children q)
  else
    .error (.notFound (.quark q))

@[simp]
theorem size_empty : empty.size = 0 := rfl

/-- An addition below an existing place gives the next number. -/
theorem size_add
    {ns : Namespace}
    {parent : Int}
    (place : ns.IsPlace parent)
    (name : String) :
    (ns.add parent name).size = ns.size + 1 := by
  simp [add, place, size]

end Namespace

end Chronicle
