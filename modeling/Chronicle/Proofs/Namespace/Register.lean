import Chronicle.Proofs.Namespace.Interning

/-!
# Namespaces kept in tables

What hangs below a place, and what a name leads to from it, follows from the
parents and names of the attributes.  A register keeps both at hand: beside
each attribute the list of its children, one more list for the root, and an
index from a place and a name to an attribute.  It fills all three whenever an
attribute is added, and answers from the index alone.

Three tables that are filled side by side can disagree.  The statements here
say that they do not, whatever was entered: a register holds what follows from
its attributes, and it leads wherever the namespace of the same attributes does.
-/

namespace Chronicle

/-- An attribute in a register, with its children in the order of their creation. -/
structure Register.Entry where
  name : String
  parent : Int
  children : List Int
deriving DecidableEq, Repr

/-- A namespace with tables for what is asked of it. -/
structure Register where
  /-- The attributes in the order of their numbers. -/
  entries : Array Register.Entry
  /-- The children of the root in the order of their creation. -/
  topmost : List Int
  /-- The attributes by place and name, the latest first. -/
  index : List ((Int × String) × Int)
deriving DecidableEq, Repr

namespace Register

def empty : Register :=
  ⟨#[], [], []⟩

/-- Whether attributes can hang below `q`: the root and every attribute. -/
def IsPlace
    (r : Register)
    (q : Int) :
    Prop :=
  q = Quark.root ∨ (0 ≤ q ∧ q < r.entries.size)

instance
    (r : Register)
    (q : Int) :
    Decidable (r.IsPlace q) :=
  inferInstanceAs (Decidable (_ ∨ _))

/-- The attribute with the number `q`. -/
def find?
    (r : Register)
    (q : Int) :
    Option Entry :=
  if 0 ≤ q then r.entries[q.toNat]? else none

/-- The list of the children of the place `q`. -/
def children?
    (r : Register)
    (q : Int) :
    Option (List Int) :=
  if q = Quark.root then some r.topmost else (r.find? q).map (·.children)

/-- The attribute that the index has for a place and a name. -/
def child?
    (r : Register)
    (q : Int)
    (name : String) :
    Option Int :=
  r.index.lookup (q, name)

/-- The attribute that `path` leads to from `base`. -/
def resolve?
    (r : Register)
    (base : Int)
    (path : List String) :
    Option Int :=
  if r.IsPlace base then path.foldlM r.child? base else none

/-- Enters one more attribute below `parent` into all three tables. -/
def add
    (r : Register)
    (parent : Int)
    (name : String) :
    Register :=
  let quark : Int := r.entries.size
  let entries := r.entries.push ⟨name, parent, []⟩
  { entries :=
      if parent = Quark.root then entries
      else entries.modify parent.toNat fun above =>
        { above with children := above.children ++ [quark] }
    topmost := if parent = Quark.root then r.topmost ++ [quark] else r.topmost
    index := ((parent, name), quark) :: r.index }

/-- Goes to the child that the index has for `segment`, and creates it if there is none. -/
def descend
    (reached : Register × Int)
    (segment : String) :
    Register × Int :=
  match reached.1.child? reached.2 segment with
  | some child => (reached.1, child)
  | none => (reached.1.add reached.2 segment, reached.1.entries.size)

/-- The attribute that `path` leads to from `base`, with all that was missing on the way. -/
def intern
    (r : Register)
    (base : Int)
    (path : List String) :
    Except Fault (Register × Int) :=
  if r.IsPlace base then
    .ok (path.foldl descend (r, base))
  else
    .error (.notFound (.quark base))

/-- The register after an attempt to enter a path at a base. -/
def enter
    (r : Register)
    (call : Int × List String) :
    Register :=
  match r.intern call.1 call.2 with
  | .ok reached => reached.1
  | .error _ => r

/-- The register into which paths were entered, one after the other. -/
def grown (calls : List (Int × List String)) : Register :=
  calls.foldl enter empty

/-- The names on the way from the root down to `q`, if at most `steps` parents lead up to it. -/
def trail?
    (r : Register) :
    (steps : Nat) →
    (q : Int) →
    Option (List String)
  | 0, q => if q = Quark.root then some [] else none
  | steps + 1, q =>
    if q = Quark.root then some []
    else do
      let entry ← r.find? q
      let above ← r.trail? steps entry.parent
      return above ++ [entry.name]

end Register

/-- The register of the attributes of a namespace. -/
def Namespace.register (ns : Namespace) : Register :=
  ns.attributes.foldl (fun r a => r.add a.parent a.name) .empty

/-- A register whose three tables say what follows from the attributes of a namespace. -/
structure Register.Mirrors
    (r : Register)
    (ns : Namespace) : Prop where
  entry : ∀ q, r.find? q = (ns.attribute? q).map fun a => ⟨a.name, a.parent, ns.children q⟩
  topmost : r.topmost = ns.children Quark.root
  child : ∀ q name, r.child? q name = ns.child? q name

/-- A register that answers as a namespace does, from its tables alone. -/
structure Register.Answers
    (r : Register)
    (ns : Namespace) : Prop where
  place : ∀ q, r.IsPlace q ↔ ns.IsPlace q
  children : ∀ q, ns.IsPlace q → r.children? q = some (ns.children q)
  resolved : ∀ base path, r.resolve? base path = ns.resolve? base path
  /-- The way up from a place ends, after at most as many parents as its number allows. -/
  trail : ∀ q, ns.IsPlace q → r.trail? (q + 1).toNat q = some (ns.trail q)

namespace Register

variable {r : Register} {ns : Namespace} {parent q base : Int} {name : String} {path : List String}

theorem exists_find?_iff :
    (∃ e, r.find? q = some e) ↔ 0 ≤ q ∧ q < r.entries.size := by
  unfold find?
  by_cases nonneg : 0 ≤ q
  · simp only [nonneg, if_true, true_and, Array.getElem?_eq_some_iff]
    constructor
    · rintro ⟨e, inside, -⟩
      omega
    · intro inside
      exact ⟨_, by omega, rfl⟩
  · simp [nonneg]

namespace Mirrors

theorem inside_iff
    (mirrors : r.Mirrors ns) :
    (0 ≤ q ∧ q < r.entries.size) ↔ ns.Contains q := by
  rw [← exists_find?_iff, Namespace.contains_iff, mirrors.entry]
  simp

theorem isPlace_iff
    (mirrors : r.Mirrors ns) :
    r.IsPlace q ↔ ns.IsPlace q :=
  or_congr_right mirrors.inside_iff

theorem size
    (mirrors : r.Mirrors ns) :
    r.entries.size = ns.size := by
  have same : ∀ count : Nat, count < r.entries.size ↔ count < ns.size := by
    intro count
    have both := mirrors.inside_iff (q := count)
    unfold Namespace.Contains at both
    omega
  have below := same ns.size
  have above := same r.entries.size
  omega

/-- The list of children of every place is there and says what hangs below it. -/
theorem children
    (mirrors : r.Mirrors ns)
    (place : ns.IsPlace q) :
    r.children? q = some (ns.children q) := by
  unfold children?
  rcases place with rfl | known
  · rw [if_pos rfl, mirrors.topmost]
  · rcases Namespace.contains_iff.mp known with ⟨a, held⟩
    rw [if_neg (Namespace.ne_root_of_contains known), mirrors.entry, held]
    rfl

theorem resolve?
    (mirrors : r.Mirrors ns)
    (base : Int)
    (path : List String) :
    r.resolve? base path = ns.resolve? base path := by
  have sameChild : r.child? = ns.child? := funext fun q => funext (mirrors.child q)
  unfold Register.resolve? Namespace.resolve?
  simp only [mirrors.isPlace_iff, sameChild]

/-- The way up from a place leads over the parents that the table has. -/
theorem trail?
    (mirrors : r.Mirrors ns)
    (place : ns.IsPlace q)
    {steps : Nat}
    (enough : q < steps) :
    r.trail? steps q = some (ns.trail q) := by
  induction q, place using Namespace.induction_up generalizing steps with
  | root =>
      rw [Namespace.trail_root]
      cases steps <;> rfl
  | child q a held _ ih =>
      have known := Namespace.contains_iff.mpr ⟨a, held⟩
      have nonneg := known.1
      have earlier : a.parent < q := by
        rcases Namespace.isPlace_parent held with atRoot | ⟨-, earlier⟩
        · rw [atRoot]
          unfold Quark.root
          omega
        · exact earlier
      cases steps with
      | zero => omega
      | succ steps =>
          have above : r.trail? steps a.parent = some (ns.trail a.parent) := ih (by omega)
          unfold Register.trail?
          rw [if_neg (Namespace.ne_root_of_contains known), mirrors.entry, held,
            Namespace.trail_eq held]
          show (r.trail? steps a.parent >>= fun above => pure (above ++ [a.name])) = _
          rw [above]
          rfl

theorem answers
    (mirrors : r.Mirrors ns) :
    r.Answers ns :=
  ⟨fun _ => mirrors.isPlace_iff, fun _ => mirrors.children, mirrors.resolve?,
    fun _ place => mirrors.trail? place (by omega)⟩

end Mirrors

theorem find?_add
    (place : r.IsPlace parent)
    (name : String)
    (q : Int) :
    (r.add parent name).find? q
      = if q = r.entries.size then some ⟨name, parent, []⟩
        else (r.find? q).map fun e =>
          if q = parent then { e with children := e.children ++ [(r.entries.size : Int)] }
          else e := by
  by_cases nonneg : 0 ≤ q
  · lift q to Nat using nonneg
    unfold find? add
    simp only [Int.natCast_nonneg, if_true, Int.toNat_natCast, Int.natCast_inj]
    by_cases atRoot : parent = Quark.root
    · have other : ¬ (q : Int) = parent := by
        rw [atRoot]
        unfold Quark.root
        omega
      simp only [if_pos atRoot, Array.getElem?_push, other, if_false, Option.map_id']
    · rcases place.resolve_left atRoot with ⟨nonneg, inside⟩
      lift parent to Nat using nonneg
      simp only [if_neg atRoot, Array.getElem?_modify, Array.getElem?_push, Int.toNat_natCast,
        Int.natCast_inj]
      by_cases new : q = r.entries.size
      · have other : ¬ parent = r.entries.size := by omega
        simp [new, other]
      · by_cases above : parent = q
        · simp [new, above]
        · simp [new, above, Ne.symm above]
  · have other : ¬ q = (r.entries.size : Int) := by omega
    unfold find?
    simp [nonneg, other]

/-- An attribute that is added to both is in all three tables what it is in the namespace. -/
theorem Mirrors.add
    (mirrors : r.Mirrors ns)
    (place : ns.IsPlace parent)
    (name : String) :
    (r.add parent name).Mirrors (ns.add parent name) := by
  have size := mirrors.size
  constructor
  · intro q
    rw [find?_add (mirrors.isPlace_iff.mpr place), Namespace.attribute?_add place,
      Namespace.children_add place, size, mirrors.entry]
    by_cases new : q = ns.size
    · have other : ¬ q = parent := by
        rintro rfl
        rcases place with atRoot | known
        · rw [new] at atRoot
          unfold Quark.root at atRoot
          omega
        · exact Int.ne_of_lt known.2 new
      rw [if_pos new, if_pos new, if_neg other, new, Namespace.children_size]
      rfl
    · rw [if_neg new, if_neg new, Option.map_map]
      by_cases above : q = parent
      · simp [above, Function.comp_def]
      · simp [above, Function.comp_def]
  · show (if parent = Quark.root then r.topmost ++ [(r.entries.size : Int)] else r.topmost) = _
    rw [Namespace.children_add place, mirrors.topmost, size]
    by_cases atRoot : parent = Quark.root
    · rw [if_pos atRoot, if_pos atRoot.symm]
    · rw [if_neg atRoot, if_neg (Ne.symm atRoot)]
  · intro q sought
    rw [Namespace.child?_add place]
    show List.lookup (q, sought) (((parent, name), (r.entries.size : Int)) :: r.index) = _
    rw [List.lookup_cons, size]
    by_cases here : q = parent ∧ sought = name
    · rw [if_pos here, here.1, here.2]
      simp
    · have other : ((q, sought) == (parent, name)) = false :=
        beq_eq_false_iff_ne.mpr fun same => here (Prod.mk.inj same)
      rw [if_neg here, other]
      exact mirrors.child q sought

theorem mirrors_empty :
    empty.Mirrors .empty := by
  constructor
  · intro q
    have none_ : Namespace.empty.attribute? q = none := by
      refine Option.eq_none_iff_forall_ne_some.mpr fun a held => ?_
      have known := Namespace.contains_iff.mpr ⟨a, held⟩
      exact absurd (Int.lt_of_le_of_lt known.1 known.2) (Int.lt_irrefl 0)
    rw [none_]
    unfold find?
    split
    · rfl
    · rfl
  · rfl
  · intro q name
    rfl

end Register

namespace Namespace

variable {ns : Namespace} {parent base : Int} {name : String} {path : List String}

theorem register_add
    (place : ns.IsPlace parent)
    (name : String) :
    (ns.add parent name).register = ns.register.add parent name := by
  unfold register Namespace.add
  rw [dif_pos place, Array.foldl_push]

/-- The register of its attributes says what follows from them. -/
theorem mirrors_register
    (ns : Namespace) :
    ns.register.Mirrors ns := by
  induction ns using induction_add with
  | empty => exact Register.mirrors_empty
  | add ns parent name place ih =>
      rw [register_add place]
      exact ih.add place name

/-- Look-ups in the index go where the names lead, and create what is missing there. -/
theorem descend_register
    {reached : Namespace × Int}
    (place : reached.1.IsPlace reached.2)
    (segment : String) :
    Register.descend (reached.1.register, reached.2) segment
      = ((descend reached segment).1.register, (descend reached segment).2) := by
  have mirrors := mirrors_register reached.1
  unfold Register.descend
  simp only [mirrors.child, mirrors.size]
  rcases descend_cases reached segment with ⟨child, found, goes⟩ | ⟨missing, goes⟩
  · rw [found, goes]
  · rw [missing, goes, register_add place]

theorem foldl_descend_register
    {reached : Namespace × Int}
    (place : reached.1.IsPlace reached.2)
    (path : List String) :
    path.foldl Register.descend (reached.1.register, reached.2)
      = ((path.foldl descend reached).1.register, (path.foldl descend reached).2) := by
  induction path generalizing reached with
  | nil => rfl
  | cons segment rest ih =>
      rw [List.foldl_cons, List.foldl_cons, descend_register place]
      exact ih (Or.inr (contains_descend place segment))

/-- Entering a path into the tables does what entering it into the namespace does. -/
theorem intern_register
    (ns : Namespace)
    (base : Int)
    (path : List String) :
    ns.register.intern base path
      = (fun reached => (reached.1.register, reached.2)) <$> ns.intern base path := by
  have same := (mirrors_register ns).isPlace_iff (q := base)
  unfold Register.intern Namespace.intern
  by_cases place : ns.IsPlace base
  · rw [if_pos place, if_pos (same.mpr place), @foldl_descend_register (ns, base) place]
    rfl
  · rw [if_neg place, if_neg fun there => place (same.mp there)]
    rfl

theorem enter_register
    (ns : Namespace)
    (call : Int × List String) :
    ns.register.enter call = (ns.enter call).register := by
  unfold Register.enter Namespace.enter
  rw [intern_register]
  cases ns.intern call.1 call.2 with
  | ok reached => rfl
  | error fault => rfl

/-- Grown by the same calls, the tables are those of the namespace. -/
theorem grown_register
    (calls : List (Int × List String)) :
    Register.grown calls = (grown calls).register := by
  induction calls using List.reverseRecOn with
  | nil => rfl
  | append_singleton calls call ih =>
      rw [grown_concat, ← enter_register, ← ih]
      exact List.foldl_concat ..

/-! ## Names that agree -/

/-- A namespace in which the ways up and down, and the lists of children, agree. -/
structure Consistent (ns : Namespace) : Prop where
  /-- The path of an attribute leads back to it. -/
  resolved : ∀ q, ns.Contains q →
    ns.segments q = .ok (ns.trail q) ∧ ns.resolve? Quark.root (ns.trail q) = some q
  /-- An attribute hangs below the root or below an earlier attribute. -/
  parents : ∀ q, ns.Contains q →
    ∃ p, ns.parent q = .ok p ∧ (p = Quark.root ∨ (0 ≤ p ∧ p < q))
  /-- The children of a place are the attributes that hang below it, in increasing order. -/
  children : ∀ p, ns.IsPlace p →
    ns.below p false = .ok (ns.children p)
      ∧ (ns.children p).Pairwise (· < ·)
      ∧ ∀ q, q ∈ ns.children p ↔ ns.Contains q ∧ ns.parent q = .ok p

theorem Unambiguous.consistent
    (single : ns.Unambiguous) :
    ns.Consistent := by
  constructor
  · intro q known
    have place : ns.IsPlace q := Or.inr known
    exact ⟨segments_of_isPlace place, (resolve?_trail_iff place).mpr (single.inSight place)⟩
  · intro q known
    rcases contains_iff.mp known with ⟨a, held⟩
    exact ⟨a.parent, parent_of_attribute? held, isPlace_parent held⟩
  · intro p place
    refine ⟨if_pos place, children_sorted ns p, ?_⟩
    intro q
    rw [mem_children]
    constructor
    · rintro ⟨a, held, rfl⟩
      exact ⟨contains_iff.mpr ⟨a, held⟩, parent_of_attribute? held⟩
    · rintro ⟨known, hangs⟩
      rcases contains_iff.mp known with ⟨a, held⟩
      exact ⟨a, held, Except.ok.inj ((parent_of_attribute? held).symm.trans hangs)⟩

/--
Whatever paths were entered, at whatever bases, the namespace is consistent.
The tables of the register into which the same paths were entered hold what
follows from its attributes, and answer as the namespace does.
A further path is entered at every place there is, creates what is missing of
it and leaves all else as it was; at no place it is refused and changes nothing.
-/
theorem consistent_of_grown
    (calls : List (Int × List String)) :
    (grown calls).Consistent
      ∧ (Register.grown calls).Mirrors (grown calls)
      ∧ (Register.grown calls).Answers (grown calls)
      ∧ (∀ base path, (grown calls).IsPlace base →
        ∃ after q, (grown calls).intern base path = .ok (after, q)
          ∧ Entered (grown calls) base path after q
          ∧ after = grown (calls ++ [(base, path)])
          ∧ (Register.grown calls).intern base path
            = .ok (Register.grown (calls ++ [(base, path)]), q))
      ∧ ∀ base path, ¬ (grown calls).IsPlace base →
        (grown calls).intern base path = .error (.notFound (.quark base))
          ∧ grown (calls ++ [(base, path)]) = grown calls
          ∧ Register.grown (calls ++ [(base, path)]) = Register.grown calls := by
  have mirrors : (Register.grown calls).Mirrors (grown calls) := by
    rw [grown_register]
    exact mirrors_register _
  refine ⟨(unambiguous_grown calls).consistent, mirrors, mirrors.answers, ?_, ?_⟩
  · intro base path place
    rcases exists_entered place path with ⟨after, q, interned, entered⟩
    have next : grown (calls ++ [(base, path)]) = after := by
      rw [grown_concat]
      unfold enter
      rw [interned]
    refine ⟨after, q, interned, entered, next.symm, ?_⟩
    rw [grown_register, grown_register, intern_register, interned, next]
    rfl
  · intro base path noPlace
    have still : grown (calls ++ [(base, path)]) = grown calls := by
      rw [grown_concat, enter_of_not_isPlace noPlace]
    refine ⟨intern_of_not_isPlace noPlace path, still, ?_⟩
    rw [grown_register, grown_register, still]

/-- Paths with odd segments, one of them at a base that does not exist. -/
def oddities : List (Int × List String) :=
  [(-1, ["disks", "*"]), (7, ["lost"]), (0, ["", ".."]), (-1, ["disks", "*", "disks"])]

theorem consistent_of_oddities :
    (grown oddities).Contains 3
      ∧ (grown oddities).segments 3 = .ok ["disks", "", ".."]
      ∧ (grown oddities).resolve? Quark.root ["disks", "", ".."] = some 3
      ∧ (Register.grown oddities).child? 2 ".." = some 3
      ∧ (Register.grown oddities).trail? 4 3 = some ["disks", "", ".."]
      ∧ (Register.grown oddities).resolve? Quark.root ["disks", "", ".."] = some 3
      ∧ (∃ after q, (grown oddities).intern 0 ["", "a", "a"] = .ok (after, q)
        ∧ Entered (grown oddities) 0 ["", "a", "a"] after q
        ∧ after = grown (oddities ++ [(0, ["", "a", "a"])]))
      ∧ grown (oddities ++ [(7, ["a"])]) = grown oddities := by
  rcases consistent_of_grown oddities with ⟨consistent, mirrors, answers, enters, refuses⟩
  have known : (grown oddities).Contains 3 := by decide +kernel
  have place : (grown oddities).IsPlace 0 := by decide +kernel
  have noPlace : ¬ (grown oddities).IsPlace 7 := by decide +kernel
  have trail : (grown oddities).trail 3 = ["disks", "", ".."] := by decide +kernel
  rcases consistent.resolved 3 known with ⟨segments, resolved⟩
  have wayUp := answers.trail 3 (Or.inr known)
  rw [trail] at segments resolved wayUp
  rcases enters 0 ["", "a", "a"] place with ⟨after, q, interned, entered, next, -⟩
  refine ⟨known, segments, resolved, ?_, wayUp, ?_, ⟨after, q, interned, entered, next⟩,
    (refuses 7 ["a"] noPlace).2.1⟩
  · rw [mirrors.child]
    decide +kernel
  · rw [answers.resolved]
    exact resolved

end Namespace

end Chronicle
