import Chronicle.Proofs.Namespace
import Mathlib.Data.List.Nodup
import Mathlib.Data.List.Range

/-!
# Paths through a namespace

A namespace comes about attribute by attribute, each below a place that was
there before, and an addition leaves alone what is known about the attributes
before it: where they hang, what they are called, and the way up from them.

The way down is another matter.  Of several siblings of one name the latest is
found, so that the path of an attribute leads back to it exactly when neither
the attribute nor any above it has a later namesake beside it.  All paths lead
back if and only if no two attributes have the same name in the same place.
-/

namespace Chronicle.Namespace

variable {ns : Namespace} {parent q : Int} {name : String}

/-! ## Attribute by attribute -/

/-- Every namespace comes about by additions, each below a place that was there. -/
@[elab_as_elim]
theorem induction_add
    {motive : Namespace → Prop}
    (empty : motive empty)
    (add : ∀ ns parent name, ns.IsPlace parent → motive ns → motive (ns.add parent name))
    (ns : Namespace) :
    motive ns := by
  rcases ns with ⟨⟨attributes⟩, first⟩
  induction attributes using List.reverseRecOn with
  | nil => exact empty
  | append_singleton front last ih =>
      have firstBefore : ∀ (index : Nat) (inside : index < front.toArray.size),
          front.toArray[index].parent = Quark.root
            ∨ (0 ≤ front.toArray[index].parent ∧ front.toArray[index].parent < index) := by
        intro index inside
        have inside : index < front.length := inside
        have here := first index (by simp; omega)
        simpa [List.getElem_append_left inside] using here
      -- The last parent is a place of what is in front, for it comes before the last.
      have place : (⟨front.toArray, firstBefore⟩ : Namespace).IsPlace last.parent := by
        have here := first front.length (by simp)
        simpa [IsPlace, Contains, size] using here
      have whole : (⟨front.toArray, firstBefore⟩ : Namespace).add last.parent last.name
          = ⟨(front ++ [last]).toArray, first⟩ :=
        eq_of_attributes (attributes_add place last.name)
      rw [← whole]
      exact add _ _ _ place (ih firstBefore)

theorem attribute?_natCast
    (ns : Namespace)
    (index : Nat) :
    ns.attribute? index = ns.attributes[index]? :=
  if_pos (Int.natCast_nonneg index)

theorem contains_iff :
    ns.Contains q ↔ ∃ a, ns.attribute? q = some a := by
  unfold attribute? Contains
  by_cases nonneg : 0 ≤ q
  · simp only [nonneg, if_true, true_and, Array.getElem?_eq_some_iff]
    constructor
    · intro inside
      have inside : q.toNat < ns.attributes.size := by
        unfold size at inside
        omega
      exact ⟨_, inside, rfl⟩
    · rintro ⟨a, inside, -⟩
      unfold size
      omega
  · simp [nonneg]

/-- The root has no number. -/
theorem ne_root_of_contains
    (known : ns.Contains q) :
    q ≠ Quark.root := by
  rintro rfl
  exact absurd known.1 (by decide)

theorem attribute?_add
    (place : ns.IsPlace parent)
    (name : String)
    (q : Int) :
    (ns.add parent name).attribute? q
      = if q = ns.size then some ⟨parent, name⟩ else ns.attribute? q := by
  unfold attribute? add
  rw [dif_pos place, Array.getElem?_push]
  by_cases nonneg : 0 ≤ q
  · have same : q.toNat = ns.attributes.size ↔ q = (ns.size : Int) := by
      unfold size
      omega
    simp only [nonneg, if_true, same]
  · have other : ¬ q = (ns.size : Int) := by omega
    simp [nonneg, other]

theorem attribute?_size
    (ns : Namespace) :
    ns.attribute? ns.size = none := by
  rw [attribute?_natCast]
  exact Array.getElem?_eq_none (Nat.le_refl _)

/-- What was at hand before an addition is the same afterwards. -/
theorem attribute?_add_of_contains
    (place : ns.IsPlace parent)
    (name : String)
    (known : ns.Contains q) :
    (ns.add parent name).attribute? q = ns.attribute? q := by
  rw [attribute?_add place, if_neg (Int.ne_of_lt known.2)]

/-- Only one attribute is new after an addition. -/
theorem attribute?_add_eq_iff
    {a : Attribute}
    (place : ns.IsPlace parent)
    (other : a ≠ ⟨parent, name⟩) :
    (ns.add parent name).attribute? q = some a ↔ ns.attribute? q = some a := by
  rw [attribute?_add place]
  by_cases new : q = ns.size
  · rw [if_pos new, new, attribute?_size]
    simp [Ne.symm other]
  · rw [if_neg new]

/-- Below no place nothing is added. -/
theorem add_of_not_isPlace
    (noPlace : ¬ ns.IsPlace parent)
    (name : String) :
    ns.add parent name = ns :=
  dif_neg noPlace

/-- An attribute comes after the attribute that it hangs below. -/
theorem isPlace_parent
    {a : Attribute}
    (held : ns.attribute? q = some a) :
    a.parent = Quark.root ∨ (0 ≤ a.parent ∧ a.parent < q) := by
  unfold attribute? at held
  split at held
  · rename_i nonneg
    rcases Array.getElem?_eq_some_iff.mp held with ⟨inside, rfl⟩
    have earlier := ns.parentsFirst q.toNat inside
    rwa [Int.toNat_of_nonneg nonneg] at earlier
  · cases held

theorem parent_of_attribute?
    {a : Attribute}
    (held : ns.attribute? q = some a) :
    ns.parent q = .ok a.parent := by
  have known := contains_iff.mpr ⟨a, held⟩
  unfold Namespace.parent find
  rw [if_neg (ne_root_of_contains known), held]
  rfl

/-- From every place the way up ends at the root. -/
@[elab_as_elim]
theorem induction_up
    {motive : (q : Int) → ns.IsPlace q → Prop}
    (root : motive Quark.root (Or.inl rfl))
    (child : ∀ q a (held : ns.attribute? q = some a) (above : ns.IsPlace a.parent),
      motive a.parent above → motive q (Or.inr (contains_iff.mpr ⟨a, held⟩)))
    (q : Int)
    (place : ns.IsPlace q) :
    motive q place := by
  rcases place with rfl | known
  · exact root
  · -- Parents have smaller numbers, which the induction is on.
    have each : ∀ (index : Nat) (q : Int) (known : ns.Contains q), q < index →
        motive q (Or.inr known) := by
      intro index
      induction index with
      | zero =>
          intro q known inside
          exact absurd known.1 (Int.not_le.mpr inside)
      | succ index ih =>
          intro q known inside
          rcases contains_iff.mp known with ⟨a, held⟩
          rcases isPlace_parent held with atRoot | ⟨nonneg, earlier⟩
          · apply child q a held (Or.inl atRoot)
            simp only [atRoot]
            exact root
          · have above : ns.Contains a.parent := ⟨nonneg, Int.lt_trans earlier known.2⟩
            exact child q a held (Or.inr above) (ih a.parent above (by omega))
    exact each ns.size q known known.2

/-! ## Children -/

theorem quarks_add
    (place : ns.IsPlace parent)
    (name : String) :
    (ns.add parent name).quarks = ns.quarks ++ [(ns.size : Int)] := by
  unfold quarks
  rw [size_add place, List.range_succ, List.map_append]
  rfl

theorem mem_children :
    q ∈ ns.children parent ↔ ∃ a, ns.attribute? q = some a ∧ a.parent = parent := by
  unfold children
  rw [List.mem_filter, mem_quarks, contains_iff]
  constructor
  · rintro ⟨-, hangs⟩
    exact Option.map_eq_some_iff.mp (of_decide_eq_true hangs)
  · rintro ⟨a, held, hangs⟩
    exact ⟨⟨a, held⟩, decide_eq_true (Option.map_eq_some_iff.mpr ⟨a, held, hangs⟩)⟩

theorem children_sorted
    (ns : Namespace)
    (parent : Int) :
    (ns.children parent).Pairwise (· < ·) := by
  apply List.Pairwise.filter
  apply List.pairwise_map.mpr
  exact List.pairwise_lt_range.imp Int.ofNat_lt.mpr

/-- A new attribute is the last child of the place it hangs below, and no other place gets one. -/
theorem children_add
    (place : ns.IsPlace parent)
    (name : String)
    (q : Int) :
    (ns.add parent name).children q
      = if q = parent then ns.children q ++ [(ns.size : Int)] else ns.children q := by
  have others : (ns.quarks.filter fun child =>
      ((ns.add parent name).attribute? child).map (·.parent) = some q) = ns.children q := by
    apply List.filter_congr
    intro child member
    rw [attribute?_add_of_contains place name (mem_quarks.mp member)]
  unfold children at others ⊢
  rw [quarks_add place, List.filter_append, others, List.filter_singleton,
    attribute?_add place, if_pos rfl]
  by_cases here : q = parent
  · simp [here]
  · simp [here, Ne.symm here]

theorem child?_empty
    (parent : Int)
    (name : String) :
    empty.child? parent name = none := rfl

/-- A place that is not there yet has no children. -/
theorem children_size
    (ns : Namespace) :
    ns.children ns.size = [] := by
  apply List.eq_nil_iff_forall_not_mem.mpr
  intro child member
  rcases mem_children.mp member with ⟨a, held, hangs⟩
  have known := contains_iff.mpr ⟨a, held⟩
  rcases isPlace_parent held with atRoot | ⟨-, earlier⟩
  · exact absurd (hangs.symm.trans atRoot) (by simp [Quark.root])
  · exact absurd known.2 (by omega)

theorem child?_size
    (ns : Namespace)
    (name : String) :
    ns.child? ns.size name = none := by
  unfold child?
  rw [children_size]
  rfl

/-- A new attribute is found by its name in its place, and hides an older one of that name. -/
theorem child?_add
    (place : ns.IsPlace parent)
    (name : String)
    (q : Int)
    (sought : String) :
    (ns.add parent name).child? q sought
      = if q = parent ∧ sought = name then some (ns.size : Int) else ns.child? q sought := by
  have newest : ((ns.add parent name).attribute? ns.size).map (·.name) = some name := by
    rw [attribute?_add place, if_pos rfl]
    rfl
  have others : ((ns.children q).reverse.find? fun child =>
      ((ns.add parent name).attribute? child).map (·.name) = some sought) = ns.child? q sought := by
    unfold child?
    rw [← List.head?_filter, ← List.head?_filter]
    apply congrArg List.head?
    apply List.filter_congr
    intro child member
    rcases mem_children.mp (List.mem_reverse.mp member) with ⟨a, held, -⟩
    rw [attribute?_add_of_contains place name (contains_iff.mpr ⟨a, held⟩)]
  unfold child? at others ⊢
  rw [children_add place]
  by_cases here : q = parent
  · rw [if_pos here, List.reverse_append, List.reverse_singleton, List.singleton_append,
      List.find?_cons, newest, others]
    by_cases called : sought = name
    · simp [here, called]
    · simp [here, called, Ne.symm called]
  · rw [if_neg here, others, if_neg fun both => here both.1]

/-- What is found by a name is the latest attribute of that name in that place. -/
theorem child?_eq_some_iff :
    ns.child? parent name = some q
      ↔ ns.attribute? q = some ⟨parent, name⟩
        ∧ ∀ later, q < later → ns.attribute? later ≠ some ⟨parent, name⟩ := by
  induction ns using induction_add with
  | empty =>
      have nothing : ∀ q, empty.attribute? q = none := by
        intro q
        unfold attribute?
        split
        · rfl
        · rfl
      rw [child?_empty]
      constructor
      · intro impossible
        cases impossible
      · rintro ⟨held, -⟩
        rw [nothing] at held
        cases held
  | add ns above called place ih =>
      rw [child?_add place]
      by_cases same : parent = above ∧ name = called
      · -- The new attribute is the latest of all, and the only one to come last.
        rcases same with ⟨rfl, rfl⟩
        simp only [attribute?_add place, and_self, if_true]
        constructor
        · intro found
          obtain rfl : (ns.size : Int) = q := Option.some.inj found
          refine ⟨if_pos rfl, ?_⟩
          intro later after held
          rw [if_neg (Int.ne_of_gt after)] at held
          have known := contains_iff.mpr ⟨_, held⟩
          exact absurd known.2 (by omega)
        · rintro ⟨held, latest⟩
          by_cases new : q = ns.size
          · rw [new]
          · rw [if_neg new] at held
            have known := contains_iff.mpr ⟨_, held⟩
            exact absurd (if_pos rfl) (latest ns.size known.2)
      · have different : (⟨parent, name⟩ : Attribute) ≠ ⟨above, called⟩ :=
          fun equal => same (Attribute.mk.inj equal)
        simp only [if_neg same, ne_eq, attribute?_add_eq_iff place different]
        exact ih

theorem child?_eq_none_iff :
    ns.child? parent name = none ↔ ⟨parent, name⟩ ∉ ns.attributes.toList := by
  induction ns using induction_add with
  | empty => exact ⟨fun _ => List.not_mem_nil, fun _ => child?_empty parent name⟩
  | add ns above called place ih =>
      rw [child?_add place, attributes_add place, List.mem_append, List.mem_singleton]
      by_cases same : parent = above ∧ name = called
      · simp [same]
      · have different : (⟨parent, name⟩ : Attribute) ≠ ⟨above, called⟩ :=
          fun equal => same (Attribute.mk.inj equal)
        rw [if_neg same, ih]
        simp [different]

/-! ## Up and down again -/

@[simp]
theorem trail_root
    (ns : Namespace) :
    ns.trail Quark.root = [] := by
  unfold trail
  exact dif_neg (by simp [Quark.root])

/-- The way up from an attribute is that from its parent and one name more. -/
theorem trail_eq
    {a : Attribute}
    (held : ns.attribute? q = some a) :
    ns.trail q = ns.trail a.parent ++ [a.name] := by
  unfold attribute? at held
  split at held
  · rename_i nonneg
    rcases Array.getElem?_eq_some_iff.mp held with ⟨inside, rfl⟩
    rw [trail, dif_pos ⟨nonneg, inside⟩]
  · cases held

theorem segments_of_isPlace
    (place : ns.IsPlace q) :
    ns.segments q = .ok (ns.trail q) :=
  if_pos place

/-- The way up from an attribute is no longer than its number allows. -/
theorem length_trail_le
    (place : ns.IsPlace q) :
    ((ns.trail q).length : Int) ≤ q + 1 := by
  induction q, place using induction_up with
  | root =>
      rw [trail_root]
      decide
  | child q a held _ ih =>
      rw [trail_eq held, List.length_append, List.length_singleton]
      have known := contains_iff.mpr ⟨a, held⟩
      have nonneg := known.1
      rcases isPlace_parent held with atRoot | ⟨-, earlier⟩
      · rw [atRoot, trail_root]
        simp only [List.length_nil]
        omega
      · omega

/--
An attribute that its path leads back to: neither it nor any above it has a
later namesake beside it.
-/
inductive InSight (ns : Namespace) : Int → Prop
  | root : InSight ns Quark.root
  | child
      {q : Int}
      {a : Attribute}
      (held : ns.attribute? q = some a)
      (above : InSight ns a.parent)
      (latest : ∀ later, q < later → ns.attribute? later ≠ some a) :
      InSight ns q

theorem resolve?_root_eq
    (ns : Namespace)
    (path : List String) :
    ns.resolve? Quark.root path = path.foldlM ns.child? Quark.root :=
  if_pos (Or.inl rfl)

/-- The path of a place leads back to it if and only if it is in sight. -/
theorem resolve?_trail_iff
    (place : ns.IsPlace q) :
    ns.resolve? Quark.root (ns.trail q) = some q ↔ ns.InSight q := by
  rw [resolve?_root_eq]
  induction q, place using induction_up with
  | root =>
      rw [trail_root]
      exact ⟨fun _ => .root, fun _ => rfl⟩
  | child q a held _ ih =>
      rw [trail_eq held, List.foldlM_append]
      constructor
      · intro found
        rcases Option.bind_eq_some_iff.mp found with ⟨reached, way, step⟩
        have step : ns.child? reached a.name = some q := by
          simpa [List.foldlM_cons] using step
        rcases child?_eq_some_iff.mp step with ⟨heldToo, latest⟩
        obtain rfl : a.parent = reached :=
          congrArg Attribute.parent (Option.some.inj (held.symm.trans heldToo))
        exact .child held (ih.mp way) latest
      · intro sight
        cases sight with
        | root => exact absurd (contains_iff.mpr ⟨a, held⟩).1 (by decide)
        | child heldToo above latest =>
            obtain rfl := Option.some.inj (held.symm.trans heldToo)
            rw [ih.mpr above]
            simpa [List.foldlM_cons] using child?_eq_some_iff.mpr ⟨held, latest⟩

/-! ## One attribute for each name in a place -/

/-- A namespace in which no two attributes have the same name in the same place. -/
def Unambiguous (ns : Namespace) : Prop :=
  ns.attributes.toList.Nodup

instance
    (ns : Namespace) :
    Decidable ns.Unambiguous :=
  inferInstanceAs (Decidable (List.Nodup _))

theorem unambiguous_iff :
    ns.Unambiguous
      ↔ ∀ {q other : Int} {a : Attribute},
        ns.attribute? q = some a → ns.attribute? other = some a → q = other := by
  unfold Unambiguous
  rw [List.nodup_iff_getElem?_ne_getElem?]
  constructor
  · intro distinct q other a held heldToo
    have apart : ∀ {q other : Int}, ns.attribute? q = some a → ns.attribute? other = some a →
        ¬ q < other := by
      intro q other held heldToo before
      have known := contains_iff.mpr ⟨a, held⟩
      have knownToo := contains_iff.mpr ⟨a, heldToo⟩
      lift q to Nat using known.1
      lift other to Nat using knownToo.1
      rw [attribute?_natCast] at held heldToo
      refine distinct q other (Int.ofNat_lt.mp before) ?_ ?_
      · exact Int.ofNat_lt.mp knownToo.2
      · rw [Array.getElem?_toList, Array.getElem?_toList, held, heldToo]
    rcases Int.lt_trichotomy q other with before | same | after
    · exact absurd before (apart held heldToo)
    · exact same
    · exact absurd after (apart heldToo held)
  · intro single i j before inside same
    have insideToo : j < ns.attributes.size := inside
    have held : ns.attribute? j = some ns.attributes[j] :=
      (attribute?_natCast ns j).trans (Array.getElem?_eq_getElem insideToo)
    have heldToo : ns.attribute? i = some ns.attributes[j] := by
      rw [attribute?_natCast, ← Array.getElem?_toList, same, Array.getElem?_toList]
      exact Array.getElem?_eq_getElem insideToo
    have equal := single heldToo held
    omega

theorem Unambiguous.inSight
    (single : ns.Unambiguous)
    (place : ns.IsPlace q) :
    ns.InSight q := by
  induction q, place using induction_up with
  | root => exact .root
  | child q a held _ ih =>
      refine .child held ih ?_
      intro later after heldToo
      exact Int.ne_of_lt after (unambiguous_iff.mp single held heldToo)

/-- All paths lead back if and only if no two attributes have the same name in the same place. -/
theorem resolve?_trail_all_iff :
    (∀ q, ns.Contains q → ns.resolve? Quark.root (ns.trail q) = some q) ↔ ns.Unambiguous := by
  constructor
  · intro all
    refine unambiguous_iff.mpr ?_
    intro q other a held heldToo
    have same : ns.trail q = ns.trail other := (trail_eq held).trans (trail_eq heldToo).symm
    have leads := all q (contains_iff.mpr ⟨a, held⟩)
    rw [same, all other (contains_iff.mpr ⟨a, heldToo⟩)] at leads
    exact (Option.some.inj leads).symm
  · intro single q known
    exact (resolve?_trail_iff (Or.inr known)).mpr (single.inSight (Or.inr known))

/-- An attribute is listed exactly once, among the children of the place it hangs below. -/
theorem count_children
    {a : Attribute}
    (held : ns.attribute? q = some a) :
    (ns.children a.parent).count q = 1 := by
  have distinct : (ns.children a.parent).Nodup :=
    (children_sorted ns a.parent).imp Int.ne_of_lt
  exact List.count_eq_one_of_mem distinct (mem_children.mpr ⟨a, held, rfl⟩)

end Chronicle.Namespace
