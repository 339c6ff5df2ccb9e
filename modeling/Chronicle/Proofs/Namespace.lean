import Chronicle.Namespace.Basic

/-!
# How namespaces grow

Entering a path creates what is missing on it and leads to an attribute, if
the path has a segment at all.  Whatever is found among the names is the
number of an attribute, and all attributes are below the root.
-/

namespace Chronicle

namespace Namespace

/-- Namespaces of the same attributes are the same. -/
theorem eq_of_attributes
    {ns other : Namespace}
    (same : ns.attributes.toList = other.attributes.toList) :
    ns = other := by
  rcases ns with ⟨attributes, parentsFirst⟩
  rcases other with ⟨otherAttributes, otherFirst⟩
  obtain rfl : attributes = otherAttributes := Array.toList_inj.mp same
  rfl

/-- Below a place the added attribute comes last. -/
theorem attributes_add
    {ns : Namespace}
    {parent : Int}
    (place : ns.IsPlace parent)
    (name : String) :
    (ns.add parent name).attributes.toList = ns.attributes.toList ++ [⟨parent, name⟩] := by
  unfold add
  rw [dif_pos place, Array.toList_push]

theorem size_le_descend
    (reached : Namespace × Int)
    (segment : String) :
    reached.1.size ≤ (descend reached segment).1.size := by
  unfold descend
  split
  · exact Nat.le_refl _
  · unfold add
    split
    · simp [size]
    · exact Nat.le_refl _

/-- A namespace only grows. -/
theorem size_le_of_intern
    {ns after : Namespace}
    {base quark : Int}
    {path : List String}
    (interned : ns.intern base path = .ok (after, quark)) :
    ns.size ≤ after.size := by
  have grows : ∀ (path : List String) (reached : Namespace × Int),
      reached.1.size ≤ (path.foldl descend reached).1.size := by
    intro path
    induction path with
    | nil =>
        intro reached
        exact Nat.le_refl _
    | cons segment rest ih =>
        intro reached
        exact Nat.le_trans (size_le_descend reached segment) (ih _)
  unfold intern at interned
  split at interned
  · have whole : (path.foldl descend (ns, base)).1 = after :=
      congrArg Prod.fst (Except.ok.inj interned)
    rw [← whole]
    exact grows path (ns, base)
  · cases interned

/-- A way that is there already is gone without creating anything. -/
theorem foldl_descend_of_foldlM
    {ns : Namespace}
    {start q : Int}
    {path : List String}
    (found : path.foldlM ns.child? start = some q) :
    path.foldl descend (ns, start) = (ns, q) := by
  induction path generalizing start with
  | nil =>
      cases found
      rfl
  | cons segment rest ih =>
      rw [List.foldlM_cons] at found
      rcases Option.bind_eq_some_iff.mp found with ⟨child, first, later⟩
      have goes : descend (ns, start) segment = (ns, child) := by
        unfold descend
        rw [first]
      rw [List.foldl_cons, goes]
      exact ih later

/-- A path that leads somewhere already is gone without creating anything. -/
theorem intern_of_resolve?
    {ns : Namespace}
    {base q : Int}
    {path : List String}
    (found : ns.resolve? base path = some q) :
    ns.intern base path = .ok (ns, q) := by
  unfold resolve? at found
  unfold intern
  split at found
  · rename_i place
    rw [if_pos place, foldl_descend_of_foldlM found]
  · cases found

theorem mem_quarks
    {ns : Namespace}
    {q : Int} :
    q ∈ ns.quarks ↔ ns.Contains q := by
  unfold quarks Contains
  rw [List.mem_map]
  constructor
  · rintro ⟨index, inside, rfl⟩
    rw [List.mem_range] at inside
    exact ⟨Int.natCast_nonneg index, Int.ofNat_lt.mpr inside⟩
  · rintro ⟨nonneg, inside⟩
    refine ⟨q.toNat, List.mem_range.mpr ?_, Int.toNat_of_nonneg nonneg⟩
    omega

theorem contains_of_child?
    {ns : Namespace}
    {q child : Int}
    {name : String}
    (found : ns.child? q name = some child) :
    ns.Contains child := by
  have listed := List.mem_of_find?_eq_some found
  rw [List.mem_reverse] at listed
  exact mem_quarks.mp (List.mem_filter.mp listed).1

/-- Going on from a place leads to an attribute. -/
theorem contains_descend
    {reached : Namespace × Int}
    (place : reached.1.IsPlace reached.2)
    (segment : String) :
    (descend reached segment).1.Contains (descend reached segment).2 := by
  unfold descend
  split
  · rename_i child found
    exact contains_of_child? found
  · refine ⟨Int.natCast_nonneg _, ?_⟩
    show (reached.1.size : Int) < (reached.1.add reached.2 segment).size
    rw [size_add place]
    omega

/-- A path with a segment leads to an attribute. -/
theorem contains_of_intern
    {ns after : Namespace}
    {base q : Int}
    {path : List String}
    (some_ : path ≠ [])
    (interned : ns.intern base path = .ok (after, q)) :
    after.Contains q := by
  have leads : ∀ (path : List String) (reached : Namespace × Int), path ≠ [] →
      reached.1.IsPlace reached.2 →
        (path.foldl descend reached).1.Contains (path.foldl descend reached).2 := by
    intro path
    induction path with
    | nil =>
        intro reached some_
        exact absurd rfl some_
    | cons segment rest ih =>
        rintro reached - place
        have first := contains_descend place segment
        cases rest with
        | nil => exact first
        | cons next others =>
            exact ih (descend reached segment) (List.cons_ne_nil next others) (Or.inr first)
  unfold intern at interned
  split at interned
  · rename_i place
    have whole := leads path (ns, base) some_ place
    rwa [Except.ok.inj interned] at whole
  · cases interned

/-! ## Names in use -/

/-- Whether an attribute is called `name`. -/
def Names
    (ns : Namespace)
    (name : String) :
    Prop :=
  ∃ a ∈ ns.attributes.toList, a.name = name

theorem names_of_child?
    {ns : Namespace}
    {q child : Int}
    {name : String}
    (found : ns.child? q name = some child) :
    ns.Names name := by
  unfold child? at found
  have test := List.find?_some found
  have called := of_decide_eq_true test
  rcases Option.map_eq_some_iff.mp called with ⟨a, held, same⟩
  refine ⟨a, ?_, same⟩
  unfold attribute? at held
  split at held
  · exact Array.mem_toList_iff.mpr (Array.mem_of_getElem? held)
  · cases held

/-- What was called something is still called so after an addition. -/
theorem Names.add
    {ns : Namespace}
    {name : String}
    (names : ns.Names name)
    (parent : Int)
    (other : String) :
    (ns.add parent other).Names name := by
  by_cases place : ns.IsPlace parent
  · rcases names with ⟨a, member, same⟩
    refine ⟨a, ?_, same⟩
    rw [attributes_add place]
    exact List.mem_append_left _ member
  · unfold Namespace.add
    rwa [dif_neg place]

theorem names_add
    {ns : Namespace}
    {parent : Int}
    (place : ns.IsPlace parent)
    (name : String) :
    (ns.add parent name).Names name := by
  refine ⟨⟨parent, name⟩, ?_, rfl⟩
  rw [attributes_add place]
  exact List.mem_append_right _ (List.mem_singleton.mpr rfl)

/-- Going on from a place uses the name that is gone to, next to all that were in use. -/
theorem names_descend
    {reached : Namespace × Int}
    {segment name : String}
    (place : reached.1.IsPlace reached.2)
    (used : reached.1.Names name ∨ name = segment) :
    (descend reached segment).1.Names name := by
  unfold descend
  split
  · rename_i child found
    rcases used with before | rfl
    · exact before
    · exact names_of_child? found
  · rcases used with before | rfl
    · exact before.add _ _
    · exact names_add place _

/-- After a path was entered, its segments are names in use, next to all that were. -/
theorem names_of_intern
    {ns after : Namespace}
    {base q : Int}
    {path : List String}
    {name : String}
    (interned : ns.intern base path = .ok (after, q))
    (used : ns.Names name ∨ name ∈ path) :
    after.Names name := by
  have names : ∀ (path : List String) (reached : Namespace × Int),
      reached.1.IsPlace reached.2 → reached.1.Names name ∨ name ∈ path →
        (path.foldl descend reached).1.Names name := by
    intro path
    induction path with
    | nil =>
        rintro reached - (before | listed)
        · exact before
        · cases listed
    | cons segment rest ih =>
        intro reached place used
        apply ih (descend reached segment) (Or.inr (contains_descend place segment))
        rcases used with before | listed
        · exact Or.inl (names_descend place (Or.inl before))
        · rcases List.mem_cons.mp listed with rfl | listed
          · exact Or.inl (names_descend place (Or.inr rfl))
          · exact Or.inr listed
  unfold intern at interned
  split at interned
  · rename_i place
    have whole := names path (ns, base) place used
    rwa [Except.ok.inj interned] at whole
  · cases interned

/-- Below the root every path can be entered. -/
theorem exists_intern_root
    (ns : Namespace)
    (path : List String) :
    ∃ after q, ns.intern Quark.root path = .ok (after, q) :=
  ⟨_, _, if_pos (Or.inl rfl)⟩

/-! ## What is below -/

/-- What was found below `q` before an attribute was looked at, and afterwards. -/
def gatherBelow
    (ns : Namespace)
    (q : Int)
    (found : List Int)
    (child : Int) :
    List Int :=
  match ns.attribute? child with
  | some entry => if entry.parent = q ∨ entry.parent ∈ found then found ++ [child] else found
  | none => found

/-- What is below, found in one attribute after the other. -/
theorem descendants_eq
    (ns : Namespace)
    (q : Int) :
    ns.descendants q = ns.quarks.foldl (gatherBelow ns q) [] := rfl

/-- Only attributes are below anything. -/
theorem contains_of_mem_descendants
    {ns : Namespace}
    {q inner : Int}
    (member : inner ∈ ns.descendants q) :
    ns.Contains inner := by
  have listed : ∀ (children found : List Int), inner ∈ children.foldl (gatherBelow ns q) found →
      inner ∈ found ∨ inner ∈ children := by
    intro children
    induction children with
    | nil => exact fun found member => Or.inl member
    | cons child rest ih =>
        intro found member
        rcases ih _ member with old | later
        · unfold gatherBelow at old
          split at old
          · split at old
            · rcases List.mem_append.mp old with before | new
              · exact Or.inl before
              · exact Or.inr (List.mem_cons.mpr (Or.inl (List.mem_singleton.mp new)))
            · exact Or.inl old
          · exact Or.inl old
        · exact Or.inr (List.mem_cons_of_mem child later)
  rw [descendants_eq] at member
  rcases listed ns.quarks [] member with none_ | found
  · cases none_
  · exact mem_quarks.mp found

theorem below_of_isPlace
    {ns : Namespace}
    {q : Int}
    (place : ns.IsPlace q) :
    ns.below q true = .ok (ns.descendants q) :=
  if_pos place

theorem isPlace_of_below
    {ns : Namespace}
    {q : Int}
    {inner : List Int}
    (found : ns.below q true = .ok inner) :
    ns.IsPlace q ∧ inner = ns.descendants q := by
  by_cases place : ns.IsPlace q
  · rw [below_of_isPlace place] at found
    exact ⟨place, (Except.ok.inj found).symm⟩
  · cases (if_neg place).symm.trans found

/-- All attributes are below the root. -/
theorem descendants_root
    (ns : Namespace) :
    ns.descendants Quark.root = ns.quarks := by
  have first : ∀ count, count ≤ ns.size →
      ((List.range count).map Int.ofNat).foldl (gatherBelow ns Quark.root) []
        = (List.range count).map Int.ofNat := by
    intro count
    induction count with
    | zero => exact fun _ => rfl
    | succ count ih =>
        intro inside
        have known : count < ns.attributes.size := inside
        have entry : ns.attribute? (Int.ofNat count) = some ns.attributes[count] :=
          (if_pos (Int.natCast_nonneg count)).trans (Array.getElem?_eq_getElem known)
        have found : ns.attributes[count].parent = Quark.root
            ∨ ns.attributes[count].parent ∈ (List.range count).map Int.ofNat := by
          rcases ns.parentsFirst count known with atRoot | ⟨nonneg, earlier⟩
          · exact Or.inl atRoot
          · refine Or.inr (List.mem_map.mpr ⟨_, List.mem_range.mpr ?_, Int.toNat_of_nonneg nonneg⟩)
            omega
        rw [List.range_succ, List.map_append, List.foldl_append, ih (Nat.le_of_lt inside)]
        show gatherBelow ns Quark.root _ (Int.ofNat count) = _
        unfold gatherBelow
        rw [entry]
        exact if_pos found
  exact first ns.size (Nat.le_refl _)

end Namespace

end Chronicle
