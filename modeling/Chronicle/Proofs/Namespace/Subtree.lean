import Chronicle.Proofs.Namespace.Pattern
import Mathlib.Data.List.Basic

/-!
# What is below an attribute

What is below an attribute are the attributes that it is an ancestor of.  A
search for them takes one place after the other that is still pending, and its
children become found and pending.  That it ends, and that it finds nothing
twice, rests on parents coming before their children: no attribute is its own
ancestor, and of two siblings none is above the other.
-/

namespace Chronicle.Namespace

variable {ns : Namespace} {p q r : Int} {recursive : Bool}

/-- Whether `p` is above `q`: its parent, or above its parent. -/
inductive Ancestor (ns : Namespace) (p : Int) : Int → Prop
  | parent
      {q : Int}
      (known : ns.Contains q)
      (hangs : ns.parent q = .ok p) :
      Ancestor ns p q
  | above
      {r q : Int}
      (higher : Ancestor ns p r)
      (known : ns.Contains q)
      (hangs : ns.parent q = .ok r) :
      Ancestor ns p q

namespace Ancestor

theorem contains
    (ancestor : ns.Ancestor p q) :
    ns.Contains q := by
  cases ancestor with
  | parent known hangs => exact known
  | above higher known hangs => exact known

/-- Only its parent and what is above its parent is above an attribute. -/
theorem iff_of_hangs
    (known : ns.Contains q)
    (hangs : ns.parent q = .ok r) :
    ns.Ancestor p q ↔ r = p ∨ ns.Ancestor p r := by
  constructor
  · intro ancestor
    cases ancestor with
    | parent _ other => exact Or.inl (Except.ok.inj (hangs.symm.trans other))
    | above higher _ other =>
        obtain rfl := Except.ok.inj (hangs.symm.trans other)
        exact Or.inr higher
  · rintro (rfl | higher)
    · exact .parent known hangs
    · exact .above higher known hangs

theorem trans
    (one : ns.Ancestor p q)
    (two : ns.Ancestor q r) :
    ns.Ancestor p r := by
  induction two with
  | parent known hangs => exact .above one known hangs
  | above higher known hangs ih => exact .above ih known hangs

/-- What is above an attribute comes before it. -/
theorem lt
    (ancestor : ns.Ancestor p q) :
    p < q := by
  have before : ∀ {r q : Int}, ns.Contains q → ns.parent q = .ok r → r < q := by
    intro r q known hangs
    rcases contains_iff.mp known with ⟨a, held⟩
    obtain rfl : a.parent = r := Except.ok.inj ((parent_of_attribute? held).symm.trans hangs)
    rcases isPlace_parent held with atRoot | ⟨-, earlier⟩
    · exact Int.lt_of_lt_of_le (atRoot ▸ by decide) known.1
    · exact earlier
  induction ancestor with
  | parent known hangs => exact before known hangs
  | above higher known hangs ih => exact Int.lt_trans ih (before known hangs)

/-- Of two attributes above the same, one is above the other if they are not the same. -/
theorem comparable
    (one : ns.Ancestor p r)
    (two : ns.Ancestor q r) :
    p = q ∨ ns.Ancestor p q ∨ ns.Ancestor q p := by
  induction one with
  | parent known hangs =>
      rcases (iff_of_hangs known hangs).mp two with rfl | higher
      · exact Or.inl rfl
      · exact Or.inr (Or.inr higher)
  | above higher known hangs ih =>
      rcases (iff_of_hangs known hangs).mp two with rfl | higherToo
      · exact Or.inr (Or.inl higher)
      · exact ih higherToo

/-- What hangs below the same place as an attribute is not above it. -/
theorem not_of_siblings
    (known : ns.Contains q)
    (hangs : ns.parent q = .ok p)
    (hangsToo : ns.parent r = .ok p)
    (knownToo : ns.Contains r) :
    ¬ ns.Ancestor q r := by
  intro ancestor
  have below : p < q := (Ancestor.parent known hangs).lt
  rcases (iff_of_hangs knownToo hangsToo).mp ancestor with same | higher
  · exact Int.ne_of_lt below same
  · exact Int.lt_irrefl p (Int.lt_trans below higher.lt)

end Ancestor

/-- What is above an attribute stays what it is. -/
theorem Extends.ancestor_iff
    {after : Namespace}
    (extends_ : Extends ns after)
    (known : ns.Contains q) :
    after.Ancestor p q ↔ ns.Ancestor p q := by
  constructor
  · intro ancestor
    induction ancestor with
    | parent _ hangs => exact .parent known ((extends_.kept known).2.1.symm.trans hangs)
    | above higher _ hangs ih =>
        have hangsBefore := (extends_.kept known).2.1.symm.trans hangs
        rcases contains_iff.mp known with ⟨a, held⟩
        obtain rfl := Except.ok.inj ((parent_of_attribute? held).symm.trans hangsBefore)
        have knownParent : ns.Contains a.parent := by
          rcases isPlace_parent held with atRoot | ⟨nonneg, earlier⟩
          · exact absurd atRoot (ne_root_of_contains higher.contains)
          · exact ⟨nonneg, Int.lt_trans earlier known.2⟩
        exact .above (ih knownParent) known hangsBefore
  · intro ancestor
    induction ancestor with
    | parent _ hangs =>
        exact .parent (extends_.contains known) ((extends_.kept known).2.1.trans hangs)
    | above higher _ hangs ih =>
        exact .above (ih higher.contains) (extends_.contains known)
          ((extends_.kept known).2.1.trans hangs)

/-- What is found by its name hangs below the place where it is found. -/
theorem hangs_of_child?
    {name : String}
    (found : ns.child? p name = some q) :
    ns.Contains q ∧ ns.parent q = .ok p ∧ ns.name q = .ok name := by
  rcases child?_eq_some_iff.mp found with ⟨held, -⟩
  exact ⟨contains_iff.mpr ⟨_, held⟩, parent_of_attribute? held, name_of_attribute? held⟩

/-! ## What is listed -/

/-- What was found below `p` once the first `count` attributes were looked at: all there is. -/
structure Gathered
    (ns : Namespace)
    (p : Int)
    (count : Nat)
    (found : List Int) : Prop where
  sorted : found.Pairwise (· < ·)
  mem : ∀ q, q ∈ found ↔ q < count ∧ ns.Ancestor p q

theorem gathered_zero
    (ns : Namespace)
    (p : Int) :
    Gathered ns p 0 [] where
  sorted := List.Pairwise.nil
  mem q := by
    constructor
    · intro member
      cases member
    · rintro ⟨none_, ancestor⟩
      exact absurd ancestor.contains.1 (Int.not_le.mpr none_)

/-- The parent of the next attribute was looked at before it. -/
theorem Gathered.next
    {count : Nat}
    {found : List Int}
    (gathered : Gathered ns p count found)
    (inside : count < ns.size) :
    Gathered ns p (count + 1) (gatherBelow ns p found count) := by
  have known : ns.Contains count := ⟨Int.natCast_nonneg count, Int.ofNat_lt.mpr inside⟩
  rcases contains_iff.mp known with ⟨a, held⟩
  have hangs := parent_of_attribute? held
  have above : a.parent = p ∨ a.parent ∈ found ↔ ns.Ancestor p count := by
    rw [Ancestor.iff_of_hangs known hangs, gathered.mem]
    refine or_congr_right ⟨And.right, fun higher => ⟨?_, higher⟩⟩
    exact (Ancestor.parent known hangs).lt
  unfold gatherBelow
  rw [held]
  show Gathered ns p (count + 1) (if a.parent = p ∨ a.parent ∈ found then _ else found)
  split
  · rename_i here
    constructor
    · refine List.pairwise_append.mpr ⟨gathered.sorted, List.pairwise_singleton _ _, ?_⟩
      intro q member last isLast
      rw [List.mem_singleton.mp isLast]
      exact ((gathered.mem q).mp member).1
    · intro q
      rw [List.mem_append, List.mem_singleton, gathered.mem]
      constructor
      · rintro (⟨early, ancestor⟩ | rfl)
        · exact ⟨by omega, ancestor⟩
        · exact ⟨by omega, above.mp here⟩
      · rintro ⟨early, ancestor⟩
        by_cases last : q = count
        · exact Or.inr last
        · exact Or.inl ⟨by omega, ancestor⟩
  · rename_i elsewhere
    refine ⟨gathered.sorted, fun q => ?_⟩
    rw [gathered.mem]
    constructor
    · rintro ⟨early, ancestor⟩
      exact ⟨by omega, ancestor⟩
    · rintro ⟨early, ancestor⟩
      by_cases last : q = count
      · exact absurd (above.mpr (last ▸ ancestor)) elsewhere
      · exact ⟨by omega, ancestor⟩

theorem gathered_foldl
    {count : Nat}
    (inside : count ≤ ns.size)
    (p : Int) :
    Gathered ns p count (((List.range count).map Int.ofNat).foldl (gatherBelow ns p) []) := by
  induction count with
  | zero => exact gathered_zero ns p
  | succ count ih =>
      rw [List.range_succ, List.map_append, List.foldl_append]
      exact (ih (Nat.le_of_lt inside)).next inside

/-- The attributes listed as below `p` are those that `p` is above. -/
theorem gathered_descendants
    (ns : Namespace)
    (p : Int) :
    Gathered ns p ns.size (ns.descendants p) := by
  rw [descendants_eq]
  exact gathered_foldl (Nat.le_refl _) p

theorem mem_descendants :
    q ∈ ns.descendants p ↔ ns.Ancestor p q :=
  ((gathered_descendants ns p).mem q).trans
    ⟨And.right, fun ancestor => ⟨ancestor.contains.2, ancestor⟩⟩

instance : Decidable (ns.Ancestor p q) :=
  decidable_of_iff (q ∈ ns.descendants p) mem_descendants

theorem mem_descendants_concat :
    q ∈ ns.descendants p ++ [p] ↔ q = p ∨ ns.Ancestor p q := by
  rw [List.mem_append, mem_descendants, List.mem_singleton, or_comm]

theorem nodup_descendants
    (ns : Namespace)
    (p : Int) :
    (ns.descendants p).Nodup :=
  (gathered_descendants ns p).sorted.imp Int.ne_of_lt

theorem nodup_children
    (ns : Namespace)
    (p : Int) :
    (ns.children p).Nodup :=
  (children_sorted ns p).imp Int.ne_of_lt

/-! ## Searching -/

/-- What is below a place is one of its children, or below one of them. -/
theorem Ancestor.iff_child :
    ns.Ancestor p r ↔ ∃ q ∈ ns.children p, r = q ∨ ns.Ancestor q r := by
  constructor
  · intro ancestor
    induction ancestor with
    | parent known hangs => exact ⟨_, mem_children_iff.mpr ⟨known, hangs⟩, Or.inl rfl⟩
    | above _ known hangs ih =>
        rcases ih with ⟨q, child, rfl | below⟩
        · exact ⟨_, child, Or.inr (.parent known hangs)⟩
        · exact ⟨q, child, Or.inr (.above below known hangs)⟩
  · rintro ⟨q, child, below⟩
    rcases mem_children_iff.mp child with ⟨known, hangs⟩
    rcases below with rfl | below
    · exact .parent known hangs
    · exact (Ancestor.parent known hangs).trans below

/-- Nothing is below two children of a place, and none of them is below another one. -/
theorem Ancestor.children_apart
    {x : Int}
    (child : q ∈ ns.children p)
    (childToo : r ∈ ns.children p)
    (one : x = q ∨ ns.Ancestor q x)
    (two : x = r ∨ ns.Ancestor r x) :
    q = r := by
  rcases mem_children_iff.mp child with ⟨known, hangs⟩
  rcases mem_children_iff.mp childToo with ⟨knownToo, hangsToo⟩
  have noneAbove := Ancestor.not_of_siblings known hangs hangsToo knownToo
  have noneAboveToo := Ancestor.not_of_siblings knownToo hangsToo hangs known
  rcases one with rfl | below
  · exact two.resolve_right noneAboveToo
  · rcases two with rfl | belowToo
    · exact absurd below noneAbove
    · rcases below.comparable belowToo with same | above | above
      · exact same
      · exact absurd above noneAbove
      · exact absurd above noneAboveToo

theorem mem_cons_descendants :
    r ∈ q :: ns.descendants q ↔ r = q ∨ ns.Ancestor q r := by
  rw [List.mem_cons, mem_descendants]

theorem descendants_perm
    (ns : Namespace)
    (p : Int) :
    (ns.descendants p).Perm ((ns.children p).flatMap fun q => q :: ns.descendants q) := by
  refine (List.perm_ext_iff_of_nodup (nodup_descendants ns p) ?_).mpr fun x => ?_
  · refine List.nodup_flatMap.mpr ⟨fun q _ => List.nodup_cons.mpr ⟨?_, nodup_descendants ns q⟩, ?_⟩
    · intro member
      exact Int.lt_irrefl q (mem_descendants.mp member).lt
    · refine (nodup_children ns p).imp_of_mem fun child childToo apart x one two => apart ?_
      exact Ancestor.children_apart child childToo (mem_cons_descendants.mp one)
        (mem_cons_descendants.mp two)
  · simp only [mem_descendants, List.mem_flatMap, mem_cons_descendants]
    exact Ancestor.iff_child

/-- How far a search has come: what it has found, and where it still has to look. -/
structure Search where
  found : List Int
  pending : List Int

/--
One round of a search below a place: the children of the next place are found.
If the search is `recursive`, they are the next places to look at, the last of them first.
-/
def Search.round
    (ns : Namespace)
    (recursive : Bool)
    (search : Search) :
    Search :=
  match search.pending with
  | [] => search
  | next :: rest =>
    { found := search.found ++ ns.children next
      pending := (if recursive then (ns.children next).reverse else []) ++ rest }

/-- Places each followed by what is below them, or all places first. -/
theorem flatMap_below_perm
    (ns : Namespace)
    (places : List Int) :
    (places.flatMap fun q => q :: ns.descendants q).Perm
      (places ++ places.flatMap ns.descendants) := by
  induction places with
  | nil => exact List.Perm.nil
  | cons q rest ih =>
      simp only [List.flatMap_cons, List.cons_append]
      refine List.Perm.cons q ((ih.append_left _).trans ?_)
      rw [← List.append_assoc, ← List.append_assoc]
      exact List.perm_append_comm.append_right _

/-- A recursive search takes one round for each place that is pending or below one that is. -/
theorem Search.ends
    (ns : Namespace)
    (search : Search) :
    ∃ found,
      (Search.round ns true)^[(search.pending.flatMap fun q => q :: ns.descendants q).length] search
          = ⟨found, []⟩
        ∧ found.Perm (search.found ++ search.pending.flatMap ns.descendants) := by
  generalize rounds : (search.pending.flatMap fun q => q :: ns.descendants q).length = count
  induction count generalizing search with
  | zero =>
      rcases search with ⟨found, _ | ⟨next, rest⟩⟩
      · exact ⟨found, rfl, by simp⟩
      · simp at rounds
  | succ count ih =>
      rcases search with ⟨found, _ | ⟨next, rest⟩⟩
      · simp at rounds
      · have below := descendants_perm ns next
        have fewer : (((ns.children next).reverse ++ rest).flatMap
            fun q => q :: ns.descendants q).length = count := by
          have same : ((ns.children next).reverse.flatMap fun q => q :: ns.descendants q).length
              = (ns.descendants next).length :=
            (((ns.children next).reverse_perm.flatMap_right _).trans below.symm).length_eq
          rw [List.flatMap_cons, List.length_append, List.length_cons] at rounds
          rw [List.flatMap_append, List.length_append, same]
          omega
        rcases ih ⟨found ++ ns.children next, (ns.children next).reverse ++ rest⟩ fewer with
          ⟨last, ends, perm⟩
        refine ⟨last, ends, perm.trans ?_⟩
        show (found ++ ns.children next
          ++ ((ns.children next).reverse ++ rest).flatMap ns.descendants).Perm
            (found ++ (ns.descendants next ++ rest.flatMap ns.descendants))
        rw [List.append_assoc, List.flatMap_append, ← List.append_assoc (ns.children next)]
        refine List.Perm.append_left found (List.Perm.append_right _ ?_)
        refine List.Perm.trans ?_ (below.trans (flatMap_below_perm ns _)).symm
        exact List.Perm.append_left _ ((ns.children next).reverse_perm.flatMap_right _)

end Chronicle.Namespace
