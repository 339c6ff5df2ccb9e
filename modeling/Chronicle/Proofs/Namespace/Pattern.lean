import Chronicle.Namespace.Pattern
import Chronicle.Proofs.Namespace.Interning

/-!
# What a pattern matches

A pattern is searched place by place: the places that its first segments lead
to are gathered and arranged before the next segment leads on from them.  On
the way that can be the root, and branches that met go on as one.  Said
without a search, a match is an attribute that a chain of steps leads to, one
step for each segment.

Steps are told here by the parents and the names of attributes.  That a name
leads to the child of that name, and to no other, is where a namespace needs
to have one attribute for each name in a place.
-/

namespace Chronicle.Namespace

variable {ns : Namespace} {base p q : Int} {segment : String} {pattern : List String}
  {places found : List Int}

/-- A step from `p` to `q` that a segment stands for. -/
inductive Steps (ns : Namespace) : (segment : String) → (p q : Int) → Prop
  /-- `*` leads to any child. -/
  | anyChild
      {p q : Int}
      (known : ns.Contains q)
      (hangs : ns.parent q = .ok p) :
      Steps ns "*" p q
  /-- `..` leads to the parent, but the root has none. -/
  | parent
      {p q : Int}
      (known : ns.Contains p)
      (hangs : ns.parent p = .ok q) :
      Steps ns ".." p q
  /-- Any other segment leads to the child of that name. -/
  | child
      {segment : String}
      {p q : Int}
      (plain : segment ≠ "*" ∧ segment ≠ "..")
      (known : ns.Contains q)
      (hangs : ns.parent q = .ok p)
      (called : ns.name q = .ok segment) :
      Steps ns segment p q

/-- A chain of steps from `p` to `q`, one for each segment of a pattern. -/
inductive Chain (ns : Namespace) : (p : Int) → (pattern : List String) → (q : Int) → Prop
  | stay
      (p : Int) :
      Chain ns p [] p
  | step
      {segment : String}
      {pattern : List String}
      {p r q : Int}
      (first : Steps ns segment p r)
      (rest : Chain ns r pattern q) :
      Chain ns p (segment :: pattern) q

@[simp]
theorem chain_nil_iff :
    Chain ns p [] q ↔ p = q := by
  constructor
  · rintro ⟨⟩
    rfl
  · rintro rfl
    exact .stay p

theorem chain_cons_iff :
    Chain ns p (segment :: pattern) q ↔ ∃ r, Steps ns segment p r ∧ Chain ns r pattern q := by
  constructor
  · rintro (_ | ⟨first, rest⟩)
    exact ⟨_, first, rest⟩
  · rintro ⟨r, first, rest⟩
    exact .step first rest

/-! ## One step -/

theorem name_of_attribute?
    {a : Attribute}
    (held : ns.attribute? q = some a) :
    ns.name q = .ok a.name := by
  unfold Namespace.name find
  rw [held]
  rfl

/-- Where an attribute hangs is told by its record. -/
theorem parent_eq_ok_iff :
    ns.Contains q ∧ ns.parent q = .ok p ↔ ∃ a, ns.attribute? q = some a ∧ a.parent = p := by
  constructor
  · rintro ⟨known, hangs⟩
    rcases contains_iff.mp known with ⟨a, held⟩
    exact ⟨a, held, Except.ok.inj ((parent_of_attribute? held).symm.trans hangs)⟩
  · rintro ⟨a, held, rfl⟩
    exact ⟨contains_iff.mpr ⟨a, held⟩, parent_of_attribute? held⟩

theorem mem_children_iff :
    q ∈ ns.children p ↔ ns.Contains q ∧ ns.parent q = .ok p :=
  mem_children.trans parent_eq_ok_iff.symm

/-- Where each name is found once in a place, the child of a name is the attribute with it. -/
theorem Unambiguous.child?_eq_some_iff
    (single : ns.Unambiguous) :
    ns.child? p segment = some q
      ↔ ns.Contains q ∧ ns.parent q = .ok p ∧ ns.name q = .ok segment := by
  rw [Namespace.child?_eq_some_iff]
  constructor
  · rintro ⟨held, -⟩
    exact ⟨contains_iff.mpr ⟨_, held⟩, parent_of_attribute? held, name_of_attribute? held⟩
  · rintro ⟨known, hangs, called⟩
    rcases contains_iff.mp known with ⟨a, held⟩
    obtain rfl : a.parent = p := Except.ok.inj ((parent_of_attribute? held).symm.trans hangs)
    obtain rfl : a.name = segment := Except.ok.inj ((name_of_attribute? held).symm.trans called)
    refine ⟨held, ?_⟩
    intro later after heldToo
    exact Int.ne_of_lt after (unambiguous_iff.mp single held heldToo)

/-- A segment leads to the places that its step is searched for. -/
theorem Unambiguous.mem_step_iff
    (single : ns.Unambiguous) :
    q ∈ ns.step p (.ofSegment segment) ↔ Steps ns segment p q := by
  have star : q ∈ ns.step p .anyChild ↔ ns.Contains q ∧ ns.parent q = .ok p := mem_children_iff
  have dots : q ∈ ns.step p .parent ↔ ns.Contains p ∧ ns.parent p = .ok q := by
    rw [parent_eq_ok_iff, ← Option.map_eq_some_iff]
    exact Option.mem_toList
  have named : q ∈ ns.step p (.child segment)
      ↔ ns.Contains q ∧ ns.parent q = .ok p ∧ ns.name q = .ok segment := by
    rw [← single.child?_eq_some_iff]
    exact Option.mem_toList
  unfold Move.ofSegment
  constructor
  · intro member
    split at member
    · rename_i same
      rcases star.mp member with ⟨known, hangs⟩
      exact same ▸ .anyChild known hangs
    · rename_i noStar
      split at member
      · rename_i same
        rcases dots.mp member with ⟨known, hangs⟩
        exact same ▸ .parent known hangs
      · rename_i noDots
        rcases named.mp member with ⟨known, hangs, called⟩
        exact .child ⟨noStar, noDots⟩ known hangs called
  · intro steps
    cases steps with
    | anyChild known hangs => exact star.mpr ⟨known, hangs⟩
    | parent known hangs => exact dots.mpr ⟨known, hangs⟩
    | child plain known hangs called =>
        rw [if_neg plain.1, if_neg plain.2]
        exact named.mpr ⟨known, hangs, called⟩

/-- Steps lead to places only. -/
theorem isPlace_of_steps
    (steps : Steps ns segment p q) :
    ns.IsPlace q := by
  cases steps with
  | anyChild known hangs => exact Or.inr known
  | child plain known hangs called => exact Or.inr known
  | parent known hangs =>
      rcases contains_iff.mp known with ⟨a, held⟩
      obtain rfl : a.parent = q := Except.ok.inj ((parent_of_attribute? held).symm.trans hangs)
      rcases isPlace_parent held with atRoot | ⟨nonneg, earlier⟩
      · exact Or.inl atRoot
      · exact Or.inr ⟨nonneg, Int.lt_trans earlier known.2⟩

/-! ## All steps -/

theorem mem_arrange :
    q ∈ ns.arrange found ↔ ns.IsPlace q ∧ q ∈ found := by
  unfold arrange
  rw [List.mem_filter, List.mem_cons, mem_quarks, decide_eq_true_iff]
  rfl

/-- What is arranged is in increasing order, and each place is there once. -/
theorem arrange_sorted
    (ns : Namespace)
    (found : List Int) :
    (ns.arrange found).Pairwise (· < ·) := by
  apply List.Pairwise.filter
  refine List.pairwise_cons.mpr ⟨?_, ?_⟩
  · intro q member
    exact Int.lt_of_lt_of_le (by decide) (mem_quarks.mp member).1
  · exact List.pairwise_map.mpr (List.pairwise_lt_range.imp Int.ofNat_lt.mpr)

theorem walk_cons
    (ns : Namespace)
    (places : List Int)
    (move : Move)
    (moves : List Move) :
    ns.walk places (move :: moves)
      = ns.walk (ns.arrange (places.flatMap fun q => ns.step q move)) moves := rfl

theorem walk_sorted
    (sorted : places.Pairwise (· < ·))
    (moves : List Move) :
    (ns.walk places moves).Pairwise (· < ·) := by
  induction moves generalizing places with
  | nil => exact sorted
  | cons move moves ih => exact ih (arrange_sorted ns _)

/-- A search comes to the places that chains lead to from where it began. -/
theorem Unambiguous.mem_walk_iff
    (single : ns.Unambiguous)
    (pattern : List String) :
    q ∈ ns.walk places (pattern.map Move.ofSegment) ↔ ∃ p ∈ places, Chain ns p pattern q := by
  induction pattern generalizing places with
  | nil =>
      simp only [chain_nil_iff, exists_eq_right]
      rfl
  | cons segment pattern ih =>
      rw [List.map_cons, walk_cons, ih]
      simp only [mem_arrange, List.mem_flatMap, single.mem_step_iff, chain_cons_iff]
      constructor
      · rintro ⟨r, ⟨-, p, member, first⟩, rest⟩
        exact ⟨p, member, r, first, rest⟩
      · rintro ⟨p, member, r, first, rest⟩
        exact ⟨r, ⟨isPlace_of_steps first, p, member, first⟩, rest⟩

/--
A pattern is searched exactly.  Below a place, a pattern of at least one
segment, none of them empty, matches the attributes that chains of its steps
lead to, and they are given in increasing order, each once.  Any other pattern
is refused, and so is a base that is no place.
-/
theorem matching_exact_of_grown
    (calls : List (Int × List String))
    (base : Int)
    (pattern : List String) :
    (pattern = [] ∨ "" ∈ pattern →
        (grown calls).matching base pattern = .error (.badPattern pattern))
      ∧ (pattern ≠ [] → "" ∉ pattern → ¬ (grown calls).IsPlace base →
        (grown calls).matching base pattern = .error (.notFound (.quark base)))
      ∧ (pattern ≠ [] → "" ∉ pattern → (grown calls).IsPlace base →
        ∃ found, (grown calls).matching base pattern = .ok found
          ∧ found.Pairwise (· < ·)
          ∧ ∀ q, q ∈ found ↔ q ≠ Quark.root ∧ Chain (grown calls) base pattern q) := by
  have single := unambiguous_grown calls
  unfold matching
  refine ⟨fun odd => if_pos odd, ?_, ?_⟩
  · intro some_ plain noPlace
    rw [if_neg (not_or.mpr ⟨some_, plain⟩), if_neg noPlace]
  · intro some_ plain place
    rw [if_neg (not_or.mpr ⟨some_, plain⟩), if_pos place]
    refine ⟨_, rfl, (walk_sorted (List.pairwise_singleton _ base) _).filter _, ?_⟩
    intro q
    rw [List.mem_filter, single.mem_walk_iff, decide_eq_true_iff]
    simp only [List.mem_singleton, exists_eq_left]
    exact And.comm

/-- Two disks and a processor, each with a reading. -/
def devices : List (Int × List String) :=
  [(-1, ["disks", "sda", "read"]), (-1, ["disks", "sdb", "read"]), (-1, ["cpu", "read"])]

/-- A pattern can leave its base by way of the root, and come back to it. -/
theorem matching_exact_of_devices :
    (grown devices).matching 0 ["..", "*", "*"] = .ok [1, 3, 6]
      ∧ Chain (grown devices) 0 ["..", "*", "*"] 1
      ∧ Chain (grown devices) 0 ["..", "*", "*"] 6
      ∧ ¬ Chain (grown devices) 0 ["..", "*", "*"] 4
      ∧ (grown devices).matching 0 ["*", ""] = .error (.badPattern ["*", ""])
      ∧ (grown devices).matching 7 ["*"] = .error (.notFound (.quark 7)) := by
  rcases matching_exact_of_grown devices 0 ["..", "*", "*"] with ⟨-, -, exact_⟩
  rcases exact_ (by decide) (by decide) (by decide +kernel) with ⟨found, matches_, -, chains⟩
  have told : (grown devices).matching 0 ["..", "*", "*"] = .ok [1, 3, 6] := by decide +kernel
  obtain rfl : found = [1, 3, 6] := Except.ok.inj (matches_.symm.trans told)
  refine ⟨told, ((chains 1).mp (by decide)).2, ((chains 6).mp (by decide)).2, ?_, ?_, ?_⟩
  · intro chain
    exact absurd ((chains 4).mpr ⟨by decide, chain⟩) (by decide)
  · exact (matching_exact_of_grown devices 0 ["*", ""]).1 (by decide)
  · exact (matching_exact_of_grown devices 7 ["*"]).2.1 (by decide) (by decide) (by decide +kernel)

end Chronicle.Namespace
