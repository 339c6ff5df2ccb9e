import Chronicle.Proofs.Namespace.Paths

/-!
# Entering paths

Entering a path goes along what is there and creates the rest of it, one
attribute for each segment that is missing, with the next numbers there are.
All that could be asked before is answered as before, and the path of what was
reached is the path of the base followed by the path entered.

Since nothing is created beside a namesake, a namespace into which paths were
entered has one attribute for each name in a place; and whatever namespace has
that came about by entering paths.
-/

namespace Chronicle.Namespace

variable {ns after : Namespace} {base parent start q : Int} {path : List String} {name : String}

/-! ## One step -/

theorem descend_cases
    (reached : Namespace × Int)
    (segment : String) :
    (∃ child, reached.1.child? reached.2 segment = some child
        ∧ descend reached segment = (reached.1, child))
      ∨ (reached.1.child? reached.2 segment = none
        ∧ descend reached segment
          = (reached.1.add reached.2 segment, (reached.1.size : Int))) := by
  unfold descend
  cases found : reached.1.child? reached.2 segment with
  | some child => exact Or.inl ⟨child, rfl, rfl⟩
  | none => exact Or.inr ⟨rfl, rfl⟩

/-- A namespace that has all that another one has. -/
structure Extends (before after : Namespace) : Prop where
  keeps : ∀ {q}, before.Contains q → after.attribute? q = before.attribute? q
  finds : ∀ {parent name q}, before.child? parent name = some q →
    after.child? parent name = some q

theorem Extends.refl
    (ns : Namespace) :
    Extends ns ns :=
  ⟨fun _ => rfl, fun found => found⟩

theorem Extends.contains
    (extends_ : Extends ns after)
    (known : ns.Contains q) :
    after.Contains q := by
  rcases contains_iff.mp known with ⟨a, held⟩
  exact contains_iff.mpr ⟨a, (extends_.keeps known).trans held⟩

theorem Extends.isPlace
    (extends_ : Extends ns after)
    (place : ns.IsPlace q) :
    after.IsPlace q :=
  place.imp_right extends_.contains

theorem Extends.trans
    {last : Namespace}
    (first : Extends ns after)
    (second : Extends after last) :
    Extends ns last :=
  ⟨fun known => (second.keeps (first.contains known)).trans (first.keeps known),
    fun found => second.finds (first.finds found)⟩

/-- The way up from a place stays what it is. -/
theorem Extends.trail
    (extends_ : Extends ns after)
    (place : ns.IsPlace q) :
    after.trail q = ns.trail q := by
  induction q, place using induction_up with
  | root => rw [trail_root, trail_root]
  | child q a held _ ih =>
      have heldAfter := (extends_.keeps (contains_iff.mpr ⟨a, held⟩)).trans held
      rw [trail_eq held, trail_eq heldAfter, ih]

/-- The way down to a place stays what it is. -/
theorem Extends.foldlM
    (extends_ : Extends ns after)
    (found : path.foldlM ns.child? start = some q) :
    path.foldlM after.child? start = some q := by
  induction path generalizing start with
  | nil => exact found
  | cons segment rest ih =>
      rw [List.foldlM_cons] at found ⊢
      rcases Option.bind_eq_some_iff.mp found with ⟨child, first, later⟩
      exact Option.bind_eq_some_iff.mpr ⟨child, extends_.finds first, ih later⟩

/-- An attribute that was there keeps its name, its parent and its path. -/
theorem Extends.kept
    (extends_ : Extends ns after)
    (known : ns.Contains q) :
    after.name q = ns.name q
      ∧ after.parent q = ns.parent q
      ∧ after.segments q = ns.segments q := by
  have found : after.find q = ns.find q := by
    unfold find
    rw [extends_.keeps known]
  refine ⟨?_, ?_, ?_⟩
  · unfold Namespace.name
    rw [found]
  · unfold Namespace.parent
    rw [found]
  · rw [segments_of_isPlace (Or.inr known), segments_of_isPlace (Or.inr (extends_.contains known)),
      extends_.trail (Or.inr known)]

/-- An addition of what is missing leaves all that was there. -/
theorem extends_add
    (place : ns.IsPlace parent)
    (missing : ns.child? parent name = none) :
    Extends ns (ns.add parent name) := by
  refine ⟨fun known => attribute?_add_of_contains place name known, ?_⟩
  intro above called q found
  rw [child?_add place]
  refine (if_neg ?_).trans found
  rintro ⟨rfl, rfl⟩
  cases missing.symm.trans found

theorem extends_descend
    {reached : Namespace × Int}
    (place : reached.1.IsPlace reached.2)
    (segment : String) :
    Extends reached.1 (descend reached segment).1 := by
  rcases descend_cases reached segment with ⟨child, -, goes⟩ | ⟨missing, goes⟩
  · rw [goes]
    exact Extends.refl _
  · rw [goes]
    exact extends_add place missing

/-- What is gone to is found there afterwards. -/
theorem child?_descend
    {reached : Namespace × Int}
    (place : reached.1.IsPlace reached.2)
    (segment : String) :
    (descend reached segment).1.child? reached.2 segment = some (descend reached segment).2 := by
  rcases descend_cases reached segment with ⟨child, found, goes⟩ | ⟨-, goes⟩
  · rw [goes]
    exact found
  · rw [goes, child?_add place]
    exact if_pos ⟨rfl, rfl⟩

/-- The path of what is gone to has one segment more. -/
theorem trail_descend
    {reached : Namespace × Int}
    (place : reached.1.IsPlace reached.2)
    (segment : String) :
    (descend reached segment).1.trail (descend reached segment).2
      = reached.1.trail reached.2 ++ [segment] := by
  rcases child?_eq_some_iff.mp (child?_descend place segment) with ⟨held, -⟩
  rw [trail_eq held, (extends_descend place segment).trail place]

theorem Unambiguous.descend
    {reached : Namespace × Int}
    (single : reached.1.Unambiguous)
    (segment : String) :
    (Namespace.descend reached segment).1.Unambiguous := by
  rcases descend_cases reached segment with ⟨child, -, goes⟩ | ⟨missing, goes⟩
  · rw [goes]
    exact single
  · rw [goes]
    by_cases place : reached.1.IsPlace reached.2
    · unfold Unambiguous
      rw [attributes_add place, ← List.concat_eq_append]
      exact single.concat (child?_eq_none_iff.mp missing)
    · rwa [add_of_not_isPlace place]

/-! ## All steps of a path -/

section Path

variable {reached : Namespace × Int}

theorem isPlace_foldl_descend
    (place : reached.1.IsPlace reached.2)
    (path : List String) :
    (path.foldl descend reached).1.IsPlace (path.foldl descend reached).2 := by
  induction path generalizing reached with
  | nil => exact place
  | cons segment rest ih => exact ih (Or.inr (contains_descend place segment))

theorem extends_foldl_descend
    (place : reached.1.IsPlace reached.2)
    (path : List String) :
    Extends reached.1 (path.foldl descend reached).1 := by
  induction path generalizing reached with
  | nil => exact Extends.refl _
  | cons segment rest ih =>
      exact (extends_descend place segment).trans (ih (Or.inr (contains_descend place segment)))

/-- The path that was entered leads to where it led. -/
theorem foldlM_foldl_descend
    (place : reached.1.IsPlace reached.2)
    (path : List String) :
    path.foldlM (path.foldl descend reached).1.child? reached.2
      = some (path.foldl descend reached).2 := by
  induction path generalizing reached with
  | nil => rfl
  | cons segment rest ih =>
      have placeNext : (descend reached segment).1.IsPlace (descend reached segment).2 :=
        Or.inr (contains_descend place segment)
      have first := (extends_foldl_descend placeNext rest).finds (child?_descend place segment)
      rw [List.foldl_cons, List.foldlM_cons]
      exact Option.bind_eq_some_iff.mpr ⟨_, first, ih placeNext⟩

theorem trail_foldl_descend
    (place : reached.1.IsPlace reached.2)
    (path : List String) :
    (path.foldl descend reached).1.trail (path.foldl descend reached).2
      = reached.1.trail reached.2 ++ path := by
  induction path generalizing reached with
  | nil => exact (List.append_nil _).symm
  | cons segment rest ih =>
      rw [List.foldl_cons, ih (Or.inr (contains_descend place segment)), trail_descend place,
        List.append_assoc]
      rfl

theorem Unambiguous.foldl_descend
    (single : reached.1.Unambiguous)
    (path : List String) :
    (path.foldl Namespace.descend reached).1.Unambiguous := by
  induction path generalizing reached with
  | nil => exact single
  | cons segment rest ih => exact ih (single.descend segment)

end Path

/-- Behind a segment that is missing all are, and each is created with the next number. -/
theorem foldl_descend_of_missing
    {segment : String}
    (place : ns.IsPlace start)
    (missing : ns.child? start segment = none)
    (rest : List String) :
    ((segment :: rest).foldl descend (ns, start)).1.size = ns.size + rest.length + 1
      ∧ ((segment :: rest).foldl descend (ns, start)).2 = ns.size + rest.length := by
  have goes : descend (ns, start) segment = (ns.add start segment, (ns.size : Int)) := by
    unfold descend
    rw [missing]
  have size := size_add place segment
  -- What was just created has no children, so that the next segment is missing below it.
  induction rest generalizing ns start segment with
  | nil =>
      rw [List.foldl_cons, goes]
      exact ⟨size, (Int.add_zero _).symm⟩
  | cons next rest ih =>
      have placeNext : (ns.add start segment).IsPlace ns.size :=
        Or.inr ⟨Int.natCast_nonneg _, by omega⟩
      have missingNext : (ns.add start segment).child? ns.size next = none := by
        rw [child?_add place, child?_size]
        refine if_neg ?_
        rintro ⟨same, -⟩
        rcases place with atRoot | known
        · simp [atRoot, Quark.root] at same
        · exact Int.ne_of_lt known.2 same.symm
      have goesNext : descend (ns.add start segment, (ns.size : Int)) next
          = ((ns.add start segment).add ns.size next, ((ns.add start segment).size : Int)) := by
        unfold descend
        rw [missingNext]
      rcases ih placeNext missingNext goesNext (size_add placeNext next) with ⟨sizes, ends⟩
      rw [List.foldl_cons, goes, sizes, ends, size, List.length_cons]
      constructor
      · omega
      · push_cast
        omega

/-- A path goes along what is there as far as that leads. -/
theorem exists_known
    (ns : Namespace)
    (start : Int)
    (path : List String) :
    ∃ known missing reached,
      path = known ++ missing
        ∧ known.foldlM ns.child? start = some reached
        ∧ ∀ segment rest, missing = segment :: rest → ns.child? reached segment = none := by
  induction path generalizing start with
  | nil =>
      refine ⟨[], [], start, rfl, rfl, ?_⟩
      rintro segment rest ⟨⟩
  | cons segment rest ih =>
      cases found : ns.child? start segment with
      | none =>
          refine ⟨[], segment :: rest, start, rfl, rfl, ?_⟩
          rintro _ _ ⟨⟩
          exact found
      | some child =>
          rcases ih child with ⟨known, missing, reached, rfl, leads, ends⟩
          refine ⟨segment :: known, missing, reached, rfl, ?_, ends⟩
          rw [List.foldlM_cons, found]
          exact leads

/-! ## What entering a path does -/

/-- What entering `path` at `base` makes of a namespace, and the place `q` that it leads to. -/
structure Entered
    (ns : Namespace)
    (base : Int)
    (path : List String)
    (after : Namespace)
    (q : Int) : Prop where
  /-- The path of what was reached is the path of the base followed by the path entered. -/
  segments : after.segments q = .ok (ns.trail base ++ path)
  resolved : after.resolve? base path = some q
  /-- Of the path, `known` was there, and each segment behind it is created with the next number. -/
  created : ∃ known missing, path = known ++ missing
    ∧ (∀ part, part <+: path →
      ((∃ p, ns.resolve? base part = some p) ↔ part.length ≤ known.length))
    ∧ after.size = ns.size + missing.length
    ∧ ∀ index, index < missing.length →
      after.resolve? base (known ++ missing.take (index + 1)) = some (ns.size + index : Int)
  /-- Attributes that were there keep their names, their parents and their paths. -/
  kept : ∀ p, ns.Contains p →
    after.name p = ns.name p ∧ after.parent p = ns.parent p ∧ after.segments p = ns.segments p

theorem isPlace_of_foldlM
    (place : ns.IsPlace start)
    (found : path.foldlM ns.child? start = some q) :
    ns.IsPlace q := by
  have goes := foldl_descend_of_foldlM found
  have there := @isPlace_foldl_descend (ns, start) place path
  rwa [goes] at there

/-- The parts of a path that lead somewhere are those no longer than what was there of it. -/
theorem resolve?_part_iff
    {known missing part : List String}
    {reached : Int}
    (place : ns.IsPlace base)
    (leads : known.foldlM ns.child? base = some reached)
    (ends : ∀ segment rest, missing = segment :: rest → ns.child? reached segment = none)
    (begins : part <+: known ++ missing) :
    (∃ p, ns.resolve? base part = some p) ↔ part.length ≤ known.length := by
  have way : ns.resolve? base part = part.foldlM ns.child? base := if_pos place
  rw [way]
  constructor
  · rintro ⟨p, found⟩
    by_contra longer
    have more := List.prefix_of_prefix_length_le (List.prefix_append known missing) begins
      (by omega)
    rcases more with ⟨others, rfl⟩
    rw [List.prefix_append_right_inj] at begins
    cases others with
    | nil => simp at longer
    | cons segment others =>
        rcases begins with ⟨behind, rfl⟩
        rw [List.foldlM_append, leads] at found
        have gone : ns.child? reached segment = none := ends segment _ rfl
        simp [List.foldlM_cons, gone] at found
  · intro short
    rcases List.prefix_of_prefix_length_le begins (List.prefix_append known missing) short
      with ⟨others, rfl⟩
    rw [List.foldlM_append] at leads
    rcases Option.bind_eq_some_iff.mp leads with ⟨p, found, -⟩
    exact ⟨p, found⟩

/-- Each part of a path that was missing leads to the next number there was. -/
theorem resolve?_created
    {known missing : List String}
    {reached : Int}
    {index : Nat}
    (place : ns.IsPlace base)
    (leads : known.foldlM ns.child? base = some reached)
    (ends : ∀ segment rest, missing = segment :: rest → ns.child? reached segment = none)
    (inside : index < missing.length) :
    ((known ++ missing).foldl descend (ns, base)).1.resolve? base
        (known ++ missing.take (index + 1))
      = some (ns.size + index : Int) := by
  have placeHere : (ns, base).1.IsPlace (ns, base).2 := place
  have placeAfter := (extends_foldl_descend placeHere (known ++ missing)).isPlace place
  -- The way to the attribute is the same when it was just created and in the end.
  have part : known ++ missing
      = (known ++ missing.take (index + 1)) ++ missing.drop (index + 1) := by
    rw [List.append_assoc, List.take_append_drop]
  have short := foldlM_foldl_descend placeHere (known ++ missing.take (index + 1))
  have placeShort := isPlace_foldl_descend placeHere (known ++ missing.take (index + 1))
  have later := extends_foldl_descend placeShort (missing.drop (index + 1))
  rw [← List.foldl_append, ← part] at later
  refine (if_pos placeAfter).trans ((later.foldlM short).trans ?_)
  rw [List.foldl_append, foldl_descend_of_foldlM leads]
  cases missing with
  | nil => exact absurd inside (Nat.not_lt_zero index)
  | cons segment rest =>
      have numbered := (foldl_descend_of_missing (isPlace_of_foldlM place leads)
        (ends segment rest rfl) (rest.take index)).2
      rw [List.length_cons] at inside
      rw [List.take_succ_cons, numbered, List.length_take_of_le (by omega)]

/-- At every place every path can be entered. -/
theorem exists_entered
    (place : ns.IsPlace base)
    (path : List String) :
    ∃ after q, ns.intern base path = .ok (after, q) ∧ Entered ns base path after q := by
  refine ⟨_, _, if_pos place, ?_⟩
  have placeHere : (ns, base).1.IsPlace (ns, base).2 := place
  have extends_ := extends_foldl_descend placeHere path
  have placeThere := extends_.isPlace place
  constructor
  · rw [segments_of_isPlace (isPlace_foldl_descend placeHere path), trail_foldl_descend placeHere]
  · exact (if_pos placeThere).trans (foldlM_foldl_descend placeHere path)
  · rcases exists_known ns base path with ⟨known, missing, reached, rfl, leads, ends⟩
    refine ⟨known, missing, rfl, fun part => resolve?_part_iff place leads ends, ?_,
      fun index => resolve?_created place leads ends⟩
    rw [List.foldl_append, foldl_descend_of_foldlM leads]
    cases missing with
    | nil => rfl
    | cons segment rest =>
        exact (foldl_descend_of_missing (isPlace_of_foldlM place leads)
          (ends segment rest rfl) rest).1
  · exact fun p => extends_.kept

theorem intern_of_not_isPlace
    (noPlace : ¬ ns.IsPlace base)
    (path : List String) :
    ns.intern base path = .error (.notFound (.quark base)) :=
  if_neg noPlace

/-! ## Namespaces that came about by entering paths -/

/-- The namespace after an attempt to enter a path at a base. -/
def enter
    (ns : Namespace)
    (call : Int × List String) :
    Namespace :=
  match ns.intern call.1 call.2 with
  | .ok reached => reached.1
  | .error _ => ns

/-- The namespace into which paths were entered, one after the other. -/
def grown (calls : List (Int × List String)) : Namespace :=
  calls.foldl enter empty

theorem enter_of_not_isPlace
    (noPlace : ¬ ns.IsPlace base)
    (path : List String) :
    ns.enter (base, path) = ns := by
  unfold enter
  rw [intern_of_not_isPlace noPlace]

theorem grown_concat
    (calls : List (Int × List String))
    (call : Int × List String) :
    grown (calls ++ [call]) = (grown calls).enter call :=
  List.foldl_concat ..

theorem Unambiguous.enter
    (single : ns.Unambiguous)
    (call : Int × List String) :
    (ns.enter call).Unambiguous := by
  rcases call with ⟨base, path⟩
  by_cases place : ns.IsPlace base
  · have goes : ns.enter (base, path) = (path.foldl Namespace.descend (ns, base)).1 := by
      unfold Namespace.enter intern
      rw [if_pos place]
    rw [goes]
    exact @Unambiguous.foldl_descend (ns, base) single path
  · rwa [enter_of_not_isPlace place]

theorem unambiguous_grown
    (calls : List (Int × List String)) :
    (grown calls).Unambiguous := by
  induction calls using List.reverseRecOn with
  | nil => exact List.nodup_nil
  | append_singleton calls call ih =>
      rw [grown_concat]
      exact ih.enter call

/-- The namespaces with one attribute for each name in a place are those that entered paths make. -/
theorem exists_grown_iff :
    (∃ calls, ns = grown calls) ↔ ns.Unambiguous := by
  constructor
  · rintro ⟨calls, rfl⟩
    exact unambiguous_grown calls
  · intro single
    induction ns using induction_add with
    | empty => exact ⟨[], rfl⟩
    | add ns parent name place ih =>
        unfold Unambiguous at single
        rw [attributes_add place, ← List.concat_eq_append, List.nodup_concat] at single
        rcases ih single.2 with ⟨calls, rfl⟩
        have missing := child?_eq_none_iff.mpr single.1
        refine ⟨calls ++ [(parent, [name])], ?_⟩
        rw [grown_concat]
        unfold enter intern
        rw [if_pos place]
        show _ = (descend (grown calls, parent) name).1
        unfold descend
        rw [missing]

end Chronicle.Namespace
