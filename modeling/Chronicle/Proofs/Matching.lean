import Chronicle.Proofs.Step

/-!
# Steps that go alike

Two steps go alike when they answer the same, or fail with the same fault, and
end in related states.  That is followed along the equations of steps: what
goes alike at first and goes on alike from related states goes alike as a
whole.
-/

namespace Chronicle.Step

variable {σ τ α β : Type} {R : Placed σ → Placed τ → Prop}

/-- The same answer or the same fault, in related states. -/
inductive Matched (R : Placed σ → Placed τ → Prop) :
    EStateM.Result Fault (Placed σ) α →
    EStateM.Result Fault (Placed τ) α →
    Prop
  | ok
      (a : α)
      {s : Placed σ}
      {s' : Placed τ}
      (related : R s s') :
      Matched R (.ok a s) (.ok a s')
  | error
      (fault : Fault)
      {s : Placed σ}
      {s' : Placed τ}
      (related : R s s') :
      Matched R (.error fault s) (.error fault s')

namespace Matched

theorem mono
    {Q : Placed σ → Placed τ → Prop}
    {left : EStateM.Result Fault (Placed σ) α}
    {right : EStateM.Result Fault (Placed τ) α}
    (matched : Matched R left right)
    (weaker : ∀ {s s'}, R s s' → Q s s') :
    Matched Q left right := by
  cases matched with
  | ok a related => exact .ok a (weaker related)
  | error fault related => exact .error fault (weaker related)

theorem refl
    {R : Placed σ → Placed σ → Prop}
    (related : ∀ s, R s s)
    (ended : EStateM.Result Fault (Placed σ) α) :
    Matched R ended ended := by
  cases ended with
  | ok a s => exact .ok a (related s)
  | error fault s => exact .error fault (related s)

/-- What is decided by the same data goes alike. -/
theorem ofExcept
    {s : Placed σ}
    {s' : Placed τ}
    (related : R s s')
    (decided : Except Fault α) :
    Matched R (Step.ofExcept decided s) (Step.ofExcept decided s') := by
  cases decided with
  | ok a => exact .ok a related
  | error fault => exact .error fault related

theorem bind
    {left : Step σ α}
    {right : Step τ α}
    {next : α → Step σ β}
    {next' : α → Step τ β}
    {s : Placed σ}
    {s' : Placed τ}
    (first : Matched R (left s) (right s'))
    (later : ∀ a r r', right s' = .ok a r' → R r r' → Matched R (next a r) (next' a r')) :
    Matched R ((left >>= next) s) ((right >>= next') s') := by
  cases leftEnd : left s with
  | ok a r =>
      cases rightEnd : right s' with
      | ok b r' =>
          rw [leftEnd, rightEnd] at first
          cases first with
          | ok a related =>
              rw [bind_of_ok leftEnd, bind_of_ok rightEnd]
              exact later a r r' rightEnd related
      | error fault r' =>
          rw [leftEnd, rightEnd] at first
          cases first
  | error fault r =>
      cases rightEnd : right s' with
      | ok b r' =>
          rw [leftEnd, rightEnd] at first
          cases first
      | error other r' =>
          rw [leftEnd, rightEnd] at first
          cases first with
          | error fault related =>
              rw [bind_of_error leftEnd, bind_of_error rightEnd]
              exact .error fault related

/-- What is made of the same answer is the same. -/
theorem map
    {left : Step σ α}
    {right : Step τ α}
    {s : Placed σ}
    {s' : Placed τ}
    (matched : Matched R (left s) (right s'))
    (change : α → β) :
    Matched R ((left >>= fun a => pure (change a)) s) ((right >>= fun a => pure (change a)) s') :=
  matched.bind fun a _ _ _ related => .ok (change a) related

/-- Decided alike, two steps go on alike. -/
theorem ofExcept_bind
    {s : Placed σ}
    {s' : Placed τ}
    {next : α → Step σ β}
    {next' : α → Step τ β}
    (related : R s s')
    (decided : Except Fault α)
    (later : ∀ a, decided = .ok a → Matched R (next a s) (next' a s')) :
    Matched R ((Step.ofExcept decided >>= next) s) ((Step.ofExcept decided >>= next') s') := by
  cases decided with
  | ok a => exact later a rfl
  | error fault => exact .error fault related

/-- Steps on parts go alike if they do on the parts alone. -/
theorem onPart
    {υ φ : Type}
    {Q : Placed υ → Placed φ → Prop}
    {part : σ → υ}
    {putBack : σ → υ → σ}
    {part' : τ → φ}
    {putBack' : τ → φ → τ}
    {step : Step υ α}
    {step' : Step φ α}
    {s : Placed σ}
    {s' : Placed τ}
    (matched : Matched Q (step ⟨s.volume, part s.subject⟩) (step' ⟨s'.volume, part' s'.subject⟩))
    (carries : ∀ {r r'}, Q r r' →
      R ⟨r.volume, putBack s.subject r.subject⟩ ⟨r'.volume, putBack' s'.subject r'.subject⟩) :
    Matched R (Step.onPart part putBack step s) (Step.onPart part' putBack' step' s') := by
  unfold Step.onPart
  generalize step ⟨s.volume, part s.subject⟩ = left at matched ⊢
  generalize step' ⟨s'.volume, part' s'.subject⟩ = right at matched ⊢
  cases matched with
  | ok a related => exact .ok a (carries related)
  | error fault related => exact .error fault (carries related)

/-- Steps that go alike have the same outcome, and end in related states. -/
theorem reached
    {left : Step σ α}
    {right : Step τ α}
    {s : Placed σ}
    {s' : Placed τ}
    (matched : Matched R (left s) (right s')) :
    ∃ told, left.outcome s = .ok told (left.reached s)
      ∧ right.outcome s' = .ok told (right.reached s')
      ∧ R (left.reached s) (right.reached s') := by
  unfold Step.outcome Step.reached
  cases leftEnd : left s with
  | ok a r =>
      cases rightEnd : right s' with
      | ok b r' =>
          rw [leftEnd, rightEnd] at matched
          cases matched with
          | ok a related => exact ⟨.ok a, rfl, rfl, related⟩
      | error fault r' =>
          rw [leftEnd, rightEnd] at matched
          cases matched
  | error fault r =>
      cases rightEnd : right s' with
      | ok b r' =>
          rw [leftEnd, rightEnd] at matched
          cases matched
      | error other r' =>
          rw [leftEnd, rightEnd] at matched
          cases matched with
          | error fault related => exact ⟨.error fault, rfl, rfl, related⟩

/-- Steps that go alike have outcomes that go alike. -/
theorem outcome
    {left : Step σ α}
    {right : Step τ α}
    {s : Placed σ}
    {s' : Placed τ}
    (matched : Matched R (left s) (right s')) :
    Matched R (left.outcome s) (right.outcome s') := by
  rcases matched.reached with ⟨told, outcome, outcome', related⟩
  rw [outcome, outcome']
  exact .ok told related

end Matched

/-! ## Either order -/

/-- Two steps go in either order as each goes when it comes first, and leave related states. -/
structure Commute
    (R : Placed σ → Placed σ → Prop)
    (left : Step σ α)
    (right : Step σ β)
    (s : Placed σ) : Prop where
  left_same : Matched (fun _ _ => True) (left s) (left (right.reached s))
  right_same : Matched (fun _ _ => True) (right s) (right (left.reached s))
  related : R (right.reached (left.reached s)) (left.reached (right.reached s))

namespace Commute

variable {Q : Placed σ → Placed σ → Prop} {left : Step σ α} {right : Step σ β} {s : Placed σ}

theorem symm
    (commute : Commute Q left right s)
    (swap : ∀ {s s'}, Q s s' → Q s' s) :
    Commute Q right left s :=
  ⟨commute.right_same, commute.left_same, swap commute.related⟩

/-- What is made of the answers of steps does not tell their order either. -/
theorem map
    {γ δ : Type}
    (commute : Commute Q left right s)
    (change : α → γ)
    (change' : β → δ) :
    Commute Q (left >>= fun a => pure (change a)) (right >>= fun b => pure (change' b)) s where
  left_same := by
    rw [reached_map]
    exact commute.left_same.map change
  right_same := by
    rw [reached_map]
    exact commute.right_same.map change'
  related := by
    rw [reached_map, reached_map, reached_map, reached_map]
    exact commute.related

/-- Taken for two items in either order, steps tell the same about each. -/
theorem each
    {γ : Type}
    {step : γ → Step σ α}
    {item other : γ}
    (commute : Commute Q (step item) (step other) s) :
    ∃ told otherTold,
      Step.each step [item, other] s
          = .ok [told, otherTold] ((step other).reached ((step item).reached s))
        ∧ Step.each step [other, item] s
          = .ok [otherTold, told] ((step item).reached ((step other).reached s)) := by
  rcases commute.left_same.reached with ⟨told, first, last, -⟩
  rcases commute.right_same.reached with ⟨otherTold, otherFirst, otherLast, -⟩
  refine ⟨told, otherTold, ?_, ?_⟩
  · exact each_cons_of_ok first (each_cons_of_ok otherLast rfl)
  · exact each_cons_of_ok otherFirst (each_cons_of_ok last rfl)

end Commute

end Chronicle.Step
