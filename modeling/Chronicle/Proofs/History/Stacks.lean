import Chronicle.Proofs.History.Noting
import Chronicle.Proofs.History.Refusal
import Chronicle.Proofs.History.Spreading

/-!
# Stacks

As long as nothing else sets what is at or below an attribute, pushes and pops
make a stack of it, at every instant and not only now: the history tells at `t`
what the pushes and pops up to `t` have come to.

A pop that finds nothing sets nothing, and it looks at no time either.  It can
therefore be made in the past, where the stack was not empty, and leaves the
stack of that time as it was.
-/

namespace Chronicle.History

/-! ## One call -/

/-- What a call does to the stack on an attribute. -/
def Call.acts
    (stack : Int) :
    Call →
    Placed History →
    List Act
  | make (.push t value quark), s =>
    if quark = stack then
      match History.push t value quark s with
      | .ok _ _ => [.push t value]
      | .error _ _ => []
    else
      []
  | make (.pop t quark), s =>
    if quark = stack then
      match History.pop t quark s with
      | .ok found _ => [.pop t found]
      | .error _ _ => []
    else
      []
  | _, _ => []

section Acts

variable {s reached : Placed History} {t stack : Int} {value : Value} {fault : Fault}

theorem Call.acts_of_pushed
    (done : History.push t value stack s = .ok () reached) :
    (Call.make (.push t value stack)).acts stack s = [.push t value] := by
  unfold Call.acts
  simp only [if_pos, done]

theorem Call.acts_of_push_failed
    (failed : History.push t value stack s = .error fault reached) :
    (Call.make (.push t value stack)).acts stack s = [] := by
  unfold Call.acts
  simp only [if_pos, failed]

theorem Call.acts_of_popped
    {found : Option Value}
    (done : History.pop t stack s = .ok found reached) :
    (Call.make (.pop t stack)).acts stack s = [.pop t found] := by
  unfold Call.acts
  simp only [if_pos, done]

theorem Call.acts_of_pop_failed
    (failed : History.pop t stack s = .error fault reached) :
    (Call.make (.pop t stack)).acts stack s = [] := by
  unfold Call.acts
  simp only [if_pos, failed]

end Acts

/-- Whether a call is to push to the stack on an attribute, or to pop from it. -/
def Call.OnStack
    (stack : Int) :
    Call →
    Prop
  | make (.push _ _ quark) => quark = stack
  | make (.pop _ quark) => quark = stack
  | _ => False

/-- The attributes that a call sets. -/
def Call.touched : Call → Placed History → List Int
  | make change, s => (journal (change.script.events s)).map (·.quark)
  | overwrite value quark, s =>
    match History.overwrite value quark s with
    | .ok _ _ => [quark]
    | .error _ _ => []
  | _, _ => []

/-- Whether a call sets nothing that is at or below an attribute. -/
def Call.Spares
    (stack : Int)
    (call : Call)
    (s : Placed History) :
    Prop :=
  ∀ quark ∈ call.touched s,
    quark ≠ stack ∧ ¬ (call.step.reached s).subject.names.Ancestor stack quark

/-- What a call leaves of a history: all that it does not touch is held as before. -/
structure Untouched
    (call : Call)
    (s : Placed History)
    (ledger after : Ledger) : Prop where
  open_ : Open (call.step.reached s) after
  names : s.subject.names.Extends (call.step.reached s).subject.names
  start : after.ongoing.start = ledger.ongoing.start
  latest_le : ledger.ongoing.latest ≤ after.ongoing.latest
  holds : ∀ {quark t value}, quark ∉ call.touched s →
    ledger.Holds quark t value → after.Holds quark t value

namespace Open

variable {s : Placed History} {ledger : Ledger} {call : Call}

theorem untouched_of_change
    (open_ : Open s ledger)
    (change : Change) :
    ∃ after, Untouched (.make change) s ledger after := by
  rcases open_.note change.script with ⟨after, noted⟩
  rw [change.run_script, ← Call.reached_make] at noted
  refine ⟨after, noted.open_, noted.names, noted.notes.start, noted.notes.latest_le, ?_⟩
  intro quark t value apart holds
  have held := noted.notes.holds holds
  rwa [overridden_of_apart] at held
  intro entry member same
  exact absurd (List.mem_map.mpr ⟨entry, member, same⟩) apart

theorem untouched_of_overwrite
    (open_ : Open s ledger)
    (value : Value)
    (quark : Int) :
    ∃ after, Untouched (.overwrite value quark) s ledger after := by
  have reaches := Call.reached_overwrite value quark s
  rcases open_.overwrite value quark with
    ⟨place, slot, reached, -, found, rfl, done, openAfter, outline, -⟩ | ⟨fault, -, failed⟩
  · have same : reached.subject.names = s.subject.names := congrArg Outline.names outline
    have known : ledger.slot? place = some slot := (Ongoing.slot_eq_ok_iff.mp found).2
    rw [Step.reached_of_ok done] at reaches
    rw [← reaches] at openAfter same
    refine ⟨_, openAfter, same ▸ .refl _, rfl, Int.le_refl _, ?_⟩
    intro q t v apart holds
    refine holds.overwrite known ?_
    rintro rfl
    unfold Call.touched at apart
    simp only [done, List.mem_singleton, not_true] at apart
  · rw [Step.reached_of_error failed] at reaches
    exact ⟨ledger, reaches.symm ▸ open_, reaches.symm ▸ .refl _, rfl, Int.le_refl _,
      fun _ holds => holds⟩

/-- Whatever it comes to, a call leaves alone what it does not touch, while the writer stays. -/
theorem untouched
    (open_ : Open s ledger)
    (stays : ¬ call.Ends)
    (inRange : s.subject.InRange) :
    ∃ after, Untouched call s ledger after := by
  cases call with
  | make change => exact open_.untouched_of_change change
  | overwrite value quark => exact open_.untouched_of_overwrite value quark
  | close stop => exact absurd trivial stays
  | abandon => exact absurd trivial stays
  | ask question =>
      have asked := open_.kept.asked inRange question
      rw [← Call.reached_ask] at asked
      exact ⟨ledger, asked.open_ open_, asked.names ▸ .refl _, rfl, Int.le_refl _,
        fun _ holds => holds⟩

end Open

/-- A history on whose ledger a stack is spread that the given acts have come to. -/
structure Stacking
    (s : Placed History)
    (ledger : Ledger)
    (stack : Int)
    (acts : List Act) : Prop where
  open_ : Open s ledger
  told : Told acts
  past : ∀ act ∈ effective acts, act.time ≤ ledger.ongoing.latest
  spread : ∀ t, ledger.ongoing.start ≤ t →
    Spread (fun q v => ledger.Holds q t v) s.subject.names stack (stackAt (effective acts) t)

namespace Stacking

variable {s reached : Placed History} {ledger after : Ledger} {stack : Int} {acts : List Act}

/-- From the latest change on, the stack is what all acts have come to. -/
theorem stackAt_of_late
    {t : Int}
    (stacking : Stacking s ledger stack acts)
    (late : ledger.ongoing.latest ≤ t) :
    stackAt (effective acts) t = stackOf acts := by
  rw [History.stackAt_of_late fun act member => Int.le_trans (stacking.past act member) late,
    stacking.told.stackOf_effective]

/-- What is below an attribute and was not there will have held null. -/
theorem fresh
    {names : Namespace}
    {t : Int}
    (stacking : Stacking s ledger stack acts)
    (begun : ledger.ongoing.start ≤ t) :
    ∀ q, names.Ancestor stack q → ¬ s.subject.names.Contains q → ledger.Holds q t .null := by
  intro q below unknown
  have nonneg := below.contains.1
  have named := stacking.open_.named
  unfold Namespace.Contains at unknown
  exact .unborn (by omega) begun

/-- The height that is read is the height of the stack. -/
theorem height_eq
    {height : Int}
    (stacking : Stacking s ledger stack acts)
    (read : s.subject.stackHeight stack = .ok height) :
    height = (stackOf acts).length := by
  have open_ := stacking.open_
  have ending := open_.ending
  unfold stackHeight at read
  cases held : s.subject.ongoingValue stack with
  | error fault =>
      rw [held] at read
      cases read
  | ok value =>
      have spread := stacking.spread s.subject.currentEnd
        (ending ▸ open_.goes.current.start_le)
      rw [stacking.stackAt_of_late (Int.le_of_eq ending.symm)] at spread
      have same := (open_.holds_of_ongoingValue held (Int.le_refl _)).unique
        open_.kept.keeps.holds.separate spread.height
      rw [held, same] at read
      have told : (do
          let height ← (heightOf (stackOf acts).length).asHeight
          return height.toInt : Except Fault Int) = .ok height := read
      rw [asHeight_heightOf] at told
      rw [← toInt_height spread.few]
      exact (Except.ok.inj told).symm

/-- What does not touch the stack leaves it as it is. -/
theorem keep
    (stacking : Stacking s ledger stack acts)
    (open_ : Open reached after)
    (names : s.subject.names.Extends reached.subject.names)
    (start : after.ongoing.start = ledger.ongoing.start)
    (latest : ledger.ongoing.latest ≤ after.ongoing.latest)
    (keeps : ∀ q t v, q = stack ∨ reached.subject.names.Ancestor stack q →
      ledger.Holds q t v → after.Holds q t v) :
    Stacking reached after stack acts where
  open_ := open_
  told := stacking.told
  past act member := Int.le_trans (stacking.past act member) latest
  spread t begun := by
    rw [start] at begun
    exact (stacking.spread t begun).frame names (stacking.fresh begun) fun q v => keeps q t v

/-- So does a call that touches other attributes. -/
theorem keep_of_spares
    {call : Call}
    (stacking : Stacking s ledger stack acts)
    (stays : ¬ call.Ends)
    (inRange : s.subject.InRange)
    (spares : call.Spares stack s) :
    ∃ after, Stacking (call.step.reached s) after stack acts := by
  rcases stacking.open_.untouched stays inRange with ⟨after, left⟩
  refine ⟨after, stacking.keep left.open_ left.names left.start left.latest_le ?_⟩
  intro q t v place holds
  refine left.holds (fun touched => ?_) holds
  rcases spares q touched with ⟨other, outside⟩
  exact absurd place (not_or.mpr ⟨other, outside⟩)

/--
What is done to the stack is noted at the time when it is done.  Until then the
stack is what it was, and from then on it is what it has become.
-/
theorem extend
    {entries : List Entry}
    {act : Act}
    (stacking : Stacking s ledger stack acts)
    (noted : Noted s ledger entries reached after)
    (once : ∀ entry ∈ entries, entry.time = act.time)
    (some_ : entries ≠ [])
    (busy : act.idle = false)
    (told : Told (acts ++ [act]))
    (becomes : ∀ t, act.time ≤ t → ledger.ongoing.start ≤ t →
      Spread (fun q v => ledger.Holds q t v) s.subject.names stack (stackOf acts) →
        Spread (fun q v => after.Holds q t v) reached.subject.names stack
          (act.apply (stackOf acts))) :
    Stacking reached after stack (acts ++ [act]) := by
  rcases List.exists_mem_of_ne_nil entries some_ with ⟨entry, member⟩
  have times := noted.notes.times entry member
  rw [once entry member] at times
  refine ⟨noted.open_, told, ?_, ?_⟩
  · rw [effective_concat_of_busy busy]
    intro other listed
    rcases List.mem_append.mp listed with old | new
    · exact Int.le_trans (stacking.past other old) noted.notes.latest_le
    · rw [List.mem_singleton.mp new]
      exact times.2
  · intro t begun
    rw [noted.notes.start] at begun
    have spread := stacking.spread t begun
    rw [effective_concat_of_busy busy, stackAt_concat]
    split
    · rename_i done
      have late := stacking.stackAt_of_late (Int.le_trans times.1 done)
      rw [late] at spread ⊢
      exact becomes t done begun spread
    · rename_i early
      refine spread.frame noted.names (stacking.fresh begun) fun q v _ holds => ?_
      have held := noted.notes.holds holds
      rwa [overridden_of_apart] at held
      intro other listed _
      rw [once other listed]
      exact Int.not_le.mp early

/-- A push puts its value on the stack. -/
theorem push
    {t : Int}
    {value : Value}
    (stacking : Stacking s ledger stack acts)
    (done : History.push t value stack s = .ok () reached) :
    ∃ after, Stacking reached after stack (acts ++ [.push t value]) := by
  rcases stacking.open_.note_push done with ⟨height, element, after, read, room, child, noted⟩
  obtain rfl := stacking.height_eq read
  have below := Spread.ancestor_of_child? child
  have apart := Int.ne_of_gt below.lt
  refine ⟨after, stacking.extend noted (by simp [Act.time]) (List.cons_ne_nil _ _) rfl
    (.push stacking.told t value) fun t' late begun spread => ?_⟩
  have holds : ∀ {q v}, ledger.Holds q t' v → after.Holds q t'
      (if element = q ∧ t ≤ t' then value
        else if stack = q ∧ t ≤ t' then .int (Int32.ofInt ((stackOf acts).length + 1)) else v) :=
    fun holds => noted.notes.holds holds
  refine spread.push noted.names (stacking.fresh begun) (by omega) child ?_ ?_ ?_
  · have held := holds spread.height
    rwa [if_neg fun both => apart both.1, if_pos ⟨rfl, late⟩] at held
  · rcases Ledger.Holds.exists_value stacking.open_.kept.keeps.tiled below.contains.1 begun with
      ⟨before, holdsBefore⟩
    have held := holds holdsBefore
    rwa [if_pos ⟨rfl, late⟩] at held
  · intro q v inside other holdsBefore
    have held := holds holdsBefore
    rwa [if_neg fun both => other both.1.symm,
      if_neg fun both => Int.ne_of_lt inside.lt both.1] at held

/-- A pop that finds nothing leaves everything as it is. -/
theorem pop_idle
    (stacking : Stacking s ledger stack acts)
    (empty : stackOf acts = [])
    (t : Int) :
    Stacking s ledger stack (acts ++ [.pop t none]) := by
  have told : Told (acts ++ [.pop t none]) := by
    have told := stacking.told.pop t
    rwa [empty] at told
  refine ⟨stacking.open_, told, ?_, ?_⟩
  · rw [effective_concat_of_idle rfl]
    exact stacking.past
  · rw [effective_concat_of_idle rfl]
    exact stacking.spread

/-- What the place of the uppermost element holds is the uppermost value. -/
theorem top_eq
    {more : Namespace}
    {t element : Int}
    {values : List Value}
    {value last : Value}
    (stacking : Stacking s ledger stack acts)
    (extends_ : s.subject.names.Extends more)
    (late : ledger.ongoing.latest ≤ t)
    (split : stackOf acts = values ++ [last])
    (place : more.child? stack (elementName values.length) = some element)
    (held : ledger.Holds element t value) :
    value = last := by
  have started := Int.le_trans stacking.open_.goes.current.start_le late
  have spread := stacking.spread t started
  rw [stacking.stackAt_of_late late, split] at spread
  have inside : values.length < (values ++ [last]).length := by
    rw [List.length_append]
    exact Nat.lt_succ_self _
  rcases spread.element values.length inside with ⟨q, found, holds⟩
  obtain rfl := Option.some.inj ((extends_.finds found).symm.trans place)
  rw [List.getElem_concat_length rfl] at holds
  exact held.unique stacking.open_.kept.keeps.holds.separate holds

/-- A pop that finds something takes the uppermost value from the stack. -/
theorem pop_top
    {t element : Int}
    {values : List Value}
    {value : Value}
    (stacking : Stacking s ledger stack acts)
    (split : stackOf acts = values ++ [value])
    (place : reached.subject.names.child? stack (elementName values.length) = some element)
    (noted : Noted s ledger
      (⟨t, heightOf values.length, stack⟩
        :: nulled t (reached.subject.names.descendants element ++ [element])) reached after) :
    Stacking reached after stack (acts ++ [.pop t (some value)]) := by
  have told : Told (acts ++ [.pop t (some value)]) := by
    have told := stacking.told.pop t
    rwa [split, List.getLast?_concat] at told
  refine stacking.extend noted ?_ (List.cons_ne_nil _ _) rfl told fun t' late begun spread => ?_
  · intro entry member
    rcases List.mem_cons.mp member with rfl | later
    · rfl
    · exact time_of_mem_nulled later
  have lower : Act.apply (stackOf acts) (.pop t (some value)) = values := by
    rw [split]
    exact List.dropLast_concat
  have holds : ∀ {q v}, ledger.Holds q t' v → after.Holds q t'
      (if q ∈ reached.subject.names.descendants element ++ [element] ∧ t ≤ t' then .null
        else if stack = q ∧ t ≤ t' then heightOf values.length else v) := by
    intro q v before
    rw [← overridden_nulled]
    exact noted.notes.holds before
  have below := Spread.ancestor_of_child? place
  rw [lower]
  rw [split] at spread
  refine spread.pop noted.names (stacking.fresh begun) place ?_ ?_ ?_
  · have outside : ¬ (stack = element ∨ reached.subject.names.Ancestor element stack) := by
      rintro (same | higher)
      · exact Int.ne_of_lt below.lt same
      · exact Int.lt_asymm below.lt higher.lt
    have held := holds spread.height
    rwa [if_neg fun both => outside (Namespace.mem_descendants_concat.mp both.1),
      if_pos ⟨rfl, late⟩] at held
  · intro q removed
    have nonneg : 0 ≤ q := by
      rcases removed with rfl | inner
      · exact below.contains.1
      · exact inner.contains.1
    rcases Ledger.Holds.exists_value stacking.open_.kept.keeps.tiled nonneg begun with
      ⟨before, holdsBefore⟩
    have held := holds holdsBefore
    rwa [if_pos ⟨Namespace.mem_descendants_concat.mpr removed, late⟩] at held
  · intro q v inside other before
    have held := holds before
    rwa [if_neg fun both => other (Namespace.mem_descendants_concat.mp both.1),
      if_neg fun both => Int.ne_of_lt inside.lt both.1] at held

/-- A pop takes the uppermost value from the stack, or finds that there is none. -/
theorem pop
    {t : Int}
    {found : Option Value}
    (stacking : Stacking s ledger stack acts)
    (done : History.pop t stack s = .ok found reached) :
    ∃ after, Stacking reached after stack (acts ++ [.pop t found]) := by
  rcases stacking.open_.note_pop done with
    ⟨height, read, ⟨empty, rfl, rfl⟩ | ⟨filled, element, value, after, rfl, held, child, noted⟩⟩
  · obtain rfl := stacking.height_eq read
    exact ⟨ledger, stacking.pop_idle (List.length_eq_zero_iff.mp (by omega)) t⟩
  · obtain rfl := stacking.height_eq read
    rcases List.eq_nil_or_concat' (stackOf acts) with none_ | ⟨values, last, split⟩
    · rw [none_] at filled
      exact absurd filled (Int.lt_irrefl 0)
    have length : ((stackOf acts).length : Int) = values.length + 1 := by
      rw [split, List.length_append]
      rfl
    rw [length] at child noted
    rw [heightOf_lowered] at noted
    have late := (noted.notes.times _ List.mem_cons_self).1
    obtain rfl := stacking.top_eq noted.names late split child held
    exact ⟨after, stacking.pop_top split child noted⟩

/-- A change that fails leaves the stack as it is, unless it is the removal of the root. -/
theorem keep_of_failed
    {change : Change}
    {fault : Fault}
    (stacking : Stacking s ledger stack acts)
    (placed : ¬ change.Uproots)
    (failed : change.step s = .error fault reached) :
    ∃ after, Stacking reached after stack acts := by
  rw [← change.run_script] at failed
  have grown := Change.harmless stacking.open_ placed fault reached failed
  rcases stacking.open_.note change.script with ⟨_, noted⟩
  have names := noted.names
  rw [Step.reached_of_error failed] at names
  exact ⟨_, stacking.keep grown.open_ names rfl (Int.le_refl _) fun q t v _ holds => holds.grow _⟩

/-- A call that is about something else does nothing to the stack. -/
theorem acts_of_not_onStack
    {call : Call}
    (elsewhere : ¬ call.OnStack stack)
    (s : Placed History) :
    call.acts stack s = [] := by
  rcases call with change | _ | _ | _ | _
  · cases change with
    | push t value quark => exact if_neg elsewhere
    | pop t quark => exact if_neg elsewhere
    | _ => rfl
  all_goals rfl

/-- Whatever a push comes to, the stack is what the acts have come to. -/
theorem call_push
    (stacking : Stacking s ledger stack acts)
    (t : Int)
    (value : Value) :
    ∃ after, Stacking ((Change.push t value stack).step.reached s) after stack
      (acts ++ (Call.make (.push t value stack)).acts stack s) := by
  cases ends : History.push t value stack s with
  | ok done reached =>
      have steps : (Change.push t value stack).step s = .ok .done reached := Step.bind_of_ok ends
      rw [Call.acts_of_pushed ends, Step.reached_of_ok steps]
      exact stacking.push ends
  | error fault reached =>
      have steps : (Change.push t value stack).step s = .error fault reached :=
        Step.bind_of_error ends
      have placed : ¬ (Change.push t value stack).Uproots := not_false
      rw [Call.acts_of_push_failed ends, Step.reached_of_error steps, List.append_nil]
      exact stacking.keep_of_failed placed steps

/-- And whatever a pop comes to. -/
theorem call_pop
    (stacking : Stacking s ledger stack acts)
    (t : Int) :
    ∃ after, Stacking ((Change.pop t stack).step.reached s) after stack
      (acts ++ (Call.make (.pop t stack)).acts stack s) := by
  cases ends : History.pop t stack s with
  | ok found reached =>
      have steps : (Change.pop t stack).step s = .ok (.popped found) reached :=
        Step.bind_of_ok ends
      rw [Call.acts_of_popped ends, Step.reached_of_ok steps]
      exact stacking.pop ends
  | error fault reached =>
      have steps : (Change.pop t stack).step s = .error fault reached := Step.bind_of_error ends
      have placed : ¬ (Change.pop t stack).Uproots := not_false
      rw [Call.acts_of_pop_failed ends, Step.reached_of_error steps, List.append_nil]
      exact stacking.keep_of_failed placed steps

theorem call_of_onStack
    {call : Call}
    (stacking : Stacking s ledger stack acts)
    (onStack : call.OnStack stack) :
    ∃ after, Stacking (call.step.reached s) after stack (acts ++ call.acts stack s) := by
  rcases call with change | _ | _ | _ | _
  · rw [Call.reached_make]
    cases change with
    | push t value quark =>
        obtain rfl : quark = stack := onStack
        exact stacking.call_push t value
    | pop t quark =>
        obtain rfl : quark = stack := onStack
        exact stacking.call_pop t
    | _ => exact onStack.elim
  all_goals exact onStack.elim

/-- Whatever a call comes to that leaves the writer in place, the stack is what it should be. -/
theorem call
    {call : Call}
    (stacking : Stacking s ledger stack acts)
    (stays : ¬ call.Ends)
    (inRange : s.subject.InRange)
    (undisturbed : call.OnStack stack ∨ call.Spares stack s) :
    ∃ after, Stacking (call.step.reached s) after stack (acts ++ call.acts stack s) := by
  by_cases onStack : call.OnStack stack
  · exact stacking.call_of_onStack onStack
  · have spares := undisturbed.resolve_left onStack
    rw [acts_of_not_onStack onStack s, List.append_nil]
    exact stacking.keep_of_spares stays inRange spares

end Stacking

/-! ## Runs -/

/-- What calls one after the other do to the stack on an attribute. -/
def actsOf
    (stack : Int) :
    List Call →
    Placed History →
    List Act
  | [], _ => []
  | call :: calls, s => call.acts stack s ++ actsOf stack calls (call.step.reached s)

/-- Calls of which each is to push to a stack or to pop from it, or touches nothing of it. -/
def Undisturbed
    (stack : Int) :
    List Call →
    Placed History →
    Prop
  | [], _ => True
  | call :: calls, s =>
    (call.OnStack stack ∨ call.Spares stack s) ∧ Undisturbed stack calls (call.step.reached s)

instance
    (stack : Int) :
    DecidablePred (Call.OnStack stack)
  | .make (.push _ _ quark) => Int.decEq quark stack
  | .make (.pop _ quark) => Int.decEq quark stack
  | .make (.intern _ _) => instDecidableFalse
  | .make (.set _ _ _) => instDecidableFalse
  | .make (.increment _ _) => instDecidableFalse
  | .make (.remove _ _) => instDecidableFalse
  | .overwrite _ _ => instDecidableFalse
  | .close _ => instDecidableFalse
  | .abandon => instDecidableFalse
  | .ask _ => instDecidableFalse

instance decidableUndisturbed
    (stack : Int) :
    (calls : List Call) →
    (s : Placed History) →
    Decidable (Undisturbed stack calls s)
  | [], _ => instDecidableTrue
  | call :: calls, s =>
    have : Decidable (Undisturbed stack calls (call.step.reached s)) :=
      decidableUndisturbed stack calls _
    inferInstanceAs (Decidable ((call.OnStack stack
      ∨ ∀ quark ∈ call.touched s,
        quark ≠ stack ∧ ¬ (call.step.reached s).subject.names.Ancestor stack quark)
      ∧ Undisturbed stack calls (call.step.reached s)))

/-- As long as its writer stays and nothing else touches it, a stack is what was made of it. -/
theorem Stacking.run
    {s : Placed History}
    {ledger : Ledger}
    {stack : Int}
    {acts : List Act}
    {calls : List Call}
    (stacking : Stacking s ledger stack acts)
    (stays : ∀ call ∈ calls, ¬ call.Ends)
    (inRange : ∀ before, before <+: calls →
      ((Step.each Call.step before).reached s).subject.InRange)
    (undisturbed : Undisturbed stack calls s) :
    ∃ after, Stacking ((Step.each Call.step calls).reached s) after stack
      (acts ++ actsOf stack calls s) := by
  induction calls generalizing s ledger acts with
  | nil =>
      rw [actsOf, List.append_nil]
      exact ⟨ledger, stacking⟩
  | cons call calls ih =>
      rcases Step.prefixes_cons (fun r : Placed History => r.subject.InRange) inRange with
        ⟨now, later⟩
      rcases stacking.call (stays call List.mem_cons_self) now undisturbed.1 with ⟨between, first⟩
      rw [Step.reached_each_cons, actsOf, ← List.append_assoc]
      exact ih first (fun other member => stays other (List.mem_cons_of_mem _ member)) later
        undisturbed.2

/-- In a new history every attribute is an empty stack. -/
theorem Stacking.of_create
    {s : Placed History}
    {start stack : Int}
    (open_ : Open s (.empty start))
    (bare : s.subject.names = .empty)
    (nonneg : 0 ≤ stack) :
    Stacking s (.empty start) stack [] where
  open_ := open_
  told := .nil
  past _ member := by cases member
  spread t begun := by
    have unknown : ∀ q, ¬ s.subject.names.Contains q := by
      intro q known
      rw [bare] at known
      exact absurd known.2 (Int.not_lt.mpr known.1)
    exact Spread.of_rest (Nat.zero_le _) (.unborn nonneg begun) (fun _ inside => by cases inside)
      fun q below => absurd below.contains (unknown q)

/-! ## What is answered -/

/-- Whether a query about an attribute at `t` is answered with a value. -/
def Answers
    (s : Placed History)
    (t quark : Int)
    (value : Value) :
    Prop :=
  ∃ i reached, intervalAt t quark s = .ok i reached ∧ i.value = value

/-- What a history tells about a stack, at every instant. -/
structure Stacked
    (s : Placed History)
    (stack : Int)
    (acts : List Act) : Prop where
  /-- Each pop came to what was pushed last and not popped yet. -/
  told : Told acts
  /-- At `t` the stack is what the acts up to `t` come to that did something. -/
  spread : ∀ t, s.subject.start ≤ t → t ≤ s.subject.currentEnd →
    Spread (Answers s t) s.subject.names stack (stackAt (effective acts) t)
  /-- If no pop came too early, it is what all acts up to `t` come to. -/
  timely : Timely acts → ∀ t, s.subject.start ≤ t → t ≤ s.subject.currentEnd →
    Spread (Answers s t) s.subject.names stack (stackAt acts t)

namespace Stacked

variable {s : Placed History} {ledger : Ledger} {stack : Int} {acts : List Act}

/-- A history tells what its ledger holds. -/
theorem of_kept
    (kept : Kept s ledger)
    (inRange : s.subject.InRange)
    (known : s.subject.names.Contains stack)
    (told : Told acts)
    (spread : ∀ t, ledger.ongoing.start ≤ t → t ≤ s.subject.currentEnd →
      Spread (fun q v => ledger.Holds q t v) s.subject.names stack (stackAt (effective acts) t)) :
    Stacked s stack acts := by
  have start : s.subject.start = ledger.ongoing.start := kept.keeps.start
  have answered : ∀ t, s.subject.start ≤ t → t ≤ s.subject.currentEnd →
      Spread (Answers s t) s.subject.names stack (stackAt (effective acts) t) := by
    intro t begun until_
    refine (spread t (start ▸ begun) until_).frame (.refl _)
      (fun q below unknown => absurd below.contains unknown) fun q v place holds => ?_
    have inside : s.subject.names.Contains q := by
      rcases place with rfl | below
      · exact known
      · exact below.contains
    exact kept.intervalAt_of_holds inRange inside begun until_ holds
  refine ⟨told, answered, fun timely t begun until_ => ?_⟩
  rw [← told.stackAt_effective timely]
  exact answered t begun until_

/-- A history that is closed tells of its stacks what it told before, however often it is asked. -/
theorem of_close
    {stop : Int}
    {closed : Placed History}
    (stacking : Stacking s ledger stack acts)
    (known : s.subject.names.Contains stack)
    (closes : History.close stop s = .ok () closed)
    (inRange : closed.subject.InRange)
    (questions : List Question) :
    Stacked ((Step.each Question.step questions).reached closed) stack acts := by
  rcases stacking.open_.close_eq_ok closes with ⟨onTime, kept, outline, -⟩
  rcases kept.tells inRange questions with ⟨reached, tells, asked⟩
  have same := asked.outline.trans outline
  have names : reached.subject.names = s.subject.names := congrArg Outline.names same
  have ending : reached.subject.currentEnd = stop := congrArg Outline.currentEnd same
  rw [Step.reached_of_ok tells]
  refine of_kept (asked.kept kept) (asked.inRange inRange) (names ▸ known) stacking.told ?_
  intro t begun until_
  have started : ledger.ongoing.start ≤ t := by
    have start : (ledger.close stop).ongoing.start = ledger.ongoing.start := by
      rw [Ledger.ongoing_close stacking.open_.goes.current onTime]
    exact start ▸ begun
  rw [ending] at until_
  exact (stacking.spread t started).frame (names ▸ .refl _) (stacking.fresh started)
    fun q v _ holds => holds.close until_

end Stacked

/--
An attribute of a new history that is only pushed to and popped from is a
stack, whatever else is done meanwhile: each pop comes to what was pushed last
and not popped yet, and at every instant the history tells the stack that the
acts up to then come to.  Pops that found nothing do not count, unless none of
them came earlier than what was done before.  Closing the history leaves it so.
-/
theorem stacked_of_created
    {id : String}
    {start stack : Int}
    {plan : Backend.Plan}
    {volume made : Volume}
    {history : History}
    {calls : List Call}
    (sound : volume.Sound)
    (created : create id start plan volume = .ok (made, history))
    (stays : ∀ call ∈ calls, ¬ call.Ends)
    (inRange : ∀ before, before <+: calls →
      ((Step.each Call.step before).reached ⟨made, history⟩).subject.InRange)
    (undisturbed : Undisturbed stack calls ⟨made, history⟩)
    (known : ((Step.each Call.step calls).reached ⟨made, history⟩).subject.names.Contains stack) :
    Stacked ((Step.each Call.step calls).reached ⟨made, history⟩) stack
        (actsOf stack calls ⟨made, history⟩)
      ∧ ∀ stop closed,
        History.close stop ((Step.each Call.step calls).reached ⟨made, history⟩) = .ok () closed →
          closed.subject.InRange → ∀ questions,
            Stacked ((Step.each Question.step questions).reached closed) stack
              (actsOf stack calls ⟨made, history⟩) := by
  rcases open_of_create sound created with ⟨open_, outline, -⟩
  have bare : history.names = .empty := congrArg Outline.names outline
  rcases (Stacking.of_create open_ bare known.1).run stays inRange undisturbed with
    ⟨after, stacking⟩
  rw [List.nil_append] at stacking
  refine ⟨?_, fun stop closed closes closedRange questions =>
    .of_close stacking known closes closedRange questions⟩
  exact .of_kept stacking.open_.kept (inRange calls (List.prefix_refl calls)) known stacking.told
    fun t begun _ => stacking.spread t begun

/--
Calls that push to `a` and pop from it, more than once at a time and a null
among the values.  Meanwhile `b` is set, counted and removed, a name is entered
below `a`, and questions are asked.
-/
def pilings : List Call :=
  [.make (.intern (-1) ["a"]), .make (.intern (-1) ["b"]),
    .make (.push 1 (.int 7) 0), .make (.set 1 (.int 3) 1),
    .make (.push 2 .null 0), .make (.push 2 (.int 9) 0),
    .make (.intern 0 ["3", "x"]), .ask (.interval 2 0),
    .make (.pop 3 0), .make (.increment 3 1), .make (.pop 3 0), .make (.push 4 (.int 8) 0),
    .overwrite (.int 5) 1, .make (.remove 5 1),
    .make (.pop 6 0), .make (.pop 6 0), .make (.pop 6 0)]

/-- What they do to the stack. -/
def pilingActs : List Act :=
  [.push 1 (.int 7), .push 2 .null, .push 2 (.int 9), .pop 3 (some (.int 9)), .pop 3 (some .null),
    .push 4 (.int 8), .pop 6 (some (.int 8)), .pop 6 (some (.int 7)), .pop 6 none]

theorem inRange_pilings :
    ∃ made history,
      create "cramped" 0 (.file "cramped" cramping) .empty = .ok (made, history)
        ∧ (∀ before ∈ pilings.inits,
          ((Step.each Call.step before).reached ⟨made, history⟩).subject.InRange)
        ∧ actsOf 0 pilings ⟨made, history⟩ = pilingActs
        ∧ Undisturbed 0 pilings ⟨made, history⟩
        ∧ ((Step.each Call.step pilings).reached ⟨made, history⟩).subject.names.Contains 0
        ∧ (match History.close 9 ((Step.each Call.step pilings).reached ⟨made, history⟩) with
          | .ok _ closed => decide closed.subject.InRange
          | .error _ _ => false) = true :=
  ⟨_, _, rfl, by decide +kernel, by decide +kernel, by decide +kernel, by decide +kernel,
    by decide +kernel⟩

theorem stacked_pilings :
    ∃ made history closed,
      create "cramped" 0 (.file "cramped" cramping) .empty = .ok (made, history)
        ∧ Stacked ((Step.each Call.step pilings).reached ⟨made, history⟩) 0 pilingActs
        ∧ History.close 9 ((Step.each Call.step pilings).reached ⟨made, history⟩) = .ok () closed
        ∧ Stacked closed 0 pilingActs
        ∧ stackAt pilingActs 2 = [.int 7, .null, .int 9] := by
  rcases inRange_pilings with ⟨made, history, created, inRange, tells, undisturbed, known, ends⟩
  have stays : ∀ call ∈ pilings, ¬ call.Ends := by decide
  rcases stacked_of_created (by decide) created stays
    (fun before begins => inRange before ((List.mem_inits before pilings).mpr begins)) undisturbed
    known with ⟨open_, closed_⟩
  rw [tells] at open_ closed_
  cases closes : History.close 9 ((Step.each Call.step pilings).reached ⟨made, history⟩) with
  | error fault closed =>
      rw [closes] at ends
      cases ends
  | ok a closed =>
      rw [closes] at ends
      exact ⟨made, history, closed, created, open_, closes,
        closed_ 9 closed closes (of_decide_eq_true ends) [], by decide⟩

/-- A pop that finds nothing succeeds in the past, where the stack was not empty. -/
def hindsight : List Call :=
  [.make (.intern (-1) ["a"]), .make (.push 0 (.int 7) 0), .make (.pop 5 0), .make (.pop 2 0)]

/-- The stack of that time is told as if the pop had not been made. -/
theorem not_stackAt_in_hindsight :
    ∃ made history,
      create "hindsight" 0 .memory .empty = .ok (made, history)
        ∧ Undisturbed 0 hindsight ⟨made, history⟩
        ∧ actsOf 0 hindsight ⟨made, history⟩
          = [.push 0 (.int 7), .pop 5 (some (.int 7)), .pop 2 none]
        ∧ stackAt (actsOf 0 hindsight ⟨made, history⟩) 2 = []
        ∧ Answers ((Step.each Call.step hindsight).reached ⟨made, history⟩) 2 0 (.int 1)
        ∧ ¬ Spread (Answers ((Step.each Call.step hindsight).reached ⟨made, history⟩) 2)
          ((Step.each Call.step hindsight).reached ⟨made, history⟩).subject.names 0
          (stackAt (actsOf 0 hindsight ⟨made, history⟩) 2) := by
  obtain ⟨made, history, created, undisturbed, told, empty, answers⟩ : ∃ made history,
      create "hindsight" 0 .memory .empty = .ok (made, history)
        ∧ Undisturbed 0 hindsight ⟨made, history⟩
        ∧ actsOf 0 hindsight ⟨made, history⟩
          = [.push 0 (.int 7), .pop 5 (some (.int 7)), .pop 2 none]
        ∧ stackAt (actsOf 0 hindsight ⟨made, history⟩) 2 = []
        ∧ (match intervalAt 2 0 ((Step.each Call.step hindsight).reached ⟨made, history⟩) with
          | .ok i _ => decide (i.value = .int 1)
          | .error _ _ => false) = true :=
    ⟨_, _, rfl, by decide +kernel, by decide +kernel, by decide +kernel, by decide +kernel⟩
  cases asks : intervalAt 2 0 ((Step.each Call.step hindsight).reached ⟨made, history⟩) with
  | error fault last =>
      rw [asks] at answers
      cases answers
  | ok i last =>
      rw [asks] at answers
      have one : i.value = .int 1 := of_decide_eq_true answers
      refine ⟨made, history, created, undisturbed, told, empty, ⟨i, last, asks, one⟩, ?_⟩
      intro spread
      rw [empty] at spread
      rcases spread.height with ⟨j, reached, asksToo, null⟩
      cases asks.symm.trans asksToo
      cases one.symm.trans null

end Chronicle.History
