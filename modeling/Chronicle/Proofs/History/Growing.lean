import Chronicle.Proofs.History.Following

/-!
# New attributes

New attributes have held null since the start of a history.  A history that
got some, and otherwise stayed as it was, is the same for all who ask about
the attributes that it had.
-/

namespace Chronicle

namespace Ledger

theorem grow_grow
    {ledger : Ledger}
    {first second : Nat}
    (le : first ≤ second) :
    (ledger.grow first).grow second = ledger.grow second := by
  have more : first - ledger.ongoing.slots.size
      + (second - (ledger.ongoing.slots.size + (first - ledger.ongoing.slots.size)))
      = second - ledger.ongoing.slots.size := by omega
  unfold grow Ongoing.grow
  simp only [Array.size_append, Array.size_replicate, Array.append_assoc,
    Array.replicate_append_replicate, more]

/-- New attributes make no difference to what is answered about the others. -/
theorem intervalAt_grow
    {ledger : Ledger}
    {quark : Int}
    {slot : Recording.Slot}
    (found : ledger.ongoing.slot quark = .ok slot)
    (count : Nat)
    (ending t : Int) :
    (ledger.grow count).intervalAt ending t quark = ledger.intervalAt ending t quark := by
  have still : (ledger.grow count).ongoing.slot quark = .ok slot := Ongoing.slot_grow found count
  unfold intervalAt
  rw [still, found]
  rfl

end Ledger

namespace History

variable {s after : Placed History} {ledger : Ledger}

/-- A history that got new names and nothing else. -/
structure Grown
    (s after : Placed History)
    (ledger : Ledger) : Prop where
  open_ : Open after (ledger.grow after.subject.names.size)
  outline : after.subject.outline = { s.subject.outline with names := after.subject.names }

namespace Grown

theorem refl
    (open_ : Open s ledger) :
    Grown s s ledger where
  open_ := by
    rw [Ledger.grow_of_le (Nat.le_of_eq open_.named)]
    exact open_
  outline := rfl

theorem trans
    {last : Placed History}
    (one : Grown s after ledger)
    (two : Grown after last (ledger.grow after.subject.names.size)) :
    Grown s last ledger where
  open_ := by
    have le : after.subject.names.size ≤ last.subject.names.size := by
      have named := two.open_.named
      rw [Ledger.size_grow, Ledger.size_grow] at named
      omega
    rw [← Ledger.grow_grow le]
    exact two.open_
  outline := by
    rw [two.outline, one.outline]

end Grown

/--
After a history was changed or not, it is the same for all who ask about the
attributes that it had; and attributes that it did not have hold null.
-/
structure Unchanged (s after : Placed History) : Prop where
  latest : after.subject.latest = s.subject.latest
  currentEnd : after.subject.currentEnd = s.subject.currentEnd
  ongoing : ∀ quark, s.subject.names.Contains quark →
    after.subject.ongoingValue quark = s.subject.ongoingValue quark
  answers : ∀ t quark, s.subject.names.Contains quark → ∃ told reached last,
    intervalAt t quark s = Step.ofExcept told reached
      ∧ intervalAt t quark after = Step.ofExcept told last
  fresh : ∀ quark, after.subject.names.Contains quark → ¬ s.subject.names.Contains quark →
    after.subject.ongoingValue quark = .ok .null
      ∧ ∀ t, after.subject.start ≤ t → t ≤ after.subject.currentEnd → ∃ i reached,
        intervalAt t quark after = .ok i reached ∧ i.value = .null

/-- New names make no difference to those who ask. -/
theorem Grown.unchanged
    (grown : Grown s after ledger)
    (open_ : Open s ledger)
    (inRange : s.subject.InRange)
    (inRangeAfter : after.subject.InRange) :
    Unchanged s after := by
  have kept := open_.kept
  have keptAfter := grown.open_.kept
  have ongoing : s.subject.recording.ongoing = ledger.ongoing := kept.keeps.ongoing
  have ongoingAfter : after.subject.recording.ongoing
      = ledger.ongoing.grow after.subject.names.size := keptAfter.keeps.ongoing
  have start : after.subject.start = s.subject.start :=
    keptAfter.keeps.start.trans kept.keeps.start.symm
  have ending : after.subject.currentEnd = s.subject.currentEnd :=
    congrArg Outline.currentEnd grown.outline
  constructor
  · unfold latest
    rw [ongoing, ongoingAfter]
    rfl
  · exact ending
  · intro quark known
    rcases kept.exists_slot known with ⟨slot, found⟩
    have still : (ledger.ongoing.grow after.subject.names.size).slot quark = .ok slot :=
      Ongoing.slot_grow found _
    unfold ongoingValue
    rw [keptAfter.checkUsable, kept.checkUsable, ongoing, ongoingAfter, still, found]
  · intro t quark known
    rcases kept.exists_slot known with ⟨slot, found⟩
    rcases kept.intervalAt inRange t quark with ⟨reached, asks, -⟩
    rcases keptAfter.intervalAt inRangeAfter t quark with ⟨last, asksAfter, -⟩
    refine ⟨_, reached, last, asks, ?_⟩
    rw [asksAfter, ending, Ledger.intervalAt_grow found]
    unfold checkTime
    rw [start, ending]
  · rintro quark ⟨nonneg, inside⟩ unknown
    have new : ledger.ongoing.slots.size ≤ quark.toNat := by
      have named := open_.named
      unfold Namespace.Contains at unknown
      omega
    have found : (ledger.grow after.subject.names.size).ongoing.slot quark
        = .ok ⟨.null, ledger.ongoing.start⟩ :=
      Ongoing.slot_eq_ok_iff.mpr ⟨nonneg, Ongoing.getElem?_grow_of_le new (by omega)⟩
    constructor
    · unfold ongoingValue
      rw [keptAfter.checkUsable, keptAfter.keeps.ongoing, found]
      rfl
    · intro t begun until_
      have now : ledger.ongoing.start ≤ t := by
        rw [← show after.subject.start = ledger.ongoing.start from keptAfter.keeps.start]
        exact begun
      rcases keptAfter.intervalAt_of_told inRangeAfter ⟨begun, until_⟩
        (Ledger.intervalAt_of_now found now) with ⟨reached, asks, -⟩
      exact ⟨_, reached, asks, rfl⟩

end History

end Chronicle
