import Chronicle.Proofs.Recording.Keeping

/-!
# Changes that commute

Changes of two attributes at one time can be made in either order.  What was
held ends in another order then, which is the only difference that is left,
and a change that is refused is refused for the same reason in both.
-/

namespace Chronicle

namespace Ongoing

end Ongoing

namespace Ledger

variable {ledger after : Ledger} {fits : Except Fault Unit} {t : Int} {value : Value} {quark : Int}

/-- The ledger in which an attribute was given `value` at `t`, whether it held it before or not. -/
def given
    (ledger : Ledger)
    (place : Nat)
    (slot : Recording.Slot)
    (value : Value)
    (t : Int) :
    Ledger :=
  (if slot.value = value then ledger else ledger.switch place slot value t).advance t

variable {one two : Ledger} {otherFits : Except Fault Unit} {otherValue : Value} {other : Int}

/-- The order of what ended makes no difference to what it covers. -/
theorem Tiled.perm
    {others : List Interval}
    (tiled : ledger.Tiled)
    (perm : ledger.taken.Perm others) :
    { ledger with taken := others : Ledger }.Tiled where
  start_le := tiled.start_le
  covered := by
    intro place slot found t begun early
    rcases tiled.covered found begun early with ⟨i, member, own, covers⟩
    exact ⟨i, perm.mem_iff.mp member, own, covers⟩
  before found := fun member => tiled.before found (perm.mem_iff.mpr member)
  known member := tiled.known (perm.mem_iff.mpr member)

end Ledger

/-- A recording keeps no order between what ended together. -/
theorem Recording.Goes.swap
    {s : Placed Recording}
    {ledger : Ledger}
    {others : List Interval}
    (goes : Goes s ledger)
    (swapped : Interval.Swapped ledger.taken others) :
    Goes s { ledger with taken := others } where
  takes := by
    have takes := goes.takes
    have keeps := takes.keeps
    have kept : Keeps s { ledger with taken := others } :=
      ⟨keeps.ongoing, keeps.healthy, keeps.start, keeps.holds.swap swapped, keeps.stop,
        fun i member => keeps.within i (swapped.perm.mem_iff.mpr member),
        keeps.tiled.perm swapped.perm⟩
    exact ⟨kept, takes.taking, takes.cursor, takes.last, takes.fits, takes.nullFits⟩
  current := ⟨goes.current.start_le, goes.current.since_le⟩
  last_le := goes.last_le

end Chronicle
