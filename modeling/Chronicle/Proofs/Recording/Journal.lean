import Chronicle.Proofs.Recording.Ledger

/-!
# Journals

A journal lists the values that were set, in the order in which they were.
The value that an attribute held at an instant is the one set last of those
set at no later time.  A ledger that was changed along with a journal replays
it: intervals and slots tell what the journal tells, without keeping it.
-/

namespace Chronicle

/-- A value that was set. -/
structure Entry where
  time : Int
  value : Value
  quark : Int
deriving DecidableEq

/-- What an attribute held at `t` according to a journal. -/
def heldAt
    (journal : List Entry)
    (quark t : Int) :
    Value :=
  match journal.reverse.find? fun entry => entry.quark = quark ∧ entry.time ≤ t with
  | some entry => entry.value
  | none => .null

/-- The latest entry overrides all before it from its time on. -/
theorem heldAt_concat
    (journal : List Entry)
    (entry : Entry)
    (quark t : Int) :
    heldAt (journal ++ [entry]) quark t
      = if entry.quark = quark ∧ entry.time ≤ t then entry.value else heldAt journal quark t := by
  unfold heldAt
  rw [List.reverse_append, List.reverse_singleton, List.singleton_append, List.find?_cons]
  by_cases overrides : entry.quark = quark ∧ entry.time ≤ t
  · simp only [overrides, and_self, decide_true, if_true]
  · simp only [overrides, decide_false, if_false]

theorem heldAt_of_unknown
    {journal : List Entry}
    {quark : Int}
    (unknown : ∀ entry ∈ journal, entry.quark ≠ quark)
    (t : Int) :
    heldAt journal quark t = .null := by
  unfold heldAt
  have none : (journal.reverse.find? fun entry => entry.quark = quark ∧ entry.time ≤ t)
      = Option.none := by
    rw [List.find?_eq_none]
    intro entry member test
    exact unknown entry (List.mem_reverse.mp member) (of_decide_eq_true test).1
  rw [none]

namespace Ledger

/-- A ledger that tells what a journal tells, about the present as far as `horizon`. -/
structure Replays
    (ledger : Ledger)
    (journal : List Entry)
    (horizon : Int) : Prop where
  known : ∀ entry ∈ journal, 0 ≤ entry.quark ∧ entry.quark < ledger.ongoing.slots.size
  past : ∀ i ∈ ledger.taken, ∀ {t}, i.Covers t → i.value = heldAt journal i.quark t
  now : ∀ {quark slot}, ledger.slot? quark = some slot → ∀ {t}, slot.since ≤ t → t ≤ horizon →
    slot.value = heldAt journal quark t

theorem replays_empty
    (start horizon : Int) :
    (empty start).Replays [] horizon where
  known entry member := by cases member
  past i member := by cases member
  now found := by cases found

namespace Replays

variable {ledger : Ledger} {journal : List Entry} {horizon : Int}

theorem mono
    {earlier : Int}
    (replays : ledger.Replays journal horizon)
    (le : earlier ≤ horizon) :
    ledger.Replays journal earlier where
  known := replays.known
  past := replays.past
  now found _ since until_ := replays.now found since (Int.le_trans until_ le)

/-- What ends by the horizon ends with the value that the journal tells. -/
theorem past_switch
    {quark : Nat}
    {slot : Recording.Slot}
    {t : Int}
    (replays : ledger.Replays journal horizon)
    (known : ledger.slot? quark = some slot)
    (value : Value)
    (inTime : t - 1 ≤ horizon) :
    ∀ i ∈ (ledger.switch quark slot value t).taken, ∀ {t'}, i.Covers t' →
      i.value = heldAt journal i.quark t' := by
  intro i member t' covers
  rcases List.mem_append.mp member with old | new
  · exact replays.past i old covers
  · rcases Recording.Slot.mem_past.mp new with ⟨-, start, stop, sameQuark, sameValue⟩
    rcases covers with ⟨since, until_⟩
    rw [sameQuark, sameValue]
    exact replays.now known (start ▸ since) (by omega)

/--
A ledger replays one more entry if the past of its attribute ended before it,
and what the attribute holds from its time on is the value of it.
-/
theorem concat
    {place : Nat}
    {t : Int}
    {value : Value}
    (known : ∀ entry ∈ journal, 0 ≤ entry.quark ∧ entry.quark < ledger.ongoing.slots.size)
    (inside : place < ledger.ongoing.slots.size)
    (past : ∀ i ∈ ledger.taken, ∀ {t'}, i.Covers t' → i.value = heldAt journal i.quark t')
    (before : ∀ i ∈ ledger.taken, i.quark = place → i.stop < t)
    (now : ∀ {other slot}, ledger.slot? other = some slot → ∀ {t'}, slot.since ≤ t' →
      t' ≤ horizon →
        slot.value = if place = other ∧ t ≤ t' then value else heldAt journal other t') :
    ledger.Replays (journal ++ [⟨t, value, place⟩]) horizon := by
  constructor
  · intro entry member
    rcases List.mem_append.mp member with old | new
    · exact known entry old
    · rw [List.mem_singleton.mp new]
      exact ⟨Int.natCast_nonneg _, Int.ofNat_lt.mpr inside⟩
  · intro i member t' covers
    have kept : ¬ ((place : Int) = i.quark ∧ t ≤ t') := by
      rintro ⟨same, late⟩
      have ends := before i member same.symm
      have until_ := covers.2
      omega
    rw [heldAt_concat, if_neg kept]
    exact past i member covers
  · intro other slot found t' since until_
    rw [heldAt_concat]
    simp only [Int.natCast_inj]
    exact now found since until_

/-- A value that an attribute holds already is noted without a change of the ledger. -/
theorem again
    {place : Nat}
    {slot : Recording.Slot}
    {t : Int}
    (replays : ledger.Replays journal horizon)
    (tiled : ledger.Tiled)
    (known : ledger.slot? place = some slot)
    (begun : slot.since ≤ t) :
    ledger.Replays (journal ++ [⟨t, slot.value, place⟩]) horizon := by
  apply concat replays.known (Array.getElem?_eq_some_iff.mp known).1 replays.past
  · intro i member same
    exact Int.lt_of_lt_of_le (tiled.before known member same).2 begun
  · intro other otherSlot found t' since until_
    split
    · rename_i both
      rw [← both.1, known] at found
      cases found
      rfl
    · exact replays.now found since until_

/-- Another value is noted, and what was held until then ends. -/
theorem switch
    {place : Nat}
    {slot : Recording.Slot}
    {t : Int}
    (replays : ∀ horizon, ledger.Replays journal horizon)
    (tiled : ledger.Tiled)
    (known : ledger.slot? place = some slot)
    (begun : slot.since ≤ t)
    (value : Value) :
    (ledger.switch place slot value t).Replays (journal ++ [⟨t, value, place⟩]) horizon := by
  have size : (ledger.switch place slot value t).ongoing.slots.size
      = ledger.ongoing.slots.size := Ongoing.size_setSlot _ _ _
  have found : (ledger.switch place slot value t).slot? place = some ⟨value, t⟩ := by
    rw [slot?_switch known, if_pos rfl]
  apply concat
  · rw [size]
    exact (replays horizon).known
  · exact (Array.getElem?_eq_some_iff.mp found).1
  · exact (replays (t - 1)).past_switch known value (Int.le_refl _)
  · intro i member same
    exact ((tiled.switch known begun value).before found member same).2
  · intro other otherSlot found t' since until_
    rw [slot?_switch known] at found
    split at found
    · rename_i same
      cases found
      rw [if_pos ⟨same, since⟩]
    · rename_i different
      rw [if_neg fun both => different both.1]
      exact (replays horizon).now found since until_

theorem advance
    (replays : ledger.Replays journal horizon)
    (t : Int) :
    (ledger.advance t).Replays journal horizon :=
  ⟨replays.known, replays.past, replays.now⟩

/-- Setting a value is noted in the journal and in the ledger. -/
theorem change
    {after : Ledger}
    {fits : Except Fault Unit}
    {t : Int}
    {value : Value}
    {quark : Int}
    (replays : ∀ horizon, ledger.Replays journal horizon)
    (tiled : ledger.Tiled)
    (current : ledger.Current)
    (changed : ledger.change fits t value quark = .ok after) :
    ∀ horizon, after.Replays (journal ++ [⟨t, value, quark⟩]) horizon := by
  intro horizon
  rcases change_eq_ok changed with ⟨place, slot, rfl, known, onTime, rest⟩
  have begun : slot.since ≤ t := Int.le_trans (current.since_le known) onTime
  rcases rest with ⟨rfl, rfl⟩ | ⟨-, -, rfl⟩
  · exact ((replays horizon).again tiled known begun).advance t
  · exact (switch replays tiled known begun value).advance t

/-- About new attributes a journal tells nothing. -/
theorem grow
    (replays : ledger.Replays journal horizon)
    (count : Nat) :
    (ledger.grow count).Replays journal horizon where
  known := by
    intro entry member
    have known := replays.known entry member
    have size : (ledger.grow count).ongoing.slots.size = max ledger.ongoing.slots.size count :=
      Ongoing.size_grow _ _
    omega
  past := replays.past
  now := by
    intro quark slot found t since until_
    rcases Ongoing.getElem?_grow found with old | ⟨new, rfl⟩
    · exact replays.now old since until_
    · have unknown : ∀ entry ∈ journal, entry.quark ≠ (quark : Int) := by
        intro entry member same
        have known := replays.known entry member
        omega
      exact (heldAt_of_unknown unknown t).symm

theorem closeSlot
    (replays : ledger.Replays journal horizon)
    (quark : Nat) :
    (ledger.closeSlot horizon quark).Replays journal horizon := by
  unfold Ledger.closeSlot
  cases known : ledger.slot? quark with
  | none => exact replays
  | some slot =>
      simp only
      split
      · have size : (ledger.switch quark slot .null (horizon + 1)).ongoing.slots.size
            = ledger.ongoing.slots.size := Ongoing.size_setSlot _ _ _
        constructor
        · rw [size]
          exact replays.known
        · exact replays.past_switch known .null (by omega)
        · intro other otherSlot found t since until_
          rw [slot?_switch known] at found
          split at found
          · cases found
            have late : horizon + 1 ≤ t := since
            omega
          · exact replays.now found since until_
      · exact replays

/-- A ledger that is closed tells what the journal tells up to the closing time. -/
theorem close
    (replays : ledger.Replays journal horizon) :
    ((ledger.close horizon).finish horizon).Replays journal horizon := by
  have all : ∀ (quarks : List Nat) (ledger : Ledger), ledger.Replays journal horizon →
      (quarks.foldl (Ledger.closeSlot horizon) ledger).Replays journal horizon := by
    intro quarks
    induction quarks with
    | nil => exact fun _ replays => replays
    | cons quark rest ih => exact fun _ replays => ih _ (replays.closeSlot quark)
  have closed := all (List.range ledger.ongoing.slots.size) ledger replays
  exact ⟨closed.known, closed.past, closed.now⟩

end Replays

/-- What stays true of a ledger and a journal when attributes are entered and values are set. -/
structure Lasting (p : Ledger → List Entry → Prop) : Prop where
  grow : ∀ {ledger journal} (count : Nat), p ledger journal → p (ledger.grow count) journal
  change : ∀ {ledger after journal fits t value quark}, ledger.Tiled → ledger.Current →
    ledger.change fits t value quark = .ok after → p ledger journal →
      p after (journal ++ [⟨t, value, quark⟩])

theorem lasting_replays :
    Lasting fun ledger journal => ∀ horizon, ledger.Replays journal horizon where
  grow count replays horizon := (replays horizon).grow count
  change tiled current changed replays := Replays.change replays tiled current changed

end Ledger

end Chronicle
