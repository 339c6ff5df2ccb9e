import Chronicle.Proofs.History.Counting
import Chronicle.Proofs.History.Stacks
import Mathlib.Algebra.BigOperators.Group.List.Basic
import Mathlib.Algebra.Ring.Int.Defs

/-!
# Counting events

As long as an attribute is only counted on, it holds at every instant as many
counts as were made up to then, on top of what it was set to first.  How far it
grew over a range is therefore the number of counts that were made in it.

A count has the width of the value that it is made on.  The greatest value of a
width is followed by the least, and there all that was counted is lost.
-/

namespace Chronicle

namespace Value

/-- What is lost with the next count, beyond the greatest value of its width. -/
def lost : Value → Int
  | int n => if n = Int32.maxValue then 4294967296 else 0
  | long n => if n = Int64.maxValue then 18446744073709551616 else 0
  | _ => 0

/-- In a width of `2 * half` numbers, all but the greatest are followed by the next one. -/
theorem bmod_succ
    {half : Nat}
    {m : Int}
    (low : -(half : Int) ≤ m)
    (high : m < half) :
    (m + 1).bmod (2 * half) = m + 1 - if m + 1 = half then (2 * half : Int) else 0 := by
  split
  · rename_i greatest
    have around : (m + 1).bmod (2 * half) = (m + 1 - (2 * half : Nat)).bmod (2 * half) :=
      (Int.sub_bmod_right _ _).symm
    rw [around, Int.bmod_eq_of_le]
    all_goals push_cast
    all_goals omega
  · rename_i other
    rw [Int.bmod_eq_of_le]
    all_goals push_cast
    all_goals omega

theorem toInt_succ_int
    (n : Int32) :
    (n + 1).toInt = n.toInt + 1 - (int n).lost := by
  have high := n.toInt_le
  rw [Int32.toInt_maxValue] at high
  have greatest : n = Int32.maxValue ↔ n.toInt + 1 = (2147483648 : Nat) := by
    rw [← Int32.toInt_inj, Int32.toInt_maxValue]
    omega
  have wraps := bmod_succ (show -((2147483648 : Nat) : Int) ≤ n.toInt from n.le_toInt) (by omega)
  simp only [← greatest] at wraps
  rw [Int32.toInt_add]
  exact wraps

theorem toInt_succ_long
    (n : Int64) :
    (n + 1).toInt = n.toInt + 1 - (long n).lost := by
  have high := n.toInt_le
  rw [Int64.toInt_maxValue] at high
  have greatest : n = Int64.maxValue ↔ n.toInt + 1 = (9223372036854775808 : Nat) := by
    rw [← Int64.toInt_inj, Int64.toInt_maxValue]
    omega
  have wraps := bmod_succ (show -((9223372036854775808 : Nat) : Int) ≤ n.toInt from n.le_toInt)
    (by omega)
  simp only [← greatest] at wraps
  rw [Int64.toInt_add]
  exact wraps

/-- What follows a count is one more, but for what is lost. -/
theorem count_successor
    {value more : Value}
    (follows : value.successor = .ok more) :
    more.IsCount ∧ more.count = value.count + 1 - value.lost := by
  cases value with
  | null =>
      cases follows
      exact ⟨trivial, by decide⟩
  | int n =>
      cases follows
      exact ⟨trivial, toInt_succ_int n⟩
  | long n =>
      cases follows
      exact ⟨trivial, toInt_succ_long n⟩
  | double bits => cases follows
  | string text => cases follows

end Value

namespace History

/-! ## Counts that were made -/

/-- A count that was made: when, and on what. -/
structure Tick where
  time : Int
  found : Value
deriving DecidableEq

/-- How much more is held after a count. -/
def Tick.gain (tick : Tick) : Int :=
  1 - tick.found.lost

/-- The counts that were made from one instant to another. -/
def ticksBetween
    (a b : Int)
    (ticks : List Tick) :
    List Tick :=
  ticks.filter fun tick => a ≤ tick.time ∧ tick.time ≤ b

/-- How much was gained by counts up to an instant. -/
def gainedBy
    (ticks : List Tick)
    (t : Int) :
    Int :=
  (ticks.map fun tick => if tick.time ≤ t then tick.gain else 0).sum

section Gains

variable {ticks : List Tick} {a b t : Int}

theorem gainedBy_concat
    (ticks : List Tick)
    (tick : Tick)
    (t : Int) :
    gainedBy (ticks ++ [tick]) t
      = gainedBy ticks t + if tick.time ≤ t then tick.gain else 0 := by
  unfold gainedBy
  rw [List.map_append, List.sum_append, List.map_singleton, List.sum_singleton]

theorem gainedBy_of_later
    (later : ∀ tick ∈ ticks, t < tick.time) :
    gainedBy ticks t = 0 := by
  unfold gainedBy
  refine List.sum_eq_zero fun gain member => ?_
  rcases List.mem_map.mp member with ⟨tick, made, rfl⟩
  exact if_neg (Int.not_le.mpr (later tick made))

/-- What was gained up to the end of a range was gained before the range or in it. -/
theorem gainedBy_split
    (ordered : a ≤ b)
    (ticks : List Tick) :
    gainedBy ticks b = gainedBy ticks (a - 1) + ((ticksBetween a b ticks).map Tick.gain).sum := by
  induction ticks with
  | nil => rfl
  | cons tick ticks ih =>
      have between : ((ticksBetween a b (tick :: ticks)).map Tick.gain).sum
          = (if a ≤ tick.time ∧ tick.time ≤ b then tick.gain else 0)
            + ((ticksBetween a b ticks).map Tick.gain).sum := by
        unfold ticksBetween
        by_cases inside : a ≤ tick.time ∧ tick.time ≤ b
        · rw [List.filter_cons, if_pos (decide_eq_true inside), if_pos inside, List.map_cons,
            List.sum_cons]
        · rw [List.filter_cons, if_neg (mt of_decide_eq_true inside), if_neg inside, Int.zero_add]
      have cons : ∀ t, gainedBy (tick :: ticks) t
          = (if tick.time ≤ t then tick.gain else 0) + gainedBy ticks t :=
        fun t => List.sum_cons
      rw [between, cons, cons, ih]
      split_ifs <;> omega

/-- Each count gains one, but for what is lost. -/
theorem sum_gain
    (ticks : List Tick) :
    (ticks.map Tick.gain).sum
      = ticks.length - (ticks.map fun tick => tick.found.lost).sum := by
  induction ticks with
  | nil => rfl
  | cons tick ticks ih =>
      simp only [List.map_cons, List.sum_cons, List.length_cons, ih]
      unfold Tick.gain
      omega

end Gains

/-! ## One call -/

/-- The count that a call makes on an attribute. -/
def Call.ticks
    (quark : Int) :
    Call →
    Placed History →
    List Tick
  | make (.increment t counted), s =>
    if counted = quark then
      match s.subject.ongoingValue quark, History.increment t quark s with
      | .ok found, .ok _ _ => [⟨t, found⟩]
      | _, _ => []
    else
      []
  | _, _ => []

/-- Whether a call is to count on an attribute. -/
def Call.CountsOn
    (quark : Int) :
    Call →
    Prop
  | make (.increment _ counted) => counted = quark
  | _ => False

instance
    (quark : Int) :
    DecidablePred (Call.CountsOn quark)
  | .make (.increment _ counted) => Int.decEq counted quark
  | .make (.intern _ _) => instDecidableFalse
  | .make (.set _ _ _) => instDecidableFalse
  | .make (.push _ _ _) => instDecidableFalse
  | .make (.pop _ _) => instDecidableFalse
  | .make (.remove _ _) => instDecidableFalse
  | .overwrite _ _ => instDecidableFalse
  | .close _ => instDecidableFalse
  | .abandon => instDecidableFalse
  | .ask _ => instDecidableFalse

theorem Call.ticks_of_not_countsOn
    {quark : Int}
    {call : Call}
    (elsewhere : ¬ call.CountsOn quark)
    (s : Placed History) :
    call.ticks quark s = [] := by
  rcases call with change | _ | _ | _ | _
  · cases change with
    | increment t counted => exact if_neg elsewhere
    | _ => rfl
  all_goals rfl

variable {s reached : Placed History} {ledger after : Ledger} {quark since base : Int}
  {ticks : List Tick}

namespace Open

/-- A count is noted as what follows the present value. -/
theorem note_increment
    {t : Int}
    (open_ : Open s ledger)
    (done : History.increment t quark s = .ok () reached) :
    ∃ found more after,
      s.subject.ongoingValue quark = .ok found
        ∧ found.successor = .ok more
        ∧ Noted s ledger [⟨t, more, quark⟩] reached after := by
  unfold History.increment at done
  rw [Step.subject_bind_apply] at done
  rcases Step.ofExcept_bind_eq_ok done with ⟨found, held, afterHeld⟩
  rcases Step.ofExcept_bind_eq_ok afterHeld with ⟨more, follows, sets⟩
  rcases open_.note_set sets with ⟨⟨after, noted⟩, -⟩
  exact ⟨found, more, after, held, follows, noted⟩

/-- A count that is refused leaves the history as it is. -/
theorem eq_of_increment_error
    {t : Int}
    {fault : Fault}
    (open_ : Open s ledger)
    (failed : History.increment t quark s = .error fault reached) :
    reached = s := by
  unfold History.increment at failed
  rw [Step.subject_bind_apply] at failed
  rcases Step.ofExcept_bind_eq_error failed with ⟨-, same⟩ | ⟨found, -, afterHeld⟩
  · exact same
  · rcases Step.ofExcept_bind_eq_error afterHeld with ⟨-, same⟩ | ⟨more, -, refused⟩
    · exact same
    · exact open_.eq_of_set_error refused

end Open

/-- The count at an instant: none before `since`, and from then on `base` and what was gained. -/
def tally
    (since base : Int)
    (ticks : List Tick)
    (t : Int) :
    Int :=
  if t < since then 0 else base + gainedBy ticks t

/-- A history in whose ledger an attribute holds the counts that were made. -/
structure Tallying
    (s : Placed History)
    (ledger : Ledger)
    (quark since base : Int)
    (ticks : List Tick) : Prop where
  open_ : Open s ledger
  since_le : since ≤ ledger.ongoing.latest
  bare : since < ledger.ongoing.start → base = 0
  begun : ∀ tick ∈ ticks, ledger.ongoing.start ≤ tick.time
  held : ∀ t, ledger.ongoing.start ≤ t →
    ∃ value, ledger.Holds quark t value ∧ value.IsCount ∧ value.count = tally since base ticks t

namespace Tallying

/-- What leaves the attribute alone leaves its counts as they are. -/
theorem keep
    (tallying : Tallying s ledger quark since base ticks)
    (open_ : Open reached after)
    (start : after.ongoing.start = ledger.ongoing.start)
    (latest : ledger.ongoing.latest ≤ after.ongoing.latest)
    (keeps : ∀ {t value}, ledger.Holds quark t value → after.Holds quark t value) :
    Tallying reached after quark since base ticks where
  open_ := open_
  since_le := Int.le_trans tallying.since_le latest
  bare := by
    rw [start]
    exact tallying.bare
  begun tick member := by
    rw [start]
    exact tallying.begun tick member
  held t begun := by
    rw [start] at begun
    rcases tallying.held t begun with ⟨value, holds, told⟩
    exact ⟨value, keeps holds, told⟩

/-- What a count adds is there from its time on, and nothing before it changes. -/
theorem tick
    {t : Int}
    {found more : Value}
    (tallying : Tallying s ledger quark since base ticks)
    (held : s.subject.ongoingValue quark = .ok found)
    (follows : found.successor = .ok more)
    (noted : Noted s ledger [⟨t, more, quark⟩] reached after) :
    Tallying reached after quark since base (ticks ++ [⟨t, found⟩]) := by
  have open_ := tallying.open_
  have ending := open_.ending
  have onTime : ledger.ongoing.latest ≤ t := (noted.notes.times _ List.mem_cons_self).1
  have started : ledger.ongoing.start ≤ t := Int.le_trans open_.goes.current.start_le onTime
  refine ⟨noted.open_, Int.le_trans tallying.since_le noted.notes.latest_le, ?_, ?_, ?_⟩
  · rw [noted.notes.start]
    exact tallying.bare
  · intro tick member
    rw [noted.notes.start]
    rcases List.mem_append.mp member with old | new
    · exact tallying.begun tick old
    · rw [List.mem_singleton.mp new]
      exact started
  · intro u begun
    rw [noted.notes.start] at begun
    rcases tallying.held u begun with ⟨value, holds, counts, level⟩
    have holdsAfter : after.Holds quark u (if quark = quark ∧ t ≤ u then more else value) :=
      noted.notes.holds holds
    unfold tally at level ⊢
    rw [gainedBy_concat]
    by_cases reached_ : t ≤ u
    · rw [if_pos ⟨rfl, reached_⟩] at holdsAfter
      -- What was held then is what the count was made on.
      obtain rfl : value = found := holds.unique open_.kept.keeps.holds.separate
        (open_.holds_of_ongoingValue held (by omega))
      have counted := Value.count_successor follows
      have sinceThen : ¬ u < since := by
        have := tallying.since_le
        omega
      refine ⟨more, holdsAfter, counted.1, ?_⟩
      rw [if_neg sinceThen] at level ⊢
      rw [if_pos reached_, counted.2, level]
      show _ = base + (gainedBy ticks u + (1 - value.lost))
      omega
    · rw [if_neg fun both => reached_ both.2] at holdsAfter
      refine ⟨value, holdsAfter, counts, ?_⟩
      rw [if_neg reached_, Int.add_zero]
      exact level

/-- An attribute that holds nothing yet can be set to a count to begin with. -/
theorem set
    {t origin : Int}
    {value : Value}
    (tallying : Tallying s ledger quark origin 0 [])
    (number : value.IsCount)
    (done : History.set t value quark s = .ok () reached) :
    ∃ after, Tallying reached after quark t value.count [] := by
  have current := tallying.open_.goes.current
  rcases tallying.open_.note_set done with ⟨⟨after, noted⟩, -⟩
  have times := noted.notes.times _ List.mem_cons_self
  have started : ledger.ongoing.start ≤ t := Int.le_trans current.start_le times.1
  refine ⟨after, noted.open_, times.2, ?_, (fun _ member => by cases member), ?_⟩
  · rw [noted.notes.start]
    intro early
    omega
  intro u begun
  rw [noted.notes.start] at begun
  rcases tallying.held u begun with ⟨before, holds, counts, level⟩
  have holdsAfter : after.Holds quark u (if quark = quark ∧ t ≤ u then value else before) :=
    noted.notes.holds holds
  unfold tally at level ⊢
  by_cases early : u < t
  · rw [if_neg fun both => absurd both.2 (Int.not_le.mpr early)] at holdsAfter
    refine ⟨before, holdsAfter, counts, ?_⟩
    rw [if_pos early, level]
    split
    · rfl
    · rfl
  · rw [if_pos ⟨rfl, Int.not_lt.mp early⟩] at holdsAfter
    refine ⟨value, holdsAfter, number, ?_⟩
    rw [if_neg early]
    exact (Int.add_zero _).symm

/-- Whatever counting on the attribute comes to, its counts are those that were made. -/
theorem call_increment
    (tallying : Tallying s ledger quark since base ticks)
    (t : Int) :
    ∃ after, Tallying ((Change.increment t quark).step.reached s) after quark since base
      (ticks ++ (Call.make (.increment t quark)).ticks quark s) := by
  cases ends : History.increment t quark s with
  | ok done r =>
      have steps : (Change.increment t quark).step s = .ok .done r := Step.bind_of_ok ends
      rcases tallying.open_.note_increment ends with ⟨found, more, after, held, follows, noted⟩
      have made : (Call.make (.increment t quark)).ticks quark s = [⟨t, found⟩] := by
        unfold Call.ticks
        simp only [if_pos, held, ends]
      rw [made, Step.reached_of_ok steps]
      exact ⟨after, tallying.tick held follows noted⟩
  | error fault r =>
      have steps : (Change.increment t quark).step s = .error fault r := Step.bind_of_error ends
      obtain rfl := tallying.open_.eq_of_increment_error ends
      have made : (Call.make (.increment t quark)).ticks quark r = [] := by
        unfold Call.ticks
        simp only [if_pos, ends]
        cases r.subject.ongoingValue quark <;> rfl
      rw [made, Step.reached_of_error steps, List.append_nil]
      exact ⟨ledger, tallying⟩

/-- Whatever a call comes to that leaves the writer in place, the counts are those made. -/
theorem call
    {call : Call}
    (tallying : Tallying s ledger quark since base ticks)
    (stays : ¬ call.Ends)
    (inRange : s.subject.InRange)
    (only : call.CountsOn quark ∨ quark ∉ call.touched s) :
    ∃ after, Tallying (call.step.reached s) after quark since base
      (ticks ++ call.ticks quark s) := by
  by_cases counts : call.CountsOn quark
  · rcases call with change | _ | _ | _ | _
    · cases change with
      | increment t counted =>
          obtain rfl : counted = quark := counts
          rw [Call.reached_make]
          exact tallying.call_increment t
      | _ => exact counts.elim
    all_goals exact counts.elim
  · have apart := only.resolve_left counts
    rw [Call.ticks_of_not_countsOn counts s, List.append_nil]
    rcases tallying.open_.untouched stays inRange with ⟨after, left⟩
    exact ⟨after, tallying.keep left.open_ left.start left.latest_le fun holds =>
      left.holds apart holds⟩

end Tallying

/-! ## Runs -/

/-- The counts that calls one after the other make on an attribute. -/
def ticksOf
    (quark : Int) :
    List Call →
    Placed History →
    List Tick
  | [], _ => []
  | call :: calls, s => call.ticks quark s ++ ticksOf quark calls (call.step.reached s)

/-- Calls of which each is to count on an attribute, or does not set it. -/
def OnlyCounted
    (quark : Int) :
    List Call →
    Placed History →
    Prop
  | [], _ => True
  | call :: calls, s =>
    (call.CountsOn quark ∨ quark ∉ call.touched s) ∧ OnlyCounted quark calls (call.step.reached s)

instance decidableOnlyCounted
    (quark : Int) :
    (calls : List Call) →
    (s : Placed History) →
    Decidable (OnlyCounted quark calls s)
  | [], _ => instDecidableTrue
  | call :: calls, s =>
    have : Decidable (OnlyCounted quark calls (call.step.reached s)) :=
      decidableOnlyCounted quark calls _
    inferInstanceAs (Decidable ((call.CountsOn quark ∨ quark ∉ call.touched s)
      ∧ OnlyCounted quark calls (call.step.reached s)))

/-- While its writer stays, an attribute that is only counted on holds the counts made. -/
theorem Tallying.run
    {calls : List Call}
    (tallying : Tallying s ledger quark since base ticks)
    (stays : ∀ call ∈ calls, ¬ call.Ends)
    (inRange : ∀ before, before <+: calls →
      ((Step.each Call.step before).reached s).subject.InRange)
    (only : OnlyCounted quark calls s) :
    ∃ after, Tallying ((Step.each Call.step calls).reached s) after quark since base
      (ticks ++ ticksOf quark calls s) := by
  induction calls generalizing s ledger ticks with
  | nil =>
      rw [ticksOf, List.append_nil]
      exact ⟨ledger, tallying⟩
  | cons call calls ih =>
      rcases Step.prefixes_cons (fun r : Placed History => r.subject.InRange) inRange with
        ⟨now, later⟩
      rcases tallying.call (stays call List.mem_cons_self) now only.1 with ⟨between, first⟩
      rw [Step.reached_each_cons, ticksOf, ← List.append_assoc]
      exact ih first (fun other member => stays other (List.mem_cons_of_mem _ member)) later
        only.2

/-- A history, with or without a writer, that tells the counts made up to its current end. -/
structure Tallied
    (s : Placed History)
    (ledger : Ledger)
    (quark since base : Int)
    (ticks : List Tick) : Prop where
  kept : Kept s ledger
  ordered : s.subject.start ≤ s.subject.currentEnd
  bare : since < s.subject.start → base = 0
  begun : ∀ tick ∈ ticks, s.subject.start ≤ tick.time
  held : ∀ t, s.subject.start ≤ t → t ≤ s.subject.currentEnd →
    ∃ value, ledger.Holds quark t value ∧ value.IsCount ∧ value.count = tally since base ticks t

namespace Tallied

theorem of_tallying
    (tallying : Tallying s ledger quark since base ticks) :
    Tallied s ledger quark since base ticks := by
  have kept := tallying.open_.kept
  have start : s.subject.start = ledger.ongoing.start := kept.keeps.start
  refine ⟨kept, tallying.open_.begun, ?_, ?_, ?_⟩
  · rw [start]
    exact tallying.bare
  · rw [start]
    exact tallying.begun
  · intro t begun _
    exact tallying.held t (start ▸ begun)

/-- The end of its writer leaves what a history tells, up to the new end. -/
theorem of_ended
    (tallying : Tallying s ledger quark since base ticks)
    (ended : Ended s ledger reached after) :
    Tallied reached after quark since base ticks := by
  have start : s.subject.start = ledger.ongoing.start := tallying.open_.kept.keeps.start
  refine ⟨ended.kept, ?_, ?_, ?_, ?_⟩
  · rw [ended.start]
    exact Int.le_trans tallying.open_.begun ended.currentEnd_le
  · rw [ended.start, start]
    exact tallying.bare
  · rw [ended.start, start]
    exact tallying.begun
  · intro t begun until_
    rw [ended.start, start] at begun
    rcases tallying.held t begun with ⟨value, holds, told⟩
    exact ⟨value, ended.holds until_ holds, told⟩

theorem asked
    (tallied : Tallied s ledger quark since base ticks)
    (asked : Asked s reached ledger) :
    Tallied reached ledger quark since base ticks := by
  refine ⟨asked.kept tallied.kept, ?_, ?_, ?_, ?_⟩
  · rw [asked.start, asked.currentEnd]
    exact tallied.ordered
  · rw [asked.start]
    exact tallied.bare
  · rw [asked.start]
    exact tallied.begun
  · rw [asked.start, asked.currentEnd]
    exact tallied.held

/-- What the attribute tells at each instant is the tally. -/
theorem counter
    (tallied : Tallied s ledger quark since base ticks)
    (inRange : s.subject.InRange)
    (known : s.subject.names.Contains quark) :
    Counter s ledger quark (tally since base ticks) := by
  refine ⟨⟨tallied.kept, inRange, tallied.ordered⟩, known, fun t i begun until_ told => ?_⟩
  rcases tallied.held t begun until_ with ⟨value, holds, counts, level⟩
  rw [holds.value_eq tallied.kept.keeps.holds.separate told, ← level]
  exact Value.asCount_of_isCount counts

/-- The growth over a range is what was gained in it. -/
theorem growth
    {a b : Int}
    (tallied : Tallied s ledger quark since base ticks)
    (inRange : s.subject.InRange)
    (known : s.subject.names.Contains quark)
    (later : since < a)
    (begun : s.subject.start ≤ a)
    (ordered : a ≤ b)
    (until_ : b ≤ s.subject.currentEnd) :
    ∃ reached, History.growth quark a b s
      = .ok ((ticksBetween a b ticks).map Tick.gain).sum reached := by
  rcases (tallied.counter inRange known).growth a b with ⟨reached, grows, -⟩
  refine ⟨reached, grows.trans ?_⟩
  have atEnd : tally since base ticks b = base + gainedBy ticks b := if_neg (by omega)
  have split := gainedBy_split ordered ticks
  rw [clamp_of_inside (Int.le_trans begun ordered) until_, atEnd, split]
  congr 1
  by_cases first : a ≤ s.subject.start
  · -- Nothing was counted before the start, nor set.
    have none_ : gainedBy ticks (a - 1) = 0 := by
      refine gainedBy_of_later fun tick member => ?_
      have := tallied.begun tick member
      omega
    rw [if_pos first, none_, tallied.bare (by omega)]
    omega
  · have before : tally since base ticks (a - 1) = base + gainedBy ticks (a - 1) :=
      if_neg (by omega)
    rw [if_neg first, clamp_of_inside (by omega) (by omega), before]
    omega

end Tallied

/-- After whatever else its writer did, and after the writer, the counts are those made. -/
theorem Tallying.tallied_of_run
    {calls : List Call}
    (tallying : Tallying s ledger quark since base ticks)
    (lawful : Lawful calls)
    (inRange : ∀ before, before <+: calls →
      ((Step.each Call.step before).reached s).subject.InRange)
    (only : OnlyCounted quark calls s) :
    ∃ after, Tallied ((Step.each Call.step calls).reached s) after quark since base
      (ticks ++ ticksOf quark calls s) := by
  generalize total : ticks ++ ticksOf quark calls s = all
  -- What was counted and what will be counted is the same at each point of the run.
  have run := lawful.carries
    (P := fun rest r => ∃ ledger made, made ++ ticksOf quark rest r = all
      ∧ OnlyCounted quark rest r ∧ Tallying r ledger quark since base made)
    (Q := fun rest r => ∃ ledger made, made ++ ticksOf quark rest r = all
      ∧ Tallied r ledger quark since base made)
    inRange ?stays ?ends ?asks ?settles ⟨ledger, ticks, total, only, tallying⟩
  case stays =>
    rintro call rest r now stays ⟨ledger, made, total, only, tallying⟩
    rcases tallying.call stays now only.1 with ⟨after, tallyingAfter⟩
    exact ⟨after, _, (List.append_assoc ..).trans total, only.2, tallyingAfter⟩
  case ends =>
    rintro call rest r now ends ⟨ledger, made, total, -, tallying⟩
    rcases tallying.open_.ended ends with ⟨after, ended⟩
    have silent : call.ticks quark r = [] := by
      cases call with
      | make change => exact ends.elim
      | _ => rfl
    rw [ticksOf, silent, List.nil_append] at total
    exact ⟨after, made, total, .of_ended tallying ended⟩
  case asks =>
    rintro question rest r now ⟨ledger, made, total, tallied⟩
    refine ⟨ledger, made, total, ?_⟩
    rw [Call.reached_ask]
    exact tallied.asked (tallied.kept.asked now question)
  case settles =>
    rintro r ⟨ledger, made, total, -, tallying⟩
    exact ⟨ledger, made, total, .of_tallying tallying⟩
  rcases run with ⟨after, made, same, tallied⟩
  rw [ticksOf, List.append_nil] at same
  exact ⟨after, same ▸ tallied⟩

/--
Calls that count on an attribute, some of which may have set it to a count
first: what else they do, it is not set.  Told are the time at which it was
set, one instant before the start if it was not, and the counts that were made.
-/
inductive Counted (quark : Int) (s : Placed History) : List Call → Int → List Tick → Prop
  | unset
      {calls : List Call}
      (only : OnlyCounted quark calls s) :
      Counted quark s calls (s.subject.start - 1) (ticksOf quark calls s)
  | set
      {early later : List Call}
      {since : Int}
      {value : Value}
      {r : Placed History}
      (idle : OnlyCounted quark early s)
      (uncounted : ticksOf quark early s = [])
      (number : value.IsCount)
      (sets : History.set since value quark ((Step.each Call.step early).reached s) = .ok () r)
      (only : OnlyCounted quark later r) :
      Counted quark s (early ++ .make (.set since value quark) :: later) since
        (ticksOf quark later r)

/-- In a new history every attribute holds null, which counts nothing. -/
theorem Tallying.of_create
    {start : Int}
    (open_ : Open s (.empty start))
    (nonneg : 0 ≤ quark) :
    Tallying s (.empty start) quark (start - 1) 0 [] where
  open_ := open_
  since_le := by
    show start - 1 ≤ start
    omega
  bare _ := rfl
  begun _ member := by cases member
  held t begun := by
    refine ⟨.null, .unborn nonneg begun, trivial, ?_⟩
    unfold tally
    split <;> rfl

/-- Counting on an attribute of a new history leads to what was counted on it. -/
theorem Counted.tallied
    {start : Int}
    {calls : List Call}
    (counted : Counted quark s calls since ticks)
    (open_ : Open s (.empty start))
    (nonneg : 0 ≤ quark)
    (lawful : Lawful calls)
    (inRange : ∀ before, before <+: calls →
      ((Step.each Call.step before).reached s).subject.InRange) :
    ∃ after base, Tallied ((Step.each Call.step calls).reached s) after quark since base ticks := by
  have empty := Tallying.of_create open_ nonneg
  cases counted with
  | unset only =>
      have begins : s.subject.start = start := open_.kept.keeps.start
      rcases empty.tallied_of_run lawful inRange only with ⟨after, tallied⟩
      rw [begins]
      exact ⟨after, 0, tallied⟩
  | @set early later _ value r idle uncounted number sets only =>
      rcases List.pairwise_append.mp lawful with ⟨-, lawfulRest, across⟩
      have stays : ∀ call ∈ early, ¬ call.Ends := fun call member ends =>
        across call member _ List.mem_cons_self ends trivial
      have inRangeEarly : ∀ before, before <+: early →
          ((Step.each Call.step before).reached s).subject.InRange :=
        fun before begins => inRange before (begins.trans (List.prefix_append _ _))
      rcases empty.run stays inRangeEarly idle with ⟨between, untouched⟩
      rw [uncounted, List.append_nil] at untouched
      rcases untouched.set number sets with ⟨ledgerSet, tallying⟩
      have reaches : (Call.make (.set since value quark)).step.reached
          ((Step.each Call.step early).reached s) = r :=
        Step.reached_of_ok (Step.bind_of_ok (Step.bind_of_ok sets))
      have inRangeLater : ∀ before, before <+: later →
          ((Step.each Call.step before).reached r).subject.InRange := by
        intro before begins
        have there := inRange (early ++ .make (.set since value quark) :: before)
          ((List.prefix_append_right_inj early).mpr (List.cons_prefix_cons.mpr ⟨rfl, begins⟩))
        rwa [Step.reached_each_append, Step.reached_each_cons, reaches] at there
      rcases tallying.tallied_of_run (List.pairwise_cons.mp lawfulRest).2 inRangeLater only with
        ⟨after, tallied⟩
      rw [Step.reached_each_append, Step.reached_each_cons, reaches]
      exact ⟨after, value.count, tallied⟩

/--
How far an attribute of a new history grew over a range is the number of counts
that were made in it, if it was set to a count before the range or not at all
and only counted on from then on.  Whatever else is done meanwhile makes no
difference, nor does the end of the writer.  Where a count is made on the
greatest value of its width, what had been counted is lost.
-/
theorem growth_of_counted
    {id : String}
    {start a b : Int}
    {plan : Backend.Plan}
    {volume made : Volume}
    {history : History}
    {calls : List Call}
    (sound : volume.Sound)
    (created : create id start plan volume = .ok (made, history))
    (lawful : Lawful calls)
    (inRange : ∀ before, before <+: calls →
      ((Step.each Call.step before).reached ⟨made, history⟩).subject.InRange)
    (counted : Counted quark ⟨made, history⟩ calls since ticks)
    (known : ((Step.each Call.step calls).reached ⟨made, history⟩).subject.names.Contains quark)
    (later : since < a)
    (begun : ((Step.each Call.step calls).reached ⟨made, history⟩).subject.start ≤ a)
    (ordered : a ≤ b)
    (until_ : b ≤ ((Step.each Call.step calls).reached ⟨made, history⟩).subject.currentEnd) :
    ∃ grown reached,
      growth quark a b ((Step.each Call.step calls).reached ⟨made, history⟩) = .ok grown reached
        ∧ grown = (ticksBetween a b ticks).length
          - ((ticksBetween a b ticks).map fun tick => tick.found.lost).sum
        ∧ ((∀ tick ∈ ticksBetween a b ticks, tick.found.lost = 0) →
          grown = (ticksBetween a b ticks).length) := by
  rcases open_of_create sound created with ⟨open_, -⟩
  rcases counted.tallied open_ known.1 lawful inRange with ⟨after, base, tallied⟩
  rcases tallied.growth (inRange calls (List.prefix_refl calls)) known later begun ordered until_
    with ⟨reached, grows⟩
  rw [sum_gain] at grows
  refine ⟨_, reached, grows, rfl, fun lossless => ?_⟩
  have none_ : ((ticksBetween a b ticks).map fun tick => tick.found.lost).sum = 0 := by
    refine List.sum_eq_zero fun lost member => ?_
    rcases List.mem_map.mp member with ⟨tick, within, rfl⟩
    exact lossless tick within
  rw [none_, Int.sub_zero]

/-- What calls come to that set an attribute first can be looked up. -/
theorem Counted.of_set
    {early later : List Call}
    {value : Value}
    (idle : OnlyCounted quark early s)
    (uncounted : ticksOf quark early s = [])
    (number : value.IsCount)
    (sets : (match History.set since value quark ((Step.each Call.step early).reached s) with
      | .ok _ r => decide (OnlyCounted quark later r ∧ ticksOf quark later r = ticks)
      | .error _ _ => false) = true) :
    Counted quark s (early ++ .make (.set since value quark) :: later) since ticks := by
  cases gives : History.set since value quark ((Step.each Call.step early).reached s) with
  | error fault r =>
      rw [gives] at sets
      cases sets
  | ok done r =>
      rw [gives] at sets
      rcases of_decide_eq_true sets with ⟨only, rfl⟩
      exact .set idle uncounted number gives only

/-- Attributes are entered, and the second one is used, before the first one is set. -/
def preparations : List Call :=
  [.make (.intern (-1) ["a"]), .make (.intern (-1) ["b"]), .make (.set 1 (.int 3) 1)]

/--
Counts on the first attribute, two of them at a time, and one that comes too
late.  Meanwhile the second one is counted on, set, overwritten and removed,
and questions are asked.  In the end the history is closed.
-/
def rounds : List Call :=
  [.make (.increment 3 0), .make (.increment 3 1), .make (.increment 3 0),
    .make (.increment 2 0), .overwrite (.int 5) 1, .make (.set 4 (.string "x") 1),
    .make (.increment 4 0), .ask (.interval 4 0), .make (.remove 5 1), .make (.increment 7 0),
    .close 8, .ask (.interval 20 0)]

/-- Both, with the first attribute set in between. -/
def campaign : List Call :=
  preparations ++ .make (.set 2 (.int 5) 0) :: rounds

theorem growth_over_campaign :
    ∃ made history reached,
      create "cramped" 0 (.file "cramped" cramping) .empty = .ok (made, history)
        ∧ Counted 0 ⟨made, history⟩ campaign 2
          [⟨3, .int 5⟩, ⟨3, .int 6⟩, ⟨4, .int 7⟩, ⟨7, .int 8⟩]
        ∧ growth 0 3 4 ((Step.each Call.step campaign).reached ⟨made, history⟩)
          = .ok 3 reached := by
  obtain ⟨made, history, created, inRange, counted, known, begun, until_⟩ : ∃ made history,
      create "cramped" 0 (.file "cramped" cramping) .empty = .ok (made, history)
        ∧ (∀ before ∈ campaign.inits,
          ((Step.each Call.step before).reached ⟨made, history⟩).subject.InRange)
        ∧ Counted 0 ⟨made, history⟩ campaign 2
          [⟨3, .int 5⟩, ⟨3, .int 6⟩, ⟨4, .int 7⟩, ⟨7, .int 8⟩]
        ∧ ((Step.each Call.step campaign).reached ⟨made, history⟩).subject.names.Contains 0
        ∧ ((Step.each Call.step campaign).reached ⟨made, history⟩).subject.start ≤ 3
        ∧ 4 ≤ ((Step.each Call.step campaign).reached ⟨made, history⟩).subject.currentEnd :=
    ⟨_, _, rfl, by decide +kernel,
      .of_set (by decide +kernel) (by decide +kernel) (by decide) (by decide +kernel),
      by decide +kernel, by decide +kernel, by decide +kernel⟩
  rcases growth_of_counted (by decide) created (by decide)
    (fun before begins => inRange before ((List.mem_inits before campaign).mpr begins)) counted
    known (show (2 : Int) < 3 by decide) begun (show (3 : Int) ≤ 4 by decide) until_ with
    ⟨grown, reached, grows, -, lossless⟩
  rw [lossless (by decide)] at grows
  exact ⟨made, history, reached, created, counted, grows⟩

/-- A count on the greatest value of its width. -/
def brim : List Call :=
  [.make (.intern (-1) ["a"])] ++ .make (.set 0 (.int 2147483647) 0) :: [.make (.increment 1 0)]

/-- With that count everything is lost that the attribute held. -/
theorem growth_over_brim :
    ∃ made history,
      create "brim" 0 .memory .empty = .ok (made, history)
        ∧ Counted 0 ⟨made, history⟩ brim 0 [⟨1, .int 2147483647⟩]
        ∧ ticksBetween 1 1 [⟨1, .int 2147483647⟩] = [⟨1, .int 2147483647⟩]
        ∧ Lawful brim
        ∧ ((Step.each Call.step brim).reached ⟨made, history⟩).subject.currentEnd = 1
        ∧ growth? 0 1 1 ((Step.each Call.step brim).reached ⟨made, history⟩)
          = some (-4294967295) :=
  ⟨_, _, rfl, .of_set (by decide +kernel) (by decide +kernel) (by decide) (by decide +kernel),
    by decide, by decide, by decide +kernel, by decide +kernel⟩

end History

end Chronicle
