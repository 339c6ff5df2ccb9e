import Chronicle.Proofs.Backend.Holding
import Chronicle.Proofs.Interval.Succession
import Chronicle.Proofs.Tree.Refinement
import Chronicle.Store

/-!
# What a store promises to whoever calls it

A store is called with anything in any order.  What it accepts lines up: the
intervals of each attribute follow one another from the start of the history
on, and the ends of all of them never go back.  The cursor of the store is
told by the intervals accepted, and its answers are those of a flat list of
them.  Only an interval that does not follow its predecessor makes the store
give up, and it then refuses every call.
-/

namespace Chronicle.Store

open Chronicle.Interval

/-! ## A healthy store -/

/-- All numbers and times of a store fit the fields in which they are written, if any. -/
structure InRange (store : Store) : Prop where
  few : store.nextStarts.size ≤ 2147483648
  backend : store.backend.InRange

instance
    (store : Store) :
    Decidable store.InRange :=
  decidable_of_iff
    (store.nextStarts.size ≤ 2147483648 ∧ store.backend.InRange)
    ⟨fun both => ⟨both.1, both.2⟩, fun inRange => ⟨inRange.few, inRange.backend⟩⟩

theorem checkHealthy_of_healthy
    {store : Store}
    (healthy : store.corrupted = false) :
    store.checkHealthy = .ok () := by
  unfold checkHealthy
  rw [healthy]
  rfl

/-- A store whose backend takes what it is given by the step `take`. -/
def insertWith
    (take : Interval → Step Backend Unit)
    (start stop quark : Int)
    (value : Value) :
    Step Store Unit := do
  let store ← Step.subject
  Step.ofExcept store.checkHealthy
  if quark < 0 then
    throw (.notFound (.quark quark))
  let expected := store.expectedStart quark
  if start ≠ expected then
    Step.update fun store => { store with corrupted := true }
    throw (.contiguity quark expected start)
  if stop < store.lastStop then
    throw (.badArgument (.lateInterval quark stop store.lastStop))
  let i ← Step.ofExcept (Interval.make start stop quark value)
  onBackend (take i)
  Step.update fun store => store.advance quark stop

theorem insertWith_insert : insertWith Backend.insert = Store.insert := rfl

/-- A store that has given up takes no notice of an interval. -/
theorem insertWith_of_corrupted
    {s : Placed Store}
    (corrupted : s.subject.corrupted = true)
    (take : Interval → Step Backend Unit)
    (start stop quark : Int)
    (value : Value) :
    insertWith take start stop quark value s = .error .corrupted s := by
  have refused : s.subject.checkHealthy = .error .corrupted := if_pos corrupted
  unfold insertWith
  rw [Step.subject_bind_apply, refused]
  rfl

/-- What a healthy store makes of an interval before its backend sees it. -/
theorem insertWith_apply
    {s : Placed Store}
    (healthy : s.subject.corrupted = false)
    (take : Interval → Step Backend Unit)
    (start stop quark : Int)
    (value : Value) :
    insertWith take start stop quark value s
      = if quark < 0 then
          .error (.notFound (.quark quark)) s
        else if start ≠ s.subject.expectedStart quark then
          .error (.contiguity quark (s.subject.expectedStart quark) start)
            ⟨s.volume, { s.subject with corrupted := true }⟩
        else if stop < s.subject.lastStop then
          .error (.badArgument (.lateInterval quark stop s.subject.lastStop)) s
        else if ordered : start ≤ stop then
          (onBackend (take ⟨start, stop, quark, value, ordered⟩) >>= fun _ =>
            Step.update fun store => store.advance quark stop) s
        else
          .error (.badArgument (.reversedInterval quark start stop)) s := by
  unfold insertWith
  rw [Step.subject_bind_apply, checkHealthy_of_healthy healthy, Step.ofExcept_ok,
    Step.pure_bind_apply]
  by_cases negative : quark < 0
  · rw [if_pos negative, if_pos negative]
    rfl
  rw [if_neg negative, if_neg negative]
  by_cases stray : start ≠ s.subject.expectedStart quark
  · rw [if_pos stray, if_pos stray]
    rfl
  rw [if_neg stray, if_neg stray]
  by_cases early : stop < s.subject.lastStop
  · rw [if_pos early, if_pos early]
    rfl
  rw [if_neg early, if_neg early]
  by_cases ordered : start ≤ stop
  · have made : Interval.make start stop quark value
        = .ok ⟨start, stop, quark, value, ordered⟩ := dif_pos ordered
    rw [dif_pos ordered, made]
    rfl
  · have made : Interval.make start stop quark value
        = .error (.badArgument (.reversedInterval quark start stop)) := dif_neg ordered
    rw [dif_neg ordered, made]
    rfl

/-- What a healthy store makes of an interval before its backend sees it. -/
theorem insert_apply
    {s : Placed Store}
    (healthy : s.subject.corrupted = false)
    (start stop quark : Int)
    (value : Value) :
    Store.insert start stop quark value s
      = if quark < 0 then
          .error (.notFound (.quark quark)) s
        else if start ≠ s.subject.expectedStart quark then
          .error (.contiguity quark (s.subject.expectedStart quark) start)
            ⟨s.volume, { s.subject with corrupted := true }⟩
        else if stop < s.subject.lastStop then
          .error (.badArgument (.lateInterval quark stop s.subject.lastStop)) s
        else if ordered : start ≤ stop then
          (onBackend (Backend.insert ⟨start, stop, quark, value, ordered⟩) >>= fun _ =>
            Step.update fun store => store.advance quark stop) s
        else
          .error (.badArgument (.reversedInterval quark start stop)) s := by
  rw [← insertWith_insert]
  exact insertWith_apply healthy Backend.insert start stop quark value

/-- A healthy store passes on what it is asked about its time. -/
theorem asks_apply
    {s : Placed Store}
    {α : Type}
    (healthy : s.subject.corrupted = false)
    (t : Int)
    (step : Step Backend α) :
    (do
      let store ← Step.subject
      Step.ofExcept store.checkHealthy
      Step.ofExcept (store.checkTime t)
      onBackend step : Step Store α) s
      = if t < s.subject.start ∨ s.subject.stop < t then
          .error (.timeOutside t s.subject.start s.subject.stop) s
        else
          onBackend step s := by
  rw [Step.subject_bind_apply, checkHealthy_of_healthy healthy, Step.ofExcept_ok,
    Step.pure_bind_apply]
  unfold checkTime
  by_cases outside : t < s.subject.start ∨ s.subject.stop < t
  · rw [if_pos outside, if_pos outside]
    rfl
  · rw [if_neg outside, if_neg outside]
    rfl

/-- A healthy store passes its completion on. -/
theorem finish_apply
    {s : Placed Store}
    (healthy : s.subject.corrupted = false)
    (stop : Int)
    (ns : Namespace) :
    Store.finish stop ns s = onBackend (Backend.finish stop ns) s := by
  unfold Store.finish
  rw [Step.subject_bind_apply, checkHealthy_of_healthy healthy]
  rfl

/-- A healthy store that accepted intervals: its backend holds them and its cursor is told by them. -/
structure Accounts
    (s : Placed Store)
    (accepted : List Interval) : Prop where
  healthy : s.subject.corrupted = false
  holds : Backend.Holds ⟨s.volume, s.subject.backend⟩ accepted
  cursor : ∀ quark : Nat,
    s.subject.expectedStart quark = followingStart s.subject.start accepted quark
  last : s.subject.lastStop = ((accepted.getLast?).map (·.stop)).getD s.subject.start
  consecutive : Consecutive s.subject.start accepted
  numbered : ∀ i ∈ accepted, 0 ≤ i.quark ∧ i.quark < s.subject.nextStarts.size
  within : ∀ i ∈ accepted, i.stop ≤ s.subject.stop
  prompt : s.subject.backend.Taking → s.subject.backend.maxIntervalSize? ≠ none →
    s.subject.stop = s.subject.lastStop

/-- An interval that a store accepts next. -/
structure Accepts
    (store : Store)
    (accepted : List Interval)
    (start stop quark : Int)
    (value : Value) : Prop where
  next : start = followingStart store.start accepted quark
  ordered : start ≤ stop
  last : ∀ i ∈ accepted, i.stop ≤ stop
  fits : ∀ capacity, store.backend.maxIntervalSize? = some capacity →
    Interval.sizeWith value ≤ capacity
  taking : store.backend.Taking

namespace Accounts

variable {s : Placed Store} {accepted : List Interval} {start stop quark : Int} {value : Value}

theorem expectedStart
    (accounts : Accounts s accepted)
    (nonneg : 0 ≤ quark) :
    s.subject.expectedStart quark = followingStart s.subject.start accepted quark := by
  obtain ⟨place, rfl⟩ := Int.eq_ofNat_of_zero_le nonneg
  exact accounts.cursor place

/-- The end stored last is the latest one. -/
theorem lastStop_le_iff
    (accounts : Accounts s accepted)
    (begun : s.subject.start ≤ stop) :
    s.subject.lastStop ≤ stop ↔ ∀ i ∈ accepted, i.stop ≤ stop := by
  rw [accounts.last]
  rcases List.eq_nil_or_concat accepted with rfl | ⟨before, i, rfl⟩
  · simpa using begun
  · rw [List.concat_eq_append, List.getLast?_concat]
    show i.stop ≤ stop ↔ _
    rcases consecutive_concat_iff.mp (List.concat_eq_append ▸ accounts.consecutive) with
      ⟨-, -, last⟩
    constructor
    · intro late j member
      rcases List.mem_append.mp member with old | new
      · exact Int.le_trans (last j old) late
      · rw [List.mem_singleton.mp new]
        exact late
    · intro all
      exact all i (List.mem_append_right _ (List.mem_singleton_self i))

/-- What the cursor says after an interval was stored. -/
theorem expectedStart_advance
    (store : Store)
    (quark place : Nat)
    (stop : Int) :
    (store.advance quark stop).expectedStart place
      = if quark = place then stop + 1 else store.expectedStart place := by
  show (setPadded store.nextStarts quark (stop + 1) store.start).getD place store.start = _
  rw [getD_setPadded]
  by_cases same : place = quark
  · rw [if_pos same, if_pos same.symm]
  · rw [if_neg same, if_neg (Ne.symm same)]
    rfl

/-- A store whose backend took an interval that follows accounts for it as well. -/
theorem advance
    {volume : Volume}
    {backend : Backend}
    {i : Interval}
    {place : Nat}
    (accounts : Accounts s accepted)
    (placed : i.quark = place)
    (consecutive : Consecutive s.subject.start (accepted ++ [i]))
    (late : s.subject.backend.maxIntervalSize? ≠ none → s.subject.stop ≤ i.stop)
    (holds : Backend.Holds ⟨volume, backend⟩ (accepted ++ [i]))
    (alike : s.subject.backend.Alike backend)
    (stopAfter : backend.stop = max s.subject.stop i.stop) :
    Accounts ⟨volume, Store.advance { s.subject with backend } place i.stop⟩
      (accepted ++ [i]) := by
  let after : Store := Store.advance { s.subject with backend } place i.stop
  have startAfter : after.start = s.subject.start := alike.start
  constructor
  · exact accounts.healthy
  · exact holds
  · intro other
    show after.expectedStart other = followingStart after.start (accepted ++ [i]) other
    rw [followingStart_concat, startAfter, expectedStart_advance, placed]
    by_cases eq : place = other
    · rw [if_pos eq, if_pos (Int.ofNat_inj.mpr eq)]
    · rw [if_neg eq, if_neg (fun eq' => eq (Int.ofNat_inj.mp eq')), ← accounts.cursor other]
      show s.subject.nextStarts.getD other backend.start = _
      rw [alike.start]
      rfl
  · show i.stop = _
    rw [List.getLast?_concat]
    rfl
  · show Consecutive after.start _
    rw [startAfter]
    exact consecutive
  · have size : after.nextStarts.size = max s.subject.nextStarts.size (place + 1) :=
      size_setPadded _ _ _ _
    intro j member
    show 0 ≤ j.quark ∧ j.quark < after.nextStarts.size
    rw [size]
    rcases List.mem_append.mp member with old | new
    · have known := accounts.numbered j old
      omega
    · rw [List.mem_singleton.mp new, placed]
      omega
  · intro j member
    show j.stop ≤ backend.stop
    rw [stopAfter]
    rcases List.mem_append.mp member with old | new
    · exact Int.le_trans (accounts.within j old) (Int.le_max_left _ _)
    · rw [List.mem_singleton.mp new]
      exact Int.le_max_right _ _
  · intro _ bounded
    show backend.stop = i.stop
    rw [stopAfter]
    exact Int.max_eq_right (late (alike.capacity ▸ bounded))

/-- A store accepts what follows, and goes on after it. -/
theorem insert
    (accounts : Accounts s accepted)
    (nonneg : 0 ≤ quark)
    (accepts : s.subject.Accepts accepted start stop quark value) :
    ∃ after,
      Store.insert start stop quark value s = .ok () after
        ∧ s.subject.backend.Alike after.subject.backend
        ∧ Accounts after (accepted ++ [⟨start, stop, quark, value, accepts.ordered⟩])
        ∧ after.subject.stop = max s.subject.stop stop
        ∧ after.subject.backend.Taking := by
  obtain ⟨place, rfl⟩ := Int.eq_ofNat_of_zero_le nonneg
  let i : Interval := ⟨start, stop, place, value, accepts.ordered⟩
  have begun : s.subject.start ≤ start :=
    accepts.next ▸ accounts.consecutive.start_le_followingStart place
  have onTime : s.subject.lastStop ≤ stop :=
    (accounts.lastStop_le_iff (Int.le_trans begun accepts.ordered)).mpr accepts.last
  have late : s.subject.backend.maxIntervalSize? ≠ none → s.subject.stop ≤ stop := by
    intro bounded
    rw [accounts.prompt accepts.taking bounded]
    exact onTime
  have consecutive : Consecutive s.subject.start (accepted ++ [i]) :=
    consecutive_concat_iff.mpr ⟨accounts.consecutive, accepts.next, accepts.last⟩
  rcases accounts.holds.insert_last (i := i) accepts.taking accepts.fits begun accepts.last late
    nonneg consecutive.separate with
    ⟨⟨volume, backend⟩, took, alike, stopAfter, taking, kept⟩
  refine ⟨_, ?_, alike, accounts.advance rfl consecutive late kept alike stopAfter, stopAfter,
    taking⟩
  have expected : s.subject.expectedStart place = start :=
    (accounts.cursor place).trans accepts.next.symm
  rw [insert_apply accounts.healthy, if_neg (Int.not_lt.mpr nonneg),
    if_neg (not_not.mpr expected.symm), if_neg (Int.not_lt.mpr onTime), dif_pos accepts.ordered]
  exact Step.bind_of_ok (Step.onPart_of_ok took)

/-- An interval of no attribute is refused. -/
theorem insert_of_negative
    (accounts : Accounts s accepted)
    (negative : quark < 0) :
    Store.insert start stop quark value s = .error (.notFound (.quark quark)) s := by
  rw [insert_apply accounts.healthy, if_pos negative]

/-- An interval that does not follow its predecessor is refused, and the store gives up. -/
theorem insert_of_stray
    (accounts : Accounts s accepted)
    (nonneg : 0 ≤ quark)
    (stray : start ≠ followingStart s.subject.start accepted quark) :
    Store.insert start stop quark value s
      = .error (.contiguity quark (followingStart s.subject.start accepted quark) start)
        ⟨s.volume, { s.subject with corrupted := true }⟩ := by
  rw [← accounts.expectedStart nonneg] at stray ⊢
  rw [insert_apply accounts.healthy, if_neg (Int.not_lt.mpr nonneg), if_pos stray]

/-- What is not accepted for another reason changes nothing. -/
theorem insert_of_not_accepts
    (accounts : Accounts s accepted)
    (next : start = followingStart s.subject.start accepted quark)
    (nonneg : 0 ≤ quark)
    (refused : ¬ s.subject.Accepts accepted start stop quark value) :
    ∃ fault,
      Store.insert start stop quark value s = .error fault s
        ∧ ∀ quark expected actual, fault ≠ .contiguity quark expected actual := by
  have expected : s.subject.expectedStart quark = start :=
    (accounts.expectedStart nonneg).trans next.symm
  have begun : s.subject.start ≤ start := next ▸ accounts.consecutive.start_le_followingStart quark
  rw [insert_apply accounts.healthy, if_neg (Int.not_lt.mpr nonneg),
    if_neg (not_not.mpr expected.symm)]
  by_cases early : stop < s.subject.lastStop
  · rw [if_pos early]
    exact ⟨_, rfl, fun _ _ _ same => by cases same⟩
  · rw [if_neg early]
    by_cases ordered : start ≤ stop
    · have last := (accounts.lastStop_le_iff (Int.le_trans begun ordered)).mp
        (Int.not_lt.mp early)
      have unfit : ¬ (s.subject.backend.Taking ∧ ∀ capacity,
          s.subject.backend.maxIntervalSize? = some capacity →
            Interval.sizeWith value ≤ capacity) :=
        fun both => refused ⟨next, ordered, last, both.2, both.1⟩
      rcases accounts.holds.insert_refused
        (i := ⟨start, stop, quark, value, ordered⟩) unfit with ⟨fault, failed, causes⟩
      refine ⟨fault, ?_, ?_⟩
      · rw [dif_pos ordered]
        exact Step.bind_of_error (Step.onPart_of_error failed)
      · rintro quark expected actual rfl
        rcases causes with same | ⟨size, capacity, same⟩ <;> cases same
    · rw [dif_neg ordered]
      exact ⟨_, rfl, fun _ _ _ same => by cases same⟩

theorem tree_numbered
    (accounts : Accounts s accepted)
    (inRange : s.subject.InRange) :
    Tree.Numbered accepted := by
  intro i member
  have numbered := accounts.numbered i member
  have few := inRange.few
  omega

/-- A backend that holds the same, and was completed further if at all, is accounted for alike. -/
theorem withBackend
    {volume : Volume}
    {backend : Backend}
    (accounts : Accounts s accepted)
    (holds : Backend.Holds ⟨volume, backend⟩ accepted)
    (alike : s.subject.backend.Alike backend)
    (later : s.subject.stop ≤ backend.stop)
    (prompt : backend.Taking → backend.maxIntervalSize? ≠ none →
      backend.stop = s.subject.lastStop) :
    Accounts ⟨volume, { s.subject with backend }⟩ accepted := by
  have start : Store.start { s.subject with backend } = s.subject.start := alike.start
  constructor
  · exact accounts.healthy
  · exact holds
  · intro quark
    rw [start, ← accounts.cursor quark]
    show s.subject.nextStarts.getD quark backend.start = _
    rw [alike.start]
    rfl
  · rw [start]
    exact accounts.last
  · rw [start]
    exact accounts.consecutive
  · exact accounts.numbered
  · intro i member
    exact Int.le_trans (accounts.within i member) later
  · exact prompt

/-- What is asked of a healthy store in its time is asked of its backend. -/
theorem ask
    {α : Type}
    {step : Step Backend α}
    {answer : α}
    {t : Int}
    {reached : Placed Backend}
    (accounts : Accounts s accepted)
    (inside : s.subject.start ≤ t ∧ t ≤ s.subject.stop)
    (answers : step ⟨s.volume, s.subject.backend⟩ = .ok answer reached)
    (kept : Backend.Holds.Kept ⟨s.volume, s.subject.backend⟩ reached accepted) :
    ∃ after,
      (do
        let store ← Step.subject
        Step.ofExcept store.checkHealthy
        Step.ofExcept (store.checkTime t)
        onBackend step : Step Store α) s = .ok answer after
        ∧ s.subject.backend.Alike after.subject.backend
        ∧ Accounts after accepted
        ∧ after.subject.stop = s.subject.stop
        ∧ (after.subject.backend.Taking ↔ s.subject.backend.Taking) := by
  refine ⟨⟨reached.volume, { s.subject with backend := reached.subject }⟩, ?_, kept.alike, ?_,
    kept.stop, kept.taking⟩
  · rw [asks_apply accounts.healthy, if_neg (by omega)]
    exact Step.onPart_of_ok answers
  · refine accounts.withBackend kept.holds kept.alike (Int.le_of_eq kept.stop.symm) ?_
    intro taking bounded
    exact kept.stop.trans
      (accounts.prompt (kept.taking.mp taking) (kept.alike.capacity ▸ bounded))

/-- Outside its time a healthy store answers nothing. -/
theorem ask_outside
    {α : Type}
    {step : Step Backend α}
    {t : Int}
    (accounts : Accounts s accepted)
    (outside : ¬ (s.subject.start ≤ t ∧ t ≤ s.subject.stop)) :
    (do
      let store ← Step.subject
      Step.ofExcept store.checkHealthy
      Step.ofExcept (store.checkTime t)
      onBackend step : Step Store α) s
        = .error (.timeOutside t s.subject.start s.subject.stop) s := by
  rw [asks_apply accounts.healthy, if_pos (by omega)]

/-- A healthy store whose backend can keep the namespace can be completed at any time. -/
theorem finish
    {ns : Namespace}
    (accounts : Accounts s accepted)
    (accepts : s.subject.backend.Accepts ns)
    (stop : Int) :
    ∃ after,
      Store.finish stop ns s = .ok () after
        ∧ s.subject.backend.Alike after.subject.backend
        ∧ Accounts after accepted
        ∧ (s.subject.backend.Taking → after.subject.stop = max s.subject.stop stop)
        ∧ (s.subject.backend.maxIntervalSize? ≠ none → ¬ after.subject.backend.Taking)
        ∧ (¬ s.subject.backend.Taking → after = s) := by
  have finishes : ∀ {after : Placed Backend},
      Backend.finish stop ns ⟨s.volume, s.subject.backend⟩ = .ok () after →
        Store.finish stop ns s = .ok () ⟨after.volume, { s.subject with backend := after.subject }⟩ := by
    intro after done
    rw [finish_apply accounts.healthy]
    exact Step.onPart_of_ok done
  by_cases taking : s.subject.backend.Taking
  · rcases accounts.holds.finish taking stop ns with
      ⟨after, holds, alike, last, -, ⟨-, done, complete⟩ | ⟨refused, -⟩⟩
    · have later : s.subject.stop ≤ after.subject.stop := by
        rw [last]
        exact Int.le_max_left _ _
      have full : s.subject.backend.maxIntervalSize? ≠ none → ¬ after.subject.Taking := by
        intro bounded
        rcases Option.ne_none_iff_exists'.mp bounded with ⟨capacity, bound⟩
        exact complete.not_taking (alike.capacity.trans bound)
      refine ⟨_, finishes done, alike, accounts.withBackend holds alike later ?_, fun _ => last,
        full, absurd taking⟩
      intro still bounded
      exact absurd still (full (alike.capacity ▸ bounded))
    · exact absurd accepts refused
  · have done := accounts.holds.finish_again taking stop ns
    exact ⟨_, finishes done, ⟨rfl, rfl⟩, accounts, fun still => absurd still taking,
      fun _ => taking, fun _ => rfl⟩

end Accounts

/-! ## Calls -/

/-- What a store is told or asked. -/
inductive Call
  | insert (start stop quark : Int) (value : Value)
  | find (t quark : Int)
  | collect (t : Int) (slots : Tree.Slots)
  | finish (stop : Int) (ns : Namespace)

/-- What a store says to a call. -/
inductive Reply
  | taken
  | interval (found : Option Interval)
  | slots (filled : Tree.Slots)
  | completed
deriving DecidableEq

/-- Takes a call. -/
def Call.step : Call → Step Store Reply
  | insert start stop quark value => do
    Store.insert start stop quark value
    return .taken
  | find t quark => do
    return .interval (← Store.find t quark)
  | collect t slots => do
    return .slots (← Store.collect t slots)
  | finish stop ns => do
    Store.finish stop ns
    return .completed

/-- The interval that a call brings, if it has an end at or after its start. -/
def Call.brings : Call → List Interval
  | insert start stop quark value =>
    if ordered : start ≤ stop then [⟨start, stop, quark, value, ordered⟩] else []
  | find _ _ => []
  | collect _ _ => []
  | finish _ _ => []

/-- The intervals that were accepted, by what was said to the calls that brought them. -/
def accepted : List Call → List (Except Fault Reply) → List Interval
  | call :: calls, .ok _ :: replies => call.brings ++ accepted calls replies
  | _ :: calls, .error _ :: replies => accepted calls replies
  | _, _ => []

/-- Whether something was refused because it did not follow its predecessor. -/
def Strayed (replies : List (Except Fault Reply)) : Prop :=
  ∃ quark expected actual, .error (.contiguity quark expected actual) ∈ replies

/--
What a healthy store that accepted intervals says to a call.  An interval that
follows is taken, unless it comes too late or has no room, and one that does
not follow is refused with the start that was expected; an instant in the time
of the store is answered about as the intervals accepted demand.
-/
def Call.Obeyed
    (s : Placed Store)
    (accepted : List Interval) :
    Call →
    Prop
  | insert start stop quark value =>
    (quark < 0 →
      Store.insert start stop quark value s = .error (.notFound (.quark quark)) s)
      ∧ (0 ≤ quark → start ≠ followingStart s.subject.start accepted quark → ∃ after,
        Store.insert start stop quark value s
          = .error (.contiguity quark (followingStart s.subject.start accepted quark) start) after
          ∧ after.subject.corrupted = true)
      ∧ (0 ≤ quark → s.subject.Accepts accepted start stop quark value → ∃ after,
        Store.insert start stop quark value s = .ok () after)
      ∧ (0 ≤ quark → start = followingStart s.subject.start accepted quark →
        ¬ s.subject.Accepts accepted start stop quark value → ∃ fault,
          Store.insert start stop quark value s = .error fault s)
  | find t quark =>
    (s.subject.start ≤ t ∧ t ≤ s.subject.stop → ∃ found after,
        Store.find t quark s = .ok found after
          ∧ (Tree.Call.find t quark).Answered accepted (.interval found))
      ∧ (¬ (s.subject.start ≤ t ∧ t ≤ s.subject.stop) →
        Store.find t quark s = .error (.timeOutside t s.subject.start s.subject.stop) s)
  | collect t slots =>
    (s.subject.start ≤ t ∧ t ≤ s.subject.stop → ∃ filled after,
        Store.collect t slots s = .ok filled after
          ∧ (Tree.Call.collect t slots).Answered accepted (.slots filled))
      ∧ (¬ (s.subject.start ≤ t ∧ t ≤ s.subject.stop) →
        Store.collect t slots s = .error (.timeOutside t s.subject.start s.subject.stop) s)
  | finish stop ns =>
    s.subject.backend.Accepts ns → ∃ after, Store.finish stop ns s = .ok () after

/-- A healthy store obeys every call. -/
theorem Accounts.obeyed
    {s : Placed Store}
    {accepted : List Interval}
    (accounts : Accounts s accepted)
    (inRange : s.subject.InRange)
    (call : Call) :
    call.Obeyed s accepted := by
  cases call with
  | insert start stop quark value =>
      refine ⟨?_, ?_, ?_, ?_⟩
      · exact accounts.insert_of_negative
      · intro nonneg stray
        exact ⟨_, accounts.insert_of_stray nonneg stray, rfl⟩
      · intro nonneg accepts
        rcases accounts.insert nonneg accepts with ⟨after, took, -⟩
        exact ⟨after, took⟩
      · intro nonneg next refused
        rcases accounts.insert_of_not_accepts next nonneg refused with ⟨fault, failed, -⟩
        exact ⟨fault, failed⟩
  | find t quark =>
      refine ⟨?_, accounts.ask_outside⟩
      intro inside
      rcases accounts.holds.find inRange.backend (accounts.tree_numbered inRange) t quark with
        ⟨reached, found, kept⟩
      rcases accounts.ask inside found kept with ⟨after, answered, -⟩
      exact ⟨_, after, answered, Tree.answered_find accounts.holds.separate t quark⟩
  | collect t slots =>
      refine ⟨?_, accounts.ask_outside⟩
      intro inside
      rcases accounts.holds.collect inRange.backend (accounts.tree_numbered inRange) t slots with
        ⟨reached, found, kept⟩
      rcases accounts.ask inside found kept with ⟨after, answered, -⟩
      exact ⟨_, after, answered, Tree.answered_collect accounts.holds.separate t slots⟩
  | finish stop ns =>
      intro accepts
      rcases accounts.finish accepts stop with ⟨after, done, -⟩
      exact ⟨after, done⟩

/-! ## A store that gave up -/

theorem step_of_corrupted
    {s : Placed Store}
    (corrupted : s.subject.corrupted = true)
    (call : Call) :
    call.step s = .error .corrupted s := by
  have unhealthy : s.subject.checkHealthy = .error .corrupted := by
    unfold checkHealthy
    rw [corrupted]
    rfl
  cases call with
  | insert start stop quark value =>
      refine Step.bind_of_error ?_
      unfold Store.insert
      rw [Step.subject_bind_apply, unhealthy]
      rfl
  | find t quark =>
      refine Step.bind_of_error ?_
      unfold Store.find
      rw [Step.subject_bind_apply, unhealthy]
      rfl
  | collect t slots =>
      refine Step.bind_of_error ?_
      unfold Store.collect
      rw [Step.subject_bind_apply, unhealthy]
      rfl
  | finish stop ns =>
      refine Step.bind_of_error ?_
      unfold Store.finish
      rw [Step.subject_bind_apply, unhealthy]
      rfl

/-- A store that gave up refuses every call from then on. -/
theorem each_of_corrupted
    {s : Placed Store}
    (corrupted : s.subject.corrupted = true)
    (calls : List Call) :
    Step.each Call.step calls s = .ok (calls.map fun _ => .error .corrupted) s := by
  induction calls with
  | nil => rfl
  | cons call calls ih =>
      have first : (call.step).outcome s = .ok (.error .corrupted) s := by
        unfold Step.outcome
        rw [step_of_corrupted corrupted]
      exact (Step.bind_of_ok first).trans (Step.bind_of_ok ih)

theorem accepted_of_corrupted (calls : List Call) :
    accepted calls (calls.map fun _ => .error .corrupted) = [] := by
  induction calls with
  | nil => rfl
  | cons call calls ih => exact ih

/-! ## Runs -/

/--
What became of a store that was called: it is healthy and accounts for what it
accepted, or it was called with an interval that did not follow and gave up.
-/
inductive Became
    (s : Placed Store)
    (accepted : List Interval)
    (replies : List (Except Fault Reply)) : Prop
  | healthy
      (accounts : Accounts s accepted)
      (straight : ¬ Strayed replies)
  | gaveUp
      (corrupted : s.subject.corrupted = true)
      (consecutive : Consecutive s.subject.start accepted)
      (within : ∀ i ∈ accepted, i.stop ≤ s.subject.stop)
      (strayed : Strayed replies)

/-- What was accepted of some calls and then of others. -/
theorem accepted_cons
    (call : Call)
    (reply : Except Fault Reply)
    (calls : List Call)
    (replies : List (Except Fault Reply)) :
    accepted (call :: calls) (reply :: replies)
      = accepted [call] [reply] ++ accepted calls replies := by
  cases reply with
  | ok answer => simp [accepted]
  | error fault => simp [accepted]

theorem accepted_ok
    (call : Call)
    (reply : Reply) :
    accepted [call] [.ok reply] = call.brings :=
  List.append_nil _

theorem accepted_error
    (call : Call)
    (fault : Fault) :
    accepted [call] [.error fault] = [] :=
  rfl

theorem not_strayed_ok
    (reply : Reply) :
    ¬ Strayed [.ok reply] := by
  rintro ⟨quark, expected, actual, member⟩
  cases List.mem_singleton.mp member

theorem not_strayed_error
    {fault : Fault}
    (other : ∀ quark expected actual, fault ≠ .contiguity quark expected actual) :
    ¬ Strayed [.error fault] := by
  rintro ⟨quark, expected, actual, member⟩
  cases List.mem_singleton.mp member
  exact other quark expected actual rfl

theorem strayed_cons
    {reply : Except Fault Reply}
    {replies : List (Except Fault Reply)} :
    Strayed (reply :: replies) ↔ Strayed [reply] ∨ Strayed replies := by
  simp only [Strayed, List.mem_cons, List.not_mem_nil, or_false, exists_or]

namespace Accounts

variable {s : Placed Store} {taken : List Interval}

/-- A call that is refused, but not for going astray, changes nothing. -/
theorem became_of_refused
    {call : Call}
    {fault : Fault}
    (accounts : Accounts s taken)
    (refused : call.step s = .error fault s)
    (other : ∀ quark expected actual, fault ≠ .contiguity quark expected actual) :
    ∃ reply after,
      call.step.outcome s = .ok reply after
        ∧ s.subject.backend.Alike after.subject.backend
        ∧ Became after (taken ++ accepted [call] [reply]) [reply] := by
  refine ⟨.error fault, s, Step.outcome_of_ofExcept refused, ⟨rfl, rfl⟩, ?_⟩
  rw [accepted_error, List.append_nil]
  exact .healthy accounts (not_strayed_error other)

/-- A question changes nothing that is accounted for. -/
theorem became_of_asked
    {α : Type}
    {step : Step Backend α}
    {answer : α}
    {reached : Placed Backend}
    {t : Int}
    {call : Call}
    {reply : α → Reply}
    (accounts : Accounts s taken)
    (brings : call.brings = [])
    (asks : call.step = do
      let answer ← (do
        let store ← Step.subject
        Step.ofExcept store.checkHealthy
        Step.ofExcept (store.checkTime t)
        onBackend step)
      return reply answer)
    (answers : step ⟨s.volume, s.subject.backend⟩ = .ok answer reached)
    (kept : Backend.Holds.Kept ⟨s.volume, s.subject.backend⟩ reached taken) :
    ∃ reply after,
      call.step.outcome s = .ok reply after
        ∧ s.subject.backend.Alike after.subject.backend
        ∧ Became after (taken ++ accepted [call] [reply]) [reply] := by
  by_cases inside : s.subject.start ≤ t ∧ t ≤ s.subject.stop
  · rcases accounts.ask inside answers kept with ⟨after, answered, alike, accountsAfter, -⟩
    have replies : call.step s = .ok (reply answer) after := by
      rw [asks]
      exact Step.bind_of_ok answered
    refine ⟨.ok (reply answer), after, Step.outcome_of_ofExcept replies, alike, ?_⟩
    rw [accepted_ok, brings, List.append_nil]
    exact .healthy accountsAfter (not_strayed_ok _)
  · have refused : call.step s = .error (.timeOutside t s.subject.start s.subject.stop) s := by
      rw [asks]
      exact Step.bind_of_error (accounts.ask_outside inside)
    exact accounts.became_of_refused refused fun _ _ _ same => by cases same

/-- An interval brought to a healthy store is accounted for, changes nothing, or makes it give up. -/
theorem became_of_insert
    (accounts : Accounts s taken)
    (start stop quark : Int)
    (value : Value) :
    ∃ reply after,
      (Call.insert start stop quark value).step.outcome s = .ok reply after
        ∧ s.subject.backend.Alike after.subject.backend
        ∧ Became after
          (taken ++ accepted [.insert start stop quark value] [reply]) [reply] := by
  by_cases negative : quark < 0
  · exact accounts.became_of_refused (Step.bind_of_error (accounts.insert_of_negative negative))
      fun _ _ _ same => by cases same
  have nonneg : 0 ≤ quark := Int.not_lt.mp negative
  by_cases next : start = followingStart s.subject.start taken quark
  · by_cases accepts : s.subject.Accepts taken start stop quark value
    · rcases accounts.insert nonneg accepts with ⟨after, took, alike, kept, -⟩
      have replies : (Call.insert start stop quark value).step s = .ok .taken after :=
        Step.bind_of_ok took
      refine ⟨.ok .taken, after, Step.outcome_of_ofExcept replies, alike, ?_⟩
      have brings : (Call.insert start stop quark value).brings
          = [⟨start, stop, quark, value, accepts.ordered⟩] :=
        dif_pos accepts.ordered
      rw [accepted_ok, brings]
      exact .healthy kept (not_strayed_ok _)
    · rcases accounts.insert_of_not_accepts next nonneg accepts with ⟨fault, failed, other⟩
      exact accounts.became_of_refused (Step.bind_of_error failed) other
  · have failed : (Call.insert start stop quark value).step s = _ :=
      Step.bind_of_error (accounts.insert_of_stray nonneg next)
    refine ⟨.error _, _, Step.outcome_of_ofExcept failed, ⟨rfl, rfl⟩, ?_⟩
    rw [accepted_error, List.append_nil]
    exact .gaveUp rfl accounts.consecutive accounts.within
      ⟨_, _, _, List.mem_singleton_self _⟩

/-- One call of a healthy store. -/
theorem became
    (accounts : Accounts s taken)
    (inRange : s.subject.InRange)
    (call : Call)
    (storable : ∀ stop ns, call = .finish stop ns → s.subject.backend.Accepts ns) :
    ∃ reply after,
      call.step.outcome s = .ok reply after
        ∧ s.subject.backend.Alike after.subject.backend
        ∧ Became after (taken ++ accepted [call] [reply]) [reply] := by
  cases call with
  | insert start stop quark value =>
      exact accounts.became_of_insert start stop quark value
  | find t quark =>
      rcases accounts.holds.find inRange.backend (accounts.tree_numbered inRange) t quark with
        ⟨reached, found, kept⟩
      exact accounts.became_of_asked rfl rfl found kept
  | collect t slots =>
      rcases accounts.holds.collect inRange.backend (accounts.tree_numbered inRange) t slots with
        ⟨reached, found, kept⟩
      exact accounts.became_of_asked rfl rfl found kept
  | finish stop ns =>
      rcases accounts.finish (storable stop ns rfl) stop with ⟨after, done, alike, kept, -⟩
      have replies : (Call.finish stop ns).step s = .ok .completed after := Step.bind_of_ok done
      refine ⟨.ok .completed, after, Step.outcome_of_ofExcept replies, alike, ?_⟩
      have brings : (Call.finish stop ns).brings = [] := rfl
      rw [accepted_ok, brings, List.append_nil]
      exact .healthy kept (not_strayed_ok _)

/-- Any calls of a healthy store. -/
theorem run
    {calls : List Call}
    (accounts : Accounts s taken)
    (storable : ∀ stop ns, Call.finish stop ns ∈ calls → s.subject.backend.Accepts ns)
    (inRange : ∀ before, before <+: calls →
      ((Step.each Call.step before).reached s).subject.InRange) :
    ∃ replies reached,
      Step.each Call.step calls s = .ok replies reached
        ∧ s.subject.start = reached.subject.start
        ∧ Became reached (taken ++ accepted calls replies) replies := by
  induction calls generalizing s taken with
  | nil =>
      refine ⟨[], s, rfl, rfl, ?_⟩
      have nothing : accepted [] [] = [] := rfl
      rw [nothing, List.append_nil]
      exact .healthy accounts fun ⟨_, _, _, member⟩ => List.not_mem_nil member
  | cons call calls ih =>
      rcases Step.prefixes_cons (fun r : Placed Store => r.subject.InRange) inRange with
        ⟨now, later⟩
      rcases accounts.became now call
        (fun stop ns same => storable stop ns (same ▸ List.mem_cons_self)) with
        ⟨reply, after, first, alike, became⟩
      have firstReached : call.step.reached s = after := by
        rcases Step.outcome_apply call.step s with ⟨told, outcome⟩
        rw [outcome] at first
        cases first
        rfl
      rw [firstReached] at later
      cases became with
      | healthy accountsAfter straight =>
          rcases ih accountsAfter
            (fun stop ns member => (alike.accepts_iff ns).mpr
              (storable stop ns (List.mem_cons_of_mem _ member))) later with
            ⟨replies, reached, rest, start, became⟩
          refine ⟨reply :: replies, reached, (Step.bind_of_ok first).trans (Step.bind_of_ok rest),
            alike.start.symm.trans start, ?_⟩
          rw [accepted_cons, ← List.append_assoc]
          cases became with
          | healthy accountsLast straightLast =>
              refine .healthy accountsLast ?_
              rw [strayed_cons, not_or]
              exact ⟨straight, straightLast⟩
          | gaveUp corrupted consecutive within strayed =>
              exact .gaveUp corrupted consecutive within (strayed_cons.mpr (Or.inr strayed))
      | gaveUp corrupted consecutive within strayed =>
          have rest := each_of_corrupted corrupted calls
          refine ⟨_, after, (Step.bind_of_ok first).trans (Step.bind_of_ok rest),
            alike.start.symm, ?_⟩
          rw [accepted_cons, accepted_of_corrupted, List.append_nil]
          exact .gaveUp corrupted consecutive within (strayed_cons.mpr (Or.inl strayed))

end Accounts

/-! ## New stores -/

/-- A store over a new backend has accepted nothing. -/
theorem accounts_ofBackend
    {plan : Backend.Plan}
    {start : Int}
    {volume made : Volume}
    {backend : Backend}
    (sound : volume.Sound)
    (created : Backend.create plan start volume = .ok (made, backend)) :
    Accounts ⟨made, .ofBackend backend⟩ [] := by
  rcases Backend.holds_of_create sound created with ⟨holds, begins, stop, -, -⟩
  constructor
  · rfl
  · exact holds
  · exact fun _ => rfl
  · rfl
  · exact consecutive_nil _
  · exact fun _ member => absurd member List.not_mem_nil
  · exact fun _ member => absurd member List.not_mem_nil
  · exact fun _ _ => stop.trans begins.symm

/--
A new store keeps its promise whatever it is told or asked.  It answers every
call; what it accepted is consecutive from the start of the history on and
within its time.  It gave up if and only if something strayed.  As long as it
has not, it obeys every further call, and once it has, it refuses every further
call.
-/
theorem obeyed_of_created
    {plan : Backend.Plan}
    {start : Int}
    {volume made : Volume}
    {backend : Backend}
    {calls : List Call}
    (sound : volume.Sound)
    (created : Backend.create plan start volume = .ok (made, backend))
    (storable : plan = .memory ∨ ∀ stop ns, Call.finish stop ns ∈ calls → ns.Storable)
    (inRange : ∀ before, before <+: calls →
      ((Step.each Call.step before).reached ⟨made, .ofBackend backend⟩).subject.InRange) :
    ∃ replies reached,
      Step.each Call.step calls ⟨made, .ofBackend backend⟩ = .ok replies reached
        ∧ reached.subject.start = start
        ∧ Consecutive start (accepted calls replies)
        ∧ (∀ i ∈ accepted calls replies, i.stop ≤ reached.subject.stop)
        ∧ (reached.subject.corrupted = true ↔ Strayed replies)
        ∧ (reached.subject.corrupted = false →
          ∀ call : Call, call.Obeyed reached (accepted calls replies))
        ∧ (reached.subject.corrupted = true → ∀ later : List Call,
          Step.each Call.step later reached = .ok (later.map fun _ => .error .corrupted) reached) := by
  rcases Backend.holds_of_create sound created with ⟨-, begins, -, -, capacity⟩
  have accepts : ∀ stop ns, Call.finish stop ns ∈ calls → backend.Accepts ns := by
    intro stop ns member
    exact (Backend.accepts_iff_of_plan capacity).mpr (storable.imp id fun all => all stop ns member)
  rcases (accounts_ofBackend sound created).run accepts inRange with
    ⟨replies, reached, ran, sameStart, became⟩
  have startReached : reached.subject.start = start := sameStart.symm.trans begins
  have inRangeReached : reached.subject.InRange := by
    have last := inRange calls (List.prefix_refl calls)
    rwa [Step.reached_of_ok ran] at last
  rw [List.nil_append] at became
  refine ⟨replies, reached, ran, startReached, ?_⟩
  cases became with
  | healthy accounts straight =>
      have healthy := accounts.healthy
      refine ⟨startReached ▸ accounts.consecutive, accounts.within, ?_,
        fun _ => accounts.obeyed inRangeReached,
        fun corrupted => absurd corrupted (ne_true_of_eq_false healthy)⟩
      exact ⟨fun corrupted => absurd corrupted (ne_true_of_eq_false healthy),
        fun strayed => absurd strayed straight⟩
  | gaveUp corrupted consecutive within strayed =>
      exact ⟨startReached ▸ consecutive, within, ⟨fun _ => strayed, fun _ => corrupted⟩,
        fun healthy => absurd corrupted (ne_true_of_eq_false healthy),
        fun _ => each_of_corrupted corrupted⟩

/-- Calls of which some are refused, and of which the last strays after the completion. -/
def mishaps : List Call :=
  [.insert 0 4 1 .null,
    .insert 5 6 1 (.int 7),
    .insert 0 5 0 .null,
    .insert 5 2 1 .null,
    .insert 0 9 (-1) .null,
    .insert 5 9 1 .null,
    .find 5 1,
    .collect 4 #[none, none],
    .find 11 0,
    .finish 12 .empty,
    .insert 8 14 1 .null]

theorem inRange_mishaps :
    ∃ made backend,
      Backend.create (.file "mishaps" Tree.narrow) 0 .empty = .ok (made, backend)
        ∧ ∀ before ∈ mishaps.inits,
          ((Step.each Call.step before).reached ⟨made, .ofBackend backend⟩).subject.InRange :=
  ⟨_, _, rfl, by decide +kernel⟩

theorem obeyed_of_mishaps :
    ∃ made backend replies reached,
      Backend.create (.file "mishaps" Tree.narrow) 0 .empty = .ok (made, backend)
        ∧ Step.each Call.step mishaps ⟨made, .ofBackend backend⟩ = .ok replies reached
        ∧ reached.subject.start = 0
        ∧ Consecutive 0 (accepted mishaps replies)
        ∧ (∀ i ∈ accepted mishaps replies, i.stop ≤ reached.subject.stop)
        ∧ (reached.subject.corrupted = true ↔ Strayed replies)
        ∧ (reached.subject.corrupted = false →
          ∀ call : Call, call.Obeyed reached (accepted mishaps replies))
        ∧ (reached.subject.corrupted = true → ∀ later : List Call,
          Step.each Call.step later reached
            = .ok (later.map fun _ => .error .corrupted) reached) := by
  rcases inRange_mishaps with ⟨made, backend, created, inRange⟩
  have storable : ∀ stop ns, Call.finish stop ns ∈ mishaps → ns.Storable := by
    intro stop ns member
    simp only [mishaps, List.mem_cons, List.not_mem_nil, Call.finish.injEq, reduceCtorEq, or_false,
      false_or] at member
    rw [member.2]
    decide
  rcases obeyed_of_created (by decide) created (Or.inr storable)
    (fun before begins => inRange before ((List.mem_inits before mishaps).mpr begins)) with
    ⟨replies, reached, rest⟩
  exact ⟨made, backend, replies, reached, created, rest⟩

end Chronicle.Store
