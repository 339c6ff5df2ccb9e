import Chronicle.Proofs.Matching
import Chronicle.Proofs.Store

/-!
# Stores over different backends

A store over a memory and a store over a file are told and asked the same: to
take intervals, to find them, to complete the history, where it ends, and to
give it up, in any order and as often as one likes.  They say the same to all
of it, with one exception.  A file that was completed keeps its end and takes
no more intervals, while a memory goes on as if nothing had happened.
-/

namespace Chronicle

namespace Backend

/-! ## Backends that were given up -/

/-- Whether a memory or a file was given up. -/
def Gone : Backend → Prop
  | memory m => m.disposed = true
  | stored b => b.disposed = true
  | unreliable _ => False

/-- What holds intervals does so no more once it is given up. -/
theorem Holds.gone
    {s reached : Placed Backend}
    {taken : List Interval}
    (holds : Holds s taken)
    (gives : dispose s = .ok () reached) :
    reached.subject.Gone := by
  rcases s with ⟨volume, backend⟩
  cases backend with
  | memory m =>
      cases gives
      rfl
  | stored b =>
      rw [dispose_stored holds.1] at gives
      cases gives
      rfl
  | unreliable u => exact holds.elim

theorem checkAlive_of_gone
    {m : Memory}
    (gone : m.disposed = true) :
    m.checkAlive = .error .disposed := by
  unfold Memory.checkAlive
  rw [gone]
  rfl

namespace Gone

variable {s : Placed Backend}

theorem insert
    (gone : s.subject.Gone)
    (i : Interval) :
    Backend.insert i s = .error .disposed s := by
  rcases s with ⟨volume, backend⟩
  cases backend with
  | memory m =>
      have refuses : m.insert i = .error .disposed := by
        unfold Memory.insert
        rw [checkAlive_of_gone gone]
        rfl
      simp only [Backend.insert, Step.subject_bind_apply, refuses]
      rfl
  | stored b => exact onTree_of_gone gone _ _
  | unreliable u => exact gone.elim

theorem find
    (gone : s.subject.Gone)
    (t quark : Int) :
    Backend.find t quark s = .error .disposed s := by
  rcases s with ⟨volume, backend⟩
  cases backend with
  | memory m =>
      have refuses : m.find t quark = .error .disposed := by
        unfold Memory.find
        rw [checkAlive_of_gone gone]
        rfl
      simp only [Backend.find, Step.subject_bind_apply, refuses]
      rfl
  | stored b => exact onTree_of_gone gone _ _
  | unreliable u => exact gone.elim

theorem collect
    (gone : s.subject.Gone)
    (t : Int)
    (slots : Tree.Slots) :
    Backend.collect t slots s = .error .disposed s := by
  rcases s with ⟨volume, backend⟩
  cases backend with
  | memory m =>
      have refuses : m.collect t slots = .error .disposed := by
        unfold Memory.collect
        rw [checkAlive_of_gone gone]
        rfl
      simp only [Backend.collect, Step.subject_bind_apply, refuses]
      rfl
  | stored b => exact onTree_of_gone gone _ _
  | unreliable u => exact gone.elim

theorem finish
    (gone : s.subject.Gone)
    (stop : Int)
    (ns : Namespace) :
    Backend.finish stop ns s = .error .disposed s := by
  rcases s with ⟨volume, backend⟩
  cases backend with
  | memory m =>
      have refuses : m.finish stop = .error .disposed := by
        unfold Memory.finish
        rw [checkAlive_of_gone gone]
        rfl
      simp only [Backend.finish, Step.subject_bind_apply, refuses]
      rfl
  | stored b => exact onTree_of_gone gone _ _
  | unreliable u => exact gone.elim

/-- What was given up can be given up again. -/
theorem dispose
    {reached : Placed Backend}
    (gone : s.subject.Gone)
    (gives : Backend.dispose s = .ok () reached) :
    reached.subject.Gone := by
  rcases s with ⟨volume, backend⟩
  cases backend with
  | memory m =>
      cases gives
      rfl
  | stored b =>
      unfold Backend.dispose at gives
      rw [Step.subject_bind_apply] at gives
      simp only [show b.disposed = true from gone] at gives
      cases gives
      exact gone
  | unreliable u => exact gone.elim

end Gone

end Backend

namespace Store

open Chronicle.Interval

/-! ## Requests -/

/-- What a store is told or asked, its end and its abandonment among it. -/
inductive Request
  | call (call : Call)
  | bound
  | dispose

/-- What a store says to a request. -/
inductive Response
  | told (reply : Reply)
  | bound (t : Int)
  | disposed
deriving DecidableEq

/-- Takes a request. -/
def Request.step : Request → Step Store Response
  | call c => do
    return .told (← c.step)
  | bound => do
    return .bound (← Step.subject).stop
  | dispose => do
    Store.dispose
    return .disposed

/-- Whether a store does as it is told. -/
def Request.accepted
    (s : Placed Store)
    (request : Request) :
    Bool :=
  match request.step s with
  | .ok _ _ => true
  | .error _ _ => false

/-- Whether a request completes the history of a store. -/
def Request.completes
    (s : Placed Store) :
    Request →
    Bool
  | call (.finish stop ns) => (call (.finish stop ns)).accepted s
  | call (.insert _ _ _ _) => false
  | call (.find _ _) => false
  | call (.collect _ _) => false
  | bound => false
  | dispose => false

/-- A request that would change a completed history: an interval that is taken, or a later end. -/
def Request.Belated
    (s : Placed Store) :
    Request →
    Prop
  | call (.insert start stop quark value) =>
    (call (.insert start stop quark value)).accepted s = true
  | call (.finish stop ns) =>
    (call (.finish stop ns)).accepted s = true ∧ s.subject.stop < stop
  | call (.find _ _) => False
  | call (.collect _ _) => False
  | bound => False
  | dispose => False

instance
    (s : Placed Store)
    (request : Request) :
    Decidable (request.Belated s) :=
  match request with
  | .call (.insert start stop quark value) =>
    inferInstanceAs (Decidable ((Request.call (.insert start stop quark value)).accepted s = true))
  | .call (.finish stop ns) =>
    inferInstanceAs
      (Decidable ((Request.call (.finish stop ns)).accepted s = true ∧ s.subject.stop < stop))
  | .call (.find _ _) => inferInstanceAs (Decidable False)
  | .call (.collect _ _) => inferInstanceAs (Decidable False)
  | .bound => inferInstanceAs (Decidable False)
  | .dispose => inferInstanceAs (Decidable False)

/-- Requests to a store none of which changes the history after its completion. -/
def Timely
    (s : Placed Store)
    (completed : Bool) :
    List Request →
    Prop
  | [] => True
  | request :: requests =>
    (completed = true → ¬ request.Belated s)
      ∧ Timely (request.step.reached s) (request.completes s || completed) requests

instance decidableTimely
    (s : Placed Store)
    (completed : Bool) :
    (requests : List Request) →
    Decidable (Timely s completed requests)
  | [] => inferInstanceAs (Decidable True)
  | request :: requests =>
    have := decidableTimely (request.step.reached s) (request.completes s || completed) requests
    inferInstanceAs (Decidable ((completed = true → ¬ request.Belated s) ∧ _))

/-! ## Stores that are alike -/

/-- Two stores that look the same from outside. -/
structure SameFront (store other : Store) : Prop where
  start : other.start = store.start
  stop : other.stop = store.stop
  last : other.lastStop = store.lastStop
  cursor : ∀ quark : Nat, other.expectedStart quark = store.expectedStart quark

theorem SameFront.expectedStart
    {store other : Store}
    (front : SameFront store other)
    (quark : Int) :
    other.expectedStart quark = store.expectedStart quark := by
  have same := front.cursor quark.toNat
  unfold Store.expectedStart at same ⊢
  rwa [Int.toNat_natCast] at same

/--
Two stores, one over a memory and one over a file, that accepted the same.  The
file takes no more if and only if the history was completed.
-/
structure Live
    (capacity : Nat)
    (completed : Bool)
    (s s' : Placed Store)
    (accepted : List Interval) : Prop where
  accounts : Accounts s accepted
  accounts' : Accounts s' accepted
  unbounded : s.subject.backend.maxIntervalSize? = none
  bounded : s'.subject.backend.maxIntervalSize? = some capacity
  start : s'.subject.start = s.subject.start
  stop : s'.subject.stop = s.subject.stop
  taking : s'.subject.backend.Taking ↔ completed = false

/-- Two stores that look the same and whose backends were given up. -/
structure Ended (s s' : Placed Store) : Prop where
  healthy : s.subject.corrupted = false
  healthy' : s'.subject.corrupted = false
  gone : s.subject.backend.Gone
  gone' : s'.subject.backend.Gone
  front : SameFront s.subject s'.subject

/-- Two stores that gave up, with the same bounds. -/
structure Lost (s s' : Placed Store) : Prop where
  corrupted : s.subject.corrupted = true
  corrupted' : s'.subject.corrupted = true
  start : s'.subject.start = s.subject.start
  stop : s'.subject.stop = s.subject.stop

/-- Two stores, one over a memory and one over a file, that were told the same. -/
inductive Abreast
    (capacity : Nat)
    (completed : Bool)
    (s s' : Placed Store) : Prop
  | live
      (accepted : List Interval)
      (live : Live capacity completed s s' accepted)
  | ended
      (ended : Ended s s')
  | lost
      (lost : Lost s s')

section

variable {capacity : Nat} {completed : Bool} {s s' : Placed Store} {accepted : List Interval}

/-- Stores that accepted the same and have the same bounds look the same. -/
theorem Live.front
    (live : Live capacity completed s s' accepted) :
    SameFront s.subject s'.subject where
  start := live.start
  stop := live.stop
  last := by rw [live.accounts.last, live.accounts'.last, live.start]
  cursor quark := by rw [live.accounts.cursor, live.accounts'.cursor, live.start]

theorem Abreast.bounds
    (abreast : Abreast capacity completed s s') :
    s'.subject.start = s.subject.start ∧ s'.subject.stop = s.subject.stop := by
  cases abreast with
  | live accepted live => exact ⟨live.start, live.stop⟩
  | ended ended => exact ⟨ended.front.start, ended.front.stop⟩
  | lost lost => exact ⟨lost.start, lost.stop⟩

/-! ## Insertions -/

/--
What stores that look the same make of an interval on their own they make of it
alike: only what they pass on to their backends is left to be compared.
-/
theorem SameFront.insert
    {start stop quark : Int}
    {value : Value}
    (front : SameFront s.subject s'.subject)
    (healthy : s.subject.corrupted = false)
    (healthy' : s'.subject.corrupted = false)
    (still : Abreast capacity completed s s')
    (passed : 0 ≤ quark → start = s.subject.expectedStart quark → s.subject.lastStop ≤ stop →
      start ≤ stop →
        Step.Matched (Abreast capacity completed) (Store.insert start stop quark value s)
          (Store.insert start stop quark value s')) :
    Step.Matched (Abreast capacity completed) (Store.insert start stop quark value s)
      (Store.insert start stop quark value s') := by
  by_cases passes : 0 ≤ quark ∧ start = s.subject.expectedStart quark
      ∧ s.subject.lastStop ≤ stop ∧ start ≤ stop
  · exact passed passes.1 passes.2.1 passes.2.2.1 passes.2.2.2
  rw [insert_apply healthy, insert_apply healthy', front.expectedStart, front.last]
  by_cases negative : quark < 0
  · rw [if_pos negative, if_pos negative]
    exact .error _ still
  rw [if_neg negative, if_neg negative]
  by_cases stray : start ≠ s.subject.expectedStart quark
  · rw [if_pos stray, if_pos stray]
    exact .error _ (.lost ⟨rfl, rfl, front.start, front.stop⟩)
  rw [if_neg stray, if_neg stray]
  by_cases early : stop < s.subject.lastStop
  · rw [if_pos early, if_pos early]
    exact .error _ still
  rw [if_neg early, if_neg early]
  have reversed : ¬ start ≤ stop := fun ordered =>
    passes ⟨Int.not_lt.mp negative, not_not.mp stray, Int.not_lt.mp early, ordered⟩
  rw [dif_neg reversed, dif_neg reversed]
  exact .error _ still

/-- An interval is taken by both, or refused by both, unless it comes after the completion. -/
theorem Live.insert
    {start stop quark : Int}
    {value : Value}
    (live : Live capacity completed s s' accepted)
    (small : Interval.sizeWith value ≤ capacity)
    (timely : completed = true →
      ¬ ∃ after, Store.insert start stop quark value s = .ok () after) :
    Step.Matched (Abreast capacity completed) (Store.insert start stop quark value s)
      (Store.insert start stop quark value s') := by
  refine live.front.insert live.accounts.healthy live.accounts'.healthy (.live _ live) ?_
  intro nonneg next last ordered
  have follows : start = followingStart s.subject.start accepted quark :=
    next.trans (live.accounts.expectedStart nonneg)
  have begun : s.subject.start ≤ start :=
    follows ▸ live.accounts.consecutive.start_le_followingStart quark
  have later := (live.accounts.lastStop_le_iff (Int.le_trans begun ordered)).mp last
  have accepts : s.subject.Accepts accepted start stop quark value := by
    refine ⟨follows, ordered, later, ?_, Backend.taking_of_unbounded live.unbounded⟩
    intro other bound
    cases live.unbounded.symm.trans bound
  rcases live.accounts.insert nonneg accepts with ⟨after, took, alike, kept, stopAfter, -⟩
  have unfinished : completed = false :=
    eq_false_of_ne_true fun done => timely done ⟨after, took⟩
  have accepts' : s'.subject.Accepts accepted start stop quark value := by
    refine ⟨live.start.symm ▸ follows, ordered, later, ?_, live.taking.mpr unfinished⟩
    intro other bound
    cases live.bounded.symm.trans bound
    exact small
  rcases live.accounts'.insert nonneg accepts' with
    ⟨after', took', alike', kept', stopAfter', taking⟩
  rw [took, took']
  refine .ok () (.live (accepted ++ [⟨start, stop, quark, value, ordered⟩]) ?_)
  constructor
  · exact kept
  · exact kept'
  · exact alike.capacity.trans live.unbounded
  · exact alike'.capacity.trans live.bounded
  · exact alike'.start.trans (live.start.trans alike.start.symm)
  · rw [stopAfter', stopAfter, live.stop]
  · exact ⟨fun _ => unfinished, fun _ => taking⟩

/-- What passes the store goes to a backend that was given up. -/
theorem insert_of_gone
    {start stop quark : Int}
    {value : Value}
    (healthy : s.subject.corrupted = false)
    (gone : s.subject.backend.Gone)
    (nonneg : 0 ≤ quark)
    (next : start = s.subject.expectedStart quark)
    (last : s.subject.lastStop ≤ stop)
    (ordered : start ≤ stop) :
    Store.insert start stop quark value s = .error .disposed s := by
  rw [insert_apply healthy, if_neg (Int.not_lt.mpr nonneg), if_neg (not_not.mpr next),
    if_neg (Int.not_lt.mpr last), dif_pos ordered]
  have refuses := Backend.Gone.insert (s := ⟨s.volume, s.subject.backend⟩) gone
    ⟨start, stop, quark, value, ordered⟩
  exact Step.bind_of_error (Step.onPart_of_error refuses)

theorem Ended.insert
    {start stop quark : Int}
    {value : Value}
    (ended : Ended s s') :
    Step.Matched (Abreast capacity completed) (Store.insert start stop quark value s)
      (Store.insert start stop quark value s') := by
  refine ended.front.insert ended.healthy ended.healthy' (.ended ended) ?_
  intro nonneg next last ordered
  rw [insert_of_gone ended.healthy ended.gone nonneg next last ordered,
    insert_of_gone ended.healthy' ended.gone' nonneg
      (next.trans (ended.front.expectedStart quark).symm) (ended.front.last ▸ last) ordered]
  exact .error _ (.ended ended)

/-! ## Questions -/

/-- What both backends answer, both stores answer. -/
theorem Live.asks
    {α : Type}
    {step : Step Backend α}
    {answer : α}
    (live : Live capacity completed s s' accepted)
    (answers : ∀ {r : Placed Backend}, Backend.Holds r accepted → r.subject.InRange →
      ∃ reached, step r = .ok answer reached ∧ Backend.Holds.Kept r reached accepted)
    (inRange : s'.subject.backend.InRange)
    (t : Int) :
    Step.Matched (Abreast capacity completed)
      ((do
        let store ← Step.subject
        Step.ofExcept store.checkHealthy
        Step.ofExcept (store.checkTime t)
        onBackend step : Step Store α) s)
      ((do
        let store ← Step.subject
        Step.ofExcept store.checkHealthy
        Step.ofExcept (store.checkTime t)
        onBackend step : Step Store α) s') := by
  by_cases inside : s.subject.start ≤ t ∧ t ≤ s.subject.stop
  · have inside' : s'.subject.start ≤ t ∧ t ≤ s'.subject.stop := by
      rwa [live.start, live.stop]
    rcases answers live.accounts.holds (Backend.inRange_of_unbounded live.unbounded) with
      ⟨reached, told, kept⟩
    rcases answers live.accounts'.holds inRange with ⟨reached', told', kept'⟩
    rcases live.accounts.ask inside told kept with
      ⟨after, answered, alike, accounts, stop, -⟩
    rcases live.accounts'.ask inside' told' kept' with
      ⟨after', answered', alike', accounts', stop', taking⟩
    rw [answered, answered']
    refine .ok answer (.live accepted ?_)
    constructor
    · exact accounts
    · exact accounts'
    · exact alike.capacity.trans live.unbounded
    · exact alike'.capacity.trans live.bounded
    · exact alike'.start.trans (live.start.trans alike.start.symm)
    · rw [stop', stop, live.stop]
    · exact taking.trans live.taking
  · have outside' : ¬ (s'.subject.start ≤ t ∧ t ≤ s'.subject.stop) := by
      rwa [live.start, live.stop]
    rw [live.accounts.ask_outside inside, live.accounts'.ask_outside outside', live.start,
      live.stop]
    exact .error _ (.live accepted live)

/-- What no backend that was given up answers, no store over one answers. -/
theorem Ended.asks
    {α : Type}
    {step : Step Backend α}
    (ended : Ended s s')
    (refuses : ∀ {r : Placed Backend}, r.subject.Gone → step r = .error .disposed r)
    (t : Int) :
    Step.Matched (Abreast capacity completed)
      ((do
        let store ← Step.subject
        Step.ofExcept store.checkHealthy
        Step.ofExcept (store.checkTime t)
        onBackend step : Step Store α) s)
      ((do
        let store ← Step.subject
        Step.ofExcept store.checkHealthy
        Step.ofExcept (store.checkTime t)
        onBackend step : Step Store α) s') := by
  rw [asks_apply ended.healthy, asks_apply ended.healthy', ended.front.start, ended.front.stop]
  by_cases outside : t < s.subject.start ∨ s.subject.stop < t
  · rw [if_pos outside, if_pos outside]
    exact .error _ (.ended ended)
  · rw [if_neg outside, if_neg outside]
    have refused : onBackend step s = .error .disposed s :=
      Step.onPart_of_error (refuses (r := ⟨s.volume, s.subject.backend⟩) ended.gone)
    have refused' : onBackend step s' = .error .disposed s' :=
      Step.onPart_of_error (refuses (r := ⟨s'.volume, s'.subject.backend⟩) ended.gone')
    rw [refused, refused']
    exact .error _ (.ended ended)

/-! ## Completion and abandonment -/

/-- A history is completed by both, and again by both unless the end is later. -/
theorem Live.finish
    {stop : Int}
    {ns : Namespace}
    (live : Live capacity completed s s' accepted)
    (storable : ns.Storable)
    (timely : completed = true → stop ≤ s.subject.stop) :
    ∃ after after',
      Store.finish stop ns s = .ok () after
        ∧ Store.finish stop ns s' = .ok () after'
        ∧ Live capacity true after after' accepted := by
  have accepts : s.subject.backend.Accepts ns := Backend.accepts_iff.mpr (Or.inl live.unbounded)
  have accepts' : s'.subject.backend.Accepts ns := Backend.accepts_iff.mpr (Or.inr storable)
  have bounded : s'.subject.backend.maxIntervalSize? ≠ none := by
    rw [live.bounded]
    exact Option.some_ne_none _
  rcases live.accounts.finish accepts stop with ⟨after, done, alike, accounts, last, -, -⟩
  rcases live.accounts'.finish accepts' stop with
    ⟨after', done', alike', accounts', last', full, stays⟩
  refine ⟨after, after', done, done', ?_⟩
  have stopAfter := last (Backend.taking_of_unbounded live.unbounded)
  constructor
  · exact accounts
  · exact accounts'
  · exact alike.capacity.trans live.unbounded
  · exact alike'.capacity.trans live.bounded
  · exact alike'.start.trans (live.start.trans alike.start.symm)
  · cases completed with
    | false => rw [stopAfter, last' (live.taking.mpr rfl), live.stop]
    | true =>
        have again : ¬ s'.subject.backend.Taking :=
          fun taking => Bool.noConfusion (live.taking.mp taking)
        rw [stays again, stopAfter, Int.max_eq_left (timely rfl), live.stop]
  · exact ⟨fun taking => absurd taking (full bounded), Bool.noConfusion⟩

theorem finish_of_gone
    {stop : Int}
    {ns : Namespace}
    (healthy : s.subject.corrupted = false)
    (gone : s.subject.backend.Gone) :
    Store.finish stop ns s = .error .disposed s := by
  rw [finish_apply healthy]
  exact Step.onPart_of_error
    (Backend.Gone.finish (s := ⟨s.volume, s.subject.backend⟩) gone stop ns)

/-- Giving a store up never fails and leaves its bounds. -/
theorem exists_dispose
    (s : Placed Store) :
    ∃ volume backend,
      Backend.dispose ⟨s.volume, s.subject.backend⟩ = .ok () ⟨volume, backend⟩
        ∧ Store.dispose s = .ok () ⟨volume, { s.subject with backend }⟩
        ∧ backend.start = s.subject.start
        ∧ backend.stop = s.subject.stop := by
  rcases Backend.exists_dispose ⟨s.volume, s.subject.backend⟩ with
    ⟨⟨volume, backend⟩, gives, alike, stop, -⟩
  refine ⟨volume, backend, gives, ?_, alike.start, stop⟩
  show onBackend Backend.dispose s = _
  exact Step.onPart_of_ok gives

/-- Stores are given up alike. -/
theorem Abreast.dispose
    (abreast : Abreast capacity completed s s') :
    Step.Matched (Abreast capacity completed) (Store.dispose s) (Store.dispose s') := by
  rcases exists_dispose s with ⟨volume, backend, gives, done, start, stop⟩
  rcases exists_dispose s' with ⟨volume', backend', gives', done', start', stop'⟩
  rcases abreast.bounds with ⟨sameStart, sameStop⟩
  have starts : backend'.start = backend.start := start'.trans (sameStart.trans start.symm)
  have stops : backend'.stop = backend.stop := stop'.trans (sameStop.trans stop.symm)
  rw [done, done']
  refine .ok () ?_
  have front : ∀ (_ : SameFront s.subject s'.subject),
      SameFront { s.subject with backend } { s'.subject with backend := backend' } := by
    intro front
    refine ⟨starts, stops, front.last, fun quark => ?_⟩
    show s'.subject.nextStarts.getD quark backend'.start
      = s.subject.nextStarts.getD quark backend.start
    rw [starts, start, ← front.start]
    exact (front.cursor quark).trans (front.start ▸ rfl)
  cases abreast with
  | live accepted live =>
      exact .ended ⟨live.accounts.healthy, live.accounts'.healthy, live.accounts.holds.gone gives,
        live.accounts'.holds.gone gives', front live.front⟩
  | ended ended =>
      exact .ended ⟨ended.healthy, ended.healthy',
        Backend.Gone.dispose (s := ⟨s.volume, s.subject.backend⟩) ended.gone gives,
        Backend.Gone.dispose (s := ⟨s'.volume, s'.subject.backend⟩) ended.gone' gives',
        front ended.front⟩
  | lost lost => exact .lost ⟨lost.corrupted, lost.corrupted', starts, stops⟩

/-! ## Runs -/

/-- A request that has room in a file. -/
def Request.Fits (capacity : Nat) : Request → Prop
  | call (.insert _ _ _ value) => Interval.sizeWith value ≤ capacity
  | call (.finish _ ns) => ns.Storable
  | call (.find _ _) => True
  | call (.collect _ _) => True
  | bound => True
  | dispose => True

instance
    (capacity : Nat)
    (request : Request) :
    Decidable (request.Fits capacity) :=
  match request with
  | .call (.insert _ _ _ value) =>
    inferInstanceAs (Decidable (Interval.sizeWith value ≤ capacity))
  | .call (.finish _ ns) => inferInstanceAs (Decidable ns.Storable)
  | .call (.find _ _) => inferInstanceAs (Decidable True)
  | .call (.collect _ _) => inferInstanceAs (Decidable True)
  | .bound => inferInstanceAs (Decidable True)
  | .dispose => inferInstanceAs (Decidable True)

theorem Request.accepted_of_ok
    {request : Request}
    {response : Response}
    {after : Placed Store}
    (done : request.step s = .ok response after) :
    request.accepted s = true := by
  unfold Request.accepted
  rw [done]

/-- Stores that accepted the same say the same to a call that is not too late. -/
theorem Live.call
    (live : Live capacity completed s s' accepted)
    (call : Call)
    (fits : (Request.call call).Fits capacity)
    (inRange : s'.subject.InRange)
    (timely : completed = true → ¬ (Request.call call).Belated s) :
    Step.Matched (Abreast capacity ((Request.call call).completes s || completed))
      ((Request.call call).step s) ((Request.call call).step s') := by
  have numbered : Tree.Numbered accepted := live.accounts'.tree_numbered inRange
  cases call with
  | insert start stop quark value =>
      have matched : Step.Matched (Abreast capacity completed)
          (Store.insert start stop quark value s) (Store.insert start stop quark value s') := by
        apply live.insert fits
        rintro done ⟨after, took⟩
        apply timely done
        have told : (Request.call (.insert start stop quark value)).step s
            = .ok (.told .taken) after := Step.bind_of_ok (Step.bind_of_ok took)
        exact Request.accepted_of_ok told
      exact (matched.map fun _ => Reply.taken).map Response.told
  | find t quark =>
      have matched : Step.Matched (Abreast capacity completed)
          (Store.find t quark s) (Store.find t quark s') :=
        live.asks (fun holds inRange => holds.find inRange numbered t quark) inRange.backend t
      exact (matched.map Reply.interval).map Response.told
  | collect t slots =>
      have matched : Step.Matched (Abreast capacity completed)
          (Store.collect t slots s) (Store.collect t slots s') :=
        live.asks (fun holds inRange => holds.collect inRange numbered t slots) inRange.backend t
      exact (matched.map Reply.slots).map Response.told
  | finish stop ns =>
      have told : ∀ {r after : Placed Store}, Store.finish stop ns r = .ok () after →
          (Request.call (.finish stop ns)).step r = .ok (.told .completed) after :=
        fun done => Step.bind_of_ok (Step.bind_of_ok done)
      -- A memory does not refuse to be completed, so an end that is later would be belated.
      have does : (Request.call (.finish stop ns)).accepted s = true := by
        rcases live.accounts.finish (Backend.accepts_iff.mpr (Or.inl live.unbounded)) stop with
          ⟨after, done, -⟩
        exact Request.accepted_of_ok (told done)
      have early : completed = true → stop ≤ s.subject.stop :=
        fun done => Int.not_lt.mp fun late => timely done ⟨does, late⟩
      rcases live.finish fits early with ⟨after, after', done, done', still⟩
      have completes : (Request.call (.finish stop ns)).completes s = true := does
      rw [told done, told done', completes]
      exact .ok _ (.live accepted still)

theorem Ended.call
    (ended : Ended s s')
    (call : Call) :
    Step.Matched (Abreast capacity completed) ((Request.call call).step s)
      ((Request.call call).step s') := by
  cases call with
  | insert start stop quark value =>
      exact (ended.insert.map fun _ => Reply.taken).map Response.told
  | find t quark =>
      have matched : Step.Matched (Abreast capacity completed) (Store.find t quark s)
          (Store.find t quark s') :=
        ended.asks (fun gone => gone.find t quark) t
      exact (matched.map Reply.interval).map Response.told
  | collect t slots =>
      have matched : Step.Matched (Abreast capacity completed) (Store.collect t slots s)
          (Store.collect t slots s') :=
        ended.asks (fun gone => gone.collect t slots) t
      exact (matched.map Reply.slots).map Response.told
  | finish stop ns =>
      have refuses : ∀ {r : Placed Store}, Store.finish stop ns r = .error .disposed r →
          (Request.call (.finish stop ns)).step r = .error .disposed r :=
        fun failed => Step.bind_of_error (Step.bind_of_error failed)
      rw [refuses (finish_of_gone ended.healthy ended.gone),
        refuses (finish_of_gone ended.healthy' ended.gone')]
      exact .error _ (.ended ended)

theorem Lost.call
    (lost : Lost s s')
    (call : Call) :
    Step.Matched (Abreast capacity completed) ((Request.call call).step s)
      ((Request.call call).step s') := by
  have refuses : ∀ {r : Placed Store}, r.subject.corrupted = true →
      (Request.call call).step r = .error .corrupted r :=
    fun corrupted => Step.bind_of_error (step_of_corrupted corrupted call)
  rw [refuses lost.corrupted, refuses lost.corrupted']
  exact .error _ (.lost lost)

/-- One request to both stores. -/
theorem Abreast.request
    (abreast : Abreast capacity completed s s')
    (request : Request)
    (fits : request.Fits capacity)
    (inRange : s'.subject.InRange)
    (timely : completed = true → ¬ request.Belated s) :
    Step.Matched (Abreast capacity (request.completes s || completed)) (request.step s)
      (request.step s') := by
  cases request with
  | call call =>
      cases abreast with
      | live accepted live => exact live.call call fits inRange timely
      | ended ended => exact ended.call call
      | lost lost => exact lost.call call
  | bound =>
      have told : ∀ r : Placed Store, Request.bound.step r = .ok (.bound r.subject.stop) r :=
        fun _ => rfl
      rw [told, told, abreast.bounds.2]
      exact .ok _ abreast
  | dispose => exact abreast.dispose.map fun _ => Response.disposed

/-- Stores that were told the same say the same to all requests that are not too late. -/
theorem Abreast.run
    {requests : List Request}
    (abreast : Abreast capacity completed s s')
    (fits : ∀ request ∈ requests, request.Fits capacity)
    (inRange : ∀ before, before <+: requests →
      ((Step.each Request.step before).reached s').subject.InRange)
    (timely : Timely s completed requests) :
    ∃ responses r r',
      Step.each Request.step requests s = .ok responses r
        ∧ Step.each Request.step requests s' = .ok responses r'
        ∧ r'.subject.start = r.subject.start
        ∧ r'.subject.stop = r.subject.stop := by
  induction requests generalizing s s' completed with
  | nil => exact ⟨[], s, s', rfl, rfl, abreast.bounds⟩
  | cons request requests ih =>
      rcases Step.prefixes_cons (fun r : Placed Store => r.subject.InRange) inRange with
        ⟨now, later⟩
      rcases timely with ⟨first, rest⟩
      have matched := abreast.request request (fits request List.mem_cons_self) now first
      rcases matched.reached with ⟨told, outcome, outcome', abreastAfter⟩
      rcases ih abreastAfter (fun other member => fits other (List.mem_cons_of_mem _ member))
        later rest with ⟨responses, r, r', done, done', bounds⟩
      refine ⟨told :: responses, r, r', ?_, ?_, bounds⟩
      · exact (Step.bind_of_ok outcome).trans (Step.bind_of_ok done)
      · exact (Step.bind_of_ok outcome').trans (Step.bind_of_ok done')

end

/-- New stores over a memory and over a file have accepted the same: nothing. -/
theorem live_of_create
    {name : String}
    {config : Tree.Config}
    {start : Int}
    {volume made placed : Volume}
    {file memory : Backend}
    (sound : volume.Sound)
    (created : Backend.create (.file name config) start volume = .ok (made, file))
    (createdMemory : Backend.create .memory start volume = .ok (placed, memory)) :
    Live config.coreCapacity false ⟨placed, .ofBackend memory⟩ ⟨made, .ofBackend file⟩ [] := by
  rcases Backend.holds_of_create sound created with ⟨-, begins, stop, taking, bounded⟩
  have accounts := accounts_ofBackend sound createdMemory
  cases createdMemory
  constructor
  · exact accounts
  · exact accounts_ofBackend sound created
  · rfl
  · exact bounded
  · exact begins
  · exact stop
  · exact ⟨fun _ => rfl, fun _ => taking⟩

/--
A store over a memory and one over a file say the same to all that they are
told and asked, in any order and however often, with values that have room in
the file, and have the same bounds after it.  The one exception is a completed
history.  The memory must be told nothing that would change it: no interval
that it would take, and no later end.
-/
theorem same_responses_of_timely
    {name : String}
    {config : Tree.Config}
    {start : Int}
    {volume made placed : Volume}
    {file memory : Backend}
    {requests : List Request}
    (sound : volume.Sound)
    (created : Backend.create (.file name config) start volume = .ok (made, file))
    (createdMemory : Backend.create .memory start volume = .ok (placed, memory))
    (fits : ∀ request ∈ requests, request.Fits config.coreCapacity)
    (inRange : ∀ before, before <+: requests →
      ((Step.each Request.step before).reached ⟨made, .ofBackend file⟩).subject.InRange)
    (timely : Timely ⟨placed, .ofBackend memory⟩ false requests) :
    ∃ responses r r',
      Step.each Request.step requests ⟨placed, .ofBackend memory⟩ = .ok responses r
        ∧ Step.each Request.step requests ⟨made, .ofBackend file⟩ = .ok responses r'
        ∧ r'.subject.start = r.subject.start
        ∧ r'.subject.stop = r.subject.stop :=
  (Abreast.live [] (live_of_create sound created createdMemory)).run fits inRange timely

/-- Requests of every kind in an unusual order, none of them too late. -/
def muddle : List Request :=
  [.call (.insert 0 4 1 .null),
    .call (.insert 5 6 1 .null),
    .call (.insert 0 5 0 .null),
    .bound,
    .call (.find 3 1),
    .call (.collect 4 #[none, none]),
    .call (.find 11 0),
    .call (.finish 12 .empty),
    .call (.finish 8 .empty),
    .call (.insert 7 5 1 .null),
    .call (.find 6 1),
    .dispose,
    .call (.find 6 1),
    .call (.finish 14 .empty),
    .call (.insert 7 9 1 .null),
    .dispose,
    .bound,
    .call (.insert 3 9 1 .null),
    .call (.collect 4 #[none])]

theorem inRange_muddle :
    ∃ made file memory,
      Backend.create (.file "muddle" Tree.narrow) 0 .empty = .ok (made, file)
        ∧ Backend.create .memory 0 .empty = .ok (.empty, memory)
        ∧ (∀ before ∈ muddle.inits,
          ((Step.each Request.step before).reached ⟨made, .ofBackend file⟩).subject.InRange)
        ∧ Timely ⟨.empty, .ofBackend memory⟩ false muddle :=
  ⟨_, _, _, rfl, rfl, by decide +kernel, by decide +kernel⟩

theorem same_responses_in_muddle :
    ∃ made file memory responses r r',
      Backend.create (.file "muddle" Tree.narrow) 0 .empty = .ok (made, file)
        ∧ Backend.create .memory 0 .empty = .ok (.empty, memory)
        ∧ Step.each Request.step muddle ⟨.empty, .ofBackend memory⟩ = .ok responses r
        ∧ Step.each Request.step muddle ⟨made, .ofBackend file⟩ = .ok responses r'
        ∧ r'.subject.start = r.subject.start
        ∧ r'.subject.stop = r.subject.stop := by
  rcases inRange_muddle with ⟨made, file, memory, created, createdMemory, inRange, timely⟩
  have fits : ∀ request ∈ muddle, request.Fits Tree.narrow.coreCapacity := by
    decide
  rcases same_responses_of_timely (by decide) created createdMemory fits
    (fun before begins => inRange before ((List.mem_inits before muddle).mpr begins)) timely with
    ⟨responses, r, r', rest⟩
  exact ⟨made, file, memory, responses, r, r', created, createdMemory, rest⟩

/-- Requests that complete a history, and again with a later end. -/
def completions : List Request :=
  [.call (.insert 0 4 0 .null),
    .call (.finish 4 .empty),
    .call (.finish 9 .empty)]

/-- An interval that follows, but after the completion. -/
def afterthought : Request :=
  .call (.insert 5 9 0 .null)

/-- A memory takes a later end and an interval after its completion, and a file takes neither. -/
theorem parted_by_afterthought :
    ∃ made file memory,
      Backend.create (.file "parted" Tree.narrow) 0 .empty = .ok (made, file)
        ∧ Backend.create .memory 0 .empty = .ok (.empty, memory)
        ∧ (∀ request ∈ afterthought :: completions, request.Fits Tree.narrow.coreCapacity)
        ∧ (∀ before ∈ (completions ++ [afterthought]).inits,
          ((Step.each Request.step before).reached ⟨made, .ofBackend file⟩).subject.InRange)
        ∧ ((Step.each Request.step completions).reached
          ⟨.empty, .ofBackend memory⟩).subject.stop = 9
        ∧ ((Step.each Request.step completions).reached ⟨made, .ofBackend file⟩).subject.stop = 4
        ∧ afterthought.accepted
          ((Step.each Request.step completions).reached ⟨.empty, .ofBackend memory⟩) = true
        ∧ afterthought.accepted
          ((Step.each Request.step completions).reached ⟨made, .ofBackend file⟩) = false :=
  ⟨_, _, _, rfl, rfl, by decide, by decide +kernel, by decide +kernel, by decide +kernel,
    by decide +kernel, by decide +kernel⟩

end Store

end Chronicle
