import Chronicle.Proofs.Backend.Reliability
import Chronicle.Proofs.Interchange

/-!
# Stores over backends that fail

A backend may refuse any interval that a store passes on to it.  Unless the
interval did not follow its predecessor, the store then answers all that comes
later as if it had not been asked.  What it takes it takes as a store does over
a backend that never fails.
-/

namespace Chronicle.Store

/-- The store over the same backend, if that never fails. -/
def reliable (store : Store) : Store :=
  { store with backend := store.backend.reliable }

/-- The store whose backend was asked for one more insertion, and refused it. -/
def asked (store : Store) : Store :=
  { store with backend := store.backend.asked }

/-- Takes an interval unless the backend is to refuse it with a fault. -/
def insertUnless (refusal : Interval → Option Fault) : Int → Int → Int → Value → Step Store Unit :=
  insertWith fun i => Backend.insertUnless (refusal i) i

theorem insertUnless_none : insertUnless (fun _ => none) = Store.insert := rfl

/-- A store for a history from `start` on that expects nothing before it. -/
structure Roomy
    (start : Int)
    (store : Store) : Prop where
  backend : store.backend.Roomy start
  begun : ∀ place, start ≤ store.nextStarts.getD place start

@[simp]
theorem reliable_asked (store : Store) : store.asked.reliable = store.reliable := by
  unfold asked reliable
  rw [Backend.reliable_asked]

theorem expectedStart_reliable
    (store : Store)
    (quark : Int) :
    store.reliable.expectedStart quark = store.expectedStart quark := by
  unfold expectedStart Store.start reliable
  rw [Backend.start_reliable]

theorem reliable_advance
    (store : Store)
    (quark stop : Int) :
    (store.advance quark stop).reliable = store.reliable.advance quark stop := by
  unfold advance Store.start reliable
  rw [Backend.start_reliable]

theorem roomy_ofBackend
    {start : Int}
    {backend : Backend}
    (roomy : backend.Roomy start) :
    (ofBackend backend).Roomy start :=
  ⟨roomy, fun _ => Int.le_refl start⟩

namespace Roomy

variable {origin : Int} {s : Placed Store} {store : Store}

theorem expectedStart_ge
    (roomy : store.Roomy origin)
    (quark : Int) :
    origin ≤ store.expectedStart quark := by
  unfold Store.expectedStart Store.start
  rw [roomy.backend.start_eq]
  exact roomy.begun quark.toNat

theorem asked
    (roomy : store.Roomy origin) :
    store.asked.Roomy origin :=
  ⟨roomy.backend.asked, roomy.begun⟩

theorem corrupt
    (roomy : store.Roomy origin) :
    Roomy origin { store with corrupted := true } :=
  ⟨roomy.backend, roomy.begun⟩

theorem advance
    {backend : Backend}
    {quark stop : Int}
    (roomy : store.Roomy origin)
    (kept : backend.Roomy origin)
    (late : origin ≤ stop + 1) :
    (Store.advance { store with backend } quark stop).Roomy origin := by
  refine ⟨kept, fun place => ?_⟩
  show origin ≤ (setPadded store.nextStarts quark.toNat (stop + 1) backend.start).getD place origin
  rw [kept.start_eq, getD_setPadded]
  split
  · exact late
  · exact roomy.begun place

/--
A store refuses an interval without a trace, or for good because it does not
follow its predecessor, or takes it as a store does whose backend never fails.
-/
theorem insertUnless
    (roomy : s.subject.Roomy origin)
    (refusal : Interval → Option Fault)
    (start stop quark : Int)
    (value : Value) :
    (∃ fault r, Store.insertUnless refusal start stop quark value s = .error fault r
        ∧ (r = s ∨ r = ⟨s.volume, s.subject.asked⟩))
      ∨ (∃ expected, Store.insertUnless refusal start stop quark value s
          = .error (.contiguity quark expected start)
            ⟨s.volume, { s.subject with corrupted := true }⟩
        ∧ ∀ t, Store.insert start stop quark value ⟨s.volume, s.subject.reliable⟩ ≠ .ok () t)
      ∨ ∃ r, Store.insertUnless refusal start stop quark value s = .ok () r
        ∧ r.subject.Roomy origin
        ∧ Store.insert start stop quark value ⟨s.volume, s.subject.reliable⟩
          = .ok () ⟨r.volume, r.subject.reliable⟩ := by
  unfold Store.insertUnless
  by_cases corrupted : s.subject.corrupted = true
  · exact Or.inl ⟨_, s, insertWith_of_corrupted corrupted _ _ _ _ _, Or.inl rfl⟩
  have healthy := eq_false_of_ne_true corrupted
  have applied := insert_apply (s := ⟨s.volume, s.subject.reliable⟩) healthy start stop quark value
  simp only [expectedStart_reliable] at applied
  rw [insertWith_apply healthy, applied]
  by_cases negative : quark < 0
  · rw [if_pos negative]
    exact Or.inl ⟨_, s, rfl, Or.inl rfl⟩
  rw [if_neg negative, if_neg negative]
  by_cases stray : start ≠ s.subject.expectedStart quark
  · rw [if_pos stray, if_pos stray]
    refine Or.inr (Or.inl ⟨_, rfl, fun t took => ?_⟩)
    cases took
  rw [if_neg stray, if_neg stray]
  by_cases early : stop < s.subject.lastStop
  · rw [if_pos early]
    exact Or.inl ⟨_, s, rfl, Or.inl rfl⟩
  rw [if_neg early, show (s.subject.reliable.lastStop = s.subject.lastStop) from rfl, if_neg early]
  by_cases ordered : start ≤ stop
  · rw [dif_pos ordered, dif_pos ordered]
    have begun : origin ≤ start := by
      rw [not_not.mp stray]
      exact roomy.expectedStart_ge quark
    rcases roomy.backend.insertUnless (s := ⟨s.volume, s.subject.backend⟩)
        (i := ⟨start, stop, quark, value, ordered⟩) begun (refusal ⟨start, stop, quark, value, ordered⟩)
      with ⟨fault, r, failed, same⟩ | ⟨r, took, kept, takes⟩
    · refine Or.inl ⟨fault, _, Step.bind_of_error (Step.onPart_of_error failed), ?_⟩
      rcases same with rfl | rfl
      · exact Or.inl rfl
      · exact Or.inr rfl
    · refine Or.inr (Or.inr ⟨_, Step.bind_of_ok (Step.onPart_of_ok took),
        roomy.advance kept (by omega), ?_⟩)
      have reliably : Store.onBackend (Backend.insert _) ⟨s.volume, s.subject.reliable⟩
          = .ok () ⟨r.volume, { s.subject.reliable with backend := r.subject.reliable }⟩ :=
        Step.onPart_of_ok takes
      rw [reliable_advance]
      exact Step.bind_of_ok reliably
  · rw [dif_neg ordered]
    exact Or.inl ⟨_, s, rfl, Or.inl rfl⟩

/-- What a store is told or asked, refused or not, leaves it room. -/
theorem reached_insertUnless
    (roomy : s.subject.Roomy origin)
    (refusal : Interval → Option Fault)
    (start stop quark : Int)
    (value : Value) :
    ((Store.insertUnless refusal start stop quark value).reached s).subject.Roomy origin := by
  rcases roomy.insertUnless refusal start stop quark value with
    ⟨fault, r, failed, rfl | rfl⟩ | ⟨expected, failed, -⟩ | ⟨r, took, kept, -⟩
  · rw [Step.reached_of_error failed]
    exact roomy
  · rw [Step.reached_of_error failed]
    exact roomy.asked
  · rw [Step.reached_of_error failed]
    exact roomy.corrupt
  · rw [Step.reached_of_ok took]
    exact kept

theorem onBackend
    {α : Type}
    {step : Step Backend α}
    (roomy : s.subject.Roomy origin)
    (keeps : (step.reached ⟨s.volume, s.subject.backend⟩).subject.Roomy origin) :
    ((Store.onBackend step).reached s).subject.Roomy origin := by
  unfold Store.onBackend
  rw [Step.reached_onPart]
  exact ⟨keeps, roomy.begun⟩

/-- What is made of an answer has nothing to do with room. -/
theorem map
    {α β : Type}
    {step : Step Store α}
    (kept : (step.reached s).subject.Roomy origin)
    (change : α → β) :
    ((step >>= fun a => pure (change a)).reached s).subject.Roomy origin := by
  rw [Step.reached_map]
  exact kept

theorem call
    (roomy : s.subject.Roomy origin)
    (call : Call) :
    (call.step.reached s).subject.Roomy origin := by
  have checked : ∀ {α β : Type} {decided : Except Fault α} {next : α → Step Store β},
      (∀ a, ((next a).reached s).subject.Roomy origin) →
        ((Step.ofExcept decided >>= next).reached s).subject.Roomy origin :=
    fun goes => Step.reached_ofExcept_bind (fun r : Placed Store => r.subject.Roomy origin) roomy
      fun a _ => goes a
  cases call with
  | insert start stop quark value =>
      have kept := roomy.reached_insertUnless (fun _ => none) start stop quark value
      rw [insertUnless_none] at kept
      exact kept.map fun _ => Reply.taken
  | find t quark =>
      have kept : ((Store.find t quark).reached s).subject.Roomy origin :=
        checked fun _ => checked fun _ => roomy.onBackend (roomy.backend.find t quark)
      exact kept.map Reply.interval
  | collect t slots =>
      have kept : ((Store.collect t slots).reached s).subject.Roomy origin :=
        checked fun _ => checked fun _ => roomy.onBackend (roomy.backend.collect t slots)
      exact kept.map Reply.slots
  | finish stop ns =>
      have kept : ((Store.finish stop ns).reached s).subject.Roomy origin :=
        checked fun _ => roomy.onBackend (roomy.backend.finish stop ns)
      exact kept.map fun _ => Reply.completed

theorem request
    (roomy : s.subject.Roomy origin)
    (request : Request) :
    (request.step.reached s).subject.Roomy origin := by
  cases request with
  | call call => exact (roomy.call call).map Response.told
  | bound => exact roomy
  | dispose =>
      have kept : (Store.dispose.reached s).subject.Roomy origin :=
        roomy.onBackend roomy.backend.dispose
      exact kept.map fun _ => Response.disposed

end Roomy

/--
A store over any backend, made anew, opened from a file or told to fail, after
anything it was told or asked: some insertions may have been refused, and the
volume may be any other.
-/
inductive Reached : Placed Store → Prop
  | create
      {plan : Backend.Plan}
      {start : Int}
      {volume made : Volume}
      {backend : Backend}
      (created : Backend.create plan start volume = .ok (made, backend)) :
      Reached ⟨made, .ofBackend backend⟩
  | reopen
      {name : String}
      {version : Nat}
      {volume : Volume}
      {backend : Backend}
      {ns : Namespace}
      (opened : Backend.reopen name version volume = .ok (backend, ns)) :
      Reached ⟨volume, .ofBackend backend⟩
  | unreliable
      (volume : Volume)
      (start : Int)
      (refuses : Nat → Option Fault) :
      Reached ⟨volume, .ofBackend (.unreliable ⟨.empty start, refuses, 0⟩)⟩
  | insert
      {s : Placed Store}
      (before : Reached s)
      (refusal : Interval → Option Fault)
      (start stop quark : Int)
      (value : Value) :
      Reached ((insertUnless refusal start stop quark value).reached s)
  | request
      {s : Placed Store}
      (before : Reached s)
      (request : Request) :
      Reached (request.step.reached s)
  | elsewhere
      {s : Placed Store}
      (before : Reached s)
      (volume : Volume) :
      Reached ⟨volume, s.subject⟩

/-- All such stores have room from the start of their history on. -/
theorem Reached.roomy
    {s : Placed Store}
    (reached : Reached s) :
    ∃ origin, s.subject.Roomy origin := by
  induction reached with
  | create created => exact ⟨_, roomy_ofBackend (Backend.roomy_of_create created)⟩
  | reopen opened => exact ⟨_, roomy_ofBackend (Backend.roomy_of_reopen opened)⟩
  | unreliable volume start refuses => exact ⟨start, roomy_ofBackend rfl⟩
  | insert before refusal start stop quark value ih =>
      rcases ih with ⟨origin, roomy⟩
      exact ⟨origin, roomy.reached_insertUnless refusal start stop quark value⟩
  | request before request ih =>
      rcases ih with ⟨origin, roomy⟩
      exact ⟨origin, roomy.request request⟩
  | elsewhere before volume ih => exact ih

/-! ## Schedules -/

/-- The store from whose schedule the next insertion is struck, be it to be refused or not. -/
def struck (store : Store) : Store :=
  { store with backend := store.backend.struck }

/-- Two stores that expect the same, over backends of which the first has counted more. -/
inductive Ahead : Placed Store → Placed Store → Prop
  | on
      (store : Store)
      {volume volume' : Volume}
      {backend backend' : Backend}
      (ahead : Backend.Ahead ⟨volume, backend⟩ ⟨volume', backend'⟩) :
      Ahead ⟨volume, { store with backend }⟩ ⟨volume', { store with backend := backend' }⟩

section Ahead

variable {store : Store} {volume volume' : Volume} {backend backend' : Backend}

theorem expectedStart_of_ahead
    (ahead : Backend.Ahead ⟨volume, backend⟩ ⟨volume', backend'⟩)
    (quark : Int) :
    expectedStart { store with backend := backend' } quark
      = expectedStart { store with backend } quark := by
  unfold expectedStart Store.start
  rw [show backend'.start = backend.start from ahead.start_eq]

theorem checkTime_of_ahead
    (ahead : Backend.Ahead ⟨volume, backend⟩ ⟨volume', backend'⟩)
    (t : Int) :
    checkTime { store with backend := backend' } t = checkTime { store with backend } t := by
  unfold checkTime Store.start Store.stop
  rw [show backend'.start = backend.start from ahead.start_eq,
    show backend'.stop = backend.stop from ahead.stop_eq]

theorem ahead_advance
    (ahead : Backend.Ahead ⟨volume, backend⟩ ⟨volume', backend'⟩)
    (quark stop : Int) :
    Ahead ⟨volume, advance { store with backend } quark stop⟩
      ⟨volume', advance { store with backend := backend' } quark stop⟩ := by
  unfold advance Store.start
  rw [show backend'.start = backend.start from ahead.start_eq]
  exact .on { store with
    nextStarts := setPadded store.nextStarts quark.toNat (stop + 1) backend.start
    lastStop := stop } ahead

/-- What the backends do alike the stores do alike. -/
theorem onBackend_of_ahead
    {α : Type}
    {step : Step Backend α}
    (matched : Step.Matched Backend.Ahead (step ⟨volume, backend⟩) (step ⟨volume', backend'⟩)) :
    Step.Matched Ahead (onBackend step ⟨volume, { store with backend }⟩)
      (onBackend step ⟨volume', { store with backend := backend' }⟩) :=
  matched.onPart fun ahead => .on store ahead

end Ahead

namespace Ahead

variable {s s' : Placed Store}

theorem insert
    (ahead : Ahead s s')
    (start stop quark : Int)
    (value : Value) :
    Step.Matched Ahead (Store.insert start stop quark value s)
      (Store.insert start stop quark value s') := by
  have still := ahead
  rcases ahead with @⟨store, volume, volume', backend, backend', ahead⟩
  by_cases corrupted : store.corrupted = true
  · have refused : ∀ r : Placed Store, r.subject.corrupted = true →
        Store.insert start stop quark value r = .error .corrupted r :=
      fun r corrupted => insertWith_of_corrupted corrupted Backend.insert start stop quark value
    rw [refused _ corrupted, refused _ corrupted]
    exact .error _ still
  have healthy := eq_false_of_ne_true corrupted
  rw [insert_apply (s := ⟨volume, { store with backend }⟩) healthy,
    insert_apply (s := ⟨volume', { store with backend := backend' }⟩) healthy,
    expectedStart_of_ahead ahead]
  by_cases negative : quark < 0
  · rw [if_pos negative, if_pos negative]
    exact .error _ still
  rw [if_neg negative, if_neg negative]
  by_cases stray : start ≠ expectedStart { store with backend } quark
  · rw [if_pos stray, if_pos stray]
    exact .error _ (.on { store with corrupted := true } ahead)
  rw [if_neg stray, if_neg stray]
  by_cases early : stop < store.lastStop
  · rw [if_pos early, if_pos early]
    exact .error _ still
  rw [if_neg early, if_neg early]
  by_cases ordered : start ≤ stop
  · rw [dif_pos ordered, dif_pos ordered]
    refine (onBackend_of_ahead (ahead.insert _)).bind fun _ r r' _ after => ?_
    rcases after with ⟨store, after⟩
    exact .ok () (ahead_advance after quark stop)
  · rw [dif_neg ordered, dif_neg ordered]
    exact .error _ still

/-- What is asked of backends that answer alike is asked of their stores. -/
theorem asks
    {α : Type}
    {step : Step Backend α}
    (ahead : Ahead s s')
    (alike : ∀ {r r'}, Backend.Ahead r r' → Step.Matched Backend.Ahead (step r) (step r'))
    (t : Int) :
    Step.Matched Ahead
      ((do
        let store ← Step.subject
        Step.ofExcept store.checkHealthy
        Step.ofExcept (store.checkTime t)
        onBackend step : Step Store α) s)
      ((do
        let store ← Step.subject
        Step.ofExcept store.checkHealthy
        Step.ofExcept (store.checkTime t)
        onBackend step : Step Store α) s') := by
  have still := ahead
  rcases ahead with @⟨store, volume, volume', backend, backend', ahead⟩
  rw [Step.subject_bind_apply, Step.subject_bind_apply]
  refine Step.Matched.ofExcept_bind still store.checkHealthy fun _ _ => ?_
  rw [checkTime_of_ahead ahead]
  exact Step.Matched.ofExcept_bind still _ fun _ _ => onBackend_of_ahead (alike ahead)

theorem finish
    (ahead : Ahead s s')
    (stop : Int)
    (ns : Namespace) :
    Step.Matched Ahead (Store.finish stop ns s) (Store.finish stop ns s') := by
  have still := ahead
  rcases ahead with @⟨store, volume, volume', backend, backend', ahead⟩
  exact Step.Matched.ofExcept_bind still store.checkHealthy fun _ _ =>
    onBackend_of_ahead (ahead.finish stop ns)

theorem request
    (ahead : Ahead s s')
    (request : Request) :
    Step.Matched Ahead (request.step s) (request.step s') := by
  cases request with
  | call call =>
      refine Step.Matched.map ?_ Response.told
      cases call with
      | insert start stop quark value =>
          exact (ahead.insert start stop quark value).map fun _ => Reply.taken
      | find t quark => exact (ahead.asks (fun ahead => ahead.find t quark) t).map Reply.interval
      | collect t slots => exact (ahead.asks (fun ahead => ahead.collect t slots) t).map Reply.slots
      | finish stop ns => exact (ahead.finish stop ns).map fun _ => Reply.completed
  | bound =>
      have still := ahead
      rcases ahead with @⟨store, volume, volume', backend, backend', ahead⟩
      show Step.Matched Ahead (.ok (Response.bound backend.stop) _)
        (.ok (Response.bound backend'.stop) _)
      rw [show backend'.stop = backend.stop from ahead.stop_eq]
      exact .ok _ still
  | dispose =>
      refine Step.Matched.map ?_ fun _ => Response.disposed
      rcases ahead with ⟨store, ahead⟩
      exact onBackend_of_ahead ahead.dispose

end Ahead

/-- Whatever is requested of two stores, they answer the same. -/
def Echoes (s s' : Placed Store) : Prop :=
  ∀ requests : List Request, ∃ responses r r',
    Step.each Request.step requests s = .ok responses r
      ∧ Step.each Request.step requests s' = .ok responses r'

theorem Ahead.echoes
    {s s' : Placed Store}
    (ahead : Ahead s s') :
    Echoes s s' := by
  intro requests
  induction requests generalizing s s' with
  | nil => exact ⟨[], s, s', rfl, rfl⟩
  | cons request rest ih =>
      rcases (ahead.request request).reached with ⟨told, outcome, outcome', after⟩
      rcases ih after with ⟨responses, r, r', done, done'⟩
      exact ⟨told :: responses, r, r', (Step.bind_of_ok outcome).trans (Step.bind_of_ok done),
        (Step.bind_of_ok outcome').trans (Step.bind_of_ok done')⟩

/--
A store that has refused an insertion answers like one that was not asked for
it, and that does not have it on its schedule.
-/
theorem echoes_asked
    (volume : Volume)
    (store : Store) :
    Echoes ⟨volume, store.asked⟩ ⟨volume, store.struck⟩ :=
  (Ahead.on store (Backend.ahead_asked volume store.backend)).echoes

end Chronicle.Store
