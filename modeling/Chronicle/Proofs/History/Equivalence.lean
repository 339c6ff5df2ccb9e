import Chronicle.History.Summary
import Chronicle.Namespace.Pattern
import Chronicle.Proofs.History.Consulting

/-!
# The backend does not show

Whatever is done to a history and asked of it, in whatever order, it says the
same over a memory as over a file, as long as the values that are set fit the
file: while it is built, after it was completed, stopped or given up, and also
where it fails.
-/

namespace Chronicle.History

/-- What can be looked up among the names of attributes. -/
inductive Lookup
  | count
  | resolve (base : Int) (path : List String)
  | resolve? (base : Int) (path : List String)
  | matching (base : Int) (pattern : List String)
  | below (quark : Int) (recursive : Bool)
  | name (quark : Int)
  | fullPath (quark : Int)
  | parent (quark : Int)

/-- What is found among the names of attributes. -/
inductive Found
  | count (size : Nat)
  | quark (quark : Int)
  | quark? (quark : Option Int)
  | quarks (quarks : List Int)
  | text (text : String)
deriving DecidableEq

/-- Looks something up. -/
def Lookup.find
    (ns : Namespace) :
    Lookup →
    Except Fault Found
  | count => .ok (.count ns.size)
  | resolve base path => .quark <$> ns.resolve base path
  | resolve? base path => .ok (.quark? (ns.resolve? base path))
  | matching base pattern => .quarks <$> ns.matching base pattern
  | below quark recursive => .quarks <$> ns.below quark recursive
  | name quark => .text <$> ns.name quark
  | fullPath quark => .text <$> ns.fullPath quark
  | parent quark => .quark <$> ns.parent quark

/-- What can be asked about the present and about ranges of time. -/
inductive Scan
  | ongoing (quark : Int)
  | first (quark start stop : Int)
  | between (quark start stop : Int)
  | count (quark t : Int)
  | histogram (quark start stop : Int) (buckets : Nat) (signal : Signal)
  | growth (quark start stop : Int)
  | rates (quarks times : List Int) (scale : Float) (signal : Signal)

/-- What is answered about the present and about ranges of time. -/
inductive Scanned
  | value (value : Value)
  | interval? (found : Option Interval)
  | intervals (found : List Interval)
  | count (count : Int)
  | counts (counts : List Int)
  | series (series : List Series)

/-- Asks about the present or about a range of time. -/
def Scan.step : Scan → Step History Scanned
  | ongoing quark => do
    return .value (← Step.ofExcept ((← Step.subject).ongoingValue quark))
  | first quark start stop => do
    return .interval? (← firstValue quark start stop)
  | between quark start stop => do
    return .intervals (← intervalsBetween quark start stop)
  | count quark t => do
    return .count (← countAt quark t)
  | histogram quark start stop buckets signal => do
    return .counts (← History.histogram quark start stop buckets signal)
  | growth quark start stop => do
    return .count (← History.growth quark start stop)
  | rates quarks times scale signal => do
    return .series (← History.rates quarks times scale signal)

/-- What a history tells about itself. -/
structure Description where
  id : String
  start : Int
  currentEnd : Int
  latest : Int
  status : Status
  usable : Except Fault Unit
  summary : String
  writerSummary : String

/-- What a history tells about itself. -/
def describe (history : History) : Description where
  id := history.id
  start := history.start
  currentEnd := history.currentEnd
  latest := history.latest
  status := history.status
  usable := history.checkUsable
  summary := history.summary
  writerSummary := history.writerSummary

/-- All that can be done to a history or asked of it. -/
inductive Operation
  | call (call : Call)
  | look (lookup : Lookup)
  | scan (scan : Scan)
  | describe
  | dispose

/-- All that a history can say. -/
inductive Report
  | reply (reply : Reply)
  | found (found : Found)
  | scanned (scanned : Scanned)
  | described (description : Description)
  | disposed

namespace Operation

/-- Does what an operation says. -/
def step : Operation → Step History Report
  | call told => do
    return .reply (← told.step)
  | look lookup => do
    return .found (← Step.ofExcept (lookup.find (← Step.subject).names))
  | scan asked => do
    return .scanned (← asked.step)
  | describe => do
    return .described (← Step.subject).describe
  | dispose => do
    History.dispose
    return .disposed

/-- Whether an operation is one of the writer. -/
def Writes : Operation → Prop
  | call told => told.Writes
  | _ => False

/-- Whether the writer is gone after an operation. -/
def Ends : Operation → Prop
  | call told => told.Ends
  | _ => False

/-- Whether an operation only asks. -/
def Asks : Operation → Prop
  | call told => ¬ told.Writes
  | dispose => False
  | _ => True

instance : DecidablePred Writes := fun operation => by
  cases operation <;> unfold Writes <;> infer_instance

instance : DecidablePred Ends := fun operation => by
  cases operation <;> unfold Ends <;> infer_instance

/-- The values that an operation is about. -/
def values : Operation → Placed History → List Value
  | call (.make change), s => (change.script.events s).map Event.value
  | call (.overwrite value _), _ => [value]
  | _, _ => []

end Operation

/-- The values that operations are about, done one after the other. -/
def valuesOf : List Operation → Placed History → List Value
  | [], _ => []
  | operation :: operations, s =>
    operation.values s ++ valuesOf operations (operation.step.reached s)

/-- No operation of a writer comes after the writer is gone. -/
def Orderly (operations : List Operation) : Prop :=
  operations.Pairwise fun operation later => operation.Ends → ¬ later.Writes

instance : DecidablePred Orderly :=
  fun operations => inferInstanceAs (Decidable (operations.Pairwise _))

/-- After an operation of an orderly run, the writer may go on if it is not gone. -/
theorem Orderly.tail
    {writing : Prop}
    {operation : Operation}
    {operations : List Operation}
    (orderly : Orderly (operation :: operations))
    (may : ∀ other ∈ operation :: operations, other.Writes → writing) :
    Orderly operations
      ∧ ∀ other ∈ operations, other.Writes → writing ∧ ¬ operation.Ends := by
  rcases List.pairwise_cons.mp orderly with ⟨first, rest⟩
  refine ⟨rest, fun other member writes => ⟨may other (List.mem_cons_of_mem _ member) writes, ?_⟩⟩
  exact fun ends => first other member ends writes

/--
What goes alike step by step goes alike as a whole, as long as no operation of
a writer comes after the writer is gone.
-/
theorem Orderly.matched
    {R : Prop → Placed History → Placed History → Prop}
    {P : Operation → Placed History → Placed History → Prop}
    {writing : Prop}
    {s s' : Placed History}
    {operations : List Operation}
    (orderly : Orderly operations)
    (step : ∀ {writing s s'} (operation : Operation),
      P operation s s' → R writing s s' → (operation.Writes → writing) →
      Step.Matched (R (writing ∧ ¬ operation.Ends)) (operation.step s) (operation.step s'))
    (related : R writing s s')
    (may : ∀ operation ∈ operations, operation.Writes → writing)
    (along : ∀ before operation, before ++ [operation] <+: operations →
      P operation ((Step.each Operation.step before).reached s)
        ((Step.each Operation.step before).reached s')) :
    ∃ still reports r r',
      Step.each Operation.step operations s = .ok reports r
        ∧ Step.each Operation.step operations s' = .ok reports r'
        ∧ R still r r'
        ∧ (writing → (∀ operation ∈ operations, ¬ operation.Ends) → still) := by
  induction operations generalizing s s' writing with
  | nil => exact ⟨writing, [], s, s', rfl, rfl, related, fun may _ => may⟩
  | cons operation operations ih =>
      rcases orderly.tail may with ⟨rest, mayLater⟩
      have now : P operation s s' := along [] operation ⟨operations, rfl⟩
      rcases (step operation now related (may operation List.mem_cons_self)).reached with
        ⟨told, outcome, outcome', relatedAfter⟩
      have later : ∀ before other, before ++ [other] <+: operations →
          P other ((Step.each Operation.step before).reached (operation.step.reached s))
            ((Step.each Operation.step before).reached (operation.step.reached s')) := by
        intro before other begins
        have there := along (operation :: before) other (List.cons_prefix_cons.mpr ⟨rfl, begins⟩)
        rwa [Step.reached_each_cons, Step.reached_each_cons] at there
      rcases ih rest relatedAfter mayLater later with
        ⟨still, reports, r, r', done, done', ends, stays⟩
      refine ⟨still, told :: reports, r, r', Step.each_cons_of_ok outcome done,
        Step.each_cons_of_ok outcome' done', ends, fun may never => ?_⟩
      exact stays ⟨may, never operation List.mem_cons_self⟩
        fun other member => never other (List.mem_cons_of_mem _ member)

/-- The values that one of several operations is about are among those that all are about. -/
theorem mem_valuesOf
    {before operations : List Operation}
    {operation : Operation}
    {s : Placed History}
    {value : Value}
    (begins : before ++ [operation] <+: operations)
    (member : value ∈ operation.values ((Step.each Operation.step before).reached s)) :
    value ∈ valuesOf operations s := by
  induction before generalizing operations s with
  | nil =>
      rcases begins with ⟨rest, rfl⟩
      exact List.mem_append_left _ member
  | cons first before ih =>
      rcases begins with ⟨rest, rfl⟩
      rw [Step.reached_each_cons] at member
      exact List.mem_append_right _ (ih ⟨rest, rfl⟩ member)

namespace Consulted

variable {R : Placed History → Placed History → Prop} {s s' : Placed History}

/-- What is asked about the present or about a range of time goes alike. -/
theorem scan
    (consulted : Consulted R)
    (related : R s s')
    (scan : Scan) :
    Step.Matched R (scan.step s) (scan.step s') := by
  cases scan with
  | ongoing quark =>
      show Step.Matched _ ((Step.subject >>= _) s) ((Step.subject >>= _) s')
      rw [Step.subject_bind_apply, Step.subject_bind_apply, consulted.ongoingValue related]
      exact .ofExcept_bind related _ fun value _ => .ok _ related
  | first quark start stop => exact (consulted.firstValue related quark start stop).map _
  | between quark start stop => exact (consulted.intervalsBetween related quark start stop).map _
  | count quark t => exact (consulted.countAt related quark t).map _
  | histogram quark start stop buckets signal =>
      exact (consulted.histogram related quark start stop buckets signal).map _
  | growth quark start stop => exact (consulted.growth related quark start stop).map _
  | rates quarks times scale signal =>
      exact (consulted.rates related quarks times scale signal).map _

theorem question
    (consulted : Consulted R)
    (related : R s s')
    (question : Question) :
    Step.Matched R (question.step s) (question.step s') := by
  cases question with
  | interval t quark => exact (consulted.intervalAt related t quark).map _
  | snapshot t => exact consulted.snapshot related t

theorem describe
    (consulted : Consulted R)
    (related : R s s') :
    s'.subject.describe = s.subject.describe := by
  have outline := consulted.outline related
  have id : s'.subject.id = s.subject.id := congrArg Outline.id outline
  have status : s'.subject.status = s.subject.status := congrArg Outline.status outline
  unfold History.describe History.summary History.writerSummary History.latest
  rw [id, status, consulted.start related, consulted.currentEnd related,
    consulted.ongoing related, consulted.checkUsable related]

/-- Whatever is asked, it is answered alike. -/
theorem operation
    {operation : Operation}
    (consulted : Consulted R)
    (related : R s s')
    (asks : operation.Asks) :
    Step.Matched R (operation.step s) (operation.step s') := by
  cases operation with
  | call call =>
      cases call with
      | ask question => exact ((consulted.question related question).map _).map _
      | make change => exact absurd trivial asks
      | overwrite value quark => exact absurd trivial asks
      | close stop => exact absurd trivial asks
      | abandon => exact absurd trivial asks
  | look lookup =>
      have names : s'.subject.names = s.subject.names :=
        congrArg Outline.names (consulted.outline related)
      show Step.Matched _ ((Step.subject >>= _) s) ((Step.subject >>= _) s')
      rw [Step.subject_bind_apply, Step.subject_bind_apply, names]
      exact .ofExcept_bind related _ fun found _ => .ok _ related
  | scan scan => exact (consulted.scan related scan).map _
  | describe =>
      show Step.Matched _ ((Step.subject >>= _) s) ((Step.subject >>= _) s')
      rw [Step.subject_bind_apply, Step.subject_bind_apply, consulted.describe related]
      exact .ok _ related
  | dispose => exact asks.elim

end Consulted

namespace Poised

variable {bound bound' : Option Nat} {writing : Prop} {s s' : Placed History}

/-- What the writer does goes alike, and so does what is asked about instants. -/
theorem call
    (poised : Poised bound bound' writing s s')
    (call : Call)
    (may : call.Writes → writing)
    (judged : ∀ value ∈ (Operation.call call).values s', JudgedAlike bound bound' value)
    (roomy : bound = bound' ∨ s'.subject.names.Storable) :
    Step.Matched (Peers bound bound' (writing ∧ ¬ call.Ends)) (call.step s) (call.step s') := by
  have written : call.Writes → Peers bound bound' True s s' :=
    fun writes => poised.peers.mono fun _ => may writes
  cases call with
  | make change =>
      have follows : Step.Matched (Peers bound bound' True) (change.step s) (change.step s') := by
        rw [← change.run_script]
        exact (written trivial).follow change.script fun event member =>
          judged event.value (List.mem_map_of_mem member)
      exact .bind (follows.mono fun peers => peers.mono fun _ => trivial)
        fun _ _ _ _ related => .ok _ related
  | overwrite value quark =>
      have overwrites := (written trivial).overwrite (judged value List.mem_cons_self) quark
      exact .bind (overwrites.mono fun peers => peers.mono fun _ => trivial)
        fun _ _ _ _ related => .ok _ related
  | close stop =>
      have closes := (written trivial).close roomy stop
      exact .bind (closes.mono fun peers => peers.mono fun both => both.2 trivial)
        fun _ _ _ _ related => .ok _ related
  | abandon =>
      have settled := (written trivial).settle .cancelled
      exact .ok _ (settled.mono fun both => both.2 trivial)
  | ask question =>
      have asks := Poised.consulted.question poised question
      exact .bind (asks.mono fun later => later.peers.mono fun both => both.1)
        fun _ _ _ _ related => .ok _ related

/-- Every operation goes alike, as long as its values and the names are judged alike. -/
theorem operation
    (poised : Poised bound bound' writing s s')
    (operation : Operation)
    (may : operation.Writes → writing)
    (judged : ∀ value ∈ operation.values s', JudgedAlike bound bound' value)
    (roomy : bound = bound' ∨ s'.subject.names.Storable) :
    Step.Matched (Peers bound bound' (writing ∧ ¬ operation.Ends)) (operation.step s)
      (operation.step s') := by
  have asking : operation.Asks → Step.Matched (Peers bound bound' (writing ∧ ¬ operation.Ends))
      (operation.step s) (operation.step s') := fun asks =>
    (Poised.consulted.operation poised asks).mono fun later => later.peers.mono fun both => both.1
  cases operation with
  | call call =>
      exact .bind (poised.call call may judged roomy) fun _ _ _ _ related => .ok _ related
  | look lookup => exact asking trivial
  | scan scan => exact asking trivial
  | describe => exact asking trivial
  | dispose =>
      exact .bind (poised.peers.dispose.mono fun peers => peers.mono fun both => both.1)
        fun _ _ _ _ related => .ok _ related

end Poised

/-- Peers over backends with one bound say the same in all that is done to them. -/
theorem Peers.run
    {bound : Option Nat}
    {writing : Prop}
    {s s' : Placed History}
    {operations : List Operation}
    (peers : Peers bound bound writing s s')
    (orderly : Orderly operations)
    (may : ∀ operation ∈ operations, operation.Writes → writing)
    (inRange : ∀ before, before <+: operations →
      ((Step.each Operation.step before).reached s).subject.InRange)
    (inRange' : ∀ before, before <+: operations →
      ((Step.each Operation.step before).reached s').subject.InRange) :
    ∃ still reports r r',
      Step.each Operation.step operations s = .ok reports r
        ∧ Step.each Operation.step operations s' = .ok reports r'
        ∧ Peers bound bound still r r'
        ∧ (writing → (∀ operation ∈ operations, ¬ operation.Ends) → still) := by
  let allowed (_ : Operation) (s s' : Placed History) : Prop :=
    s.subject.InRange ∧ s'.subject.InRange
  have step : ∀ {writing s s'} (operation : Operation), allowed operation s s' →
      Peers bound bound writing s s' → (operation.Writes → writing) →
      Step.Matched (Peers bound bound (writing ∧ ¬ operation.Ends)) (operation.step s)
        (operation.step s') := by
    rintro writing s s' operation ⟨inRange, inRange'⟩ peers may
    have poised : Poised bound bound writing s s' := ⟨peers, inRange, inRange'⟩
    exact poised.operation operation may (fun _ _ => Or.inl rfl) (Or.inl rfl)
  refine orderly.matched step peers may fun before operation begins => ?_
  have begins := (List.prefix_append before [operation]).trans begins
  exact ⟨inRange before begins, inRange' before begins⟩

/-- Two histories give the same reports to all that asks. -/
def AnswersAlike (s s' : Placed History) : Prop :=
  ∀ questions : List Operation, (∀ question ∈ questions, question.Asks) → ∃ reports r r',
    Step.each Operation.step questions s = .ok reports r
      ∧ Step.each Operation.step questions s' = .ok reports r'

/-- Related histories that are asked alike give the same reports, whatever is asked of them. -/
theorem Consulted.answersAlike
    {R : Placed History → Placed History → Prop}
    {s s' : Placed History}
    (consulted : Consulted R)
    (related : R s s') :
    AnswersAlike s s' := by
  intro questions ask
  induction questions generalizing s s' with
  | nil => exact ⟨[], s, s', rfl, rfl⟩
  | cons question questions ih =>
      have asks := ask question List.mem_cons_self
      rcases (consulted.operation related asks).reached with ⟨told, outcome, outcome', relatedAfter⟩
      rcases ih relatedAfter (fun other member => ask other (List.mem_cons_of_mem _ member)) with
        ⟨reports, r, r', done, done'⟩
      exact ⟨told :: reports, r, r', Step.each_cons_of_ok outcome done,
        Step.each_cons_of_ok outcome' done'⟩

/-- Twins say the same in all that is done to them and asked of them. -/
theorem Twins.run
    {capacity : Nat}
    {writing : Prop}
    {s s' : Placed History}
    {operations : List Operation}
    (twins : Twins capacity writing s s')
    (orderly : Orderly operations)
    (may : ∀ operation ∈ operations, operation.Writes → writing)
    (small : ∀ value ∈ valuesOf operations s', Interval.sizeWith value ≤ capacity)
    (inRange : ∀ before, before <+: operations →
      ((Step.each Operation.step before).reached s').subject.InRange
        ∧ ((Step.each Operation.step before).reached s').subject.names.Storable) :
    ∃ reports r r',
      Step.each Operation.step operations s = .ok reports r
        ∧ Step.each Operation.step operations s' = .ok reports r' := by
  let allowed (operation : Operation) (_ s' : Placed History) : Prop :=
    s'.subject.InRange ∧ s'.subject.names.Storable
      ∧ ∀ value ∈ operation.values s', Interval.sizeWith value ≤ capacity
  have step : ∀ {writing s s'} (operation : Operation), allowed operation s s' →
      Twins capacity writing s s' → (operation.Writes → writing) →
      Step.Matched (Twins capacity (writing ∧ ¬ operation.Ends)) (operation.step s)
        (operation.step s') := by
    rintro writing s s' operation ⟨inRange, storable, small⟩ twins may
    have poised := (Ready.mk twins inRange).poised
    exact (poised.operation operation may
      (fun value member => judgedAlike_of_small (small value member)) (Or.inr storable)).mono
      Peers.twins
  rcases orderly.matched step twins may (by
    intro before operation begins
    have within := inRange before ((List.prefix_append before [operation]).trans begins)
    exact ⟨within.1, within.2, fun value member => small value (mem_valuesOf begins member)⟩) with
    ⟨still, reports, r, r', said, said', -, -⟩
  exact ⟨reports, r, r', said, said'⟩

/--
A history says the same over a memory and over a file with any settings, call
by call and fault by fault, if the values that are set fit into an inner node
of the file and the names have room in it.
-/
theorem same_reports_over_file
    {id : String}
    {start : Int}
    {name : String}
    {config : Tree.Config}
    {volume made : Volume}
    {file : History}
    {operations : List Operation}
    (sound : volume.Sound)
    (created : create id start (.file name config) volume = .ok (made, file))
    (orderly : Orderly operations)
    (small : ∀ value ∈ valuesOf operations ⟨made, file⟩,
      Interval.sizeWith value ≤ config.coreCapacity)
    (inRange : ∀ before, before <+: operations →
      ((Step.each Operation.step before).reached ⟨made, file⟩).subject.InRange
        ∧ ((Step.each Operation.step before).reached ⟨made, file⟩).subject.names.Storable) :
    ∃ memory reports r r',
      create id start .memory volume = .ok (volume, memory)
        ∧ Step.each Operation.step operations ⟨volume, memory⟩ = .ok reports r
        ∧ Step.each Operation.step operations ⟨made, file⟩ = .ok reports r' := by
  have createdMemory : ∃ memory, create id start .memory volume = .ok (volume, memory) := ⟨_, rfl⟩
  rcases createdMemory with ⟨memory, made_⟩
  rcases (twins_of_create sound made_ created).run orderly (fun _ _ _ => trivial) small inRange with
    ⟨reports, r, r', said, said'⟩
  exact ⟨memory, reports, r, r', made_, said, said'⟩

/-- Operations of many kinds, some of them in vain, up to the end of a history and beyond. -/
def dealings : List Operation :=
  [.call (.make (.intern (-1) ["a"])),
    .call (.make (.intern (-1) ["b", "c"])),
    .call (.make (.set 2 (.int 1) 0)),
    .call (.make (.increment 4 0)),
    .call (.make (.set 3 .null 0)),
    .call (.make (.set 4 (.int 5) 2)),
    .call (.overwrite (.int 7) 1),
    .call (.make (.remove 6 1)),
    .look (.resolve (-1) ["b", "c"]),
    .scan (.ongoing 2),
    .scan (.count 0 100),
    .call (.ask (.snapshot 6)),
    .call (.close 9),
    .scan (.rates [0] [20, 30] 1.0 .never),
    .dispose,
    .call (.ask (.interval 3 1)),
    .describe]

theorem inRange_dealings :
    ∃ made file,
      create "cramped" 0 (.file "cramped" cramping) .empty = .ok (made, file)
        ∧ (∀ before ∈ dealings.inits,
          ((Step.each Operation.step before).reached ⟨made, file⟩).subject.InRange
            ∧ ((Step.each Operation.step before).reached ⟨made, file⟩).subject.names.Storable)
        ∧ ∀ value ∈ valuesOf dealings ⟨made, file⟩,
          Interval.sizeWith value ≤ cramping.coreCapacity :=
  ⟨_, _, rfl, by decide +kernel, by decide +kernel⟩

theorem same_reports_in_dealings :
    ∃ made file memory reports r r',
      create "cramped" 0 (.file "cramped" cramping) .empty = .ok (made, file)
        ∧ create "cramped" 0 .memory .empty = .ok (.empty, memory)
        ∧ Step.each Operation.step dealings ⟨.empty, memory⟩ = .ok reports r
        ∧ Step.each Operation.step dealings ⟨made, file⟩ = .ok reports r' := by
  rcases inRange_dealings with ⟨made, file, created, inRange, small⟩
  have orderly : Orderly dealings := by decide
  rcases same_reports_over_file (by decide) created orderly small
    (fun before begins => inRange before ((List.mem_inits before dealings).mpr begins)) with
    ⟨memory, reports, r, r', rest⟩
  exact ⟨made, file, memory, reports, r, r', created, rest⟩

end Chronicle.History
