import Chronicle.Proofs.History.Running
import Chronicle.Proofs.Matching

/-!
# Peers

Peers are two histories that went through the same, each over a backend of its
own.  They keep one ledger.  Whatever is done to both goes alike and leaves
peers, as long as their backends judge the values and the names alike.
-/

namespace Chronicle.History

theorem checkUsable_of_disposed
    {history : History}
    (gone : history.disposed = true) :
    history.checkUsable = .error .disposed := by
  unfold checkUsable
  rw [if_pos gone]

/-- What starts by asking whether a history is usable finds that it was given up. -/
theorem usable_bind_of_disposed
    {α : Type}
    {s : Placed History}
    (gone : s.subject.disposed = true)
    (next : History → Step History α) :
    (Step.subject >>= fun history => Step.ofExcept history.checkUsable >>= fun _ => next history) s
      = .error .disposed s := by
  rw [Step.subject_bind_apply, checkUsable_of_disposed gone]
  rfl

/-- A history that was given up, with what became of its backend. -/
def givenUp
    (history : History)
    (backend : Backend) :
    History :=
  (settle .cancelled { history with disposed := true }).withBackend backend

/-- To give a history up is to give its backend up. -/
theorem dispose_of_backend
    {s : Placed History}
    {volume : Volume}
    {backend : Backend}
    (alive : s.subject.disposed = false)
    (gives : Backend.dispose ⟨s.volume, s.subject.backend⟩ = .ok () ⟨volume, backend⟩) :
    dispose s = .ok () ⟨volume, givenUp s.subject backend⟩ := by
  have same : (settle .cancelled { s.subject with disposed := true }).recording
      = s.subject.recording := recording_settle _ _
  unfold dispose
  rw [Step.subject_bind_apply, alive, if_neg Bool.false_ne_true, Step.update_bind_apply]
  have frees : Store.dispose ⟨s.volume, s.subject.recording.store⟩
      = .ok () ⟨volume, { s.subject.recording.store with backend }⟩ := by
    unfold Store.dispose Store.onBackend
    exact Step.onPart_of_ok gives
  unfold givenUp withBackend
  refine onRecording_of_ok (Step.onPart_of_ok ?_)
  rw [same]
  exact frees

theorem dispose_of_alive
    {s : Placed History}
    (alive : s.subject.disposed = false) :
    ∃ volume backend,
      dispose s = .ok () ⟨volume, givenUp s.subject backend⟩
        ∧ s.subject.backend.Alike backend
        ∧ (¬ s.subject.backend.Taking → volume = s.volume) := by
  rcases Backend.exists_dispose ⟨s.volume, s.subject.backend⟩ with
    ⟨⟨volume, backend⟩, gives, alike, -, stays⟩
  exact ⟨volume, backend, dispose_of_backend alive gives, alike, stays⟩

/-- A history is given up only once. -/
theorem dispose_of_disposed
    {s : Placed History}
    (gone : s.subject.disposed = true) :
    dispose s = .ok () s := by
  unfold dispose
  rw [Step.subject_bind_apply, if_pos gone]
  rfl

/-- Whether a value is small enough for a bound for the size of intervals, if there is one. -/
def Fits
    (bound : Option Nat)
    (value : Value) :
    Prop :=
  ∀ capacity, bound = some capacity → Interval.sizeWith value ≤ capacity

/-- Two bounds judge a value alike if they are one bound, or if the value is within both. -/
def JudgedAlike
    (bound bound' : Option Nat)
    (value : Value) :
    Prop :=
  bound = bound' ∨ Fits bound value ∧ Fits bound' value

/-- Two histories that answer by one ledger, over backends with the given bounds. -/
structure Peers
    (bound bound' : Option Nat)
    (writing : Prop)
    (s s' : Placed History) : Prop where
  outline : s'.subject.outline = s.subject.outline
  start : s'.subject.start = s.subject.start
  ongoing : s'.subject.recording.ongoing = s.subject.recording.ongoing
  capacity : s.subject.backend.maxIntervalSize? = bound
  capacity' : s'.subject.backend.maxIntervalSize? = bound'
  kept : s.subject.disposed = false → ∃ ledger,
    Kept s ledger ∧ Kept s' ledger ∧ (writing → Open s ledger ∧ Open s' ledger)

/-- Histories that answer by one ledger and tell the same about themselves are peers. -/
theorem Kept.peers
    {bound bound' : Option Nat}
    {writing : Prop}
    {s s' : Placed History}
    {ledger : Ledger}
    (kept : Kept s ledger)
    (kept' : Kept s' ledger)
    (writes : writing → Open s ledger ∧ Open s' ledger)
    (outline : s'.subject.outline = s.subject.outline)
    (capacity : s.subject.backend.maxIntervalSize? = bound)
    (capacity' : s'.subject.backend.maxIntervalSize? = bound') :
    Peers bound bound' writing s s' where
  outline := outline
  start := kept'.keeps.start.trans kept.keeps.start.symm
  ongoing := kept'.keeps.ongoing.trans kept.keeps.ongoing.symm
  capacity := capacity
  capacity' := capacity'
  kept _ := ⟨ledger, kept, kept', writes⟩

namespace Peers

variable {bound bound' : Option Nat} {writing : Prop} {s s' : Placed History}

theorem disposed
    (peers : Peers bound bound' writing s s') :
    s'.subject.disposed = s.subject.disposed :=
  congrArg Outline.disposed peers.outline

theorem names
    (peers : Peers bound bound' writing s s') :
    s'.subject.names = s.subject.names :=
  congrArg Outline.names peers.outline

theorem currentEnd
    (peers : Peers bound bound' writing s s') :
    s'.subject.currentEnd = s.subject.currentEnd :=
  congrArg Outline.currentEnd peers.outline

theorem checkUsable
    (peers : Peers bound bound' writing s s') :
    s'.subject.checkUsable = s.subject.checkUsable := by
  cases gone : s.subject.disposed with
  | true =>
      have gone' := peers.disposed.trans gone
      unfold History.checkUsable
      rw [gone, gone']
      rfl
  | false =>
      rcases peers.kept gone with ⟨ledger, kept, kept', -⟩
      rw [kept.checkUsable, kept'.checkUsable]

theorem checkTime
    (peers : Peers bound bound' writing s s')
    (t : Int) :
    s'.subject.checkTime t = s.subject.checkTime t := by
  unfold History.checkTime
  rw [peers.start, peers.currentEnd]

theorem ongoingValue
    (peers : Peers bound bound' writing s s')
    (quark : Int) :
    s'.subject.ongoingValue quark = s.subject.ongoingValue quark := by
  unfold History.ongoingValue
  rw [peers.checkUsable, peers.ongoing]

/-- What is judged alike fits both peers or neither, for the same reason. -/
theorem checkFits
    {value : Value}
    (peers : Peers bound bound' writing s s')
    (judged : JudgedAlike bound bound' value) :
    s'.subject.recording.store.checkFits value = s.subject.recording.store.checkFits value := by
  have capacity : s.subject.recording.store.backend.maxIntervalSize? = bound := peers.capacity
  have capacity' : s'.subject.recording.store.backend.maxIntervalSize? = bound' := peers.capacity'
  rcases judged with same | ⟨fits, fits'⟩
  · exact Store.checkFits_congr (by rw [capacity, capacity', same]) value
  · rw [← capacity] at fits
    rw [← capacity'] at fits'
    rw [Store.checkFits_eq_ok_iff.mpr fits, Store.checkFits_eq_ok_iff.mpr fits']

/-- The names of peers have room in both backends or in neither. -/
theorem accepts_iff
    (peers : Peers bound bound' writing s s')
    (roomy : bound = bound' ∨ s'.subject.names.Storable) :
    s'.subject.backend.Accepts s'.subject.names ↔ s.subject.backend.Accepts s.subject.names := by
  rw [Backend.accepts_iff, Backend.accepts_iff, peers.capacity, peers.capacity', peers.names]
  rcases roomy with same | storable
  · rw [same]
  · rw [peers.names] at storable
    exact ⟨fun _ => Or.inr storable, fun _ => Or.inr storable⟩

theorem mono
    {still : Prop}
    (peers : Peers bound bound' writing s s')
    (weaker : still → writing) :
    Peers bound bound' still s s' where
  outline := peers.outline
  start := peers.start
  ongoing := peers.ongoing
  capacity := peers.capacity
  capacity' := peers.capacity'
  kept := by
    intro alive
    rcases peers.kept alive with ⟨ledger, kept, kept', writes⟩
    exact ⟨ledger, kept, kept', fun holds => writes (weaker holds)⟩

theorem symm
    (peers : Peers bound bound' writing s s') :
    Peers bound' bound writing s' s where
  outline := peers.outline.symm
  start := peers.start.symm
  ongoing := peers.ongoing.symm
  capacity := peers.capacity'
  capacity' := peers.capacity
  kept := by
    intro alive
    rcases peers.kept (peers.disposed.symm.trans alive) with ⟨ledger, kept, kept', writes⟩
    exact ⟨ledger, kept', kept, fun holds => (writes holds).symm⟩

/-- Histories with one ledger are peers if they come from peers. -/
theorem of_kept
    {ledger : Ledger}
    {still : Prop}
    {r r' : Placed History}
    (peers : Peers bound bound' writing s s')
    (kept : Kept r ledger)
    (kept' : Kept r' ledger)
    (writes : still → Open r ledger ∧ Open r' ledger)
    (outline : r'.subject.outline = r.subject.outline)
    (alike : s.subject.backend.Alike r.subject.backend)
    (alike' : s'.subject.backend.Alike r'.subject.backend) :
    Peers bound bound' still r r' :=
  kept.peers kept' writes outline (alike.capacity.trans peers.capacity)
    (alike'.capacity.trans peers.capacity')

/-- What a history refuses once it was given up, peers refuse alike. -/
theorem matched_of_disposed
    {α : Type}
    {R : Placed History → Placed History → Prop}
    {step : Step History α}
    (peers : Peers bound bound' writing s s')
    (gone : s.subject.disposed = true)
    (refuses : ∀ {r : Placed History}, r.subject.disposed = true → step r = .error .disposed r)
    (related : R s s') :
    Step.Matched R (step s) (step s') := by
  rw [refuses gone, refuses (peers.disposed.trans gone)]
  exact .error .disposed related

/-! ## Writing -/

/-- Entering a path goes alike. -/
theorem intern
    (peers : Peers bound bound' True s s')
    (base : Int)
    (path : List String) :
    Step.Matched (Peers bound bound' True) (History.intern base path s)
      (History.intern base path s') := by
  cases gone : s.subject.disposed with
  | true =>
      have gone' := peers.disposed.trans gone
      unfold History.intern
      rw [Step.subject_bind_apply, Step.subject_bind_apply, peers.names]
      cases s.subject.names.resolve? base path with
      | some quark => exact .ok quark peers
      | none =>
          simp only [checkUsable_of_disposed gone, checkUsable_of_disposed gone']
          exact .error .disposed peers
  | false =>
      rcases peers.kept gone with ⟨ledger, -, -, writes⟩
      rcases writes trivial with ⟨open_, open'⟩
      have intern' := open'.intern base path
      rw [peers.names] at intern'
      rcases open_.intern base path with
        ⟨names, quark, r, enters, done, openAfter, outline, alike⟩ | ⟨fault, refuses, failed⟩
      · rcases intern' with
          ⟨names', quark', r', enters', done', openAfter', outline', alike'⟩ | ⟨fault', refuses', -⟩
        · cases enters.symm.trans enters'
          rw [done, done']
          refine .ok quark (peers.of_kept openAfter.kept openAfter'.kept
            (fun _ => ⟨openAfter, openAfter'⟩) ?_ alike alike')
          rw [outline, outline', peers.outline]
        · cases enters.symm.trans refuses'
      · rcases intern' with ⟨names', quark', r', enters', -⟩ | ⟨fault', refuses', failed'⟩
        · cases refuses.symm.trans enters'
        · cases refuses.symm.trans refuses'
          rw [failed, failed']
          exact .error fault peers

/-- Setting a value that is judged alike goes alike. -/
theorem set
    {value : Value}
    (peers : Peers bound bound' True s s')
    (judged : JudgedAlike bound bound' value)
    (t quark : Int) :
    Step.Matched (Peers bound bound' True) (History.set t value quark s)
      (History.set t value quark s') := by
  cases gone : s.subject.disposed with
  | true =>
      exact peers.matched_of_disposed gone (fun dead => usable_bind_of_disposed dead _) peers
  | false =>
      rcases peers.kept gone with ⟨ledger, -, -, writes⟩
      rcases writes trivial with ⟨open_, open'⟩
      have same := peers.checkFits judged
      cases changed : ledger.change (s.subject.recording.store.checkFits value) t value quark with
      | error fault =>
          have failed : setWith Store.insert t value quark s = .error fault s :=
            open_.set_of_error changed
          have failed' : setWith Store.insert t value quark s' = .error fault s' :=
            open'.set_of_error (by rw [same]; exact changed)
          rw [← setWith_insert, failed, failed']
          exact .error fault peers
      | ok after =>
          rcases open_.set changed with ⟨r, done, openAfter, outline, alike⟩
          rcases open'.set (by rw [same]; exact changed) with
            ⟨r', done', openAfter', outline', alike'⟩
          rw [← setWith_insert, done Store.insert Store.follows_insert,
            done' Store.insert Store.follows_insert]
          refine .ok () (peers.of_kept openAfter.kept openAfter'.kept
            (fun _ => ⟨openAfter, openAfter'⟩) ?_ alike alike')
          rw [outline, outline', peers.outline, peers.currentEnd]

/-- Following a script about values that are judged alike goes alike. -/
theorem follow
    {α : Type}
    (script : Script α)
    (peers : Peers bound bound' True s s')
    (judged : ∀ event ∈ script.events s', JudgedAlike bound bound' event.value) :
    Step.Matched (Peers bound bound' True) (script.run s) (script.run s') := by
  induction script generalizing s s' with
  | done a => exact .ok a peers
  | fail fault => exact .error fault peers
  | held quark next ih =>
      show Step.Matched _ ((Step.subject >>= _) s) ((Step.subject >>= _) s')
      rw [Step.subject_bind_apply, Step.subject_bind_apply, peers.ongoingValue]
      refine .ofExcept_bind peers _ fun value read => ih value peers ?_
      intro event member
      apply judged event
      unfold Script.events
      rw [peers.ongoingValue, read]
      exact member
  | under quark next ih =>
      show Step.Matched _ ((Step.subject >>= _) s) ((Step.subject >>= _) s')
      rw [Step.subject_bind_apply, Step.subject_bind_apply, peers.names]
      refine .ofExcept_bind peers _ fun inner read => ih inner peers ?_
      intro event member
      apply judged event
      unfold Script.events
      rw [peers.names, read]
      exact member
  | fit value next ih =>
      have alike : JudgedAlike bound bound' value := judged (.asked value) List.mem_cons_self
      have same := peers.checkFits alike
      show Step.Matched _ ((Step.subject >>= _) s) ((Step.subject >>= _) s')
      rw [Step.subject_bind_apply, Step.subject_bind_apply, same]
      refine .ofExcept_bind peers _ fun done read => ih peers ?_
      intro event member
      refine judged event (List.mem_cons_of_mem _ ?_)
      rw [same, read]
      exact member
  | intern base path next ih =>
      refine .bind (peers.intern base path) fun quark r r' ends related => ih quark related ?_
      intro event member
      apply judged event
      unfold Script.events
      rw [ends]
      exact member
  | set t value quark next ih =>
      have alike : JudgedAlike bound bound' value := by
        cases ends : History.set t value quark s' with
        | ok a r' =>
            refine judged (.accepted ⟨t, value, quark⟩) ?_
            unfold Script.events
            rw [ends]
            exact List.mem_cons_self
        | error fault r' =>
            refine judged (.refused ⟨t, value, quark⟩) ?_
            unfold Script.events
            rw [ends]
            exact List.mem_cons_self
      refine .bind (peers.set alike t quark) fun done r r' ends related => ih related ?_
      intro event member
      apply judged event
      unfold Script.events
      rw [ends]
      exact List.mem_cons_of_mem _ member

/-- Replacing what is held by a value that is judged alike goes alike. -/
theorem overwrite
    {value : Value}
    (peers : Peers bound bound' True s s')
    (judged : JudgedAlike bound bound' value)
    (quark : Int) :
    Step.Matched (Peers bound bound' True) (History.overwrite value quark s)
      (History.overwrite value quark s') := by
  cases gone : s.subject.disposed with
  | true =>
      exact peers.matched_of_disposed gone (fun dead => usable_bind_of_disposed dead _) peers
  | false =>
      rcases peers.kept gone with ⟨ledger, -, -, writes⟩
      rcases writes trivial with ⟨open_, open'⟩
      have same := peers.checkFits judged
      have overwrite' := open'.overwrite value quark
      rw [same] at overwrite'
      rcases open_.overwrite value quark with
        ⟨place, slot, r, fits, found, at_, done, openAfter, outline, alike⟩
          | ⟨fault, missing, failed⟩
      · rcases overwrite' with
          ⟨place', slot', r', -, found', at', done', openAfter', outline', alike'⟩
            | ⟨fault', missing', -⟩
        · cases found.symm.trans found'
          obtain rfl : place = place' := Int.ofNat_inj.mp (at_.symm.trans at')
          rw [done, done']
          refine .ok () (peers.of_kept openAfter.kept openAfter'.kept
            (fun _ => ⟨openAfter, openAfter'⟩) ?_ alike alike')
          rw [outline, outline', peers.outline]
        · rw [fits] at missing'
          cases found.symm.trans missing'
      · rcases overwrite' with ⟨place', slot', r', fits', found', -⟩ | ⟨fault', missing', failed'⟩
        · rw [fits'] at missing
          cases found'.symm.trans missing
        · cases missing.symm.trans missing'
          rw [failed, failed']
          exact .error fault peers

/-- What the writer leaves when it is gone is alike. -/
theorem settle
    (peers : Peers bound bound' writing s s')
    (status : Status) :
    Peers bound bound' False ⟨s.volume, History.settle status s.subject⟩
      ⟨s'.volume, History.settle status s'.subject⟩ := by
  have outline : (History.settle status s'.subject).outline
      = (History.settle status s.subject).outline := by
    rw [outline_settle, outline_settle, peers.outline]
    exact congrArg (fun o : Outline => { s.subject.outline with status := status.settled o.status })
      peers.outline
  constructor
  · exact outline
  · show (History.settle status s'.subject).recording.store.start
      = (History.settle status s.subject).recording.store.start
    rw [recording_settle, recording_settle]
    exact peers.start
  · show (History.settle status s'.subject).recording.ongoing
      = (History.settle status s.subject).recording.ongoing
    rw [recording_settle, recording_settle]
    exact peers.ongoing
  · show (History.settle status s.subject).recording.store.backend.maxIntervalSize? = bound
    rw [recording_settle]
    exact peers.capacity
  · show (History.settle status s'.subject).recording.store.backend.maxIntervalSize? = bound'
    rw [recording_settle]
    exact peers.capacity'
  · intro alive
    have was : s.subject.disposed = false :=
      (congrArg Outline.disposed (outline_settle status s.subject)).symm.trans alive
    rcases peers.kept was with ⟨ledger, kept, kept', -⟩
    exact ⟨ledger, kept.settle status, kept'.settle status, False.elim⟩

/-- Closing goes alike, and where there is no room for the names it fails alike. -/
theorem close
    (peers : Peers bound bound' True s s')
    (roomy : bound = bound' ∨ s'.subject.names.Storable)
    (stop : Int) :
    Step.Matched (Peers bound bound' False) (History.close stop s) (History.close stop s') := by
  cases gone : s.subject.disposed with
  | true =>
      have gone' := peers.disposed.trans gone
      have fails : ∀ {r : Placed History}, r.subject.disposed = true →
          History.close stop r
            = .error .disposed ⟨r.volume, History.settle .cancelled r.subject⟩ := by
        intro r disposed
        unfold History.close
        apply orAbandon_of_error r
        rw [Step.subject_bind_apply, checkUsable_of_disposed disposed]
        rfl
      rw [fails gone, fails gone']
      exact .error .disposed (peers.settle .cancelled)
  | false =>
      rcases peers.kept gone with ⟨ledger, -, -, writes⟩
      rcases writes trivial with ⟨open_, open'⟩
      rw [← closeWith_insert]
      by_cases early : stop < ledger.ongoing.latest
      · rw [open_.close_of_early early, open'.close_of_early early]
        exact .error _ (peers.settle .cancelled)
      · have onTime := Int.not_lt.mp early
        have accepts := peers.accepts_iff roomy
        have status : s'.subject.status = s.subject.status :=
          congrArg Outline.status peers.outline
        rcases open_.close onTime with
          ⟨r, kept, alike, ⟨accepted, done, outline, -⟩ | ⟨refused, failed, outline⟩⟩
        · rcases open'.close onTime with
            ⟨r', kept', alike', ⟨-, done', outline', -⟩ | ⟨refused', -⟩⟩
          · rw [done Store.insert Store.follows_insert, done' Store.insert Store.follows_insert]
            refine .ok () (peers.of_kept kept kept' False.elim ?_ alike alike')
            rw [outline, outline', peers.outline, peers.currentEnd, status]
          · exact absurd (accepts.mpr accepted) refused'
        · rcases open'.close onTime with
            ⟨r', kept', alike', ⟨accepted', -⟩ | ⟨-, failed', outline'⟩⟩
          · exact absurd (accepts.mp accepted') refused
          · rw [failed Store.insert Store.follows_insert,
              failed' Store.insert Store.follows_insert, peers.names]
            refine .error _ (peers.of_kept kept kept' False.elim ?_ alike alike')
            rw [outline, outline', peers.outline, status]

/-- Giving peers up goes alike. -/
theorem dispose
    (peers : Peers bound bound' writing s s') :
    Step.Matched (Peers bound bound' writing) (History.dispose s) (History.dispose s') := by
  cases gone : s.subject.disposed with
  | true =>
      rw [dispose_of_disposed gone, dispose_of_disposed (peers.disposed.trans gone)]
      exact .ok () peers
  | false =>
      rcases dispose_of_alive gone with ⟨volume, backend, gives, alike, -⟩
      rcases dispose_of_alive (peers.disposed.trans gone) with
        ⟨volume', backend', gives', alike', -⟩
      rw [gives, gives']
      have recording : ∀ history : History, (History.settle .cancelled
          { history with disposed := true }).recording = history.recording :=
        fun history => recording_settle _ _
      have outline : (givenUp s'.subject backend').outline
          = (givenUp s.subject backend).outline := by
        show (History.settle .cancelled { s'.subject with disposed := true }).outline
          = (History.settle .cancelled { s.subject with disposed := true }).outline
        have marked : ({ s'.subject with disposed := true } : History).outline
            = ({ s.subject with disposed := true } : History).outline :=
          congrArg (fun o : Outline => { o with disposed := true }) peers.outline
        rw [outline_settle, outline_settle, marked]
        exact congrArg
          (fun o : Outline => { s.subject.outline with
            disposed := true
            status := Status.settled .cancelled o.status }) peers.outline
      refine .ok () ⟨outline, ?_, ?_, ?_, ?_, ?_⟩
      · exact alike'.start.trans (peers.start.trans alike.start.symm)
      · show (History.settle .cancelled { s'.subject with disposed := true }).recording.ongoing
          = (History.settle .cancelled { s.subject with disposed := true }).recording.ongoing
        rw [recording, recording]
        exact peers.ongoing
      · exact alike.capacity.trans peers.capacity
      · exact alike'.capacity.trans peers.capacity'
      · intro alive
        have dead : (givenUp s.subject backend).disposed = true :=
          congrArg Outline.disposed
            (outline_settle .cancelled { s.subject with disposed := true })
        exact absurd (dead.symm.trans alive) (by decide)

end Peers

/-- Histories that begin at one time are peers, wherever their backends are made. -/
theorem peers_of_create
    {id : String}
    {start : Int}
    {plan plan' : Backend.Plan}
    {volume volume' made made' : Volume}
    {history history' : History}
    (sound : volume.Sound)
    (created : create id start plan volume = .ok (made, history))
    (sound' : volume'.Sound)
    (created' : create id start plan' volume' = .ok (made', history')) :
    Peers plan.capacity? plan'.capacity? True ⟨made, history⟩ ⟨made', history'⟩ := by
  rcases open_of_create sound created with ⟨open_, outline, capacity⟩
  rcases open_of_create sound' created' with ⟨open', outline', capacity'⟩
  exact open_.kept.peers open'.kept (fun _ => ⟨open_, open'⟩) (outline'.trans outline.symm) capacity
    capacity'

end Chronicle.History
