import Chronicle.History.Wrapping
import Chronicle.Proofs.History.Noting
import Chronicle.Proofs.History.Siting

/-!
# Eight bytes are enough

As long as nothing is closed at the latest instant, every sum that a history
keeps is an instant of eight bytes, and whatever is done to the history is the
same in eight bytes.  This holds over memory as over a file.
-/

namespace Chronicle

/-- An instant that eight bytes have room for. -/
def IsInstant (t : Int) : Prop :=
  -9223372036854775808 ≤ t ∧ t ≤ latestInstant

theorem wrapInstant_of_isInstant
    {t : Int}
    (isInstant : IsInstant t) :
    wrapInstant t = t := by
  rcases isInstant with ⟨low, high⟩
  unfold latestInstant at high
  exact Int64.toInt_ofInt_of_le (by omega) (by omega)

/-! ## The sums that are kept -/

namespace Recording

/-- The sums that a recording keeps: since when values are held, and where intervals must start. -/
def sums (recording : Recording) : List Int :=
  (recording.ongoing.slots.map (·.since)).toList ++ recording.store.nextStarts.toList

/-- A recording all of whose sums are instants of eight bytes. -/
def Bounded (recording : Recording) : Prop :=
  ∀ t ∈ recording.sums, IsInstant t

theorem Bounded.wrapped
    {recording : Recording}
    (bounded : recording.Bounded) :
    recording.wrapped = recording := by
  have slots : recording.ongoing.wrapped = recording.ongoing := by
    unfold Ongoing.wrapped
    congr 1
    refine (Array.map_congr_left fun slot member => ?_).trans (Array.map_id _)
    have kept : slot.since ∈ recording.sums := by
      refine List.mem_append_left _ (Array.mem_toList_iff.mpr ?_)
      exact Array.mem_map.mpr ⟨slot, member, rfl⟩
    rw [wrapInstant_of_isInstant (bounded _ kept)]
    rfl
  have starts : recording.store.wrapped = recording.store := by
    unfold Store.wrapped
    congr 1
    refine (Array.map_congr_left fun t member => ?_).trans (Array.map_id _)
    exact wrapInstant_of_isInstant
      (bounded t (List.mem_append_right _ (Array.mem_toList_iff.mpr member)))
  unfold Recording.wrapped
  rw [slots, starts]

/-- The store of a recording expects no other instants than those since when values are held. -/
theorem Takes.bounded
    {s : Placed Recording}
    {ledger : Ledger}
    (takes : Takes s ledger)
    (begun : IsInstant ledger.ongoing.start)
    (since : ∀ {quark slot}, ledger.slot? quark = some slot → IsInstant slot.since) :
    s.subject.Bounded := by
  intro t member
  rcases List.mem_append.mp member with held | expected
  · rcases Array.mem_map.mp (Array.mem_toList_iff.mp held) with ⟨slot, inSlots, rfl⟩
    rcases Array.mem_iff_getElem?.mp inSlots with ⟨quark, place⟩
    rw [takes.keeps.ongoing] at place
    exact since place
  · rcases Array.mem_iff_getElem?.mp (Array.mem_toList_iff.mp expected) with ⟨quark, place⟩
    have same : t = ((ledger.slot? quark).map (·.since)).getD ledger.ongoing.start := by
      rw [← takes.cursor quark]
      unfold Store.expectedStart
      rw [Int.toNat_natCast, Array.getD_eq_getD_getElem?, place]
      rfl
    rw [same]
    cases known : ledger.slot? quark with
    | none => exact begun
    | some slot => exact since known

end Recording

namespace History

variable {s : Placed History} {ledger : Ledger} {calls : List Call}

theorem wrapping_of_bounded
    {α : Type}
    {step : Step History α}
    (bounded : (step.reached s).subject.recording.Bounded) :
    wrapping step s = step s := by
  refine Step.thenUpdate_of_same ?_
  unfold wrapped
  rw [bounded.wrapped]

/-- While a history can be written to, its sums lie between its start and its end. -/
theorem Open.bounded
    (open_ : Open s ledger)
    (begun : IsInstant s.subject.start)
    (until_ : s.subject.names.size = 0 ∨ s.subject.currentEnd ≤ latestInstant) :
    s.subject.recording.Bounded := by
  have takes := open_.goes.takes
  have start : s.subject.start = ledger.ongoing.start := takes.keeps.start
  rw [start] at begun
  refine takes.bounded begun fun {quark slot} known => ?_
  have inside : quark < ledger.ongoing.slots.size := (Array.getElem?_eq_some_iff.mp known).1
  have since_le := open_.goes.current.since_le known
  have named := open_.named
  have ending := open_.ending
  exact ⟨Int.le_trans begun.1 (takes.keeps.tiled.start_le known), by omega⟩

/-- What completes a history changes nothing about its sums. -/
theorem leaves_finish_sums
    (stop : Int)
    (ns : Namespace)
    (s : Placed History) :
    Step.Leaves (fun r : Placed History => r.subject.recording.sums)
      (onStore (Store.finish stop ns)) s := by
  have store : Step.Leaves (fun r : Placed Store => r.subject.nextStarts) (Store.finish stop ns)
      ⟨s.volume, s.subject.recording.store⟩ := by
    refine Step.leaves_subject_bind (Step.leaves_ofExcept_bind fun _ _ => ?_)
    have backend : ∀ placed, Step.Leaves (fun _ => ()) (Backend.finish stop ns) placed :=
      fun _ => rfl
    exact (backend _).onPart fun _ _ => rfl
  have recording : Step.Leaves (fun r : Placed Recording => r.subject.sums)
      (Recording.onStore (Store.finish stop ns)) ⟨s.volume, s.subject.recording⟩ :=
    store.onPart fun after same => congrArg (fun starts => _ ++ Array.toList starts) same
  unfold onStore onRecording
  exact recording.onPart fun _ same => same

/-- A history that is given up after a failure keeps its recording. -/
theorem recording_orAbandon
    {α : Type}
    (step : Step History α)
    (s : Placed History) :
    ((orAbandon step).reached s).subject.recording = (step.reached s).subject.recording := by
  cases ends : step s with
  | ok a reached => rw [Step.reached_of_ok (orAbandon_of_ok ends), Step.reached_of_ok ends]
  | error fault reached =>
      rw [Step.reached_of_error (orAbandon_of_error reached ends), Step.reached_of_error ends]
      exact recording_settle .cancelled reached.subject

/-- What closing does once the recording is closed. -/
def completing (stop : Int) : Step History Unit := do
  onStore (Store.finish stop (← Step.subject).names)
  Step.update fun history =>
    settle .completed { history with currentEnd := max history.currentEnd stop }

theorem leaves_completing_sums
    (stop : Int)
    (s : Placed History) :
    Step.Leaves (fun r : Placed History => r.subject.recording.sums) (completing stop) s := by
  refine Step.leaves_subject_bind ((leaves_finish_sums ..).bind fun _ after _ => ?_)
  exact congrArg Recording.sums (recording_settle .completed _)

theorem closing_of_recorded
    {stop : Int}
    {between : Placed History}
    (usable : s.subject.checkUsable = .ok ())
    (closes : onRecording (Recording.close stop) s = .ok () between) :
    closing stop s = completing stop between := by
  unfold closing
  rw [Step.subject_bind_apply, usable, Step.ofExcept_ok, Step.pure_bind_apply]
  exact Step.bind_of_ok closes

/-- Closing leaves instants, if there is one behind the time at which it is done. -/
theorem Open.bounded_close
    {stop : Int}
    (open_ : Open s ledger)
    (begun : IsInstant s.subject.start)
    (until_ : s.subject.names.size = 0 ∨ s.subject.currentEnd ≤ latestInstant)
    (dated : s.subject.names.size = 0 ∨ stop < latestInstant) :
    ((History.close stop).reached s).subject.recording.Bounded := by
  by_cases early : stop < ledger.ongoing.latest
  · have refused : History.close stop s = _ := open_.close_of_early early
    rw [Step.reached_of_error refused, recording_settle]
    exact open_.bounded begun until_
  · have onTime := Int.not_lt.mp early
    rcases open_.goes.close onTime with ⟨⟨volume, closed⟩, done, takes, -⟩
    have recorded := closing_of_recorded open_.kept.checkUsable
      (onRecording_of_ok (done Store.insert Store.follows_insert))
    have sums : ((History.close stop).reached s).subject.recording.sums = closed.sums := by
      rw [close_eq_closing, recording_orAbandon, Step.reached_congr recorded]
      exact leaves_completing_sums stop _
    have start : s.subject.start = ledger.ongoing.start := open_.goes.takes.keeps.start
    have ongoing := Ledger.ongoing_close open_.goes.current onTime
    have start_le := open_.goes.current.start_le
    rcases begun with ⟨begun, started⟩
    rw [start] at begun started
    unfold Recording.Bounded
    rw [sums]
    refine takes.bounded ?_ fun {quark slot} known => ?_
    · rw [ongoing]
      exact ⟨begun, started⟩
    · have inside : quark < (ledger.close stop).ongoing.slots.size :=
        (Array.getElem?_eq_some_iff.mp known).1
      have same : slot = ⟨.null, stop + 1⟩ := by
        unfold Ledger.slot? at known
        rw [ongoing] at known inside
        rw [Array.getElem?_eq_getElem inside, Array.getElem_replicate] at known
        exact (Option.some.inj known).symm
      rw [Ledger.size_close] at inside
      have named := open_.named
      rw [same]
      have behind : -9223372036854775808 ≤ stop + 1 := by omega
      have within : stop + 1 ≤ latestInstant := by omega
      exact ⟨behind, within⟩

/-- Through a call after which the writer is still there, a history keeps its start. -/
theorem Open.start_of_call
    {call : Call}
    (open_ : Open s ledger)
    (inRange : s.subject.InRange)
    (stays : ¬ call.Ends) :
    (call.step.reached s).subject.start = s.subject.start := by
  cases call with
  | make change =>
      rcases open_.note change.script with ⟨after, noted⟩
      rw [Call.reached_make, ← change.run_script]
      exact (noted.open_.kept.keeps.start.trans noted.notes.start).trans
        open_.kept.keeps.start.symm
  | overwrite value quark =>
      rw [Call.reached_overwrite]
      have leaves : Step.Leaves (standing fun r : Placed Backend => r.subject.start)
          (History.overwrite value quark) s := leaves_overwrite value quark s
      exact leaves_beneath leaves
  | ask question =>
      rw [Call.reached_ask]
      exact (open_.kept.asked inRange question).start
  | close stop => exact absurd trivial stays
  | abandon => exact absurd trivial stays

/-! ## All calls -/

/-- Asking keeps the sums of a history. -/
theorem Kept.each_wrapping
    (kept : Kept s ledger)
    (bounded : s.subject.recording.Bounded)
    (asking : ∀ call ∈ calls, ¬ call.Writes)
    (inRange : ∀ before, before <+: calls →
      ((Step.each Call.step before).reached s).subject.InRange) :
    Step.each (fun call => wrapping call.step) calls s = Step.each Call.step calls s := by
  induction calls generalizing s with
  | nil => rfl
  | cons call calls ih =>
      rcases Step.prefixes_cons (fun r : Placed History => r.subject.InRange) inRange with
        ⟨now, later⟩
      have first := asking call List.mem_cons_self
      cases call with
      | ask question =>
          have asked := kept.asked now question
          have boundedAfter : ((Call.ask question).step.reached s).subject.recording.Bounded := by
            rw [Call.reached_ask, asked.subject]
            exact bounded
          refine Step.each_congr_cons (wrapping_of_bounded boundedAfter) (ih ?_ boundedAfter
            (fun other member => asking other (List.mem_cons_of_mem _ member)) later)
          rw [Call.reached_ask]
          exact asked.kept kept
      | _ => exact absurd trivial first

/-- Through all calls of its writer and after them the sums of a history are instants. -/
theorem Open.each_wrapping
    (open_ : Open s ledger)
    (lawful : Lawful calls)
    (inRange : ∀ before, before <+: calls →
      ((Step.each Call.step before).reached s).subject.InRange)
    (begun : IsInstant s.subject.start)
    (until_ : ∀ before, before <+: calls →
      ((Step.each Call.step before).reached s).subject.currentEnd ≤ latestInstant)
    (dated : ∀ stop, Call.close stop ∈ calls → stop < latestInstant) :
    Step.each (fun call => wrapping call.step) calls s = Step.each Call.step calls s := by
  induction calls generalizing s ledger with
  | nil => rfl
  | cons call calls ih =>
      rcases Step.prefixes_cons (fun r : Placed History => r.subject.InRange) inRange with
        ⟨now, later⟩
      rcases Step.prefixes_cons (fun r : Placed History => r.subject.currentEnd ≤ latestInstant)
        until_ with ⟨untilNow, untilLater⟩
      rcases List.pairwise_cons.mp lawful with ⟨first, rest⟩
      rcases open_.call now call with ⟨after, called⟩
      by_cases ends : call.Ends
      · have bounded : (call.step.reached s).subject.recording.Bounded := by
          cases call with
          | close stop =>
              rw [Call.reached_close]
              exact open_.bounded_close begun (Or.inr untilNow)
                (Or.inr (dated stop List.mem_cons_self))
          | abandon =>
              show (settle .cancelled s.subject).recording.Bounded
              rw [recording_settle]
              exact open_.bounded begun (Or.inr untilNow)
          | _ => exact ends.elim
        exact Step.each_congr_cons (wrapping_of_bounded bounded)
          (called.kept.each_wrapping bounded (fun other member => first other member ends) later)
      · have openAfter := called.open_ ends
        have begunAfter : IsInstant (call.step.reached s).subject.start := by
          rw [open_.start_of_call now ends]
          exact begun
        have bounded := openAfter.bounded begunAfter (Or.inr (untilLater [] List.nil_prefix))
        exact Step.each_congr_cons (wrapping_of_bounded bounded) (ih openAfter rest later begunAfter
          untilLater fun stop member => dated stop (List.mem_cons_of_mem _ member))

/--
Whatever is done to a new history is the same in eight bytes, as long as the
history stays within their instants and is not closed at the latest of them.
-/
theorem each_wrapping_of_created
    {id : String}
    {start : Int}
    {plan : Backend.Plan}
    {volume made : Volume}
    {history : History}
    (sound : volume.Sound)
    (created : create id start plan volume = .ok (made, history))
    (lawful : Lawful calls)
    (inRange : ∀ before, before <+: calls →
      ((Step.each Call.step before).reached ⟨made, history⟩).subject.InRange)
    (begun : IsInstant start)
    (until_ : ∀ before, before <+: calls →
      ((Step.each Call.step before).reached ⟨made, history⟩).subject.currentEnd ≤ latestInstant)
    (dated : ∀ stop, Call.close stop ∈ calls → stop < latestInstant) :
    Step.each (fun call => wrapping call.step) calls ⟨made, history⟩
      = Step.each Call.step calls ⟨made, history⟩ := by
  rcases open_of_create sound created with ⟨open_, -⟩
  have starts : history.start = start := open_.kept.keeps.start
  exact open_.each_wrapping lawful inRange (starts ▸ begun) until_ dated

end History

end Chronicle
