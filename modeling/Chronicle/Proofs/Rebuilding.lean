import Chronicle.Proofs.Backend.Heading
import Chronicle.Proofs.CallingOff
import Chronicle.Proofs.History.Equivalence
import Chronicle.Proofs.History.Reopening

/-!
# Building anew

What a build makes of a new history depends on its events and on nothing else:
neither on where the history is kept nor on what was in its file before.  A
build that completes leaves a file that opens to the same answers; any other
leaves one that nobody opens.
-/

namespace Chronicle.Replay

open History (AnswersAlike Kept Open Peers Poised Standing beneath ground standing)

/-! ## In two places -/

section Matched

variable {bound : Option Nat} {s s' : Placed History}

theorem matched_apply
    (peers : Peers bound bound True s s')
    (change : Change) :
    Step.Matched (Peers bound bound True) (apply change s) (apply change s') := by
  rw [← run_script]
  exact peers.follow (script change) fun _ _ => Or.inl rfl

theorem matched_applyAll
    (peers : Peers bound bound True s s')
    (tally : Tally)
    (changes : List Change) :
    Step.Matched (Peers bound bound True) (applyAll tally changes s)
      (applyAll tally changes s') := by
  induction changes generalizing s s' tally with
  | nil => exact .ok tally peers
  | cons change later ih =>
      refine .bind (matched_apply peers change).outcome fun told r r' _ related => ?_
      cases told with
      | ok done => exact ih related _
      | error fault =>
          by_cases fatal : fault.isFatal = true
          · simp only [fatal, if_true]
            exact .error fault related
          · simp only [fatal]
            exact ih related _

theorem matched_deliver
    (peers : Peers bound bound True s s')
    (tally : Tally)
    (event : Event) :
    Step.Matched (Peers bound bound True) (deliver tally event s) (deliver tally event s') := by
  cases event with
  | changes changes => exact matched_applyAll peers _ changes
  | refused fault => exact .ok _ peers
  | broken => exact .error .cancelled peers

/-- Peers that are given up after a failure end as peers without a writer. -/
theorem matched_orAbandon_bind
    {α β : Type}
    {step : Step History α}
    {next : α → Step History β}
    (matched : Step.Matched (Peers bound bound True) (step s) (step s'))
    (later : ∀ a r r', Peers bound bound True r r' →
      Step.Matched (Peers bound bound False) (next a r) (next a r')) :
    Step.Matched (Peers bound bound False) ((History.orAbandon step >>= next) s)
      ((History.orAbandon step >>= next) s') := by
  cases ends : step s with
  | ok a r =>
      cases ends' : step s' with
      | ok b r' =>
          rw [ends, ends'] at matched
          cases matched with
          | ok a related =>
              rw [Step.bind_of_ok (History.orAbandon_of_ok ends),
                Step.bind_of_ok (History.orAbandon_of_ok ends')]
              exact later a r r' related
      | error fault r' =>
          rw [ends, ends'] at matched
          cases matched
  | error fault r =>
      cases ends' : step s' with
      | ok b r' =>
          rw [ends, ends'] at matched
          cases matched
      | error other r' =>
          rw [ends, ends'] at matched
          cases matched with
          | error fault related =>
              rw [Step.bind_of_error (History.orAbandon_of_error r ends),
                Step.bind_of_error (History.orAbandon_of_error r' ends')]
              exact .error fault (related.settle .cancelled)

theorem matched_callOff
    (peers : Peers bound bound True s s')
    (tally : Tally) :
    Step.Matched (Peers bound bound False) (callOff tally s) (callOff tally s') := by
  have latest : s'.subject.latest = s.subject.latest := congrArg Ongoing.latest peers.ongoing
  unfold callOff
  rw [Step.subject_bind_apply, Step.subject_bind_apply, latest]
  exact .ok _ (peers.settle .cancelled)

/-- Peers take in events alike; whether they go on or have ended tells whether there is a writer. -/
theorem matched_feed_bind
    {β : Type}
    {next : Progress → Step History β}
    (peers : Peers bound bound True s s')
    (goesOn : ∀ tally r r', Peers bound bound True r r' →
      Step.Matched (Peers bound bound False) (next (.reading tally) r) (next (.reading tally) r'))
    (ends : ∀ outcome r r', Peers bound bound False r r' →
      Step.Matched (Peers bound bound False) (next (.ended outcome) r) (next (.ended outcome) r'))
    (signal : Signal)
    (question : Nat)
    (tally : Tally)
    (events : List Event) :
    Step.Matched (Peers bound bound False) ((feed signal question tally events >>= next) s)
      ((feed signal question tally events >>= next) s') := by
  induction events generalizing s s' question tally with
  | nil => exact goesOn tally s s' peers
  | cons event later ih =>
      rw [feed_cons]
      by_cases asked : signal question = true
      · simp only [if_pos asked, bind_assoc, pure_bind]
        exact .bind (matched_callOff peers tally) fun outcome r r' _ related =>
          ends outcome r r' related
      · simp only [if_neg asked, bind_assoc]
        exact matched_orAbandon_bind (matched_deliver peers tally event)
          fun counted r r' related => ih related (question + 1) counted

theorem matched_conclude
    (peers : Peers bound bound True s s')
    (calledOff : Bool)
    (tally : Tally) :
    Step.Matched (Peers bound bound False) (conclude calledOff tally s)
      (conclude calledOff tally s') := by
  have latest : s'.subject.latest = s.subject.latest := congrArg Ongoing.latest peers.ongoing
  cases calledOff with
  | true => exact matched_callOff peers tally
  | false =>
      show Step.Matched _ ((Step.subject >>= _) s) ((Step.subject >>= _) s')
      rw [Step.subject_bind_apply, Step.subject_bind_apply, latest]
      exact .bind (peers.close (Or.inl rfl) _) fun _ r r' _ related => .ok _ related

/-- Built from the same events, peers end alike. -/
theorem matched_run
    (peers : Peers bound bound True s s')
    (signal : Signal)
    (events : List Event) :
    Step.Matched (Peers bound bound False) (run signal events s) (run signal events s') :=
  matched_feed_bind peers
    (fun tally _ _ related => matched_conclude related (signal (0 + events.length)) tally)
    (fun outcome _ _ related => .ok outcome related) signal 0 {} events

end Matched

/-! ## How a build ends -/

/--
A build that does not fail was called off before an event or behind the last
one, or has closed its history.
-/
theorem run_eq_ok
    {signal : Signal}
    {events : List Event}
    {s ended : Placed History}
    {outcome : Outcome}
    (runs : run signal events s = .ok outcome ended) :
    feed signal 0 {} events s = .ok (.ended outcome) ended
      ∨ ∃ tally between,
        feed signal 0 {} events s = .ok (.reading tally) between
          ∧ (callOff tally between = .ok outcome ended
            ∨ outcome.status = .completed
              ∧ History.close outcome.stop between = .ok () ended) := by
  rcases Step.bind_eq_ok_iff.mp runs with ⟨progress, between, feeds, goesOn⟩
  cases progress with
  | ended stopped =>
      cases goesOn
      exact Or.inl feeds
  | reading tally =>
      refine Or.inr ⟨tally, between, feeds, ?_⟩
      cases fires : signal (0 + events.length) with
      | true =>
          have stops : conclude true tally between = .ok outcome ended := fires ▸ goesOn
          exact Or.inl stops
      | false =>
          have concludes : conclude false tally between = .ok outcome ended := fires ▸ goesOn
          rcases Step.bind_eq_ok_iff.mp concludes with ⟨_, _, ⟨⟩, later⟩
          rcases Step.bind_eq_ok_iff.mp later with ⟨_, _, closes, ⟨⟩⟩
          exact Or.inr ⟨rfl, closes⟩

/-- A build that has ended before the end of its events was called off. -/
theorem status_of_feed
    {signal : Signal}
    {question : Nat}
    {tally : Tally}
    {events : List Event}
    {s ended : Placed History}
    {outcome : Outcome}
    (feeds : feed signal question tally events s = .ok (.ended outcome) ended) :
    outcome.status = .cancelled := by
  induction events generalizing question tally s with
  | nil => cases feeds
  | cons event later ih =>
      rw [feed_cons] at feeds
      by_cases asked : signal question = true
      · rw [if_pos asked] at feeds
        cases feeds
        rfl
      · rw [if_neg asked] at feeds
        rcases Step.bind_eq_ok_iff.mp feeds with ⟨counted, between, -, rest⟩
        exact ih rest

/-! ## What a build leaves alone -/

section Leaves

variable {γ : Type} {seen : Volume → γ} {s : Placed History}

theorem leaves_apply
    (frontal : Volume.Frontal seen)
    (change : Change)
    (s : Placed History) :
    Step.Leaves (standing (Backend.ground seen)) (apply change) s := by
  rw [← run_script]
  exact (script change).leaves_run (Backend.leaves_insert frontal) s

theorem leaves_applyAll
    (frontal : Volume.Frontal seen)
    (tally : Tally)
    (changes : List Change)
    (s : Placed History) :
    Step.Leaves (standing (Backend.ground seen)) (applyAll tally changes) s := by
  induction changes generalizing tally s with
  | nil => rfl
  | cons change later ih =>
      refine (leaves_apply frontal change s).outcome.bind fun told after _ => ?_
      cases told with
      | ok done => exact ih _ after
      | error fault =>
          by_cases fatal : fault.isFatal = true
          · simp only [fatal, if_true]
            rfl
          · simp only [fatal]
            exact ih _ after

theorem leaves_deliver
    (frontal : Volume.Frontal seen)
    (tally : Tally)
    (event : Event)
    (s : Placed History) :
    Step.Leaves (standing (Backend.ground seen)) (deliver tally event) s := by
  cases event with
  | changes changes => exact leaves_applyAll frontal _ changes s
  | refused fault => rfl
  | broken => rfl

theorem leaves_callOff
    (seen : Volume → γ)
    (tally : Tally)
    (s : Placed History) :
    Step.Leaves (ground seen) (callOff tally) s :=
  History.beneath_settle _ .cancelled s

theorem leaves_feed
    (frontal : Volume.Frontal seen)
    (signal : Signal)
    (question : Nat)
    (tally : Tally)
    (events : List Event)
    (s : Placed History) :
    Step.Leaves (ground seen) (feed signal question tally events) s := by
  induction events generalizing question tally s with
  | nil => rfl
  | cons event later ih =>
      rw [feed_cons]
      by_cases asked : signal question = true
      · rw [if_pos asked]
        exact (leaves_callOff seen tally s).bind fun _ _ _ => rfl
      · rw [if_neg asked]
        have delivers := History.leaves_beneath (leaves_deliver frontal tally event s)
        exact (History.leaves_orAbandon delivers).bind fun counted after _ =>
          ih (question + 1) counted after

theorem spares_conclude
    (frontal : Volume.Frontal seen)
    (calledOff : Bool)
    (tally : Tally)
    (s : Placed History) :
    Step.Spares (ground seen) (conclude calledOff tally) s := by
  cases calledOff with
  | true => exact (leaves_callOff seen tally s).spares
  | false =>
      refine Step.Leaves.bind_spares rfl fun _ _ subject => ?_
      cases subject
      refine (History.spares_close frontal _ s).bind fun _ _ _ _ failed => ?_
      cases failed

/-- A build that fails leaves the front of the file as it was. -/
theorem spares_run
    (frontal : Volume.Frontal seen)
    (signal : Signal)
    (events : List Event)
    (s : Placed History) :
    Step.Spares (ground seen) (run signal events) s := by
  refine (leaves_feed frontal signal 0 {} events s).bind_spares fun progress after _ => ?_
  cases progress with
  | ended outcome => exact Step.Leaves.spares rfl
  | reading tally => exact spares_conclude frontal _ tally after

/-- Whether a build has completed its history. -/
def Completes (result : Except Fault Outcome) : Prop :=
  ∃ outcome, result = .ok outcome ∧ outcome.status = .completed

/-- Unless a build completes its history, the front of the file is as it was before. -/
theorem ground_of_run
    {signal : Signal}
    {events : List Event}
    {result : Except Fault Outcome}
    {ended : Placed History}
    (frontal : Volume.Frontal seen)
    (ends : (run signal events).outcome s = .ok result ended)
    (incomplete : ¬ Completes result) :
    ground seen ended = ground seen s := by
  have runs := Step.ofExcept_of_outcome ends
  cases result with
  | error fault => exact spares_run frontal signal events s fault ended runs
  | ok outcome =>
      have fed := leaves_feed frontal signal 0 {} events s
      unfold Step.Leaves at fed
      rcases run_eq_ok runs with feeds | ⟨tally, between, feeds, stops | ⟨completes, -⟩⟩
      · rw [Step.reached_of_ok feeds] at fed
        exact fed
      · rw [Step.reached_of_ok feeds] at fed
        cases stops
        exact (leaves_callOff seen tally between).trans fed
      · exact absurd ⟨_, rfl, completes⟩ incomplete

end Leaves

/-! ## What a completed build has done -/

/-- What is left when an event was taken in can be written to. -/
theorem exists_open_of_deliver
    {event : Event}
    {tally counted : Tally}
    {s reached : Placed History}
    {ledger : Ledger}
    (open_ : Open s ledger)
    (delivers : History.orAbandon (deliver tally event) s = .ok counted reached) :
    ∃ after, Open reached after
      ∧ standing (Backend.ground Volume.names) reached
        = standing (Backend.ground Volume.names) s := by
  have leaves := leaves_deliver Volume.frontal_names tally event s
  unfold Step.Leaves at leaves
  by_cases whole : event = .broken
  · subst whole
    have fails : deliver tally .broken s = .error .cancelled s := rfl
    cases (History.orAbandon_of_error s fails).symm.trans delivers
  · rcases exists_deliver open_ whole tally with ⟨_, between, delivered, built, -⟩
    rw [Step.reached_of_ok delivered] at leaves
    cases (History.orAbandon_of_ok delivered).symm.trans delivers
    rcases built.open_ with ⟨after, openAfter⟩
    exact ⟨after, openAfter, leaves⟩

/-- Events that were all taken in leave a history that can be written to, in the same place. -/
theorem exists_open_of_feed
    {signal : Signal}
    {question : Nat}
    {tally counted : Tally}
    {events : List Event}
    {s reached : Placed History}
    {ledger : Ledger}
    (open_ : Open s ledger)
    (feeds : feed signal question tally events s = .ok (.reading counted) reached) :
    ∃ after, Open reached after
      ∧ standing (Backend.ground Volume.names) reached
        = standing (Backend.ground Volume.names) s := by
  induction events generalizing question tally s ledger with
  | nil =>
      cases feeds
      exact ⟨ledger, open_, rfl⟩
  | cons event later ih =>
      rw [feed_cons] at feeds
      by_cases asked : signal question = true
      · rw [if_pos asked] at feeds
        cases feeds
      · rw [if_neg asked] at feeds
        rcases Step.bind_eq_ok_iff.mp feeds with ⟨told, between, delivers, rest⟩
        rcases exists_open_of_deliver open_ delivers with ⟨ledgerBetween, openBetween, same⟩
        rcases ih openBetween rest with ⟨after, openAfter, stays⟩
        exact ⟨after, openAfter, stays.trans same⟩

/-- A build that completes its history has closed it at its latest change. -/
theorem closes_of_run
    {signal : Signal}
    {events : List Event}
    {s ended : Placed History}
    {ledger : Ledger}
    {outcome : Outcome}
    (open_ : Open s ledger)
    (runs : run signal events s = .ok outcome ended)
    (completes : outcome.status = .completed) :
    ∃ before after, Open before after
      ∧ standing (Backend.ground Volume.names) before
        = standing (Backend.ground Volume.names) s
      ∧ History.close outcome.stop before = .ok () ended := by
  rcases run_eq_ok runs with feeds | ⟨tally, before, feeds, stops | ⟨-, closes⟩⟩
  · cases (status_of_feed feeds).symm.trans completes
  · cases stops
    cases completes
  · rcases exists_open_of_feed open_ feeds with ⟨after, openBefore, same⟩
    exact ⟨before, after, openBefore, same, closes⟩

/-! ## Whatever was there before -/

/--
What a build has come to that was to fill the file `name` from its events: its
result, and the history that it left.
-/
structure Rebuilt
    (id name : String)
    (start : Int)
    (config : Tree.Config)
    (signal : Signal)
    (events : List Event)
    (result : Except Fault Outcome)
    (built : Placed History) : Prop where
  /-- A new history that is built elsewhere has the same result and gives the same answers. -/
  fresh : ∀ {elsewhere volume made history},
    volume.Sound →
    History.create id start (.file elsewhere config) volume = .ok (made, history) →
    ∃ ended,
      (run signal events).outcome ⟨made, history⟩ = .ok result ended
        ∧ (ended.subject.InRange → built.subject.InRange → AnswersAlike ended built)
  /--
  If it completed, the file opens for its version and for no other, to the same
  answers, unless there is an attribute and no instant after the last.
  -/
  complete : ∀ {outcome},
    result = .ok outcome →
    outcome.status = .completed →
    built.subject.InRange →
    built.subject.names.size = 0 ∨ outcome.stop < latestInstant →
    (∃ reopened,
        History.reopen id name config.version built.volume = .ok reopened
          ∧ AnswersAlike built ⟨built.volume, reopened⟩)
      ∧ ∀ version, version ≠ config.version →
        Tree.reopen name version built.volume = .error (.unsupportedVersion config.version)
  /-- If it did not, the file opens for no version at all. -/
  incomplete : ¬ Completes result →
    ∀ version, ∃ fault, Tree.reopen name version built.volume = .error fault

section Rebuilding

variable {id name : String} {start : Int} {config : Tree.Config} {volume made : Volume}
  {history : History} {signal : Signal} {events : List Event} {result : Except Fault Outcome}
  {built : Placed History}

/-- Built in two places from the same events, new histories give the same answers. -/
theorem exists_fresh
    {elsewhere : String}
    {other otherMade : Volume}
    {otherHistory : History}
    (sound : volume.Sound)
    (created : History.create id start (.file name config) volume = .ok (made, history))
    (ends : (run signal events).outcome ⟨made, history⟩ = .ok result built)
    (otherSound : other.Sound)
    (otherCreated : History.create id start (.file elsewhere config) other
      = .ok (otherMade, otherHistory)) :
    ∃ ended,
      (run signal events).outcome ⟨otherMade, otherHistory⟩ = .ok result ended
        ∧ (ended.subject.InRange → built.subject.InRange → AnswersAlike ended built) := by
  have peers := History.peers_of_create otherSound otherCreated sound created
  rcases (matched_run peers signal events).reached with ⟨told, outcome, outcome', related⟩
  cases outcome'.symm.trans ends
  refine ⟨_, outcome, fun inRange inRange' => ?_⟩
  have poised : Poised _ _ False _ _ := ⟨related, inRange, inRange'⟩
  exact Poised.consulted.answersAlike poised

/-- A history that a build has completed gives the same answers when its file is opened again. -/
theorem exists_reopen
    {ended : Placed History}
    {outcome : Outcome}
    (sound : volume.Sound)
    (told : config.version < 4294967296)
    (created : History.create id start (.file name config) volume = .ok (made, history))
    (runs : run signal events ⟨made, history⟩ = .ok outcome ended)
    (completes : outcome.status = .completed)
    (inRange : ended.subject.InRange)
    (dated : ended.subject.names.size = 0 ∨ outcome.stop < latestInstant) :
    ∃ reopened,
      History.reopen id name config.version ended.volume = .ok reopened
        ∧ AnswersAlike ended ⟨ended.volume, reopened⟩
        ∧ ∀ version, version ≠ config.version →
          History.reopen id name version ended.volume
            = .error (.unsupportedVersion config.version) := by
  rcases History.open_of_create sound created with ⟨open_, outline, -⟩
  rcases closes_of_run open_ runs completes with ⟨before, ledger, openBefore, same, closes⟩
  rcases History.sited_of_ground created (congrArg Standing.seen same) closes with
    ⟨file, found, sited⟩
  have whole := openBefore.whole_of_close closes inRange dated
  rcases whole.exists_reopen sited found told rfl id with
    ⟨reopened, reopens, kept, reopenedInRange, reopenedOutline, others⟩
  refine ⟨reopened, reopens, ?_, others⟩
  rcases openBefore.close_eq_ok closes with ⟨-, -, closed, -⟩
  have endedId : ended.subject.id = id :=
    (congrArg History.Outline.id closed).trans
      ((congrArg Standing.id same).trans (congrArg History.Outline.id outline))
  have building : before.subject.status = .building :=
    (congrArg Standing.status same).trans (congrArg History.Outline.status outline)
  have endedStatus : ended.subject.status = .completed := by
    refine (congrArg History.Outline.status closed).trans ?_
    rw [building]
    rfl
  have endedOutline : reopened.outline = ended.subject.outline := by
    rw [reopenedOutline]
    show _ = History.Outline.mk ended.subject.id ended.subject.names ended.subject.currentEnd
      ended.subject.disposed ended.subject.status
    rw [endedId, whole.kept.alive, endedStatus]
  have poised : Poised _ _ False ended ⟨ended.volume, reopened⟩ :=
    ⟨whole.kept.peers kept False.elim endedOutline rfl rfl, inRange, reopenedInRange⟩
  exact Poised.consulted.answersAlike poised

/-- Whatever a file held before, it tells what was built last, or nothing at all. -/
theorem rebuilt_of_created
    (sound : volume.Sound)
    (told : config.version < 4294967296)
    (start_ge : -9223372036854775808 ≤ start)
    (start_le : start ≤ latestInstant)
    (created : History.create id start (.file name config) volume = .ok (made, history))
    (ends : (run signal events).outcome ⟨made, history⟩ = .ok result built) :
    Rebuilt id name start config signal events result built where
  fresh otherSound otherCreated := exists_fresh sound created ends otherSound otherCreated
  complete := by
    intro outcome completed status inRange dated
    have runs : run signal events ⟨made, history⟩ = .ok outcome built :=
      Step.ofExcept_of_outcome (completed ▸ ends)
    rcases exists_reopen sound told created runs status inRange dated with
      ⟨reopened, reopens, alike, others⟩
    refine ⟨⟨reopened, reopens, alike⟩, fun version different => ?_⟩
    exact History.tree_reopen_of_error (others version different)
  incomplete := by
    intro incomplete version
    rcases History.exists_tree_of_create created with ⟨tree, treeMade, -⟩
    rcases Tree.ground_of_create treeMade with ⟨file, found, placed⟩
    have sameFile : tree.io.file = file := congrArg (·.2.1) placed
    have names := congrArg Prod.fst (ground_of_run Volume.frontal_names ends incomplete)
    have front := congrArg Prod.fst (ground_of_run (Volume.frontal_front file) ends incomplete)
    have foundStill : built.volume.lookup? name = some file := by
      unfold Volume.lookup? at found ⊢
      exact (congrArg (List.lookup name) names).trans found
    have begun :
        built.volume.front file = (Tree.Header.unfinished { config with start }).encode := by
      rw [← Tree.front_of_create sound treeMade, sameFile]
      exact front
    have storable : (Tree.Header.unfinished { config with start }).Storable :=
      Tree.Header.storable_unfinished told start_ge start_le
    exact Tree.reopen_of_front storable rfl foundStill begun version

end Rebuilding

end Chronicle.Replay
