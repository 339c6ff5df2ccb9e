import Chronicle.History.Rates
import Chronicle.History.Scan
import Chronicle.Proofs.History.Twins

/-!
# Histories that are asked alike

Ranges of time are gone over instant by instant.  Histories that tell the same
about themselves and about every instant therefore give the same answers about
ranges of time.  Peers are such histories, since they answer by one ledger.
-/

namespace Chronicle.History

/-- Related histories tell the same about themselves and about instants, and stay related. -/
structure Consulted (R : Placed History → Placed History → Prop) : Prop where
  checkUsable : ∀ {s s'}, R s s' → s'.subject.checkUsable = s.subject.checkUsable
  start : ∀ {s s'}, R s s' → s'.subject.start = s.subject.start
  outline : ∀ {s s'}, R s s' → s'.subject.outline = s.subject.outline
  ongoing : ∀ {s s'}, R s s' → s'.subject.recording.ongoing = s.subject.recording.ongoing
  intervalAt : ∀ {s s'}, R s s' → ∀ t quark,
    Step.Matched R (History.intervalAt t quark s) (History.intervalAt t quark s')
  snapshot : ∀ {s s'}, R s s' → ∀ t,
    Step.Matched R (History.snapshot t s) (History.snapshot t s')

/-! ## Ranges of time -/

namespace Consulted

variable {R : Placed History → Placed History → Prop} {s s' : Placed History}

theorem currentEnd
    (consulted : Consulted R)
    (related : R s s') :
    s'.subject.currentEnd = s.subject.currentEnd :=
  congrArg Outline.currentEnd (consulted.outline related)

theorem clamp
    (consulted : Consulted R)
    (related : R s s')
    (t : Int) :
    s'.subject.clamp t = s.subject.clamp t := by
  unfold History.clamp
  rw [consulted.start related, consulted.currentEnd related]

theorem ongoingValue
    (consulted : Consulted R)
    (related : R s s')
    (quark : Int) :
    s'.subject.ongoingValue quark = s.subject.ongoingValue quark := by
  unfold History.ongoingValue
  rw [consulted.checkUsable related, consulted.ongoing related]

theorem seekValue
    (consulted : Consulted R)
    (related : R s s')
    (quark stop : Int)
    (instants : Nat)
    (t : Int) :
    Step.Matched R (History.seekValue quark stop instants t s)
      (History.seekValue quark stop instants t s') := by
  induction instants generalizing t s s' with
  | zero => exact .ok none related
  | succ instants ih =>
      unfold History.seekValue
      by_cases beyond : stop < t
      · simp only [if_pos beyond]
        exact .ok none related
      · simp only [if_neg beyond]
        refine .bind (consulted.intervalAt related t quark) fun i r r' _ related => ?_
        by_cases some_ : (!i.value.isNull) = true
        · simp only [if_pos some_]
          exact .ok (some i) related
        · simp only [if_neg some_]
          by_cases last : stop ≤ i.stop
          · simp only [if_pos last]
            exact .ok none related
          · simp only [if_neg last]
            exact ih related (i.stop + 1)

theorem firstValue
    (consulted : Consulted R)
    (related : R s s')
    (quark start stop : Int) :
    Step.Matched R (History.firstValue quark start stop s)
      (History.firstValue quark start stop s') := by
  unfold History.firstValue
  rw [Step.subject_bind_apply, Step.subject_bind_apply, consulted.checkUsable related]
  refine .ofExcept_bind related _ fun _ _ => ?_
  simp only [consulted.clamp related]
  exact consulted.seekValue related quark _ _ _

theorem gather
    (consulted : Consulted R)
    (related : R s s')
    (quark stop : Int)
    (instants : Nat)
    (t : Int) :
    Step.Matched R (History.gather quark stop instants t s)
      (History.gather quark stop instants t s') := by
  induction instants generalizing t s s' with
  | zero => exact .bind (consulted.intervalAt related t quark) fun i r r' _ related => .ok [i] related
  | succ instants ih =>
      unfold History.gather
      refine .bind (consulted.intervalAt related t quark) fun i r r' _ related => ?_
      by_cases last : stop ≤ i.stop
      · simp only [if_pos last]
        exact .ok [i] related
      · simp only [if_neg last]
        exact .bind (ih related (i.stop + 1)) fun rest r r' _ related => .ok (i :: rest) related

theorem intervalsBetween
    (consulted : Consulted R)
    (related : R s s')
    (quark start stop : Int) :
    Step.Matched R (History.intervalsBetween quark start stop s)
      (History.intervalsBetween quark start stop s') := by
  unfold History.intervalsBetween
  rw [Step.subject_bind_apply, Step.subject_bind_apply, consulted.checkUsable related]
  refine .ofExcept_bind related _ fun _ _ => ?_
  by_cases reversed : stop < start
  · simp only [if_pos reversed]
    exact .error _ related
  · simp only [if_neg reversed, consulted.clamp related]
    exact consulted.gather related quark _ _ _

theorem countAt
    (consulted : Consulted R)
    (related : R s s')
    (quark t : Int) :
    Step.Matched R (History.countAt quark t s)
      (History.countAt quark t s') := by
  unfold History.countAt
  rw [Step.subject_bind_apply, Step.subject_bind_apply, consulted.clamp related]
  exact .bind (consulted.intervalAt related _ quark) fun i r r' _ related => .ofExcept related _

theorem fillBuckets
    (consulted : Consulted R)
    (related : R s s')
    (quark width stop : Int)
    (signal : Signal)
    (question count : Nat)
    (border previous : Int) :
    Step.Matched R
      (History.fillBuckets quark width stop signal question count border previous s)
      (History.fillBuckets quark width stop signal question count border previous s') := by
  induction count generalizing question border previous s s' with
  | zero =>
      unfold History.fillBuckets
      refine .ofExcept_bind related _ fun _ _ => ?_
      exact .bind (consulted.countAt related quark stop) fun count r r' _ related => .ok _ related
  | succ count ih =>
      unfold History.fillBuckets
      refine .ofExcept_bind related _ fun _ _ => ?_
      refine .bind (consulted.countAt related quark (border + width)) fun current r r' _ related => ?_
      exact .bind (ih related (question + 1) (border + width) current)
        fun rest r r' _ related => .ok _ related

theorem histogram
    (consulted : Consulted R)
    (related : R s s')
    (quark start stop : Int)
    (buckets : Nat)
    (signal : Signal) :
    Step.Matched R (History.histogram quark start stop buckets signal s)
      (History.histogram quark start stop buckets signal s') := by
  unfold History.histogram
  rw [Step.subject_bind_apply, Step.subject_bind_apply, consulted.checkUsable related]
  refine .ofExcept_bind related _ fun _ _ => ?_
  by_cases odd : buckets = 0 ∨ stop < start
  · simp only [if_pos odd]
    exact .error _ related
  · simp only [if_neg odd]
    by_cases wide : latestInstant < stop - start
    · simp only [if_pos wide]
      exact .error _ related
    · simp only [if_neg wide]
      refine .bind (consulted.countAt related quark start) fun first r r' _ related => ?_
      by_cases many : mostBuckets < buckets
      · simp only [if_pos many]
        exact .error _ related
      · simp only [if_neg many]
        exact consulted.fillBuckets related quark _ stop signal 0 _ start first

theorem growth
    (consulted : Consulted R)
    (related : R s s')
    (quark start stop : Int) :
    Step.Matched R (History.growth quark start stop s)
      (History.growth quark start stop s') := by
  have since : ∀ {r r' : Placed History} (before : Int), R r r' →
      Step.Matched R
        ((History.countAt quark stop >>= fun count => pure (count - before)) r)
        ((History.countAt quark stop >>= fun count => pure (count - before)) r') :=
    fun before related => .bind (consulted.countAt related quark stop) fun count r r' _ related =>
      .ok _ related
  unfold History.growth
  rw [Step.subject_bind_apply, Step.subject_bind_apply, consulted.checkUsable related]
  refine .ofExcept_bind related _ fun _ _ => ?_
  rw [consulted.start related]
  by_cases early : start ≤ s.subject.start
  · simp only [if_pos early]
    exact since 0 related
  · simp only [if_neg early]
    exact .bind (consulted.countAt related quark (start - 1)) fun before r r' _ related =>
      since before related

theorem countsAt
    (consulted : Consulted R)
    (related : R s s')
    (quarks : List Int)
    (t : Int) :
    Step.Matched R (History.countsAt quarks t s)
      (History.countsAt quarks t s') :=
  .bind (consulted.snapshot related t) fun _ _ _ _ related => .ofExcept related _

theorem samples
    (consulted : Consulted R)
    (related : R s s')
    (quarks : List Int)
    (scale : Float)
    (signal : Signal)
    (times : List Int)
    (question : Nat)
    (previousTime : Int)
    (previous : List Int) :
    Step.Matched R
      (History.samples quarks scale signal times question previousTime previous s)
      (History.samples quarks scale signal times question previousTime previous s') := by
  induction times generalizing question previousTime previous s s' with
  | nil => exact .ok [] related
  | cons time later ih =>
      unfold History.samples
      refine .ofExcept_bind related _ fun _ _ => ?_
      rw [Step.subject_bind_apply, Step.subject_bind_apply, consulted.currentEnd related,
        consulted.start related]
      by_cases beyond : s.subject.currentEnd < time
      · simp only [if_pos beyond]
        exact .ok _ related
      · simp only [if_neg beyond]
        by_cases begun : s.subject.start ≤ time
        · simp only [if_pos begun]
          refine .bind (consulted.countsAt related quarks time) fun counts r r' _ related => ?_
          exact .bind (ih related (question + 1) time counts) fun rows r r' _ related =>
            .ok _ related
        · simp only [if_neg begun]
          exact .bind (ih related (question + 1) time previous) fun rows r r' _ related =>
            .ok _ related

theorem rates
    (consulted : Consulted R)
    (related : R s s')
    (quarks times : List Int)
    (scale : Float)
    (signal : Signal) :
    Step.Matched R (History.rates quarks times scale signal s)
      (History.rates quarks times scale signal s') := by
  unfold History.rates
  rw [Step.subject_bind_apply, Step.subject_bind_apply, consulted.checkUsable related]
  refine .ofExcept_bind related _ fun _ _ => ?_
  cases times with
  | nil => exact .ok _ related
  | cons first later =>
      have since : ∀ {r r' : Placed History} (counts : List Int), R r r' →
          Step.Matched R
            ((History.samples quarks scale signal later 0 first counts >>= fun rows =>
              pure (quarks.mapIdx fun place quark =>
                ⟨quark, 0.0 :: rows.map fun row => row.getD place 0.0⟩) :
              Step History (List Series)) r)
            ((History.samples quarks scale signal later 0 first counts >>= fun rows =>
              pure (quarks.mapIdx fun place quark =>
                ⟨quark, 0.0 :: rows.map fun row => row.getD place 0.0⟩) :
              Step History (List Series)) r') :=
        fun counts related => .bind (consulted.samples related quarks scale signal later 0 first counts)
          fun rows r r' _ related => .ok _ related
      simp only [consulted.start related, consulted.currentEnd related]
      by_cases inside : s.subject.start ≤ first ∧ first ≤ s.subject.currentEnd
      · simp only [if_pos inside]
        exact .bind (consulted.countsAt related quarks first) fun counts r r' _ related =>
          since counts related
      · simp only [if_neg inside]
        exact since _ related

end Consulted

/-! ## Peers -/

/-- Peers that can be asked: what they have written fits its fields. -/
structure Poised
    (bound bound' : Option Nat)
    (writing : Prop)
    (s s' : Placed History) : Prop where
  peers : Peers bound bound' writing s s'
  inRange : s.subject.InRange
  inRange' : s'.subject.InRange

namespace Poised

variable {bound bound' : Option Nat} {writing : Prop} {s s' : Placed History}

/-- Asked, peers stay peers. -/
theorem of_asked
    {ledger : Ledger}
    {r r' : Placed History}
    (poised : Poised bound bound' writing s s')
    (kept : Kept s ledger)
    (kept' : Kept s' ledger)
    (writes : writing → Open s ledger ∧ Open s' ledger)
    (asked : Asked s r ledger)
    (asked' : Asked s' r' ledger) :
    Poised bound bound' writing r r' where
  peers := by
    refine poised.peers.of_kept (asked.kept kept) (asked'.kept kept') ?_ ?_ asked.backend.alike
      asked'.backend.alike
    · intro writing
      exact ⟨asked.open_ (writes writing).1, asked'.open_ (writes writing).2⟩
    · rw [asked.outline, asked'.outline, poised.peers.outline]
  inRange := asked.inRange poised.inRange
  inRange' := asked'.inRange poised.inRange'

/-- About an instant of an attribute, peers give the same answer. -/
theorem intervalAt
    (poised : Poised bound bound' writing s s')
    (t quark : Int) :
    Step.Matched (Poised bound bound' writing) (History.intervalAt t quark s)
      (History.intervalAt t quark s') := by
  have peers := poised.peers
  cases gone : s.subject.disposed with
  | true =>
      exact peers.matched_of_disposed gone (fun dead => usable_bind_of_disposed dead _) poised
  | false =>
      rcases peers.kept gone with ⟨ledger, kept, kept', writes⟩
      rcases kept.intervalAt poised.inRange t quark with ⟨r, asks, asked⟩
      rcases kept'.intervalAt poised.inRange' t quark with ⟨r', asks', asked'⟩
      rw [asks, asks', peers.checkTime, peers.currentEnd]
      exact .ofExcept (poised.of_asked kept kept' writes asked asked') _

/-- About an instant of all attributes, peers give the same answer. -/
theorem snapshot
    (poised : Poised bound bound' writing s s')
    (t : Int) :
    Step.Matched (Poised bound bound' writing) (History.snapshot t s)
      (History.snapshot t s') := by
  have peers := poised.peers
  cases gone : s.subject.disposed with
  | true =>
      exact peers.matched_of_disposed gone (fun dead => usable_bind_of_disposed dead _) poised
  | false =>
      rcases peers.kept gone with ⟨ledger, kept, kept', writes⟩
      rcases kept.snapshot poised.inRange t with ⟨r, asks, asked⟩
      rcases kept'.snapshot poised.inRange' t with ⟨r', asks', asked'⟩
      rw [asks, asks', peers.checkTime, peers.currentEnd, peers.names]
      exact .ofExcept (poised.of_asked kept kept' writes asked asked') _

theorem consulted :
    Consulted (Poised bound bound' writing) where
  checkUsable poised := poised.peers.checkUsable
  start poised := poised.peers.start
  outline poised := poised.peers.outline
  ongoing poised := poised.peers.ongoing
  intervalAt poised := poised.intervalAt
  snapshot poised := poised.snapshot

end Poised

/-- Twins that can be asked: what the bounded one has written fits its fields. -/
structure Ready
    (capacity : Nat)
    (writing : Prop)
    (s s' : Placed History) : Prop where
  twins : Twins capacity writing s s'
  inRange : s'.subject.InRange

/-- Without a bound for the size of intervals nothing is written in fields. -/
theorem Ready.poised
    {capacity : Nat}
    {writing : Prop}
    {s s' : Placed History}
    (ready : Ready capacity writing s s') :
    Poised none (some capacity) writing s s' where
  peers := ready.twins.peers
  inRange := by
    refine ⟨?_, Backend.inRange_of_unbounded ready.twins.unbounded⟩
    rw [← ready.twins.ongoing]
    exact ready.inRange.few
  inRange' := ready.inRange

end Chronicle.History
