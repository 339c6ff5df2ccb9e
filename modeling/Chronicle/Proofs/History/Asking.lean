import Chronicle.Proofs.History.Keeping

/-!
# Asking a history

A history answers by its ledger: about what is held now from the slot of the
attribute, about the past from what its backend holds.  Asking changes nothing
but what is at hand in the backend.
-/

namespace Chronicle

namespace Ledger

/-- What is answered about an attribute at an instant of a history that ends at `ending`. -/
def intervalAt
    (ledger : Ledger)
    (ending t quark : Int) :
    Except Fault Interval := do
  let slot ← ledger.ongoing.slot quark
  if slot.since ≤ t then
    return slot.interval quark ending
  match Interval.covering? ledger.taken t quark with
  | some i => return i
  | none => throw .corrupted

/-- What is answered about the first `count` attributes, each in a slot of its own. -/
def slotsAt
    (ledger : Ledger)
    (ending t : Int)
    (count : Nat) :
    Tree.Slots :=
  let empty : Tree.Slots := Array.replicate (min count ledger.ongoing.slots.size) none
  let stored := if t ≤ ledger.stop then empty.fill ledger.taken t else empty
  stored.mapIdx fun quark stored =>
    match ledger.ongoing.slots[quark]? with
    | some slot => if slot.since ≤ t then some (slot.interval quark ending) else stored
    | none => stored

/-- What is answered about the first `count` attributes, in order. -/
def snapshot
    (ledger : Ledger)
    (ending t : Int)
    (count : Nat) :
    Except Fault (List Interval) :=
  match (ledger.slotsAt ending t count).intervals? with
  | some intervals => .ok intervals
  | none => .error .corrupted

/-- An answer is what an attribute holds, or held over an interval that covers the instant. -/
theorem intervalAt_eq_ok
    {ledger : Ledger}
    {ending t quark : Int}
    {i : Interval}
    (answered : ledger.intervalAt ending t quark = .ok i) :
    ∃ (place : Nat) (slot : Recording.Slot),
      quark = place
        ∧ ledger.slot? place = some slot
        ∧ (slot.since ≤ t ∧ i = slot.interval quark ending
          ∨ t < slot.since ∧ i ∈ ledger.taken ∧ i.quark = quark ∧ i.Covers t) := by
  unfold intervalAt at answered
  cases found : ledger.ongoing.slot quark with
  | error fault =>
      rw [found] at answered
      cases answered
  | ok slot =>
      rcases Ongoing.slot_eq_ok_iff.mp found with ⟨nonneg, known⟩
      rw [found] at answered
      simp only [bind, Except.bind] at answered
      refine ⟨quark.toNat, slot, (Int.toNat_of_nonneg nonneg).symm, known, ?_⟩
      by_cases begun : slot.since ≤ t
      · rw [if_pos begun] at answered
        cases answered
        exact Or.inl ⟨begun, rfl⟩
      · rw [if_neg begun] at answered
        cases covering : Interval.covering? ledger.taken t quark with
        | none =>
            rw [covering] at answered
            cases answered
        | some held =>
            rw [covering] at answered
            cases answered
            exact Or.inr ⟨Int.not_le.mp begun, Interval.mem_of_covering? covering⟩

/-- About the present the slot of the attribute answers. -/
theorem intervalAt_of_now
    {ledger : Ledger}
    {ending t quark : Int}
    {slot : Recording.Slot}
    (found : ledger.ongoing.slot quark = .ok slot)
    (now : slot.since ≤ t) :
    ledger.intervalAt ending t quark = .ok (slot.interval quark ending) := by
  unfold intervalAt
  rw [found]
  simp only [bind, Except.bind, if_pos now]
  rfl

namespace Tiled

variable {ledger : Ledger} {ending t quark : Int}

/-- About the past there is an answer from what ended. -/
theorem intervalAt_of_past
    {slot : Recording.Slot}
    (tiled : ledger.Tiled)
    (found : ledger.ongoing.slot quark = .ok slot)
    (begun : ledger.ongoing.start ≤ t)
    (past : t < slot.since)
    (ending : Int) :
    ∃ i, Interval.covering? ledger.taken t quark = some i
      ∧ ledger.intervalAt ending t quark = .ok i := by
  rcases Ongoing.slot_eq_ok_iff.mp found with ⟨nonneg, known⟩
  rcases tiled.covered known begun past with ⟨i, member, same, covers⟩
  cases covering : Interval.covering? ledger.taken t quark with
  | none =>
      have sameQuark : i.quark = quark := same.trans (Int.toNat_of_nonneg nonneg)
      exact absurd covers (Interval.covering?_eq_none_iff.mp covering i member sameQuark)
  | some held =>
      refine ⟨held, rfl, ?_⟩
      unfold intervalAt
      rw [found]
      simp only [bind, Except.bind, if_neg (Int.not_le.mpr past), covering]
      rfl

/-- There is an answer about every attribute at every instant from the start on. -/
theorem exists_intervalAt
    {slot : Recording.Slot}
    (tiled : ledger.Tiled)
    (found : ledger.ongoing.slot quark = .ok slot)
    (begun : ledger.ongoing.start ≤ t) :
    ∃ i, ledger.intervalAt ending t quark = .ok i := by
  by_cases now : slot.since ≤ t
  · exact ⟨_, intervalAt_of_now found now⟩
  · rcases tiled.intervalAt_of_past found begun (Int.not_le.mp now) ending with ⟨i, -, answered⟩
    exact ⟨i, answered⟩

/-- An answer is about the attribute asked for and covers the instant. -/
theorem intervalAt_covers
    {i : Interval}
    (answered : ledger.intervalAt ending t quark = .ok i)
    (until_ : t ≤ ending) :
    i.quark = quark ∧ i.Covers t := by
  rcases intervalAt_eq_ok answered with ⟨place, slot, rfl, -, ⟨begun, rfl⟩ | ⟨-, -, same, covers⟩⟩
  · exact ⟨rfl, begun, Int.le_trans until_ (Int.le_max_left _ _)⟩
  · exact ⟨same, covers⟩

/-- Two answers about one attribute are the same or have no instant in common. -/
theorem intervalAt_eq_or_apart
    {other : Int}
    {i j : Interval}
    (tiled : ledger.Tiled)
    (separate : Interval.Separate ledger.taken)
    (one : ledger.intervalAt ending t quark = .ok i)
    (two : ledger.intervalAt ending other quark = .ok j) :
    i = j ∨ i.stop < j.start ∨ j.stop < i.start := by
  rcases intervalAt_eq_ok one with ⟨place, slot, samePlace, known, oneIs⟩
  rcases intervalAt_eq_ok two with ⟨otherPlace, otherSlot, sameOther, otherKnown, twoIs⟩
  obtain rfl : place = otherPlace := by omega
  obtain rfl : slot = otherSlot := Option.some.inj (known.symm.trans otherKnown)
  rcases oneIs with ⟨-, rfl⟩ | ⟨-, iMember, iQuark, -⟩
  · rcases twoIs with ⟨-, rfl⟩ | ⟨-, jMember, jQuark, -⟩
    · exact Or.inl rfl
    · exact Or.inr (Or.inr (tiled.before known jMember (jQuark.trans samePlace)).2)
  · rcases twoIs with ⟨-, rfl⟩ | ⟨-, jMember, jQuark, -⟩
    · exact Or.inr (Or.inl (tiled.before known iMember (iQuark.trans samePlace)).2)
    · exact separate.eq_or_apart iMember jMember (iQuark.trans jQuark.symm)

end Tiled

end Ledger

namespace History

/-- All numbers and times of a history fit the fields in which they are written, if any. -/
structure InRange (history : History) : Prop where
  few : history.recording.ongoing.slots.size ≤ 2147483648
  backend : history.backend.InRange

instance
    (history : History) :
    Decidable history.InRange :=
  decidable_of_iff
    (history.recording.ongoing.slots.size ≤ 2147483648 ∧ history.backend.InRange)
    ⟨fun both => ⟨both.1, both.2⟩, fun inRange => ⟨inRange.few, inRange.backend⟩⟩

/-- Answers are given from the start to the current end. -/
theorem checkTime_eq_ok_iff
    {history : History}
    {t : Int} :
    history.checkTime t = .ok () ↔ history.start ≤ t ∧ t ≤ history.currentEnd := by
  unfold checkTime
  split
  · rename_i outside
    constructor
    · intro answered
      cases answered
    · omega
  · rename_i inside
    constructor
    · omega
    · intro _
      rfl

/-- The history with another backend. -/
def withBackend
    (history : History)
    (backend : Backend) :
    History :=
  { history with
    recording := { history.recording with store := { history.recording.store with backend } } }

/-- What can be asked about an instant. -/
inductive Question
  | interval (t quark : Int)
  | snapshot (t : Int)

/-- Asks a question. -/
def Question.step : Question → Step History (List Interval)
  | interval t quark => do
    return [← History.intervalAt t quark]
  | snapshot t => History.snapshot t

/-- The answer to a question by a ledger of a history. -/
def Question.told
    (history : History)
    (ledger : Ledger) :
    Question →
    Except Fault (List Interval)
  | interval t quark => do
    history.checkTime t
    return [← ledger.intervalAt history.currentEnd t quark]
  | snapshot t => do
    history.checkTime t
    ledger.snapshot history.currentEnd t history.names.size

/-- By one ledger, histories with the same times and names are told the same. -/
theorem Question.told_congr
    {history other : History}
    (start : other.start = history.start)
    (ending : other.currentEnd = history.currentEnd)
    (names : other.names = history.names)
    (ledger : Ledger)
    (question : Question) :
    question.told other ledger = question.told history ledger := by
  cases question with
  | interval t quark =>
      unfold told checkTime
      rw [start, ending]
  | snapshot t =>
      unfold told checkTime
      rw [start, ending, names]

/-- What asking leaves as it is: all but what the backend has at hand. -/
structure Asked
    (s reached : Placed History)
    (ledger : Ledger) : Prop where
  subject : reached.subject = s.subject.withBackend reached.subject.backend
  backend : Backend.Holds.Kept ⟨s.volume, s.subject.backend⟩
    ⟨reached.volume, reached.subject.backend⟩ ledger.taken

namespace Asked

variable {s reached : Placed History} {ledger : Ledger}

theorem outline
    (asked : Asked s reached ledger) :
    reached.subject.outline = s.subject.outline := by
  rw [asked.subject]
  rfl

theorem start
    (asked : Asked s reached ledger) :
    reached.subject.start = s.subject.start :=
  asked.backend.alike.start

theorem currentEnd
    (asked : Asked s reached ledger) :
    reached.subject.currentEnd = s.subject.currentEnd :=
  congrArg Outline.currentEnd asked.outline

theorem names
    (asked : Asked s reached ledger) :
    reached.subject.names = s.subject.names :=
  congrArg Outline.names asked.outline

theorem inRange
    (asked : Asked s reached ledger)
    (before : s.subject.InRange) :
    reached.subject.InRange := by
  refine ⟨?_, asked.backend.inRange⟩
  rw [asked.subject]
  exact before.few

theorem kept
    (asked : Asked s reached ledger)
    (before : Kept s ledger) :
    Kept reached ledger := by
  have backend := asked.backend
  rcases reached with ⟨volume, history⟩
  have subject : history = s.subject.withBackend history.backend := asked.subject
  have keeps := before.keeps
  generalize history.backend = after at subject backend
  subst subject
  exact ⟨before.alive, ⟨keeps.ongoing, keeps.healthy, backend.alike.start.trans keeps.start,
    backend.holds, backend.stop.trans keeps.stop, keeps.within, keeps.tiled⟩, before.named⟩

theorem open_
    (asked : Asked s reached ledger)
    (before : Open s ledger) :
    Open reached ledger := by
  have kept := asked.kept before.kept
  have backend := asked.backend
  rcases reached with ⟨volume, history⟩
  have subject : history = s.subject.withBackend history.backend := asked.subject
  have takes := before.goes.takes
  generalize history.backend = after at subject backend
  subst subject
  have fits : ∀ value, (s.subject.withBackend after).recording.store.checkFits value
      = s.subject.recording.store.checkFits value :=
    Store.checkFits_congr backend.alike.capacity
  refine ⟨before.alive, ⟨⟨kept.keeps, backend.taking.mpr takes.taking, ?_, takes.last, ?_, ?_⟩,
    before.goes.current, before.goes.last_le⟩, before.named, before.ending⟩
  · intro quark
    rw [← takes.cursor quark]
    exact congrArg (s.subject.recording.store.nextStarts.getD _) backend.alike.start
  · intro quark slot known
    rw [fits]
    exact takes.fits known
  · rw [fits]
    exact takes.nullFits

theorem refl
    (kept : Kept s ledger)
    (inRange : s.subject.InRange) :
    Asked s s ledger :=
  ⟨rfl, kept.keeps.holds, ⟨rfl, rfl⟩, rfl, Iff.rfl, inRange.backend⟩

theorem trans
    {last : Placed History}
    (one : Asked s reached ledger)
    (two : Asked reached last ledger) :
    Asked s last ledger where
  subject := by
    rw [two.subject, one.subject]
    rfl
  backend := one.backend.trans two.backend

end Asked

/-- Over what is stored at an instant, what is held now gives the slots of the ledger. -/
theorem overlayOngoing_eq
    {history : History}
    {ledger : Ledger}
    (same : history.recording.ongoing = ledger.ongoing)
    (t : Int) :
    let empty : Tree.Slots := Array.replicate
      (min history.names.size history.recording.ongoing.slots.size) none
    history.overlayOngoing t (if t ≤ ledger.stop then empty.fill ledger.taken t else empty)
      = ledger.slotsAt history.currentEnd t history.names.size := by
  rcases ledger with ⟨ongoing, taken, stop⟩
  obtain rfl : history.recording.ongoing = ongoing := same
  rfl

namespace Kept

variable {s : Placed History} {ledger : Ledger}

theorem numbered
    (kept : Kept s ledger)
    (inRange : s.subject.InRange) :
    Tree.Numbered ledger.taken := by
  intro i member
  have known := kept.keeps.tiled.known member
  have few := inRange.few
  rw [kept.keeps.ongoing] at few
  omega

/-- A question to the backend is answered from what it holds. -/
theorem ask
    {α : Type}
    {step : Step Backend α}
    {answer : α}
    {volume : Volume}
    {backend : Backend}
    {t : Int}
    (kept : Kept s ledger)
    (begun : ledger.ongoing.start ≤ t)
    (early : t ≤ ledger.stop)
    (answers : step ⟨s.volume, s.subject.backend⟩ = .ok answer ⟨volume, backend⟩)
    (leaves : Backend.Holds.Kept ⟨s.volume, s.subject.backend⟩ ⟨volume, backend⟩ ledger.taken) :
    ∃ reached,
      onStore (do
        let store ← Step.subject
        Step.ofExcept store.checkHealthy
        Step.ofExcept (store.checkTime t)
        Store.onBackend step) s = .ok answer reached
        ∧ Asked s reached ledger := by
  have keeps := kept.keeps
  refine ⟨⟨volume, s.subject.withBackend backend⟩, ?_, rfl, leaves⟩
  have healthy : s.subject.recording.store.checkHealthy = .ok () := by
    unfold Store.checkHealthy
    rw [keeps.healthy]
    rfl
  have timely : s.subject.recording.store.checkTime t = .ok () := by
    unfold Store.checkTime
    rw [keeps.start, keeps.stop]
    exact if_neg (by omega)
  refine onRecording_of_ok ((Step.onPart_of_ok ?_).trans rfl)
  rw [Step.subject_bind_apply, healthy, Step.ofExcept_ok, Step.pure_bind_apply, timely,
    Step.ofExcept_ok, Step.pure_bind_apply]
  exact Step.onPart_of_ok answers

/-- What is asked about an attribute at an instant is answered as the ledger says. -/
theorem intervalAt
    (kept : Kept s ledger)
    (inRange : s.subject.InRange)
    (t quark : Int) :
    ∃ reached,
      History.intervalAt t quark s
        = Step.ofExcept (do
            s.subject.checkTime t
            ledger.intervalAt s.subject.currentEnd t quark) reached
        ∧ Asked s reached ledger := by
  have keeps := kept.keeps
  have nothing := Asked.refl kept inRange
  unfold History.intervalAt
  rw [Step.subject_bind_apply, kept.checkUsable, Step.ofExcept_ok, Step.pure_bind_apply,
    keeps.ongoing]
  cases timely : s.subject.checkTime t with
  | error fault => exact ⟨s, rfl, nothing⟩
  | ok done =>
      rw [Step.ofExcept_ok, Step.pure_bind_apply]
      show ∃ reached, _ = Step.ofExcept (ledger.intervalAt s.subject.currentEnd t quark) reached ∧ _
      cases found : ledger.ongoing.slot quark with
      | error fault =>
          refine ⟨s, ?_, nothing⟩
          unfold Ledger.intervalAt
          rw [found]
          rfl
      | ok slot =>
          rw [Step.ofExcept_ok, Step.pure_bind_apply]
          by_cases now : slot.since ≤ t
          · refine ⟨s, ?_, nothing⟩
            rw [if_pos now, Ledger.intervalAt_of_now found now]
            rfl
          · have past : t < slot.since := Int.not_le.mp now
            have begun : ledger.ongoing.start ≤ t := by
              rw [← keeps.start]
              exact (checkTime_eq_ok_iff.mp timely).1
            rcases keeps.tiled.intervalAt_of_past found begun past s.subject.currentEnd with
              ⟨i, covering, answered⟩
            rcases keeps.holds.find inRange.backend (kept.numbered inRange) t quark with
              ⟨⟨volume, backend⟩, finds, leaves⟩
            have early : t ≤ ledger.stop := by
              rcases Interval.mem_of_covering? covering with ⟨member, -, -, ends⟩
              exact Int.le_trans ends (keeps.within i member)
            rcases kept.ask begun early finds leaves with ⟨reached, asks, asked⟩
            refine ⟨reached, ?_, asked⟩
            rw [if_neg now, answered]
            apply (Step.bind_of_ok asks).trans
            rw [covering]
            rfl

/-- What is asked about all attributes at an instant is answered as the ledger says. -/
theorem snapshot
    (kept : Kept s ledger)
    (inRange : s.subject.InRange)
    (t : Int) :
    ∃ reached,
      History.snapshot t s
        = Step.ofExcept (do
            s.subject.checkTime t
            ledger.snapshot s.subject.currentEnd t s.subject.names.size) reached
        ∧ Asked s reached ledger := by
  have keeps := kept.keeps
  have nothing := Asked.refl kept inRange
  unfold History.snapshot
  rw [Step.subject_bind_apply, kept.checkUsable, Step.ofExcept_ok, Step.pure_bind_apply]
  cases timely : s.subject.checkTime t with
  | error fault => exact ⟨s, rfl, nothing⟩
  | ok done =>
      rw [Step.ofExcept_ok, Step.pure_bind_apply]
      show ∃ reached, _ = Step.ofExcept
        (ledger.snapshot s.subject.currentEnd t s.subject.names.size) reached ∧ _
      have begun : ledger.ongoing.start ≤ t := by
        rw [← keeps.start]
        exact (checkTime_eq_ok_iff.mp timely).1
      let empty : Tree.Slots := Array.replicate
        (min s.subject.names.size s.subject.recording.ongoing.slots.size) none
      have told : ∀ (stored : Tree.Slots) (reached : Placed History),
          stored = (if t ≤ ledger.stop then empty.fill ledger.taken t else empty) →
            (match (s.subject.overlayOngoing t stored).intervals? with
              | some intervals => return intervals
              | none => throw .corrupted : Step History (List Interval)) reached
              = Step.ofExcept
                (ledger.snapshot s.subject.currentEnd t s.subject.names.size) reached := by
        rintro stored reached rfl
        have same : s.subject.overlayOngoing t
            (if t ≤ ledger.stop then empty.fill ledger.taken t else empty)
            = ledger.slotsAt s.subject.currentEnd t s.subject.names.size :=
          overlayOngoing_eq keeps.ongoing t
        rw [same]
        unfold Ledger.snapshot
        cases (ledger.slotsAt s.subject.currentEnd t s.subject.names.size).intervals? with
        | some intervals => rfl
        | none => rfl
      by_cases early : t ≤ ledger.stop
      · rcases keeps.holds.collect inRange.backend (kept.numbered inRange) t empty with
          ⟨⟨volume, backend⟩, collects, leaves⟩
        rcases kept.ask begun early collects leaves with ⟨reached, asks, asked⟩
        refine ⟨reached, ?_, asked⟩
        rw [if_pos (keeps.stop ▸ early)]
        apply (Step.bind_of_ok asks).trans
        exact told _ reached (if_pos early).symm
      · refine ⟨s, ?_, nothing⟩
        rw [if_neg (keeps.stop ▸ early)]
        exact told _ s (if_neg early).symm

/-- At an instant up to the current end, the answer about an attribute is the one of the ledger. -/
theorem intervalAt_of_told
    {t quark : Int}
    {i : Interval}
    (kept : Kept s ledger)
    (inRange : s.subject.InRange)
    (inside : s.subject.start ≤ t ∧ t ≤ s.subject.currentEnd)
    (told : ledger.intervalAt s.subject.currentEnd t quark = .ok i) :
    ∃ reached, History.intervalAt t quark s = .ok i reached ∧ Asked s reached ledger := by
  rcases kept.intervalAt inRange t quark with ⟨reached, asks, asked⟩
  refine ⟨reached, ?_, asked⟩
  rw [asks, checkTime_eq_ok_iff.mpr inside]
  show Step.ofExcept (ledger.intervalAt s.subject.currentEnd t quark) reached = _
  rw [told]
  rfl

/-- What is answered about an attribute is the answer of the ledger, up to the current end. -/
theorem told_of_intervalAt
    {t quark : Int}
    {i : Interval}
    {reached : Placed History}
    (kept : Kept s ledger)
    (inRange : s.subject.InRange)
    (asks : History.intervalAt t quark s = .ok i reached) :
    (s.subject.start ≤ t ∧ t ≤ s.subject.currentEnd)
      ∧ ledger.intervalAt s.subject.currentEnd t quark = .ok i
      ∧ Asked s reached ledger := by
  rcases kept.intervalAt inRange t quark with ⟨other, answers, asked⟩
  rw [asks] at answers
  cases timely : s.subject.checkTime t with
  | error fault =>
      rw [timely] at answers
      cases answers
  | ok done =>
      rw [timely] at answers
      have tells : Step.ofExcept (ledger.intervalAt s.subject.currentEnd t quark) other
          = .ok i reached := answers.symm
      cases answered : ledger.intervalAt s.subject.currentEnd t quark with
      | error fault =>
          rw [answered] at tells
          cases tells
      | ok j =>
          rw [answered] at tells
          cases tells
          exact ⟨checkTime_eq_ok_iff.mp timely, rfl, asked⟩

/-- About every attribute there is an answer at every instant up to the current end. -/
theorem answer
    {t quark : Int}
    (kept : Kept s ledger)
    (inRange : s.subject.InRange)
    (known : s.subject.names.Contains quark)
    (begun : s.subject.start ≤ t)
    (until_ : t ≤ s.subject.currentEnd) :
    ∃ i reached,
      History.intervalAt t quark s = .ok i reached
        ∧ ledger.intervalAt s.subject.currentEnd t quark = .ok i
        ∧ Asked s reached ledger := by
  have start : s.subject.start = ledger.ongoing.start := kept.keeps.start
  rcases kept.exists_slot known with ⟨slot, found⟩
  rcases kept.keeps.tiled.exists_intervalAt found (start ▸ begun) with ⟨i, answered⟩
  rcases kept.intervalAt_of_told inRange ⟨begun, until_⟩ answered with ⟨reached, asks, asked⟩
  exact ⟨i, reached, asks, answered, asked⟩

/-- Every question is answered as the ledger says. -/
theorem question
    (kept : Kept s ledger)
    (inRange : s.subject.InRange)
    (question : Question) :
    ∃ reached,
      question.step s = Step.ofExcept (question.told s.subject ledger) reached
        ∧ Asked s reached ledger := by
  cases question with
  | interval t quark =>
      rcases kept.intervalAt inRange t quark with ⟨reached, asks, asked⟩
      refine ⟨reached, (Step.map_of_ofExcept asks fun i => [i]).trans ?_, asked⟩
      show _ = Step.ofExcept (do
        s.subject.checkTime t
        return [← ledger.intervalAt s.subject.currentEnd t quark]) reached
      cases s.subject.checkTime t with
      | error fault => rfl
      | ok done => cases ledger.intervalAt s.subject.currentEnd t quark <;> rfl
  | snapshot t => exact kept.snapshot inRange t

/-- Whatever is asked about an instant, answered or not, only the backend can tell. -/
theorem asked
    (kept : Kept s ledger)
    (inRange : s.subject.InRange)
    (question : Question) :
    Asked s (question.step.reached s) ledger := by
  rcases kept.question inRange question with ⟨reached, asks, asked⟩
  rw [Step.reached_of_ofExcept asks]
  exact asked

/-- Questions one after the other are answered as the ledger says at their beginning. -/
theorem tells
    (kept : Kept s ledger)
    (inRange : s.subject.InRange)
    (questions : List Question) :
    ∃ reached,
      Step.each Question.step questions s
          = .ok (questions.map fun question => question.told s.subject ledger) reached
        ∧ Asked s reached ledger := by
  induction questions generalizing s with
  | nil => exact ⟨s, rfl, .refl kept inRange⟩
  | cons question questions ih =>
      rcases kept.question inRange question with ⟨between, asks, asked⟩
      rcases ih (asked.kept kept) (asked.inRange inRange) with ⟨reached, rest, askedLast⟩
      have same : (questions.map fun question => question.told between.subject ledger)
          = questions.map fun question => question.told s.subject ledger := by
        refine List.map_congr_left fun question _ => ?_
        exact Question.told_congr asked.start asked.currentEnd asked.names ledger question
      rw [same] at rest
      have outcome := Step.outcome_of_ofExcept asks
      exact ⟨reached, (Step.bind_of_ok outcome).trans ((Step.bind_of_ok rest).trans rfl),
        asked.trans askedLast⟩

end Kept

end History

end Chronicle
