import Chronicle.Proofs.History.Scanning

/-!
# Finding the first value

Looking for a value goes the way of a scan, but stops at the first interval
that does not hold null.  What it finds is the first such interval of the scan,
and it finds nothing if and only if the scan has none.
-/

namespace Chronicle.History

variable {s reached : Placed History} {ledger : Ledger} {quark stop t : Int} {i : Interval}
  {intervals : List Interval}

/-- A round of the search: it ends with its answer, with the range, or one instant behind it. -/
theorem seekValue_succ
    (asks : intervalAt t quark s = .ok i reached)
    (inside : t ≤ stop)
    (instants : Nat) :
    seekValue quark stop (instants + 1) t s
      = if !i.value.isNull then .ok (some i) reached
        else if stop ≤ i.stop then .ok none reached
        else seekValue quark stop instants (i.stop + 1) reached := by
  conv_lhs => unfold seekValue
  rw [if_neg (Int.not_lt.mpr inside)]
  refine (Step.bind_of_ok asks).trans ?_
  cases i.value.isNull with
  | false => rfl
  | true =>
      by_cases arrived : stop ≤ i.stop
      · rw [if_pos arrived, if_pos arrived]
        rfl
      · rw [if_neg arrived, if_neg arrived]
        rfl

/--
However many rounds it is allowed beyond the number of instants, the search
finds the first interval of the tour that does not hold null.
-/
theorem Readable.seekValue
    (readable : Readable s ledger)
    (tour : ledger.Tour s.subject.currentEnd quark stop t intervals)
    (begun : s.subject.start ≤ t)
    (inside : t ≤ stop)
    (until_ : stop ≤ s.subject.currentEnd) :
    ∃ reached, ∀ instants, (stop + 1 - t).toNat ≤ instants →
      History.seekValue quark stop instants t s
        = .ok (intervals.find? fun i => !i.value.isNull) reached := by
  generalize endsAt : s.subject.currentEnd = ending at tour
  have rounds : ∀ {t instants}, t ≤ stop → (stop + 1 - t).toNat ≤ instants →
      ∃ more, instants = more + 1 ∧ (stop - t).toNat ≤ more :=
    fun {t instants} inside enough => ⟨instants - 1, by omega, by omega⟩
  induction tour generalizing s with
  | @last t i answered arrived =>
      subst endsAt
      rcases readable.kept.intervalAt_of_told readable.inRange
        ⟨begun, Int.le_trans inside until_⟩ answered with ⟨reached, asks, -⟩
      refine ⟨reached, fun instants enough => ?_⟩
      rcases rounds inside enough with ⟨more, rfl, -⟩
      rw [seekValue_succ asks inside, if_pos arrived, List.find?_cons]
      cases i.value.isNull <;> rfl
  | @next t i later answered onward rest ih =>
      subst endsAt
      have late : t ≤ i.stop :=
        (Ledger.Tiled.intervalAt_covers answered (Int.le_trans inside until_)).2.2
      rcases readable.kept.intervalAt_of_told readable.inRange
        ⟨begun, Int.le_trans inside until_⟩ answered with ⟨between, asks, asked⟩
      cases held : i.value.isNull with
      | false =>
          refine ⟨between, fun instants enough => ?_⟩
          rcases rounds inside enough with ⟨more, rfl, -⟩
          rw [seekValue_succ asks inside, List.find?_cons, held]
          rfl
      | true =>
          have begunLater : between.subject.start ≤ i.stop + 1 := by
            rw [asked.start]
            omega
          have untilLater : stop ≤ between.subject.currentEnd := by
            rw [asked.currentEnd]
            exact until_
          rcases ih (asked.readable readable) begunLater onward untilLater asked.currentEnd with
            ⟨reached, seeks⟩
          refine ⟨reached, fun instants enough => ?_⟩
          rcases rounds inside enough with ⟨more, rfl, left⟩
          rw [seekValue_succ asks inside, List.find?_cons, held, if_neg (Int.not_le.mpr onward)]
          exact seeks more (by omega)

/-- About a number without an attribute nothing is answered, at whatever instant. -/
theorem Kept.intervalAt_of_unknown
    (kept : Kept s ledger)
    (unknown : ¬ s.subject.names.Contains quark)
    (begun : s.subject.start ≤ t)
    (until_ : t ≤ s.subject.currentEnd) :
    History.intervalAt t quark s = .error (.notFound (.quark quark)) s := by
  have missing : ledger.ongoing.slot quark = .error (.notFound (.quark quark)) := by
    cases found : ledger.ongoing.slot quark with
    | ok slot =>
        have inside := Ongoing.inside_of_slot found
        rw [← kept.named] at inside
        exact absurd inside unknown
    | error fault =>
        unfold Ongoing.slot at found
        split at found
        · cases found
        · exact found.symm
  unfold History.intervalAt
  rw [Step.subject_bind_apply, kept.checkUsable, Step.ofExcept_ok, Step.pure_bind_apply,
    checkTime_eq_ok_iff.mpr ⟨begun, until_⟩, Step.ofExcept_ok, Step.pure_bind_apply,
    kept.keeps.ongoing, missing]
  rfl

/--
The search for a value over a range finds the first interval that does not hold
null of those that a scan of the range gives, whether it is asked before the
scan or after it.  It ends by itself: with more rounds than there are instants
it is the same.  About a number without an attribute neither is answered.
-/
def FindsFirst (s : Placed History) : Prop :=
  ∀ quark start stop, start ≤ stop →
    (s.subject.names.Contains quark → ∃ intervals scanned after again,
      intervalsBetween quark start stop s = .ok intervals scanned
        ∧ firstValue quark start stop s = .ok (intervals.find? fun i => !i.value.isNull) after
        ∧ firstValue quark start stop scanned
          = .ok (intervals.find? fun i => !i.value.isNull) again
        ∧ ∀ instants, (s.subject.clamp stop + 1 - s.subject.clamp start).toNat ≤ instants →
          seekValue quark (s.subject.clamp stop) instants (s.subject.clamp start) s
            = .ok (intervals.find? fun i => !i.value.isNull) after)
      ∧ (¬ s.subject.names.Contains quark →
        intervalsBetween quark start stop s = .error (.notFound (.quark quark)) s
          ∧ firstValue quark start stop s = .error (.notFound (.quark quark)) s)

/-- A search for a value over a range begins at the nearest instant. -/
theorem firstValue_apply
    {start : Int}
    (quark : Int)
    (usable : s.subject.checkUsable = .ok ()) :
    firstValue quark start stop s
      = History.seekValue quark (s.subject.clamp stop)
          (s.subject.clamp stop + 1 - s.subject.clamp start).toNat (s.subject.clamp start) s := by
  unfold firstValue
  rw [Step.subject_bind_apply, usable, Step.ofExcept_ok, Step.pure_bind_apply]

/-- In a history that can be read the search finds the first value of a scan. -/
theorem Readable.findsFirst
    (readable : Readable s ledger) :
    FindsFirst s := by
  intro quark start stop ordered
  have usable := readable.kept.checkUsable
  have begun : s.subject.start ≤ s.subject.clamp start := start_le_clamp
  have inside : s.subject.clamp start ≤ s.subject.clamp stop := clamp_mono ordered
  have until_ : s.subject.clamp stop ≤ s.subject.currentEnd := clamp_le readable.begun
  constructor
  · intro known
    rcases readable.exists_tour known ordered with ⟨intervals, tour⟩
    rcases readable.gather tour begun inside until_ with ⟨scanned, asked, gathers⟩
    have readableScanned := asked.readable readable
    rcases readable.seekValue tour begun inside until_ with ⟨after, seeks⟩
    obtain ⟨again, seeksAgain⟩ := readableScanned.seekValue (asked.currentEnd ▸ tour)
      (asked.start ▸ begun) inside (asked.currentEnd ▸ until_)
    refine ⟨intervals, scanned, after, again, ?_, ?_, ?_, seeks⟩
    · rw [intervalsBetween_of_ordered quark usable ordered]
      exact gathers _ (Nat.le_refl _)
    · rw [firstValue_apply quark usable]
      exact seeks _ (Nat.le_refl _)
    · rw [firstValue_apply quark readableScanned.kept.checkUsable, asked.clamp, asked.clamp]
      exact seeksAgain _ (Nat.le_refl _)
  · intro unknown
    have fails := readable.kept.intervalAt_of_unknown unknown begun (Int.le_trans inside until_)
    constructor
    · rw [intervalsBetween_of_ordered quark usable ordered]
      cases (s.subject.clamp stop - s.subject.clamp start).toNat with
      | zero => exact Step.bind_of_error fails
      | succ instants => exact Step.bind_of_error fails
    · rw [firstValue_apply quark usable]
      obtain ⟨instants, more⟩ : ∃ instants,
          (s.subject.clamp stop + 1 - s.subject.clamp start).toNat = instants + 1 :=
        ⟨(s.subject.clamp stop - s.subject.clamp start).toNat, by omega⟩
      rw [more]
      unfold History.seekValue
      rw [if_neg (Int.not_lt.mpr inside)]
      exact Step.bind_of_error fails

/--
However a history arose, the search for a value over a range ends and finds the
first interval of a scan of the range that does not hold null, or nothing if
they all do.
-/
theorem findsFirst_of_arises
    (arises : Arises s) :
    FindsFirst s := by
  rcases arises.exists_readable with ⟨ledger, readable⟩
  exact readable.findsFirst

theorem findsFirst_in_cramped :
    ∃ made history closed again,
      create "cramped" 0 (.file "cramped" cramping) .empty = .ok (made, history)
        ∧ FindsFirst ((Step.each Call.step errands).reached ⟨made, history⟩)
        ∧ History.close 9 ((Step.each Call.step chores).reached ⟨made, history⟩) = .ok () closed
        ∧ History.reopen "again" "cramped" 0 closed.volume = .ok again
        ∧ FindsFirst ⟨closed.volume, again⟩ := by
  rcases arises_in_cramped with ⟨made, history, closed, again, created, written, closes, opened,
    reopened⟩
  exact ⟨made, history, closed, again, created, findsFirst_of_arises written, closes, opened,
    findsFirst_of_arises reopened⟩

end Chronicle.History
