import Chronicle.Proofs.History.Running

/-!
# A history has no gaps

Whatever a writer does and however it ends, the store never refuses what ends,
and every attribute holds, at every instant from the start to the current end,
a value over exactly one interval.
-/

namespace Chronicle.History

/--
About every attribute and any two instants up to the current end there are
answers, each about an interval of the attribute that covers the instant, and
the two are the same or have no instant in common.
-/
def Contiguous (s : Placed History) : Prop :=
  ∀ quark t other, s.subject.names.Contains quark →
    s.subject.start ≤ t ∧ t ≤ s.subject.currentEnd →
    s.subject.start ≤ other ∧ other ≤ s.subject.currentEnd →
      ∃ i j between last,
        intervalAt t quark s = .ok i between
          ∧ intervalAt other quark between = .ok j last
          ∧ i.quark = quark ∧ i.Covers t
          ∧ j.quark = quark ∧ j.Covers other
          ∧ (i = j ∨ i.stop < j.start ∨ j.stop < i.start)

variable {s : Placed History} {ledger : Ledger} {calls : List Call}

/-- A history that answers by a ledger has no gaps. -/
theorem Kept.contiguous
    (kept : Kept s ledger)
    (inRange : s.subject.InRange) :
    Contiguous s := by
  rintro quark t other known ⟨begun, until_⟩ ⟨otherBegun, otherUntil⟩
  rcases kept.answer inRange known begun until_ with ⟨i, between, asks, answered, asked⟩
  have outline := asked.outline
  have names : between.subject.names = s.subject.names := congrArg Outline.names outline
  have ending : between.subject.currentEnd = s.subject.currentEnd :=
    congrArg Outline.currentEnd outline
  rcases (asked.kept kept).answer (asked.inRange inRange) (names ▸ known)
    (asked.start ▸ otherBegun) (ending ▸ otherUntil) with ⟨j, last, asksAgain, answeredAgain, -⟩
  rw [ending] at answeredAgain
  have tiled := kept.keeps.tiled
  have iCovers := Ledger.Tiled.intervalAt_covers answered until_
  have jCovers := Ledger.Tiled.intervalAt_covers answeredAgain otherUntil
  exact ⟨i, j, between, last, asks, asksAgain, iCovers.1, iCovers.2, jCovers.1, jCovers.2,
    tiled.intervalAt_eq_or_apart kept.keeps.holds.separate answered answeredAgain⟩

/-- While it is only asked, a history keeps its ledger. -/
theorem Kept.run
    (kept : Kept s ledger)
    (asking : ∀ call ∈ calls, ¬ call.Writes)
    (inRange : ∀ before, before <+: calls →
      ((Step.each Call.step before).reached s).subject.InRange) :
    Kept ((Step.each Call.step calls).reached s) ledger
      ∧ ∀ insert, Step.each (Call.stepWith insert) calls s = Step.each Call.step calls s := by
  induction calls generalizing s with
  | nil => exact ⟨kept, fun _ => rfl⟩
  | cons call calls ih =>
      rcases Step.prefixes_cons (fun r : Placed History => r.subject.InRange) inRange with
        ⟨now, later⟩
      rcases kept.call now (asking call List.mem_cons_self) with ⟨keptAfter, same⟩
      rcases ih keptAfter (fun other member => asking other (List.mem_cons_of_mem _ member)) later
        with ⟨keptLast, sameLater⟩
      refine ⟨?_, fun insert => Step.each_congr_cons (same insert) (sameLater insert)⟩
      rw [Step.reached_each_cons]
      exact keptLast

/-- Through all calls of its writer, and after them, a history answers by a ledger. -/
theorem Open.run
    (open_ : Open s ledger)
    (lawful : Lawful calls)
    (inRange : ∀ before, before <+: calls →
      ((Step.each Call.step before).reached s).subject.InRange) :
    ∃ after,
      Kept ((Step.each Call.step calls).reached s) after
        ∧ ∀ insert, Store.Follows insert →
          Step.each (Call.stepWith insert) calls s = Step.each Call.step calls s := by
  induction calls generalizing s ledger with
  | nil => exact ⟨ledger, open_.kept, fun _ _ => rfl⟩
  | cons call calls ih =>
      rcases Step.prefixes_cons (fun r : Placed History => r.subject.InRange) inRange with
        ⟨now, later⟩
      rcases List.pairwise_cons.mp lawful with ⟨first, rest⟩
      rcases open_.call now call with ⟨between, called⟩
      rw [Step.reached_each_cons]
      by_cases ends : call.Ends
      · rcases called.kept.run (fun other member => first other member ends) later with
          ⟨keptLast, sameLater⟩
        exact ⟨between, keptLast, fun insert follows =>
          Step.each_congr_cons (called.follows insert follows) (sameLater insert)⟩
      · rcases ih (called.open_ ends) rest later with ⟨after, keptLast, sameLater⟩
        exact ⟨after, keptLast, fun insert follows =>
          Step.each_congr_cons (called.follows insert follows) (sameLater insert follows)⟩

/--
A new history never contradicts itself.  After whatever its writer did, it is
not corrupted and has no gaps; and nothing would have come out differently if
something else had been done wherever its store refuses an interval, since
the store never refuses one.
-/
theorem contiguous_of_created
    {id : String}
    {start : Int}
    {plan : Backend.Plan}
    {volume made : Volume}
    {history : History}
    (sound : volume.Sound)
    (created : create id start plan volume = .ok (made, history))
    (lawful : Lawful calls)
    (inRange : ∀ before, before <+: calls →
      ((Step.each Call.step before).reached ⟨made, history⟩).subject.InRange) :
    ((Step.each Call.step calls).reached ⟨made, history⟩).subject.recording.store.corrupted = false
      ∧ Contiguous ((Step.each Call.step calls).reached ⟨made, history⟩)
      ∧ ∀ insert, Store.Follows insert →
        Step.each (Call.stepWith insert) calls ⟨made, history⟩
          = Step.each Call.step calls ⟨made, history⟩ := by
  rcases open_of_create sound created with ⟨open_, -⟩
  rcases open_.run lawful inRange with ⟨after, kept, same⟩
  exact ⟨kept.keeps.healthy, kept.contiguous (inRange calls (List.prefix_refl calls)), same⟩

/-- Calls that split nodes of such a file, among them some that fail and one after the end. -/
def errands : List Call :=
  [.make (.intern (-1) ["a"]),
    .make (.intern (-1) ["b", "c"]),
    .make (.set 2 (.int 1) 0),
    .make (.set 2 (.int 1) 1),
    .make (.increment 4 0),
    .make (.set 3 (.int 5) 0),
    .make (.set 6 (.string "large") 1),
    .overwrite (.int 7) 1,
    .make (.remove 6 1),
    .make (.set 8 (.int 1) 0),
    .ask (.interval 8 0),
    .make (.increment 9 2),
    .close 7,
    .ask (.interval 20 1)]

theorem inRange_errands :
    ∃ made history,
      create "cramped" 0 (.file "cramped" cramping) .empty = .ok (made, history)
        ∧ ∀ before ∈ errands.inits,
          ((Step.each Call.step before).reached ⟨made, history⟩).subject.InRange :=
  ⟨_, _, rfl, by decide +kernel⟩

theorem contiguous_after_errands :
    ∃ made history,
      create "cramped" 0 (.file "cramped" cramping) .empty = .ok (made, history)
        ∧ ((Step.each Call.step errands).reached
          ⟨made, history⟩).subject.recording.store.corrupted = false
        ∧ Contiguous ((Step.each Call.step errands).reached ⟨made, history⟩)
        ∧ ∀ insert, Store.Follows insert →
          Step.each (Call.stepWith insert) errands ⟨made, history⟩
            = Step.each Call.step errands ⟨made, history⟩ := by
  rcases inRange_errands with ⟨made, history, created, inRange⟩
  have lawful : Lawful errands := by decide
  exact ⟨made, history, created, contiguous_of_created (by decide) created lawful
    fun before begins => inRange before ((List.mem_inits before errands).mpr begins)⟩

end Chronicle.History
