import Chronicle.Proofs.Matching
import Chronicle.Proofs.Tree.Roominess

/-!
# Backends that fail

A backend can fail to take an interval at any call.  Unless it is asked for
something before the start of its history, it is then as it was, and what it
takes it takes just as a backend does that never fails.
-/

namespace Chronicle.Backend

/-- The backend that refuses no insertion because it was told to. -/
def reliable : Backend → Backend
  | memory m => memory m
  | stored b => stored b
  | unreliable u => memory u.memory

/-- The backend after one more insertion that it was asked for and refused. -/
def asked : Backend → Backend
  | memory m => memory m
  | stored b => stored b
  | unreliable u => unreliable { u with asked := u.asked + 1 }

@[simp]
theorem start_reliable (backend : Backend) : backend.reliable.start = backend.start := by
  cases backend <;> rfl

@[simp]
theorem reliable_asked (backend : Backend) : backend.asked.reliable = backend.reliable := by
  cases backend <;> rfl

/-- Takes an interval unless it is to be refused with a fault. -/
def insertUnless
    (refusal : Option Fault)
    (i : Interval) :
    Step Backend Unit :=
  match refusal with
  | some fault => throw fault
  | none => insert i

/-- A backend for a history from `start` on, with room in its tree if it has one. -/
def Roomy (start : Int) : Backend → Prop
  | memory m => m.start = start
  | stored b => b.tree.start = start ∧ b.tree.Roomy
  | unreliable u => u.memory.start = start

theorem start_of_insert
    {m after : Memory}
    {i : Interval}
    (took : m.insert i = .ok after) :
    after.start = m.start := by
  unfold Memory.insert at took
  cases alive : m.checkAlive with
  | error fault =>
      rw [alive] at took
      cases took
  | ok done =>
      rw [alive] at took
      cases took
      rfl

theorem start_of_finish
    {m after : Memory}
    {stop : Int}
    (done : m.finish stop = .ok after) :
    after.start = m.start := by
  unfold Memory.finish at done
  cases alive : m.checkAlive with
  | error fault =>
      rw [alive] at done
      cases done
  | ok told =>
      rw [alive] at done
      cases done
      rfl

namespace Roomy

variable {start : Int} {s : Placed Backend} {backend : Backend}

theorem start_eq
    (roomy : backend.Roomy start) :
    backend.start = start := by
  cases backend with
  | memory m => exact roomy
  | stored b => exact roomy.1
  | unreliable u => exact roomy

theorem asked
    (roomy : backend.Roomy start) :
    backend.asked.Roomy start := by
  cases backend with
  | memory m => exact roomy
  | stored b => exact roomy
  | unreliable u => exact roomy

/-- Which nodes are at hand makes no difference. -/
theorem of_bare
    {other : Backend}
    (roomy : backend.Roomy start)
    (same : other.bare = backend.bare) :
    other.Roomy start := by
  cases backend with
  | memory m =>
      cases other <;> cases same
      exact roomy
  | unreliable u =>
      cases other <;> cases same
      exact roomy
  | stored b =>
      cases other with
      | memory m => cases same
      | unreliable u => cases same
      | stored c =>
          have tree : c.tree.withCache (.empty 0) = b.tree.withCache (.empty 0) :=
            congrArg Stored.tree (stored.inj same)
          exact ⟨(congrArg Tree.start tree :).trans roomy.1, roomy.2.of_withCache tree⟩

/-- A step that leaves a tree room leaves it to the backend. -/
theorem onTree
    {α : Type}
    {b : Stored}
    {volume : Volume}
    {step : Step Tree α}
    (roomy : (stored b).Roomy start)
    (keeps : (step.reached ⟨volume, b.tree⟩).subject.Roomy
      ∧ (step.reached ⟨volume, b.tree⟩).subject.config = b.tree.config) :
    ((Backend.onTree b step).reached ⟨volume, stored b⟩).subject.Roomy start := by
  refine Step.reached_ofExcept_bind (fun r : Placed Backend => r.subject.Roomy start) roomy
    fun _ _ => ?_
  rw [Step.reached_onPart]
  exact ⟨(congrArg Tree.Config.start keeps.2).trans roomy.1, keeps.1⟩

/--
A backend with room refuses an interval of its history without a trace, or
takes it as a reliable one does.
-/
theorem insertUnless
    {i : Interval}
    (roomy : s.subject.Roomy start)
    (begun : start ≤ i.start)
    (refusal : Option Fault) :
    (∃ fault r, Backend.insertUnless refusal i s = .error fault r
        ∧ (r = s ∨ r = ⟨s.volume, s.subject.asked⟩))
      ∨ ∃ r, Backend.insertUnless refusal i s = .ok () r
        ∧ r.subject.Roomy start
        ∧ insert i ⟨s.volume, s.subject.reliable⟩ = .ok () ⟨r.volume, r.subject.reliable⟩ := by
  rcases s with ⟨volume, backend⟩
  cases refusal with
  | some fault => exact Or.inl ⟨fault, _, rfl, Or.inl rfl⟩
  | none =>
      cases backend with
      | memory m =>
          cases took : m.insert i with
          | error fault =>
              refine Or.inl ⟨fault, ⟨volume, memory m⟩, ?_, Or.inl rfl⟩
              simp only [Backend.insertUnless, insert, Step.subject_bind_apply, took]
              rfl
          | ok after =>
              have takes : insert i ⟨volume, memory m⟩ = .ok () ⟨volume, memory after⟩ := by
                simp only [insert, Step.subject_bind_apply, took]
                rfl
              exact Or.inr ⟨_, takes, (start_of_insert took).trans roomy, takes⟩
      | stored b =>
          cases gone : b.disposed with
          | true => exact Or.inl ⟨.disposed, _, onTree_of_gone gone _ _, Or.inl rfl⟩
          | false =>
              have started : b.tree.start ≤ i.start := by
                rw [roomy.1]
                exact begun
              rcases roomy.2.insert (s := ⟨volume, b.tree⟩) started with
                ⟨fault, failed⟩ | ⟨after, took, roomyAfter, config⟩
              · exact Or.inl ⟨fault, _, onTree_of_error gone failed, Or.inl rfl⟩
              · have takes := onTree_of_ok (s := ⟨volume, stored b⟩) gone took
                refine Or.inr ⟨_, takes, ⟨?_, roomyAfter⟩, takes⟩
                exact (congrArg Tree.Config.start config).trans roomy.1
      | unreliable u =>
          cases refused : u.refuses u.asked with
          | some fault =>
              refine Or.inl ⟨fault, ⟨volume, (unreliable u).asked⟩, ?_, Or.inr rfl⟩
              simp only [Backend.insertUnless, insert, Step.subject_bind_apply, refused]
              rfl
          | none =>
              cases took : u.memory.insert i with
              | error fault =>
                  refine Or.inl ⟨fault, ⟨volume, (unreliable u).asked⟩, ?_, Or.inr rfl⟩
                  simp only [Backend.insertUnless, insert, Step.subject_bind_apply, refused, took]
                  rfl
              | ok after =>
                  refine Or.inr ⟨⟨volume, unreliable ⟨after, u.refuses, u.asked + 1⟩⟩, ?_,
                    (start_of_insert took).trans roomy, ?_⟩
                  · simp only [Backend.insertUnless, insert, Step.subject_bind_apply, refused, took]
                    rfl
                  · simp only [reliable, insert, Step.subject_bind_apply, took]
                    rfl

/-- A backend that is completed has room whether that succeeds or not. -/
theorem finish
    (roomy : s.subject.Roomy start)
    (stop : Int)
    (ns : Namespace) :
    ((Backend.finish stop ns).reached s).subject.Roomy start := by
  rcases s with ⟨volume, backend⟩
  cases backend with
  | memory m =>
      exact Step.reached_ofExcept_bind (fun r : Placed Backend => r.subject.Roomy start) roomy
        fun after done => (start_of_finish done).trans roomy
  | stored b => exact roomy.onTree (roomy.2.finish (s := ⟨volume, b.tree⟩) stop ns)
  | unreliable u =>
      exact Step.reached_ofExcept_bind (fun r : Placed Backend => r.subject.Roomy start) roomy
        fun after done => (start_of_finish done).trans roomy

theorem find
    (roomy : s.subject.Roomy start)
    (t quark : Int) :
    ((Backend.find t quark).reached s).subject.Roomy start :=
  roomy.of_bare ((leaves_find t quark s).seen Prod.snd)

theorem collect
    (roomy : s.subject.Roomy start)
    (t : Int)
    (slots : Tree.Slots) :
    ((Backend.collect t slots).reached s).subject.Roomy start :=
  roomy.of_bare ((leaves_collect t slots s).seen Prod.snd)

theorem dispose
    (roomy : s.subject.Roomy start) :
    (Backend.dispose.reached s).subject.Roomy start := by
  rcases s with ⟨volume, backend⟩
  cases backend with
  | memory m => exact roomy
  | unreliable u => exact roomy
  | stored b =>
      cases gone : b.disposed with
      | true =>
          have gives : Backend.dispose ⟨volume, stored b⟩ = .ok () ⟨volume, stored b⟩ := by
            simp only [Backend.dispose, Step.subject_bind_apply, gone]
            rfl
          rw [Step.reached_of_ok gives]
          exact roomy
      | false =>
          rw [Step.reached_of_ok (dispose_stored gone volume)]
          have same : (b.tree.withCache b.tree.io.cache.clear).withCache (.empty 0)
              = b.tree.withCache (.empty 0) := rfl
          exact ⟨roomy.1, roomy.2.of_withCache same⟩

end Roomy

theorem roomy_of_create
    {plan : Plan}
    {start : Int}
    {volume made : Volume}
    {backend : Backend}
    (created : create plan start volume = .ok (made, backend)) :
    backend.Roomy start := by
  cases plan with
  | memory =>
      cases created
      rfl
  | file name config =>
      rcases exists_ok_of_bind created with ⟨⟨base, tree⟩, treeMade, done⟩
      cases done
      refine ⟨?_, Tree.roomy_of_create treeMade⟩
      rcases Tree.create_eq_ok treeMade with ⟨-, -, -, -, -, rfl⟩
      rfl

theorem roomy_of_reopen
    {name : String}
    {version : Nat}
    {volume : Volume}
    {backend : Backend}
    {ns : Namespace}
    (opened : reopen name version volume = .ok (backend, ns)) :
    backend.Roomy backend.start := by
  rcases exists_ok_of_bind opened with ⟨⟨tree, told⟩, treeOpened, done⟩
  cases done
  exact ⟨rfl, Tree.roomy_of_reopen treeOpened⟩

/-! ## Schedules -/

/-- The backend from whose schedule the next insertion is struck, be it to be refused or not. -/
def struck : Backend → Backend
  | memory m => memory m
  | stored b => stored b
  | unreliable u => unreliable { u with refuses := fun number => u.refuses (number + 1) }

/--
Two backends, of which the first has counted one insertion more, and the second
goes by a schedule without that one.
-/
inductive Ahead : Placed Backend → Placed Backend → Prop
  | same
      (s : Placed Backend) :
      Ahead s s
  | counted
      (volume : Volume)
      (m : Memory)
      (refuses : Nat → Option Fault)
      (asked : Nat) :
      Ahead ⟨volume, unreliable ⟨m, refuses, asked + 1⟩⟩
        ⟨volume, unreliable ⟨m, fun number => refuses (number + 1), asked⟩⟩

theorem ahead_asked
    (volume : Volume)
    (backend : Backend) :
    Ahead ⟨volume, backend.asked⟩ ⟨volume, backend.struck⟩ := by
  cases backend with
  | memory m => exact .same _
  | stored b => exact .same _
  | unreliable u => exact .counted volume u.memory u.refuses u.asked

namespace Ahead

variable {s s' : Placed Backend}

theorem start_eq
    (ahead : Ahead s s') :
    s'.subject.start = s.subject.start := by
  cases ahead <;> rfl

theorem stop_eq
    (ahead : Ahead s s') :
    s'.subject.stop = s.subject.stop := by
  cases ahead <;> rfl

theorem insert
    (ahead : Ahead s s')
    (i : Interval) :
    Step.Matched Ahead (Backend.insert i s) (Backend.insert i s') := by
  cases ahead with
  | same => exact .refl .same _
  | counted volume m refuses asked =>
      simp only [Backend.insert, Step.subject_bind_apply]
      cases refuses (asked + 1) with
      | some fault => exact .error fault (.counted volume m refuses (asked + 1))
      | none =>
          exact Step.Matched.ofExcept_bind (.counted volume m refuses (asked + 1)) (m.insert i)
            fun after _ => .ok () (.counted volume after refuses (asked + 1))

theorem finish
    (ahead : Ahead s s')
    (stop : Int)
    (ns : Namespace) :
    Step.Matched Ahead (Backend.finish stop ns s) (Backend.finish stop ns s') := by
  cases ahead with
  | same => exact .refl .same _
  | counted volume m refuses asked =>
      exact Step.Matched.ofExcept_bind (.counted volume m refuses asked) (m.finish stop)
        fun after _ => .ok () (.counted volume after refuses asked)

theorem find
    (ahead : Ahead s s')
    (t quark : Int) :
    Step.Matched Ahead (Backend.find t quark s) (Backend.find t quark s') := by
  cases ahead with
  | same => exact .refl .same _
  | counted volume m refuses asked =>
      exact Step.Matched.ofExcept (.counted volume m refuses asked) (m.find t quark)

theorem collect
    (ahead : Ahead s s')
    (t : Int)
    (slots : Tree.Slots) :
    Step.Matched Ahead (Backend.collect t slots s) (Backend.collect t slots s') := by
  cases ahead with
  | same => exact .refl .same _
  | counted volume m refuses asked =>
      exact Step.Matched.ofExcept (.counted volume m refuses asked) (m.collect t slots)

theorem dispose
    (ahead : Ahead s s') :
    Step.Matched Ahead (Backend.dispose s) (Backend.dispose s') := by
  cases ahead with
  | same => exact .refl .same _
  | counted volume m refuses asked => exact .ok () (.counted volume m.dispose refuses asked)

end Ahead

end Chronicle.Backend
