import Chronicle.Replay

/-!
# Analyses of a trace

An analysis owns one history, which it builds from the events of a trace.  A
complete file that the same version of its decoder built is opened instead,
and no event is read; any other file is built anew.  The build may be held up
before an event and let go on later; meanwhile what it has built so far can be
asked about.  An analysis that is given up, or taken out of its trace, calls
its build off first.
-/

namespace Chronicle

namespace Analysis

/-- The build of an analysis. -/
inductive Worker
  /-- There is none, or its outcome was told. -/
  | none
  /-- It waits before the event of number `question`. -/
  | held
    (history : Nat)
    (question : Nat)
    (tally : Replay.Tally)
    (events : List Replay.Event)
  /-- It has ended. -/
  | done (result : Except Fault Replay.Outcome)

end Analysis

/-- One analysis of a trace. -/
structure Analysis where
  id : String
  plan : Backend.Plan
  start : Int
  /-- Whether its build was called off. -/
  calledOff : Bool
  /-- Whether its build was asked for. -/
  scheduled : Bool
  /-- Whether it is known if there is a history. -/
  initialized : Bool
  /-- Its history, by number. -/
  history : Option Nat
  worker : Analysis.Worker

/-- The histories ever begun, and the analyses of a trace. -/
structure Trace where
  histories : Array History
  analyses : List Analysis

namespace Analysis

/-- An analysis that was not asked to build anything yet. -/
def idle
    (id : String)
    (plan : Backend.Plan)
    (start : Int) :
    Analysis where
  id := id
  plan := plan
  start := start
  calledOff := false
  scheduled := false
  initialized := false
  history := Option.none
  worker := Worker.none

/-- The analysis after it became known whether it has a history. -/
def withHistory
    (analysis : Analysis)
    (history : Option Nat) :
    Analysis :=
  { analysis with history, initialized := true }

end Analysis

namespace Trace

/-- The trace without analyses. -/
def empty : Trace :=
  ⟨#[], []⟩

/-- The analysis called `id`. -/
def get?
    (trace : Trace)
    (id : String) :
    Option Analysis :=
  trace.analyses.find? fun analysis => analysis.id = id

/-- The names of all analyses, in order. -/
def ids (trace : Trace) : List String :=
  (trace.analyses.map (·.id)).mergeSort

/-- Adds an analysis under a name that is not taken. -/
def add
    (trace : Trace)
    (analysis : Analysis) :
    Except Fault Trace :=
  if (trace.get? analysis.id).isSome then
    .error (.badArgument (.takenName analysis.id))
  else
    .ok { trace with analyses := trace.analyses ++ [analysis] }

/-- Takes an analysis out. -/
def erase
    (trace : Trace)
    (id : String) :
    Trace :=
  { trace with analyses := trace.analyses.filter fun analysis => analysis.id ≠ id }

/-- Begins to keep a history, and gives it a number. -/
def keep (history : History) : Step Trace Nat := do
  let number := (← Step.subject).histories.size
  Step.update fun trace => { trace with histories := trace.histories.push history }
  return number

/-- Works on the history of a number. -/
def onHistory
    {α : Type}
    (number : Nat)
    (step : Step History α) :
    Step Trace α := do
  match (← Step.subject).histories[number]? with
  | none => throw .disposed
  | some history =>
    Step.onPart (fun _ => history)
      (fun trace history =>
        { trace with histories := trace.histories.setIfInBounds number history })
      step

/-- Changes the analysis called `id`. -/
def modify
    (id : String)
    (change : Analysis → Analysis) :
    Step Trace Unit :=
  Step.update fun trace =>
    { trace with
      analyses := trace.analyses.map fun analysis =>
        if analysis.id = id then change analysis else analysis }

/-- Tells the result of a build to its analysis. -/
def settle
    (id : String)
    (result : Except Fault Replay.Outcome) :
    Step Trace Unit :=
  modify id fun analysis => { analysis with worker := .done result }

/--
Builds a history from events.  With a `gate` the build is held up before the
event of that number.
-/
def build
    (analysis : Analysis)
    (history : Nat)
    (events : List Replay.Event)
    (gate : Option Nat) :
    Step Trace Unit := do
  let signal := Signal.always analysis.calledOff
  match gate with
  | none =>
    settle analysis.id (← Step.outcome (onHistory history (Replay.run signal events)))
  | some question =>
    match ← Step.outcome (onHistory history (Replay.feed signal 0 {} (events.take question))) with
    | .error fault => settle analysis.id (.error fault)
    | .ok (.ended outcome) => settle analysis.id (.ok outcome)
    | .ok (.reading tally) =>
      modify analysis.id fun analysis =>
        { analysis with worker := .held history question tally (events.drop question) }

/-- The complete history of a file, if there is one that the given version built. -/
def reusable?
    (analysis : Analysis)
    (version : Nat)
    (volume : Volume) :
    Option History :=
  match analysis.plan with
  | .memory => none
  | .file name _ => (History.reopen analysis.id name version volume).toOption

/-- The plan of a backend for the histories of one provider version. -/
def planFor
    (version : Nat) :
    Backend.Plan →
    Backend.Plan
  | .memory => .memory
  | .file name config => .file name { config with version }

/--
Asks an analysis to have its history, with events as a decoder of the given
version understands them.  It does so once.
-/
def schedule
    (analysis : Analysis)
    (version : Nat)
    (events : List Replay.Event)
    (gate : Option Nat) :
    Step Trace Unit := do
  if analysis.scheduled then
    return
  modify analysis.id fun analysis => { analysis with scheduled := true }
  let volume ← Step.volume
  match reusable? analysis version volume with
  | some history =>
    let number ← keep history
    modify analysis.id fun analysis => analysis.withHistory (some number)
  | none =>
    match History.create analysis.id analysis.start (planFor version analysis.plan) volume with
    | .error fault =>
      modify analysis.id fun analysis => analysis.withHistory none
      throw fault
    | .ok (volume, history) =>
      Step.updateVolume fun _ => volume
      let number ← keep history
      modify analysis.id fun analysis => analysis.withHistory (some number)
      build analysis number events gate

/-- Lets a build that is held up go on to its end. -/
def release (id : String) : Step Trace Unit := do
  match (← Step.subject).get? id with
  | none => return
  | some analysis =>
    match analysis.worker with
    | .held history question tally events =>
      let signal := Signal.always analysis.calledOff
      settle id (← Step.outcome
        (onHistory history (Replay.resume signal question tally events)))
    | _ => return

/-- Calls the build of an analysis off. -/
def cancel (id : String) : Step Trace Unit :=
  modify id fun analysis => { analysis with calledOff := true }

/-- The history of an analysis, by number. -/
def historyOf
    (trace : Trace)
    (id : String) :
    Option Nat :=
  (trace.get? id).bind (·.history)

/-- Whether an analysis has a history that was built to the end. -/
def isComplete
    (trace : Trace)
    (id : String) :
    Bool :=
  match (trace.historyOf id).bind fun number => trace.histories[number]? with
  | some history => history.status = .completed
  | none => false

/-- Waits for the end of a build, and tells whether the history is complete. -/
def await (id : String) : Step Trace Bool := do
  release id
  return (← Step.subject).isComplete id

/-- Waits for the end of a build, and tells its result the first time. -/
def join (id : String) : Step Trace (Option (Except Fault Replay.Outcome)) := do
  release id
  match (← Step.subject).get? id with
  | some { worker := Analysis.Worker.done result, .. } =>
    modify id fun analysis => { analysis with worker := .none }
    return some result
  | _ => return none

/-- Calls the build of an analysis off and gives its history up. -/
def dispose (id : String) : Step Trace Unit := do
  cancel id
  discard (join id)
  match (← Step.subject).historyOf id with
  | none => return
  | some number =>
    modify id fun analysis => { analysis with history := none }
    onHistory number History.dispose

/-- Calls the build of an analysis off and takes the analysis out. -/
def remove (id : String) : Step Trace Unit := do
  cancel id
  discard (join id)
  Step.update fun trace => trace.erase id

/-- Gives all analyses up and takes them out; the first fault is told at the end. -/
def disposeAll : Step Trace Unit := do
  let ids := (← Step.subject).ids
  ids.forM cancel
  let results ← ids.mapM fun id => Step.outcome (dispose id)
  Step.update fun trace => { trace with analyses := [] }
  match results.find? fun result => !result.isOk with
  | some (.error fault) => throw fault
  | _ => return

end Trace

end Chronicle
