import Timetable.Scheduling.Dominance
import Timetable.Scheduling.Forward
import Timetable.Scheduling.Step

/-!
# Lock-step scheduling

In lock step all resources go through the same sequence of timesteps. Each step is as long as its
dominant ready operation, takes what fits, and is closed by a boundary on all resources.

A program may already contain timesteps, because it is a lock-step schedule turned back into a
program, perhaps reversed in time. These carried timesteps are not grouped: each becomes the
boundary of the step it belongs to, and one without such a step closes an empty step.

## Main definitions

* `Group`, `Grouping` — a finished step, and how far the pass has come.
* `Grouping.advance`, `Grouping.run` — one step, and all of them.
* `Program.lockStep` — the pass.
-/

set_option autoImplicit false

namespace Timetable

/-- A finished step: its entries, and the boundary that closes it. -/
structure Group where
  entries : List Entry
  boundary : Entry
  deriving DecidableEq, Repr

/-- The entries of a group in their order. -/
def Group.toList (group : Group) : List Entry := group.entries ++ [group.boundary]

/-- How far lock-step scheduling has come. -/
structure Grouping where
  /-- The operations not completed. -/
  residual : Residual
  /-- For every operation, the ticks of it that are not placed yet. -/
  remaining : Array Tick
  /-- The last boundary. -/
  elapsed : Tick := 0
  /-- The number of steps begun. -/
  steps : Nat := 0
  /-- The finished steps. -/
  groups : List Group := []
  notes : Array Note := #[]

namespace Grouping

/-- Nothing placed yet. -/
def start (work : Workload) : Grouping where
  residual := .start work.precedence
  remaining := (work.jobs.toList.map Job.ticks).toArray

/-- The entries of all finished steps. -/
def entries (grouping : Grouping) : List Entry := grouping.groups.flatMap Group.toList

/-- Takes a note. -/
def note (grouping : Grouping) (note : Note) : Grouping :=
  { grouping with notes := grouping.notes.push note }

/-- Closes an empty step with a carried timestep. -/
def emptyStep (work : Workload) (grouping : Grouping) (id : OpId) : Grouping :=
  let boundary := Entry.boundary 0 work.resources grouping.elapsed (some id)
  { grouping with
    groups := grouping.groups ++ [⟨[], boundary⟩]
    notes := grouping.notes.push (.emptyStep id grouping.elapsed) }

/-- The key of the operation that decides how long the next step is. -/
def dominant? (work : Workload) (grouping : Grouping) : Option DominanceKey :=
  DominanceKey.least? <| grouping.residual.frontier.map fun id =>
    .of id (grouping.remaining[id]?.getD 0) (work.isDelay id) work.rule

end Grouping

/-- Completes the carried timesteps of the frontier, also those released by completing others, in
at most a number of rounds. Gives them in the order of completion, with what is left. -/
def Residual.drainRounds (work : Workload) : (times : Nat) → Residual → List OpId × Residual
  | 0, residual => ([], residual)
  | times + 1, residual =>
    match residual.frontier.filter work.isTimestep with
    | [] => ([], residual)
    | markers =>
      let (more, rest) := drainRounds work times (markers.foldl complete residual)
      (markers ++ more, rest)

/-- Completes every carried timestep of the frontier, until none is left in it. Each round
completes one of the pending operations, so their number bounds the rounds. -/
def Residual.drain (work : Workload) (residual : Residual) : List OpId × Residual :=
  residual.drainRounds work residual.pending.length

/-- Of the carried timesteps that are ready when a step begins, the one that opens it. -/
def Workload.opening? (work : Workload) (markers : List OpId) : Option OpId :=
  match work.side with
  | .opening => markers.head?
  | .closing => none

/-- Of the carried timesteps that are ready when a step begins, those that close empty steps. -/
def Workload.loose (work : Workload) (markers : List OpId) : List OpId :=
  match work.side with
  | .opening => markers.tail
  | .closing => markers

/-- The carried timestep that bounds a step that was just filled: the one that opened it, or the
first that is ready behind it. -/
def Workload.boundary? (work : Workload) (opening : Option OpId) (residual : Residual) :
    Option OpId :=
  match work.side with
  | .opening => opening
  | .closing => residual.frontier.find? work.isTimestep

namespace Grouping

/-- The step that a dominant operation makes, with everything in it that fits. -/
def filled (work : Workload) (grouping : Grouping) (dominant : DominanceKey) : Step :=
  (Step.start work grouping.residual grouping.remaining grouping.elapsed dominant.duration).fill
    work

/-- Cuts the delays that are too long for a step, covers the rest with idle time, and closes it. A
carried timestep that bounds the step is completed; completing one that opened it again changes
nothing. -/
def close (work : Workload) (opening : Option OpId) (grouping : Grouping) (dominant : OpId)
    (filled : Step) : Grouping :=
  let step := (filled.cutDelays work).padded
  let source := work.boundary? opening step.residual
  let elapsed := grouping.elapsed + step.length
  let boundary := Entry.boundary step.length work.resources elapsed source
  let closed := Note.closed grouping.steps step.length dominant step.admitted elapsed
  { residual := source.toList.foldl Residual.complete step.residual
    remaining := step.remaining
    elapsed := elapsed
    steps := grouping.steps
    groups := grouping.groups ++ [⟨step.entries, boundary⟩]
    notes := (grouping.notes ++ step.notes).push closed }

/-- Begins a step: the loose ones of the carried timesteps that are ready close empty steps. -/
def begun (work : Workload) (grouping : Grouping) (markers : List OpId) (residual : Residual) :
    Grouping :=
  (work.loose markers).foldl (emptyStep work)
    { grouping with residual, steps := grouping.steps + 1 }

/-- Makes the next step: completes the carried timesteps that are ready, and then fills and closes
a step for the dominant operation. If nothing else is left, a timestep that was to open a step
closes an empty one. -/
def advance (work : Workload) (grouping : Grouping) : Grouping × Option SchedulingError :=
  let (markers, residual) := grouping.residual.drain work
  let opening := work.opening? markers
  let begun := grouping.begun work markers residual
  if begun.residual.isDone then
    (opening.toList.foldl (emptyStep work) begun, none)
  else
    let noted := begun.note (.frontier begun.steps begun.residual.frontier)
    match noted.dominant? work with
    | none => (noted, some (.emptyFrontier work.name))
    | some dominant =>
      let filled := noted.filled work dominant
      if filled.admitted = 0 then
        ({ noted with notes := noted.notes ++ filled.notes },
          some (.notAdmitted dominant.id work.name))
      else (noted.close work opening dominant.id filled, none)

/-- Makes steps until every operation is completed, within a budget of steps out of `bound`. -/
def run (work : Workload) (bound : Nat) :
    (budget : Nat) → Grouping → Grouping × Option SchedulingError
  | 0, grouping =>
    (grouping, if grouping.residual.isDone then none else some (.tooManySteps work.name bound))
  | budget + 1, grouping =>
    if grouping.residual.isDone then (grouping, none)
    else
      match grouping.advance work with
      | (next, some e) => (next, some e)
      | (next, none) => run work bound budget next

end Grouping

/-- The number of steps within which every program has to be grouped. Each step completes an
operation, so it is never reached. -/
def Workload.stepBound (work : Workload) : Nat := work.jobs.size * max work.numResources 1

/-- Schedules a program in lock step, as soon as possible. -/
def Program.lockStep (program : Program) (table : DurationTable) (rule : DelayRule)
    (side : CarriedSide) : Run :=
  match program.ordered with
  | .error e => .failed program e
  | .ok (precedence, _) =>
    let resolution := program.resolve table program.ids
    match resolution.failure with
    | some e => .failed resolution.program (.duration e)
    | none =>
      let work : Workload :=
        { name := program.name
          jobs := resolution.jobs.toArray
          precedence := precedence
          numResources := program.numResources
          rule := rule
          side := side }
      let (grouping, failure) := (Grouping.start work).run work work.stepBound work.stepBound
      { program := resolution.program
        notes := grouping.notes
        result :=
          match failure with
          | some e => .error e
          | none => .ok (.sealedFor program grouping.entries resolution.anomalies) }

end Timetable
