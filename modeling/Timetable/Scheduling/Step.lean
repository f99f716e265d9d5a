import Timetable.Precedence.Residual
import Timetable.Program.Resolution
import Timetable.Scheduling.Note
import Timetable.Timeline

/-!
# Filling a timestep

A timestep is a span of fixed length in which operations are packed side by side and one behind
the other. It takes every ready operation that fits, also those that become ready inside it, and
the front part of every delay that does not fit. What is left of its resources then idles.

## Main definitions

* `Workload` — the operations to be grouped, with the rules for grouping them.
* `Step` — a timestep being filled.
* `Step.fill` — taking operations until nothing more fits.
* `Step.cutDelays` — taking the front parts of the delays that are too long.
* `Step.padded` — covering the rest with idle time.
-/

set_option autoImplicit false

namespace Timetable

/-- To which side of a timestep that the program already contains the step lies that it bounds. -/
inductive CarriedSide where
  /-- It closes the step before it. -/
  | closing
  /-- It opens the step after it, as in a program reversed in time. -/
  | opening
  deriving DecidableEq, Repr

/-- What lock-step scheduling works on: operations of known durations with their precedence, and
the rules for grouping them. -/
structure Workload where
  /-- The name of the program. -/
  name : String
  /-- All operations, in program order. -/
  jobs : Array Job
  precedence : Precedence
  /-- The number of declared resources. -/
  numResources : Nat
  /-- How long a step is when only delays are ready. -/
  rule : DelayRule
  /-- How the timesteps of the program are read. -/
  side : CarriedSide
  deriving Repr

namespace Workload

/-- All declared resources. -/
def resources (work : Workload) : List Resource := List.range work.numResources

/-- Whether an operation is a delay. -/
def isDelay (work : Workload) (id : OpId) : Bool :=
  work.jobs[id]?.any fun job => job.operation.isDelay

/-- Whether an operation is a timestep. -/
def isTimestep (work : Workload) (id : OpId) : Bool :=
  work.jobs[id]?.any fun job => job.operation.isTimestep

end Workload

/-- A timestep being filled. Its ticks are relative to its origin. -/
structure Step where
  origin : Tick
  length : Tick
  /-- The operations not completed. -/
  residual : Residual
  /-- For every operation, the ticks of it that are not placed yet. -/
  remaining : Array Tick
  /-- When each resource is free. -/
  timeline : Timeline
  /-- When each operation taken by this step finishes; zero for the others. -/
  finish : Array Tick
  /-- The entries of this step. -/
  entries : List Entry := []
  /-- The number of operations taken. -/
  admitted : Nat := 0
  notes : Array Note := #[]
  deriving Repr

/-- What is placed of an operation when `duration` of its `full` ticks are left: a delay that was
cut becomes a delay of what is left. -/
def Operation.rest (duration full : Tick) : Operation → Operation
  | .delay span resource =>
    if duration = full then .delay span resource else .idle duration resource
  | operation => operation

namespace Step

/-- An empty step that starts at `origin`. -/
def start (work : Workload) (residual : Residual) (remaining : Array Tick) (origin length : Tick) :
    Step where
  origin := origin
  length := length
  residual := residual
  remaining := remaining
  timeline := .start work.numResources origin
  finish := Array.replicate work.jobs.size 0

/-- The ticks of an operation that are not placed yet. -/
def left (step : Step) (id : OpId) : Tick := step.remaining[id]?.getD 0

/-- When an operation taken by this step finishes. -/
def finishOf (step : Step) (id : OpId) : Tick := step.finish[id]?.getD 0

/-- The first tick at which an operation can start in this step. -/
def earliest (work : Workload) (step : Step) (job : Job) : Tick :=
  max (step.timeline.earliest job.operation.resources)
    (latest ((work.precedence.preds job.id).map step.finishOf))

/-- Takes an operation, which starts at a tick of the step and completes in it. -/
def accept (step : Step) (job : Job) (start : Tick) : Step :=
  let resources := job.operation.resources
  let duration := step.left job.id
  let gaps := step.timeline.gaps resources start
  let placed := job.operation.rest duration job.ticks
  let entry : Entry := ⟨placed, step.origin + start, duration, some job.id⟩
  { step with
    residual := step.residual.complete job.id
    timeline := (step.timeline.pad resources start).occupy resources start duration
    finish := step.finish.setIfInBounds job.id (start + duration)
    entries := step.entries ++ gaps ++ [entry]
    admitted := step.admitted + 1 }

/-- Offers an operation to the step, which takes it if it fits. Timesteps of the program are not
grouped. -/
def offer (work : Workload) (step : Step) (id : OpId) : Step :=
  match work.jobs[id]? with
  | none => step
  | some job =>
    if job.operation.isTimestep then step
    else
      let start := step.earliest work job
      let duration := step.left id
      if step.length < start + duration then
        let refusal := Note.refused id job.operation.name duration start step.length
        { step with notes := step.notes.push refusal }
      else step.accept job start

/-- Offers every operation that is ready now. -/
def round (work : Workload) (step : Step) : Step :=
  step.residual.frontier.foldl (offer work) step

/-- Repeats rounds until one of them takes nothing, at most a number of times. -/
def rounds (work : Workload) : (times : Nat) → Step → Step
  | 0, step => step
  | times + 1, step =>
    let next := step.round work
    if next.admitted = step.admitted then next else rounds work times next

/-- Takes operations until nothing more fits. Every round but the last takes one of the pending
operations, so their number bounds the rounds. -/
def fill (work : Workload) (step : Step) : Step :=
  step.rounds work step.residual.pending.length

/-- Takes the front part of a delay that is too long for the rest of the step. The delay keeps
what was not placed, and stays in the frontier. -/
def cutDelay (work : Workload) (step : Step) (id : OpId) : Step :=
  match work.jobs[id]? with
  | some ⟨_, .delay span resource, ticks⟩ =>
    let start := step.earliest work ⟨id, .delay span resource, ticks⟩
    let part := step.length - start
    if step.length ≤ start ∨ step.left id ≤ part then step
    else
      let gaps := step.timeline.gaps [resource] start
      let entry := Entry.idle resource (step.origin + start) part (some id)
      let left := step.left id - part
      { step with
        remaining := step.remaining.setIfInBounds id left
        timeline := (step.timeline.pad [resource] start).occupy [resource] start part
        entries := step.entries ++ gaps ++ [entry]
        notes := step.notes.push (.cut id resource part left) }
  | _ => step

/-- Takes the front part of every ready delay that is too long for the rest of the step. -/
def cutDelays (work : Workload) (step : Step) : Step :=
  step.residual.frontier.foldl (cutDelay work) step

/-- Covers all resources with idle time up to the end of the step. -/
def padded (step : Step) : Step :=
  { step with
    timeline := step.timeline.pad step.timeline.resources step.length
    entries := step.entries ++ step.timeline.gaps step.timeline.resources step.length }

end Step

end Timetable
