import Timetable.Precedence.Residual
import Timetable.Program.Resolution
import Timetable.Scheduling.Note
import Timetable.Timeline

/-!
# The forward pass

The forward pass places every operation as soon as its resources and its predecessors allow. It
visits the operations in topological order. Resources of an operation that are free before it
starts are covered with idle time, and at the end all resources are covered up to the latest
finish, so the schedule has no gaps.

## Main definitions

* `Program.ordered` — the precedence of a program that can be scheduled, with an order.
* `Front` — how far the pass has come; `Front.place` — placing one operation.
* `Program.forward` — the pass.
-/

set_option autoImplicit false

namespace Timetable

/-- The precedence of a program, and an order of its operations that respects it. The program has
to be physical and free of circular dependencies. -/
def Program.ordered (program : Program) : Except SchedulingError (Precedence × List OpId) :=
  match program.violation?, program.undeclared? with
  | some violation, _ => .error (.notPhysical violation)
  | none, some resource => .error (.undeclaredResource resource)
  | none, none =>
    match program.precedence.order with
    | .error stuck => .error (.circularDependency stuck)
    | .ok order => .ok (program.precedence, order)

/-- How far the forward pass has come. -/
structure Front where
  /-- When each resource is free. -/
  timeline : Timeline
  /-- When each operation finishes; zero if it is not placed yet. -/
  finish : Array Tick
  /-- The entries so far. -/
  entries : List Entry := []
  /-- The notes so far. -/
  notes : Array Note := #[]
  deriving Repr

namespace Front

/-- Nothing placed yet. -/
def start (program : Program) : Front where
  timeline := .start program.numResources 0
  finish := Array.replicate program.size 0

/-- When an operation finishes. -/
def finishOf (front : Front) (id : OpId) : Tick := front.finish[id]?.getD 0

/-- Places an operation as soon as its resources and its predecessors allow. -/
def place (precedence : Precedence) (front : Front) (job : Job) : Front :=
  let resources := job.operation.resources
  let ready := latest ((precedence.preds job.id).map front.finishOf)
  let start := max (front.timeline.earliest resources) ready
  let gaps := front.timeline.gaps resources start
  let entry : Entry := ⟨job.operation, start, job.ticks, some job.id⟩
  { timeline := (front.timeline.pad resources start).occupy resources start job.ticks
    finish := front.finish.setIfInBounds job.id (start + job.ticks)
    entries := front.entries ++ gaps ++ [entry]
    notes := front.notes.push (.placed entry job.id gaps.length) }

/-- The entries, followed by the idle time that covers all resources up to the latest finish. -/
def closed (front : Front) : List Entry :=
  front.entries ++ front.timeline.gaps front.timeline.resources front.timeline.horizon

end Front

/-- Schedules a program as soon as possible. -/
def Program.forward (program : Program) (table : DurationTable) : Run :=
  match program.ordered with
  | .error e => .failed program e
  | .ok (precedence, order) =>
    let resolution := program.resolve table order
    let front := resolution.jobs.foldl (Front.place precedence) (Front.start program)
    { program := resolution.program
      notes := #[.order program.name order] ++ front.notes
      result :=
        match resolution.failure with
        | some e => .error (.duration e)
        | none => .ok (.sealedFor program front.closed resolution.anomalies) }

end Timetable
