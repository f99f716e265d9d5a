import Timetable.Measurement
import Timetable.Operation.Record
import Timetable.Scheduling.Policy

/-!
# Requests

A request describes a whole scheduling task in loose records: the operations, their durations, the
settings, and the groups in which the target measures.

## Main definitions

* `Request` — a scheduling task.
* `RequestError` — why it fails.
* `Request.schedule` — its schedule.
-/

set_option autoImplicit false

namespace Timetable

/-- A scheduling task. -/
structure Request where
  /-- The name of the program. -/
  name : String
  /-- The number of resources. -/
  numResources : Nat
  /-- The operations, in program order. -/
  operations : List Operation.Record
  /-- Durations of names on lists of resources. -/
  durations : List (String × List Resource × Tick)
  settings : Settings
  /-- The length of a tick in seconds, needed for physical durations. -/
  dt : Option Float
  /-- The groups in which the target measures, if measurements are to be aligned. -/
  measureGroups : Option (List (List Resource))
  deriving Repr

/-- Why a scheduling task fails. -/
inductive RequestError where
  | record (error : Operation.RecordError)
  | program (error : ProgramError)
  | duration (error : DurationError)
  | scheduling (error : SchedulingError)
  | measure (error : MeasureError)
  deriving DecidableEq, Repr

/-- The wording of an error. -/
def RequestError.message : RequestError → String
  | record error => error.message
  | program error => error.message
  | duration error => error.message
  | scheduling error => error.message
  | measure error => error.message

namespace Request

/-- The duration table of a task. -/
def table (request : Request) : Except DurationError DurationTable :=
  let durations := DurationTable.ofList request.durations
  match request.dt with
  | none => .ok durations
  | some dt => do durations.update (← DurationTable.withQuantum dt)

/-- A program with the operation of a record at its end. -/
def pushRecord (program : Program) (record : Operation.Record) : Except RequestError Program :=
  match record.toOperation with
  | .error e => .error (.record e)
  | .ok operation => (program.push operation).mapError .program

/-- The program of a task. -/
def program (request : Request) : Except RequestError Program :=
  request.operations.foldlM pushRecord
    { name := request.name, layout := .physical request.numResources }

/-- Aligns the measurements of a schedule if the task asks for it. -/
def aligned (request : Request) (schedule : Schedule) : Except RequestError Schedule :=
  match request.measureGroups with
  | none => .ok schedule
  | some groups => (schedule.align groups).mapError .measure

/-- The schedule of a task, with the notes of the run. The table is made first, then the program,
then the schedule. -/
def schedule (request : Request) : Array Note × Except RequestError Schedule :=
  match request.table with
  | .error e => (#[], .error (.duration e))
  | .ok table =>
    match request.program with
    | .error e => (#[], .error e)
    | .ok program =>
      let run := program.schedule table request.settings
      match run.result with
      | .error e => (run.notes, .error (.scheduling e))
      | .ok schedule => (run.notes, request.aligned schedule)

end Request

end Timetable
