import Timetable.Program

/-!
# Resolving durations

Before operations are placed their durations have to be known. They are looked up one after the
other, and every duration found is stored in the program, so that it stays the same whatever table
comes later. An operation whose duration was rounded reports the anomaly each time it is
resolved.

## Main definitions

* `Job` — an operation of known duration.
* `Task.resolve` — the duration of a task.
* `Program.resolve` — the durations of a list of operations, up to the first that has none.
-/

set_option autoImplicit false

namespace Timetable

/-- An operation of known duration. -/
structure Job where
  id : OpId
  operation : Operation
  ticks : Tick
  deriving DecidableEq, Repr

/-- What came of resolving operations one after the other. -/
structure Resolution where
  /-- The program with the slots that were written. -/
  program : Program
  /-- The operations resolved, in the order of the visit. -/
  jobs : List Job := []
  /-- Their anomalies, in the same order. -/
  anomalies : List Anomaly := []
  /-- Why the visit ended early, if it did. -/
  failure : Option DurationError := none

/-- The duration of a task: the one in its slot, else the one in the table. -/
def Task.resolve (task : Task) (table : DurationTable) : Except DurationError Resolved :=
  match task.resolved with
  | some resolved => .ok resolved
  | none => table.resolve task.operation

/-- Resolves operations in the given order, and stops at the first one without a duration.
Numbers of operations that do not exist are passed over. -/
def Program.resolve (program : Program) (table : DurationTable) : List OpId → Resolution
  | [] => { program }
  | id :: ids =>
    match program.tasks[id]? with
    | none => program.resolve table ids
    | some task =>
      match task.resolve table with
      | .error e => { program, failure := some e }
      | .ok resolved =>
        let rest := (program.fill id resolved).resolve table ids
        { rest with
          jobs := ⟨id, task.operation, resolved.ticks⟩ :: rest.jobs
          anomalies := resolved.anomaly.toList ++ rest.anomalies }

end Timetable
