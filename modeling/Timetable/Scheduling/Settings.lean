import Timetable.Text.Printable
import Timetable.Program

/-!
# Settings of a scheduling run

Callers choose a policy and a rule by name, and say how much the run should report.

## Main definitions

* `Method` — the four policies; `DelayRule` — how long a step is when only delays are ready.
* `Settings` — the choices as callers write them.
* `SchedulingError` — why a run fails.
-/

set_option autoImplicit false

namespace Timetable

/-- The policies. -/
inductive Method where
  /-- Every operation as soon as possible. -/
  | asap
  /-- Every operation as late as possible. -/
  | alap
  /-- In lock step, as soon as possible. -/
  | asapTimestep
  /-- In lock step, as late as possible. -/
  | alapTimestep
  deriving DecidableEq, Repr

/-- How long a step is when only delays are ready. -/
inductive DelayRule where
  /-- As long as the shortest delay; longer ones are cut. -/
  | shortest
  /-- As long as the longest delay. -/
  | longest
  deriving DecidableEq, Repr

/-- Why a scheduling run fails. -/
inductive SchedulingError where
  /-- The program is not over concrete, disjoint resources. -/
  | notPhysical (violation : Violation)
  /-- An operation uses a resource that is not declared. -/
  | undeclaredResource (resource : Resource)
  /-- An entry was made from an operation that does not exist. -/
  | unknownOperation
  /-- Some operations wait for each other; the lowest one left over is named. -/
  | circularDependency (id : OpId)
  /-- An operation has no duration. -/
  | duration (error : DurationError)
  /-- Lock-step scheduling took more steps than it may take. -/
  | tooManySteps (program : String) (bound : Nat)
  /-- Operations are left, but none is ready. -/
  | emptyFrontier (program : String)
  /-- A step did not take the operation it was made for. -/
  | notAdmitted (id : OpId) (program : String)
  /-- There is no such policy. -/
  | unknownMethod (text : String)
  /-- There is no such rule. -/
  | unknownRule (text : String)
  deriving DecidableEq, Repr

namespace SchedulingError

/-- The wording of a broken invariant. -/
def invariant (reason : String) : String := "Internal scheduling invariant violated: " ++ reason

/-- The wording of an error. -/
def message : SchedulingError → String
  | notPhysical violation => "Program is not physical: " ++ violation.message
  | undeclaredResource resource => s!"Resource {resource} is not declared"
  | unknownOperation => "An entry was made from an operation that does not exist"
  | circularDependency id => s!"Circular dependency detected involving operation {id}"
  | duration error => error.message
  | tooManySteps program bound =>
    invariant s!"timestep grouping of '{program}' exceeded {bound} steps"
  | emptyFrontier program => invariant s!"empty frontier in '{program}' with operations left"
  | notAdmitted id program =>
    invariant s!"dominant operation {id} of '{program}' was not admitted"
  | unknownMethod text => "Unknown scheduling method: " ++ text
  | unknownRule text =>
    "Invalid configuration: delay_only_dominance must be 'shortest' or 'longest', got " ++
      Text.quoted text

end SchedulingError

/-- The policy of a name. -/
def Method.parse (text : String) : Except SchedulingError Method :=
  if text = "asap" then .ok .asap
  else if text = "alap" then .ok .alap
  else if text = "asap_timestep" then .ok .asapTimestep
  else if text = "alap_timestep" then .ok .alapTimestep
  else .error (.unknownMethod text)

/-- The rule of a name. -/
def DelayRule.parse (text : String) : Except SchedulingError DelayRule :=
  if text = "shortest" then .ok .shortest
  else if text = "longest" then .ok .longest
  else .error (.unknownRule text)

/-- The choices of a caller. -/
structure Settings where
  /-- The name of the policy. -/
  method : String := "asap"
  /-- The name of the rule for steps in which only delays are ready. -/
  rule : String := "shortest"
  /-- How much is reported: 0 nothing but warnings, 1 changes, 2 checks, 3 everything. -/
  verbosity : Nat := 0
  deriving DecidableEq, Repr

end Timetable
