import Timetable.Schedule
import Timetable.Scheduling.Settings
import Timetable.Text.Lines

/-!
# Notes

While it works a run takes notes of what it does. Every note has a level, and a caller sees those
up to the level asked for.

## Main definitions

* `Note` — what can be noted; `Note.level` and `Note.text`.
* `Note.visible` — the lines that a caller sees.
* `Run` — the outcome of a scheduling run with its notes.
-/

set_option autoImplicit false

namespace Timetable

/-- Something worth noting in a run. -/
inductive Note where
  /-- A rounded duration. -/
  | warning (anomaly : Anomaly)
  /-- The order in which the forward pass visits the operations. -/
  | order (program : String) (ids : List OpId)
  /-- An operation placed by the forward pass, behind a number of gaps. -/
  | placed (entry : Entry) (id : OpId) (gaps : Nat)
  /-- The operations that are ready when a step opens. -/
  | frontier (step : Nat) (ids : List OpId)
  /-- An operation too long for the rest of a step. -/
  | refused (id : OpId) (name : String) (duration start length : Tick)
  /-- A delay cut at the end of a step. -/
  | cut (id : OpId) (resource : Resource) (taken left : Tick)
  /-- A timestep of the program that closes an empty step. -/
  | emptyStep (id : OpId) (boundary : Tick)
  /-- A step that was closed. -/
  | closed (step : Nat) (length : Tick) (dominant : OpId) (admitted : Nat) (boundary : Tick)
  /-- An entry checked before it is lowered to instructions. -/
  | sequenced (index : Nat) (name : String) (start : Tick)
  deriving DecidableEq, Repr

namespace Note

/-- The level from which on a note is shown. -/
def level : Note → Nat
  | warning .. => 0
  | placed .. => 1
  | emptyStep .. => 1
  | closed .. => 1
  | refused .. => 2
  | cut .. => 2
  | order .. => 3
  | frontier .. => 3
  | sequenced .. => 3

/-- The wording of a note. -/
def text : Note → String
  | warning anomaly => "warning: " ++ anomaly.message
  | order program ids => s!"[asap] '{program}' order: " ++ Text.listed ids
  | placed entry id gaps =>
    s!"[asap] {id} '{entry.operation.name}' on " ++ Text.listed entry.resources ++
      s!" at {entry.start} for {entry.duration} ({gaps} delays)"
  | frontier step ids => s!"[timestep] step {step} frontier: " ++ Text.listed ids
  | refused id name duration start length =>
    s!"[timestep] {id} '{name}' ({duration} ticks from {start}) does not fit in {length}"
  | cut id resource taken left =>
    s!"[timestep] split delay {id} on {resource}: {taken} placed, {left} left"
  | emptyStep id boundary => s!"[timestep] marker {id} closes an empty step at {boundary}"
  | closed step length dominant admitted boundary =>
    s!"[timestep] step {step} of {length} ticks (dominant {dominant}), {admitted} admitted, " ++
      s!"boundary {boundary}"
  | sequenced index name start => s!"[sequencer] {index} '{name}' at {start}"

/-- The lines that a caller sees who asked for a level. A note takes several lines if a name in
it holds line feeds. -/
def visible (verbosity : Nat) (notes : Array Note) : List String :=
  (notes.toList.filter fun note => note.level ≤ verbosity).flatMap fun note =>
    Text.lines note.text

end Note

/-- The outcome of a scheduling run. -/
structure Run where
  /-- The schedule, or why there is none. -/
  result : Except SchedulingError Schedule
  /-- The program, with the durations that were written into it. -/
  program : Program
  /-- What was noted. -/
  notes : Array Note := #[]

/-- A run that ended with an error before it changed anything. -/
def Run.failed (program : Program) (error : SchedulingError) : Run :=
  { result := .error error, program }

end Timetable
