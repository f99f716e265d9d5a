import Timetable.Decimal.Shortest
import Timetable.Operation

/-!
# Loose records of operations

Callers that do not build operations themselves describe each one by a name, its resources, and
for a delay a length with its unit. The names `barrier` and `delay` are understood; any other name
is a gate.

## Main definitions

* `Operation.Record` — a loose description of an operation.
* `Operation.Record.toOperation` — the operation it describes.
* `Operation.RecordError` — why a description makes no sense.
-/

set_option autoImplicit false

namespace Timetable.Operation

/-- Why a description of an operation makes no sense. -/
inductive RecordError where
  | invalidUnit (text : String)
  | delayArity (arity : Nat)
  | missingDelayDuration
  | fractionalTicks (value : Float)
  deriving DecidableEq, Repr

/-- The wording of an error. -/
def RecordError.message : RecordError → String
  | invalidUnit text => s!"Invalid time unit: {text}"
  | delayArity arity => s!"Delay must act on exactly one resource, got {arity}"
  | missingDelayDuration => "Delay requires a duration"
  | fractionalTicks value =>
    "Duration " ++ Decimal.positional value ++ " in dt must be a non-negative integer"

/-- The unit that a text names. -/
def parseUnit (text : String) : Except RecordError TimeUnit :=
  match TimeUnit.ofSymbol? text with
  | some unit => .ok unit
  | none => .error (.invalidUnit text)

/-- A loose description of an operation. -/
structure Record where
  /-- What the operation is called. -/
  name : String
  /-- The resources it uses. -/
  resources : List Resource
  /-- The length of a delay; other operations leave it unread. -/
  duration : Option Float
  /-- The unit of the length; ticks if absent. -/
  unit : Option String
  deriving DecidableEq, Repr

/-- The delay on `resource` that a record describes. A length in ticks has to be whole. -/
def Record.toDelay (record : Record) (resource : Resource) : Except RecordError Operation := do
  let some value := record.duration | .error .missingDelayDuration
  let unit ← (record.unit.map parseUnit).getD (.ok .dt)
  if unit = .dt ∧ (Binary.ofFloat value).wholeTicks? = none then .error (.fractionalTicks value)
  .ok (delayIn value unit resource)

/-- The operation that a record describes. -/
def Record.toOperation (record : Record) : Except RecordError Operation :=
  if record.name = "barrier" then .ok (.barrier record.resources)
  else if record.name = "delay" then
    match record.resources with
    | [resource] => record.toDelay resource
    | resources => .error (.delayArity resources.length)
  else .ok (.gate record.name record.resources)

end Timetable.Operation
