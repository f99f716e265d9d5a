import Timetable.Binary
import Timetable.TimeUnit

/-!
# Operations

An operation is a timed action on some resources. A gate is a named action whose duration is
looked up; a delay idles on one resource and carries its own length; a barrier holds its
resources together and takes no time; a timestep marks the end of a span that all resources went
through in lock step.

## Main definitions

* `Span` — the requested length of a delay.
* `Operation` — the four kinds of operations, with `resources`, `name`, `isDelay`, `isTimestep`,
  `isMarker`, and `hasRepeatedResource`.
* `Operation.delayIn` — a delay whose length is given in a unit.
-/

set_option autoImplicit false

namespace Timetable

/-- The requested length of a delay: a number of ticks, or a physical length that is converted
with the time quantum of a duration table. -/
inductive Span where
  | ticks (length : Tick)
  | physical (value : Float) (unit : TimeUnit)
  deriving DecidableEq, Repr

/-- A timed action on some resources. -/
inductive Operation where
  /-- A named action. -/
  | gate (name : String) (resources : List Resource)
  /-- Idle time on one resource. -/
  | delay (span : Span) (resource : Resource)
  /-- A point in time that its resources share. -/
  | barrier (resources : List Resource)
  /-- The boundary that ends a span of lock-step time. -/
  | timestep (length : Tick) (resources : List Resource)
  deriving DecidableEq, Repr

namespace Operation

/-- A delay of a number of ticks. -/
def idle (length : Tick) (resource : Resource) : Operation :=
  .delay (.ticks length) resource

/-- A delay whose length is given in a unit. A whole number of ticks is stored as such. -/
def delayIn (value : Float) (unit : TimeUnit) (resource : Resource) : Operation :=
  match unit, (Binary.ofFloat value).wholeTicks? with
  | .dt, some length => .delay (.ticks length) resource
  | _, _ => .delay (.physical value unit) resource

/-- The resources an operation uses, in the order it names them. -/
def resources : Operation → List Resource
  | gate _ resources => resources
  | delay _ resource => [resource]
  | barrier resources => resources
  | timestep _ resources => resources

/-- The name under which durations and implementations are looked up. -/
def name : Operation → String
  | gate name _ => name
  | delay _ _ => "delay"
  | barrier _ => "barrier"
  | timestep _ _ => "timestep"

/-- The number of resources an operation names. -/
def arity (op : Operation) : Nat := op.resources.length

/-- Whether an operation is a delay. -/
def isDelay : Operation → Bool
  | delay _ _ => true
  | _ => false

/-- The length that a timestep closes; other operations close none. -/
def stepLength? : Operation → Option Tick
  | timestep length _ => some length
  | _ => none

/-- Whether an operation is a timestep. -/
def isTimestep (op : Operation) : Bool := op.stepLength?.isSome

/-- Whether an operation only marks a point in time: barriers and timesteps need no
implementation. -/
def isMarker : Operation → Bool
  | barrier _ => true
  | timestep _ _ => true
  | _ => false

/-- Whether an operation names some resource twice. -/
def hasRepeatedResource (op : Operation) : Bool := !decide op.resources.Nodup

/-- Idle time keeps a single resource. -/
@[simp]
theorem resources_idle (length : Tick) (resource : Resource) :
    (idle length resource).resources = [resource] := rfl

/-- Idle time is a delay. -/
@[simp]
theorem isDelay_idle (length : Tick) (resource : Resource) :
    (idle length resource).isDelay = true := rfl

/-- A delay has a span, and one resource. -/
theorem exists_of_isDelay {op : Operation} (delay : op.isDelay = true) :
    ∃ span resource, op = .delay span resource := by
  cases op with
  | delay span resource => exact ⟨span, resource, rfl⟩
  | gate | barrier | timestep => cases delay

end Operation

end Timetable
