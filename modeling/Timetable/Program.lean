import Timetable.Duration.Table
import Timetable.Layout

/-!
# Programs

A program is a list of operations over declared resources. Operations that use a common resource
keep their order, and dependencies order further pairs of operations. Every operation has a slot
for its duration, which is written at most once: whoever finds out the duration first stores it
there, with the anomaly of its rounding, and everyone after that reads it.

## Main definitions

* `Task`, `Program` — operations with their slots, and their dependencies.
* `Program.push`, `Program.depend` — building a program.
* `Program.violation?` — why a program is not over concrete, disjoint resources.
* `Program.fill`, `Program.record?` — writing a slot.
-/

set_option autoImplicit false

namespace Timetable

/-- An operation of a program, with the slot for its duration. -/
structure Task where
  operation : Operation
  /-- The duration, once it is known. -/
  resolved : Option Resolved := none
  deriving DecidableEq, Repr

/-- A task whose duration is known from the start. -/
def Task.known (operation : Operation) (ticks : Tick) : Task :=
  ⟨operation, some ⟨ticks, none⟩⟩

/-- Writes the slot of a task. The first write wins. -/
def Task.fill (task : Task) (resolved : Resolved) : Task :=
  { task with resolved := task.resolved.or (some resolved) }

/-- Operations over declared resources, with the dependencies between them. -/
structure Program where
  name : String
  layout : Layout
  /-- The operations in program order. -/
  tasks : Array Task := #[]
  /-- Pairs of operations of which the first has to finish before the second starts. -/
  dependencies : List (OpId × OpId) := []
  deriving DecidableEq, Repr

/-- Why an operation or a dependency cannot be added to a program. -/
inductive ProgramError where
  | unknownResource (resource : Resource) (declared : Nat)
  | noResources (name : String)
  | unknownOperation (id : OpId)
  | selfDependency (id : OpId)
  deriving DecidableEq, Repr

/-- The wording of an error. -/
def ProgramError.message : ProgramError → String
  | unknownResource resource declared =>
    s!"Resource {resource} is not declared ({declared} resources available)"
  | noResources name => s!"Operation '{name}' touches no resources"
  | unknownOperation id => s!"Operation {id} does not exist"
  | selfDependency id => s!"Operation {id} cannot depend on itself"

/-- Why a program is not over concrete, disjoint resources. -/
inductive Violation where
  /-- The layout does not have exactly one register. -/
  | registers (program : String) (count : Nat)
  /-- An operation names a resource twice. -/
  | repeatedResource (id : OpId) (operation : Operation)
  deriving DecidableEq, Repr

/-- The wording of a violation. -/
def Violation.message : Violation → String
  | registers program count =>
    s!"program '{program}' declares {count} resource registers, expected exactly one"
  | repeatedResource id operation =>
    s!"operation {id} ('{operation.name}') names a resource twice: " ++
      Text.listed operation.resources

namespace Program

/-- The number of operations. -/
def size (program : Program) : Nat := program.tasks.size

/-- The number of declared resources. -/
def numResources (program : Program) : Nat := program.layout.numResources

/-- The numbers of the operations, in program order. -/
def ids (program : Program) : List OpId := List.range program.size

/-- The operations, in program order. -/
def operations (program : Program) : List Operation :=
  program.tasks.toList.map Task.operation

/-- The operation with a number. -/
def operation? (program : Program) (id : OpId) : Option Operation :=
  program.tasks[id]?.map Task.operation

/-- The duration of an operation, once it is known. -/
def resolved? (program : Program) (id : OpId) : Option Resolved :=
  program.tasks[id]?.bind Task.resolved

/-- Whether an operation uses a resource. -/
def uses (program : Program) (id : OpId) (resource : Resource) : Bool :=
  (program.operation? id).any fun operation => operation.resources.contains resource

/-- The program with an operation at its end, whose number is the former size. It has to use at
least one resource, and declared ones only. -/
def push (program : Program) (operation : Operation) : Except ProgramError Program :=
  if operation.resources.isEmpty then .error (.noResources operation.name)
  else
    match operation.resources.find? (program.numResources ≤ ·) with
    | some resource => .error (.unknownResource resource program.numResources)
    | none => .ok { program with tasks := program.tasks.push { operation } }

/-- The program with a dependency of `after` on `before`. One that is already there is not added
again. -/
def depend (program : Program) (before after : OpId) : Except ProgramError Program :=
  if program.size ≤ before then .error (.unknownOperation before)
  else if program.size ≤ after then .error (.unknownOperation after)
  else if before = after then .error (.selfDependency before)
  else if program.dependencies.contains (before, after) then .ok program
  else .ok { program with dependencies := program.dependencies ++ [(before, after)] }

/-- The first reason why a program is not over concrete, disjoint resources. -/
def violation? (program : Program) : Option Violation :=
  if !program.layout.isPhysical then
    some (.registers program.name program.layout.registers.length)
  else
    program.ids.findSome? fun id =>
      match program.operation? id with
      | some operation =>
        if operation.hasRepeatedResource then some (.repeatedResource id operation) else none
      | none => none

/-- The first resource in use that is not declared. -/
def undeclared? (program : Program) : Option Resource :=
  (program.operations.flatMap Operation.resources).find? (program.numResources ≤ ·)

/-- Writes the slot of an operation. The first write wins. -/
def fill (program : Program) (id : OpId) (resolved : Resolved) : Program :=
  { program with tasks := program.tasks.modify id fun task => task.fill resolved }

/-- Writes a number of ticks into the slot of an operation, and gives what the slot then holds;
there is no such slot if the operation does not exist. -/
def record? (program : Program) (id : OpId) (ticks : Tick) : Option (Tick × Program) :=
  program.tasks[id]?.map fun task =>
    ((task.resolved.map Resolved.ticks).getD ticks, program.fill id ⟨ticks, none⟩)

end Program

end Timetable
