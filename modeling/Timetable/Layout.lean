import Timetable.Tick

/-!
# Resource layouts

Resources are declared in named registers and numbered through in the order of declaration. A
layout with exactly one register is physical: its resources are concrete and disjoint.

## Main definitions

* `Register`, `Layout` — declarations of resources.
* `Layout.label` — the name of a resource, such as `q[3]`.
-/

set_option autoImplicit false

namespace Timetable

/-- A named group of resources. -/
structure Register where
  name : String
  size : Nat
  deriving DecidableEq, Repr

/-- The declared resources. -/
structure Layout where
  /-- The registers in the order of their declaration. -/
  registers : List Register := []
  deriving DecidableEq, Repr

namespace Layout

/-- A single register named `q`. -/
def physical (size : Nat) : Layout := ⟨[⟨"q", size⟩]⟩

/-- The number of declared resources. -/
def numResources (layout : Layout) : Nat :=
  layout.registers.foldr (fun r after => r.size + after) 0

/-- The declared resources, in order. -/
def resources (layout : Layout) : List Resource := List.range layout.numResources

/-- Whether there is exactly one register. -/
def isPhysical (layout : Layout) : Bool := layout.registers.length = 1

/-- The first resource of every register, and the first one after it. -/
def ranges (layout : Layout) : List (Resource × Resource) :=
  (List.range layout.registers.length).map fun i =>
    (numResources ⟨layout.registers.take i⟩, numResources ⟨layout.registers.take (i + 1)⟩)

/-- The name of the resource at an offset into the registers, if they reach that far. -/
def labelIn : List Register → Nat → Option String
  | [], _ => none
  | register :: registers, offset =>
    if offset < register.size then some s!"{register.name}[{offset}]"
    else labelIn registers (offset - register.size)

/-- The name of a resource; one that is not declared is shown with a question mark. -/
def label (layout : Layout) (resource : Resource) : String :=
  (labelIn layout.registers resource).getD s!"?[{resource}]"

end Layout

end Timetable
