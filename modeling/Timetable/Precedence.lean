import Timetable.Program

/-!
# Precedence between operations

An operation has to wait for the previous operation on each of its resources and for the
operations it depends on. These are its immediate predecessors; whatever else has to come before
it comes before one of them.

## Main definitions

* `Program.lastUser` — the last operation before a given one that uses a resource.
* `Precedence` — the immediate predecessors and successors of every operation.
* `Program.precedence` — the precedence of a program.
-/

set_option autoImplicit false

namespace Timetable

/-- The last operation before number `bound` that uses a resource. -/
def Program.lastUser (program : Program) (resource : Resource) : (bound : OpId) → Option OpId
  | 0 => none
  | id + 1 => if program.uses id resource then some id else program.lastUser resource id

/-- The operations that some of the resources, named in this order by operation `id`, have to be
handed over by. A resource that is named again is handed over by the operation itself. -/
def Program.handovers (program : Program) (id : OpId) :
    (seen resources : List Resource) → List OpId
  | _, [] => []
  | seen, resource :: resources =>
    let user := if seen.contains resource then some id else program.lastUser resource id
    user.toList ++ program.handovers id (resource :: seen) resources

/-- The immediate predecessors of an operation through its resources, each of them once. -/
def Program.resourcePreds (program : Program) (id : OpId) : List OpId :=
  match program.operation? id with
  | some operation => (program.handovers id [] operation.resources).eraseDups
  | none => []

/-- The immediate predecessors and successors of every operation. -/
structure Precedence where
  predLists : Array (List OpId)
  succLists : Array (List OpId)
  deriving DecidableEq, Repr

namespace Precedence

/-- The number of operations. -/
def size (precedence : Precedence) : Nat := precedence.predLists.size

/-- The immediate predecessors of an operation. -/
def preds (precedence : Precedence) (id : OpId) : List OpId :=
  precedence.predLists[id]?.getD []

/-- The immediate successors of an operation. -/
def succs (precedence : Precedence) (id : OpId) : List OpId :=
  precedence.succLists[id]?.getD []

end Precedence

/-- The precedence of a program. Both lists of an operation name first those that share a
resource with it, and then the dependencies in the order of their declaration. -/
def Program.precedence (program : Program) : Precedence :=
  let size := program.size
  let byResource := Array.ofFn fun id : Fin size => program.resourcePreds id
  { predLists := Array.ofFn fun id : Fin size =>
      (byResource[id.val]?.getD [] ++
        (program.dependencies.filter (·.2 = id.val)).map Prod.fst).eraseDups
    succLists := Array.ofFn fun id : Fin size =>
      ((List.range size).filter (fun after => (byResource[after]?.getD []).contains id.val) ++
        (program.dependencies.filter (·.1 = id.val)).map Prod.snd).eraseDups }

end Timetable
