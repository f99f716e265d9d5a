import Timetable.Precedence

/-!
# The operations still to be done

While operations are completed one by one, the others wait: each for those of its predecessors
that are not completed yet. The frontier holds the operations that wait for nothing.

Completing the lowest operation of the frontier again and again visits the operations in an order
that respects their precedence. A program whose dependencies agree with program order comes back
unchanged. If operations are left over when the frontier is empty, some of them wait for each
other in a circle.

## Main definitions

* `Residual` — the operations not completed, with what each still waits for.
* `Residual.frontier` — the operations that can be completed next.
* `Residual.complete` — completing an operation of the frontier.
* `Residual.attempt` — trying to complete an operation.
* `Residual.visit` — completes the lowest frontier operation a number of times.
* `Precedence.order` — the order of all operations, or the lowest of those left over.
-/

set_option autoImplicit false

namespace Timetable

/-- The operations still to be done. -/
structure Residual where
  /-- The precedence between all operations. -/
  precedence : Precedence
  /-- For every operation, the number of its predecessors that are not completed. -/
  waiting : Array Nat
  /-- The operations that are not completed, in program order. -/
  pending : List OpId
  deriving DecidableEq, Repr

namespace Residual

/-- All operations, none of them completed. -/
def start (precedence : Precedence) : Residual where
  precedence := precedence
  waiting := (precedence.predLists.toList.map List.length).toArray
  pending := List.range precedence.size

/-- Whether an operation waits for nothing. -/
def isFree (residual : Residual) (id : OpId) : Bool := residual.waiting[id]? == some 0

/-- The operations that can be completed next, in program order. -/
def frontier (residual : Residual) : List OpId := residual.pending.filter residual.isFree

/-- Whether every operation is completed. -/
def isDone (residual : Residual) : Bool := residual.pending.isEmpty

/-- Completes an operation of the frontier: its successors wait for one operation less. Any other
operation leaves everything as it is. -/
def complete (residual : Residual) (id : OpId) : Residual :=
  if residual.frontier.contains id then
    { residual with
      pending := residual.pending.erase id
      waiting := (residual.precedence.succs id).foldl
        (fun waiting succ => waiting.modify succ (· - 1)) residual.waiting }
  else residual

/-- Tries to complete an operation. Tells whether it was in the frontier, and what is left then. -/
def attempt (residual : Residual) (id : OpId) : Bool × Residual :=
  (residual.frontier.contains id, residual.complete id)

end Residual

/-! ## A topological order -/

/-- Completes the lowest operation of the frontier up to a number of times. Gives the operations
completed and what is left. -/
def Residual.visit : (times : Nat) → Residual → List OpId × Residual
  | 0, residual => ([], residual)
  | times + 1, residual =>
    match residual.frontier with
    | [] => ([], residual)
    | id :: _ =>
      let (ids, rest) := visit times (residual.complete id)
      (id :: ids, rest)

/-- The operations in an order that respects precedence, lower numbers first wherever there is a
choice. If that is impossible, the lowest operation that stays behind. -/
def Precedence.order (precedence : Precedence) : Except OpId (List OpId) :=
  let (ids, rest) := (Residual.start precedence).visit precedence.size
  match rest.pending with
  | [] => .ok ids
  | stuck :: _ => .error stuck

end Timetable
