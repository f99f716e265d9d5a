import Timetable.Scheduling.Settings

/-!
# Dominance

A timestep is as long as its dominant operation. Any other operation dominates every delay, and
among those the longest one is dominant. Among delays the rule decides: the shortest or the
longest. Ties go to the earliest operation.

## Main definitions

* `DominanceKey` — what decides about dominance; `DominanceKey.compare` — the order.
* `DominanceKey.least?` — the key that comes first.
-/

set_option autoImplicit false

namespace Timetable

/-- What decides whether an operation is dominant. -/
inductive DominanceKey where
  | operation (duration : Tick) (id : OpId)
  | delay (duration : Tick) (id : OpId) (rule : DelayRule)
  deriving DecidableEq, Repr

namespace DominanceKey

/-- The key of an operation. -/
def of (id : OpId) (duration : Tick) (isDelay : Bool) (rule : DelayRule) : DominanceKey :=
  if isDelay then .delay duration id rule else .operation duration id

/-- The operation of a key. -/
def id : DominanceKey → OpId
  | operation _ id => id
  | delay _ id _ => id

/-- The duration of a key. -/
def duration : DominanceKey → Tick
  | operation duration _ => duration
  | delay duration _ _ => duration

/-- Whether a key belongs to a delay. -/
def isDelay : DominanceKey → Bool
  | operation .. => false
  | delay .. => true

/-- The order of keys: what dominates comes first. Two delays are compared by the rule of the
first one. -/
def compare : DominanceKey → DominanceKey → Ordering
  | operation d i, operation e j => (Ord.compare e d).then (Ord.compare i j)
  | operation .., delay .. => .lt
  | delay .., operation .. => .gt
  | delay d i .shortest, delay e j _ => (Ord.compare d e).then (Ord.compare i j)
  | delay d i .longest, delay e j _ => (Ord.compare e d).then (Ord.compare i j)

/-- The first of several keys in the order; of keys that tie, the earliest in the list. -/
def least? : List DominanceKey → Option DominanceKey
  | [] => none
  | key :: keys =>
    some (keys.foldl (fun best other => if best.compare other = .gt then other else best) key)

/-- Puts a key into a list whose last keys come first: behind every key that does not come after
it. -/
def insertLast (key : DominanceKey) : List DominanceKey → List DominanceKey
  | [] => [key]
  | last :: keys =>
    if key.compare last = .lt then last :: insertLast key keys else key :: last :: keys

/-- The keys in order; keys that tie keep their order. -/
def sort (keys : List DominanceKey) : List DominanceKey :=
  (keys.foldl (fun sorted key => insertLast key sorted) []).reverse

end DominanceKey

end Timetable
