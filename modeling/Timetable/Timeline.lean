import Timetable.Schedule

/-!
# Timelines

A timeline remembers for every resource up to which tick it is covered. Gaps are only ever closed
by padding, which covers them with idle time. Ticks are relative to an origin, which is added when
idle time is written out.

## Main definitions

* `Timeline` — the next free tick of every resource.
* `Timeline.earliest` — when some resources are all free.
* `Timeline.pad`, `Timeline.gaps` — covering resources up to a tick, and the idle time it takes.
* `Timeline.occupy` — covering resources with an operation.

## Main results

* `Timeline.free_set` — only the resource that is set changes.
-/

set_option autoImplicit false

namespace Timetable

/-- The next free tick of every resource, measured from an origin. -/
structure Timeline where
  origin : Tick
  nextFree : Array Tick
  deriving DecidableEq, Repr

namespace Timeline

/-- The timeline of a number of resources, all of them free from the origin on. -/
def start (numResources : Nat) (origin : Tick) : Timeline :=
  ⟨origin, Array.replicate numResources 0⟩

/-- The next free tick of a resource. -/
def free (timeline : Timeline) (resource : Resource) : Tick :=
  timeline.nextFree[resource]?.getD 0

/-- Whether all of some resources have a place on the timeline. -/
def covers (timeline : Timeline) (resources : List Resource) : Bool :=
  resources.all (· < timeline.nextFree.size)

/-- The first tick at which some resources are all free. -/
def earliest (timeline : Timeline) (resources : List Resource) : Tick :=
  latest (resources.map timeline.free)

/-- The latest next free tick. -/
def horizon (timeline : Timeline) : Tick := latest timeline.nextFree.toList

/-- All resources of the timeline. -/
def resources (timeline : Timeline) : List Resource := List.range timeline.nextFree.size

/-- The timeline with another next free tick for one resource. -/
def set (timeline : Timeline) (resource : Resource) (tick : Tick) : Timeline :=
  { timeline with nextFree := timeline.nextFree.setIfInBounds resource tick }

/-- Covers resources up to a tick. -/
def pad (timeline : Timeline) (resources : List Resource) (tick : Tick) : Timeline :=
  resources.foldl
    (fun timeline resource => timeline.set resource (max (timeline.free resource) tick)) timeline

/-- The idle time that covers resources up to a tick, in the order of the resources. -/
def gaps (timeline : Timeline) (resources : List Resource) (tick : Tick) : List Entry :=
  match resources with
  | [] => []
  | resource :: resources =>
    let free := timeline.free resource
    let others := (timeline.pad [resource] tick).gaps resources tick
    if free < tick then .idle resource (timeline.origin + free) (tick - free) :: others else others

/-- Covers resources with an operation of the given duration. -/
def occupy (timeline : Timeline) (resources : List Resource) (start duration : Tick) : Timeline :=
  resources.foldl (fun timeline resource => timeline.set resource (start + duration)) timeline

/-- Setting a resource leaves the number of resources alone. -/
@[simp]
theorem size_set (timeline : Timeline) (resource : Resource) (tick : Tick) :
    (timeline.set resource tick).nextFree.size = timeline.nextFree.size := by
  simp [set]

/-- Only the resource that is set changes. -/
theorem free_set (timeline : Timeline) (resource other : Resource) (tick : Tick)
    (declared : resource < timeline.nextFree.size) :
    (timeline.set resource tick).free other =
      if resource = other then tick else timeline.free other := by
  by_cases same : resource = other
  · subst same
    simp [set, free, declared]
  · simp [set, free, same]

end Timeline

end Timetable
