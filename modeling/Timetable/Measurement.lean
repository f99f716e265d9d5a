import Timetable.Schedule
import Timetable.Sorting

/-!
# Alignment of measurements

Some targets can only measure fixed groups of resources together. Where a schedule measures a part
of such a group, the rest of the group is measured as well, over the same interval: the end of its
idle time becomes a measurement.

## Main definitions

* `Measured` — the resources that are measured over one interval.
* `Measured.obstructed`, `Measured.idleAt` — what stands in the way of measuring one more
  resource, and where its idle time is.
* `Schedule.align` — the schedule in which whole groups are measured.
-/

set_option autoImplicit false

namespace Timetable

/-- The name of the operation that measures. -/
def measureName : String := "measure"

/-- The resources measured over one interval. -/
structure Measured where
  start : Tick
  stop : Tick
  /-- The resources, in increasing order. -/
  resources : List Resource
  deriving DecidableEq, Repr

/-- The order of measurements: by start, then by end. -/
def Measured.notAfter (a b : Measured) : Bool :=
  a.start < b.start || a.start = b.start && a.stop ≤ b.stop

/-- What stands in the way of completing a group. -/
inductive Obstacle where
  /-- No group holds all of the measured resources. -/
  | uncovered
  /-- A further resource is used during the measurement. -/
  | busy (resource : Resource) (name : String)
  /-- A further resource is idle, but not from the start of the measurement exactly to its
  end. -/
  | misfit (start stop : Tick) (resource : Resource)
  deriving DecidableEq, Repr

/-- The wording of an obstacle. -/
def Obstacle.message : Obstacle → String
  | uncovered => "no measurement group covers it"
  | busy resource name => s!"resource {resource} is busy with '{name}'"
  | misfit start stop resource =>
    s!"idle period [{start}, {stop}) on resource {resource} does not end with the measurement"

/-- A measurement that cannot be completed to a group. -/
structure MeasureError where
  measured : Measured
  obstacle : Obstacle
  deriving DecidableEq, Repr

/-- The wording of an error. -/
def MeasureError.message (error : MeasureError) : String :=
  "Cannot align measurement of " ++ Text.listed error.measured.resources ++
    s!" over [{error.measured.start}, {error.measured.stop}): " ++ error.obstacle.message

/-- Some resources in increasing order. -/
def increasing (resources : List Resource) : List Resource :=
  sortBy (fun a b => a ≤ b) resources

/-- Adds an entry to the measurement over its interval. -/
def addMeasured (entry : Entry) : List Measured → List Measured
  | [] => [⟨entry.start, entry.stop, entry.resources⟩]
  | measured :: others =>
    if measured.start = entry.start ∧ measured.stop = entry.stop then
      { measured with resources := measured.resources ++ entry.resources } :: others
    else measured :: addMeasured entry others

/-- What some entries measure, by increasing interval. -/
def measuredBy (entries : List Entry) : List Measured :=
  let measurements := entries.filter fun entry => entry.operation.name = measureName
  let collected := measurements.foldl (fun all entry => addMeasured entry all) []
  (sortBy Measured.notAfter collected).map fun measured =>
    { measured with resources := increasing measured.resources }

namespace Measured

/-- Whether an entry keeps a resource during a part of the measurement. -/
def concerns (measured : Measured) (resource : Resource) (entry : Entry) : Bool :=
  !entry.operation.isMarker && entry.uses resource &&
    (entry.start < measured.stop && measured.start < entry.stop)

/-- What keeps an entry from giving up its end to the measurement of a resource. -/
def obstructed (measured : Measured) (resource : Resource) (entry : Entry) : Option Obstacle :=
  if !entry.operation.isDelay then some (.busy resource entry.operation.name)
  else if entry.stop ≠ measured.stop ∨ measured.start < entry.start then
    some (.misfit entry.start entry.stop resource)
  else none

/-- The positions of the entries whose ends become measurements of a resource, counted from
`index`. -/
def idleAt (measured : Measured) (resource : Resource) :
    (index : Nat) → List Entry → Except Obstacle (List Nat)
  | _, [] => .ok []
  | index, entry :: entries =>
    if measured.concerns resource entry then
      match measured.obstructed resource entry with
      | some obstacle => .error obstacle
      | none => (measured.idleAt resource (index + 1) entries).map (index :: ·)
    else measured.idleAt resource (index + 1) entries

/-- The positions of the entries whose ends become measurements of some resources, resource by
resource. -/
def idleAtAll (measured : Measured) (entries : List Entry) :
    List Resource → Except Obstacle (List Nat)
  | [] => .ok []
  | resource :: resources => do
    let first ← measured.idleAt resource 0 entries
    let others ← measured.idleAtAll entries resources
    .ok (first ++ others)

/-- What becomes of an entry that gives up its end: idle time up to the measurement, if there is
any, and a measurement. -/
def split (measured : Measured) (entry : Entry) : List Entry :=
  match entry.resources with
  | [] => [entry]
  | resource :: _ =>
    let rest := measured.start - entry.start
    (if entry.start < measured.start then [.idle resource entry.start rest entry.source] else []) ++
      [⟨.gate measureName [resource], measured.start, measured.stop - measured.start, none⟩]

/-- The entries after the one at a position gave up its end. -/
def splitAt (measured : Measured) (entries : List Entry) (index : Nat) : List Entry :=
  entries.take index ++ (entries[index]?.toList.flatMap measured.split) ++ entries.drop (index + 1)

/-- The entries after those at some positions gave up their ends, last position first, so that a
split does not move the positions still to come. -/
def splitAtAll (measured : Measured) (entries : List Entry) (positions : List Nat) : List Entry :=
  (sortBy (fun a b => b ≤ a) positions).foldl measured.splitAt entries

/-- Completes a measurement to the first group that holds it, unless it is a group already. -/
def complete (groups : List (List Resource)) (entries : List Entry) (measured : Measured) :
    Except MeasureError (List Entry) :=
  if groups.contains measured.resources then .ok entries
  else
    match groups.find? fun group => measured.resources.all group.contains with
    | none => .error ⟨measured, .uncovered⟩
    | some group =>
      let missing := group.filter fun resource => !measured.resources.contains resource
      match measured.idleAtAll entries missing with
      | .error obstacle => .error ⟨measured, obstacle⟩
      | .ok positions => .ok (measured.splitAtAll entries positions)

end Measured

/-- The schedule in which every measurement covers a whole group. -/
def Schedule.align (schedule : Schedule) (groups : List (List Resource)) :
    Except MeasureError Schedule :=
  match measuredBy schedule.entries with
  | [] => .ok schedule
  | measurements =>
    (measurements.foldlM (Measured.complete (groups.map increasing)) schedule.entries).map
      fun entries => (schedule.withEntries entries).sealed

end Timetable
