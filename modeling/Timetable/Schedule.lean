import Timetable.Program

/-!
# Schedules

A schedule is a list of operations, each with a start and a duration. Its total duration is
cached by sealing it, and forgotten whenever its entries change.

## Main definitions

* `Entry` — an operation placed in time.
* `Schedule` — the entries with the cached duration and the anomalies.
* `Schedule.append`, `Schedule.sealed`, `Schedule.sealedFor` — building a schedule.
* `Schedule.intervals`, `Schedule.timesteps`, `Schedule.startOf` — reading it.
* `Schedule.toProgram` — the entries as a program of their own.
-/

set_option autoImplicit false

namespace Timetable

/-- An operation placed in time. -/
structure Entry where
  operation : Operation
  start : Tick
  /-- How long it keeps each of its resources; zero for the boundaries of timesteps. -/
  duration : Tick
  /-- The operation of the program it was made from; idle time that fills a gap and boundaries
  that the program does not name have none. -/
  source : Option OpId := none
  deriving DecidableEq, Repr

namespace Entry

/-- The tick at which an entry ends. -/
def stop (entry : Entry) : Tick := entry.start + entry.duration

/-- The resources of an entry. -/
def resources (entry : Entry) : List Resource := entry.operation.resources

/-- Whether an entry uses a resource. -/
def uses (entry : Entry) (resource : Resource) : Bool := entry.resources.contains resource

/-- Idle time on one resource. -/
def idle (resource : Resource) (start duration : Tick) (source : Option OpId := none) : Entry :=
  ⟨.idle duration resource, start, duration, source⟩

/-- The boundary at tick `stop` that closes a span of lock-step time. -/
def boundary (length : Tick) (resources : List Resource) (stop : Tick)
    (source : Option OpId := none) : Entry :=
  ⟨.timestep length resources, stop, 0, source⟩

end Entry

/-- Operations placed in time. -/
structure Schedule where
  name : String
  layout : Layout
  /-- The entries, in the order they were placed. -/
  entries : List Entry := []
  /-- The total duration, if it was computed since the last change. -/
  cached : Option Tick := none
  /-- The rounding anomalies met while scheduling. -/
  anomalies : List Anomaly := []
  deriving DecidableEq, Repr

/-- The latest end of some entries. -/
def latestStop (entries : List Entry) : Tick := latest (entries.map Entry.stop)

namespace Schedule

/-- The schedule without entries for a program. -/
def ofProgram (program : Program) : Schedule where
  name := program.name
  layout := program.layout

/-- The number of declared resources. -/
def numResources (schedule : Schedule) : Nat := schedule.layout.numResources

/-- The schedule with other entries; the cached duration is forgotten. -/
def withEntries (schedule : Schedule) (entries : List Entry) : Schedule :=
  { schedule with entries, cached := none }

/-- The schedule with further entries at the end. -/
def append (schedule : Schedule) (entries : List Entry) : Schedule :=
  schedule.withEntries (schedule.entries ++ entries)

/-- The latest end of the entries. -/
def total (schedule : Schedule) : Tick := latestStop schedule.entries

/-- The schedule with its duration in the cache. -/
def sealed (schedule : Schedule) : Schedule := { schedule with cached := some schedule.total }

/-- The sealed schedule for a program with the given entries and anomalies. -/
def sealedFor (program : Program) (entries : List Entry) (anomalies : List Anomaly) : Schedule where
  name := program.name
  layout := program.layout
  entries := entries
  cached := some (latestStop entries)
  anomalies := anomalies

/-- The duration: the cached one, else the latest end of the entries. -/
def duration (schedule : Schedule) : Tick := schedule.cached.getD schedule.total

/-- The schedule with further anomalies. -/
def warn (schedule : Schedule) (anomalies : List Anomaly) : Schedule :=
  { schedule with anomalies := schedule.anomalies ++ anomalies }

/-- The spans of the entries on a resource, without barriers and timesteps. -/
def intervals (schedule : Schedule) (resource : Resource) : List (Tick × Tick) :=
  (schedule.entries.filter fun entry => !entry.operation.isMarker && entry.uses resource).map
    fun entry => (entry.start, entry.stop)

/-- The timesteps: the tick of each boundary, with the length it closes. -/
def timesteps (schedule : Schedule) : List (Tick × Tick) :=
  schedule.entries.filterMap fun entry =>
    entry.operation.stepLength?.map fun length => (entry.start, length)

/-- The start of the first entry that was made from an operation. -/
def startOf (schedule : Schedule) (source : OpId) : Option Tick :=
  (schedule.entries.find? fun entry => entry.source = some source).map Entry.start

/-- The entries as a program of their own, which knows their durations and has no
dependencies. -/
def toProgram (schedule : Schedule) : Program :=
  { name := schedule.name
    layout := schedule.layout
    tasks := (schedule.entries.map fun entry =>
      Task.known entry.operation entry.duration).toArray }

end Schedule

end Timetable
