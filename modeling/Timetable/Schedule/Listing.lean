import Timetable.Schedule

/-!
# Listings

A listing is what a caller receives who only wants to read a schedule: one row for each entry, and
the warnings as texts.

## Main definitions

* `Listing.Row`, `Listing` — the rows and the listing.
* `Schedule.listing` — the listing of a schedule.
-/

set_option autoImplicit false

namespace Timetable

/-- A row of a listing. -/
structure Listing.Row where
  name : String
  resources : List Resource
  start : Tick
  duration : Tick
  /-- The length that a timestep closes. -/
  length : Option Tick
  deriving DecidableEq, Repr

/-- A schedule to be read. -/
structure Listing where
  name : String
  duration : Tick
  rows : List Listing.Row
  warnings : List String
  deriving DecidableEq, Repr

/-- The row of an entry. -/
def Entry.row (entry : Entry) : Listing.Row :=
  { name := entry.operation.name
    resources := entry.resources
    start := entry.start
    duration := entry.duration
    length := entry.operation.stepLength? }

/-- The listing of a schedule. -/
def Schedule.listing (schedule : Schedule) : Listing :=
  { name := schedule.name
    duration := schedule.duration
    rows := schedule.entries.map Entry.row
    warnings := schedule.anomalies.map Anomaly.message }

end Timetable
