import Timetable.Dictionary
import Timetable.Duration.Rounding
import Timetable.Operation

/-!
# Duration tables

A duration table says how many ticks a named operation takes on given resources. An entry for
exactly these resources, in this order, comes first, then the default of the name. Barriers and
timesteps take no time whatever the table says. A table may also know the length of a tick, which
delays with a physical length need.

## Main definitions

* `DurationTable` — exact entries, defaults and quantum.
* `DurationTable.lookup` — the duration of a name on some resources.
* `DurationTable.update` — the merge of two tables; `DurationTable.absorb` — the merge in place.
* `DurationTable.ofSeconds` — a table from durations in seconds.
* `DurationTable.resolve` — the duration of an operation.
-/

set_option autoImplicit false

namespace Timetable

/-- Durations of named operations. -/
structure DurationTable where
  /-- Durations of a name on a list of resources. -/
  exact : Dictionary (String × List Resource) Tick := ∅
  /-- Durations of a name on any resources without an exact entry. -/
  defaults : Dictionary String Tick := ∅
  /-- The length of one tick, if known. -/
  quantum : Option Quantum := none

namespace DurationTable

instance : Inhabited DurationTable := ⟨{}⟩

/-- The table without entries and without a quantum. -/
def empty : DurationTable := {}

/-- The table without entries, with ticks of the given length in seconds. -/
def withQuantum (dt : Float) : Except DurationError DurationTable := do
  let quantum ← requireQuantum dt
  .ok { quantum := some quantum }

/-- The number of exact entries. -/
def size (table : DurationTable) : Nat := table.exact.size

/-- Whether a table has neither exact entries nor defaults. -/
def isEmpty (table : DurationTable) : Bool := table.exact.isEmpty && table.defaults.isEmpty

/-- The table with the duration of a name on exactly these resources. -/
def register (table : DurationTable) (name : String) (resources : List Resource) (ticks : Tick) :
    DurationTable :=
  { table with exact := table.exact.insert (name, resources) ticks }

/-- The table with the duration of a name on all resources without an exact entry. -/
def registerDefault (table : DurationTable) (name : String) (ticks : Tick) : DurationTable :=
  { table with defaults := table.defaults.insert name ticks }

/-- The table of a list of exact entries, of which later ones win. -/
def ofList (entries : List (String × List Resource × Tick)) : DurationTable :=
  entries.foldl (fun table entry => table.register entry.1 entry.2.1 entry.2.2) empty

/-- Whether a name stands for a mere synchronisation, which takes no time. -/
def isInstant (name : String) : Bool := name = "barrier" || name = "timestep"

/-- The duration of a name on some resources. -/
def lookup (table : DurationTable) (name : String) (resources : List Resource) :
    Except DurationError Tick :=
  if isInstant name then .ok 0
  else
    match (table.exact.lookup (name, resources)).or (table.defaults.lookup name) with
    | some ticks => .ok ticks
    | none => .error (.missingDuration name resources)

/-- The entries of a table, overridden by those of `other`. Two different quanta cannot be
merged. -/
def update (table other : DurationTable) : Except DurationError DurationTable :=
  let merged : DurationTable :=
    { exact := table.exact.overriddenBy other.exact
      defaults := table.defaults.overriddenBy other.defaults
      quantum := other.quantum.or table.quantum }
  match table.quantum, other.quantum with
  | some existing, some incoming =>
    if existing = incoming then .ok merged
    else .error (.conflictingUnit existing.seconds incoming.seconds)
  | _, _ => .ok merged

/-- Merges another table into a table in place. Gives the table as it stands afterwards, also if the
two cannot be merged. -/
def absorb (table other : DurationTable) : Except DurationError Unit × DurationTable :=
  match table.update other with
  | .error e => (.error e, table)
  | .ok merged => (.ok (), merged)

/-- Adds entries in seconds one by one. Also gives the anomalies of the entries up to the first
that cannot be converted. -/
def registerSeconds (quantum : Quantum) (table : DurationTable) :
    List (String × List Resource × Float) → List Anomaly × Except DurationError DurationTable
  | [] => ([], .ok table)
  | (name, resources, seconds) :: entries =>
    match quantum.round name seconds with
    | .error e => ([], .error e)
    | .ok resolved =>
      let (anomalies, result) :=
        registerSeconds quantum (table.register name resources resolved.ticks) entries
      (resolved.anomaly.toList ++ anomalies, result)

/-- The table of a list of entries in seconds, with the anomalies met on the way. -/
def ofSeconds (entries : List (String × List Resource × Float)) (dt : Float) :
    List Anomaly × Except DurationError DurationTable :=
  match requireQuantum dt with
  | .error e => ([], .error e)
  | .ok quantum => registerSeconds quantum { quantum := some quantum } entries

/-- The duration of an operation. A delay carries its own length; a physical one is converted
with the quantum. A fraction of ticks is rounded like any other unit. -/
def resolve (table : DurationTable) : Operation → Except DurationError Resolved
  | .gate name resources => (table.lookup name resources).map (⟨·, none⟩)
  | .delay (.ticks length) _ => .ok ⟨length, none⟩
  | .delay (.physical value unit) _ =>
    match table.quantum with
    | none => .error (.missingTimeQuantum "delay")
    | some quantum => quantum.round "delay" (value * unit.seconds?.getD quantum.seconds)
  | .barrier _ => .ok ⟨0, none⟩
  | .timestep _ _ => .ok ⟨0, none⟩

end DurationTable

end Timetable
