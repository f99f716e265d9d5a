import Timetable.Program.Resolution
import Timetable.Schedule

/-!
# Reversal in time

As late as possible is as soon as possible with time running backwards. A program is reversed by
turning around the order of its operations and all of its dependencies. A schedule of the reversed
program is brought back by turning it around too. In lock step the boundaries then stand in front
of the steps they close, and have to be shifted behind them.

## Main definitions

* `Reversal` — a reversed program that knows where its operations came from.
* `Program.reverse` — reversing a program.
* `Reversal.bringBack` — bringing a schedule of the reversed program back.
* `Schedule.shiftBoundaries` — moving the boundaries of lock-step time behind their steps.
-/

set_option autoImplicit false

namespace Timetable

/-- A program reversed in time. -/
structure Reversal where
  /-- The reversed program, in which every duration is known. -/
  program : Program
  /-- For every operation of the reversed program, the operation it came from. -/
  origin : Array OpId
  deriving DecidableEq, Repr

/-- The reversed program made of resolved operations, which come last operation first. -/
def Resolution.reversal (resolution : Resolution) : Reversal :=
  let program := resolution.program
  let flip (id : OpId) : OpId := program.size - 1 - id
  { origin := (resolution.jobs.map Job.id).toArray
    program :=
      { name := program.name
        layout := program.layout
        tasks := (resolution.jobs.map fun job => Task.known job.operation job.ticks).toArray
        dependencies := program.dependencies.map fun pair => (flip pair.2, flip pair.1) } }

/-- Reverses a program. All durations are resolved first, last operation first, and stored in the
program, so that the reversed program has exactly the durations of the given one. -/
def Program.reverse (program : Program) (table : DurationTable) :
    Resolution × Except DurationError Reversal :=
  let resolution := program.resolve table program.ids.reverse
  match resolution.failure with
  | some e => (resolution, .error e)
  | none => (resolution, .ok resolution.reversal)

namespace Reversal

/-- The operation that an operation of the reversed program came from. -/
def origin? (reversal : Reversal) (id : OpId) : Option OpId := reversal.origin[id]?

/-- Brings entries of the reversed program back, one after the other: each moves to the opposite
place within `total` ticks, takes the number of the operation it came from, and writes its duration
into the slot of that operation. Stops without a result at an entry whose operation does not
exist. -/
def bringBackEntries (reversal : Reversal) (total : Tick) :
    List Entry → Program → Program × Option (List Entry)
  | [], program => (program, some [])
  | entry :: entries, program =>
    let moved (source : Option OpId) : Entry :=
      { entry with start := total - entry.stop, source }
    match entry.source with
    | none =>
      let (program, rest) := reversal.bringBackEntries total entries program
      (program, rest.map (moved none :: ·))
    | some id =>
      match reversal.origin? id with
      | none => (program, none)
      | some origin =>
        match program.record? origin entry.duration with
        | none => (program, none)
        | some (_, program) =>
          let (program, rest) := reversal.bringBackEntries total entries program
          (program, rest.map (moved (some origin) :: ·))

/-- Brings a schedule of the reversed program back to the given program: entries are turned
around in order and in time. Also gives the program with the durations written into it. There is
no schedule if an entry names an operation that does not exist. -/
def bringBack (reversal : Reversal) (schedule : Schedule) (program : Program) :
    Program × Option Schedule :=
  let (program, entries) :=
    reversal.bringBackEntries schedule.duration schedule.entries.reverse program
  (program, entries.map fun entries => .sealedFor program entries schedule.anomalies)

end Reversal

/-- Moves each timestep in front of the next one, and the last one to the end. Ticks are
recomputed: `elapsed` counts the lengths of the timesteps so far. The timestep in `held` waits for
its place. -/
def shiftEntries : (held : Option Entry) → (elapsed : Tick) → List Entry → List Entry
  | none, _, [] => []
  | some marker, elapsed, [] =>
    [{ marker with start := elapsed + marker.operation.stepLength?.getD 0 }]
  | held, elapsed, entry :: entries =>
    if entry.operation.isTimestep then
      match held with
      | none => shiftEntries (some entry) elapsed entries
      | some marker =>
        let stop := elapsed + marker.operation.stepLength?.getD 0
        { marker with start := stop } :: shiftEntries (some entry) stop entries
    else entry :: shiftEntries held elapsed entries

/-- Moves each timestep behind the step in front of which it stands after a reversal. -/
def Schedule.shiftBoundaries (schedule : Schedule) : Schedule :=
  (schedule.withEntries (shiftEntries none 0 schedule.entries)).sealed

end Timetable
