import Timetable.Reversal
import Timetable.Scheduling.LockStep

/-!
# Scheduling policies

A policy is one of the two forward passes, or the reversal of another policy: the program is
reversed in time, scheduled by the inner policy, and the schedule is brought back. The reversal of
an earliest schedule is a latest one.

## Main definitions

* `Policy`, `Policy.run` — the policies and what they do.
* `Policy.latest` — the reversal of a policy, set up for a reversed program.
* `Program.schedule` — scheduling by the settings of a caller.
-/

set_option autoImplicit false

namespace Timetable

/-- A way to schedule programs. -/
inductive Policy where
  /-- Every operation as soon as possible. -/
  | forward (table : DurationTable)
  /-- In lock step, as soon as possible. -/
  | lockStep (table : DurationTable) (rule : DelayRule) (side : CarriedSide)
  /-- The inner policy on the program reversed in time, whose durations come from a table. -/
  | reversed (inner : Policy) (table : DurationTable)

namespace Policy

/-- The policy set up for a reversed program, in which a timestep opens its step. -/
def forReversal : Policy → Policy
  | forward table => forward table
  | lockStep table rule _ => lockStep table rule .opening
  | reversed inner table => reversed inner table

/-- The reversal of a policy. -/
def latest (inner : Policy) (table : DurationTable) : Policy :=
  reversed inner.forReversal table

/-- Brings the schedule of a reversed program back, and repairs the boundaries of lock-step
time. -/
def conclude (reversal : Reversal) (resolution : Resolution) (inner : Run) : Run :=
  match inner.result with
  | .error e => { result := .error e, program := resolution.program, notes := inner.notes }
  | .ok schedule =>
    let (program, broughtBack) := reversal.bringBack schedule resolution.program
    { program
      notes := inner.notes
      result :=
        match broughtBack with
        | none => .error .unknownOperation
        | some schedule =>
          let shifted := if schedule.timesteps.isEmpty then schedule else schedule.shiftBoundaries
          .ok (shifted.warn resolution.anomalies) }

/-- Schedules a program. -/
def run : Policy → Program → Run
  | forward table, program => program.forward table
  | lockStep table rule side, program => program.lockStep table rule side
  | reversed inner table, program =>
    match program.violation? with
    | some violation => .failed program (.notPhysical violation)
    | none =>
      match program.reverse table with
      | (resolution, .error e) => .failed resolution.program (.duration e)
      | (resolution, .ok reversal) => conclude reversal resolution (inner.run reversal.program)

/-- The policy of a method. The rule is read for the lock-step methods only. -/
def ofMethod (method : Method) (table : DurationTable) (rule : String) :
    Except SchedulingError Policy :=
  match method with
  | .asap => .ok (forward table)
  | .alap => .ok (latest (forward table) table)
  | .asapTimestep => (DelayRule.parse rule).map fun rule => lockStep table rule .closing
  | .alapTimestep =>
    (DelayRule.parse rule).map fun rule => latest (lockStep table rule .closing) table

/-- The policy that the settings name. -/
def ofSettings (settings : Settings) (table : DurationTable) : Except SchedulingError Policy := do
  let method ← Method.parse settings.method
  ofMethod method table settings.rule

end Policy

/-- Schedules a program by the settings of a caller. The anomalies of the schedule are noted as
warnings. -/
def Program.schedule (program : Program) (table : DurationTable) (settings : Settings) : Run :=
  match Policy.ofSettings settings table with
  | .error e => .failed program e
  | .ok policy =>
    let run := policy.run program
    match run.result with
    | .error _ => run
    | .ok schedule =>
      { run with notes := run.notes ++ (schedule.anomalies.map Note.warning).toArray }

end Timetable
