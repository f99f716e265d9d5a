import Timetable.Proofs.Bounded.LockStep
import Timetable.Proofs.Bounded.Reversal
import Timetable.Proofs.Optimal

/-!
# Scheduling within a limit

The sum of all durations is the longest that a schedule can become, and no tick computed on the way
is greater: not the sums that test whether an operation fits, and not the boundaries that are added
up when time runs backwards. No difference is negative either. So machine numbers compute the same
schedules if they can hold that sum.

## Main definitions

* `Policy.runWithin`, `Program.scheduleWithin` — scheduling with arithmetic within a limit.

## Main results

* `Policy.Offered.runWithin_eq` — the policies that callers can choose.
* `Program.scheduleWithin_eq` — scheduling computes nothing beyond the sum of all durations.
-/

set_option autoImplicit false

namespace Timetable

/-- Schedules a program, with arithmetic within a limit. -/
def Policy.runWithin (limit : Tick) : Policy → Program → Option Run
  | forward table, program => program.forwardWithin limit table
  | lockStep table rule side, program => program.lockStepWithin limit table rule side
  | reversed inner table, program =>
    match program.violation? with
    | some violation => some (.failed program (.notPhysical violation))
    | none =>
      match program.reverse table with
      | (resolution, .error e) => some (.failed resolution.program (.duration e))
      | (resolution, .ok reversal) => do
        let run ← inner.runWithin limit reversal.program
        concludeWithin limit reversal resolution run

/-- Schedules a program by the settings of a caller, with arithmetic within a limit. -/
def Program.scheduleWithin (limit : Tick) (program : Program) (table : DurationTable)
    (settings : Settings) : Option Run :=
  match Policy.ofSettings settings table with
  | .error e => some (.failed program e)
  | .ok policy => do
    let run ← policy.runWithin limit program
    return match run.result with
      | .error _ => run
      | .ok schedule =>
        { run with notes := run.notes ++ (schedule.anomalies.map Note.warning).toArray }

variable {limit : Tick} {program : Program} {table : DurationTable} {settings : Settings}
  {duration : OpId → Tick} {reversal : Reversal} {rule : DelayRule} {schedule : Schedule}

/-- The durations of the reversal have the same sum. -/
lemma Program.ReversedBy.totalDuration_eq (reversed : program.ReversedBy table reversal)
    (duration : OpId → Tick) :
    (reversal.program.totalDuration fun place => duration (program.flip place)) =
      program.totalDuration duration := by
  have same : reversal.program.ids = program.ids := congrArg List.range reversed.size
  have opposite : (program.ids.map fun place => duration (program.flip place)) =
      program.ids.reverse.map duration := by
    rw [reverse_ids, List.map_map]
    rfl
  rw [totalDuration, same, opposite, ((List.reverse_perm _).map duration).sum_nat, totalDuration]

/-! ## Time running backwards -/

namespace Policy

/-- A pass with time running backwards stays within the limit if the inner pass does on the
reversal, and its schedule does when it is brought back.

**Proof sketch.** If the program is not physical, or some duration is unknown, nothing is computed.
Otherwise the inner pass is within the limit, and so is bringing its schedule back
(`concludeWithin_eq`). -/
lemma runWithin_reversed {inner : Policy}
    (runs : ∀ reversal, program.ReversedBy table reversal →
      inner.runWithin limit reversal.program = some (inner.run reversal.program) ∧
      ∀ schedule, (inner.run reversal.program).result = .ok schedule → schedule.Within limit ∧
        latestStop (shiftEntries none 0 (reversal.turned schedule)) ≤ limit) :
    (reversed inner table).runWithin limit program =
        some ((reversed inner table).run program) ∧
      ∀ schedule, ((reversed inner table).run program).result = .ok schedule →
        schedule.Within limit := by
  unfold runWithin run
  cases program.violation? with
  | some violation => exact ⟨rfl, by simp [Run.failed]⟩
  | none =>
    cases reverses : program.reverse table with
    | mk resolution outcome =>
      cases outcome with
      | error e => exact ⟨rfl, by simp [Run.failed]⟩
      | ok reversal =>
        obtain ⟨-, reversedBy⟩ := Program.reverse_eq_ok reverses
        obtain ⟨computed, fits⟩ := runs reversal reversedBy
        dsimp only
        rw [computed, Option.bind_eq_bind, Option.bind_some]
        exact concludeWithin_eq fits

/-- Without timesteps, a schedule of the forward pass is brought back within the limit. -/
lemma latestStop_forward_turned (reversedBy : program.ReversedBy table reversal)
    (plain : ∀ operation ∈ program.operations, operation.isTimestep = false)
    (ok : (reversal.program.forward table).result = .ok schedule)
    (within : schedule.Within limit) :
    latestStop (shiftEntries none 0 (reversal.turned schedule)) ≤ limit := by
  have turned_plain : ∀ entry ∈ reversal.turned schedule, entry.operation.isTimestep = false :=
    fun _ member =>
      Program.isTimestep_of_idle_or_mem plain (reversedBy.operation_of_mem_turned ok member)
  rw [shiftEntries_of_plain 0 turned_plain, Reversal.turned,
    Schedule.duration_of_cached within.cached]
  exact (Reversal.latestStop_mirrored_le (fun entry member =>
    stop_le_latestStop (List.mem_reverse.mp member)) _).trans within.total_le

/-- A lock-step schedule is brought back within the limit. -/
lemma latestStop_lockStep_turned (reversedBy : program.ReversedBy table reversal)
    (wellFormed : program.WellFormed)
    (ok : (reversal.program.lockStep table rule .opening).result = .ok schedule)
    (within : schedule.Within limit) :
    latestStop (shiftEntries none 0 (reversal.turned schedule)) ≤ limit := by
  obtain ⟨last, anomalies, run, rfl⟩ :=
    Program.lockStep_run (reversedBy.wellFormed wellFormed) ok
  have duration : (Schedule.sealedFor reversal.program last.entries anomalies).duration =
      last.elapsed := run.latestStop_eq
  have shifted : shiftEntries none 0 (reversal.turned (.sealedFor reversal.program last.entries
      anomalies)) = (last.turned reversal).flatMap Group.toList := by
    rw [Reversal.turned, duration]
    exact run.shiftEntries_turned reversal
  rw [shifted, run.latestStop_turned, ← run.latestStop_eq]
  exact within.total_le

/-- The policies that callers can choose stay within the sum of all durations.

**Proof sketch.** One case for each method. The forward passes stay within the limit by
`Closed.forwardWithin_eq` and `WellFormed.lockStepWithin_eq`. The others run them on the reversed
program, whose durations add up to the same, and bring the schedule back, which ends no later:
without timesteps nothing is shifted, and in lock step the shifted groups end where the run
ended. -/
theorem Offered.runWithin_eq {method : String} {policy : Policy}
    (offered : Offered table method policy) (wellFormed : program.WellFormed)
    (lasts : program.Lasts table duration)
    (plain : method = "alap" → ∀ operation ∈ program.operations, operation.isTimestep = false)
    (fits : program.totalDuration duration ≤ limit) :
    policy.runWithin limit program = some (policy.run program) ∧
      ∀ schedule, (policy.run program).result = .ok schedule → schedule.Within limit := by
  cases offered with
  | asap => exact wellFormed.toClosed.forwardWithin_eq lasts fits
  | asapTimestep rule => exact wellFormed.lockStepWithin_eq lasts fits rule .closing
  | alap =>
    refine runWithin_reversed fun reversal reversedBy => ?_
    obtain ⟨computed, within⟩ := (reversedBy.closed wellFormed.toClosed).forwardWithin_eq
      (reversedBy.lasts lasts table) ((reversedBy.totalDuration_eq duration).le.trans fits)
    exact ⟨computed, fun schedule ok => ⟨within schedule ok,
      latestStop_forward_turned reversedBy (plain rfl) ok (within schedule ok)⟩⟩
  | alapTimestep rule =>
    refine runWithin_reversed fun reversal reversedBy => ?_
    obtain ⟨computed, within⟩ := (reversedBy.wellFormed wellFormed).lockStepWithin_eq
      (reversedBy.lasts lasts table) ((reversedBy.totalDuration_eq duration).le.trans fits)
      rule .opening
    exact ⟨computed, fun schedule ok => ⟨within schedule ok,
      latestStop_lockStep_turned reversedBy wellFormed ok (within schedule ok)⟩⟩

end Policy

/-! ## Scheduling -/

namespace Program

/-- **No overflow.** Take a program that was built, whose durations are all known, and a limit that
is not below their sum. Whichever method and rule it is scheduled by, no sum of two ticks that is
computed is beyond the limit, and no difference below zero, so that the outcome is the same without
a limit; for `alap` the program has to be without timesteps. All entries of a schedule end within
the limit.

**Proof sketch.** Settings that name no policy fail in the same way on both sides. Otherwise the
policy is one of those offered, and `Offered.runWithin_eq` says that its run is computed within the
limit and that its schedule ends within it. -/
theorem scheduleWithin_eq (built : program.Built) (lasts : program.Lasts table duration)
    (plain : settings.method = "alap" → ∀ operation ∈ program.operations,
      operation.isTimestep = false)
    (fits : program.totalDuration duration ≤ limit) :
    program.scheduleWithin limit table settings = some (program.schedule table settings) ∧
      ∀ schedule, (program.schedule table settings).result = .ok schedule →
        schedule.duration ≤ limit ∧ ∀ entry ∈ schedule.entries, entry.stop ≤ limit := by
  constructor
  · unfold scheduleWithin schedule
    cases named : Policy.ofSettings settings table with
    | error e => rfl
    | ok policy =>
      obtain ⟨computed, -⟩ :=
        (Policy.ofSettings_eq_ok named).runWithin_eq built.wellFormed lasts plain fits
      dsimp only
      rw [computed]
      rfl
  · intro schedule ok
    obtain ⟨policy, offered, ran⟩ := schedule_eq_ok ok
    obtain ⟨-, within⟩ := offered.runWithin_eq built.wellFormed lasts plain fits
    obtain ⟨cached, total⟩ := within schedule ran
    exact ⟨(Schedule.duration_of_cached cached).le.trans total, latestStop_le_iff.mp total⟩

/-- The relay needs no ticks beyond fourteen, with time running backwards, and no machine number
overflows in lock step. -/
theorem scheduleWithin_eq_relay : relay.totalDuration relayDuration = 14 ∧
    relay.scheduleWithin 14 .relay { method := "alap" } =
      some (relay.schedule .relay { method := "alap" }) ∧
    relay.scheduleWithin tickLimit .relay { method := "alap_timestep" } =
      some (relay.schedule .relay { method := "alap_timestep" }) := by
  have plain : ∀ operation ∈ relay.operations, operation.isTimestep = false := by decide
  refine ⟨rfl, ?_, ?_⟩
  · exact (scheduleWithin_eq built_relay lasts_relay (fun _ => plain) le_rfl).1
  · exact (scheduleWithin_eq built_relay lasts_relay (fun _ => plain) (by decide)).1

/-- Nine ticks are what the relay takes, and eight are too few. -/
example : (relay.scheduleWithin 8 .relay { method := "asap" }).isNone := by decide

end Program

end Timetable
