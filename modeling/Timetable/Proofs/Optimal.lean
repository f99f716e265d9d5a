import Timetable.Proofs.Optimal.Reversal
import Timetable.Proofs.Policy

/-!
# Optimal schedules

Outside of lock step, a program is scheduled as soon as possible or as late as possible. Among all
assignments of starts that keep operations behind what they require, the first gives every
operation its earliest start, and so finishes as early as possible; the second finishes just as
early, and among the assignments that do so gives every operation its latest start.

## Main results

* `Program.asap_earliest` — as soon as possible.
* `Program.alap_latest` — as late as possible.
-/

set_option autoImplicit false

namespace Timetable

namespace Program

variable {program : Program} {table : DurationTable} {settings : Settings} {duration : OpId → Tick}

/-- **As soon as possible.** A physical program without circular dependencies whose durations are
known is scheduled so that whatever an operation requires has finished when it starts. No other
such starts are earlier for any operation, so the duration of the schedule is the least possible.

**Proof sketch.** The forward pass places the operations in precedence order, and the invariant
`Front.Earliest` says that each starts at the least tick that any feasible assignment of starts
allows (`exists_forward`). Earliest starts give the least makespan, and the schedule is as long as
that. -/
theorem asap_earliest (built : program.Built) (physical : program.violation? = none)
    (acyclic : program.Acyclic) (lasts : program.Lasts table duration)
    (method : settings.method = "asap") :
    ∃ schedule start, (program.schedule table settings).result = .ok schedule ∧
      (∀ id < program.size, schedule.startOf id = some (start id)) ∧
      program.Feasible duration start ∧
      (∀ other, program.Feasible duration other → ∀ id < program.size, start id ≤ other id) ∧
      schedule.cached = some (program.makespan duration start) ∧
      ∀ other, program.Feasible duration other →
        program.makespan duration start ≤ program.makespan duration other := by
  obtain ⟨schedule, start, ok, realizes, earliest, total⟩ :=
    exists_forward built.wellFormed physical acyclic lasts
  have cached : schedule.cached = some schedule.total :=
    (forward_gapFree built.wellFormed ok).cached
  exact ⟨schedule, start, schedule_of_run (Policy.ofSettings_asap method) ok,
    fun id inside => realizes.startOf inside, earliest.feasible, earliest.minimal,
    total ▸ cached, fun other feasible => earliest.makespan_le feasible⟩

/-- How long the operations of the sample program last. -/
def relayDuration (id : OpId) : Tick := [3, 5, 4, 2].getD id 0

/-- The sample program has no circular dependencies. -/
lemma acyclic_relay : relay.Acyclic :=
  acyclic_of_order built_relay.wellFormed.toClosed rfl (rfl : relay.precedence.order = .ok _)

/-- The durations of the sample program are known. -/
lemma lasts_relay : relay.Lasts .relay relayDuration := by
  unfold Lasts
  decide

/-- The second gate waits for the first. -/
theorem asap_earliest_relay : ∃ schedule start,
    (relay.schedule .relay { method := "asap" }).result = .ok schedule ∧
      schedule.startOf 3 = some 3 ∧ schedule.startOf 3 = some (start 3) ∧
      relay.Feasible relayDuration start ∧ schedule.cached = some 9 := by
  obtain ⟨schedule, start, ok, starts, feasible, -, -, -⟩ :=
    @asap_earliest _ _ { method := "asap" } _ built_relay rfl acyclic_relay lasts_relay rfl
  have found := starts 3 (by decide)
  cases ok
  exact ⟨_, start, rfl, rfl, found, feasible, rfl⟩

/-- **As late as possible.** A physical program without circular dependencies and without timesteps
whose durations are known is scheduled to take as long as it does as soon as possible. Whatever an
operation requires has finished when it starts, and no other such starts that are through by then
are later for any operation.

**Proof sketch.** The pass reverses the program, schedules the reversal as soon as possible and
turns the result around (`Policy.exists_run_forward_reversed`). Reversal takes what is required to
what requires it, so starts are feasible for the one exactly if their reflection is for the other;
earliest becomes latest and the makespan is the same. Without timesteps there is no boundary to
shift. -/
theorem alap_latest (built : program.Built) (physical : program.violation? = none)
    (acyclic : program.Acyclic) (lasts : program.Lasts table duration)
    (plain : ∀ operation ∈ program.operations, operation.isTimestep = false) :
    ∃ asap alap total start,
      (program.schedule table { settings with method := "asap" }).result = .ok asap ∧
      (program.schedule table { settings with method := "alap" }).result = .ok alap ∧
      asap.cached = some total ∧ alap.cached = some total ∧
      (∀ id < program.size, alap.startOf id = some (start id)) ∧
      program.Feasible duration start ∧ (∀ id < program.size, start id + duration id ≤ total) ∧
      ∀ other, program.Feasible duration other →
        (∀ id < program.size, other id + duration id ≤ total) →
          ∀ id < program.size, other id ≤ start id := by
  have wellFormed := built.wellFormed
  obtain ⟨asap, early, asap_ok, -, earliest, asap_total⟩ :=
    exists_forward wellFormed physical acyclic lasts
  have asap_cached : asap.cached = some asap.total := (forward_gapFree wellFormed asap_ok).cached
  obtain ⟨alap, entries, start, alap_ok, -, alap_cached, unshifted, shifted, late⟩ :=
    Policy.exists_run_forward_reversed wellFormed physical acyclic lasts earliest
  have plain_entries : ∀ entry ∈ entries, entry.operation.isTimestep = false := by
    intro entry member
    rcases operation_of_unshifted? unshifted member with ⟨length, resource, idle⟩ | known
    · rw [idle]
      rfl
    · exact plain _ known
  rw [shiftEntries_of_plain 0 plain_entries] at shifted
  have alap_total : alap.total = program.makespan duration early := by
    rw [Schedule.total, shifted, late.latestStop_eq]
  exact ⟨asap, alap, _, start, schedule_of_run (Policy.ofSettings_asap rfl) asap_ok,
    schedule_of_run (Policy.ofSettings_alap rfl) alap_ok, asap_total ▸ asap_cached,
    alap_total ▸ alap_cached, fun id inside => Realizes.startOf (shifted ▸ late.realizes) inside,
    late.latest.feasible, late.latest.within, late.latest.maximal⟩

/-- The second gate ends with the schedule. -/
theorem alap_latest_relay : ∃ alap start,
    (relay.schedule .relay { method := "alap" }).result = .ok alap ∧
      alap.startOf 3 = some 7 ∧ alap.startOf 3 = some (start 3) ∧
      relay.Feasible relayDuration start ∧ alap.cached = some 9 := by
  obtain ⟨asap, alap, total, start, -, ok, -, -, starts, feasible, -⟩ :=
    @alap_latest _ _ {} _ built_relay rfl acyclic_relay lasts_relay (by decide)
  have found := starts 3 (by decide)
  cases ok
  exact ⟨_, start, rfl, rfl, found, feasible, rfl⟩

end Program

end Timetable
