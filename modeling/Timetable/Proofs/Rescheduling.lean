import Timetable.Proofs.Conservation
import Timetable.Proofs.GapFree
import Timetable.Proofs.Rescheduling.Reversal

/-!
# Scheduling a schedule again

The entries of a schedule can be scheduled as a program of their own. Tight schedules stay as they
are if that is done as soon as possible, and without timesteps also if it is done as late as
possible. Whatever is scheduled comes out tight, so scheduling once is as good as scheduling
twice.

## Main results

* `Program.schedule_tight` — the schedules of all methods are tight.
* `Program.schedule_again` — tight schedules stay as they are.
-/

set_option autoImplicit false

namespace Timetable

variable {program : Program} {table : DurationTable} {settings : Settings} {schedule : Schedule}
  {rule : DelayRule} {entries : List Entry}

/-! ## No entry names a resource twice -/

/-- Idle time and the operations of a physical program name no resource twice. -/
lemma Program.nodup_of_idle_or_mem (physical : program.violation? = none) {operation : Operation}
    (known : (∃ length resource, operation = .idle length resource) ∨
      operation ∈ program.operations) : operation.resources.Nodup := by
  rcases known with ⟨length, resource, rfl⟩ | member
  · exact List.nodup_singleton resource
  · exact nodup_of_physical physical member

/-- Neither does what lock step makes of an operation of a physical program. -/
lemma Operation.KeptInLockStep.nodup {operation : Operation} {numResources : Nat} {id : OpId}
    {ticks : Tick} {parts : List Entry}
    (kept : operation.KeptInLockStep numResources id ticks parts)
    (nodup : operation.resources.Nodup) : ∀ part ∈ parts, part.resources.Nodup := by
  intro part member
  rw [Entry.resources]
  obtain same | ⟨_, _, resource, -, same⟩ | ⟨_, _, _, -, same⟩ := kept.part_cases member
  · rwa [same]
  · rw [same]
    exact List.nodup_singleton resource
  · rw [same]
    exact List.nodup_range

/-- No entry of a lock-step schedule for a physical program names a resource twice.

**Proof sketch.** An entry that was made from an operation keeps its resources, and the program is
physical. Idle time is on one resource, and a boundary on each resource once. -/
lemma Program.Conserved.nodup (physical : program.violation? = none)
    (conserved : program.Conserved table (Operation.KeptInLockStep program.numResources) entries) :
    ∀ entry ∈ entries, entry.resources.Nodup := by
  intro entry member
  cases source : entry.source with
  | none =>
    rcases conserved.unsourced entry member source with
      ⟨resource, start, duration, -, rfl⟩ | ⟨length, stop, rfl⟩
    · exact List.nodup_singleton resource
    · exact List.nodup_range
  | some id =>
    have inside := conserved.known entry member id source
    obtain ⟨operation, ticks, found, -, kept⟩ := conserved.kept id inside
    exact kept.nodup (nodup_of_physical physical (mem_operations_of_operation? found)) entry
      (mem_partsOf.mpr ⟨member, source⟩)

/-! ## All schedules are tight -/

/-- A schedule without gaps for a physical program is tight if no entry names a resource twice. -/
lemma Schedule.GapFree.tight (gapFree : schedule.GapFree) (physical : program.violation? = none)
    (layout : schedule.layout = program.layout)
    (nodup : ∀ entry ∈ schedule.entries, entry.resources.Nodup) : schedule.Tight where
  register := layout ▸ (Program.violation?_eq_none_iff.mp physical).1
  touching := gapFree.touching
  nodup := nodup
  tiles := gapFree.tiles

/-- As late as possible outside of lock step, the entries are idle time and the operations of the
program, which may not have timesteps. -/
lemma Policy.operation_of_mem_reversed
    (plain : ∀ operation ∈ program.operations, operation.isTimestep = false)
    (ok : ((reversed (forward table) table).run program).result = .ok schedule) {entry : Entry}
    (member : entry ∈ schedule.entries) :
    (∃ length resource, entry.operation = .idle length resource) ∨
      entry.operation ∈ program.operations := by
  obtain ⟨reversal, inner, -, reversedBy, ok, -, -, entries⟩ := forward_reversed_eq_ok plain ok
  rw [entries] at member
  exact reversedBy.operation_of_mem_turned ok member

/-- The schedules of all methods are tight. As late as possible outside of lock step, the program
may not have timesteps.

**Proof sketch.** A schedule without gaps is tight once its operations name no resource twice
(`GapFree.tight`). By conservation they are operations of the program, which is physical, or idle
time, which has one resource. -/
theorem Program.schedule_tight (wellFormed : program.WellFormed)
    (plain : settings.method = "alap" →
      ∀ operation ∈ program.operations, operation.isTimestep = false)
    (ok : (program.schedule table settings).result = .ok schedule) : schedule.Tight := by
  obtain ⟨layout, gapFree⟩ := schedule_gapFree wellFormed plain ok
  obtain ⟨policy, offered, ok⟩ := schedule_eq_ok ok
  generalize settings.method = method at offered plain
  cases offered with
  | asap =>
    obtain ⟨-, physical, -⟩ := forward_eq_ok ok
    exact gapFree.tight physical layout fun _ member =>
      nodup_of_idle_or_mem physical (operation_of_mem_forward ok member)
  | alap =>
    obtain ⟨-, -, physical, -⟩ := Policy.run_reversed_eq_ok ok
    exact gapFree.tight physical layout fun _ member =>
      nodup_of_idle_or_mem physical (Policy.operation_of_mem_reversed (plain rfl) ok member)
  | asapTimestep rule =>
    obtain ⟨physical, -⟩ := lockStep_eq_ok ok
    obtain ⟨last, anomalies, run, rfl⟩ := lockStep_run wellFormed ok
    exact gapFree.tight physical layout (run.conserved.nodup physical)
  | alapTimestep rule =>
    obtain ⟨reversal, last, physical, reversedBy, run, -, entries, stepped, -⟩ :=
      Policy.lockStep_reversed_run wellFormed ok
    refine gapFree.tight physical layout ?_
    rw [entries]
    exact (run.conserved_turned reversedBy stepped).nodup physical

/-- Outside of lock step, the schedule of a program without timesteps has none. -/
lemma Program.isTimestep_of_mem_schedule
    (plain : ∀ operation ∈ program.operations, operation.isTimestep = false)
    (method : settings.method = "asap" ∨ settings.method = "alap")
    (ok : (program.schedule table settings).result = .ok schedule) :
    ∀ entry ∈ schedule.entries, entry.operation.isTimestep = false := by
  obtain ⟨policy, offered, ok⟩ := schedule_eq_ok ok
  intro entry member
  refine isTimestep_of_idle_or_mem plain ?_
  generalize settings.method = method at offered method
  cases offered with
  | asap => exact operation_of_mem_forward ok member
  | alap => exact Policy.operation_of_mem_reversed plain ok member
  | asapTimestep | alapTimestep => simp at method

/-! ## Scheduling again -/

/-- A tight schedule is repeated as soon as possible, and as late as possible if none of its entries
is a timestep. -/
lemma Schedule.Tight.exists_schedule (tight : schedule.Tight) (table : DurationTable)
    (method : settings.method = "asap" ∨
      settings.method = "alap" ∧ ∀ entry ∈ schedule.entries, entry.operation.isTimestep = false) :
    ∃ again, (schedule.toProgram.schedule table settings).result = .ok again ∧
      schedule.RepeatedBy again := by
  rcases method with asap | ⟨alap, plain⟩
  · obtain ⟨again, ok, -, repeated⟩ := tight.exists_forward table
    exact ⟨again, Program.schedule_of_run (Policy.ofSettings_asap asap) ok, repeated⟩
  · obtain ⟨again, ok, -, repeated⟩ := tight.exists_forward_reversed table plain
    exact ⟨again, Program.schedule_of_run (Policy.ofSettings_alap alap) ok, repeated⟩

/-- **Tight schedules are fixed points.** Scheduling the entries of a tight schedule as soon as
possible, whatever durations are used, repeats it: the same entries come out in the same order, each
made from the operation with the number of its place, without further idle time, and the schedule is
as long. So does scheduling them as late as possible if none of them is a timestep. In particular,
whatever was scheduled by any method for a program that was built is repeated as soon as possible,
and if that was done outside of lock step, also as late as possible; for what was scheduled as late
as possible outside of lock step, the program may not have timesteps.

**Proof sketch.** A tight schedule is a program whose operations have their resources free exactly
when they start, so the forward pass places each where it was, and so does the pass over the
reversal (`Tight.exists_schedule`). Whatever any method writes is tight (`schedule_tight`). -/
theorem Program.schedule_again :
    (∀ (schedule : Schedule) (table : DurationTable) (settings : Settings), schedule.Tight →
      (settings.method = "asap" ∨ settings.method = "alap" ∧
        ∀ entry ∈ schedule.entries, entry.operation.isTimestep = false) →
      ∃ again, (schedule.toProgram.schedule table settings).result = .ok again ∧
        schedule.RepeatedBy again) ∧
    ∀ (program : Program) (table table' : DurationTable) (settings settings' : Settings)
      (schedule : Schedule), program.Built →
      (program.schedule table settings).result = .ok schedule →
      (settings.method = "alap" ∨ settings'.method = "alap" →
        ∀ operation ∈ program.operations, operation.isTimestep = false) →
      (settings'.method = "asap" ∨
        settings'.method = "alap" ∧ (settings.method = "asap" ∨ settings.method = "alap")) →
      ∃ again, (schedule.toProgram.schedule table' settings').result = .ok again ∧
        schedule.RepeatedBy again := by
  refine ⟨fun schedule table settings tight => tight.exists_schedule table, ?_⟩
  intro program table table' settings settings' schedule built ok plain method
  have tight := schedule_tight built.wellFormed (fun alap => plain (.inl alap)) ok
  refine tight.exists_schedule table' (method.imp_right fun ⟨alap, outside⟩ => ⟨alap, ?_⟩)
  exact isTimestep_of_mem_schedule (plain (.inr alap)) outside ok

/-- A lock-step schedule once more as soon as possible, and one as late as possible once more. -/
theorem Program.schedule_again_relay :
    (∃ first again, (relay.schedule .relay { method := "alap_timestep" }).result = .ok first ∧
      (first.toProgram.schedule .empty { method := "asap" }).result = .ok again ∧
      first.RepeatedBy again) ∧
    ∃ first again, (relay.schedule .relay { method := "alap" }).result = .ok first ∧
      (first.toProgram.schedule .empty { method := "alap" }).result = .ok again ∧
      first.RepeatedBy again := by
  have plain : ∀ operation ∈ relay.operations, operation.isTimestep = false := by decide
  constructor
  · have ok : (relay.schedule .relay { method := "alap_timestep" }).result = .ok _ := rfl
    obtain ⟨again, ran, repeated⟩ := schedule_again.2 relay .relay .empty
      { method := "alap_timestep" } { method := "asap" } _ built_relay ok (fun _ => plain)
      (.inl rfl)
    exact ⟨_, again, ok, ran, repeated⟩
  · have ok : (relay.schedule .relay { method := "alap" }).result = .ok _ := rfl
    have tight := schedule_tight built_relay.wellFormed (fun _ => plain) ok
    have still := isTimestep_of_mem_schedule plain (.inr rfl) ok
    obtain ⟨again, ran, repeated⟩ :=
      schedule_again.1 _ .empty { method := "alap" } tight (.inr ⟨rfl, still⟩)
    exact ⟨_, again, ok, ran, repeated⟩

end Timetable
