import Timetable.Proofs.GapFree.Reversal
import Timetable.Proofs.Policy

/-!
# Schedules without gaps

Whatever method a caller names, a schedule that comes out has no gaps: walking its entries in order
with one cursor for every declared resource, each entry starts where all of its resources have come
to, and at the end all resources have come to the duration of the schedule. The one exception is
made by a program that already has timesteps and is scheduled as late as possible outside of lock
step.

## Main results

* `Program.schedule_tiles` — no gaps and no overlaps on any resource.
-/

set_option autoImplicit false

namespace Timetable

variable {program : Program} {table : DurationTable} {settings : Settings} {schedule : Schedule}

/-- A well-formed program is scheduled on its own resources without gaps, unless it has timesteps
and is scheduled as late as possible outside of lock step.

**Proof sketch.** One of the four policies, each of which has been treated. -/
lemma Program.schedule_gapFree (wellFormed : program.WellFormed)
    (plain : settings.method = "alap" →
      ∀ operation ∈ program.operations, operation.isTimestep = false)
    (ok : (program.schedule table settings).result = .ok schedule) :
    schedule.layout = program.layout ∧ schedule.GapFree := by
  obtain ⟨policy, offered, ok⟩ := schedule_eq_ok ok
  generalize settings.method = method at offered plain
  cases offered with
  | asap =>
    have gapFree := forward_gapFree wellFormed ok
    obtain ⟨order, -, -, -, rfl⟩ := forward_eq_ok ok
    exact ⟨rfl, gapFree⟩
  | alap => exact Policy.forward_reversed_gapFree wellFormed (plain rfl) ok
  | asapTimestep rule =>
    have gapFree := lockStep_gapFree wellFormed ok
    obtain ⟨-, -, rfl⟩ := lockStep_eq_ok ok
    exact ⟨rfl, gapFree⟩
  | alapTimestep rule => exact Policy.lockStep_reversed_gapFree wellFormed ok

/-- **No gaps, no overlaps.** Whatever program was built and whatever durations and settings are
used, the entries of a schedule tile the time of every declared resource from tick zero to the
duration of the schedule, which is known: each starts where all of its resources have come to, on
no resource do two of them overlap, and all of them together cover every tick. For the method that
schedules as late as possible outside of lock step, the program may not have timesteps.

**Proof sketch.** Every method gives a schedule without gaps (`schedule_gapFree`). A tiling has no
overlaps on any resource (`Tiles.pairwise`) and covers every tick between its fronts
(`Tiles.exists_covering`), and none of its entries ends behind the last front (`Tiles.stop_le`). -/
theorem Program.schedule_tiles (built : program.Built)
    (plain : settings.method = "alap" →
      ∀ operation ∈ program.operations, operation.isTimestep = false)
    (ok : (program.schedule table settings).result = .ok schedule) :
    schedule.numResources = program.numResources ∧ ∃ total, schedule.cached = some total ∧
      Tiles program.numResources (fun _ => 0) schedule.entries (fun _ => total) ∧
      ∀ resource < program.numResources,
        (schedule.entries.filter fun entry => entry.uses resource).Pairwise
          (fun earlier later => earlier.stop ≤ later.start) ∧
        ∀ tick, tick < total ↔ ∃ entry ∈ schedule.entries,
          entry.uses resource ∧ entry.start ≤ tick ∧ tick < entry.stop := by
  obtain ⟨layout, gapFree⟩ := schedule_gapFree built.wellFormed plain ok
  have resources : schedule.numResources = program.numResources :=
    congrArg Layout.numResources layout
  have tiles := gapFree.tiles
  rw [resources] at tiles
  refine ⟨resources, schedule.total, gapFree.cached, tiles, fun resource declared =>
    ⟨tiles.pairwise resource, fun tick => ⟨fun before => ?_, ?_⟩⟩⟩
  · obtain ⟨entry, member, used, inside⟩ :=
      tiles.exists_covering declared (Nat.zero_le tick) before
    exact ⟨entry, member, Entry.uses_iff.mpr used, inside⟩
  · rintro ⟨entry, member, used, -, inside⟩
    exact inside.trans_le (tiles.stop_le member (Entry.uses_iff.mp used))

/-- In lock step with time running backwards. -/
theorem Program.schedule_tiles_relay : ∃ schedule : Schedule,
    (relay.schedule .relay { method := "alap_timestep" }).result = .ok schedule ∧
      schedule.cached = some 9 ∧ Tiles 3 (fun _ => 0) schedule.entries fun _ => 9 := by
  have ok : (relay.schedule .relay { method := "alap_timestep" }).result = .ok _ := rfl
  obtain ⟨-, total, cached, tiles, -⟩ :=
    schedule_tiles built_relay (fun same => absurd same (by decide)) ok
  cases cached
  exact ⟨_, ok, rfl, tiles⟩

end Timetable
