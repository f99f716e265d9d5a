import Timetable.Proofs.GapFree.Reversal
import Timetable.Proofs.Rescheduling.Forward

/-!
# Tight schedules with time running backwards

The reversal of the program of a schedule is the program of its mirror image. The mirror image of a
tight schedule is tight, so scheduling it repeats it, and turned around again it is the schedule
that it was made from.

## Main definitions

* `Schedule.mirrored` — a schedule turned around in time.

## Main results

* `Schedule.reversal_toProgram` — the program of the mirror image is the reversal of the program.
* `Schedule.Tight.mirrored` — the mirror image of a tight schedule is tight.
* `Schedule.turned_numbered` — turning around twice leads back.
* `Schedule.Tight.exists_forward_reversed` — scheduling as late as possible repeats a tight schedule
  without timesteps.
-/

set_option autoImplicit false

namespace Timetable

/-- A schedule turned around in time: its entries in the opposite order and at the opposite
places. -/
def Schedule.mirrored (schedule : Schedule) : Schedule :=
  { schedule with entries := schedule.entries.reverse.map (.mirrored schedule.total fun _ => none) }

/-- An entry that is turned around twice within some time stands where it was. -/
lemma Entry.start_mirrored_mirrored {entry : Entry} {total : Tick} (within : entry.stop ≤ total) :
    total - (total - entry.stop + entry.duration) = entry.start := by
  unfold Entry.stop at *
  lia

/-- An entry that is turned around twice within some time only has another source. -/
lemma Entry.mirrored_twice {entry : Entry} {total : Tick} (within : entry.stop ≤ total)
    (origin origin' : OpId → Option OpId) :
    (entry.mirrored total origin).mirrored total origin' =
      { entry with source := (entry.source.bind origin).bind origin' } := by
  have start := entry.start_mirrored_mirrored within
  simp only [mirrored, Entry.stop] at start ⊢
  rw [start]

namespace Schedule

variable {schedule : Schedule} {table : DurationTable}

/-- The reversal of the program of a schedule is the program of its mirror image.

**Proof sketch.** Both programs list the operations of the entries from the last to the first with
their durations in the slots, and neither has dependencies. -/
theorem reversal_toProgram (schedule : Schedule) (table : DurationTable) :
    (schedule.toProgram.resolve table schedule.toProgram.ids.reverse).reversal.program =
      schedule.mirrored.toProgram := by
  have same := Program.sameButSlots_resolve schedule.toProgram table schedule.toProgram.ids.reverse
  obtain ⟨-, jobs⟩ := schedule.resolve_toProgram_reverse table
  have tasks :
      (jobsOf schedule.entries).reverse.map (fun job => Task.known job.operation job.ticks) =
      schedule.mirrored.entries.map fun entry => Task.known entry.operation entry.duration := by
    rw [List.map_reverse, map_jobsOf, Schedule.mirrored, List.map_map, List.map_reverse]
    rfl
  simp only [Resolution.reversal, jobs, tasks, same.name, same.layout, same.dependencies]
  rfl

/-- The entries of the mirror image are those of the schedule in other places. -/
lemma exists_of_mem_mirrored {entry : Entry} (member : entry ∈ schedule.mirrored.entries) :
    ∃ before ∈ schedule.entries, entry.operation = before.operation := by
  obtain ⟨before, found, rfl⟩ := List.mem_map.mp member
  exact ⟨before, List.mem_reverse.mp found, rfl⟩

/-- The entries of the mirror image, numbered and turned around again, are those of the schedule,
numbered.

**Proof sketch.** Compared place by place. The origin of a number is the number counted from
the other end, and reflecting a start twice at the total leads back to it, since the entry ends
by then. -/
theorem turned_numbered {reversal : Reversal}
    (reversedBy : schedule.toProgram.ReversedBy table reversal) :
    (numbered schedule.mirrored.entries).reverse.map
        (Entry.mirrored schedule.total reversal.origin?) = numbered schedule.entries := by
  refine List.ext_getElem (by simp [Schedule.mirrored]) fun id inside inside' => ?_
  have inside : id < schedule.entries.length := by simpa using inside'
  have back : schedule.entries.length - 1 - (schedule.entries.length - 1 - id) = id := by lia
  have origin : reversal.origin? (schedule.entries.length - 1 - id) = some id := by
    rw [← size_toProgram]
    exact reversedBy.origin id (by rwa [size_toProgram])
  have within : schedule.entries[id].stop ≤ schedule.total :=
    stop_le_latestStop (List.getElem_mem inside)
  have start := Entry.start_mirrored_mirrored within
  rw [Entry.stop] at start
  simp only [numbered, Schedule.mirrored, List.getElem_map, List.getElem_reverse,
    List.getElem_mapIdx, List.length_mapIdx, List.length_map, List.length_reverse, back,
    Entry.madeFrom, Entry.mirrored, Entry.stop, Option.bind_some, origin, start]

namespace Tight

/-- Turned around, all entries still use resources, and lead to the end of the schedule. -/
lemma tiles_mirrored (tight : schedule.Tight) :
    Tiles schedule.numResources (fun _ => 0) schedule.mirrored.entries fun _ => schedule.total :=
  (tight.tiles.mirrored (fun _ => none) fun _ _ => le_refl schedule.total).congr
    (fun _ _ => Nat.sub_self _) fun _ _ => Nat.sub_zero _

/-- All of them use resources. -/
lemma touching_mirrored (tight : schedule.Tight) :
    ∀ entry ∈ schedule.mirrored.entries, entry.resources ≠ [] := by
  intro entry member
  obtain ⟨before, found, same⟩ := exists_of_mem_mirrored member
  rw [Entry.resources, same]
  exact tight.touching before found

/-- The mirror image is as long as the schedule. -/
lemma total_mirrored (tight : schedule.Tight) : schedule.mirrored.total = schedule.total :=
  tight.tiles_mirrored.latestStop_congr tight.tiles tight.touching_mirrored tight.touching

/-- The mirror image of a tight schedule is tight.

**Proof sketch.** Reflection changes neither the operations nor the layout, and takes a tiling up to
the total to one (`tiles_mirrored`). -/
theorem mirrored (tight : schedule.Tight) : schedule.mirrored.Tight where
  register := tight.register
  touching := tight.touching_mirrored
  nodup := by
    intro entry member
    obtain ⟨before, found, same⟩ := exists_of_mem_mirrored member
    rw [Entry.resources, same]
    exact tight.nodup before found
  tiles := by
    rw [tight.total_mirrored]
    exact tight.tiles_mirrored

/-- With time running backwards, too, a tight schedule without timesteps is repeated.

**Proof sketch.** The reversal is the program of the mirror image (`reversal_toProgram`), which is
tight and so repeated by the forward pass. Turned around, its numbered entries are those of the
schedule (`turned_numbered`), and without timesteps nothing is shifted. -/
theorem exists_forward_reversed (tight : schedule.Tight) (table : DurationTable)
    (plain : ∀ entry ∈ schedule.entries, entry.operation.isTimestep = false) :
    ∃ again, ((Policy.reversed (.forward table) table).run schedule.toProgram).result = .ok again ∧
      again.layout = schedule.layout ∧ schedule.RepeatedBy again := by
  obtain ⟨resolves, -⟩ := schedule.resolve_toProgram_reverse table
  obtain ⟨inner, ok, -, entries, cached⟩ := tight.mirrored.exists_forward table
  have ran : ((Policy.forward table).run (schedule.toProgram.resolve table
      schedule.toProgram.ids.reverse).reversal.program).result = .ok inner := by
    rw [schedule.reversal_toProgram]
    exact ok
  have known : ∀ entry ∈ inner.entries, ∀ id, entry.source = some id →
      id < schedule.toProgram.size := by
    intro entry member id source
    rw [entries] at member
    obtain ⟨before, place, found, rfl⟩ := exists_of_mem_numbered member
    cases source
    simpa [Schedule.mirrored] using (List.getElem?_eq_some_iff.mp found).1
  obtain ⟨again, ok, layout, cached', turned⟩ :=
    Policy.exists_run_reversed tight.physical resolves ran known
  have duration : inner.duration = schedule.total := by
    rw [duration, cached, Option.getD_some, tight.total_mirrored]
  have plain' : ∀ entry ∈ numbered schedule.entries, entry.operation.isTimestep = false := by
    intro entry member
    obtain ⟨before, _, found, rfl⟩ := exists_of_mem_numbered member
    exact plain before (List.mem_of_getElem? found)
  rw [Reversal.turned, entries, duration, turned_numbered (Program.reversedBy resolves),
    shiftEntries_of_plain 0 plain'] at turned
  refine ⟨again, ok, layout, turned, ?_⟩
  rw [cached', total, turned, latestStop_numbered]
  rfl

end Tight

end Schedule

end Timetable
