import Timetable.Proofs.Program.Durations
import Timetable.Proofs.Tiling
import Timetable.Scheduling.Policy

/-!
# Programs and schedules turned around in time

The reversed program has the operations of the given one in the opposite order, with the durations
they have there, and its dependencies point the other way. A schedule of the reversed program comes
back with its entries in the opposite order and at the opposite places, and then its boundaries
are shifted, which changes nothing if there are none.

## Main definitions

* `Program.flip` — the place of an operation in the opposite order.
* `Program.ReversedBy` — what a reversal has to do with the program it was made from.
* `Reversal.turned` — the entries of a schedule turned around.

## Main results

* `Program.reversedBy` — resolving succeeds with a reversal of the program.
* `Policy.conclude_eq_ok` — the schedule brought back consists of the entries turned around, with
  their boundaries shifted.
* `Policy.run_reversed_eq_ok` — what a successful pass with time running backwards has done.
-/

set_option autoImplicit false

namespace Timetable

/-! ## The reversed program -/

namespace Program

variable {program : Program} {table : DurationTable} {reversal : Reversal}

/-- The place of an operation in the opposite order. -/
def flip (program : Program) (id : OpId) : OpId := program.size - 1 - id

/-- The opposite place is a place. -/
lemma flip_lt {id : OpId} (inside : id < program.size) : program.flip id < program.size := by
  unfold flip
  lia

/-- Turning around twice leads back. -/
lemma flip_flip {id : OpId} (inside : id < program.size) :
    program.flip (program.flip id) = id := by
  unfold flip
  lia

/-- Opposite places are in the opposite order. -/
lemma flip_lt_flip_iff {before after : OpId} (inside : before < program.size)
    (inside' : after < program.size) :
    program.flip after < program.flip before ↔ before < after := by
  unfold flip
  lia

/-- Whatever stands right in front of an opposite place is opposite to what stands right behind the
place. -/
lemma succ_eq_flip_iff {before id : OpId} :
    before + 1 = program.flip id ↔ id + 1 < program.size ∧ before = program.flip (id + 1) := by
  unfold flip
  lia

/-- The reversal has the operations of the program at the opposite places, and knows where they
came from and how long they take in the program. Its dependencies are those of the program turned
around. -/
structure ReversedBy (program : Program) (table : DurationTable) (reversal : Reversal) : Prop where
  layout : reversal.program.layout = program.layout
  size : reversal.program.size = program.size
  operation : ∀ id < program.size,
    reversal.program.operation? (program.flip id) = program.operation? id
  duration : ∀ id < program.size, ∀ other : DurationTable,
    reversal.program.duration? other (program.flip id) = program.duration? table id
  dependencies : reversal.program.dependencies =
    program.dependencies.map fun pair => (program.flip pair.2, program.flip pair.1)
  origin : ∀ id < program.size, reversal.origin? (program.flip id) = some id

/-- Last operation first, every operation stands at the opposite place. -/
lemma reverse_ids (program : Program) : program.ids.reverse = program.ids.map program.flip := by
  refine List.ext_getElem (by simp) fun place smaller _ => ?_
  simp [ids, flip]

/-- Last operation first, the operations are operations of the program. -/
lemma lt_size_of_mem_reverse_ids {id : OpId} (member : id ∈ program.ids.reverse) :
    id < program.size :=
  List.mem_range.mp (List.mem_reverse.mp member)

/-- The list of all operations, last operation first. -/
lemma getElem?_reverse_ids {id : OpId} (inside : id < program.size) :
    program.ids.reverse[program.flip id]? = some id := by
  rw [reverse_ids, List.getElem?_map, ids, List.getElem?_range (flip_lt inside), Option.map_some,
    flip_flip inside]

/-- If all durations are known, resolving all operations from the last one on succeeds. -/
lemma Lasts.reverses {duration : OpId → Tick} (lasts : program.Lasts table duration) :
    (program.resolve table program.ids.reverse).failure = none :=
  (resolve_of_lasts lasts fun _ => lt_size_of_mem_reverse_ids).1

/-- If resolving all operations, last operation first, succeeds, the job at the opposite place of an
operation is its own. -/
lemma exists_job_flip (resolves : (program.resolve table program.ids.reverse).failure = none)
    {id : OpId} (inside : id < program.size) : ∃ job : Job, job.id = id ∧
      (program.resolve table program.ids.reverse).jobs[program.flip id]? = some job := by
  have number := getElem?_reverse_ids inside
  rw [← ids_of_resolve (fun _ => lt_size_of_mem_reverse_ids) resolves, List.getElem?_map,
    Option.map_eq_some_iff] at number
  obtain ⟨job, found, number⟩ := number
  exact ⟨job, number, found⟩

/-- The slots of the reversal hold how long the operations of the program last, and no
anomalies. -/
lemma resolved?_reversal (resolves : (program.resolve table program.ids.reverse).failure = none)
    {id : OpId} (inside : id < program.size) :
    (program.resolve table program.ids.reverse).reversal.program.resolved? (program.flip id) =
      (program.duration? table id).map fun ticks => ⟨ticks, none⟩ := by
  obtain ⟨job, rfl, found⟩ := exists_job_flip resolves inside
  rw [(mem_jobs (List.mem_of_getElem? found)).2.2]
  simp [resolved?, Resolution.reversal, found, Task.known]

/-- Resolving all operations, last operation first, gives a reversal if it succeeds.

**Proof sketch.** A successful resolution has a job for each operation, last operation first. The
place counted from the other end therefore holds the operation, its duration and its number. -/
theorem reversedBy (resolves : (program.resolve table program.ids.reverse).failure = none) :
    program.ReversedBy table (program.resolve table program.ids.reverse).reversal := by
  have same := sameButSlots_resolve program table program.ids.reverse
  have ids_eq := ids_of_resolve (fun _ => lt_size_of_mem_reverse_ids) resolves
  refine ⟨same.layout, ?_, ?_, ?_, ?_, ?_⟩
  · simpa [Resolution.reversal, size, Program.ids] using congrArg List.length ids_eq
  · intro id inside
    obtain ⟨job, rfl, found⟩ := exists_job_flip resolves inside
    rw [(mem_jobs (List.mem_of_getElem? found)).2.1]
    simp [operation?, Resolution.reversal, found, Task.known]
  · intro id inside other
    obtain ⟨job, rfl, found⟩ := exists_job_flip resolves inside
    rw [(mem_jobs (List.mem_of_getElem? found)).2.2]
    simp [duration?, Resolution.reversal, found, Task.known, Task.resolve, Except.toOption]
  · simp only [Resolution.reversal, same.dependencies, same.size, flip]
  · intro id inside
    obtain ⟨job, rfl, found⟩ := exists_job_flip resolves inside
    simp [Reversal.origin?, Resolution.reversal, found]

/-- What is asked of every operation can be asked at the opposite places. -/
lemma exists_flip {place : OpId} (inside : place < program.size) :
    ∃ id < program.size, program.flip id = place :=
  ⟨program.flip place, flip_lt inside, flip_flip inside⟩

namespace ReversedBy

/-- Every operation of the reversal came from one of the program. -/
lemma exists_origin (reversed : program.ReversedBy table reversal) {place : OpId}
    (inside : place < program.size) :
    ∃ id < program.size, reversal.origin? place = some id ∧ place = program.flip id := by
  obtain ⟨id, smaller, rfl⟩ := exists_flip inside
  exact ⟨id, smaller, reversed.origin id smaller, rfl⟩

/-- What came from an operation of the program was made from the one at the opposite place. -/
lemma bind_origin_eq_some_iff (reversed : program.ReversedBy table reversal) {id : OpId}
    (inside : id < program.size) {source : Option OpId}
    (known : ∀ place, source = some place → place < program.size) :
    source.bind reversal.origin? = some id ↔ source = some (program.flip id) := by
  constructor
  · intro origin
    obtain ⟨place, rfl, origin⟩ := Option.bind_eq_some_iff.mp origin
    obtain ⟨other, -, origin', rfl⟩ := reversed.exists_origin (known place rfl)
    rw [Option.some.inj (origin'.symm.trans origin)]
  · rintro rfl
    rw [Option.bind_some, reversed.origin id inside]

/-- The opposite place does not depend on whether the program or its reversal is asked. -/
lemma flip_eq (reversed : program.ReversedBy table reversal) :
    reversal.program.flip = program.flip := by
  funext id
  rw [flip, flip, reversed.size]

/-- The reversal has the operations of the program, last operation first. -/
lemma operations (reversed : program.ReversedBy table reversal) :
    reversal.program.operations = program.operations.reverse := by
  refine List.ext_getElem? fun place => ?_
  rw [← operation?_eq]
  by_cases inside : place < program.size
  · have opposite := reversed.operation (program.flip place) (flip_lt inside)
    rw [flip_flip inside] at opposite
    rw [opposite, operation?_eq, List.getElem?_reverse (by rwa [length_operations]),
      length_operations, flip]
  · rw [operation?_eq_none (reversed.size ▸ inside), List.getElem?_eq_none]
    simpa using inside

/-- The reversal has no other operations than the program. -/
lemma mem_operations (reversed : program.ReversedBy table reversal) {operation : Operation} :
    operation ∈ reversal.program.operations ↔ operation ∈ program.operations := by
  rw [reversed.operations, List.mem_reverse]

/-- The reversal of a closed program is closed. -/
lemma closed (reversed : program.ReversedBy table reversal) (closed : program.Closed) :
    reversal.program.Closed := by
  refine closed.of_subset reversed.layout (fun _ => reversed.mem_operations.mp) ?_
  intro pair member
  rw [reversed.dependencies] at member
  obtain ⟨⟨before, after⟩, known, rfl⟩ := List.mem_map.mp member
  obtain ⟨inside, inside'⟩ := closed.known _ known
  rw [reversed.size]
  exact ⟨flip_lt inside', flip_lt inside⟩

/-- The reversal of a well-formed program is well formed. -/
lemma wellFormed (reversed : program.ReversedBy table reversal)
    (wellFormed : program.WellFormed) : reversal.program.WellFormed :=
  wellFormed.of_subset (reversed.closed wellFormed.toClosed) fun _ => reversed.mem_operations.mp

end ReversedBy

/-- Reversing succeeds exactly if resolving does. -/
lemma reverse_eq_ok {resolution : Resolution}
    (ok : program.reverse table = (resolution, .ok reversal)) :
    resolution = program.resolve table program.ids.reverse ∧ program.ReversedBy table reversal := by
  unfold reverse at ok
  dsimp only at ok
  split at ok
  · cases ok
  · rename_i resolves
    cases ok
    exact ⟨rfl, reversedBy resolves⟩

end Program

/-! ## Bringing a schedule back -/

namespace Reversal

variable {reversal : Reversal} {total : Tick} {entries : List Entry} {program : Program}

/-- The entries of a schedule of the reversed program, turned around in order and in time. -/
def turned (reversal : Reversal) (schedule : Schedule) : List Entry :=
  schedule.entries.reverse.map (Entry.mirrored schedule.duration reversal.origin?)

/-- Writing a slot changes slots only, whatever the slot held. -/
lemma sameButSlots_record? {id : OpId} {ticks held : Tick} {next : Program}
    (recorded : program.record? id ticks = some (held, next)) : next.SameButSlots program := by
  obtain ⟨task, -, same⟩ := Option.map_eq_some_iff.mp recorded
  cases same
  exact Program.sameButSlots_fill _ _ _

/-- Bringing entries back writes slots only.

**Proof sketch.** Induction on the entries. Recording how long an entry lasts fills a slot, and
nothing else is written. -/
lemma sameButSlots_bringBackEntries (reversal : Reversal) (total : Tick) (entries : List Entry)
    (program : Program) :
    (reversal.bringBackEntries total entries program).1.SameButSlots program := by
  induction entries generalizing program with
  | nil => exact .refl _
  | cons entry entries ih =>
    unfold bringBackEntries
    dsimp only
    split
    · exact ih program
    · split
      · exact .refl _
      · split
        · exact .refl _
        · rename_i recorded
          exact (ih _).trans (sameButSlots_record? recorded)

/-- Entries that come back are mirrored.

**Proof sketch.** Induction on the entries. Recording the slots does not change the entries that
come back. -/
lemma bringBackEntries_eq_some {moved : List Entry}
    (back : (reversal.bringBackEntries total entries program).2 = some moved) :
    moved = entries.map (Entry.mirrored total reversal.origin?) := by
  induction entries generalizing program moved with
  | nil =>
    cases back
    rfl
  | cons entry entries ih =>
    unfold bringBackEntries at back
    dsimp only at back
    split at back
    · rename_i source
      obtain ⟨rest, found, rfl⟩ := Option.map_eq_some_iff.mp back
      rw [List.map_cons, ih found, Entry.mirrored, source, Option.bind_none]
    · rename_i source
      split at back
      · cases back
      · rename_i origin
        split at back
        · cases back
        · obtain ⟨rest, found, rfl⟩ := Option.map_eq_some_iff.mp back
          rw [List.map_cons, ih found, Entry.mirrored, source, Option.bind_some, origin]

/-- Entries come back if they were made from operations that came from operations of the
program.

**Proof sketch.** Induction on the entries. Filling a slot leaves the program as large as it was, so
every origin still has one. -/
lemma exists_bringBackEntries (total : Tick) (program : Program)
    (known : ∀ entry ∈ entries, ∀ id, entry.source = some id →
      ∃ origin < program.size, reversal.origin? id = some origin) :
    ∃ moved, (reversal.bringBackEntries total entries program).2 = some moved := by
  induction entries generalizing program with
  | nil => exact ⟨[], rfl⟩
  | cons entry entries ih =>
    have later : ∀ other ∈ entries, ∀ id, other.source = some id →
        ∃ origin < program.size, reversal.origin? id = some origin := fun other member =>
      known other (List.mem_cons_of_mem _ member)
    unfold bringBackEntries
    cases source : entry.source with
    | none =>
      obtain ⟨moved, back⟩ := ih program later
      exact ⟨_, congrArg (Option.map _) back⟩
    | some id =>
      obtain ⟨origin, inside, came⟩ := known entry List.mem_cons_self id source
      have found : program.tasks[origin]? = some program.tasks[origin] :=
        Array.getElem?_eq_getElem inside
      simp only [came, Program.record?, found, Option.map_some]
      obtain ⟨moved, back⟩ := ih (program.fill origin ⟨entry.duration, none⟩)
        (by rwa [(Program.sameButSlots_fill _ _ _).size])
      exact ⟨_, congrArg (Option.map _) back⟩

end Reversal

/-! ## Shifting boundaries -/

/-- Shifting leaves the entries in front of the first boundary where they are. -/
lemma shiftEntries_append {entries : List Entry} (held : Option Entry) (elapsed : Tick)
    (others : List Entry) (plain : ∀ entry ∈ entries, entry.operation.isTimestep = false) :
    shiftEntries held elapsed (entries ++ others) =
      entries ++ shiftEntries held elapsed others := by
  induction entries with
  | nil => rfl
  | cons entry entries ih =>
    have first := plain entry List.mem_cons_self
    have rest := ih fun other member => plain other (List.mem_cons_of_mem _ member)
    cases held <;> simp [shiftEntries, first, rest]

/-- Shifting moves boundaries only. -/
lemma shiftEntries_of_plain {entries : List Entry} (elapsed : Tick)
    (plain : ∀ entry ∈ entries, entry.operation.isTimestep = false) :
    shiftEntries none elapsed entries = entries := by
  simpa [shiftEntries] using shiftEntries_append none elapsed [] plain

/-- A schedule without timesteps has no boundaries. -/
lemma Schedule.timesteps_isEmpty_iff {schedule : Schedule} : schedule.timesteps.isEmpty = true ↔
    ∀ entry ∈ schedule.entries, entry.operation.isTimestep = false := by
  simp [Schedule.timesteps, Operation.isTimestep]

/-! ## The passes with time running backwards -/

namespace Policy

variable {reversal : Reversal} {resolution : Resolution} {inner : Run}

/-- The schedule brought back has the layout of the program and a cached duration, and consists of
the entries turned around, with their boundaries shifted.

**Proof sketch.** The entries that come back are turned around (`bringBackEntries_eq_some`). If
there are timesteps among them they are shifted, and if there are none shifting does nothing. -/
theorem conclude_eq_ok {schedule : Schedule}
    (ok : (conclude reversal resolution inner).result = .ok schedule) :
    ∃ reversed, inner.result = .ok reversed ∧ schedule.layout = resolution.program.layout ∧
      schedule.cached = some schedule.total ∧
      schedule.entries = shiftEntries none 0 (reversal.turned reversed) := by
  unfold conclude at ok
  split at ok
  · cases ok
  · rename_i reversed result
    refine ⟨reversed, result, ?_⟩
    dsimp only [Reversal.bringBack] at ok
    split at ok
    · cases ok
    · rename_i back
      obtain ⟨moved, moved_eq, rfl⟩ := Option.map_eq_some_iff.mp back
      cases ok
      have turned := Reversal.bringBackEntries_eq_some moved_eq
      have layout := (reversal.sameButSlots_bringBackEntries reversed.duration
        reversed.entries.reverse resolution.program).layout
      split
      · rename_i empty
        refine ⟨layout, rfl, ?_⟩
        have none := Schedule.timesteps_isEmpty_iff.mp empty
        rw [turned] at none
        exact turned.trans (shiftEntries_of_plain 0 none).symm
      · exact ⟨layout, rfl, congrArg (shiftEntries none 0) turned⟩

/-- A schedule of the reversed program comes back if its entries were made from operations that
came from operations of the program. -/
lemma exists_conclude {reversed : Schedule} (ok : inner.result = .ok reversed)
    (known : ∀ entry ∈ reversed.entries, ∀ id, entry.source = some id →
      ∃ origin < resolution.program.size, reversal.origin? id = some origin) :
    ∃ schedule, (conclude reversal resolution inner).result = .ok schedule := by
  obtain ⟨moved, back⟩ := Reversal.exists_bringBackEntries reversed.duration resolution.program
    fun entry member => known entry (List.mem_reverse.mp member)
  simp only [conclude, ok, Reversal.bringBack, back, Option.map_some]
  exact ⟨_, rfl⟩

variable {program : Program} {table : DurationTable} {policy : Policy} {schedule : Schedule}

/-- A successful pass with time running backwards has scheduled the reversed program, and gives
the entries of that schedule turned around, with their boundaries shifted.

**Proof sketch.** The cases of the definition. The program is physical and reversed, and the inner
result is concluded (`conclude_eq_ok`). -/
theorem run_reversed_eq_ok (ok : ((reversed policy table).run program).result = .ok schedule) :
    ∃ reversal reversed, program.violation? = none ∧ program.ReversedBy table reversal ∧
      (policy.run reversal.program).result = .ok reversed ∧ schedule.layout = program.layout ∧
      schedule.cached = some schedule.total ∧
      schedule.entries = shiftEntries none 0 (reversal.turned reversed) := by
  unfold run at ok
  split at ok
  · cases ok
  · rename_i physical
    split at ok
    · cases ok
    · rename_i reverses
      obtain ⟨rfl, reversedBy⟩ := Program.reverse_eq_ok reverses
      obtain ⟨reversed, inner, layout, rest⟩ := conclude_eq_ok ok
      refine ⟨_, reversed, physical, reversedBy, inner, layout.trans ?_, rest⟩
      exact (Program.sameButSlots_resolve _ _ _).layout

/-- A pass with time running backwards succeeds if the inner pass does on the reversed program.

**Proof sketch.** Every entry was made from an operation of the reversal, and each of these has an
origin in the program, so all entries come back (`exists_conclude`). -/
lemma exists_run_reversed {reversed : Schedule} (physical : program.violation? = none)
    (resolves : (program.resolve table program.ids.reverse).failure = none)
    (ok : (policy.run (program.resolve table program.ids.reverse).reversal.program).result =
      .ok reversed)
    (known : ∀ entry ∈ reversed.entries, ∀ id, entry.source = some id → id < program.size) :
    ∃ schedule, ((Policy.reversed policy table).run program).result = .ok schedule ∧
      schedule.layout = program.layout ∧ schedule.cached = some schedule.total ∧
      schedule.entries = shiftEntries none 0
        ((program.resolve table program.ids.reverse).reversal.turned reversed) := by
  have reversedBy := Program.reversedBy resolves
  have same := Program.sameButSlots_resolve program table program.ids.reverse
  have comes_back : ∀ entry ∈ reversed.entries, ∀ place, entry.source = some place →
      ∃ id < (program.resolve table program.ids.reverse).program.size,
        (program.resolve table program.ids.reverse).reversal.origin? place = some id := by
    intro entry member place source
    obtain ⟨id, inside, rfl⟩ := Program.exists_flip (known entry member place source)
    exact ⟨id, same.size ▸ inside, reversedBy.origin id inside⟩
  obtain ⟨schedule, concluded⟩ := exists_conclude ok comes_back
  refine ⟨schedule, ?_, ?_⟩
  · unfold run
    simp only [physical, Program.reverse, resolves, concluded]
  · obtain ⟨other, inner, layout, rest⟩ := conclude_eq_ok concluded
    cases ok.symm.trans inner
    exact ⟨layout.trans same.layout, rest⟩

end Policy

end Timetable
