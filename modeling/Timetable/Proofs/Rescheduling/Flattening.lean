import Timetable.Proofs.Precedence.Order
import Timetable.Proofs.Program.Durations
import Timetable.Proofs.Tiling

/-!
# Schedules as programs

The entries of a schedule make a program of their own. It knows its durations whatever table comes,
and nothing depends on anything in it but through common resources, so its operations can be ordered
as they are listed.

## Main definitions

* `Schedule.Tight` — a schedule over one register whose entries tile its time.
* `jobsOf`, `numbered` — the jobs that entries make, and the entries made from these in turn.
* `Schedule.RepeatedBy` — the entries of a schedule, numbered, make another one.

## Main results

* `Schedule.Tight.wellFormed`, `Schedule.Tight.physical` — the program can be scheduled.
* `Schedule.Tight.order` — its order is the order of the entries.
* `Schedule.resolve_toProgram` — the durations come from the entries.
-/

set_option autoImplicit false

namespace Timetable

/-- A schedule over one register without gaps, in which no entry names a resource twice: its
entries, walked in list order, each start where all of their resources have come to, and lead all
declared resources to the latest end of an entry. -/
structure Schedule.Tight (schedule : Schedule) : Prop where
  register : schedule.layout.isPhysical = true
  touching : ∀ entry ∈ schedule.entries, entry.resources ≠ []
  nodup : ∀ entry ∈ schedule.entries, entry.resources.Nodup
  tiles : Tiles schedule.numResources (fun _ => 0) schedule.entries fun _ => schedule.total

/-- The job that an entry makes under a number. -/
def Entry.job (entry : Entry) (id : OpId) : Job := ⟨id, entry.operation, entry.duration⟩

/-- The entry that is made from that job if it is placed where the entry stands. -/
def Entry.madeFrom (entry : Entry) (id : OpId) : Entry := { entry with source := some id }

/-- The jobs that entries make, each with the number of its place. -/
def jobsOf (entries : List Entry) : List Job := entries.mapIdx fun id entry => entry.job id

/-- Entries that were each made from the operation with the number of its place. -/
def numbered (entries : List Entry) : List Entry :=
  entries.mapIdx fun id entry => entry.madeFrom id

/-- A schedule is repeated by one that lists its entries again in the same order, each made from the
operation with the number of its place, and that is as long. -/
structure Schedule.RepeatedBy (schedule again : Schedule) : Prop where
  entries : again.entries = numbered schedule.entries
  cached : again.cached = some schedule.total

/-! ## Numbered entries and jobs -/

section

variable {entries : List Entry} {entry : Entry} {id : OpId}

/-- Numbering entries leaves as many of them. -/
@[simp]
lemma length_numbered (entries : List Entry) : (numbered entries).length = entries.length :=
  List.length_mapIdx

/-- The entry at each place is made from the operation with the number of that place. -/
lemma getElem?_numbered : (numbered entries)[id]? =
    entries[id]?.map fun entry => entry.madeFrom id :=
  List.getElem?_mapIdx

/-- Numbered entries were each made from one of the entries that are numbered. -/
lemma exists_of_mem_numbered (member : entry ∈ numbered entries) :
    ∃ (before : Entry) (id : OpId), entries[id]? = some before ∧ entry = before.madeFrom id := by
  obtain ⟨id, inside, rfl⟩ := List.mem_mapIdx.mp member
  exact ⟨entries[id], id, List.getElem?_eq_getElem inside, rfl⟩

/-- Numbering gives every entry that is added the next number. -/
lemma numbered_concat : numbered (entries ++ [entry]) =
    numbered entries ++ [entry.madeFrom entries.length] := by
  simp [numbered, List.mapIdx_append]

/-- The job of an entry that is added has the next number. -/
lemma jobsOf_concat : jobsOf (entries ++ [entry]) =
    jobsOf entries ++ [entry.job entries.length] := by
  simp [jobsOf, List.mapIdx_append]

/-- What can be read without looking at the numbers that were given to the entries of a list can be
read of the entries themselves. -/
lemma map_mapIdx_of_numberless {α β : Type} (number : OpId → Entry → α) (read : α → β)
    {plain : Entry → β} (numberless : ∀ id entry, read (number id entry) = plain entry)
    (entries : List Entry) : (entries.mapIdx number).map read = entries.map plain := by
  refine List.ext_getElem? fun id => ?_
  rw [List.getElem?_map, List.getElem?_mapIdx, List.getElem?_map, Option.map_map]
  exact Option.map_congr fun entry _ => numberless id entry

/-- Apart from their numbers, jobs say what the entries say. -/
lemma map_jobsOf {α : Type} (made : Operation → Tick → α) (entries : List Entry) :
    (jobsOf entries).map (fun job => made job.operation job.ticks) =
      entries.map fun entry => made entry.operation entry.duration :=
  map_mapIdx_of_numberless (fun id entry => entry.job id) _ (fun _ _ => rfl) entries

/-- Numbering entries does not change when the last of them ends. -/
@[simp]
lemma latestStop_numbered (entries : List Entry) :
    latestStop (numbered entries) = latestStop entries := by
  have stops : (numbered entries).map Entry.stop = entries.map Entry.stop :=
    map_mapIdx_of_numberless (fun id entry => entry.madeFrom id) _ (fun _ _ => rfl) entries
  rw [latestStop, latestStop, stops]

end

/-! ## The operations of the program -/

namespace Schedule

variable {schedule : Schedule} {table : DurationTable} {id : OpId}

/-- The program of a schedule has one operation for each entry. -/
@[simp]
lemma size_toProgram (schedule : Schedule) :
    schedule.toProgram.size = schedule.entries.length := by
  simp [toProgram, Program.size]

/-- The operations of the program of a schedule are those of its entries. -/
lemma operations_toProgram (schedule : Schedule) :
    schedule.toProgram.operations = schedule.entries.map Entry.operation := by
  simp [toProgram, Program.operations, Task.known]

/-- The operation with a number is the one of the entry at that place. -/
lemma operation?_toProgram (schedule : Schedule) (id : OpId) :
    schedule.toProgram.operation? id = schedule.entries[id]?.map Entry.operation := by
  rw [Program.operation?_eq, operations_toProgram, List.getElem?_map]

/-- An operation takes as long as the entry that it was, whatever the table says. -/
lemma duration?_toProgram (schedule : Schedule) (table : DurationTable) (id : OpId) :
    schedule.toProgram.duration? table id = schedule.entries[id]?.map Entry.duration := by
  cases found : schedule.entries[id]? <;>
    simp [toProgram, Program.duration?, found, Task.known, Task.resolve, Except.toOption]

/-- An operation uses the resources of the entry that it was. -/
lemma uses_toProgram {resource : Resource} : schedule.toProgram.uses id resource = true ↔
    ∃ entry, schedule.entries[id]? = some entry ∧ resource ∈ entry.resources := by
  simp only [Program.uses_iff, operation?_toProgram, Option.map_eq_some_iff]
  constructor
  · rintro ⟨_, ⟨entry, found, rfl⟩, used⟩
    exact ⟨entry, found, used⟩
  · rintro ⟨entry, found, used⟩
    exact ⟨_, ⟨entry, found, rfl⟩, used⟩

/-! ## Resolving the program -/

/-- Its durations are known. -/
lemma exists_lasts_toProgram (schedule : Schedule) (table : DurationTable) :
    ∃ duration, schedule.toProgram.Lasts table duration := by
  refine ⟨fun id => (schedule.entries[id]?.map Entry.duration).getD 0, fun id inside => ?_⟩
  rw [size_toProgram] at inside
  simp [duration?_toProgram, List.getElem?_eq_getElem inside]

/-- Resolving the operations in program order succeeds, and gives the jobs of the entries.

**Proof sketch.** All durations are known, since each slot holds the duration of its entry. So the
jobs have the numbers of the operations in program order, and the job at each place has the
operation and the duration of the entry there. -/
theorem resolve_toProgram (schedule : Schedule) (table : DurationTable) :
    (schedule.toProgram.resolve table schedule.toProgram.ids).failure = none ∧
      (schedule.toProgram.resolve table schedule.toProgram.ids).jobs = jobsOf schedule.entries := by
  have known : ∀ id ∈ schedule.toProgram.ids, id < schedule.toProgram.size := fun id member =>
    List.mem_range.mp member
  obtain ⟨duration, lasts⟩ := schedule.exists_lasts_toProgram table
  obtain ⟨resolves, -⟩ := Program.resolve_of_lasts lasts known
  refine ⟨resolves, List.ext_getElem? fun place => ?_⟩
  have ids := Program.ids_of_resolve known resolves
  rw [jobsOf, List.getElem?_mapIdx]
  cases found : (schedule.toProgram.resolve table schedule.toProgram.ids).jobs[place]? with
  | none =>
    have length : (schedule.toProgram.resolve table schedule.toProgram.ids).jobs.length =
        schedule.entries.length := by
      have numbers : schedule.toProgram.ids.length = schedule.entries.length := by
        simp [Program.ids]
      rw [← numbers, ← congrArg List.length ids, List.length_map]
    rw [List.getElem?_eq_none_iff, length, ← List.getElem?_eq_none_iff] at found
    rw [found, Option.map_none]
  | some job =>
    have number := Program.getElem?_ids_of_resolve known resolves found
    obtain ⟨inside, rfl⟩ : ∃ _ : place < schedule.toProgram.size, place = job.id := by
      simpa [Program.ids] using List.getElem?_eq_some_iff.mp number
    obtain ⟨-, operation, ticks⟩ := Program.mem_jobs (List.mem_of_getElem? found)
    rw [operation?_toProgram, Option.map_eq_some_iff] at operation
    obtain ⟨entry, at_place, operation⟩ := operation
    rw [duration?_toProgram, at_place, Option.map_some, Option.some_inj] at ticks
    rw [at_place, Option.map_some, Entry.job, operation, ticks]

/-- Last operation first, too. -/
lemma resolve_toProgram_reverse (schedule : Schedule) (table : DurationTable) :
    (schedule.toProgram.resolve table schedule.toProgram.ids.reverse).failure = none ∧
      (schedule.toProgram.resolve table schedule.toProgram.ids.reverse).jobs =
        (jobsOf schedule.entries).reverse := by
  have known : ∀ id ∈ schedule.toProgram.ids, id < schedule.toProgram.size := fun id member =>
    List.mem_range.mp member
  obtain ⟨duration, lasts⟩ := schedule.exists_lasts_toProgram table
  obtain ⟨-, jobs⟩ := Program.resolve_of_lasts lasts known
  obtain ⟨resolves, reversed⟩ := Program.resolve_of_lasts lasts
    fun id member => known id (List.mem_reverse.mp member)
  rw [reversed, List.filterMap_reverse, ← jobs, (schedule.resolve_toProgram table).2]
  exact ⟨resolves, rfl⟩

/-! ## Tight schedules -/

namespace Tight

/-- The program of a tight schedule uses declared resources, and every operation some.

**Proof sketch.** A tiling uses declared resources only, every entry of a tight schedule uses some,
and the program of a schedule has no explicit dependencies. -/
theorem wellFormed (tight : schedule.Tight) : schedule.toProgram.WellFormed := by
  refine ⟨⟨fun operation member resource used => ?_, fun pair member => by cases member⟩,
    fun operation member => ?_⟩
  · rw [operations_toProgram] at member
    obtain ⟨entry, among, rfl⟩ := List.mem_map.mp member
    exact tight.tiles.declared among used
  · rw [operations_toProgram] at member
    obtain ⟨entry, among, rfl⟩ := List.mem_map.mp member
    exact tight.touching entry among

/-- The program of a tight schedule is physical.

**Proof sketch.** A tight schedule has one register, and none of its entries names a resource
twice. -/
theorem physical (tight : schedule.Tight) : schedule.toProgram.violation? = none := by
  refine Program.violation?_eq_none_iff.mpr ⟨tight.register, fun operation member => ?_⟩
  rw [operations_toProgram] at member
  obtain ⟨entry, among, rfl⟩ := List.mem_map.mp member
  exact tight.nodup entry among

/-- Predecessors are listed before. -/
lemma lt_of_edge (tight : schedule.Tight) {before after : OpId}
    (edge : schedule.toProgram.precedence.Edge before after) : before < after := by
  obtain ⟨-, shared | known⟩ := Program.edge_iff.mp edge
  · exact Program.lt_of_mem_resourcePreds (fun _ => Program.nodup_of_physical tight.physical) shared
  · cases known

/-- The operations are ordered as they are listed.

**Proof sketch.** There are no explicit dependencies, so precedence agrees with program order, and
`Precedence.order_eq_range` applies. -/
theorem order (tight : schedule.Tight) :
    schedule.toProgram.precedence.order = .ok schedule.toProgram.ids := by
  have sound := tight.wellFormed.toClosed.precedence_sound
  rw [Precedence.order_eq_range sound tight.lt_of_edge, Program.size_precedence]
  rfl

end Tight

end Schedule

end Timetable
