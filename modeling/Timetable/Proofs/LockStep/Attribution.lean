import Timetable.Proofs.Carried
import Timetable.Proofs.Conservation
import Timetable.Proofs.LockStep.Dividing
import Timetable.Proofs.LockStep.Structure

/-!
# Timesteps that keep their order

A program that contains timesteps on all resources is scheduled in lock step around them. As soon as
possible, every timestep closes the step that completes whatever stands in front of it, and only one
that has another timestep right in front of it, or nothing at all, closes an empty step. As late as
possible the same holds unless two timesteps stand next to each other. Then these come in the
opposite order, so that the empty step is closed by the wrong one.

## Main definitions

* `Program.marks` — the timesteps among the sources of some entries.
* `Program.TimestepsSpan` — all timesteps of a program are on all resources.
* `Program.TimestepsApart` — there is something else between any two of them.
* `Program.Marked` — every timestep closes the step that it belongs to.

## Main results

* `Program.LockStepRun.divided` — timesteps on all resources divide the workload of a program.
* `Program.LockStepRun.sources_turned` — the operations of a run, turned around.
* `Program.lockStep_marks` — whether timesteps keep their order, in both directions of time.
-/

set_option autoImplicit false

namespace Timetable

namespace Program

/-- Whether an operation is a timestep. -/
def isTimestep (program : Program) (id : OpId) : Bool :=
  (program.operation? id).any Operation.isTimestep

/-- All timesteps of the program are on all resources. -/
def TimestepsSpan (program : Program) : Prop :=
  ∀ operation ∈ program.operations, operation.isTimestep = true →
    ∀ resource < program.numResources, resource ∈ operation.resources

/-- No two timesteps of the program stand next to each other. -/
def TimestepsApart (program : Program) : Prop :=
  ∀ id, program.isTimestep id = true → program.isTimestep (id + 1) = false

/-- If one of two operations is a timestep, the earlier one stands in front of the later one. -/
def InTurn (program : Program) (earlier later : OpId) : Prop :=
  program.isTimestep earlier = true ∨ program.isTimestep later = true → earlier < later

/-- The timesteps of the program that some entries were made from, in the order of the entries. -/
def marks (program : Program) (entries : List Entry) : List OpId :=
  (entries.filterMap Entry.source).filter program.isTimestep

/-- Every timestep of the program closes a step, with all operations in front of it before its
boundary and all operations behind it after that. The step is empty exactly if there is no other
operation between this timestep and the one before it, or the start of the program. -/
structure Marked (program : Program) (groups : List Group) : Prop where
  inTurn : ((groups.flatMap Group.toList).filterMap Entry.source).Pairwise program.InTurn
  closes : ∀ id, program.isTimestep id = true ↔ ∃ group ∈ groups, group.boundary.source = some id
  empty_iff : ∀ group ∈ groups, ∀ id, group.boundary.source = some id →
    (group.entries = [] ↔ ∀ before, before + 1 = id → program.isTimestep before = true)

variable {program : Program} {table : DurationTable} {rule : DelayRule} {side : CarriedSide}
  {last : Grouping} {groups : List Group} {entries : List Entry} {reversal : Reversal} {id : OpId}
  {settings : Settings} {schedule : Schedule} {stop : Tick}

/-! ## The timesteps of a program -/

/-- A timestep has a number. -/
lemma lt_size_of_isTimestep (timestep : program.isTimestep id = true) : id < program.size := by
  obtain ⟨_, found, -⟩ := (Option.any_eq_true _ _).mp timestep
  exact lt_size_of_operation? found

/-- The workload of a program has the same timesteps. -/
lemma isTimestep_workload_eq (resolves : (program.resolve table program.ids).failure = none)
    (id : OpId) : (program.workload table rule side).isTimestep id = program.isTimestep id := by
  unfold Workload.isTimestep isTimestep
  cases found : (program.workload table rule side).jobs[id]? with
  | none =>
    have outside := Array.getElem?_eq_none_iff.mp found
    rw [size_workload resolves] at outside
    rw [operation?_eq_none (Nat.not_lt_of_le outside), Option.any_none, Option.any_none]
  | some job => rw [(job_of_workload resolves found).2.1, Option.any_some, Option.any_some]

/-- The timesteps of a reversal are those of the program, at the opposite places. -/
lemma ReversedBy.isTimestep_flip (reversed : program.ReversedBy table reversal)
    (inside : id < program.size) :
    reversal.program.isTimestep (program.flip id) = program.isTimestep id := by
  rw [isTimestep, reversed.operation id inside, isTimestep]

/-- The timesteps of a reversal are on all resources if those of the program are. -/
lemma ReversedBy.timestepsSpan (reversed : program.ReversedBy table reversal)
    (spanning : program.TimestepsSpan) : reversal.program.TimestepsSpan := by
  intro operation member timestep resource declared
  refine spanning operation (reversed.mem_operations.mp member) timestep resource ?_
  rwa [numResources, reversed.layout] at declared

/-- If timesteps stand apart, they do so at the opposite places. -/
lemma TimestepsApart.of_flip (apart : program.TimestepsApart) {other : Program}
    (size : other.size = program.size)
    (opposite : ∀ id < program.size,
      other.isTimestep (program.flip id) = program.isTimestep id) : other.TimestepsApart := by
  intro place here
  refine Bool.eq_false_iff.mpr fun there => ?_
  have inside : place + 1 < program.size := size ▸ lt_size_of_isTimestep there
  have inside' : place < program.size := place.lt_succ_self.trans inside
  have behind : program.flip (place + 1) + 1 = program.flip place :=
    succ_eq_flip_iff.mpr ⟨inside, rfl⟩
  rw [← flip_flip inside, opposite _ (flip_lt inside)] at there
  rw [← flip_flip inside', opposite _ (flip_lt inside'), ← behind] at here
  exact Bool.false_ne_true ((apart _ there).symm.trans here)

/-- The timesteps of a reversal stand apart exactly if those of the program do. -/
lemma ReversedBy.timestepsApart_iff (reversed : program.ReversedBy table reversal) :
    reversal.program.TimestepsApart ↔ program.TimestepsApart := by
  refine ⟨fun apart => ?_, fun apart => ?_⟩
  · refine apart.of_flip reversed.size.symm fun place inside => ?_
    rw [reversed.size] at inside
    rw [flip, reversed.size, ← flip, ← reversed.isTimestep_flip (flip_lt inside),
      flip_flip inside]
  · exact apart.of_flip reversed.size fun id inside => reversed.isTimestep_flip inside

/-- Timesteps are in their order exactly if this holds for any two of them. -/
lemma pairwise_marks_iff : (program.marks entries).Pairwise (· < ·) ↔
    (entries.filterMap Entry.source).Pairwise fun earlier later =>
      program.isTimestep earlier = true → program.isTimestep later = true → earlier < later :=
  List.pairwise_filter

/-- If every timestep closes the step that it belongs to, timesteps are in their order. -/
lemma Marked.pairwise_marks (marked : program.Marked groups) :
    (program.marks (groups.flatMap Group.toList)).Pairwise (· < ·) :=
  pairwise_marks_iff.mpr (marked.inTurn.imp fun in_turn timestep _ => in_turn (.inl timestep))

/-- A timestep on all resources shares a resource with any other operation. -/
lemma WellFormed.exists_shared (wellFormed : program.WellFormed)
    (spanning : program.TimestepsSpan) (timestep : program.isTimestep id = true) {other : OpId}
    (inside : other < program.size) :
    ∃ resource, program.uses id resource ∧ program.uses other resource := by
  obtain ⟨operation, found, timestep⟩ := (Option.any_eq_true _ _).mp timestep
  obtain ⟨_, found'⟩ := Option.isSome_iff_exists.mp (operation?_isSome_iff.mpr inside)
  have member := mem_operations_of_operation? found'
  obtain ⟨resource, used⟩ := List.exists_mem_of_ne_nil _ (wellFormed.touching _ member)
  have declared := wellFormed.declared _ member resource used
  have spans := spanning operation (mem_operations_of_operation? found) timestep resource declared
  exact ⟨resource, uses_iff.mpr ⟨operation, found, spans⟩, uses_iff.mpr ⟨_, found', used⟩⟩

/-- If the entries of groups conserve the program, the boundaries are what is made of timesteps.

**Proof sketch.** Something is made of every operation, and it is a timestep exactly if the
operation is one. In groups that follow each other, the timesteps are the boundaries, since their
other entries are plain. -/
lemma Conserved.isTimestep_iff
    (conserved : program.Conserved table (Operation.KeptInLockStep program.numResources)
      (groups.flatMap Group.toList))
    (stepped : LockStepped program.numResources 0 groups stop) (id : OpId) :
    program.isTimestep id = true ↔ ∃ group ∈ groups, group.boundary.source = some id := by
  constructor
  · intro timestep
    obtain ⟨operation, ticks, found, -, kept⟩ := conserved.kept id (lt_size_of_isTimestep timestep)
    rw [isTimestep, found, Option.any_some] at timestep
    obtain ⟨part, made⟩ := List.exists_mem_of_ne_nil _ kept.ne_nil
    have marks := (kept.isTimestep_eq part made).trans timestep
    obtain ⟨member, source⟩ := mem_partsOf.mp made
    obtain ⟨group, among, member⟩ := List.mem_flatMap.mp member
    refine ⟨group, among, ?_⟩
    rcases List.mem_append.mp member with inside | boundary
    · obtain ⟨_, _, spans⟩ := stepped.exists_spans group among
      rw [(spans.plain part inside).1] at marks
      cases marks
    · rwa [← List.mem_singleton.mp boundary]
  · rintro ⟨group, among, source⟩
    have member : group.boundary ∈ groups.flatMap Group.toList :=
      List.mem_flatMap.mpr ⟨group, among, List.mem_append_right _ (List.mem_singleton_self _)⟩
    obtain ⟨operation, ticks, found, -, kept⟩ :=
      conserved.kept id (conserved.known _ member id source)
    obtain ⟨_, _, spans⟩ := stepped.exists_spans group among
    have same := kept.isTimestep_eq _ (mem_partsOf.mpr ⟨member, source⟩)
    rw [isTimestep, found, Option.any_some, ← same, spans.isTimestep_boundary]

/-! ## The timesteps of a run -/

namespace LockStepRun

/-- Timesteps on all resources divide the workload of a program.

**Proof sketch.** A timestep uses all declared resources, and any other operation uses one of them.
So the two share a resource, and the one with the lower number comes first. -/
theorem divided (run : program.LockStepRun table rule side last) (wellFormed : program.WellFormed)
    (spanning : program.TimestepsSpan) : (program.workload table rule side).Divided := by
  refine ⟨run.sound, fun {before after} smaller inside either => ?_⟩
  rw [isTimestep_workload_eq run.resolves, isTimestep_workload_eq run.resolves] at either
  rw [run.size_eq] at inside
  rcases either with timestep | timestep
  · obtain ⟨resource, uses, uses'⟩ := wellFormed.exists_shared spanning timestep inside
    exact transGen_edge_of_uses smaller uses uses'
  · obtain ⟨resource, uses', uses⟩ :=
      wellFormed.exists_shared spanning timestep (smaller.trans inside)
    exact transGen_edge_of_uses smaller uses uses'

/-- A run has everything in turn if no timesteps stand next to each other, or if timesteps close
their steps. -/
lemma attributing (run : program.LockStepRun table rule side last)
    (divided : (program.workload table rule side).Divided)
    (apart : side = .opening → program.TimestepsApart) :
    Grouping.Attributing (program.workload table rule side) last := by
  refine .run divided run.runs (.start divided fun opening id neighbors => ?_)
  obtain ⟨-, -, here, there⟩ := neighbors
  rw [isTimestep_workload_eq run.resolves] at here there
  exact Bool.false_ne_true ((apart opening id here).symm.trans there)

/-- As soon as possible, the operations of a run are those that its entries were made from. -/
lemma sources_entries (work : Workload) (closing : work.side = .closing) (last : Grouping) :
    last.sources work = last.entries.filterMap Entry.source := by
  rw [Grouping.sources, closing, Grouping.entries, List.filterMap_flatMap]
  rfl

/-- As soon as possible, every timestep closes the step that it belongs to. -/
lemma marked (run : program.LockStepRun table rule .closing last)
    (attributing : Grouping.Attributing (program.workload table rule .closing) last) :
    program.Marked last.groups := by
  have same (id : OpId) : (program.workload table rule .closing).isTimestep id =
      program.isTimestep id := isTimestep_workload_eq run.resolves id
  refine ⟨?_, run.conserved.isTimestep_iff run.stepped, fun group member id source => ?_⟩
  · have inTurn := attributing.turns.pairwise
    rw [sources_entries _ rfl] at inTurn
    refine inTurn.imp fun in_turn either => in_turn ?_
    rwa [same, same]
  · have marks : group.entries = [] ↔ ∀ before, before + 1 = id →
        (program.workload table rule .closing).isTimestep before = true :=
      attributing.attributes group member id source
    simpa only [same] using marks

end LockStepRun

/-! ## Runs turned around -/

/-- Turned around, an entry was made from the operation at the opposite place. -/
lemma ReversedBy.source_mirrored (reversed : program.ReversedBy table reversal) {entry : Entry}
    (known : ∀ place, entry.source = some place → place < program.size) (total : Tick) :
    (entry.mirrored total reversal.origin?).source = entry.source.map program.flip := by
  show entry.source.bind reversal.origin? = entry.source.map program.flip
  cases source : entry.source with
  | none => rfl
  | some place =>
    obtain ⟨id, inside, origin, rfl⟩ := reversed.exists_origin (known place source)
    rw [Option.bind_some, Option.map_some, origin, flip_flip inside]

/-- Turned around, a group has the operations at the opposite places in the opposite order.

**Proof sketch.** The entries of the group come in the opposite order, each with its number turned
(`ReversedBy.source_mirrored`). The boundary, which stands in front of the entries when it opens the
group, stands behind them afterwards. -/
lemma ReversedBy.sources_mirrored (reversed : program.ReversedBy table reversal) {group : Group}
    (known : ∀ entry ∈ group.toList, ∀ place, entry.source = some place → place < program.size)
    (total : Tick) :
    (((group.stamped .opening).mirrored total reversal.origin?).toList).filterMap Entry.source =
      (group.sources .opening).reverse.map program.flip := by
  have entries : (group.entries.reverse.map (Entry.mirrored total reversal.origin?)).filterMap
      Entry.source = (group.entries.filterMap Entry.source).reverse.map program.flip := by
    rw [List.filterMap_map, ← List.filterMap_reverse, List.map_filterMap]
    refine List.filterMap_congr fun entry member => ?_
    exact reversed.source_mirrored
      (known entry (List.mem_append_left _ (List.mem_reverse.mp member))) total
  have boundary : ((group.stamped .opening).boundary.mirrored total reversal.origin?).source =
      group.boundary.source.map program.flip :=
    reversed.source_mirrored
      (known group.boundary (List.mem_append_right _ (List.mem_singleton_self _))) total
  have opened : group.sources .opening =
      group.boundary.source.toList ++ group.entries.filterMap Entry.source :=
    group.sources_eq .opening
  have singleton : (group.boundary.source.map program.flip).toList =
      group.boundary.source.toList.reverse.map program.flip := by
    cases group.boundary.source <;> rfl
  rw [Group.toList, List.filterMap_append, filterMap_source_singleton, opened, List.reverse_append,
    List.map_append, ← singleton, ← boundary, ← entries]
  rfl

namespace LockStepRun

variable (run : reversal.program.LockStepRun table rule .opening last)
  (reversed : program.ReversedBy table reversal)

include run reversed

/-- A run of a reversal makes entries of operations that the program has too. -/
lemma lt_size_of_source {group : Group} (among : group ∈ last.groups) {entry : Entry}
    (member : entry ∈ group.toList) (source : entry.source = some id) : id < program.size := by
  have known := (run.grouped.led group among).known entry member id source
  rwa [run.size_eq, reversed.size] at known

/-- Whatever it has written are operations of the program. -/
lemma lt_size_of_mem_sources
    (member : id ∈ last.sources (reversal.program.workload table rule .opening)) :
    id < program.size := by
  obtain ⟨group, among, member⟩ := List.mem_flatMap.mp member
  obtain ⟨entry, inside, source⟩ := List.mem_filterMap.mp member
  refine run.lt_size_of_source reversed among ?_ source
  rcases List.mem_cons.mp inside with boundary | inside
  · exact List.mem_append_right _ (List.mem_singleton.mpr boundary)
  · exact List.mem_append_left _ inside

/-- As late as possible, the operations of a run are written at the opposite places and in the
opposite order.

**Proof sketch.** The groups come in the opposite order, and so do the operations of each of them
(`ReversedBy.sources_mirrored`). -/
theorem sources_turned : ((last.turned reversal).flatMap Group.toList).filterMap Entry.source =
    (last.sources (reversal.program.workload table rule .opening)).reverse.map program.flip := by
  rw [Grouping.turned, Grouping.sources, List.flatMap_map, List.filterMap_flatMap,
    List.reverse_flatMap, List.map_flatMap]
  refine List.flatMap_congr fun group member => ?_
  exact reversed.sources_mirrored (fun entry inside place source =>
    run.lt_size_of_source reversed (List.mem_reverse.mp member) inside source) last.elapsed

/-- Turned around, all operations that were written stand in some relation to those behind them
exactly if the opposite ones did. -/
lemma pairwise_turned {before after : OpId → OpId → Prop}
    (opposite : ∀ {earlier later}, earlier < program.size → later < program.size →
      (after (program.flip later) (program.flip earlier) ↔ before earlier later)) :
    (((last.turned reversal).flatMap Group.toList).filterMap Entry.source).Pairwise after ↔
      (last.sources (reversal.program.workload table rule .opening)).Pairwise before := by
  rw [run.sources_turned reversed, List.pairwise_map, List.pairwise_reverse]
  exact List.Pairwise.iff_of_mem fun earlier later =>
    opposite (run.lt_size_of_mem_sources reversed earlier)
      (run.lt_size_of_mem_sources reversed later)

/-- The workload of a reversal has the timesteps of the program at the opposite places. -/
lemma isTimestep_flip (inside : id < program.size) :
    (reversal.program.workload table rule .opening).isTimestep id =
      program.isTimestep (program.flip id) := by
  rw [isTimestep_workload_eq run.resolves, ← reversed.isTimestep_flip (flip_lt inside),
    flip_flip inside]

/-- As late as possible, timesteps keep their order exactly if those of the run do. -/
lemma pairwise_marks_turned :
    (program.marks ((last.turned reversal).flatMap Group.toList)).Pairwise (· < ·) ↔
      (last.sources (reversal.program.workload table rule .opening)).Pairwise fun earlier later =>
        (reversal.program.workload table rule .opening).isTimestep earlier = true →
          (reversal.program.workload table rule .opening).isTimestep later = true →
            earlier < later := by
  refine pairwise_marks_iff.trans (run.pairwise_turned reversed fun inside inside' => ?_)
  rw [run.isTimestep_flip reversed inside, run.isTimestep_flip reversed inside',
    flip_lt_flip_iff inside inside']
  exact forall_comm

/-- As late as possible, every timestep closes the step that it belongs to, if it opened that step
in the run.

**Proof sketch.** Turning a run around turns the order of its operations and the order of their
numbers, so what was in turn is in turn again (`pairwise_turned`). A group is empty exactly if it
was before, and then the neighbor of its timestep on the one side is the opposite of the neighbor on
the other side. -/
lemma marked_turned
    (stepped : LockStepped program.numResources 0 (last.turned reversal) last.elapsed)
    (attributing : Grouping.Attributing (reversal.program.workload table rule .opening) last) :
    program.Marked (last.turned reversal) := by
  refine ⟨?_, (run.conserved_turned reversed stepped).isTimestep_iff stepped, ?_⟩
  · refine (run.pairwise_turned reversed fun inside inside' => ?_).mpr attributing.turns.pairwise
    unfold InTurn Workload.InTurn
    rw [run.isTimestep_flip reversed inside, run.isTimestep_flip reversed inside',
      flip_lt_flip_iff inside inside', or_comm]
  · intro group member id source
    obtain ⟨old, among, rfl⟩ := List.mem_map.mp member
    have among := List.mem_reverse.mp among
    have known (place : OpId) (source : old.boundary.source = some place) :=
      run.lt_size_of_source reversed among
        (List.mem_append_right _ (List.mem_singleton_self _)) source
    have came : old.boundary.source.map program.flip = some id :=
      (reversed.source_mirrored known last.elapsed).symm.trans source
    obtain ⟨place, from_place, rfl⟩ := Option.map_eq_some_iff.mp came
    have marks := attributing.attributes old among place from_place
    have entries : ((old.stamped .opening).mirrored last.elapsed reversal.origin?).entries = [] ↔
        old.entries = [] := by
      simp [Group.mirrored, Group.stamped]
    refine (entries.trans marks).trans ⟨fun next before behind => ?_, fun all inside => ?_⟩
    · obtain ⟨inside, rfl⟩ := succ_eq_flip_iff.mp behind
      rw [← run.isTimestep_flip reversed inside]
      refine next ?_
      rwa [run.size_eq, reversed.size]
    · rw [run.size_eq, reversed.size] at inside
      rw [run.isTimestep_flip reversed inside]
      exact all _ (succ_eq_flip_iff.mpr ⟨inside, rfl⟩)

/-- As late as possible, timesteps that stand next to each other do not keep their order.

**Proof sketch.** Otherwise two timesteps stand next to each other in the reversal as well. Both are
left when the run begins, so its sources are not in turn (`not_pairwise_sources`), and neither are
the marks of the schedule. -/
lemma timestepsApart_of_marks
    (divided : (reversal.program.workload table rule .opening).Divided)
    (ordered : (program.marks ((last.turned reversal).flatMap Group.toList)).Pairwise (· < ·)) :
    program.TimestepsApart := by
  refine reversed.timestepsApart_iff.mp fun place here => Bool.eq_false_iff.mpr fun there => ?_
  have left : ∀ id < reversal.program.size, id ∈ (Grouping.start
      (reversal.program.workload table rule .opening)).residual.pending := fun id inside =>
    List.mem_range.mpr (by rwa [run.sound.size, run.size_eq])
  have inside := lt_size_of_isTimestep there
  have neighbors : (reversal.program.workload table rule .opening).Neighbors
      (Grouping.start (reversal.program.workload table rule .opening)).residual place := by
    refine ⟨left place (place.lt_succ_self.trans inside), left _ inside, ?_, ?_⟩
    · rwa [isTimestep_workload_eq run.resolves]
    · rwa [isTimestep_workload_eq run.resolves]
  exact divided.not_pairwise_sources rfl run.runs run.sound.inOrder_start neighbors
    ((run.pairwise_marks_turned reversed).mp ordered)

end LockStepRun

/-! ## Lock-step schedules -/

/-- **Attribution.** Whatever program with timesteps on all resources was built, in a schedule in
lock step these timesteps keep their order, unless the schedule is as late as possible and two of
them stand next to each other. If they keep their order, each of them closes the step that completes
the operations in front of it, and closes an empty step exactly if there are no operations between
the timestep before and itself.

**Proof sketch.** Timesteps on all resources divide the workload (`LockStepRun.divided`). Forward,
everything that is written is in turn and every boundary is where it belongs
(`LockStepRun.attributing`), so the timesteps are marked and keep their order. As late as possible
the same holds of the run on the reversal if no two timesteps stand next to each other, and is
turned around (`LockStepRun.marked_turned`); if two do, the run writes the second one in front of
the first (`LockStepRun.timestepsApart_of_marks`). -/
theorem lockStep_marks (built : program.Built) (spanning : program.TimestepsSpan)
    (method : settings.method = "asap_timestep" ∨ settings.method = "alap_timestep")
    (ok : (program.schedule table settings).result = .ok schedule) :
    ∃ groups, schedule.entries = groups.flatMap Group.toList ∧
      InLockStep program.numResources 0 groups ∧
      ((program.marks schedule.entries).Pairwise (· < ·) ↔
        (settings.method = "alap_timestep" → program.TimestepsApart)) ∧
      ((program.marks schedule.entries).Pairwise (· < ·) → program.Marked groups) := by
  have wellFormed := built.wellFormed
  obtain ⟨policy, offered, ok⟩ := schedule_eq_ok ok
  generalize settings.method = name at offered method
  cases offered with
  | asap | alap => simp at method
  | asapTimestep rule =>
    obtain ⟨last, anomalies, run, rfl⟩ := lockStep_run wellFormed ok
    have divided := run.divided wellFormed spanning
    have marked := run.marked (run.attributing divided nofun)
    exact ⟨last.groups, rfl, run.inLockStep.1, iff_of_true marked.pairwise_marks (by simp),
      fun _ => marked⟩
  | alapTimestep rule =>
    obtain ⟨reversal, last, -, reversed, run, -, entries, stepped, -⟩ :=
      Policy.lockStep_reversed_run wellFormed ok
    have divided := run.divided (reversed.wellFormed wellFormed) (reversed.timestepsSpan spanning)
    have marked (apart : program.TimestepsApart) : program.Marked (last.turned reversal) :=
      run.marked_turned reversed stepped
        (run.attributing divided fun _ => reversed.timestepsApart_iff.mpr apart)
    have apart (ordered : (program.marks schedule.entries).Pairwise (· < ·)) :
        program.TimestepsApart := run.timestepsApart_of_marks reversed divided (entries ▸ ordered)
    refine ⟨last.turned reversal, entries, (stepped.inLockStep (run.led_turned reversed)).1,
      ⟨fun ordered _ => apart ordered, fun apart => ?_⟩, fun ordered => marked (apart ordered)⟩
    rw [entries]
    exact (marked (apart rfl)).pairwise_marks

/-- As late as possible, the two timesteps of a lock-step schedule that is taken for a program close
the steps of their gates. -/
theorem lockStep_marks_twoSteps : twoSteps.TimestepsSpan ∧ ∃ schedule groups,
    (twoSteps.schedule .empty { method := "alap_timestep" }).result = .ok schedule ∧
      schedule.entries = groups.flatMap Group.toList ∧ twoSteps.marks schedule.entries = [1, 3] ∧
      twoSteps.TimestepsApart ∧ twoSteps.Marked groups := by
  have spanning : twoSteps.TimestepsSpan := by
    unfold TimestepsSpan
    decide
  obtain ⟨schedule, ok, marks⟩ : ∃ schedule,
      (twoSteps.schedule .empty { method := "alap_timestep" }).result = .ok schedule ∧
        twoSteps.marks schedule.entries = [1, 3] := ⟨_, rfl, rfl⟩
  obtain ⟨groups, entries, -, iff_apart, marked⟩ :=
    lockStep_marks built_twoSteps spanning (.inr rfl) ok
  have ordered : (twoSteps.marks schedule.entries).Pairwise (· < ·) := by
    rw [marks]
    decide
  exact ⟨spanning, schedule, groups, ok, entries, marks, iff_apart.mp ordered rfl, marked ordered⟩

/-- A gate with two timesteps behind it. -/
def twoMarks : Program where
  name := "marks"
  layout := .physical 1
  tasks := #[⟨.gate "x" [0], none⟩, ⟨.timestep 7 [0], none⟩, ⟨.timestep 0 [0], none⟩]

/-- As late as possible, the second of two timesteps closes the step of the gate in front of both,
and the first one closes the empty step behind that. -/
theorem lockStep_swaps_twoMarks : twoMarks.Built ∧ twoMarks.violation? = none ∧ twoMarks.Acyclic ∧
    twoMarks.TimestepsSpan ∧ ∃ asap alap,
      (twoMarks.schedule (.ofList [("x", [0], 2)]) { method := "asap_timestep" }).result =
        .ok asap ∧
      (twoMarks.schedule (.ofList [("x", [0], 2)]) { method := "alap_timestep" }).result =
        .ok alap ∧
      twoMarks.marks asap.entries = [1, 2] ∧
      alap.entries = [⟨.gate "x" [0], 0, 2, some 0⟩, .boundary 2 [0] 2 (some 2),
        .boundary 0 [0] 2 (some 1)] ∧
      ¬(twoMarks.marks alap.entries).Pairwise (· < ·) := by
  have first := @Built.push _ _ (.gate "x" [0]) (.empty "marks" (.physical 1)) rfl
  have second := @Built.push _ _ (.timestep 7 [0]) first rfl
  have built : twoMarks.Built := @Built.push _ _ (.timestep 0 [0]) second rfl
  have acyclic := acyclic_of_order built.wellFormed.toClosed rfl
    (rfl : twoMarks.precedence.order = .ok _)
  refine ⟨built, rfl, acyclic, ?_, _, _, rfl, rfl, rfl, rfl, ?_⟩
  · unfold TimestepsSpan
    decide
  · exact (by decide : ¬[2, 1].Pairwise (· < ·))

end Program

end Timetable
