import Timetable.Proofs.Rescheduling
import Timetable.Proofs.Rescheduling.Run

/-!
# Scheduling a lock-step schedule again in lock step

The entries of a lock-step schedule, as a program of their own, are a plan for a second run. If the
shortest delay decided how long steps are for which nothing but delays is ready, the groups of the
first run are steady, so the second run makes the same steps, whatever durations and whichever rule
it uses. Idle time, parts of delays and boundaries, which the first run added, are now operations
like all others, and each boundary bounds the step that it bounded before. With time running
backwards the same happens to the mirror image of the schedule.

## Main definitions

* `Schedule.RepeatedInLockStep` — another schedule places every entry of a schedule where it was.

## Main results

* `Schedule.Tight.lists` — the operations of the second run are the entries of a plan.
* `Schedule.Tight.exists_lockStep`, `Schedule.Tight.exists_lockStep_reversed` — the second run.
* `Program.schedule_lockStep_again` — a lock-step schedule is repeated in lock step.
-/

set_option autoImplicit false

namespace Timetable

/-- A schedule is repeated in lock step by one that is as long, has the same timesteps, and consists
of exactly one entry made from each of its entries, in the same place. -/
structure Schedule.RepeatedInLockStep (schedule again : Schedule) : Prop where
  duration : again.duration = schedule.duration
  timesteps : again.timesteps = schedule.timesteps
  parts : ∀ (id : OpId) (entry : Entry), schedule.entries[id]? = some entry →
    partsOf id again.entries = [entry.madeFrom id]
  known : ∀ entry ∈ again.entries, ∃ id < schedule.entries.length, entry.source = some id

/-! ## Numbered entries -/

/-- Exactly one of the numbered entries has each number.

**Proof sketch.** Induction on the entries from the back. The last entry has its own place as its
number, and all in front of it have lower ones. -/
lemma partsOf_numbered {entries : List Entry} {id : OpId} {entry : Entry}
    (found : entries[id]? = some entry) : partsOf id (numbered entries) = [entry.madeFrom id] := by
  induction entries using List.reverseRecOn with
  | nil => cases found
  | append_singleton entries last ih =>
    rw [numbered_concat, partsOf_append]
    rcases Nat.lt_or_ge id entries.length with inside | behind
    · rw [List.getElem?_append_left inside] at found
      have distinct : (last.madeFrom entries.length).source ≠ some id := fun same =>
        Nat.ne_of_gt inside (Option.some.inj same)
      rw [ih found, partsOf_singleton_ne distinct, List.append_nil]
    · rw [List.getElem?_append_right behind] at found
      obtain ⟨here, rfl⟩ := List.getElem?_eq_some_iff.mp found
      obtain rfl : id = entries.length := by
        simp only [List.length_singleton] at here
        lia
      have none : partsOf entries.length (numbered entries) = [] := by
        refine partsOf_eq_nil_iff.mpr fun other member source => ?_
        obtain ⟨before, place, known, rfl⟩ := exists_of_mem_numbered member
        have inside := (List.getElem?_eq_some_iff.mp known).1
        exact Nat.ne_of_lt inside (Option.some.inj source)
      rw [none, List.nil_append]
      simp only [Nat.sub_self, List.getElem_cons_zero]
      exact partsOf_singleton_self rfl

/-- If lists are the same when they are numbered, their entries only differ in sources. -/
lemma exists_of_numbered_eq {entries others : List Entry} {id : OpId} {entry : Entry}
    (same : numbered entries = numbered others) (found : entries[id]? = some entry) :
    ∃ other, others[id]? = some other ∧ other.madeFrom id = entry.madeFrom id := by
  have at_place : (numbered others)[id]? = some (entry.madeFrom id) := by
    rw [← same, getElem?_numbered, found, Option.map_some]
  rwa [getElem?_numbered, Option.map_eq_some_iff] at at_place

/-- The entries that all places of a plan stand for are the plan. -/
lemma planned_range (plan : List Entry) : planned plan (List.range plan.length) = plan := by
  induction plan using List.reverseRecOn with
  | nil => rfl
  | append_singleton plan last ih =>
    have before : planned (plan ++ [last]) (List.range plan.length) = plan := by
      refine Eq.trans (List.filterMap_congr fun id member => ?_) ih
      exact List.getElem?_append_left (List.mem_range.mp member)
    have here : (plan ++ [last])[plan.length]? = some last := by simp
    rw [List.length_append, List.length_singleton, List.range_succ, planned_append,
      planned_cons here]
    exact congrArg (· ++ [last]) before

/-- A schedule of the same duration and timesteps repeats another one if its entries are those of
the other one, numbered.

**Proof sketch.** Each number belongs to exactly one numbered entry (`partsOf_numbered`), and a list
with a single entry has no other order. -/
lemma Schedule.repeatedInLockStep_of_perm {schedule again : Schedule}
    (duration : again.duration = schedule.duration)
    (timesteps : again.timesteps = schedule.timesteps)
    (perm : again.entries.Perm (numbered schedule.entries)) :
    schedule.RepeatedInLockStep again where
  duration := duration
  timesteps := timesteps
  parts := fun id entry found => by
    have parts := perm.filter fun entry => entry.source = some id
    exact List.perm_singleton.mp (partsOf_numbered found ▸ parts)
  known := fun entry member => by
    obtain ⟨before, id, found, rfl⟩ := exists_of_mem_numbered (perm.mem_iff.mp member)
    exact ⟨id, (List.getElem?_eq_some_iff.mp found).1, rfl⟩

/-! ## The timesteps of groups -/

/-- Only the boundaries of plain groups are timesteps. -/
lemma timesteps_eq_filterMap {schedule : Schedule} {groups : List Group}
    (entries : schedule.entries = groups.flatMap Group.toList)
    (plain : ∀ group ∈ groups, ∀ entry ∈ group.entries, entry.operation.isTimestep = false) :
    schedule.timesteps = groups.filterMap fun group =>
      group.boundary.operation.stepLength?.map fun length => (group.boundary.start, length) := by
  rw [Schedule.timesteps, entries, List.filterMap_flatMap, List.filterMap_eq_flatMap_toList]
  refine List.flatMap_congr fun group member => ?_
  have none : group.entries.filterMap (fun entry =>
      entry.operation.stepLength?.map fun length => (entry.start, length)) = [] := by
    refine List.filterMap_eq_nil_iff.mpr fun entry among => ?_
    have none := plain group member entry among
    rw [Operation.isTimestep, Option.isSome_eq_false_iff, Option.isNone_iff_eq_none] at none
    rw [none, Option.map_none]
  rw [Group.toList, List.filterMap_append, none, List.nil_append, List.filterMap_cons]
  split <;> simp [*]

/-- Groups that are bounded alike have the same timesteps. -/
lemma timesteps_of_boundedLike {schedule again : Schedule} {groups others : List Group}
    (entries : schedule.entries = groups.flatMap Group.toList)
    (entries' : again.entries = others.flatMap Group.toList)
    (plain : ∀ group ∈ groups, ∀ entry ∈ group.entries, entry.operation.isTimestep = false)
    (plain' : ∀ group ∈ others, ∀ entry ∈ group.entries, entry.operation.isTimestep = false)
    (alike : List.Forall₂ Group.BoundedLike groups others) :
    again.timesteps = schedule.timesteps := by
  rw [timesteps_eq_filterMap entries plain, timesteps_eq_filterMap entries' plain']
  clear entries entries' plain plain'
  induction alike with
  | nil => rfl
  | cons alike _ ih =>
    rw [List.filterMap_cons, List.filterMap_cons, alike.operation, alike.start, ih]

/-- Groups that follow each other are plain. -/
lemma LockStepped.plain {numResources : Nat} {first last : Tick} {groups : List Group}
    (stepped : LockStepped numResources first groups last) :
    ∀ group ∈ groups, ∀ entry ∈ group.entries, entry.operation.isTimestep = false := by
  intro group member entry among
  obtain ⟨_, _, spans⟩ := stepped.exists_spans group member
  exact (spans.plain entry among).1

/-- The timesteps of groups that follow each other tell where they end and how long they are. -/
lemma LockStepped.timesteps_eq {schedule : Schedule} {numResources : Nat} {first last : Tick}
    {groups : List Group} (stepped : LockStepped numResources first groups last)
    (entries : schedule.entries = groups.flatMap Group.toList) :
    schedule.timesteps = groups.map fun group => (group.boundary.start, group.length) := by
  rw [timesteps_eq_filterMap entries stepped.plain, List.filterMap_eq_map_iff_forall_eq_some]
  intro group member
  obtain ⟨_, _, spans⟩ := stepped.exists_spans group member
  obtain ⟨source, boundary⟩ := spans.boundary_eq
  have length : group.boundary.operation.stepLength? = some group.length := by
    rw [boundary]
    rfl
  rw [length, Option.map_some]

/-- Steady groups that follow each other are governed by both rules. -/
lemma LockStepped.governedBy {numResources : Nat} {first last : Tick} {groups : List Group}
    (stepped : LockStepped numResources first groups last)
    (steady : ∀ group ∈ groups, group.entries ≠ [] ∧ group.Steady) (rule : DelayRule) :
    ∀ group ∈ groups, group.entries ≠ [] ∧ group.GovernedBy rule := by
  intro group member
  obtain ⟨some_entry, bounded⟩ := steady group member
  obtain ⟨_, _, spans⟩ := stepped.exists_spans group member
  exact ⟨some_entry, bounded.governedBy spans some_entry rule⟩

/-! ## The second run -/

namespace Schedule.Tight

variable {schedule : Schedule} {table : DurationTable} {rule : DelayRule} {side : CarriedSide}
  {plan : List Entry} {groups : List Group} {stop : Tick}

/-- The operations of the program of a tight schedule are the entries of any plan that differs from
the schedule in sources only.

**Proof sketch.** The jobs are those of the entries (`resolve_toProgram`), which are alike up to
sources. An immediate predecessor is the last user of some resource, so it shares that resource. -/
theorem lists (tight : schedule.Tight) (same : numbered schedule.entries = numbered plan)
    (table : DurationTable) (rule : DelayRule) (side : CarriedSide) :
    (schedule.toProgram.workload table rule side).Lists plan := by
  obtain ⟨resolves, jobs⟩ := schedule.resolve_toProgram table
  have sound :=
    tight.wellFormed.toClosed.sound_workload tight.order resolves rule side
  refine ⟨sound, fun id => ?job, fun entry member => ?touching, fun {before after} edge => ?shares⟩
  case job =>
    have job : (schedule.toProgram.workload table rule side).jobs[id]? =
        schedule.entries[id]?.map fun entry => entry.job id := by
      simp only [Program.workload, jobs, jobsOf, List.getElem?_toArray, List.getElem?_mapIdx]
    have alike := congrArg (fun entries : List Entry => entries[id]?) same
    simp only [getElem?_numbered] at alike
    have alike := congrArg (Option.map fun entry : Entry => entry.job id) alike
    rw [Option.map_map, Option.map_map] at alike
    exact job.trans alike
  case touching =>
    obtain ⟨id, found⟩ := List.getElem?_of_mem member
    obtain ⟨other, found', alike⟩ := exists_of_numbered_eq same.symm found
    have resources : (other.madeFrom id).resources = (entry.madeFrom id).resources := by rw [alike]
    exact resources ▸ tight.touching other (List.mem_of_getElem? found')
  case shares =>
    refine ⟨tight.lt_of_edge edge, ?_⟩
    obtain ⟨-, shared | known⟩ := Program.edge_iff.mp edge
    · obtain ⟨resource, used, last⟩ :=
        (Program.mem_resourcePreds fun _ => Program.nodup_of_physical tight.physical).mp shared
      obtain ⟨-, used', -⟩ := Program.lastUser_eq_some last
      obtain ⟨earlier, found, uses⟩ := uses_toProgram.mp used'
      obtain ⟨later, found', uses'⟩ := uses_toProgram.mp used
      obtain ⟨earlier', found, alike⟩ := exists_of_numbered_eq same found
      obtain ⟨later', found', alike'⟩ := exists_of_numbered_eq same found'
      have resources :
          (earlier'.madeFrom before).resources = (earlier.madeFrom before).resources := by
        rw [alike]
      have resources' : (later'.madeFrom after).resources = (later.madeFrom after).resources := by
        rw [alike']
      exact ⟨earlier', later', found, found', resource, resources ▸ uses, resources' ▸ uses'⟩
    · cases known

/-- When a run on the program of a tight schedule begins, all of the plan is left.

**Proof sketch.** At the start every operation is pending, and all of the duration of its entry is
left. -/
lemma left_start (tight : schedule.Tight) (same : numbered schedule.entries = numbered plan)
    (table : DurationTable) (rule : DelayRule) (side : CarriedSide) :
    (Grouping.start (schedule.toProgram.workload table rule side)).residual.pending =
        List.range plan.length ∧
      Workload.Lists.Left (schedule.toProgram.workload table rule side) plan
        (Grouping.start (schedule.toProgram.workload table rule side)) plan := by
  have lists := tight.lists same table rule side
  have length : plan.length = schedule.entries.length := by
    rw [← length_numbered, ← same, length_numbered]
  have size : (schedule.toProgram.workload table rule side).precedence.size =
      schedule.entries.length := by
    rw [← size_toProgram]
    exact Program.size_precedence _
  have pending : (Grouping.start (schedule.toProgram.workload table rule side)).residual.pending =
      List.range plan.length := by
    rw [length, ← size]
    rfl
  refine ⟨pending, lists.sound.inOrder_start, ?_, fun id entry found => ?_, ?_⟩
  · rw [pending]
    exact List.pairwise_lt_range
  · have job := lists.job_eq found
    rw [← Array.getElem?_toList] at job
    simp [Grouping.start, job, Entry.job]
  · rw [pending, planned_range]

/-- A run on the program of a tight schedule makes the groups of a plan again, if they are governed
and differ from the schedule in sources only. -/
lemma again (tight : schedule.Tight)
    (same : numbered schedule.entries = numbered (groups.flatMap (Group.laid side)))
    (stepped : LockStepped schedule.numResources 0 groups stop)
    (governed : ∀ group ∈ groups, group.entries ≠ [] ∧ group.GovernedBy rule) {final : Grouping}
    (run : schedule.toProgram.LockStepRun table rule side final) :
    final.elapsed = stop ∧ List.Forall₂ Group.BoundedLike groups final.groups ∧
      (stampedEntries side final.groups).Perm (numbered schedule.entries) := by
  have lists := tight.lists same table rule side
  obtain ⟨pending, state⟩ := tight.left_start same table rule side
  obtain ⟨made, groups_eq, stop_eq, alike, perm⟩ := lists.run run.runs state stepped governed
  obtain rfl : final.groups = made := groups_eq
  refine ⟨stop_eq, alike, perm.trans ?_⟩
  rw [pending, same, ← length_numbered, planned_range]

/-- If the groups of a schedule are governed by a rule, a run by this rule gives a schedule that is
as long and has the same timesteps, and its entries are those of the first schedule, numbered. -/
lemma renumbered (tight : schedule.Tight)
    (entries : schedule.entries = groups.flatMap Group.toList)
    (stepped : LockStepped schedule.numResources 0 groups stop) (ends : schedule.duration = stop)
    (governed : ∀ group ∈ groups, group.entries ≠ [] ∧ group.GovernedBy rule) {final : Grouping}
    (run : schedule.toProgram.LockStepRun table rule .closing final) (anomalies : List Anomaly) :
    (sealedFor schedule.toProgram final.entries anomalies).duration = schedule.duration ∧
      (sealedFor schedule.toProgram final.entries anomalies).timesteps = schedule.timesteps ∧
      final.entries.Perm (numbered schedule.entries) := by
  have same : numbered schedule.entries = numbered (groups.flatMap (Group.laid .closing)) :=
    congrArg numbered entries
  obtain ⟨stop_eq, alike, perm⟩ := tight.again same stepped governed run
  exact ⟨run.latestStop_eq.trans (stop_eq.trans ends.symm),
    timesteps_of_boundedLike entries rfl stepped.plain run.stepped.plain alike, perm⟩

/-- As soon as possible, the groups of a schedule are made again in lock step.

**Proof sketch.** Steady groups are governed by either rule (`LockStepped.governedBy`), so each is
made again, and the entries are those of the schedule in another order (`Tight.renumbered`). -/
theorem exists_lockStep (tight : schedule.Tight)
    (entries : schedule.entries = groups.flatMap Group.toList)
    (stepped : LockStepped schedule.numResources 0 groups stop) (ends : schedule.duration = stop)
    (steady : ∀ group ∈ groups, group.entries ≠ [] ∧ group.Steady) (table : DurationTable)
    (rule : DelayRule) : ∃ again,
      (schedule.toProgram.lockStep table rule .closing).result = .ok again ∧
        schedule.RepeatedInLockStep again := by
  obtain ⟨resolves, -⟩ := schedule.resolve_toProgram table
  obtain ⟨final, run, ok⟩ :=
    tight.wellFormed.exists_lockStep tight.physical tight.order resolves rule .closing
  obtain ⟨duration, timesteps, perm⟩ :=
    tight.renumbered entries stepped ends (stepped.governedBy steady rule) run _
  exact ⟨_, ok, repeatedInLockStep_of_perm duration timesteps perm⟩

end Schedule.Tight

/-! ## With time running backwards -/

/-- An entry without its source. -/
def Entry.unsourced (entry : Entry) : Entry := { entry with source := none }

/-- An entry that is turned around twice is where it was. -/
lemma Entry.mirrored_mirrored {entry : Entry} {total : Tick} (within : entry.stop ≤ total)
    (origin : OpId → Option OpId) :
    (entry.mirrored total origin).mirrored total (fun _ => none) = entry.unsourced := by
  rw [mirrored_twice within, Option.bind_fun_none, unsourced]

/-- Without sources, numbered entries are the entries themselves. -/
lemma map_unsourced_numbered (entries : List Entry) :
    (numbered entries).map Entry.unsourced = entries.map Entry.unsourced :=
  map_mapIdx_of_numberless (fun id entry => entry.madeFrom id) _ (fun _ _ => rfl) entries

/-- Numbering takes no notice of sources. -/
lemma numbered_map_unsourced (entries : List Entry) :
    numbered (entries.map Entry.unsourced) = numbered entries := by
  refine List.ext_getElem? fun id => ?_
  rw [getElem?_numbered, getElem?_numbered, List.getElem?_map, Option.map_map]
  rfl

variable {schedule : Schedule} {program : Program} {table table' : DurationTable} {rule : DelayRule}
  {last final : Grouping} {reversal : Reversal}

/-- Groups of two runs that are bounded alike are bounded alike when they are turned around. -/
lemma Grouping.boundedLike_turned {reversal' : Reversal}
    (alike : List.Forall₂ Group.BoundedLike last.groups final.groups)
    (elapsed : final.elapsed = last.elapsed) :
    List.Forall₂ Group.BoundedLike (last.turned reversal) (final.turned reversal') := by
  refine List.forall₂_map_left_iff.mpr (List.forall₂_map_right_iff.mpr
    ((List.forall₂_reverse_iff.mpr alike).imp fun group again same => ?_))
  have length : again.length = group.length := by
    rw [Group.length, Group.length, Entry.stepLength, Entry.stepLength, same.operation]
  exact ⟨same.operation, by
    simp only [Group.mirrored, Group.stamped, Entry.mirrored, Entry.stop, same.start, same.duration,
      length, elapsed], same.duration⟩

/-- The mirror image of a schedule as late as possible lists the groups of the run that it was made
from, each behind the boundary that opens it.

**Proof sketch.** Mirroring a group twice at the same total leads back to its entries without their
sources, since all of them end by then. The boundary, which closes the turned group, opens the group
of the run. -/
lemma Schedule.numbered_mirrored {numResources : Nat}
    (stepped : LockStepped numResources 0 last.groups last.elapsed)
    (entries : schedule.entries = (last.turned reversal).flatMap Group.toList)
    (total : schedule.total = last.elapsed) : numbered schedule.mirrored.entries =
      numbered (last.groups.flatMap (Group.laid .opening)) := by
  have twice : schedule.mirrored.entries =
      (last.groups.flatMap (Group.laid .opening)).map Entry.unsourced := by
    rw [mirrored, total, entries, map_mirrored_reverse_toList, Grouping.turned, ← List.map_reverse,
      List.reverse_reverse, List.map_map, List.flatMap_map, List.map_flatMap]
    refine List.flatMap_congr fun group member => ?_
    obtain ⟨before, after, spans, within⟩ := stepped.exists_spans_le.2 group member
    have within_entries : ∀ entry ∈ group.entries, entry.stop ≤ last.elapsed := by
      intro entry among
      obtain ⟨resource, used⟩ := List.exists_mem_of_ne_nil _ (spans.plain entry among).2
      exact (spans.tiles.stop_le among used).trans within
    have within_boundary : (group.stamped .opening).boundary.stop ≤ last.elapsed := by
      obtain ⟨source, boundary⟩ := spans.boundary_eq
      have ends := spans.length_eq
      simp only [Group.stamped, boundary, Entry.boundary, Entry.stop]
      lia
    have twice : group.entries.map (fun entry =>
        (entry.mirrored last.elapsed reversal.origin?).mirrored last.elapsed fun _ => none) =
          group.entries.map Entry.unsourced :=
      List.map_congr_left fun entry among => Entry.mirrored_mirrored (within_entries entry among) _
    have twice_boundary := Entry.mirrored_mirrored within_boundary reversal.origin?
    show ((group.stamped .opening).boundary.mirrored last.elapsed reversal.origin?).mirrored
        last.elapsed (fun _ => none) :: ((group.entries.reverse.map
          (Entry.mirrored last.elapsed reversal.origin?)).reverse.map
            (Entry.mirrored last.elapsed fun _ => none)) = _
    rw [twice_boundary, ← List.map_reverse, List.reverse_reverse, List.map_map]
    exact congrArg _ twice
  rw [twice, numbered_map_unsourced]

/-- Turned around, the groups of a run are plain. -/
lemma Program.LockStepRun.plain_turned {side : CarriedSide}
    (run : program.LockStepRun table rule side last) (reversal : Reversal) :
    ∀ group ∈ last.turned reversal, ∀ entry ∈ group.entries,
      entry.operation.isTimestep = false := by
  intro group member entry among
  obtain ⟨before, found, rfl⟩ := List.mem_map.mp member
  obtain ⟨original, found', rfl⟩ := List.mem_map.mp among
  exact run.stepped.plain before (List.mem_reverse.mp found) original (List.mem_reverse.mp found')

namespace Schedule.Tight

/-- As late as possible in lock step, the program of a tight schedule is scheduled by turning around
a run on the program of the mirror image.

**Proof sketch.** The reversal of the program is the program of the mirror image
(`reversal_toProgram`), which is well formed and ordered, so that a run on it comes to an end. Its
entries are made from operations of that program, so all of them come back
(`Policy.exists_run_reversed`). -/
lemma exists_turned_run (tight : schedule.Tight) (table : DurationTable) (rule : DelayRule) :
    ∃ final again, schedule.mirrored.toProgram.LockStepRun table rule .opening final ∧
      ((Policy.reversed (.lockStep table rule .opening) table).run schedule.toProgram).result =
        .ok again ∧
      again.cached = some again.total ∧
      again.entries = (final.turned (schedule.toProgram.resolve table
        schedule.toProgram.ids.reverse).reversal).flatMap Group.toList := by
  obtain ⟨resolves, -⟩ := schedule.mirrored.resolve_toProgram table
  obtain ⟨final, run, ok⟩ := tight.mirrored.wellFormed.exists_lockStep tight.mirrored.physical
    tight.mirrored.order resolves rule .opening
  obtain ⟨resolves', -⟩ := schedule.resolve_toProgram_reverse table
  obtain ⟨inner, ran, inner_entries, inner_ends⟩ : ∃ inner,
      ((Policy.lockStep table rule .opening).run (schedule.toProgram.resolve table
        schedule.toProgram.ids.reverse).reversal.program).result = .ok inner ∧
      inner.entries = final.entries ∧ inner.duration = final.elapsed := by
    rw [schedule.reversal_toProgram]
    exact ⟨_, ok, rfl, run.latestStop_eq⟩
  have known : ∀ entry ∈ inner.entries, ∀ id, entry.source = some id →
      id < schedule.toProgram.size := by
    intro entry member id source
    rw [inner_entries] at member
    obtain ⟨group, among, member⟩ := List.mem_flatMap.mp member
    have inside := (run.grouped.led group among).known entry member id source
    rw [run.size_eq] at inside
    simpa [Schedule.mirrored] using inside
  obtain ⟨again, ok, -, cached, turned⟩ :=
    Policy.exists_run_reversed tight.physical resolves' ran known
  rw [Reversal.turned, inner_entries, inner_ends] at turned
  exact ⟨final, again, run, ok, cached, turned.trans (run.shiftEntries_turned _)⟩

/-- As late as possible, too, the groups of a schedule are made again in lock step.

**Proof sketch.** The mirror image lists the groups of the first run (`numbered_mirrored`), so a run
on its program makes them again. The schedule is made by turning that run around
(`exists_turned_run`), which gives the entries of the first schedule. -/
theorem exists_lockStep_reversed (tight : schedule.Tight)
    (reversedBy : program.ReversedBy table reversal)
    (run : reversal.program.LockStepRun table rule .opening last)
    (layout : schedule.layout = program.layout)
    (entries : schedule.entries = (last.turned reversal).flatMap Group.toList)
    (total : schedule.total = last.elapsed) (duration : schedule.duration = schedule.total)
    (steady : ∀ group ∈ last.groups, group.entries ≠ [] ∧ group.Steady) (table' : DurationTable)
    (rule' : DelayRule) : ∃ again,
      ((Policy.reversed (.lockStep table' rule' .opening) table').run schedule.toProgram).result =
        .ok again ∧ schedule.RepeatedInLockStep again := by
  have resources : schedule.mirrored.numResources = reversal.program.numResources :=
    congrArg Layout.numResources (layout.trans reversedBy.layout.symm)
  obtain ⟨final, again, second, ok, cached, turned⟩ := tight.exists_turned_run table' rule'
  obtain ⟨stop_eq, alike, perm⟩ :=
    tight.mirrored.again (numbered_mirrored run.stepped entries total)
      (resources ▸ run.stepped) (run.stepped.governedBy steady rule') second
  have perm : again.entries.Perm (numbered schedule.entries) := by
    rw [turned]
    have back := turned_numbered
      (Program.reversedBy (schedule.resolve_toProgram_reverse table').1)
    rw [total, ← stop_eq] at back
    have reversed := (List.reverse_perm _).trans (perm.trans (List.reverse_perm _).symm)
    exact (final.turned_perm _).trans (back ▸ reversed.map _)
  have stops : latestStop again.entries = latestStop (numbered schedule.entries) :=
    latest_perm (perm.map _)
  refine ⟨again, ok, repeatedInLockStep_of_perm ?duration ?timesteps perm⟩
  case duration =>
    rw [Schedule.duration, cached, Option.getD_some, duration, Schedule.total, stops,
      latestStop_numbered]
    rfl
  case timesteps =>
    exact timesteps_of_boundedLike entries turned (run.plain_turned reversal)
      (second.plain_turned _) (Grouping.boundedLike_turned alike stop_eq)

end Schedule.Tight

/-! ## Lock-step schedules of programs -/

namespace Program

variable {settings : Settings}

/-- If a program has no timesteps and the shortest delay decides, the groups of its run are steady
and none of them is empty. -/
lemma LockStepRun.steady {side : CarriedSide}
    (run : program.LockStepRun table .shortest side last) (wellFormed : program.WellFormed)
    (plain : ∀ operation ∈ program.operations, operation.isTimestep = false) :
    ∀ group ∈ last.groups, group.entries ≠ [] ∧ group.Steady := by
  exact run.runs.steady run.sound.inOrder_start run.sound
    (wellFormed.workload run.resolves .shortest side) rfl (isTimestep_workload run.resolves plain)
    (by simp [Grouping.start])

/-- **Lock-step schedules are fixed points.** Suppose that a program was built without timesteps and
scheduled in lock step, as soon or as late as possible, with the shortest delay deciding how long a
step is for which only delays are ready. Scheduling the entries of that schedule by the same method,
whatever durations and whichever rule are used, succeeds and gives a schedule that is as long and
has the same timesteps in the same order. Exactly one of its entries is made from each entry of the
first schedule, with the same operation, start and duration, and it has no others.

**Proof sketch.** The schedule is tight (`schedule_tight`), and its groups are those of a run with
the shortest delay, which are steady (`LockStepRun.steady`). So they are made again in either
direction (`Tight.exists_lockStep`, `Tight.exists_lockStep_reversed`). -/
theorem schedule_lockStep_again (built : program.Built)
    (plain : ∀ operation ∈ program.operations, operation.isTimestep = false)
    (method : settings.method = "asap_timestep" ∨ settings.method = "alap_timestep")
    (rule : settings.rule = "shortest")
    (ok : (program.schedule table settings).result = .ok schedule) (table' : DurationTable)
    (settings' : Settings) (method' : settings'.method = settings.method)
    (rule' : settings'.rule = "shortest" ∨ settings'.rule = "longest") :
    ∃ again, (schedule.toProgram.schedule table' settings').result = .ok again ∧
      schedule.RepeatedInLockStep again := by
  have tight := schedule_tight built.wellFormed (fun alap => by simp [alap] at method) ok
  have parsed : DelayRule.parse settings.rule = .ok .shortest := by
    rw [rule]
    rfl
  obtain ⟨other, parsed'⟩ : ∃ other, DelayRule.parse settings'.rule = .ok other := by
    rcases rule' with shortest | longest
    · exact ⟨.shortest, by rw [shortest]; rfl⟩
    · exact ⟨.longest, by rw [longest]; rfl⟩
  rcases method with asap | alap
  · rw [result_schedule (Policy.ofSettings_asapTimestep asap parsed)] at ok
    obtain ⟨last, anomalies, run, rfl⟩ := lockStep_run built.wellFormed ok
    obtain ⟨again, ok', repeated⟩ := tight.exists_lockStep rfl run.stepped run.latestStop_eq
      (run.steady built.wellFormed plain) table' other
    exact ⟨again, schedule_of_run
      (Policy.ofSettings_asapTimestep (method'.trans asap) parsed') ok', repeated⟩
  · rw [result_schedule (Policy.ofSettings_alapTimestep alap parsed)] at ok
    obtain ⟨layout, -, -⟩ := Policy.lockStep_reversed_groups built.wellFormed ok
    obtain ⟨reversal, last, -, reversedBy, run, cached, entries, stepped, none⟩ :=
      Policy.lockStep_reversed_run built.wellFormed ok
    have total : schedule.total = last.elapsed := by
      rw [Schedule.total, entries]
      exact stepped.latestStop_eq none
    have duration : schedule.duration = schedule.total := by
      rw [Schedule.duration, cached, Option.getD_some]
    have steady := run.steady (reversedBy.wellFormed built.wellFormed) fun operation member =>
      plain operation (reversedBy.mem_operations.mp member)
    obtain ⟨again, ok', repeated⟩ := tight.exists_lockStep_reversed reversedBy run layout entries
      total duration steady table' other
    exact ⟨again, schedule_of_run
      (Policy.ofSettings_alapTimestep (method'.trans alap) parsed') ok', repeated⟩

/-- Both lock-step schedules of the small program once more. -/
theorem schedule_lockStep_again_relay :
    (∃ first again, (relay.schedule .relay { method := "asap_timestep" }).result = .ok first ∧
      (first.toProgram.schedule .empty { method := "asap_timestep" }).result = .ok again ∧
      first.RepeatedInLockStep again) ∧
    ∃ first again, (relay.schedule .relay { method := "alap_timestep" }).result = .ok first ∧
      (first.toProgram.schedule .empty { method := "alap_timestep" }).result = .ok again ∧
      first.RepeatedInLockStep again := by
  have plain : ∀ operation ∈ relay.operations, operation.isTimestep = false := by decide
  constructor
  · have ok : (relay.schedule .relay { method := "asap_timestep" }).result = .ok _ := rfl
    obtain ⟨again, ok', repeated⟩ := schedule_lockStep_again built_relay plain (.inl rfl) rfl ok
      .empty { method := "asap_timestep" } rfl (.inl rfl)
    exact ⟨_, again, ok, ok', repeated⟩
  · have ok : (relay.schedule .relay { method := "alap_timestep" }).result = .ok _ := rfl
    obtain ⟨again, ok', repeated⟩ := schedule_lockStep_again built_relay plain (.inr rfl) rfl ok
      .empty { method := "alap_timestep" } rfl (.inl rfl)
    exact ⟨_, again, ok, ok', repeated⟩

end Program

end Timetable
