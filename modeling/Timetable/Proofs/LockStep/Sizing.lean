import Mathlib.Order.Bounds.Defs
import Timetable.Proofs.LockStep.Placement

/-!
# How long steps are

The entries written when a step begins tell which operations are ready. If some of these are no
delays, the step is as long as the longest of them; otherwise it is as long as what is left of the
shortest or of the longest delay, whichever the rule says. Ready operations never stand in each
other's way, so all that are no delays start with the step.

## Main definitions

* `Program.SizedFor` — a step is as long as the operations that are ready demand.

## Main results

* `Step.entry_made` — what is ready and short enough starts with the step.
* `Program.lockStep_sized` — every step of a lock-step pass is sized for what is ready.
-/

set_option autoImplicit false

namespace Timetable

open Relation

/-- A step that begins at tick `opening`, when `written` is written, is sized for what is ready: if
some of it is no delay, it is as long as the longest operation that is none; otherwise as long as
the least or the greatest rest of a delay. All ready operations but delays start with it. -/
structure Program.SizedFor (program : Program) (table : DurationTable) (rule : DelayRule)
    (opening : Tick) (written : List Entry) (group : Group) : Prop where
  operations : (∃ id operation, program.ReadyIn table written id operation ∧
      operation.isDelay = false) →
    IsGreatest {ticks | ∃ id operation, program.ReadyIn table written id operation ∧
      operation.isDelay = false ∧ program.duration? table id = some ticks} group.length
  delays : (∀ id operation, program.ReadyIn table written id operation →
      operation.isDelay = true) →
    match rule with
    | .shortest => IsLeast {ticks | ∃ id operation,
        program.ReadyIn table written id operation ∧ program.leftIn table written id = ticks}
          group.length
    | .longest => IsGreatest {ticks | ∃ id operation,
        program.ReadyIn table written id operation ∧ program.leftIn table written id = ticks}
          group.length
  prompt : ∀ id operation ticks, program.ReadyIn table written id operation →
    operation.isDelay = false → program.duration? table id = some ticks →
      ⟨operation, opening, ticks, some id⟩ ∈ group.entries

variable {work : Workload} {id : OpId} {grouping next : Grouping} {markers : List OpId}
  {rest : Residual} {length : Tick}

/-! ## What starts with a step -/

/-- What is ready when a step begins and not longer than the step starts with it.

**Proof sketch.** Such an operation is completed by filling the step (`Filling.not_pending_fill`),
so it was taken. As it was ready when the step began, it was taken at tick zero of the step, with
all that was left of it. -/
theorem Step.entry_made {remaining : Array Tick} {begun : Residual} {job : Job} (origin : Tick)
    (sound : work.Sound) (ongoing : begun.Ongoing) (same : begun.precedence = work.precedence)
    (size : remaining.size = work.jobs.size) (found : work.jobs[id]? = some job)
    (plain : job.operation.isTimestep = false) (ready : id ∈ begun.frontier)
    (short : remaining[id]?.getD 0 ≤ length) :
    ⟨job.operation.rest (remaining[id]?.getD 0) job.ticks, origin, remaining[id]?.getD 0, some id⟩ ∈
      (made work begun remaining origin length).entries := by
  have recorded := recorded_made sound ongoing same size origin length
  have done : id ∉ (made work begun remaining origin length).residual.pending := by
    rw [made, residual_of_cuts (reflTransGen_cutDelays sound _)]
    exact (Filling.start ongoing same size origin length).not_pending_fill sound found plain ready
      short
  cases recorded.handles id with
  | untouched _ _ pending =>
    exact absurd (pending.mpr (Residual.mem_pending_of_mem_frontier ready)) done
  | cut _ _ _ still => exact absurd (Residual.mem_pending_of_mem_frontier still) done
  | taken found' _ _ _ _ prompt parts =>
    cases found.symm.trans found'
    obtain rfl := prompt ready
    rw [recorded.origin_eq] at parts
    exact (mem_partsOf.mp (parts ▸ List.mem_singleton_self _)).1

/-! ## One step -/

namespace Program

variable {program : Program} {table : DurationTable} {rule : DelayRule} {side : CarriedSide}
  {last : Grouping} {schedule : Schedule} {written : List Entry} {operation : Operation}

/-- What a run knows about an operation that is ready behind some entries, `remaining` being the
ticks that are left of each operation. -/
structure LockStepRun.Offers (program : Program) (table : DurationTable) (work : Workload)
    (written : List Entry) (rest : Residual) (remaining : Array Tick) : Prop where
  ready_iff : ∀ {id operation}, program.ReadyIn table written id operation ↔
    id ∈ rest.frontier ∧ program.operation? id = some operation
  exists_job : ∀ {id}, id ∈ rest.frontier → ∃ job, work.jobs[id]? = some job ∧
    program.operation? id = some job.operation ∧ program.duration? table id = some job.ticks ∧
      job.operation.isTimestep = false ∧
      program.leftIn table written id = remaining[id]?.getD 0 ∧
      (job.operation.isDelay = false → remaining[id]?.getD 0 = job.ticks)

/-- What a run knows when a step begins. -/
lemma LockStepRun.offers (run : program.LockStepRun table rule side last)
    (inOrder : Grouping.InOrder (program.workload table rule side) grouping)
    (kept : Journal.Kept (program.workload table rule side)
      (grouping.journal (program.workload table rule side)))
    (drained : grouping.residual.Drained (program.workload table rule side) markers rest)
    (same : ∀ id, partTicks id written =
      (partsOf id (stampedEntries side grouping.groups) ++
        partsOf id (markers.map (emptyBoundary (program.workload table rule side)
          grouping.elapsed))).map Entry.duration) :
    Offers program table (program.workload table rule side) written rest grouping.remaining := by
  obtain ⟨ongoing, precedence⟩ := inOrder.of_drained drained
  have kept := kept.drained inOrder drained
  refine ⟨run.readyIn_iff kept ongoing precedence drained.plain same, fun {id} ready => ?_⟩
  have pending := Residual.mem_pending_of_mem_frontier ready
  obtain ⟨job, found, rfl⟩ := run.sound.exists_job ongoing precedence pending
  obtain ⟨-, known, lasts⟩ := job_of_workload run.resolves found
  have plain := drained.plain job.id ready
  rw [Workload.isTimestep, found, Option.any_some] at plain
  exact ⟨job, found, known, lasts, plain, run.leftIn_eq kept same found pending,
    kept.left_of_plain found pending⟩

namespace LockStepRun.Offers

variable {remaining : Array Tick}

/-- A ready operation is a delay for the run if it is one. -/
lemma isDelay_eq (offers : Offers program table work written rest remaining)
    (ready : program.ReadyIn table written id operation) : work.isDelay id = operation.isDelay := by
  obtain ⟨among, known⟩ := offers.ready_iff.mp ready
  obtain ⟨job, found, known', -⟩ := offers.exists_job among
  cases known.symm.trans known'
  rw [Workload.isDelay, found, Option.any_some]

/-- What is in the frontier of the run is ready. -/
lemma exists_ready (offers : Offers program table work written rest remaining)
    (among : id ∈ rest.frontier) : ∃ operation, program.ReadyIn table written id operation := by
  obtain ⟨job, -, known, -⟩ := offers.exists_job among
  exact ⟨_, offers.ready_iff.mpr ⟨among, known⟩⟩

/-- All of an operation that is no delay is left. -/
lemma remaining_eq (offers : Offers program table work written rest remaining)
    (ready : program.ReadyIn table written id operation) (plain : operation.isDelay = false)
    {ticks : Tick} (lasts : program.duration? table id = some ticks) :
    remaining[id]?.getD 0 = ticks := by
  obtain ⟨among, known⟩ := offers.ready_iff.mp ready
  obtain ⟨job, -, known', lasts', -, -, left⟩ := offers.exists_job among
  cases known.symm.trans known'
  cases lasts.symm.trans lasts'
  exact left plain

/-- What is left behind the entries is what the run has left. -/
lemma leftIn_eq (offers : Offers program table work written rest remaining)
    (among : id ∈ rest.frontier) :
    program.leftIn table written id = remaining[id]?.getD 0 := by
  obtain ⟨_, -, -, -, -, left, -⟩ := offers.exists_job among
  exact left

/-- A ready operation lasts some ticks. -/
lemma exists_duration (offers : Offers program table work written rest remaining)
    (among : id ∈ rest.frontier) : ∃ ticks, program.duration? table id = some ticks := by
  obtain ⟨_, -, -, lasts, -⟩ := offers.exists_job among
  exact ⟨_, lasts⟩

/-- If some ready operation is no delay, the longest of these is dominant.

**Proof sketch.** The dominant operation is no delay either, and it leads over every ready operation
that is none, so it is the longest of them. What is left of such an operation is all of its
duration. -/
lemma isGreatest (offers : Offers program table work written rest remaining)
    (dominant : work.Dominant rest.frontier remaining id length)
    (some_plain : ∃ id operation, program.ReadyIn table written id operation ∧
      operation.isDelay = false) :
    IsGreatest {ticks | ∃ id operation, program.ReadyIn table written id operation ∧
      operation.isDelay = false ∧ program.duration? table id = some ticks} length := by
  obtain ⟨other, otherOperation, ready, plain⟩ := some_plain
  obtain ⟨kind, -⟩ := dominant.operation other (offers.ready_iff.mp ready).1
    ((offers.isDelay_eq ready).trans plain)
  obtain ⟨operation, leads⟩ := offers.exists_ready dominant.among
  obtain ⟨ticks, lasts⟩ := offers.exists_duration dominant.among
  rw [offers.isDelay_eq leads] at kind
  have as_long : length = ticks :=
    dominant.length_eq.trans (offers.remaining_eq leads kind lasts)
  refine ⟨⟨id, operation, leads, kind, as_long ▸ lasts⟩, ?_⟩
  rintro ticks' ⟨other, operation', ready, plain, lasts'⟩
  rw [← offers.remaining_eq ready plain lasts']
  exact (dominant.operation other (offers.ready_iff.mp ready).1
    ((offers.isDelay_eq ready).trans plain)).2

/-- If all ready operations are delays, the one of which the rule says so is dominant.

**Proof sketch.** If all ready operations are delays, the dominant one is a delay as well, and it
leads over all others in the order that the rule says. What is left of a ready operation is the same
in the entries and in the run. -/
lemma isLeast_or_isGreatest (offers : Offers program table work written rest remaining)
    (dominant : work.Dominant rest.frontier remaining id length)
    (delays : ∀ id operation, program.ReadyIn table written id operation →
      operation.isDelay = true) :
    match work.rule with
    | .shortest => IsLeast {ticks | ∃ id operation,
        program.ReadyIn table written id operation ∧ program.leftIn table written id = ticks} length
    | .longest => IsGreatest {ticks | ∃ id operation,
        program.ReadyIn table written id operation ∧ program.leftIn table written id = ticks}
          length := by
  obtain ⟨operation, leads⟩ := offers.exists_ready dominant.among
  have all := dominant.delay ((offers.isDelay_eq leads).trans (delays id operation leads))
  have among : ∃ id operation, program.ReadyIn table written id operation ∧
      program.leftIn table written id = length :=
    ⟨id, operation, leads, (offers.leftIn_eq dominant.among).trans dominant.length_eq.symm⟩
  have left {other : OpId} {operation : Operation}
      (ready : program.ReadyIn table written other operation) :
      other ∈ rest.frontier ∧ program.leftIn table written other = remaining[other]?.getD 0 :=
    ⟨(offers.ready_iff.mp ready).1, offers.leftIn_eq (offers.ready_iff.mp ready).1⟩
  cases rule : work.rule with
  | shortest =>
    rw [rule] at all
    refine ⟨among, ?_⟩
    rintro ticks ⟨other, operation, ready, rfl⟩
    rw [(left ready).2]
    exact all other (left ready).1
  | longest =>
    rw [rule] at all
    refine ⟨among, ?_⟩
    rintro ticks ⟨other, operation, ready, rfl⟩
    rw [(left ready).2]
    exact all other (left ready).1

end LockStepRun.Offers

/-- A step is sized for what is ready.

**Proof sketch.** The length is that of the dominant operation, so it is the greatest or the least
that the definition asks for (`Offers.isGreatest`, `Offers.isLeast_or_isGreatest`). Every ready
operation that is no delay is as short as the step and starts with it (`Step.entry_made`). -/
lemma LockStepRun.sizedFor (run : program.LockStepRun table rule side last)
    (inOrder : Grouping.InOrder (program.workload table rule side) grouping)
    (drained : grouping.residual.Drained (program.workload table rule side) markers rest)
    (offers : Offers program table (program.workload table rule side) written rest
      grouping.remaining)
    (dominant : (program.workload table rule side).Dominant rest.frontier grouping.remaining id
      length)
    {group : Group} (length_eq : group.length = length)
    (entries : ∀ entry ∈ (Step.made (program.workload table rule side) rest grouping.remaining
      grouping.elapsed length).entries, entry ∈ group.entries) :
    program.SizedFor table rule grouping.elapsed written group := by
  obtain ⟨ongoing, precedence⟩ := inOrder.of_drained drained
  subst length_eq
  refine ⟨offers.isGreatest dominant, offers.isLeast_or_isGreatest dominant,
    fun id operation ticks ready plain lasts => entries _ ?_⟩
  obtain ⟨among, known⟩ := offers.ready_iff.mp ready
  obtain ⟨job, found, known', lasts', no_timestep, -, -⟩ := offers.exists_job among
  cases known.symm.trans known'
  cases lasts.symm.trans lasts'
  have short := (dominant.operation id among ((offers.isDelay_eq ready).trans plain)).2
  have made := Step.entry_made grouping.elapsed run.sound ongoing precedence inOrder.size found
    no_timestep among short
  rwa [offers.remaining_eq ready plain lasts, Operation.rest_self] at made

/-! ## Every step -/

/-- What a step of a pass is: the empty step of a timestep of the program, or one that is sized for
what is ready. -/
structure StepSized (program : Program) (table : DurationTable) (rule : DelayRule)
    (side : CarriedSide) (before : List Group) (group : Group) : Prop where
  empty : group.entries = [] → ∃ id operation, group.boundary.source = some id ∧
    program.operation? id = some operation ∧ operation.isTimestep = true
  sized : group.entries ≠ [] →
    program.SizedFor table rule (beginning before) (writtenBefore side before group) group

/-- The empty step of a timestep. -/
lemma LockStepRun.stepSized_empty (run : program.LockStepRun table rule side last)
    (timestep : (program.workload table rule side).isTimestep id = true) (elapsed : Tick)
    (before : List Group) : program.StepSized table rule side before
      (Grouping.emptyGroup (program.workload table rule side) elapsed id) := by
  refine ⟨fun _ => ?_, fun some_entry => absurd rfl some_entry⟩
  obtain ⟨job, found, is_timestep⟩ := (Option.any_eq_true _ _).mp timestep
  obtain ⟨-, known, -⟩ := job_of_workload run.resolves found
  exact ⟨id, job.operation, rfl, known, is_timestep⟩

/-- One step after the other is sized.

**Proof sketch.** Run lemma with `Grouping.Going` as what is known (`Runs.eachStep`). The empty
steps of timesteps are sized because nothing is asked of them. A step with entries was made for a
dominant operation (`advance_of_left`), and what was ready when it began can be read off the entries
written before (`LockStepRun.offers`), so that `LockStepRun.sizedFor` applies. -/
lemma LockStepRun.eachStep_sized (run : program.LockStepRun table rule side last) :
    EachStep (program.StepSized table rule side) last.groups := by
  refine run.runs.eachStep (Grouping.Going (program.workload table rule side))
    (fun {grouping next} going left advanced _ => ?_) (.start run.sound) (eachStep_nil _)
  refine ⟨(going.advance run.sound advanced).1, fun each => ?_⟩
  obtain ⟨markers, rest, drain⟩ : ∃ markers rest,
      grouping.residual.drain (program.workload table rule side) = (markers, rest) := ⟨_, _, rfl⟩
  have drained := going.toInOrder.drained
  simp only [drain] at drained
  have nodup := (List.nodup_append.mp
    (drained.completes.perm.nodup_iff.mp going.ongoing.nodup)).1
  have empty : ∀ ids : List OpId, (∀ id ∈ ids, id ∈ markers) →
      ∀ group ∈ ids.map (Grouping.emptyGroup (program.workload table rule side) grouping.elapsed),
        ∀ before, program.StepSized table rule side before group := by
    intro ids among group member before
    obtain ⟨id, listed, rfl⟩ := List.mem_map.mp member
    exact run.stepSized_empty (drained.timestep id (among id listed)) _ _
  rcases eq_or_ne rest.pending [] with done | left
  · obtain ⟨_, advanced', -, -, -, groups⟩ := Grouping.InOrder.advance_of_done drain done
    cases advanced.symm.trans advanced'
    rw [groups]
    exact each.append (empty _ fun id => (program.workload table rule side).mem_markers)
  · obtain ⟨id, length, _, dominant, advanced', makes⟩ :=
      going.toInOrder.advance_of_left run.sound drain left
    cases advanced.symm.trans advanced'
    have offers := run.offers going.toInOrder going.kept drained fun id =>
      partTicks_writtenBefore (program.workload table rule side) nodup id grouping.groups
        (Step.made (program.workload table rule side) rest grouping.remaining grouping.elapsed
          length).padded.entries grouping.elapsed length (grouping.elapsed + length)
        (Step.made (program.workload table rule side) rest grouping.remaining grouping.elapsed
          length).residual
    obtain ⟨ongoing, precedence⟩ := going.toInOrder.of_drained drained
    obtain ⟨job, found, -, -, plain, -⟩ := offers.exists_job dominant.among
    have placed := Step.entry_made grouping.elapsed run.sound ongoing precedence going.size found
      plain dominant.among dominant.length_eq.ge
    rw [makes.groups]
    refine (each.append (empty _ fun id member => (program.workload table rule side).mem_markers
      (List.mem_append_left _ member))).concat ⟨fun none => ?_, fun _ => ?_⟩
    · exact absurd none (List.ne_nil_of_mem (List.mem_append_left _ placed))
    · rw [beginning_append, beginning_emptyGroups, Nat.add_zero, ← going.elapsed_eq]
      exact run.sizedFor going.toInOrder drained offers dominant rfl
        fun entry member => List.mem_append_left _ member

/-- **How long steps are.** Whatever well-formed program is scheduled by the lock-step pass, whether
its timesteps close or open their steps, the schedule consists of steps that follow each other from
tick zero on, and each of them is either the empty step of a timestep of the program or sized for
what is ready when it begins: if some ready operation is no delay, the step is as long as the
longest of these; otherwise it is as long as what is left of the shortest or of the longest ready
delay, whichever the rule says; and all ready operations but delays start with it. Ready are the
operations that are not completely placed by the entries written before the step while their
immediate predecessors are.

**Proof sketch.** The schedule consists of the groups of a run (`lockStep_run`), which are steps
(`LockStepRun.inLockStep`), and each of them is sized (`LockStepRun.eachStep_sized`). -/
theorem lockStep_sized (wellFormed : program.WellFormed)
    (ok : (program.lockStep table rule side).result = .ok schedule) :
    ∃ groups, schedule.entries = groups.flatMap Group.toList ∧
      InLockStep program.numResources 0 groups ∧
      EachStep (program.StepSized table rule side) groups := by
  obtain ⟨last, anomalies, run, rfl⟩ := lockStep_run wellFormed ok
  exact ⟨last.groups, rfl, run.inLockStep.1, run.eachStep_sized⟩

/-- The first step is as long as the gate that is ready, the second as long as the one behind it,
and so on. -/
theorem lockStep_sized_relay : ∃ schedule groups,
    (relay.lockStep .relay .longest .closing).result = .ok schedule ∧
      schedule.timesteps = [(3, 3), (5, 2), (9, 4)] ∧
      schedule.entries = groups.flatMap Group.toList ∧ InLockStep 3 0 groups ∧
      EachStep (relay.StepSized .relay .longest .closing) groups := by
  have ok : (relay.lockStep .relay .longest .closing).result = .ok _ := rfl
  obtain ⟨groups, entries, steps, sized⟩ := lockStep_sized built_relay.wellFormed ok
  exact ⟨_, groups, ok, rfl, entries, steps, sized⟩

end Program

end Timetable
