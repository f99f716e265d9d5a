import Timetable.Proofs.LockStep.Passes
import Timetable.Proofs.Reordering.Relabeling
import Timetable.Proofs.Reordering.Step

/-!
# A run does not depend on how operations are listed

Two runs of workloads with the same operations, none of which is a timestep, go through the same
steps. In both the dominant operations are equally long, since numbers only decide which of several
such operations is dominant; so the steps are equally long, take the same operations and are closed
at the same ticks.

## Main definitions

* `Grouping.Relabels` — two runs that have come equally far.

## Main results

* `Workload.Dominant.relabeled` — dominant operations are equally long.
* `Grouping.Makes.relabeled` — a step of both runs.
* `Grouping.Runs.relabeled` — all steps of both runs.
* `Program.LockStepRun.relabeled` — the runs of two programs with the same operations.
-/

set_option autoImplicit false

namespace Timetable

open Relation

/-- A group has the same entries and the same boundary as another one, under different numbers. -/
structure Group.Relabels (rename : OpId → OpId) (group other : Group) : Prop where
  boundary : other.boundary = group.boundary.relabeled rename
  entries : other.entries.Perm (group.entries.map (.relabeled rename))

/-- Two runs have come equally far: the same operations are pending, as much of each is left, and
their groups are the same. -/
structure Grouping.Relabels (rename : OpId → OpId) (grouping other : Grouping) : Prop where
  pending : ∀ id, rename id ∈ other.residual.pending ↔ id ∈ grouping.residual.pending
  left : ∀ id ∈ grouping.residual.pending,
    other.remaining[rename id]?.getD 0 = grouping.remaining[id]?.getD 0
  elapsed : other.elapsed = grouping.elapsed
  groups : List.Forall₂ (Group.Relabels rename) grouping.groups other.groups

/-- A sound workload without timesteps. -/
structure Workload.Fresh (work : Workload) : Prop where
  sound : work.Sound
  wellFormed : work.WellFormed
  plain : ∀ id, work.isTimestep id = false

variable {work other : Workload} {rename : OpId → OpId} {id id' : OpId}

/-! ## Dominant operations -/

/-- Dominant operations are equally long where the same operations are ready.

**Proof sketch.** Both dominant operations are ready in both runs up to numbers. If one is no delay,
so is the other, and both are the longest. If both are delays, both are the shortest or both the
longest, as the rule says. Either way each is at most the other. -/
theorem Workload.Dominant.relabeled {ready ready' : List OpId} {remaining remaining' : Array Tick}
    {length length' : Tick} (dominant : work.Dominant ready remaining id length)
    (dominant' : other.Dominant ready' remaining' id' length')
    (relabels : work.Relabels rename other) (same : ∀ id, rename id ∈ ready' ↔ id ∈ ready)
    (left : ∀ id ∈ ready, remaining'[rename id]?.getD 0 = remaining[id]?.getD 0) :
    length' = length := by
  obtain ⟨id', rfl⟩ := relabels.involutive.surjective id'
  have among := (same id').mp dominant'.among
  have among' := (same id).mpr dominant.among
  have length_eq : length' = remaining[id']?.getD 0 := dominant'.length_eq.trans (left id' among)
  have length_eq' : remaining'[rename id]?.getD 0 = length :=
    (left id dominant.among).trans dominant.length_eq.symm
  cases kind : work.isDelay id with
  | false =>
    -- each of the two is the longest of the operations that are no delays
    obtain ⟨kind', le⟩ :=
      dominant'.operation _ among' ((relabels.isDelay_eq id).trans kind)
    rw [relabels.isDelay_eq] at kind'
    obtain ⟨-, le'⟩ := dominant.operation id' among kind'
    rw [length_eq'] at le
    rw [← length_eq] at le'
    exact Nat.le_antisymm le' le
  | true =>
    -- all ready operations are delays in both runs, and the rule decides in the same way
    have kind' : work.isDelay id' = true := by
      by_contra plain
      obtain ⟨plain', -⟩ := dominant.operation id' among (Bool.eq_false_iff.mpr plain)
      exact absurd (kind.symm.trans plain') Bool.noConfusion
    have le := dominant.delay kind id' among
    have le' := dominant'.delay ((relabels.isDelay_eq id').trans kind') _ among'
    rw [← length_eq] at le
    rw [relabels.rule, length_eq'] at le'
    cases rule : work.rule with
    | shortest =>
      rw [rule] at le le'
      exact Nat.le_antisymm le' le
    | longest =>
      rw [rule] at le le'
      exact Nat.le_antisymm le le'

/-! ## One step -/

/-- Steps that make the same of every operation have the same entries, idle time included. -/
lemma Step.Filled.perm_padded {begun begun' : Residual} {remaining remaining' : Array Tick}
    {origin length : Tick} {step step' : Step}
    (filled : Filled work begun remaining origin length step)
    (filled' : Filled other begun' remaining' origin length step')
    (relabels : work.Relabels rename other) (sound : work.Sound) (sound' : other.Sound)
    (tiled : (step.cutDelays work).Tiled work.numResources origin length)
    (tiled' : (step'.cutDelays other).Tiled other.numResources origin length)
    (parts : ∀ id, partsOf (rename id) (step'.cutDelays other).entries =
      (partsOf id (step.cutDelays work).entries).map (.relabeled rename)) :
    (step'.cutDelays other).padded.entries.Perm
      ((step.cutDelays work).padded.entries.map (.relabeled rename)) := by
  obtain ⟨recorded, prompt, -, -⟩ := filled.cutDelays sound
  obtain ⟨-, prompt', -, -⟩ := filled'.cutDelays sound'
  have bridged := prompt.bridged_padded tiled
  have bridged' := prompt'.bridged_padded tiled'
  rw [relabels.numResources] at bridged'
  refine bridged.perm bridged' relabels.involutive (fun id => ?_) fun id => ?_
  · rw [partsOf_padded]
    exact recorded.length_partsOf_le id
  · rw [partsOf_padded, partsOf_padded]
    exact parts id

namespace Grouping

variable {grouping grouping' next next' last last' : Grouping} {length : Tick}

/-- Without timesteps a step is filled, its delays are cut, and it is closed behind them. -/
lemma Makes.exists_filled (makes : Makes work grouping [] grouping.residual length next)
    (fresh : work.Fresh) (inOrder : InOrder work grouping) : ∃ step,
      Step.Filled work grouping.residual grouping.remaining grouping.elapsed length step ∧
      (step.cutDelays work).Tiled work.numResources grouping.elapsed length ∧
      next.residual = step.residual ∧ next.remaining = (step.cutDelays work).remaining ∧
      next.groups = grouping.groups ++ [⟨(step.cutDelays work).padded.entries,
        .boundary length work.resources (grouping.elapsed + length) none⟩] := by
  have tiled := (Step.tiled_start work grouping.residual grouping.remaining grouping.elapsed
    length).fill fresh.wellFormed
  have residual := makes.residual
  have groups := makes.groups
  rw [boundary?_of_plain fresh.plain, Step.made,
    Step.residual_of_cuts (Step.reflTransGen_cutDelays fresh.sound _)] at residual
  rw [boundary?_of_plain fresh.plain, loose_nil, List.map_nil, List.append_nil] at groups
  exact ⟨_, Step.filled_fill fresh.sound inOrder.ongoing inOrder.precedence inOrder.size _ _,
    tiled.cutDelays fresh.wellFormed, residual, makes.remaining, groups⟩

/-- **One step.** If two runs have come equally far and make steps of the same length, they have
come equally far again.

**Proof sketch.** A step is determined by what is pending and how much of it is left. Filling takes
the same operations (`Filled.relabeled`), cutting makes the same parts (`cutDelays_relabeled`), and
idle time follows from the entries (`perm_padded`). -/
theorem Makes.relabeled (makes : Makes work grouping [] grouping.residual length next)
    (makes' : Makes other grouping' [] grouping'.residual length next')
    (relabels : work.Relabels rename other) (fresh : work.Fresh) (fresh' : other.Fresh)
    (inOrder : InOrder work grouping) (inOrder' : InOrder other grouping')
    (same : grouping.Relabels rename grouping') : next.Relabels rename next' := by
  obtain ⟨step, filled, tiled, residual, remaining, groups⟩ := makes.exists_filled fresh inOrder
  obtain ⟨step', filled', tiled', residual', remaining', groups'⟩ :=
    makes'.exists_filled fresh' inOrder'
  rw [same.elapsed] at filled' tiled' groups'
  have taken := filled.relabeled filled' relabels fresh.sound fresh.plain fresh'.plain same.pending
    same.left
  have cut := filled.cutDelays_relabeled filled' relabels fresh.sound fresh'.sound same.pending
    same.left taken
  have entries := filled.perm_padded filled' relabels fresh.sound fresh'.sound tiled tiled'
    fun id => (cut id).1
  refine ⟨fun id => ?pending, fun id pending => ?left, ?elapsed, ?groups⟩
  case pending =>
    rw [residual, residual']
    exact (taken id).1
  case left =>
    rw [residual] at pending
    rw [remaining, remaining']
    exact (cut id).2 pending
  case elapsed => rw [makes.elapsed, makes'.elapsed, same.elapsed]
  case groups =>
    rw [groups, groups']
    refine List.rel_append same.groups (.cons ⟨?_, entries⟩ .nil)
    rw [Workload.resources, Workload.resources, relabels.numResources]
    rfl

/-! ## All steps -/

/-- When runs have come equally far, both are done or neither is. -/
lemma Relabels.isDone_iff (same : grouping.Relabels rename grouping')
    (relabels : work.Relabels rename other) :
    grouping'.residual.isDone = true ↔ grouping.residual.isDone = true := by
  simp only [Residual.isDone, List.isEmpty_iff, List.eq_nil_iff_forall_not_mem]
  rw [relabels.involutive.surjective.forall]
  exact forall_congr' fun id => (same.pending id).not

/-- At the start nothing was done in either run.

**Proof sketch.** Everything is pending in both runs, with all of its duration left, and both
workloads have as many operations. -/
lemma relabels_start (relabels : work.Relabels rename other) (sound : work.Sound)
    (sound' : other.Sound) : (start work).Relabels rename (start other) := by
  have inside : ∀ id, rename id < other.jobs.size ↔ id < work.jobs.size := by
    intro id
    have none : other.jobs[rename id]? = none ↔ work.jobs[id]? = none := by
      rw [← Option.map_eq_none_iff, relabels.job, Option.map_eq_none_iff]
    rw [Array.getElem?_eq_none_iff, Array.getElem?_eq_none_iff] at none
    exact not_iff_not.mp (by rwa [Nat.not_lt, Nat.not_lt])
  refine ⟨fun id => ?_, fun id _ => ?_, rfl, .nil⟩
  · simp only [start, Residual.start, List.mem_range]
    rw [sound.size, sound'.size]
    exact inside id
  · have ticks := congrArg (Option.map Prod.snd) (relabels.job id)
    simp only [Option.map_map] at ticks
    simp only [start, List.getElem?_toArray, List.getElem?_map, Array.getElem?_toList]
    exact congrArg (Option.getD · 0) ticks

/-- **All steps.** If two runs have come equally far, they end equally far, too.

**Proof sketch.** Induction on one run, following the other. Both are done at the same time, and
where they make a step it is as long in both (`Dominant.relabeled`). -/
theorem Runs.relabeled (runs : Runs work grouping last) (runs' : Runs other grouping' last')
    (relabels : work.Relabels rename other) (fresh : work.Fresh) (fresh' : other.Fresh)
    (inOrder : InOrder work grouping) (inOrder' : InOrder other grouping')
    (same : grouping.Relabels rename grouping') : last.Relabels rename last' := by
  induction runs generalizing grouping' with
  | done done =>
    have done' := (same.isDone_iff relabels).mpr done
    cases runs' with
    | done => exact same
    | step left =>
      rw [done'] at left
      cases left
  | step left advanced rest ih =>
    have left' := (same.isDone_iff relabels).not.mpr (Bool.eq_false_iff.mp left)
    cases runs' with
    | done done => exact absurd done left'
    | step _ advanced' rest' =>
      obtain ⟨id, length, dominant, makes, next⟩ :=
        inOrder.makes_of_plain fresh.sound fresh.plain left advanced
      obtain ⟨id', length', dominant', makes', next'⟩ := inOrder'.makes_of_plain fresh'.sound
        fresh'.plain (Bool.eq_false_iff.mpr left') advanced'
      have ready := relabels.mem_frontier_iff same.pending inOrder.ongoing inOrder.precedence
        inOrder'.ongoing inOrder'.precedence
      obtain rfl : length' = length := dominant.relabeled dominant' relabels ready fun id ready =>
        same.left id (Residual.mem_pending_of_mem_frontier ready)
      exact ih rest' next next'
        (makes.relabeled makes' relabels fresh fresh' inOrder inOrder' same)

end Grouping

/-! ## Runs of programs -/

namespace Program

variable {program program' : Program} {table : DurationTable} {rule : DelayRule}
  {side : CarriedSide} {last last' : Grouping}

/-- The workloads of programs with the same operations have the same operations.

**Proof sketch.** Jobs are the operations with their durations, and the precedence of both programs
is the same up to numbers (`Relabels.edge_iff`). -/
lemma Relabels.workload (relabels : Relabels rename program program')
    (physical : program.violation? = none)
    (resolves : (program.resolve table program.ids).failure = none)
    (resolves' : (program'.resolve table program'.ids).failure = none) (rule : DelayRule)
    (side : CarriedSide) : (program.workload table rule side).Relabels rename
      (program'.workload table rule side) where
  involutive := relabels.involutive
  job := fun id => by
    rw [getElem?_jobs_workload resolves, getElem?_jobs_workload resolves', relabels.operation,
      relabels.duration]
  edge := relabels.edge_iff physical
  numResources := congrArg Layout.numResources relabels.layout
  rule := rfl

/-- The workload of a program without timesteps is fresh. -/
lemma LockStepRun.fresh (run : program.LockStepRun table rule side last)
    (wellFormed : program.WellFormed)
    (plain : ∀ operation ∈ program.operations, operation.isTimestep = false) :
    (program.workload table rule side).Fresh :=
  ⟨run.sound, wellFormed.workload run.resolves rule side, isTimestep_workload run.resolves plain⟩

/-- Runs of programs with the same operations, none of which is a timestep, end equally far.

**Proof sketch.** Both workloads are the same up to numbers and both runs begin with everything
pending, so `Runs.relabeled` applies. -/
theorem LockStepRun.relabeled (run : program.LockStepRun table rule side last)
    (run' : program'.LockStepRun table rule side last')
    (relabels : Relabels rename program program') (wellFormed : program.WellFormed)
    (physical : program.violation? = none)
    (plain : ∀ operation ∈ program.operations, operation.isTimestep = false) :
    last.Relabels rename last' := by
  have same := relabels.workload physical run.resolves run'.resolves rule side
  have plain' : ∀ operation ∈ program'.operations, operation.isTimestep = false :=
    fun operation member => plain operation (relabels.mem_operations.mp member)
  exact run.runs.relabeled run'.runs same (run.fresh wellFormed plain)
    (run'.fresh (relabels.wellFormed wellFormed) plain') run.sound.inOrder_start
    run'.sound.inOrder_start (Grouping.relabels_start same run.sound run'.sound)

end Program

end Timetable
