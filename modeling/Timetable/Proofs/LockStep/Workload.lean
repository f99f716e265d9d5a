import Timetable.Proofs.GapFree.LockStep
import Timetable.Proofs.Precedence.Frontier

/-!
# Sound workloads

Lock-step scheduling works on jobs and their precedence. What it relies on is that they fit
together: every job stands at the place of its number, every operation of the precedence has a
job, nothing waits for itself, and of two jobs that share a resource one comes before the other. The
workload of every program that the pass accepts is of this kind.

## Main definitions

* `Workload.Sound` — jobs and precedence fit together.

## Main results

* `Workload.Sound.not_shared` — two operations of a frontier share no resource.
* `Program.Closed.sound_workload` — the workload of a program that can be ordered is sound.
-/

set_option autoImplicit false

namespace Timetable

open Relation

/-- The jobs of a workload fit to its precedence: each carries the number of its place, uses
declared resources, and comes before or behind every other job that uses one of them. Nothing comes
before itself. -/
structure Workload.Sound (work : Workload) : Prop where
  numbered : ∀ {id : OpId} {job : Job}, work.jobs[id]? = some job → job.id = id
  declared : ∀ {id : OpId} {job : Job}, work.jobs[id]? = some job →
    ∀ resource ∈ job.operation.resources, resource < work.numResources
  precedence : work.precedence.Sound
  size : work.precedence.size = work.jobs.size
  acyclic : ∀ id, ¬ TransGen work.precedence.Edge id id
  shared : ∀ {before after : OpId} {job other : Job} {resource : Resource}, before < after →
    work.jobs[before]? = some job → work.jobs[after]? = some other →
    resource ∈ job.operation.resources → resource ∈ other.operation.resources →
    TransGen work.precedence.Edge before after

namespace Workload.Sound

variable {work : Workload} {residual : Residual} {id other : OpId} {job otherJob : Job}
  {resource : Resource}

/-- Every pending operation has a job. -/
lemma exists_job (sound : work.Sound) (ongoing : residual.Ongoing)
    (same : residual.precedence = work.precedence) (pending : id ∈ residual.pending) :
    ∃ job, work.jobs[id]? = some job ∧ job.id = id := by
  have inside := ongoing.inside id pending
  rw [same, sound.size] at inside
  have found : work.jobs[id]? = some work.jobs[id] := Array.getElem?_eq_getElem inside
  exact ⟨_, found, sound.numbered found⟩

/-- An operation of the frontier shares no resource with another one whose predecessors are all
completed, if that one was pending when the first was already in the frontier.

**Proof sketch.** If they shared a resource, one of them would come before the other. It cannot be
the other one that comes first, since that one was pending when the first was in the frontier. Nor
can it be the first, since the other one would then wait for something that is pending. -/
theorem not_shared (sound : work.Sound) {begun : Residual} (begun_ongoing : begun.Ongoing)
    (begun_same : begun.precedence = work.precedence) (ongoing : residual.Ongoing)
    (same : residual.precedence = work.precedence) (found : work.jobs[id]? = some job)
    (found' : work.jobs[other]? = some otherJob) (distinct : other ≠ id)
    (ready : id ∈ begun.frontier) (pending : id ∈ residual.pending)
    (waiting : other ∈ begun.pending)
    (free : ∀ before, work.precedence.Edge before other → before ∉ residual.pending)
    (used : resource ∈ job.operation.resources) : resource ∉ otherJob.operation.resources := by
  intro used'
  rcases Nat.lt_or_gt_of_ne distinct with smaller | greater
  · have chain := sound.shared smaller found' found used' used
    rw [← begun_same] at chain
    exact begun_ongoing.not_mem_frontier chain waiting ready
  · have chain := sound.shared greater found found' used used'
    rw [← same] at chain
    obtain ⟨before, edge, pending'⟩ := ongoing.exists_pending_edge chain pending
    rw [same] at edge
    exact free before edge pending'

end Workload.Sound

/-- The job of a delay. -/
lemma Workload.exists_delay (work : Workload) {id : OpId} (delay : work.isDelay id = true) :
    ∃ job span resource, work.jobs[id]? = some job ∧ job.operation = .delay span resource := by
  obtain ⟨job, found, delay⟩ := (Option.any_eq_true _ _).mp delay
  obtain ⟨span, resource, same⟩ := Operation.exists_of_isDelay delay
  exact ⟨job, span, resource, found, same⟩

/-! ## The workload of a program -/

namespace Program

variable {program : Program} {table : DurationTable} {rule : DelayRule} {side : CarriedSide}

/-- The job at some place of the workload is that of the operation with this number. -/
lemma job_of_workload (resolves : (program.resolve table program.ids).failure = none) {id : OpId}
    {job : Job} (found : (program.workload table rule side).jobs[id]? = some job) :
    job.id = id ∧ program.operation? id = some job.operation ∧
      program.duration? table id = some job.ticks := by
  have found : (program.resolve table program.ids).jobs[id]? = some job := by
    simpa [workload] using found
  have number := getElem?_ids_of_resolve (fun id member => List.mem_range.mp member) resolves found
  obtain ⟨inside, same⟩ := List.getElem?_eq_some_iff.mp number
  have same : id = job.id := by simpa [ids] using same
  subst same
  obtain ⟨-, operation, duration⟩ := mem_jobs (List.mem_of_getElem? found)
  exact ⟨rfl, operation, duration⟩

/-- There is a job for every operation. -/
lemma size_workload (resolves : (program.resolve table program.ids).failure = none) :
    (program.workload table rule side).jobs.size = program.size := by
  have ids := ids_of_resolve (fun id member => List.mem_range.mp member) resolves
  have length := congrArg List.length ids
  simpa [workload, Program.ids] using length

/-- What the workload knows about every operation. -/
lemma getElem?_jobs_workload (resolves : (program.resolve table program.ids).failure = none)
    (id : OpId) : ((program.workload table rule side).jobs[id]?.map fun job =>
      (job.operation, job.ticks)) = (program.operation? id).bind fun operation =>
        (program.duration? table id).map fun ticks => (operation, ticks) := by
  cases found : (program.workload table rule side).jobs[id]? with
  | none =>
    have size : (program.workload table rule side).jobs.size = program.size :=
      size_workload resolves
    have outside : ¬ id < program.size :=
      Nat.not_lt_of_le (size ▸ Array.getElem?_eq_none_iff.mp found)
    rw [operation?_eq_none outside, Option.map_none, Option.bind_none]
  | some job =>
    obtain ⟨-, operation, duration⟩ := job_of_workload resolves found
    rw [operation, duration, Option.map_some, Option.bind_some, Option.map_some]

/-- The workload of a program without timesteps has none either. -/
lemma isTimestep_workload (resolves : (program.resolve table program.ids).failure = none)
    (plain : ∀ operation ∈ program.operations, operation.isTimestep = false) (id : OpId) :
    (program.workload table rule side).isTimestep id = false := by
  cases found : (program.workload table rule side).jobs[id]? with
  | none => rw [Workload.isTimestep, found, Option.any_none]
  | some job =>
    obtain ⟨-, operation, -⟩ := job_of_workload resolves found
    rw [Workload.isTimestep, found, Option.any_some]
    exact plain _ (mem_operations_of_operation? operation)

/-- The workload of a closed program that can be ordered is sound.

**Proof sketch.** Each field is a fact about the program: the durations are resolved, the
dependencies name declared operations, the order rules out circles, and operations that share a
resource are chained by precedence. -/
theorem Closed.sound_workload (closed : program.Closed) {order : List OpId}
    (ordered : program.precedence.order = .ok order)
    (resolves : (program.resolve table program.ids).failure = none) (rule : DelayRule)
    (side : CarriedSide) : (program.workload table rule side).Sound := by
  have sound := closed.precedence_sound
  refine ⟨fun found => (job_of_workload resolves found).1, fun found => ?_, sound, ?_,
    Precedence.not_transGen_edge sound ordered, ?_⟩
  · obtain ⟨-, operation, -⟩ := job_of_workload resolves found
    exact closed.declared _ (mem_operations_of_operation? operation)
  · rw [size_workload resolves]
    exact size_precedence program
  · intro before after job other resource smaller found found' used used'
    obtain ⟨-, operation, -⟩ := job_of_workload resolves found
    obtain ⟨-, operation', -⟩ := job_of_workload resolves found'
    exact transGen_edge_of_uses smaller (uses_iff.mpr ⟨_, operation, used⟩)
      (uses_iff.mpr ⟨_, operation', used'⟩)

end Program

end Timetable
