import Timetable.Proofs.LockStep.Order
import Timetable.Proofs.LockStep.Steady
import Timetable.Proofs.LockStep.Structure

/-!
# What is placed when a step begins

The entries that a lock-step pass has written tell which operations are done: those that they place
completely. The first steps of a schedule therefore tell what is ready behind them, and how much is
left of it, without looking at the run that made them.

## Main definitions

* `Program.PlacedIn`, `Program.ReadyIn`, `Program.leftIn` — what some entries place, what is ready
  behind them, and how much of it is left.
* `writtenBefore` — what is written when a step begins.
* `EachStep` — a statement about each step and those before it.
* `Grouping.Going` — what is known about a run that has come some way.

## Main results

* `Journal.Kept.notMem_pending_iff` — what is completed is placed completely.
* `Grouping.Runs.eachStep` — a statement about each step, shown along a run.
* `Program.LockStepRun.readyIn_iff`, `Program.LockStepRun.leftIn_eq` — the ready operations and what
  is left of them, read off the entries.
-/

set_option autoImplicit false

namespace Timetable

open Relation

/-! ## Placed operations -/

/-- The durations of the parts of an operation. -/
def partTicks (id : OpId) (entries : List Entry) : List Tick :=
  (partsOf id entries).map Entry.duration

namespace Program

/-- Some entries place all of an operation: it has a part among them, and if it is no timestep then
its parts take as long as it does. -/
def PlacedIn (program : Program) (table : DurationTable) (written : List Entry) (id : OpId) :
    Prop :=
  partTicks id written ≠ [] ∧ ∀ operation ticks, program.operation? id = some operation →
    operation.isTimestep = false → program.duration? table id = some ticks →
      (partTicks id written).sum = ticks

/-- How much of an operation some entries leave. -/
def leftIn (program : Program) (table : DurationTable) (written : List Entry) (id : OpId) : Tick :=
  (program.duration? table id).getD 0 - (partTicks id written).sum

/-- An operation is ready behind some entries: it is no timestep and not completely placed, but all
of its immediate predecessors are. -/
structure ReadyIn (program : Program) (table : DurationTable) (written : List Entry) (id : OpId)
    (operation : Operation) : Prop where
  known : program.operation? id = some operation
  plain : operation.isTimestep = false
  unplaced : ¬program.PlacedIn table written id
  free : ∀ before, program.precedence.Edge before id → program.PlacedIn table written before

end Program

/-- What is written when a step begins, `before` being the steps in front of it: a boundary that
opens a step belongs to this. -/
def writtenBefore (side : CarriedSide) (before : List Group) (group : Group) : List Entry :=
  before.flatMap Group.toList ++
    match side with
    | .closing => []
    | .opening => [group.boundary]

/-- The tick at which a step begins, which is when those in front of it are over. -/
def beginning (before : List Group) : Tick := (before.map Group.length).sum

/-- Each of some steps is as `holds` says, given the steps in front of it. -/
def EachStep (holds : List Group → Group → Prop) (groups : List Group) : Prop :=
  ∀ before group after, groups = before ++ group :: after → holds before group

variable {holds : List Group → Group → Prop} {groups added : List Group} {group : Group}
  {work : Workload} {id : OpId} {entries others : List Entry}

/-! ## Each step -/

/-- Without steps there is nothing to show. -/
lemma eachStep_nil (holds : List Group → Group → Prop) : EachStep holds [] := by
  intro before group after split
  simp at split

/-- One more step behind the others. -/
lemma EachStep.concat (each : EachStep holds groups) (last : holds groups group) :
    EachStep holds (groups ++ [group]) := by
  intro before other after split
  rcases List.eq_nil_or_concat after with rfl | ⟨rest, final, rfl⟩
  · obtain ⟨rfl, same⟩ := List.append_inj' split rfl
    cases same
    exact last
  · rw [List.concat_eq_append, ← List.cons_append, ← List.append_assoc] at split
    exact each before other rest (List.append_inj' split rfl).1

/-- Further steps of which the statement holds whatever is in front of them. -/
lemma EachStep.append (each : EachStep holds groups)
    (always : ∀ group ∈ added, ∀ before, holds before group) :
    EachStep holds (groups ++ added) := by
  induction added using List.reverseRecOn with
  | nil => rwa [List.append_nil]
  | append_singleton added group ih =>
    rw [← List.append_assoc]
    exact (ih fun other member => always other (List.mem_append_left _ member)).concat
      (always group (List.mem_append_right _ (List.mem_singleton_self group)) _)

/-- A statement about each step holds in the end of a run if making a step keeps it, together with
whatever is known about the run so far.

**Proof sketch.** Induction on the run. Steps are only added at the end, so the statement about
those that were made before is not touched by a further one. -/
theorem Grouping.Runs.eachStep {grouping last : Grouping} (runs : Runs work grouping last)
    (known : Grouping → Prop)
    (advance : ∀ {grouping next : Grouping}, known grouping → grouping.residual.isDone = false →
      grouping.advance work = (next, none) → Runs work next last →
        known next ∧ (EachStep holds grouping.groups → EachStep holds next.groups))
    (start : known grouping) (each : EachStep holds grouping.groups) :
    EachStep holds last.groups := by
  induction runs with
  | done => exact each
  | step left advanced rest ih =>
    obtain ⟨next, more⟩ := advance start left advanced rest
    exact ih advance next (more each)

/-! ## The durations of parts -/

/-- The parts of an operation in two lists are those in the first and then those in the second. -/
@[simp]
lemma partTicks_append (id : OpId) (entries others : List Entry) :
    partTicks id (entries ++ others) = partTicks id entries ++ partTicks id others := by
  simp [partTicks]

/-- A boundary is a part of no duration of the timestep it was made from. -/
lemma partTicks_boundary (id : OpId) (length : Tick) (resources : List Resource) (stop : Tick)
    (source : Option OpId) : partTicks id [.boundary length resources stop source] =
      if source = some id then [0] else [] := by
  by_cases same : source = some id <;> simp [partTicks, partsOf, Entry.boundary, same]

/-- Where boundaries stand makes no difference to how long parts are.

**Proof sketch.** Induction on the groups. Stamping moves the start of a boundary only. -/
lemma partTicks_stampedEntries (side : CarriedSide) (id : OpId) (groups : List Group) :
    partTicks id (stampedEntries side groups) = partTicks id (groups.flatMap Group.toList) := by
  induction groups with
  | nil => rfl
  | cons group groups ih =>
    have first : partTicks id (group.stamped side).toList = partTicks id group.toList := by
      cases side with
      | closing => rfl
      | opening =>
        by_cases same : group.boundary.source = some id <;>
          simp [Group.stamped, Group.toList, partTicks, partsOf, same]
    rw [stampedEntries, List.flatMap_cons, List.flatMap_cons, partTicks_append, partTicks_append,
      first]
    exact congrArg _ ih

/-- The parts of a kept operation take as long as it does, if it is no timestep. -/
lemma Operation.KeptInLockStep.sum_eq {operation : Operation} {numResources : Nat} {ticks : Tick}
    {parts : List Entry} (kept : operation.KeptInLockStep numResources id ticks parts)
    (plain : operation.isTimestep = false) : (parts.map Entry.duration).sum = ticks := by
  cases operation with
  | timestep => cases plain
  | delay span resource => exact Split.total kept
  | gate | barrier =>
    obtain ⟨start, rfl⟩ := kept
    simp

/-! ## Journals -/

namespace Journal.Kept

variable {journal : Journal} {job : Job}

/-- An operation is completed exactly if its parts make up all of it.

**Proof sketch.** A completed operation is kept, so it has parts which add up to its duration. A
pending one has no parts, or it is a delay of which something is left, so that its parts do not make
up all of it. -/
theorem notMem_pending_iff (kept : Kept work journal) (found : work.jobs[job.id]? = some job) :
    job.id ∉ journal.residual.pending ↔ journal.parts job.id ≠ [] ∧
      (job.operation.isTimestep = false →
        ((journal.parts job.id).map Entry.duration).sum = job.ticks) := by
  constructor
  · intro done
    have whole := kept.completed found done
    exact ⟨whole.ne_nil, whole.sum_eq⟩
  · rintro ⟨some_part, whole⟩ pending
    cases kept.unfinished found pending with
    | untouched none => exact some_part none
    | begun delay _ _ positive total =>
      have whole := whole (by rw [delay]; rfl)
      lia

/-- What is left of a pending operation is what its parts leave of it. -/
lemma left_eq (kept : Kept work journal) (found : work.jobs[job.id]? = some job)
    (pending : job.id ∈ journal.residual.pending) : journal.remaining[job.id]?.getD 0 =
      job.ticks - ((journal.parts job.id).map Entry.duration).sum := by
  cases kept.unfinished found pending with
  | untouched none left => simp [none, left]
  | begun _ _ _ _ total => lia

/-- Nothing of a pending operation that is no delay was placed. -/
lemma left_of_plain (kept : Kept work journal)
    (found : work.jobs[job.id]? = some job) (pending : job.id ∈ journal.residual.pending)
    (plain : job.operation.isDelay = false) : journal.remaining[job.id]?.getD 0 = job.ticks := by
  cases kept.unfinished found pending with
  | untouched _ left => exact left
  | begun delay =>
    rw [delay] at plain
    cases plain

end Journal.Kept

/-- Nothing more is written of an operation that is completed.

**Proof sketch.** Induction on what is written. A boundary is made from a timestep that is ready,
and a step makes entries of pending operations only. -/
lemma Journal.parts_of_writes {journal next : Journal}
    (writes : ReflTransGen (Writes work) journal next) (done : id ∉ journal.residual.pending) :
    id ∉ next.residual.pending ∧ next.parts id = journal.parts id := by
  induction writes with
  | refl => exact ⟨done, rfl⟩
  | tail _ writes ih =>
    obtain ⟨done, same⟩ := ih
    cases writes with
    | mark length _ _ ready _ =>
      refine ⟨fun left => done (Residual.mem_pending_of_mem_complete left), ?_⟩
      have distinct : id ≠ _ := fun same =>
        done (same ▸ Residual.mem_pending_of_mem_frontier ready)
      dsimp only
      rw [partsOf_boundary_ne length _ _ distinct, List.append_nil]
      exact same
    | step recorded _ =>
      refine ⟨fun left => done (recorded.pending id left), ?_⟩
      dsimp only
      rw [recorded.partsOf_eq_nil done, List.append_nil]
      exact same

/-! ## What is written when a step begins -/

variable {grouping : Grouping} {markers : List OpId} {rest : Residual}

/-- The entries of empty steps are their boundaries. -/
lemma flatMap_emptyGroup (work : Workload) (elapsed : Tick) (ids : List OpId) :
    (ids.map (Grouping.emptyGroup work elapsed)).flatMap Group.toList =
      ids.map (emptyBoundary work elapsed) := by
  rw [List.flatMap_map]
  exact List.map_eq_flatMap.symm

/-- Completing the timesteps that are ready writes their boundaries. -/
lemma Journal.Kept.drained (kept : Kept work (grouping.journal work))
    (inOrder : Grouping.InOrder work grouping)
    (drained : grouping.residual.Drained work markers rest) :
    Kept work ⟨rest, grouping.remaining, grouping.elapsed, fun id =>
      partsOf id (stampedEntries work.side grouping.groups) ++
        partsOf id (markers.map (emptyBoundary work grouping.elapsed))⟩ :=
  kept.of_writes (Journal.writes_markers drained.completes inOrder.ongoing inOrder.precedence
    drained.timestep _ _ _)

/-- What is written when a step begins are the entries of the run so far and the boundaries of the
timesteps that were ready, as far as the durations of parts are concerned.

**Proof sketch.** What is written before the step are the groups so far, the empty groups of the
timesteps that do not open the step, and its boundary if that opens it. The boundary of the timestep
that opens the step stands elsewhere than in the run, but its duration is zero in either place. -/
lemma partTicks_writtenBefore (work : Workload) (nodup : markers.Nodup) (id : OpId)
    (groups : List Group) (entries : List Entry) (elapsed length stop : Tick)
    (residual : Residual) :
    partTicks id (writtenBefore work.side
        (groups ++ (work.loose markers).map (Grouping.emptyGroup work elapsed))
        ⟨entries, .boundary length work.resources stop
          (work.boundary? (work.opening? markers) residual)⟩) =
      (partsOf id (stampedEntries work.side groups) ++
        partsOf id (markers.map (emptyBoundary work elapsed))).map Entry.duration := by
  have stamped : (partsOf id (stampedEntries work.side groups)).map Entry.duration =
      partTicks id (groups.flatMap Group.toList) := partTicks_stampedEntries work.side id groups
  rw [List.map_append, stamped, ← partsOf_loose_opening nodup]
  unfold writtenBefore
  rw [List.flatMap_append, flatMap_emptyGroup, partTicks_append, partTicks_append,
    List.append_assoc, List.map_append, partsOf_append, List.map_append]
  refine congrArg _ (congrArg _ ?_)
  cases side : work.side with
  | closing => simp [Workload.opening?, side, partTicks]
  | opening =>
    dsimp only
    rw [partTicks_boundary]
    cases markers with
    | nil => simp [Workload.boundary?, Workload.opening?, side]
    | cons first others =>
      simp only [Workload.boundary?, Workload.opening?, side, List.head?_cons, Option.toList_some,
        List.map_cons, List.map_nil]
      exact (partTicks_boundary id 0 work.resources elapsed (some first)).symm

/-! ## How far a run has come -/

/-- The steps of some groups that follow others begin when both are over. -/
lemma beginning_append (groups added : List Group) :
    beginning (groups ++ added) = beginning groups + beginning added := by
  simp [beginning]

/-- Empty steps take no time. -/
lemma beginning_emptyGroups (work : Workload) (elapsed : Tick) (ids : List OpId) :
    beginning (ids.map (Grouping.emptyGroup work elapsed)) = 0 := by
  rw [beginning, List.map_map]
  exact List.sum_eq_zero fun length member => by
    obtain ⟨id, -, rfl⟩ := List.mem_map.mp member
    rfl

namespace Grouping

variable {next : Grouping}

/-- A run has come to the end of its last step, and everything it has written is kept and in the
order of precedence. -/
structure Going (work : Workload) (grouping : Grouping) : Prop extends InOrder work grouping where
  kept : Journal.Kept work (grouping.journal work)
  respects : Journal.Respects work (grouping.journal work)
  elapsed_eq : grouping.elapsed = beginning grouping.groups

/-- A run that begins. -/
lemma Going.start (sound : work.Sound) : Going work (Grouping.start work) :=
  ⟨sound.inOrder_start, .start sound, .start work, rfl⟩

/-- A step takes a run further.

**Proof sketch.** Order and what is kept of operations follow from what the step writes. The tick at
which the next step begins is that of this step and its length, as empty steps take no time. -/
lemma Going.advance (going : Going work grouping) (sound : work.Sound)
    (advanced : grouping.advance work = (next, none)) :
    Going work next ∧ Advances work grouping next := by
  obtain ⟨_, advanced', advances⟩ := going.toInOrder.exists_advance sound
  cases advanced.symm.trans advanced'
  refine ⟨⟨going.toInOrder.of_advances advances,
    going.kept.of_writes (advances.writes going.toInOrder),
    going.respects.of_writes (advances.writes going.toInOrder), ?_⟩, advances⟩
  cases advances with
  | finish _ _ _ _ elapsed groups =>
    rw [elapsed, groups, beginning_append, beginning_emptyGroups, Nat.add_zero, going.elapsed_eq]
  | step _ _ _ _ _ _ _ _ elapsed groups =>
    rw [elapsed, groups, beginning_append, beginning_append, beginning_emptyGroups, Nat.add_zero,
      ← going.elapsed_eq]
    rfl

/-- What a run writes on its way to the end. -/
lemma Runs.writes {last : Grouping} (runs : Runs work grouping last)
    (going : Going work grouping) (sound : work.Sound) :
    ReflTransGen (Journal.Writes work) (grouping.journal work) (last.journal work) := by
  induction runs with
  | done => exact .refl
  | step _ advanced _ ih =>
    obtain ⟨going', advances⟩ := going.advance sound advanced
    exact (advances.writes going.toInOrder).trans (ih going')

end Grouping

/-! ## Programs -/

namespace Program

variable {program : Program} {table : DurationTable} {rule : DelayRule} {side : CarriedSide}
  {last : Grouping} {written : List Entry} {journal : Journal} {job : Job} {operation : Operation}

/-- Every operation has a job. -/
lemma LockStepRun.exists_job (run : program.LockStepRun table rule side last)
    (inside : id < program.size) : ∃ job, (program.workload table rule side).jobs[id]? = some job ∧
      job.id = id ∧ program.operation? id = some job.operation ∧
        program.duration? table id = some job.ticks := by
  rw [← run.size_eq] at inside
  have found := Array.getElem?_eq_getElem inside
  exact ⟨_, found, job_of_workload run.resolves found⟩

/-- Whether an operation is completely placed, in terms of its job. -/
lemma LockStepRun.placedIn_iff (run : program.LockStepRun table rule side last)
    (found : (program.workload table rule side).jobs[id]? = some job) :
    program.PlacedIn table written id ↔ partTicks id written ≠ [] ∧
      (job.operation.isTimestep = false → (partTicks id written).sum = job.ticks) := by
  obtain ⟨-, known, lasts⟩ := job_of_workload run.resolves found
  refine and_congr_right fun _ => ⟨fun whole plain => whole _ _ known plain lasts, ?_⟩
  intro whole operation ticks known' plain lasts'
  cases known.symm.trans known'
  cases lasts.symm.trans lasts'
  exact whole plain

/-- The entries that are written place exactly the operations that are completed. -/
lemma LockStepRun.placedIn_iff_notMem (run : program.LockStepRun table rule side last)
    (kept : Journal.Kept (program.workload table rule side) journal)
    (same : ∀ id, partTicks id written = (journal.parts id).map Entry.duration)
    (inside : id < program.size) :
    program.PlacedIn table written id ↔ id ∉ journal.residual.pending := by
  obtain ⟨job, found, rfl, -⟩ := run.exists_job inside
  rw [run.placedIn_iff found, same, ne_eq, List.map_eq_nil_iff]
  exact (kept.notMem_pending_iff found).symm

/-- **The ready operations.** When the timesteps that were ready are completed, what is ready in a
run can be read off the entries.

**Proof sketch.** An operation is completely placed by the entries exactly if it is not pending
(`LockStepRun.placedIn_iff_notMem`). So it is ready in the entries if it is pending, is no timestep,
and none of its immediate predecessors is pending; and this is the frontier, in which no timesteps
are. -/
theorem LockStepRun.readyIn_iff (run : program.LockStepRun table rule side last)
    (kept : Journal.Kept (program.workload table rule side) journal)
    (ongoing : journal.residual.Ongoing)
    (precedence : journal.residual.precedence = program.precedence)
    (plain : ∀ id ∈ journal.residual.frontier,
      (program.workload table rule side).isTimestep id = false)
    (same : ∀ id, partTicks id written = (journal.parts id).map Entry.duration) :
    program.ReadyIn table written id operation ↔
      id ∈ journal.residual.frontier ∧ program.operation? id = some operation := by
  have free_iff (known : program.operation? id = some operation) :
      (∀ before, program.precedence.Edge before id → program.PlacedIn table written before) ↔
        ∀ before, program.precedence.Edge before id → before ∉ journal.residual.pending := by
    refine forall₂_congr fun before edge => run.placedIn_iff_notMem kept same ?_
    have inside := (run.sound.precedence.lt_size edge).1
    rwa [run.sound.size, run.size_eq] at inside
  rw [ongoing.mem_frontier_iff, precedence]
  constructor
  · intro ready
    have inside := operation?_isSome_iff.mp (Option.isSome_of_eq_some ready.known)
    refine ⟨⟨?_, (free_iff ready.known).mp ready.free⟩, ready.known⟩
    exact not_not.mp fun done =>
      ready.unplaced ((run.placedIn_iff_notMem kept same inside).mpr done)
  · rintro ⟨⟨pending, free⟩, known⟩
    have inside := operation?_isSome_iff.mp (Option.isSome_of_eq_some known)
    have ready : id ∈ journal.residual.frontier :=
      ongoing.mem_frontier_iff.mpr ⟨pending, precedence ▸ free⟩
    obtain ⟨job, found, -, known', -⟩ := run.exists_job inside
    cases known.symm.trans known'
    refine ⟨known, ?_, fun placed => (run.placedIn_iff_notMem kept same inside).mp placed pending,
      (free_iff known).mpr free⟩
    simpa [Workload.isTimestep, found] using plain id ready

/-- What is left of a pending operation can be read off the entries, too.

**Proof sketch.** What a pending operation has in parts and what remains of it make up its duration
(`Journal.Kept.left_eq`). -/
theorem LockStepRun.leftIn_eq (run : program.LockStepRun table rule side last)
    (kept : Journal.Kept (program.workload table rule side) journal)
    (same : ∀ id, partTicks id written = (journal.parts id).map Entry.duration)
    (found : (program.workload table rule side).jobs[id]? = some job)
    (pending : id ∈ journal.residual.pending) :
    program.leftIn table written id = journal.remaining[id]?.getD 0 := by
  obtain ⟨rfl, -, lasts⟩ := job_of_workload run.resolves found
  rw [leftIn, lasts, Option.getD_some, same, kept.left_eq found pending]

end Program

end Timetable
