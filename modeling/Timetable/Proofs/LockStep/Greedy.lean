import Timetable.Proofs.LockStep.Placement
import Timetable.Proofs.Reordering.Run

/-!
# Every step takes what it can

Without timesteps, an operation that is no delay is taken by the first step in which its immediate
predecessors are completed and it still fits behind them, and starts in it as soon as they have
ended. When something is due is relative to its step, and what was completed earlier counts as
finished at its beginning; in absolute ticks, an operation can start when the step has begun and the
predecessors have ended.

## Main definitions

* `endOf`, `Program.freeAt` — when an operation has ended, and when its predecessors have.
* `Program.Excludes` — a step cannot take an operation.
* `Program.StepGreedy` — a step starts operations when they can start, and leaves none that fits.
* `Program.TakesFirst` — a step takes operations that no step before it could take.

## Main results

* `Step.Filled.max_lastStop` — when an operation has finished, in absolute ticks.
* `Program.schedule_greedy` — every operation but delays is taken by the first step that can.
-/

set_option autoImplicit false

namespace Timetable

open Relation

/-- The tick at which the last of some entries ends; zero if there are none. -/
def lastStop (entries : List Entry) : Tick := (entries.getLast?.map Entry.stop).getD 0

/-- The tick at which the last part of an operation ends. -/
def endOf (entries : List Entry) (id : OpId) : Tick := lastStop (partsOf id entries)

/-- The tick at which all immediate predecessors of an operation have ended. -/
def Program.freeAt (program : Program) (entries : List Entry) (id : OpId) : Tick :=
  latest ((program.precedence.preds id).map (endOf entries))

/-- In a schedule with the given entries, a step behind others cannot take an operation of the given
length: some predecessor is not completely placed when the step is over, or the operation would end
behind the step if it started as soon as it could. -/
def Program.Excludes (program : Program) (table : DurationTable) (entries : List Entry) (id : OpId)
    (ticks : Tick) (before : List Group) (group : Group) : Prop :=
  (∃ other, program.precedence.Edge other id ∧
    ¬program.PlacedIn table ((before ++ [group]).flatMap Group.toList) other) ∨
  beginning before + group.length < max (beginning before) (program.freeAt entries id) + ticks

/-- In a schedule with the given entries, a step behind others starts every operation as soon as it
can start, and leaves only what it cannot take, delays apart. -/
structure Program.StepGreedy (program : Program) (table : DurationTable) (entries : List Entry)
    (before : List Group) (group : Group) : Prop where
  prompt : ∀ entry ∈ group.entries, ∀ id, entry.source = some id →
    entry.start = max (beginning before) (program.freeAt entries id)
  full : ∀ id operation ticks, program.operation? id = some operation →
    operation.isDelay = false → program.duration? table id = some ticks →
      ¬program.PlacedIn table ((before ++ [group]).flatMap Group.toList) id →
        program.Excludes table entries id ticks before group

/-- In a schedule with the given entries, every operation but delays is taken by the first step that
can take it, and starts in it as soon as it can start. -/
def Program.TakesFirst (program : Program) (table : DurationTable) (entries : List Entry)
    (before : List Group) (group : Group) : Prop :=
  ∀ entry ∈ group.entries, ∀ id operation, entry.source = some id →
    program.operation? id = some operation → operation.isDelay = false →
      program.duration? table id = some entry.duration ∧
      entry.start = max (beginning before) (program.freeAt entries id) ∧
      EachStep (program.Excludes table entries id entry.duration) before

variable {work : Workload} {id : OpId} {begun : Residual} {remaining : Array Tick}
  {origin length : Tick} {step : Step}

/-! ## When an operation is due -/

/-- If ticks are ends relative to an origin, apart from those before it, so are the latest of
them. -/
lemma max_latest_map {α : Type} {origin : Tick} {ends relative : α → Tick} {list : List α}
    (same : ∀ a ∈ list, max origin (ends a) = origin + relative a) :
    max origin (latest (list.map ends)) = origin + latest (list.map relative) := by
  induction list with
  | nil => simp
  | cons a list ih =>
    have first := same a List.mem_cons_self
    have rest := ih fun b member => same b (List.mem_cons_of_mem _ member)
    simp only [latest, List.map_cons, List.foldr_cons] at rest ⊢
    lia

namespace Step.Filled

/-- An operation that is completed when a step is over has ended at its finish, or before the step
began.

**Proof sketch.** If the operation was pending when the step began, the step took it: its only part
in the step is its last part of all, and ends at its finish. If it was not, the step made nothing of
it and its finish in the step is zero, while all that was made of it before had ended when the step
began. -/
theorem max_lastStop (filled : Filled work begun remaining origin length step) (sound : work.Sound)
    {parts : List Entry} (stop_le : ∀ part ∈ parts, part.stop ≤ origin)
    (done : id ∉ step.residual.pending) :
    max origin (lastStop (parts ++ partsOf id (step.cutDelays work).entries)) =
      origin + step.finishOf id := by
  by_cases pending : id ∈ begun.pending
  · obtain ⟨job, -, single⟩ := filled.taken sound pending done
    have finish := filled.finishes id pending done
    rw [left, filled.remaining_eq] at finish
    rw [single, lastStop, List.getLast?_concat, Option.map_some, Option.getD_some, Entry.stop,
      finish, Nat.add_assoc]
    exact Nat.max_eq_right (Nat.le_add_right _ _)
  · have none := (filled.cutDelays sound).1.partsOf_eq_nil pending
    have zero := filled.finishOf_eq_zero fun still => absurd still pending
    rw [none, List.append_nil, zero, Nat.add_zero]
    refine Nat.max_eq_left ?_
    cases last : parts.getLast? with
    | none => simp [lastStop, last]
    | some part =>
      rw [lastStop, last]
      exact stop_le part (List.mem_of_getLast? last)

end Step.Filled

namespace Program

variable {program : Program} {table : DurationTable} {rule : DelayRule} {last grouping : Grouping}
  {next : Grouping} {side : CarriedSide} {operation : Operation} {settings : Settings}
  {schedule : Schedule}

/-- What is completed when a step is over has no part in later steps. -/
lemma partsOf_last (sound : (program.workload table rule .closing).Sound)
    (going : Grouping.Going (program.workload table rule .closing) next)
    (rest : Grouping.Runs (program.workload table rule .closing) next last) {stop : Tick}
    {resources : List Resource}
    (residual : next.residual = step.residual)
    (groups : next.groups = grouping.groups ++
      [⟨(step.cutDelays (program.workload table rule .closing)).padded.entries,
        .boundary length resources stop none⟩])
    (done : id ∉ step.residual.pending) : partsOf id last.entries =
      partsOf id grouping.entries ++
        partsOf id (step.cutDelays (program.workload table rule .closing)).entries := by
  have done' : id ∉ next.residual.pending := residual ▸ done
  have same : partsOf id last.entries = partsOf id next.entries :=
    (Journal.parts_of_writes (rest.writes going sound) done').2
  rw [same, Grouping.entries, groups, List.flatMap_append, partsOf_append, Grouping.entries]
  refine congrArg _ ?_
  rw [List.flatMap_singleton, Group.toList, partsOf_append, Step.partsOf_padded]
  exact List.append_nil _

/-- In absolute ticks, an operation whose predecessors are completed is due when the step has begun
and these have ended. -/
lemma max_freeAt (sound : (program.workload table rule .closing).Sound)
    (going : Grouping.Going (program.workload table rule .closing) grouping)
    (filled : Step.Filled (program.workload table rule .closing) grouping.residual
      grouping.remaining grouping.elapsed length step) {entries : List Entry}
    (final : ∀ {id}, id ∉ step.residual.pending → partsOf id entries =
      partsOf id grouping.entries ++
        partsOf id (step.cutDelays (program.workload table rule .closing)).entries)
    (free : ∀ before, program.precedence.Edge before id → before ∉ step.residual.pending) :
    max (beginning grouping.groups) (program.freeAt entries id) =
      grouping.elapsed + step.due (program.workload table rule .closing) id := by
  rw [← going.elapsed_eq]
  refine max_latest_map fun before edge => ?_
  have done := free before edge
  rw [endOf, final done]
  exact filled.max_lastStop sound (going.respects.stop_le before) done

/-- A step starts operations when they can start, and leaves none that fits.

**Proof sketch.** Each predecessor of an operation that waits for nothing has ended at its finish in
this step or before the step, so the tick at which the operation can start is the one at which the
step would start it (`max_freeAt`). The entries of the step start when they are due. An operation
without a part was refused by the last round of filling if it waits for nothing, and then it would
end behind the step; otherwise some predecessor of it is still pending, that is, not completely
placed. -/
lemma LockStepRun.stepGreedy (run : program.LockStepRun table rule .closing last)
    (fresh : (program.workload table rule .closing).Fresh)
    (going : Grouping.Going (program.workload table rule .closing) grouping)
    (left : grouping.residual.isDone = false)
    (advanced : grouping.advance (program.workload table rule .closing) = (next, none))
    (rest : Grouping.Runs (program.workload table rule .closing) next last) :
    ∃ group, next.groups = grouping.groups ++ [group] ∧
      program.StepGreedy table last.entries grouping.groups group := by
  obtain ⟨_, length, -, makes, -⟩ :=
    going.toInOrder.makes_of_plain fresh.sound fresh.plain left advanced
  obtain ⟨step, filled, -, residual, -, groups⟩ := makes.exists_filled fresh going.toInOrder
  obtain ⟨going', -⟩ := going.advance fresh.sound advanced
  obtain ⟨recorded, prompt, pending_eq, due_eq⟩ := filled.cutDelays fresh.sound
  have can_start {id : OpId}
      (free : ∀ before, program.precedence.Edge before id → before ∉ step.residual.pending) :
      max (beginning grouping.groups) (program.freeAt last.entries id) =
        grouping.elapsed + step.due (program.workload table rule .closing) id :=
    max_freeAt fresh.sound going filled (partsOf_last fresh.sound going' rest residual groups) free
  have placed_iff {id : OpId} (inside : id < program.size) :
      program.PlacedIn table (next.groups.flatMap Group.toList) id ↔
        id ∉ step.residual.pending := by
    rw [← residual]
    exact run.placedIn_iff_notMem going'.kept
      (fun id => (partTicks_stampedEntries _ id next.groups).symm) inside
  rw [groups] at placed_iff
  refine ⟨_, groups, fun entry member id source => ?prompt, fun id operation ticks known plain lasts
    unplaced => ?full⟩
  case prompt =>
    have part := mem_partsOf.mpr ⟨member, source⟩
    rw [Step.partsOf_padded] at part
    have made := (mem_partsOf.mp part).1
    have free := (recorded.source entry made id source).2.2
    rw [pending_eq] at free
    rw [can_start free, prompt.starts entry made id source, due_eq, recorded.origin_eq]
  case full =>
    have inside := operation?_isSome_iff.mp (Option.isSome_of_eq_some known)
    have pending := not_not.mp fun done => unplaced ((placed_iff inside).mpr done)
    by_cases free : ∀ before, program.precedence.Edge before id → before ∉ step.residual.pending
    · right
      have ready := filled.ongoing.mem_frontier_iff.mpr ⟨pending, filled.precedence ▸ free⟩
      have refused := filled.refused id ready (fresh.plain id)
      obtain ⟨job, found, rfl, known', lasts'⟩ := run.exists_job inside
      cases known.symm.trans known'
      cases lasts.symm.trans lasts'
      have untouched : grouping.remaining[job.id]?.getD 0 = job.ticks :=
        going.kept.left_of_plain found (filled.pending _ pending) plain
      rw [Step.left, filled.remaining_eq, untouched] at refused
      rw [can_start free, ← going.elapsed_eq, Nat.add_assoc]
      exact Nat.add_lt_add_left refused _
    · left
      simp only [not_forall, not_not] at free
      obtain ⟨before, edge, still⟩ := free
      have declared := (run.sound.precedence.lt_size edge).1
      rw [run.sound.size, run.size_eq] at declared
      exact ⟨before, edge, fun placed => (placed_iff declared).mp placed still⟩

/-- One step after the other starts what it can. -/
lemma LockStepRun.eachStep_greedy (run : program.LockStepRun table rule .closing last)
    (fresh : (program.workload table rule .closing).Fresh) :
    EachStep (program.StepGreedy table last.entries) last.groups := by
  refine run.runs.eachStep (Grouping.Going (program.workload table rule .closing))
    (fun going left advanced rest => ?_) (.start run.sound) (eachStep_nil _)
  obtain ⟨group, groups, greedy⟩ := run.stepGreedy fresh going left advanced rest
  refine ⟨(going.advance run.sound advanced).1, fun each => ?_⟩
  rw [groups]
  exact each.concat greedy

/-- What is neither a delay nor a timestep has one part, which takes as long as it does; so as long
as that part is not written, nothing is.

**Proof sketch.** Such an operation is kept whole, so it has exactly one part. If that part is
written later, the parts that are written before are none. -/
lemma LockStepRun.partTicks_eq_nil (run : program.LockStepRun table rule side last)
    (known : program.operation? id = some operation) (plain : operation.isDelay = false)
    (no_timestep : operation.isTimestep = false) {written later : List Entry} {entry : Entry}
    (split : last.entries = written ++ later) (member : entry ∈ later)
    (source : entry.source = some id) :
    program.duration? table id = some entry.duration ∧ partTicks id written = [] := by
  have inside := operation?_isSome_iff.mp (Option.isSome_of_eq_some known)
  obtain ⟨operation', ticks, known', lasts, kept⟩ := run.kept inside
  cases known.symm.trans known'
  have single : partTicks id last.entries = [ticks] := by
    have same := partTicks_stampedEntries side id last.groups
    cases operation with
    | delay => cases plain
    | timestep => cases no_timestep
    | gate | barrier =>
      obtain ⟨start, parts⟩ := kept
      rw [partTicks, parts] at same
      exact same.symm
  have part : entry.duration ∈ partTicks id later :=
    List.mem_map_of_mem (mem_partsOf.mpr ⟨member, source⟩)
  rw [split, partTicks_append] at single
  cases front : partTicks id written with
  | nil =>
    rw [front, List.nil_append] at single
    rw [single, List.mem_singleton] at part
    exact ⟨part ▸ lasts, rfl⟩
  | cons ticks' rest =>
    rw [front, List.cons_append, List.cons.injEq, List.append_eq_nil_iff] at single
    rw [single.2.2] at part
    cases part

/-- **Every step takes what it can.** Whatever program without timesteps was built, its schedule in
lock step consists of steps that follow each other from tick zero on, and every operation but delays
is taken by the first step that can take it: it starts when the step has begun and all of its
immediate predecessors have ended, and each step before it ends while some predecessor is not
completely placed, or is over before the operation would have ended.

**Proof sketch.** Each step of the run starts operations when they can start, and leaves out none
that fits (`LockStepRun.eachStep_greedy`). An operation that is no delay has a single part, so
before the step that places it nothing of it is written; hence each earlier step left it out, and
says why. -/
theorem schedule_greedy (built : program.Built)
    (plain : ∀ operation ∈ program.operations, operation.isTimestep = false)
    (method : settings.method = "asap_timestep")
    (ok : (program.schedule table settings).result = .ok schedule) :
    ∃ groups, schedule.entries = groups.flatMap Group.toList ∧
      InLockStep program.numResources 0 groups ∧
      EachStep (program.TakesFirst table schedule.entries) groups := by
  obtain ⟨policy, offered, ok⟩ := schedule_eq_ok ok
  generalize settings.method = name at offered method
  cases offered with
  | asap | alap | alapTimestep => simp at method
  | asapTimestep rule =>
    obtain ⟨last, anomalies, run, rfl⟩ := lockStep_run built.wellFormed ok
    have greedy := run.eachStep_greedy (run.fresh built.wellFormed plain)
    refine ⟨last.groups, rfl, run.inLockStep.1, ?_⟩
    intro before group after split entry member id operation source known no_delay
    have no_timestep := plain operation (mem_operations_of_operation? known)
    have among : entry ∈ (group :: after).flatMap Group.toList :=
      List.mem_flatMap.mpr ⟨group, List.mem_cons_self, List.mem_append_left _ member⟩
    have apart : last.entries =
        before.flatMap Group.toList ++ (group :: after).flatMap Group.toList := by
      rw [← List.flatMap_append, ← split]
      rfl
    obtain ⟨lasts, none⟩ := run.partTicks_eq_nil known no_delay no_timestep apart among source
    refine ⟨lasts, (greedy before group after split).prompt entry member id source, ?_⟩
    intro earlier past rest split'
    have past_greedy := greedy earlier past (rest ++ group :: after) (by simp [split, split'])
    refine past_greedy.full id operation entry.duration known no_delay lasts fun placed => ?_
    refine placed.1 ?_
    have fewer : before.flatMap Group.toList =
        (earlier ++ [past]).flatMap Group.toList ++ rest.flatMap Group.toList := by
      simp [split']
    rw [fewer, partTicks_append, List.append_eq_nil_iff] at none
    exact none.1

/-- The gate that waits for the first one does not fit behind it and starts with the second step;
the gate behind the delay starts with the third, since the delay ends with the second. -/
theorem schedule_greedy_relay : ∃ schedule groups,
    (relay.schedule .relay { method := "asap_timestep" }).result = .ok schedule ∧
      schedule.entries = groups.flatMap Group.toList ∧ InLockStep 3 0 groups ∧
      schedule.timesteps = [(3, 3), (5, 2), (9, 4)] ∧
      EachStep (relay.TakesFirst .relay schedule.entries) groups := by
  have ok : (relay.schedule .relay { method := "asap_timestep" }).result = .ok _ := rfl
  obtain ⟨groups, entries, steps, greedy⟩ := schedule_greedy built_relay (by decide) rfl ok
  exact ⟨_, groups, ok, entries, steps, rfl, greedy⟩

end Program

end Timetable
