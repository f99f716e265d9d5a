import Mathlib.Algebra.Order.BigOperators.Group.List
import Mathlib.Algebra.Order.Group.Nat
import Timetable.Proofs.Bounded.Forward
import Timetable.Proofs.Bounded.Step
import Timetable.Proofs.LockStep.Passes

/-!
# Lock-step scheduling within a limit

A step is as long as what is left of its dominant operation, which is completed in it and is
therefore dominant only once. So the last boundary and all operations that are still pending never
need more time together than all operations at the start. In particular the dominant operation and
any other one fit behind the last boundary, which is what a test in the step needs.

## Main definitions

* `Grouping.advanceWithin`, `Grouping.runWithin`, `Program.lockStepWithin` — the pass with
  arithmetic within a limit.
* `Grouping.Affords` — everything that is pending still fits behind the last boundary.

## Main results

* `Grouping.Affords.affordable_start`, `Grouping.Affords.of_advances` — what one step needs, and
  what it leaves.
* `Program.WellFormed.lockStepWithin_eq` — the pass within the sum of all durations.
-/

set_option autoImplicit false

namespace Timetable

open Relation

variable {limit : Tick} {duration : OpId → Tick}

/-- Different elements of a list add up to no more than the list. -/
lemma sum_map_le_of_subset {ids others : List OpId} (nodup : ids.Nodup)
    (subset : ∀ id ∈ ids, id ∈ others) : (ids.map duration).sum ≤ (others.map duration).sum := by
  obtain ⟨part, perm, sublist⟩ := List.subperm_of_subset nodup subset
  rw [← (perm.map duration).sum_nat]
  exact (sublist.map duration).sum_le_sum fun _ _ => Nat.zero_le _

namespace Grouping

/-! ## Arithmetic within a limit -/

/-- The step that a dominant operation makes, with arithmetic within a limit. -/
def filledWithin (limit : Tick) (work : Workload) (grouping : Grouping)
    (dominant : DominanceKey) : Option Step :=
  (Step.start work grouping.residual grouping.remaining grouping.elapsed
    dominant.duration).fillWithin limit work

/-- Cuts the delays that are too long for a step, covers the rest with idle time, and closes it,
with arithmetic within a limit. -/
def closeWithin (limit : Tick) (work : Workload) (opening : Option OpId) (grouping : Grouping)
    (dominant : OpId) (filled : Step) : Option Grouping := do
  let cut ← filled.cutDelaysWithin limit work
  let step ← cut.paddedWithin limit
  let source := work.boundary? opening step.residual
  let elapsed ← Tick.add? limit grouping.elapsed step.length
  let boundary := Entry.boundary step.length work.resources elapsed source
  let closed := Note.closed grouping.steps step.length dominant step.admitted elapsed
  return {
    residual := source.toList.foldl Residual.complete step.residual
    remaining := step.remaining
    elapsed := elapsed
    steps := grouping.steps
    groups := grouping.groups ++ [⟨step.entries, boundary⟩]
    notes := (grouping.notes ++ step.notes).push closed }

/-- Makes the next step, with arithmetic within a limit. -/
def advanceWithin (limit : Tick) (work : Workload) (grouping : Grouping) :
    Option (Grouping × Option SchedulingError) :=
  let (markers, residual) := grouping.residual.drain work
  let opening := work.opening? markers
  let begun := grouping.begun work markers residual
  if begun.residual.isDone then
    some (opening.toList.foldl (emptyStep work) begun, none)
  else
    let noted := begun.note (.frontier begun.steps begun.residual.frontier)
    match noted.dominant? work with
    | none => some (noted, some (.emptyFrontier work.name))
    | some dominant => do
      let filled ← noted.filledWithin limit work dominant
      if filled.admitted = 0 then
        return ({ noted with notes := noted.notes ++ filled.notes },
          some (.notAdmitted dominant.id work.name))
      else
        let closed ← noted.closeWithin limit work opening dominant.id filled
        return (closed, none)

/-- Makes steps until every operation is completed, with arithmetic within a limit. -/
def runWithin (limit : Tick) (work : Workload) (bound : Nat) :
    (budget : Nat) → Grouping → Option (Grouping × Option SchedulingError)
  | 0, grouping =>
    some (grouping,
      if grouping.residual.isDone then none else some (.tooManySteps work.name bound))
  | budget + 1, grouping =>
    if grouping.residual.isDone then some (grouping, none)
    else do
      let (next, failure) ← grouping.advanceWithin limit work
      match failure with
      | some e => return (next, some e)
      | none => runWithin limit work bound budget next

/-! ## One step -/

/-- Behind the last boundary there is room for everything that is pending, and no more is left of
any operation than it takes altogether. -/
structure Affords (limit : Tick) (duration : OpId → Tick) (grouping : Grouping) : Prop where
  left : ∀ id ∈ grouping.residual.pending, grouping.remaining[id]?.getD 0 ≤ duration id
  room : grouping.elapsed + (grouping.residual.pending.map duration).sum ≤ limit

variable {work : Workload} {grouping next : Grouping} {residual rest : Residual}
  {markers : List OpId} {id : OpId} {filled : Step}

/-- A filled step can be closed. -/
lemma closeWithin_eq (confined : Step.Confined limit filled) (sound : work.Sound)
    (origin : (filled.cutDelays work).origin = grouping.elapsed) (opening : Option OpId)
    (dominant : OpId) : grouping.closeWithin limit work opening dominant filled =
      some (grouping.close work opening dominant filled) := by
  obtain ⟨cut, confined⟩ := confined.cutDelaysWithin_eq sound
  have stop : grouping.elapsed + (filled.cutDelays work).padded.length ≤ limit :=
    origin ▸ confined.stop
  simp only [closeWithin, cut, confined.paddedWithin_eq, Tick.add?_eq stop, Option.bind_eq_bind,
    Option.bind_some]
  rfl

namespace Affords

/-- There is room for a step that begins, whichever operation is dominant.

**Proof sketch.** Behind the last boundary there is room for all that is pending. The dominant
operation is pending and has at most its duration left, so the step ends within the limit; and there
is room for it together with any other operation that is pending. -/
theorem affordable_start (affords : Affords limit duration grouping)
    (inOrder : InOrder work grouping) (drained : grouping.residual.Drained work markers rest)
    (ready : id ∈ rest.frontier) : Step.Affordable limit work rest id
      (Step.start work rest grouping.remaining grouping.elapsed
        (grouping.remaining[id]?.getD 0)) := by
  obtain ⟨ongoing, same⟩ := inOrder.of_drained drained
  have pending := drained.completes.mem_pending (Residual.mem_pending_of_mem_frontier ready)
  have room := affords.room
  have left := affords.left id pending
  refine ⟨.start ongoing same inOrder.size _ _, .start ?_ _ _ _, ready, le_rfl, ?_⟩
  · have alone := @sum_map_le_of_subset duration [id] _ (List.nodup_singleton id)
      (List.forall_mem_singleton.mpr pending)
    rw [List.map_singleton, List.sum_singleton] at alone
    lia
  · intro other waits distinct
    have waits := drained.completes.mem_pending waits
    have both := @sum_map_le_of_subset duration [id, other] grouping.residual.pending
      (by simpa using distinct.symm) (by simp [pending, waits])
    rw [List.map_cons, List.map_singleton, List.sum_pair] at both
    have left' := affords.left other waits
    show grouping.remaining[id]?.getD 0 + grouping.remaining[other]?.getD 0 ≤ limit
    lia

/-- A step can be made.

**Proof sketch.** Draining and choosing the dominant operation compute no ticks. The step that
begins is affordable (`affordable_start`), so it can be filled (`Step.Affordable.fillWithin_eq`),
and a filled step reaches no further than its end, so it can be closed. -/
lemma advanceWithin_eq (affords : Affords limit duration grouping)
    (inOrder : InOrder work grouping) (sound : work.Sound) :
    grouping.advanceWithin limit work = some (grouping.advance work) := by
  have drained := inOrder.drained
  unfold advanceWithin advance
  generalize grouping.residual.drain work = drain at drained
  obtain ⟨markers, rest⟩ := drain
  dsimp only at drained ⊢
  split
  · rfl
  · obtain ⟨noted, note, rfl, remaining, elapsed, -⟩ := exists_noted work grouping markers rest
    rw [note]
    cases found : noted.dominant? work with
    | none => rfl
    | some key =>
      have dominant := dominant_of_dominant? found
      rw [remaining] at dominant
      have affordable := affords.affordable_start inOrder drained dominant.among
      rw [← dominant.length_eq] at affordable
      obtain ⟨fills, confined⟩ := affordable.fillWithin_eq sound
      have origin := (inOrder.recorded sound drained key.duration).origin_eq
      simp only [filledWithin, filled, remaining, elapsed, fills, Option.bind_eq_bind,
        Option.bind_some]
      split
      · rfl
      · rw [closeWithin_eq confined sound (origin.trans elapsed.symm)]
        rfl

/-- What is pending behind a step, with the operation that the step was made for, was pending
before.

**Proof sketch.** A step without operations leaves nothing pending. Any other step takes as long as
what is left of its dominant operation, which is completed by it; so the time that goes by is paid
for by this operation, and what is still pending behind the step was pending before and has no more
left than before. -/
theorem of_advances (affords : Affords limit duration grouping)
    (advances : Advances work grouping next) : Affords limit duration next := by
  have room := affords.room
  cases advances with
  | finish _ done residual _ elapsed _ =>
    refine ⟨by simp [residual, done], ?_⟩
    rw [residual, done, elapsed]
    exact (Nat.le_add_right _ _).trans room
  | @step _ rest id _ _ _ drained ready length_eq recorded done _ bounded remaining elapsed _ =>
    obtain ⟨ongoing, -, fewer⟩ := bounded.ongoing recorded.ongoing
    have pending := drained.completes.mem_pending (Residual.mem_pending_of_mem_frontier ready)
    have waits : ∀ other ∈ next.residual.pending, other ∈ grouping.residual.pending :=
      fun other left => drained.completes.mem_pending (recorded.pending other (fewer other left))
    refine ⟨fun other left => ?_, ?_⟩
    · have before := affords.left other (waits other left)
      rw [remaining]
      cases recorded.handles other with
      | untouched _ same _ => exact same.le.trans before
      | taken _ _ _ gone => exact absurd (fewer other left) gone
      | cut _ _ _ _ _ _ _ _ rest _ => exact rest.le.trans ((Nat.sub_le _ _).trans before)
    · have all := @sum_map_le_of_subset duration (id :: next.residual.pending) _
        (List.nodup_cons.mpr ⟨fun left => done (fewer id left), ongoing.nodup⟩)
        (List.forall_mem_cons.mpr ⟨pending, waits⟩)
      rw [List.map_cons, List.sum_cons] at all
      have left := affords.left id pending
      rw [elapsed]
      lia

/-- All steps can be made, and the last boundary is within the limit. -/
lemma runWithin_eq (affords : Affords limit duration grouping) (inOrder : InOrder work grouping)
    (sound : work.Sound) (bound budget : Nat) :
    grouping.runWithin limit work bound budget = some (grouping.run work bound budget) ∧
      (grouping.run work bound budget).1.elapsed ≤ limit := by
  induction budget generalizing grouping with
  | zero => exact ⟨rfl, (Nat.le_add_right _ _).trans affords.room⟩
  | succ budget ih =>
    unfold runWithin run
    by_cases done : grouping.residual.isDone = true
    · rw [if_pos done, if_pos done]
      exact ⟨rfl, (Nat.le_add_right _ _).trans affords.room⟩
    · obtain ⟨next, advanced, advances⟩ := inOrder.exists_advance sound
      rw [if_neg done, if_neg done, affords.advanceWithin_eq inOrder sound, advanced]
      exact ih (affords.of_advances advances) (inOrder.of_advances advances)

end Affords

end Grouping

/-! ## The pass -/

namespace Program

variable {program : Program} {table : DurationTable} {rule : DelayRule} {side : CarriedSide}
  {schedule : Schedule}

/-- Schedules a program in lock step, with arithmetic within a limit. -/
def lockStepWithin (limit : Tick) (program : Program) (table : DurationTable) (rule : DelayRule)
    (side : CarriedSide) : Option Run :=
  match program.ordered with
  | .error e => some (.failed program e)
  | .ok (precedence, _) =>
    let resolution := program.resolve table program.ids
    match resolution.failure with
    | some e => some (.failed resolution.program (.duration e))
    | none => do
      let work : Workload :=
        { name := program.name
          jobs := resolution.jobs.toArray
          precedence := precedence
          numResources := program.numResources
          rule := rule
          side := side }
      let (grouping, failure) ←
        (Grouping.start work).runWithin limit work work.stepBound work.stepBound
      let notes := grouping.notes
      match failure with
      | some e => return { program := resolution.program, notes, result := .error e }
      | none =>
        let schedule ←
          Schedule.sealedForWithin limit program grouping.entries resolution.anomalies
        return { program := resolution.program, notes, result := .ok schedule }

/-- At the start there is room for everything if there is room for the sum of all durations.

**Proof sketch.** At the start everything is pending, what is left of each operation is its
duration, and nothing has elapsed. -/
lemma affords_start (lasts : program.Lasts table duration)
    (fits : program.totalDuration duration ≤ limit) (rule : DelayRule) (side : CarriedSide) :
    Grouping.Affords limit duration (.start (program.workload table rule side)) := by
  obtain ⟨resolves, -⟩ := resolve_of_lasts lasts fun _ => List.mem_range.mp
  have pending : (Grouping.start (program.workload table rule side)).residual.pending =
      program.ids := congrArg List.range (size_precedence program)
  refine ⟨fun id waits => ?_, ?_⟩
  · rw [pending] at waits
    cases found : (program.workload table rule side).jobs[id]? with
    | none => simp [Grouping.start, found]
    | some job =>
      obtain ⟨-, -, ticks⟩ := job_of_workload resolves found
      have same : job.ticks = duration id :=
        Option.some.inj (ticks.symm.trans (lasts id (List.mem_range.mp waits)))
      simp [Grouping.start, found, same]
  · rw [pending]
    exact (Nat.zero_add _).le.trans fits

/-- Lock-step scheduling never computes a tick beyond the sum of all durations.

**Proof sketch.** At first everything is pending and there is room for all of it (`affords_start`).
Each step keeps the room (`Affords.of_advances`), so the bounded run makes the same steps, and it
ends where its last step ends, within the limit. -/
theorem WellFormed.lockStepWithin_eq (wellFormed : program.WellFormed)
    (lasts : program.Lasts table duration) (fits : program.totalDuration duration ≤ limit)
    (rule : DelayRule) (side : CarriedSide) :
    program.lockStepWithin limit table rule side = some (program.lockStep table rule side) ∧
      ∀ schedule, (program.lockStep table rule side).result = .ok schedule →
        schedule.Within limit := by
  unfold lockStepWithin lockStep
  cases ordered : program.ordered with
  | error e => exact ⟨rfl, by simp [Run.failed]⟩
  | ok found =>
    obtain ⟨precedence, order⟩ := found
    obtain ⟨-, rfl, acyclic⟩ := ordered_eq_ok ordered
    obtain ⟨resolves, -⟩ := resolve_of_lasts lasts fun _ => List.mem_range.mp
    obtain ⟨last, ran, run⟩ := wellFormed.exists_lockStepRun acyclic resolves rule side
    obtain ⟨computed, within⟩ := (affords_start lasts fits rule side).runWithin_eq
      run.sound.inOrder_start run.sound (program.workload table rule side).stepBound
      (program.workload table rule side).stepBound
    have ends : latestStop last.entries ≤ limit := by
      rw [run.latestStop_eq]
      rwa [← Workload.grouping, ran] at within
    rw [← Workload.grouping, ran] at computed
    simp only [Workload.grouping, Program.workload] at computed ran
    simp only [run.resolves, computed, ran, Option.bind_eq_bind, Option.bind_some,
      Schedule.sealedForWithin_eq ends]
    refine ⟨rfl, fun schedule ok => ?_⟩
    cases ok
    exact ⟨rfl, ends⟩

end Program

end Timetable
