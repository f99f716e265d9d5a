import Timetable.Proofs.Reordering.Prompt

/-!
# A step does not depend on how operations are listed

Two workloads may give different numbers to the same operations. When a step begins, let the same
operations be pending in both, and let as much of each be left. If the steps are equally long, then
they take the same operations at the same ticks: this holds of an operation as soon as it holds of
its immediate predecessors, since these decide when it is due, and then its length decides whether
it fits. Delays that are cut are the same as well, and idle time follows from the operations.

## Main definitions

* `Workload.Relabels` — two workloads with the same operations under different numbers.

## Main results

* `Step.Filled.relabeled` — the same operations are taken, and finish at the same ticks.
* `Step.Filled.cutDelays_relabeled` — the same is made of every operation.
-/

set_option autoImplicit false

namespace Timetable

open Relation

/-- Two workloads have the same operations under different numbers: operation `id` of the first one
is operation `rename id` of the other one, and the other way around. They have the same
precedence. -/
structure Workload.Relabels (rename : OpId → OpId) (work other : Workload) : Prop where
  involutive : rename.Involutive
  job : ∀ id, other.jobs[rename id]?.map (fun job => (job.operation, job.ticks)) =
    work.jobs[id]?.map fun job => (job.operation, job.ticks)
  edge : ∀ {before after : OpId},
    other.precedence.Edge (rename before) (rename after) ↔ work.precedence.Edge before after
  numResources : other.numResources = work.numResources
  rule : other.rule = work.rule

variable {work other : Workload} {rename : OpId → OpId} {begun begun' residual residual' : Residual}
  {remaining remaining' : Array Tick} {origin length : Tick} {step step' : Step} {job : Job}
  {id before after : OpId}

/-! ## Workloads with the same operations -/

namespace Workload.Relabels

/-- The job of an operation under its new number. -/
lemma exists_job (relabels : Relabels rename work other) (found : work.jobs[id]? = some job) :
    ∃ job', other.jobs[rename id]? = some job' ∧ job'.operation = job.operation ∧
      job'.ticks = job.ticks := by
  have same := relabels.job id
  rw [found, Option.map_some, Option.map_eq_some_iff] at same
  obtain ⟨job', found', same⟩ := same
  exact ⟨job', found', congrArg Prod.fst same, congrArg Prod.snd same⟩

/-- A delay is one under its new number. -/
lemma isDelay_eq (relabels : Relabels rename work other) (id : OpId) :
    other.isDelay (rename id) = work.isDelay id := by
  have same := congrArg (Option.any fun job => job.1.isDelay) (relabels.job id)
  simpa [Workload.isDelay, Option.any_map] using same

/-- Where the same operations are pending, the same operations are ready. -/
lemma mem_frontier_iff (relabels : Relabels rename work other)
    (pending : ∀ id, rename id ∈ residual'.pending ↔ id ∈ residual.pending)
    (ongoing : residual.Ongoing) (same : residual.precedence = work.precedence)
    (ongoing' : residual'.Ongoing) (same' : residual'.precedence = other.precedence) (id : OpId) :
    rename id ∈ residual'.frontier ↔ id ∈ residual.frontier := by
  rw [ongoing.mem_frontier_iff, ongoing'.mem_frontier_iff, same, same', pending]
  refine and_congr_right fun _ => ?_
  rw [relabels.involutive.surjective.forall]
  exact forall_congr' fun before => by rw [relabels.edge, pending]

end Workload.Relabels

namespace Step

/-! ## The same operations are taken -/

/-- An operation is due at the same tick if its immediate predecessors finish at the same ticks. -/
lemma due_relabeled (relabels : work.Relabels rename other) (id : OpId)
    (same : ∀ before, work.precedence.Edge before id →
      step'.finishOf (rename before) = step.finishOf before) :
    step'.due other (rename id) = step.due work id := by
  refine Nat.le_antisymm (due_le_iff.mpr fun before edge => ?_)
    (due_le_iff.mpr fun before edge => ?_)
  · obtain ⟨before, rfl⟩ := relabels.involutive.surjective before
    rw [relabels.edge] at edge
    rw [same before edge]
    exact due_le_iff.mp le_rfl before edge
  · rw [← same before edge]
    exact due_le_iff.mp le_rfl _ (relabels.edge.mpr edge)

/-- An operation that neither of two steps takes finishes in neither. -/
lemma Filled.finishOf_relabeled (filled : Filled work begun remaining origin length step)
    (filled' : Filled other begun' remaining' origin length step')
    (pending : rename id ∈ begun'.pending ↔ id ∈ begun.pending)
    (same : rename id ∈ step'.residual.pending ↔ id ∈ step.residual.pending)
    (passed : id ∈ begun.pending → id ∈ step.residual.pending) :
    step'.finishOf (rename id) = step.finishOf id := by
  rw [filled.finishOf_eq_zero passed, filled'.finishOf_eq_zero fun waits =>
    same.mpr (passed (pending.mp waits))]

/-- An operation that waits for nothing any more, and is due at the same tick in two steps, is taken
by both or by neither, and finishes at the same tick.

**Proof sketch.** It is taken if what is left of it fits behind the tick at which it is due, and as
much is left of it in both steps. -/
lemma Filled.relabeled_of_free (filled : Filled work begun remaining origin length step)
    (filled' : Filled other begun' remaining' origin length step')
    (plain : work.isTimestep id = false) (plain' : other.isTimestep (rename id) = false)
    (waits : id ∈ begun.pending) (waits' : rename id ∈ begun'.pending)
    (left : remaining'[rename id]?.getD 0 = remaining[id]?.getD 0)
    (free : ∀ before, work.precedence.Edge before id → before ∉ step.residual.pending)
    (free' : ∀ before, other.precedence.Edge before (rename id) →
      before ∉ step'.residual.pending)
    (due_eq : step'.due other (rename id) = step.due work id) :
    (rename id ∈ step'.residual.pending ↔ id ∈ step.residual.pending) ∧
      step'.finishOf (rename id) = step.finishOf id := by
  have done := filled.done_iff plain waits free
  have done' := filled'.done_iff plain' waits' free'
  rw [due_eq, left, ← done] at done'
  have same := not_iff_not.mp done'
  refine ⟨same, ?_⟩
  by_cases taken : id ∈ step.residual.pending
  · exact filled.finishOf_relabeled filled' (iff_of_true waits' waits) same fun _ => taken
  · rw [filled.finishes id waits taken, filled'.finishes _ waits' (done'.mpr taken), due_eq,
      Step.left, Step.left, filled.remaining_eq, filled'.remaining_eq, left]

/-- **Two steps take the same operations**, and these finish at the same ticks.

**Proof sketch.** Induction along precedence. If some predecessor of an operation is still pending,
so is the operation. Otherwise it is due at the same tick in both steps, and is taken if what is
left of it fits behind that tick (`Filled.relabeled_of_free`). -/
theorem Filled.relabeled (filled : Filled work begun remaining origin length step)
    (filled' : Filled other begun' remaining' origin length step')
    (relabels : work.Relabels rename other) (sound : work.Sound)
    (plain : ∀ id, work.isTimestep id = false) (plain' : ∀ id, other.isTimestep id = false)
    (pending : ∀ id, rename id ∈ begun'.pending ↔ id ∈ begun.pending)
    (left : ∀ id ∈ begun.pending, remaining'[rename id]?.getD 0 = remaining[id]?.getD 0)
    (id : OpId) : (rename id ∈ step'.residual.pending ↔ id ∈ step.residual.pending) ∧
      step'.finishOf (rename id) = step.finishOf id := by
  induction id using Precedence.induction sound.precedence sound.acyclic with
  | step id ih =>
    by_cases waits : id ∈ begun.pending
    · by_cases free : ∀ before, work.precedence.Edge before id → before ∉ step.residual.pending
      · have free' : ∀ before, other.precedence.Edge before (rename id) →
            before ∉ step'.residual.pending := by
          intro before edge
          obtain ⟨before, rfl⟩ := relabels.involutive.surjective before
          have edge := relabels.edge.mp edge
          rw [(ih before edge).1]
          exact free before edge
        exact filled.relabeled_of_free filled' (plain id) (plain' _) waits ((pending id).mpr waits)
          (left id waits) free free' (due_relabeled relabels id fun before edge =>
            (ih before edge).2)
      · -- what waits for a pending operation is not taken
        simp only [not_forall, not_not] at free
        obtain ⟨before, edge, still⟩ := free
        have still' := (ih before edge).1.mpr still
        have waiting : id ∈ step.residual.pending :=
          filled.ongoing.pending_of_edge (filled.precedence.symm ▸ edge) still
        have waiting' : rename id ∈ step'.residual.pending :=
          filled'.ongoing.pending_of_edge
            (filled'.precedence.symm ▸ relabels.edge.mpr edge) still'
        have same := iff_of_true waiting' waiting
        exact ⟨same, filled.finishOf_relabeled filled' (pending id) same fun _ => waiting⟩
    · have same : rename id ∈ step'.residual.pending ↔ id ∈ step.residual.pending :=
        iff_of_false (fun left => waits ((pending id).mp (filled'.pending _ left)))
          fun left => waits (filled.pending id left)
      exact ⟨same, filled.finishOf_relabeled filled' (pending id) same fun still =>
        absurd still waits⟩

/-! ## The same entries are made -/

/-- A step makes at most one entry from an operation. -/
lemma Recorded.length_partsOf_le (recorded : Recorded work begun remaining origin length step)
    (id : OpId) : (partsOf id step.entries).length ≤ 1 := by
  cases recorded.handles id with
  | untouched none =>
    rw [none]
    exact Nat.zero_le _
  | taken _ _ _ _ _ _ single | cut _ _ _ _ _ _ _ _ _ single => rw [single, List.length_singleton]

/-- Two steps cut the same delays.

**Proof sketch.** A delay can be cut if it is ready and due before the step is over. Both hold in
one step if they hold in the other. -/
lemma Filled.cuttable_iff (filled : Filled work begun remaining origin length step)
    (filled' : Filled other begun' remaining' origin length step')
    (relabels : work.Relabels rename other)
    (taken : ∀ id, (rename id ∈ step'.residual.pending ↔ id ∈ step.residual.pending) ∧
      step'.finishOf (rename id) = step.finishOf id) (id : OpId) :
    Cuttable other length step' (rename id) ↔ Cuttable work length step id := by
  have ready := relabels.mem_frontier_iff (fun id => (taken id).1) filled.ongoing
    filled.precedence filled'.ongoing filled'.precedence id
  have due_eq := due_relabeled relabels id fun before _ => (taken before).2
  constructor
  all_goals
    rintro ⟨delay, among, room⟩
    refine ⟨?_, ?_, ?_⟩
  · rwa [← relabels.isDelay_eq]
  · exact ready.mp among
  · rwa [← due_eq]
  · rwa [relabels.isDelay_eq]
  · exact ready.mpr among
  · rwa [due_eq]

/-- Two steps make the same of every operation, and leave the same of those that are pending.

**Proof sketch.** Three cases. What was completed has one entry at its due tick (`Filled.taken`),
what can be cut has one part up to the end of the step (`Filled.cut`), and of all else nothing is
made (`Filled.untouched`). Due ticks are finishes of predecessors, which are the same, so each case
looks alike in both steps. -/
theorem Filled.cutDelays_relabeled (filled : Filled work begun remaining origin length step)
    (filled' : Filled other begun' remaining' origin length step')
    (relabels : work.Relabels rename other) (sound : work.Sound) (sound' : other.Sound)
    (pending : ∀ id, rename id ∈ begun'.pending ↔ id ∈ begun.pending)
    (left : ∀ id ∈ begun.pending, remaining'[rename id]?.getD 0 = remaining[id]?.getD 0)
    (taken : ∀ id, (rename id ∈ step'.residual.pending ↔ id ∈ step.residual.pending) ∧
      step'.finishOf (rename id) = step.finishOf id) (id : OpId) :
    partsOf (rename id) (step'.cutDelays other).entries =
        (partsOf id (step.cutDelays work).entries).map (.relabeled rename) ∧
      (id ∈ step.residual.pending →
        (step'.cutDelays other).left (rename id) = (step.cutDelays work).left id) := by
  have due_eq := due_relabeled relabels id fun before _ => (taken before).2
  by_cases done : id ∈ begun.pending ∧ id ∉ step.residual.pending
  · -- both steps take the operation
    obtain ⟨waits, done⟩ := done
    have waits' := (pending id).mpr waits
    have done' := (taken id).1.not.mpr done
    obtain ⟨job, found, parts⟩ := filled.taken sound waits done
    obtain ⟨job', found', parts'⟩ := filled'.taken sound' waits' done'
    obtain ⟨_, known, operation, ticks⟩ := relabels.exists_job found
    cases found'.symm.trans known
    refine ⟨?_, fun still => absurd still done⟩
    rw [parts, parts', due_eq, left id waits, operation, ticks]
    rfl
  · have passed : id ∈ begun.pending → id ∈ step.residual.pending := fun waits =>
      by_contra fun left => done ⟨waits, left⟩
    have passed' : rename id ∈ begun'.pending → rename id ∈ step'.residual.pending := fun waits =>
      (taken id).1.mpr (passed ((pending id).mp waits))
    have cuttable := filled.cuttable_iff filled' relabels taken id
    by_cases cut : Cuttable work length step id
    · -- both steps cut the delay
      have waits := filled.pending id (Residual.mem_pending_of_mem_frontier cut.ready)
      obtain ⟨job, span, resource, found, delay, parts, rest⟩ := filled.cut sound cut
      obtain ⟨job', span', resource', found', delay', parts', rest'⟩ :=
        filled'.cut sound' (cuttable.mpr cut)
      obtain ⟨_, known, operation, -⟩ := relabels.exists_job found
      cases found'.symm.trans known
      cases delay.symm.trans (operation.symm.trans delay')
      refine ⟨?_, fun _ => ?_⟩
      · rw [parts, parts', due_eq]
        rfl
      · rw [rest, rest', due_eq, left id waits]
    · -- neither step makes anything of the operation
      obtain ⟨none, rest⟩ := filled.untouched sound passed cut
      obtain ⟨none', rest'⟩ := filled'.untouched sound' passed' (cuttable.not.mpr cut)
      refine ⟨by rw [none, none', List.map_nil], fun still => ?_⟩
      rw [rest, rest', left id (filled.pending id still)]

end Step

end Timetable
