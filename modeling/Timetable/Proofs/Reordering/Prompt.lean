import Timetable.Proofs.LockStep.Steady
import Timetable.Proofs.Reordering.Idle

/-!
# Operations start when their predecessors have finished

In a step, an operation starts when its resources are free and its immediate predecessors have
finished. The predecessors alone would do: whatever took one of the resources before it comes before
it along a chain of immediate predecessors, and the last of these finishes no earlier.

This settles what a step does with every operation. One whose predecessors are all completed is
taken exactly if it fits behind them, and if it is a delay that does not fit, its front part is
taken exactly if the step is not over by then.

## Main definitions

* `Step.due` — when all immediate predecessors of an operation have finished.
* `Step.Prompt` — whatever is placed starts when it is due, and idle time bridges the gaps.
* `Step.Filled` — a step into which nothing more fits.
* `Step.Cuttable` — a delay of which the front part is taken.

## Main results

* `Step.Recorded.earliest_eq_due` — an operation can start when it is due.
* `Step.filled_fill` — nothing more fits into a step that was filled.
* `Step.Filled.taken`, `Step.Filled.cut`, `Step.Filled.untouched` — what is made of every operation.
* `Step.Prompt.bridged_padded` — idle time bridges the gaps of a step.
-/

set_option autoImplicit false

namespace Timetable

open Relation

variable {work : Workload} {begun : Residual} {remaining : Array Tick} {origin length tick : Tick}
  {step next : Step} {job : Job} {id before after : OpId} {entry : Entry}

namespace Step

/-- The tick of a step at which all immediate predecessors of an operation have finished. -/
def due (work : Workload) (step : Step) (id : OpId) : Tick :=
  latest ((work.precedence.preds id).map step.finishOf)

/-- Whatever was made from an operation starts when the operation is due, and an operation that was
completed finishes when what was left of it is over. Idle time bridges the gaps in between. -/
structure Prompt (work : Workload) (begun : Residual) (step : Step) : Prop where
  timeline_eq : step.timeline.origin = step.origin
  bridges : step.timeline.Bridges step.entries
  starts : ∀ entry ∈ step.entries, ∀ id, entry.source = some id →
    entry.start = step.origin + step.due work id
  finishes : ∀ id ∈ begun.pending, id ∉ step.residual.pending →
    step.finishOf id = step.due work id + step.left id

/-- A step into which nothing more fits, and in which no delay was cut. -/
structure Filled (work : Workload) (begun : Residual) (remaining : Array Tick)
    (origin length : Tick) (step : Step) : Prop
    extends Recorded work begun remaining origin length step, Prompt work begun step where
  remaining_eq : step.remaining = remaining
  finished : ∀ id, step.finishOf id ≠ 0 → id ∈ begun.pending ∧ id ∉ step.residual.pending
  refused : ∀ id ∈ step.residual.frontier, work.isTimestep id = false →
    length < step.due work id + step.left id

/-! ## When an operation is due -/

/-- An operation is due when its immediate predecessors have finished. -/
lemma due_le_iff : step.due work id ≤ tick ↔
    ∀ before, work.precedence.Edge before id → step.finishOf before ≤ tick :=
  latest_le_iff.trans List.forall_mem_map

/-- What comes before an operation that is completed is completed. -/
lemma Underway.done_of_edge (underway : Underway work begun step)
    (edge : work.precedence.Edge before after) (done : after ∉ step.residual.pending) :
    before ∉ step.residual.pending := fun pending =>
  done (underway.ongoing.pending_of_edge (underway.precedence.symm ▸ edge) pending)

/-- If an operation was completed in a step, there is an entry made from it. -/
lemma Recorded.exists_entry (recorded : Recorded work begun remaining origin length step)
    (pending : id ∈ begun.pending) (done : id ∉ step.residual.pending) :
    ∃ entry ∈ step.entries, entry.source = some id := by
  have single : partsOf id step.entries ≠ [] := by
    cases recorded.handles id with
    | untouched _ _ same => exact absurd (same.mpr pending) done
    | cut _ _ _ ready => exact absurd (Residual.mem_pending_of_mem_frontier ready) done
    | taken _ _ _ _ _ _ parts =>
      rw [parts]
      exact List.cons_ne_nil _ _
  obtain ⟨entry, member⟩ := List.exists_mem_of_ne_nil _ single
  exact ⟨entry, mem_partsOf.mp member⟩

/-- Whatever comes behind an entry along a chain, and was completed, starts when the entry has
ended.

**Proof sketch.** Induction on the chain. Everything along it was pending when the step began and is
completed now, so it has an entry, and entries respect immediate predecessors. -/
lemma Recorded.exists_behind (recorded : Recorded work begun remaining origin length step)
    (member : entry ∈ step.entries) (source : entry.source = some before)
    (chain : TransGen work.precedence.Edge before after) (done : after ∉ step.residual.pending) :
    ∃ other ∈ step.entries, other.source = some after ∧ entry.stop ≤ other.start := by
  have waiting := (recorded.source entry member before source).1
  induction chain with
  | @single after edge =>
    have waiting' := recorded.begun_ongoing.pending_of_edge
      (recorded.begun_precedence.symm ▸ edge) waiting
    obtain ⟨other, member', source'⟩ := recorded.exists_entry waiting' done
    exact ⟨other, member', source',
      recorded.ordered entry member other member' before after source source' edge⟩
  | @tail middle after _ edge ih =>
    obtain ⟨between, member', source', le⟩ := ih (recorded.done_of_edge edge done)
    have waiting' := (recorded.source between member' middle source').1
    have waiting'' := recorded.begun_ongoing.pending_of_edge
      (recorded.begun_precedence.symm ▸ edge) waiting'
    obtain ⟨other, member'', source''⟩ := recorded.exists_entry waiting'' done
    have order := recorded.ordered between member' other member'' middle after source' source'' edge
    exact ⟨other, member'', source'', le.trans ((Nat.le_add_right _ _).trans order)⟩

/-- An entry made from an operation that comes before a ready one ends no later than the ready one
is due.

**Proof sketch.** The last operation of the chain is an immediate predecessor of the ready one, so
its entry ends by the due tick. What comes before it ends when its entry starts
(`Recorded.exists_behind`). -/
lemma Recorded.stop_le_due (recorded : Recorded work begun remaining origin length step)
    (member : entry ∈ step.entries) (source : entry.source = some before)
    (chain : TransGen work.precedence.Edge before id) (ready : id ∈ step.residual.frontier) :
    entry.stop ≤ step.origin + step.due work id := by
  have free := (recorded.ongoing.mem_frontier_iff.mp ready).2
  rw [recorded.precedence] at free
  have finish : ∀ {last}, work.precedence.Edge last id → ∀ other ∈ step.entries,
      other.source = some last → other.stop ≤ step.origin + step.due work id := by
    intro last edge other member' source'
    have stop := recorded.stop_le other member' last source' (free last edge)
    exact stop.trans (Nat.add_le_add_left (due_le_iff.mp le_rfl last edge) _)
  cases chain with
  | single edge => exact finish edge entry member source
  | @tail middle _ chain edge =>
    obtain ⟨other, member', source', le⟩ :=
      recorded.exists_behind member source chain (free middle edge)
    exact le.trans ((Nat.le_add_right _ _).trans (finish edge other member' source'))

/-- **An operation can start when it is due.** If nothing was made from a ready operation yet, its
resources are free as soon as its immediate predecessors have finished.

**Proof sketch.** If a resource is taken at all, then up to the end of an entry that was made from
another operation. That one is completed: if it was cut and is still ready, it would be ready
together with an operation that shares a resource with it. So it comes before the ready operation,
and has ended when that one is due. -/
theorem Recorded.earliest_eq_due (recorded : Recorded work begun remaining origin length step)
    (prompt : Prompt work begun step) (sound : work.Sound)
    (found : work.jobs[job.id]? = some job) (ready : job.id ∈ step.residual.frontier)
    (untouched : ∀ entry ∈ step.entries, entry.source ≠ some job.id) :
    step.earliest work job = step.due work job.id := by
  obtain ⟨pending, free⟩ := recorded.ongoing.mem_frontier_iff.mp ready
  refine Nat.max_eq_right (Timeline.earliest_le_iff.mpr fun resource used => ?_)
  rcases prompt.bridges.free resource with zero | ⟨entry, member, sourced, used', stop⟩
  · exact zero ▸ Nat.zero_le _
  obtain ⟨other, source⟩ := Option.ne_none_iff_exists'.mp sourced
  have distinct : other ≠ job.id := by
    rintro rfl
    exact untouched entry member source
  obtain ⟨-, ⟨otherJob, found', same⟩, apart⟩ := recorded.source entry member other source
  rw [same] at used'
  have done : other ∉ step.residual.pending := by
    intro waiting
    rw [← recorded.precedence] at apart
    exact sound.not_shared recorded.ongoing recorded.precedence recorded.ongoing
      recorded.precedence found found' distinct ready pending waiting
      (recorded.precedence ▸ apart) used used'
  have chain : TransGen work.precedence.Edge other job.id := by
    rcases Nat.lt_or_gt_of_ne distinct with smaller | greater
    · exact sound.shared smaller found' found used' used
    · have behind := sound.shared greater found found' used used'
      rw [← recorded.precedence] at behind
      exact absurd (recorded.ongoing.pending_of_transGen behind pending) done
  have stop_le := recorded.stop_le_due member source chain ready
  rw [stop, prompt.timeline_eq] at stop_le
  exact Nat.add_le_add_iff_left.mp stop_le

/-! ## Placing entries when they are due -/

/-- Placing an entry bridges the gaps in front of it. -/
lemma Places.bridges (places : Places work step job entry next) (sound : work.Sound)
    (prompt : Prompt work begun step) (underway : Underway work begun step) :
    next.timeline.origin = next.origin ∧ next.timeline.Bridges next.entries := by
  have declared : ∀ resource ∈ entry.resources, resource < step.timeline.nextFree.size := by
    intro resource used
    rw [places.resources] at used
    exact underway.timeline_size ▸ sound.declared places.found resource used
  have bridges := prompt.bridges.place entry (step.earliest work job)
    (by simp [places.source]) declared (by rw [places.start, prompt.timeline_eq])
  rw [places.resources, ← places.timeline, ← places.entries] at bridges
  refine ⟨?_, bridges⟩
  rw [places.timeline, Timeline.origin_occupy, Timeline.origin_pad, prompt.timeline_eq,
    places.origin]

namespace Prompt

/-- Nothing was placed in a step that begins. -/
lemma begin (work : Workload) (begun : Residual) (remaining : Array Tick)
    (origin length : Tick) : Prompt work begun (Step.start work begun remaining origin length) where
  timeline_eq := rfl
  bridges := Timeline.bridges_start _ _
  starts := by simp [Step.start]
  finishes := fun _ pending done => absurd pending done

/-- Taking an operation when it is due, or refusing it, keeps the step prompt.

**Proof sketch.** An operation is accepted at the earliest tick the resources and predecessors
allow, which is when it is due (`earliest_eq_due`). What is due when it has finished cannot have
been completed before, so no due tick that counts changes. -/
lemma takes (prompt : Prompt work begun step)
    (recorded : Recorded work begun remaining origin length step)
    (filling : Filling work begun step) (sound : work.Sound) (takes : Takes work step next) :
    Prompt work begun next := by
  cases takes with
  | refuse => exact ⟨prompt.timeline_eq, prompt.bridges, prompt.starts, prompt.finishes⟩
  | @accept job found ready plain fits =>
    have places := places_accept found ready
    obtain ⟨pending, free⟩ := recorded.ongoing.mem_frontier_iff.mp ready
    rw [recorded.precedence] at free
    have due_eq := recorded.earliest_eq_due prompt sound found ready (filling.untouched pending)
    have inside : job.id < step.finish.size :=
      recorded.finish_size ▸ (Array.getElem?_eq_some_iff.mp found).1
    have finishOf := finishOf_accept inside (step.earliest work job)
    -- what is due when the operation has finished cannot be completed before it
    have keeps : ∀ {id}, (∀ before, work.precedence.Edge before id →
        before ∉ step.residual.pending) →
          (step.accept job (step.earliest work job)).due work id = step.due work id := by
      intro id apart
      refine congrArg latest (List.map_congr_left fun before edge => ?_)
      rw [finishOf, if_neg]
      rintro rfl
      exact apart _ edge pending
    obtain ⟨origin_eq, bridges⟩ := places.bridges sound prompt recorded.toUnderway
    refine ⟨origin_eq, bridges, fun other member id source => ?_, fun id waits done => ?_⟩
    · rcases places.eq_of_source member source with old | ⟨rfl, rfl⟩
      · rw [keeps (recorded.source other old id source).2.2]
        exact prompt.starts other old id source
      · rw [keeps free, ← due_eq]
        exact places.start
    · rw [finishOf]
      split
      · rename_i same
        subst same
        rw [keeps free, ← due_eq]
        rfl
      · rename_i distinct
        have done' : id ∉ step.residual.pending := fun left => done <|
          (recorded.ongoing.toConsistent.mem_pending_complete ready).mpr ⟨distinct, left⟩
        rw [keeps fun before edge => recorded.done_of_edge edge done']
        exact prompt.finishes id waits done'

/-- Cutting a delay when it is due keeps the step prompt.

**Proof sketch.** The delay was not touched before, since else its resource would be occupied up to
the end of the step. It is cut where it is due (`earliest_eq_due`). Nothing is completed, so that
finishes and due ticks are as before. -/
lemma cuts (prompt : Prompt work begun step)
    (recorded : Recorded work begun remaining origin length step) (sound : work.Sound)
    (cuts : Cuts work step next) : Prompt work begun next := by
  cases cuts with
  | @cut job span resource found delay ready room long =>
    have places := places_cut found delay ready
    have pending := Residual.mem_pending_of_mem_frontier ready
    have used : resource ∈ job.operation.resources := by
      rw [delay]
      exact List.mem_singleton_self resource
    have untouched : ∀ entry ∈ step.entries, entry.source ≠ some job.id := by
      cases recorded.handles job.id with
      | untouched none => exact partsOf_eq_nil_iff.mp none
      | taken _ _ _ done => exact absurd pending done
      | cut found' delay' _ _ _ _ _ covered =>
        cases found.symm.trans found'
        cases delay.symm.trans delay'
        have free := Timeline.earliest_le_iff.mp (timeline_earliest_le work step job) resource used
        exact absurd (covered.trans free) (Nat.not_le_of_lt room)
    have due_eq := recorded.earliest_eq_due prompt sound found ready untouched
    obtain ⟨origin_eq, bridges⟩ := places.bridges sound prompt recorded.toUnderway
    refine ⟨origin_eq, bridges, fun other member id source => ?_, fun id waits done => ?_⟩
    · rcases places.eq_of_source member source with old | ⟨rfl, rfl⟩
      · exact prompt.starts other old id source
      · exact places.start.trans (congrArg (step.origin + ·) due_eq)
    · have distinct : id ≠ job.id := by
        rintro rfl
        exact done pending
      have left : (step.cut job.id resource (step.earliest work job)).left id = step.left id := by
        simp [Step.left, cut, Array.getElem?_setIfInBounds_ne (Ne.symm distinct)]
      rw [left]
      exact prompt.finishes id waits done

/-- Moves of filling a step keep it prompt. -/
lemma of_takes (prompt : Prompt work begun step)
    (recorded : Recorded work begun remaining origin length step)
    (filling : Filling work begun step) (sound : work.Sound)
    (moves : ReflTransGen (Takes work) step next) : Prompt work begun next := by
  induction moves with
  | refl => exact prompt
  | tail moves takes ih =>
    exact ih.takes (recorded.of_takes filling sound moves) (filling.of_takes sound moves) sound
      takes

/-- Moves of cutting delays keep it prompt. -/
lemma of_cuts (prompt : Prompt work begun step)
    (recorded : Recorded work begun remaining origin length step) (sound : work.Sound)
    (moves : ReflTransGen (Cuts work) step next) : Prompt work begun next := by
  induction moves with
  | refl => exact prompt
  | tail moves cuts ih => exact ih.cuts (recorded.of_cuts sound moves) sound cuts

/-- What was made from an operation starts when it is due. -/
lemma start_eq (prompt : Prompt work begun step) {start : Tick}
    (parts : partsOf id step.entries = [entry]) (begins : entry.start = step.origin + start) :
    start = step.due work id := by
  obtain ⟨member, source⟩ := mem_partsOf.mp (parts ▸ List.mem_singleton_self entry)
  exact Nat.add_left_cancel (begins.symm.trans (prompt.starts entry member id source))

/-- With idle time up to its end, a step is bridged from its origin on.

**Proof sketch.** Padding covers all resources up to the end of the step, and this is
`Bridges.closed`. -/
theorem bridged_padded (prompt : Prompt work begun step) {numResources : Nat}
    (tiled : Tiled numResources origin length step) :
    Bridged numResources origin (origin + length) step.padded.entries := by
  have tiles := tiled.padded
  obtain rfl := tiled.timeline
  obtain rfl := tiled.length_eq
  exact prompt.bridges.closed tiles

end Prompt

/-! ## A step that was filled -/

/-- Nothing more fits into a step that was filled.

**Proof sketch.** The step starts prompt and stays so by `Prompt.takes`. When no more is taken, each
ready operation was refused, and it was refused because from its due tick on it would not fit. -/
theorem filled_fill (sound : work.Sound) (ongoing : begun.Ongoing)
    (same : begun.precedence = work.precedence) (size : remaining.size = work.jobs.size)
    (origin length : Tick) : Filled work begun remaining origin length
      ((Step.start work begun remaining origin length).fill work) := by
  have started := Filling.start ongoing same size origin length
  have moves := reflTransGen_fill sound started.ongoing.toConsistent
  have filling := started.of_takes sound moves
  have recorded := recorded_fill sound ongoing same size origin length
  have prompt := (Prompt.begin work begun remaining origin length).of_takes
    (.start ongoing same size origin length) started sound moves
  have refused := (settles_fill sound started.ongoing.toConsistent).refused
  obtain ⟨-, length_eq, remaining_eq⟩ := keeps_of_takes moves
  refine ⟨recorded, prompt, remaining_eq, fun id finished => ?_, fun id ready plain => ?_⟩
  · obtain ⟨entry, member, source⟩ := filling.finish id finished
    exact ⟨(filling.source entry member id source).1, filling.taken entry member id source⟩
  · have pending := Residual.mem_pending_of_mem_frontier ready
    obtain ⟨job, found, rfl⟩ := sound.exists_job filling.ongoing filling.precedence pending
    have long := refused job.id ready job found (by simpa [Workload.isTimestep, found] using plain)
    rwa [recorded.earliest_eq_due prompt sound found ready (filling.untouched pending),
      recorded.length_eq] at long

namespace Filled

/-- An operation that was taken ends in the step. -/
lemma due_add_le (filled : Filled work begun remaining origin length step)
    (pending : id ∈ begun.pending) (done : id ∉ step.residual.pending) :
    step.due work id + remaining[id]?.getD 0 ≤ length := by
  cases filled.handles id with
  | untouched _ _ same => exact absurd (same.mpr pending) done
  | cut _ _ _ ready => exact absurd (Residual.mem_pending_of_mem_frontier ready) done
  | @taken job start _ _ _ _ fits _ parts =>
    rwa [← filled.toPrompt.start_eq parts rfl, ← filled.length_eq]

/-- An operation whose predecessors are completed is taken exactly if it fits behind them. -/
lemma done_iff (filled : Filled work begun remaining origin length step)
    (plain : work.isTimestep id = false) (pending : id ∈ begun.pending)
    (free : ∀ before, work.precedence.Edge before id → before ∉ step.residual.pending) :
    id ∉ step.residual.pending ↔ step.due work id + remaining[id]?.getD 0 ≤ length := by
  refine ⟨filled.due_add_le pending, fun fits left => ?_⟩
  rw [← filled.precedence] at free
  have ready := filled.ongoing.mem_frontier_iff.mpr ⟨left, free⟩
  have refused := filled.refused id ready plain
  rw [Step.left, filled.remaining_eq] at refused
  exact Nat.not_le_of_lt refused fits

/-- An operation that was not taken has no finish. -/
lemma finishOf_eq_zero (filled : Filled work begun remaining origin length step)
    (passed : id ∈ begun.pending → id ∈ step.residual.pending) : step.finishOf id = 0 := by
  by_contra finished
  obtain ⟨pending, done⟩ := filled.finished id finished
  exact done (passed pending)

end Filled

/-! ## Cutting delays -/

/-- Cutting delays changes no finish. -/
lemma due_of_cuts (moves : ReflTransGen (Cuts work) step next) (id : OpId) :
    next.due work id = step.due work id := by
  induction moves with
  | refl => rfl
  | tail _ cuts ih =>
    cases cuts with
    | cut => exact ih

/-- A ready delay that is due before the step is over. If it was not taken, it is cut. -/
structure Cuttable (work : Workload) (length : Tick) (step : Step) (id : OpId) : Prop where
  delay : work.isDelay id = true
  ready : id ∈ step.residual.frontier
  room : step.due work id < length

namespace Filled

/-- Cutting delays keeps the record of a step, and changes neither what is pending nor when
operations are due. -/
lemma cutDelays (filled : Filled work begun remaining origin length step) (sound : work.Sound) :
    Recorded work begun remaining origin length (step.cutDelays work) ∧
      Prompt work begun (step.cutDelays work) ∧
        (step.cutDelays work).residual = step.residual ∧
          ∀ id, (step.cutDelays work).due work id = step.due work id := by
  have moves := reflTransGen_cutDelays sound step
  exact ⟨filled.toRecorded.of_cuts sound moves,
    filled.toPrompt.of_cuts filled.toRecorded sound moves, residual_of_cuts moves,
    due_of_cuts moves⟩

/-- What becomes of an operation that was taken.

**Proof sketch.** An operation that was completed is neither untouched nor cut, so its one entry is
as recorded, and it starts when it is due. -/
theorem taken (filled : Filled work begun remaining origin length step) (sound : work.Sound)
    (pending : id ∈ begun.pending) (done : id ∉ step.residual.pending) :
    ∃ job, work.jobs[id]? = some job ∧ partsOf id (step.cutDelays work).entries =
      [⟨job.operation.rest (remaining[id]?.getD 0) job.ticks, origin + step.due work id,
        remaining[id]?.getD 0, some id⟩] := by
  obtain ⟨recorded, prompt, residual, due_eq⟩ := filled.cutDelays sound
  rw [← residual] at done
  cases recorded.handles id with
  | untouched _ _ same => exact absurd (same.mpr pending) done
  | cut _ _ _ ready => exact absurd (Residual.mem_pending_of_mem_frontier ready) done
  | @taken job start found _ _ _ _ _ parts =>
    rw [prompt.start_eq parts rfl, due_eq, recorded.origin_eq] at parts
    exact ⟨job, found, parts⟩

/-- A delay that can be cut has a part in the step.

**Proof sketch.** The delay does not fit, as it was refused, and there is room for a part of it from
its due tick on. Cutting others before it changes neither (`parts_foldl_cutDelay`). -/
lemma parts_cutDelays (filled : Filled work begun remaining origin length step)
    (sound : work.Sound) (cuttable : Cuttable work length step id) :
    partsOf id (step.cutDelays work).entries ≠ [] := by
  obtain ⟨job, span, resource, found, delay⟩ := work.exists_delay cuttable.delay
  have plain : work.isTimestep id = false := by
    rw [Workload.isTimestep, found, Option.any_some, delay]
    rfl
  have long := filled.refused id cuttable.ready plain
  rw [Step.left, filled.remaining_eq] at long
  obtain rfl := sound.numbered found
  refine filled.toRecorded.parts_foldl_cutDelay sound found delay (fun _ ready => ready)
    cuttable.ready (fun next moves none => ?_) cuttable.room long
  rw [← due_of_cuts moves]
  exact (filled.toRecorded.of_cuts sound moves).earliest_eq_due
    (filled.toPrompt.of_cuts filled.toRecorded sound moves) sound found
    (residual_of_cuts moves ▸ cuttable.ready) (partsOf_eq_nil_iff.mp none)

/-- What becomes of a delay that can be cut.

**Proof sketch.** Nothing else can have happened to the delay: a cuttable delay has a part
(`parts_cutDelays`), and it is still pending. The part starts when the delay is due and ends with
the step. -/
theorem cut (filled : Filled work begun remaining origin length step) (sound : work.Sound)
    (cuttable : Cuttable work length step id) :
    ∃ job span resource, work.jobs[id]? = some job ∧ job.operation = .delay span resource ∧
      partsOf id (step.cutDelays work).entries =
        [.idle resource (origin + step.due work id) (length - step.due work id) (some id)] ∧
      (step.cutDelays work).left id = remaining[id]?.getD 0 - (length - step.due work id) := by
  obtain ⟨recorded, prompt, residual, due_eq⟩ := filled.cutDelays sound
  cases recorded.handles id with
  | untouched none => exact absurd none (filled.parts_cutDelays sound cuttable)
  | taken _ _ _ done =>
    rw [residual] at done
    exact absurd (Residual.mem_pending_of_mem_frontier cuttable.ready) done
  | @cut job span resource start found delay _ _ _ _ _ _ left parts =>
    have start_eq := prompt.start_eq parts rfl
    rw [due_eq] at start_eq
    rw [start_eq, recorded.length_eq] at left parts
    rw [recorded.origin_eq] at parts
    exact ⟨job, span, resource, found, delay, parts, left⟩

/-- Of all other operations nothing is made, and as much of them is left as before.

**Proof sketch.** Of the three things that can happen to an operation, being taken needs it to be
completed, and being cut needs it to be cuttable. -/
theorem untouched (filled : Filled work begun remaining origin length step) (sound : work.Sound)
    (passed : id ∈ begun.pending → id ∈ step.residual.pending)
    (uncut : ¬ Cuttable work length step id) :
    partsOf id (step.cutDelays work).entries = [] ∧
      (step.cutDelays work).left id = remaining[id]?.getD 0 := by
  obtain ⟨recorded, prompt, residual, due_eq⟩ := filled.cutDelays sound
  cases recorded.handles id with
  | untouched none left => exact ⟨none, left⟩
  | taken _ _ pending done =>
    rw [residual] at done
    exact absurd (passed pending) done
  | @cut job span resource start found delay _ ready room _ _ _ _ parts =>
    refine absurd ⟨?_, residual ▸ ready, ?_⟩ uncut
    · rw [Workload.isDelay, found, Option.any_some, delay]
      rfl
    · rwa [← due_eq, ← prompt.start_eq parts rfl, ← recorded.length_eq]

end Filled

end Step

end Timetable
