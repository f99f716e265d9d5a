import Timetable.Proofs.GapFree.Forward
import Timetable.Proofs.GapFree.Step
import Timetable.Scheduling.LockStep

/-!
# Lock-step scheduling leaves no gaps

Each group of a lock-step schedule leads all resources from the end of the group before it to its
own end, where its boundary stands. Groups of that form follow each other, an empty step being one
of no length, so the whole schedule leads all resources from tick zero to its last boundary.

## Main definitions

* `Group.Spans` — a group leads all resources from one tick to another and is closed there.
* `LockStepped` — groups that follow each other from one tick to another.

## Main results

* `Grouping.stepped_run` — the groups of a run follow each other.
* `LockStepped.gapFree` — the schedule of groups that follow each other has no gaps.
* `Program.lockStep_groups` — what a lock-step schedule is made of.
-/

set_option autoImplicit false

namespace Timetable

/-- The plain entries of a group lead all resources from tick `first` to tick `last`, where its
boundary closes them on all resources. -/
structure Group.Spans (numResources : Nat) (first last : Tick) (group : Group) : Prop where
  le : first ≤ last
  tiles : Tiles numResources (fun _ => first) group.entries fun _ => last
  plain : ∀ entry ∈ group.entries, Step.Plain entry
  boundary : ∃ source, group.boundary =
    .boundary (last - first) (List.range numResources) last source

/-- Groups that follow each other from tick `first` to tick `last`. -/
def LockStepped (numResources : Nat) : (first : Tick) → List Group → (last : Tick) → Prop
  | first, [], last => first = last
  | first, group :: groups, last =>
    ∃ middle, group.Spans numResources first middle ∧ LockStepped numResources middle groups last

section

variable {numResources : Nat} {first middle last : Tick} {groups : List Group} {group : Group}

/-! ## Groups that follow each other -/

/-- One more group behind groups that follow each other. -/
lemma lockStepped_concat : LockStepped numResources first (groups ++ [group]) last ↔
    ∃ middle, LockStepped numResources first groups middle ∧
      group.Spans numResources middle last := by
  induction groups generalizing first with
  | nil =>
    refine ⟨fun ⟨middle, spans, same⟩ => ⟨first, rfl, ?_⟩, fun ⟨middle, same, spans⟩ => ?_⟩
    · exact (show middle = last from same) ▸ spans
    · exact (show first = middle from same) ▸ ⟨last, spans, rfl⟩
  | cons other groups ih =>
    simp only [List.cons_append, LockStepped, ih]
    exact ⟨fun ⟨next, spans, middle, before, after⟩ => ⟨middle, ⟨next, spans, before⟩, after⟩,
      fun ⟨middle, ⟨next, spans, before⟩, after⟩ => ⟨next, spans, middle, before, after⟩⟩

/-- A boundary on all resources takes none of them further. -/
lemma Group.Spans.toList (spans : group.Spans numResources first last) :
    Tiles numResources (fun _ => first) group.toList fun _ => last := by
  obtain ⟨source, boundary⟩ := spans.boundary
  unfold Group.toList
  rw [boundary]
  have placed : ∀ resource ∈ (Entry.boundary (last - first) (List.range numResources) last
      source).resources, resource < numResources ∧ last =
        (Entry.boundary (last - first) (List.range numResources) last source).start :=
    fun resource used => ⟨List.mem_range.mp used, rfl⟩
  refine (spans.tiles.concat placed).congr (fun _ _ => rfl) ?_
  intro resource _
  simp [Entry.advance, Entry.boundary]

/-- Groups that follow each other all span some time. -/
lemma LockStepped.exists_spans (stepped : LockStepped numResources first groups last) :
    ∀ group ∈ groups, ∃ before after, group.Spans numResources before after := by
  induction groups generalizing first with
  | nil => simp
  | cons group groups ih =>
    obtain ⟨middle, spans, rest⟩ := stepped
    exact List.forall_mem_cons.mpr ⟨⟨first, middle, spans⟩, ih rest⟩

/-- The boundary of a group is a timestep. -/
lemma Group.Spans.isTimestep_boundary (spans : group.Spans numResources first last) :
    group.boundary.operation.isTimestep = true := by
  obtain ⟨source, boundary⟩ := spans.boundary
  rw [boundary]
  rfl

/-- If the entries that are written for a group lead all resources through its time, whatever group
this is, then those written for groups that follow each other lead them from tick to tick. -/
lemma LockStepped.tiles_flatMap {written : Group → List Entry}
    (spanned : ∀ {before after : Tick} {group : Group}, group.Spans numResources before after →
      Tiles numResources (fun _ => before) (written group) fun _ => after)
    (stepped : LockStepped numResources first groups last) :
    Tiles numResources (fun _ => first) (groups.flatMap written) fun _ => last := by
  induction groups generalizing first with
  | nil =>
    obtain rfl : first = last := stepped
    exact .refl _ _
  | cons group groups ih =>
    obtain ⟨middle, spans, rest⟩ := stepped
    exact (spanned spans).append (ih rest)

/-- The entries of groups that follow each other lead all resources from tick to tick. -/
lemma LockStepped.tiles (stepped : LockStepped numResources first groups last) :
    Tiles numResources (fun _ => first) (groups.flatMap Group.toList) fun _ => last :=
  tiles_flatMap Group.Spans.toList stepped

/-- If there are resources, all entries of groups that follow each other use some of them.

**Proof sketch.** Induction on the groups. The entries inside use resources by definition of a span,
and a boundary is on all of them. -/
lemma LockStepped.touching (stepped : LockStepped numResources first groups last)
    (some_resource : 0 < numResources) :
    ∀ entry ∈ groups.flatMap Group.toList, entry.resources ≠ [] := by
  induction groups generalizing first with
  | nil => simp
  | cons group groups ih =>
    obtain ⟨middle, spans, rest⟩ := stepped
    obtain ⟨source, boundary⟩ := spans.boundary
    intro entry member
    rw [List.flatMap_cons, List.mem_append, Group.toList, List.mem_append,
      List.mem_singleton] at member
    rcases member with (plain | rfl) | later
    · exact (spans.plain entry plain).2
    · rw [boundary]
      simp only [Entry.resources, Entry.boundary, Operation.resources]
      exact fun none => some_resource.ne' (List.range_eq_nil.mp none)
    · exact ih rest entry later

/-- Groups that follow each other from tick zero on end where the last of them does. -/
lemma LockStepped.latestStop_eq (stepped : LockStepped numResources 0 groups last)
    (none : numResources = 0 → groups = []) : latestStop (groups.flatMap Group.toList) = last := by
  rcases Nat.eq_zero_or_pos numResources with zero | positive
  · obtain rfl := none zero
    exact stepped
  · exact stepped.tiles.latestStop_eq (stepped.touching positive) positive

/-- A schedule of groups that follow each other from tick zero on has no gaps. Without resources
there are no groups.

**Proof sketch.** The groups tile the time from zero to their end. If there are resources, every
entry uses one; if there are none, then there are no entries. -/
theorem LockStepped.gapFree {schedule : Schedule} (cached : schedule.cached = some schedule.total)
    (entries : schedule.entries = groups.flatMap Group.toList)
    (stepped : LockStepped schedule.numResources 0 groups last)
    (none : schedule.numResources = 0 → groups = []) : schedule.GapFree := by
  refine Schedule.gapFree_of_tiles cached ?_ (entries ▸ stepped.tiles)
  rw [entries]
  rcases Nat.eq_zero_or_pos schedule.numResources with zero | positive
  · simp [none zero]
  · exact stepped.touching positive

end

/-! ## The groups of a run -/

namespace Grouping

variable {work : Workload} {grouping : Grouping}

/-- The finished groups follow each other from tick zero to the last boundary. -/
abbrev Stepped (work : Workload) (grouping : Grouping) : Prop :=
  LockStepped work.numResources 0 grouping.groups grouping.elapsed

/-- An empty step has no length. -/
lemma stepped_emptyStep (stepped : Stepped work grouping) (id : OpId) :
    Stepped work (grouping.emptyStep work id) := by
  refine lockStepped_concat.mpr ⟨grouping.elapsed, stepped, le_rfl, .refl _ _, by simp, ?_⟩
  refine ⟨some id, ?_⟩
  simp only [emptyStep, Nat.sub_self, Workload.resources]

/-- The step of a dominant operation, from the last boundary on. -/
lemma tiled_filled (wellFormed : work.WellFormed) (grouping : Grouping)
    (dominant : DominanceKey) :
    (grouping.filled work dominant).Tiled work.numResources grouping.elapsed dominant.duration :=
  (Step.tiled_start work _ _ _ _).fill wellFormed

/-- A step that was filled from the last boundary on is closed at its end. -/
lemma stepped_close (wellFormed : work.WellFormed) (stepped : Stepped work grouping)
    {filled : Step} {length : Tick}
    (tiled : filled.Tiled work.numResources grouping.elapsed length) (opening : Option OpId)
    (dominant : OpId) : Stepped work (grouping.close work opening dominant filled) := by
  have cut := tiled.cutDelays wellFormed
  have same : (filled.cutDelays work).padded.length = length := cut.length_eq
  have spans : Group.Spans work.numResources grouping.elapsed (grouping.elapsed + length)
      ⟨(filled.cutDelays work).padded.entries, .boundary length (List.range work.numResources)
        (grouping.elapsed + length) (work.boundary? opening
          (filled.cutDelays work).padded.residual)⟩ :=
    ⟨Nat.le_add_right _ _, cut.padded, cut.plain_padded, _, by rw [Nat.add_sub_cancel_left]⟩
  refine lockStepped_concat.mpr ⟨grouping.elapsed, stepped, ?_⟩
  simp only [close, same]
  exact spans

/-- Making a step keeps the groups in lock step, whether or not it succeeds.

**Proof sketch.** Empty steps for timesteps keep the groups in lock step. If something is left, the
step is filled, which tiles it (`tiled_filled`), and closing it adds its group (`stepped_close`). -/
lemma stepped_advance (wellFormed : work.WellFormed) (stepped : Stepped work grouping) :
    Stepped work (grouping.advance work).1 := by
  unfold advance
  obtain ⟨markers, residual⟩ := grouping.residual.drain work
  have begun : Stepped work (grouping.begun work markers residual) :=
    List.foldlRecOn _ _ stepped fun _ before id _ => stepped_emptyStep before id
  dsimp only
  generalize grouping.begun work markers residual = ready at *
  split
  · exact List.foldlRecOn _ _ begun fun _ before id _ => stepped_emptyStep before id
  · split
    · exact begun
    · rename_i dominant _
      split
      · exact begun
      · exact stepped_close wellFormed begun (tiled_filled wellFormed _ dominant) _ dominant.id

/-- The groups of a run follow each other.

**Proof sketch.** Induction on the budget, with `stepped_advance` for each step. -/
theorem stepped_run (wellFormed : work.WellFormed) (bound budget : Nat)
    (stepped : Stepped work grouping) : Stepped work (run work bound budget grouping).1 := by
  induction budget generalizing grouping with
  | zero => exact stepped
  | succ budget ih =>
    unfold run
    split
    · exact stepped
    · have next := stepped_advance wellFormed stepped
      split
      · rename_i advanced
        rwa [advanced] at next
      · rename_i advanced
        rw [advanced] at next
        exact ih next

/-- A run without operations makes no groups. -/
lemma run_of_isDone (bound budget : Nat) (done : grouping.residual.isDone = true) :
    (run work bound budget grouping).1 = grouping := by
  cases budget with
  | zero => rfl
  | succ budget =>
    unfold run
    rw [if_pos done]

end Grouping

/-! ## The pass -/

/-- The workload of a program, whose operations were resolved in program order. -/
def Program.workload (program : Program) (table : DurationTable) (rule : DelayRule)
    (side : CarriedSide) : Workload where
  name := program.name
  jobs := (program.resolve table program.ids).jobs.toArray
  precedence := program.precedence
  numResources := program.numResources
  rule := rule
  side := side

/-- The run of a workload from nothing placed. -/
def Workload.grouping (work : Workload) : Grouping × Option SchedulingError :=
  (Grouping.start work).run work work.stepBound work.stepBound

/-- A successful lock-step pass has resolved all operations in program order, and its schedule is
made of the groups of its run.

**Proof sketch.** The cases of the definition; all others fail. -/
lemma Program.lockStep_eq_ok {program : Program} {table : DurationTable} {rule : DelayRule}
    {side : CarriedSide} {schedule : Schedule}
    (ok : (program.lockStep table rule side).result = .ok schedule) :
    program.violation? = none ∧ (program.resolve table program.ids).failure = none ∧
      schedule = .sealedFor program (program.workload table rule side).grouping.1.entries
        (program.resolve table program.ids).anomalies := by
  unfold Program.lockStep at ok
  split at ok
  · cases ok
  · rename_i ordered
    obtain ⟨physical, rfl, -⟩ := Program.ordered_eq_ok ordered
    dsimp only at ok
    split at ok
    · cases ok
    · rename_i resolves
      dsimp only at ok
      split at ok
      · cases ok
      · cases ok
        exact ⟨physical, resolves, rfl⟩

/-- The workload of a well-formed program is well formed.

**Proof sketch.** The job at each place is that of the operation with this number, and operations of
a well-formed program use some resources, all of them declared. -/
lemma Program.WellFormed.workload {program : Program} (wellFormed : program.WellFormed)
    {table : DurationTable} (resolves : (program.resolve table program.ids).failure = none)
    (rule : DelayRule) (side : CarriedSide) :
    (program.workload table rule side).WellFormed := by
  have job_at : ∀ {id : OpId} {job : Job}, (program.workload table rule side).jobs[id]? = some job →
      job.id = id ∧ job.operation ∈ program.operations := by
    intro id job found
    have found : (program.resolve table program.ids).jobs[id]? = some job := by
      simpa [Program.workload] using found
    have number :=
      getElem?_ids_of_resolve (fun id member => List.mem_range.mp member) resolves found
    refine ⟨?_, mem_operations_of_operation? (mem_jobs (List.mem_of_getElem? found)).2.1⟩
    obtain ⟨inside, same⟩ := List.getElem?_eq_some_iff.mp number
    simpa using same.symm
  exact ⟨fun found => (job_at found).1, fun found => wellFormed.declared _ (job_at found).2,
    fun found => wellFormed.touching _ (job_at found).2⟩

/-- A well-formed program without resources has no operations. -/
lemma Program.WellFormed.size_eq_zero {program : Program} (wellFormed : program.WellFormed)
    (zero : program.numResources = 0) : program.size = 0 := by
  rw [← length_operations]
  refine List.length_eq_zero_iff.mpr (List.eq_nil_iff_forall_not_mem.mpr fun operation member => ?_)
  obtain ⟨resource, used⟩ := List.exists_mem_of_ne_nil _ (wellFormed.touching operation member)
  exact Nat.not_lt_zero _ (zero ▸ wellFormed.declared operation member resource used)

/-- Without resources a run of a well-formed program makes no groups. -/
lemma Program.WellFormed.groups_eq_nil {program : Program} (wellFormed : program.WellFormed)
    (table : DurationTable) (rule : DelayRule) (side : CarriedSide)
    (zero : program.numResources = 0) :
    (program.workload table rule side).grouping.1.groups = [] := by
  have done : (Grouping.start (program.workload table rule side)).residual.isDone = true := by
    have empty : program.precedence.size = 0 := by
      simp [Program.precedence, Precedence.size, wellFormed.size_eq_zero zero]
    simp [Grouping.start, Residual.start, Residual.isDone, Program.workload, empty]
  rw [Workload.grouping, Grouping.run_of_isDone _ _ done]
  rfl

/-- The schedule of a lock-step pass is made of groups that follow each other from tick zero on;
without resources there are none.

**Proof sketch.** A pass that succeeds has resolved all operations, so its workload is well formed,
and a run from no groups at tick zero keeps them following each other (`Grouping.stepped_run`). -/
theorem Program.lockStep_groups {program : Program} {table : DurationTable} {rule : DelayRule}
    {side : CarriedSide} {schedule : Schedule} (wellFormed : program.WellFormed)
    (ok : (program.lockStep table rule side).result = .ok schedule) :
    ∃ groups last anomalies, schedule = .sealedFor program (groups.flatMap Group.toList) anomalies ∧
      LockStepped program.numResources 0 groups last ∧
      (program.numResources = 0 → groups = []) := by
  obtain ⟨-, resolves, rfl⟩ := lockStep_eq_ok ok
  have stepped := Grouping.stepped_run (wellFormed.workload resolves rule side)
    (program.workload table rule side).stepBound (program.workload table rule side).stepBound
    (show Grouping.Stepped _ (Grouping.start (program.workload table rule side)) from rfl)
  exact ⟨_, _, _, rfl, stepped, wellFormed.groups_eq_nil table rule side⟩

/-- The lock-step pass gives schedules without gaps. -/
lemma Program.lockStep_gapFree {program : Program} {table : DurationTable} {rule : DelayRule}
    {side : CarriedSide} {schedule : Schedule} (wellFormed : program.WellFormed)
    (ok : (program.lockStep table rule side).result = .ok schedule) : schedule.GapFree := by
  obtain ⟨groups, last, anomalies, rfl, stepped, none⟩ := lockStep_groups wellFormed ok
  exact stepped.gapFree rfl rfl none

end Timetable
