import Timetable.Proofs.Parts
import Timetable.Proofs.Program.Durations
import Timetable.Scheduling.Forward

/-!
# The forward pass leaves no gaps

Placing an operation writes out the idle time in front of it and the operation, which together
lead from the front of the timeline before to the front behind. The pass therefore keeps its
entries a tiling that ends at the front of its timeline, and closing it takes every resource to the
horizon.

## Main definitions

* `Front.Tiled` — the entries lead from tick zero to the front of the timeline.
* `Front.Written` — what the pass writes for some jobs.

## Main results

* `Front.Tiled.place` — placing one operation keeps the tiling.
* `Front.written_of_mem_closed` — the entries of the pass are idle time and the operations.
* `Program.forward_gapFree` — the forward pass gives schedules without gaps.
-/

set_option autoImplicit false

namespace Timetable

/-! ## What a successful pass has checked -/

/-- A program that can be ordered is physical and uses declared resources only. -/
lemma Program.ordered_eq_ok {program : Program} {precedence : Precedence} {order : List OpId}
    (ok : program.ordered = .ok (precedence, order)) :
    program.violation? = none ∧ precedence = program.precedence ∧
      program.precedence.order = .ok order := by
  unfold Program.ordered at ok
  split at ok
  · cases ok
  · cases ok
  · rename_i physical _
    split at ok
    · cases ok
    · rename_i ordered
      cases ok
      exact ⟨physical, rfl, ordered⟩

/-- The state of the forward pass after placing the given jobs. -/
def Front.after (program : Program) (jobs : List Job) : Front :=
  jobs.foldl (Front.place program.precedence) (Front.start program)

/-- A successful forward pass has resolved all operations in topological order, and its schedule
is made of the entries placed. -/
lemma Program.forward_eq_ok {program : Program} {table : DurationTable} {schedule : Schedule}
    (ok : (program.forward table).result = .ok schedule) :
    ∃ order, program.violation? = none ∧ program.precedence.order = .ok order ∧
      (program.resolve table order).failure = none ∧
      schedule = .sealedFor program (Front.after program (program.resolve table order).jobs).closed
        (program.resolve table order).anomalies := by
  unfold Program.forward at ok
  split at ok
  · cases ok
  · rename_i ordered
    obtain ⟨physical, rfl, order⟩ := Program.ordered_eq_ok ordered
    dsimp only at ok
    split at ok
    · cases ok
    · rename_i resolves
      cases ok
      exact ⟨_, physical, order, resolves, rfl⟩

namespace Front

variable {numResources : Nat}

/-- The entries placed so far use resources, and lead from tick zero to the front of the
timeline. -/
structure Tiled (numResources : Nat) (front : Front) : Prop where
  origin : front.timeline.origin = 0
  size : front.timeline.nextFree.size = numResources
  touching : ∀ entry ∈ front.entries, entry.resources ≠ []
  tiles : Tiles numResources (fun _ => 0) front.entries front.timeline.front

/-- Nothing placed yet: all resources are at tick zero. -/
lemma tiled_start (program : Program) : Tiled program.numResources (start program) := by
  refine ⟨rfl, Timeline.size_start _ _, by simp [start], ?_⟩
  simp only [start, Timeline.front_start]
  exact .refl _ _

/-- Placing an operation on declared resources keeps the tiling.

**Proof sketch.** The operation starts when its resources are free or later, so idle time and the
operation together lead from the front of the timeline to the one behind the operation
(`Timeline.tiles_place`), and they go at the end of the tiling so far. -/
theorem Tiled.place {front : Front} (tiled : Tiled numResources front) (precedence : Precedence)
    {job : Job} (declared : ∀ resource ∈ job.operation.resources, resource < numResources)
    (touching : job.operation.resources ≠ []) :
    Tiled numResources (place precedence front job) := by
  obtain ⟨origin, size, used, tiles⟩ := tiled
  refine ⟨?_, ?_, ?_, ?_⟩
  · simp [Front.place, origin]
  · simp [Front.place, size]
  · intro entry member
    simp only [Front.place, List.mem_append, List.mem_singleton] at member
    rcases member with (old | gap) | rfl
    · exact used entry old
    · obtain ⟨resource, -, start, duration, -, -, rfl⟩ := Timeline.mem_gaps gap
      simp [Entry.idle, Entry.resources]
    · exact touching
  · subst size
    let start := max (front.timeline.earliest job.operation.resources)
      (latest ((precedence.preds job.id).map front.finishOf))
    have next := Timeline.tiles_place front.timeline ⟨job.operation, start, job.ticks, some job.id⟩
      start declared (Nat.le_max_left _ _) (by rw [origin, Nat.zero_add])
    have all := tiles.append next
    rwa [← List.append_assoc] at all

/-- Placing one operation after the other keeps the tiling. -/
lemma Tiled.foldl_place {front : Front} (tiled : Tiled numResources front)
    (precedence : Precedence) {jobs : List Job}
    (declared : ∀ job ∈ jobs, ∀ resource ∈ job.operation.resources, resource < numResources)
    (touching : ∀ job ∈ jobs, job.operation.resources ≠ []) :
    Tiled numResources (jobs.foldl (Front.place precedence) front) := by
  induction jobs generalizing front with
  | nil => exact tiled
  | cons job jobs ih =>
    have next := tiled.place precedence (declared job List.mem_cons_self)
      (touching job List.mem_cons_self)
    exact ih next (fun j member => declared j (List.mem_cons_of_mem _ member))
      fun j member => touching j (List.mem_cons_of_mem _ member)

/-- The idle time at the end takes every resource to the horizon.

**Proof sketch.** Idle time leads to the front after padding (`Timeline.tiles_gaps`), and padding up
to the horizon takes every resource there, since none has gone beyond it. -/
lemma Tiled.closed {front : Front} (tiled : Tiled numResources front) :
    Tiles numResources (fun _ => 0) front.closed fun _ => front.timeline.horizon := by
  obtain ⟨origin, size, -, tiles⟩ := tiled
  have declared : ∀ resource ∈ front.timeline.resources,
      resource < front.timeline.nextFree.size := fun _ member => List.mem_range.mp member
  have gaps := Timeline.tiles_gaps declared front.timeline.horizon
  rw [size] at gaps
  refine (tiles.append gaps).congr (fun _ _ => rfl) ?_
  intro resource inside
  have member : resource ∈ front.timeline.resources := List.mem_range.mpr (size ▸ inside)
  have below : front.timeline.free resource ≤ front.timeline.horizon := by
    rw [← size] at inside
    refine le_latest ?_
    simp [Timeline.free, inside]
  simp only [Timeline.front, Timeline.free_pad declared, if_pos member, Timeline.origin_pad, origin]
  lia

/-- What the pass writes for some jobs: idle time of positive length without a source, and the
operations of the jobs. -/
def Written (jobs : List Job) (entry : Entry) : Prop :=
  entry.FillsGap ∨ ∃ job ∈ jobs, entry.operation = job.operation ∧ entry.duration = job.ticks ∧
    entry.source = some job.id

/-- The entries of a closed pass are what it writes for its jobs.

**Proof sketch.** Fold over the jobs: placing one writes idle time in gaps and the entry of the job.
Closing writes idle time in gaps once more. -/
theorem written_of_mem_closed {program : Program} {jobs : List Job} {entry : Entry}
    (member : entry ∈ (after program jobs).closed) : Written jobs entry := by
  have placed : ∀ entry ∈ (after program jobs).entries, Written jobs entry := by
    refine List.foldlRecOn
      (motive := fun front : Front => ∀ entry ∈ front.entries, Written jobs entry)
      jobs _ (by simp [start]) fun front before job among entry member => ?_
    simp only [Front.place, List.mem_append, List.mem_singleton] at member
    rcases member with (old | gap) | rfl
    · exact before entry old
    · exact .inl (Entry.fillsGap_of_mem_gaps gap)
    · exact .inr ⟨job, among, rfl, rfl, rfl⟩
  exact (List.mem_append.mp member).elim (placed entry) fun gap =>
    .inl (Entry.fillsGap_of_mem_gaps gap)

/-- All entries of a closed pass use resources. -/
lemma Tiled.touching_closed {front : Front} (tiled : Tiled numResources front) :
    ∀ entry ∈ front.closed, entry.resources ≠ [] := by
  intro entry member
  rcases List.mem_append.mp member with placed | gap
  · exact tiled.touching entry placed
  · obtain ⟨resource, -, start, duration, -, -, rfl⟩ := Timeline.mem_gaps gap
    simp [Entry.idle, Entry.resources]

end Front

/-- The forward pass gives schedules without gaps.

**Proof sketch.** The jobs are operations of the program, which use resources, and declared ones
only. So each job that is placed keeps the tiling, and closing takes all resources to the horizon
(`Front.Tiled.closed`). -/
theorem Program.forward_gapFree {program : Program} {table : DurationTable} {schedule : Schedule}
    (wellFormed : program.WellFormed) (ok : (program.forward table).result = .ok schedule) :
    schedule.GapFree := by
  obtain ⟨order, -, -, -, rfl⟩ := forward_eq_ok ok
  have operation : ∀ job ∈ (program.resolve table order).jobs,
      job.operation ∈ program.operations := fun job member =>
    mem_operations_of_operation? (mem_jobs member).2.1
  have tiled := (Front.tiled_start program).foldl_place program.precedence
    (fun job member => wellFormed.declared _ (operation job member))
    fun job member => wellFormed.touching _ (operation job member)
  exact Schedule.gapFree_of_tiles rfl tiled.touching_closed tiled.closed

/-- The forward pass places delays and the operations of the program. -/
lemma Program.operation_of_mem_forward {program : Program} {table : DurationTable}
    {schedule : Schedule} (ok : (program.forward table).result = .ok schedule) {entry : Entry}
    (member : entry ∈ schedule.entries) :
    (∃ length resource, entry.operation = .idle length resource) ∨
      entry.operation ∈ program.operations := by
  obtain ⟨order, -, -, -, rfl⟩ := forward_eq_ok ok
  rcases Front.written_of_mem_closed member with
    ⟨resource, _, length, -, rfl⟩ | ⟨job, among, same, -⟩
  · exact .inl ⟨length, resource, rfl⟩
  · exact .inr (same ▸ mem_operations_of_operation? (mem_jobs among).2.1)

end Timetable
