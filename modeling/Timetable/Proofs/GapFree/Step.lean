import Timetable.Proofs.Timeline
import Timetable.Scheduling.Step

/-!
# A timestep is filled without gaps

Whatever a timestep takes, it takes like the forward pass does: idle time up to the start and then
the operation, or the front part of a delay. As nothing is taken that reaches beyond the end of the
step, the idle time written at the end brings every resource to exactly that end.

## Main definitions

* `Workload.WellFormed` — the jobs carry their own numbers, and use declared resources.
* `Step.Tiled` — the entries of a step lead from its origin to the front of its timeline.

## Main results

* `Step.Tiled.fill`, `Step.Tiled.cutDelays` — filling a step keeps the tiling.
* `Step.Tiled.padded` — a padded step leads all resources from its origin to its end.
-/

set_option autoImplicit false

namespace Timetable

/-- Every job carries the number of its place, and its operation uses a resource and declared ones
only. -/
structure Workload.WellFormed (work : Workload) : Prop where
  numbered : ∀ {id : OpId} {job : Job}, work.jobs[id]? = some job → job.id = id
  declared : ∀ {id : OpId} {job : Job}, work.jobs[id]? = some job →
    ∀ resource ∈ job.operation.resources, resource < work.numResources
  touching : ∀ {id : OpId} {job : Job}, work.jobs[id]? = some job → job.operation.resources ≠ []

/-- All of an operation is the operation. -/
@[simp]
lemma Operation.rest_self (full : Tick) (operation : Operation) :
    operation.rest full full = operation := by
  cases operation <;> simp [rest]

/-- What is left of an operation differs from it in the length of a delay at most, so whatever does
not read that length cannot tell the two apart. -/
lemma Operation.apply_rest {α : Type} (read : Operation → α)
    (blind : ∀ span other resource, read (.delay span resource) = read (.delay other resource))
    (duration full : Tick) (operation : Operation) :
    read (operation.rest duration full) = read operation := by
  cases operation with
  | delay span resource =>
    rw [rest]
    split
    · rfl
    · exact blind _ span resource
  | gate | barrier | timestep => rfl

/-- What is left of an operation uses the same resources. -/
@[simp]
lemma Operation.resources_rest (duration full : Tick) (operation : Operation) :
    (operation.rest duration full).resources = operation.resources :=
  apply_rest resources (fun _ _ _ => rfl) duration full operation

/-- What is left of an operation is a timestep if the operation is one. -/
@[simp]
lemma Operation.isTimestep_rest (duration full : Tick) (operation : Operation) :
    (operation.rest duration full).isTimestep = operation.isTimestep :=
  apply_rest isTimestep (fun _ _ _ => rfl) duration full operation

/-- What is left of an operation is a delay if the operation is one. -/
lemma Operation.isDelay_rest (duration full : Tick) (operation : Operation) :
    (operation.rest duration full).isDelay = operation.isDelay :=
  apply_rest isDelay (fun _ _ _ => rfl) duration full operation

namespace Step

/-- An entry that is no boundary and uses a resource. -/
def Plain (entry : Entry) : Prop := entry.operation.isTimestep = false ∧ entry.resources ≠ []

/-- Idle time is plain. -/
lemma plain_idle (resource : Resource) (start duration : Tick) (source : Option OpId) :
    Plain (.idle resource start duration source) :=
  ⟨rfl, by simp [Entry.idle, Entry.resources]⟩

/-- The step begins at `origin` and is `length` ticks long, no resource is taken beyond its end,
and its plain entries lead from its origin to the front of its timeline. -/
structure Tiled (numResources : Nat) (origin length : Tick) (step : Step) : Prop where
  origin_eq : step.origin = origin
  length_eq : step.length = length
  timeline : step.timeline.origin = origin
  size : step.timeline.nextFree.size = numResources
  within : ∀ resource, step.timeline.free resource ≤ length
  plain : ∀ entry ∈ step.entries, Plain entry
  tiles : Tiles numResources (fun _ => origin) step.entries step.timeline.front

variable {work : Workload} {numResources : Nat} {origin length : Tick} {step : Step}

/-- A step that starts out has taken nothing. -/
lemma tiled_start (work : Workload) (residual : Residual) (remaining : Array Tick)
    (origin length : Tick) :
    Tiled work.numResources origin length (start work residual remaining origin length) := by
  refine ⟨rfl, rfl, rfl, Timeline.size_start _ _, ?_, by simp [start], ?_⟩
  · intro r
    exact (Timeline.free_start _ _ r).trans_le (Nat.zero_le _)
  · simp only [start, Timeline.front_start]
    exact .refl _ _

/-- Taking an entry that starts when its resources are free and ends within the step keeps the
tiling, whatever else changes.

**Proof sketch.** The idle time and the entry lead from the front of the timeline to the front
behind the entry (`Timeline.tiles_place`), so they go at the end of the tiling so far. The resources
of the entry come to its end, which is within the step, and the others stay where they are. -/
lemma Tiled.place (tiled : Tiled numResources origin length step) {next : Step} {entry : Entry}
    {resources : List Resource} {start : Tick} (uses : entry.resources = resources)
    (origin_eq : next.origin = step.origin) (length_eq : next.length = step.length)
    (timeline : next.timeline =
      (step.timeline.pad resources start).occupy resources start entry.duration)
    (entries : next.entries = step.entries ++ step.timeline.gaps resources start ++ [entry])
    (plain : Plain entry) (declared : ∀ resource ∈ resources, resource < numResources)
    (free : step.timeline.earliest resources ≤ start)
    (placed : entry.start = step.origin + start)
    (fits : start + entry.duration ≤ step.length) : Tiled numResources origin length next := by
  subst uses
  have declared : ∀ r ∈ entry.resources, r < step.timeline.nextFree.size := fun r used =>
    tiled.size ▸ declared r used
  have declared' : ∀ r ∈ entry.resources,
      r < (step.timeline.pad entry.resources start).nextFree.size := by
    intro r used
    rw [Timeline.size_pad]
    exact declared r used
  refine ⟨origin_eq.trans tiled.origin_eq, length_eq.trans tiled.length_eq, ?_, ?_, ?_, ?_, ?_⟩
  · rw [timeline, Timeline.origin_occupy, Timeline.origin_pad, tiled.timeline]
  · rw [timeline, Timeline.size_occupy, Timeline.size_pad, tiled.size]
  · intro r
    rw [timeline, Timeline.free_occupy declared', Timeline.free_pad declared]
    have before := tiled.within r
    have same := tiled.length_eq
    split <;> lia
  · intro e member
    rw [entries] at member
    simp only [List.mem_append, List.mem_singleton] at member
    rcases member with (old | gap) | rfl
    · exact tiled.plain e old
    · obtain ⟨resource, -, start, duration, -, -, rfl⟩ := Timeline.mem_gaps gap
      exact plain_idle _ _ _ _
    · exact plain
  · rw [entries, timeline, List.append_assoc]
    refine tiled.tiles.append ?_
    rw [← tiled.size]
    exact Timeline.tiles_place step.timeline entry start declared free
      (by rw [placed, tiled.origin_eq, tiled.timeline])

/-- An operation starts no earlier than its resources are free. -/
lemma timeline_earliest_le (work : Workload) (step : Step) (job : Job) :
    step.timeline.earliest job.operation.resources ≤ step.earliest work job :=
  Nat.le_max_left _ _

/-- The entry that a step writes when it takes an operation. -/
def taken (step : Step) (job : Job) (start : Tick) : Entry :=
  ⟨job.operation.rest (step.left job.id) job.ticks, step.origin + start, step.left job.id,
    some job.id⟩

/-- A delay that was cut still uses the resource of the operation. -/
lemma resources_taken (step : Step) (job : Job) (start : Tick) :
    (step.taken job start).resources = job.operation.resources :=
  Operation.resources_rest _ _ _

/-- Accepting an operation that fits keeps the tiling. -/
lemma Tiled.accept (tiled : Tiled numResources origin length step) {job : Job} {start : Tick}
    (declared : ∀ resource ∈ job.operation.resources, resource < numResources)
    (touching : job.operation.resources ≠ []) (no_timestep : job.operation.isTimestep = false)
    (free : step.timeline.earliest job.operation.resources ≤ start)
    (fits : start + step.left job.id ≤ step.length) :
    Tiled numResources origin length (step.accept job start) := by
  have uses := step.resources_taken job start
  have plain : Plain (step.taken job start) :=
    ⟨(Operation.isTimestep_rest _ _ _).trans no_timestep, by rwa [uses]⟩
  exact tiled.place uses rfl rfl rfl rfl plain declared free rfl fits

/-- Offering an operation keeps the tiling: it is taken only if it fits.

**Proof sketch.** The cases of the definition. Unless the operation is accepted nothing changes but
notes, and it is accepted only if it fits (`Tiled.accept`). -/
lemma Tiled.offer (wellFormed : work.WellFormed)
    (tiled : Tiled work.numResources origin length step) (id : OpId) :
    Tiled work.numResources origin length (step.offer work id) := by
  unfold Step.offer
  split
  · exact tiled
  · rename_i job found
    split
    · exact tiled
    · rename_i no_timestep
      dsimp only
      split
      · exact ⟨tiled.1, tiled.2, tiled.3, tiled.4, tiled.5, tiled.6, tiled.7⟩
      · rename_i fits
        rw [← wellFormed.numbered found] at fits
        exact tiled.accept (wellFormed.declared found) (wellFormed.touching found)
          (by simpa using no_timestep) (timeline_earliest_le work step job) (Nat.le_of_not_lt fits)

/-- A round keeps the tiling. -/
lemma Tiled.round (wellFormed : work.WellFormed)
    (tiled : Tiled work.numResources origin length step) :
    Tiled work.numResources origin length (step.round work) :=
  List.foldlRecOn _ _ tiled fun _ before id _ => before.offer wellFormed id

/-- Rounds keep the tiling. -/
lemma Tiled.rounds (wellFormed : work.WellFormed) (times : Nat)
    (tiled : Tiled work.numResources origin length step) :
    Tiled work.numResources origin length (step.rounds work times) := by
  induction times generalizing step with
  | zero => exact tiled
  | succ times ih =>
    simp only [Step.rounds]
    split
    · exact tiled.round wellFormed
    · exact ih (tiled.round wellFormed)

/-- Filling a step keeps the tiling.

**Proof sketch.** Filling is a number of rounds of offers, each of which keeps the tiling
(`Tiled.rounds`). -/
theorem Tiled.fill (wellFormed : work.WellFormed)
    (tiled : Tiled work.numResources origin length step) :
    Tiled work.numResources origin length (step.fill work) :=
  tiled.rounds wellFormed _

/-- Cutting a delay keeps the tiling: the part that is taken ends with the step.

**Proof sketch.** If a part of the delay is taken, it starts when its resource is free and ends with
the step, so it can be placed (`Tiled.place`). Otherwise nothing changes. -/
lemma Tiled.cutDelay (wellFormed : work.WellFormed)
    (tiled : Tiled work.numResources origin length step) (id : OpId) :
    Tiled work.numResources origin length (step.cutDelay work id) := by
  unfold Step.cutDelay
  split
  · rename_i number span resource ticks found
    dsimp only
    split
    · exact tiled
    · rename_i fits
      have free := timeline_earliest_le work step ⟨id, .delay span resource, ticks⟩
      generalize step.earliest work ⟨id, .delay span resource, ticks⟩ = start at fits free ⊢
      have uses : (Entry.idle resource (step.origin + start) (step.length - start)
          (some id)).resources = [resource] := rfl
      have fits : start + (step.length - start) ≤ step.length := by lia
      exact tiled.place uses rfl rfl rfl rfl (plain_idle _ _ _ _) (wellFormed.declared found) free
        rfl fits
  · exact tiled

/-- Cutting delays keeps the tiling.

**Proof sketch.** Fold over the delays that are cut. -/
theorem Tiled.cutDelays (wellFormed : work.WellFormed)
    (tiled : Tiled work.numResources origin length step) :
    Tiled work.numResources origin length (step.cutDelays work) :=
  List.foldlRecOn _ _ tiled fun _ before id _ => before.cutDelay wellFormed id

/-- A padded step leads all resources from its origin to its end.

**Proof sketch.** Idle time takes each resource to the end of the step (`Timeline.tiles_gaps`),
since none of them is beyond it. -/
theorem Tiled.padded (tiled : Tiled numResources origin length step) :
    Tiles numResources (fun _ => origin) step.padded.entries fun _ => origin + length := by
  have declared : ∀ resource ∈ step.timeline.resources,
      resource < step.timeline.nextFree.size := fun _ member => List.mem_range.mp member
  have gaps := Timeline.tiles_gaps declared step.length
  rw [tiled.size] at gaps
  refine (tiled.tiles.append gaps).congr (fun _ _ => rfl) ?_
  intro resource inside
  have member : resource ∈ step.timeline.resources := List.mem_range.mpr (tiled.size ▸ inside)
  have below := tiled.within resource
  have same := tiled.length_eq
  simp only [Timeline.front, Timeline.free_pad declared, if_pos member, Timeline.origin_pad,
    tiled.timeline]
  lia

/-- The entries of a padded step are plain. -/
lemma Tiled.plain_padded (tiled : Tiled numResources origin length step) :
    ∀ entry ∈ step.padded.entries, Plain entry := by
  intro entry member
  rcases List.mem_append.mp member with taken | gap
  · exact tiled.plain entry taken
  · obtain ⟨resource, -, start, duration, -, -, rfl⟩ := Timeline.mem_gaps gap
    exact plain_idle _ _ _ _

end Step

end Timetable
