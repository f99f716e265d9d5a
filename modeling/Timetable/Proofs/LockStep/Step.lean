import Timetable.Proofs.LockStep.Workload

/-!
# What happens inside a timestep

Filling a step offers ready operations to it, one after the other, and each of them is refused or
taken; after that ready delays are cut. All three are single moves, and what holds throughout a step
is shown move by move. The main fact is that an operation which was ready when the step began can
start right at its origin: nothing that shares a resource with it can be placed before it is
completed, and nothing it waits for is left in this step.

## Main definitions

* `Step.Takes`, `Step.Cuts` — the moves of a step.
* `Step.Places` — what taking and cutting have in common.
* `Step.Underway`, `Step.Filling` — what holds throughout a step, and while it is filled.

## Main results

* `Step.Underway.earliest_eq_zero` — what was ready when the step began can start at its origin.
-/

set_option autoImplicit false

namespace Timetable

open Relation

namespace Step

/-- Takes the front part of a delay, from tick `start` to the end of the step. -/
def cut (step : Step) (id : OpId) (resource : Resource) (start : Tick) : Step :=
  let part := step.length - start
  let left := step.left id - part
  { step with
    remaining := step.remaining.setIfInBounds id left
    timeline := (step.timeline.pad [resource] start).occupy [resource] start part
    entries := step.entries ++ step.timeline.gaps [resource] start ++
      [.idle resource (step.origin + start) part (some id)]
    notes := step.notes.push (.cut id resource part left) }

/-- The moves of filling a step: a ready operation is refused, or it is taken because it fits. -/
inductive Takes (work : Workload) : Step → Step → Prop
  | refuse (step : Step) (note : Note) : Takes work step { step with notes := step.notes.push note }
  | accept {step : Step} {job : Job} (found : work.jobs[job.id]? = some job)
      (ready : job.id ∈ step.residual.frontier) (plain : job.operation.isTimestep = false)
      (fits : step.earliest work job + step.left job.id ≤ step.length) :
      Takes work step (step.accept job (step.earliest work job))

/-- The moves behind it: a ready delay that is too long for the rest of the step is cut. -/
inductive Cuts (work : Workload) : Step → Step → Prop
  | cut {step : Step} {job : Job} {span : Span} {resource : Resource}
      (found : work.jobs[job.id]? = some job) (delay : job.operation = .delay span resource)
      (ready : job.id ∈ step.residual.frontier) (room : step.earliest work job < step.length)
      (long : step.length - step.earliest work job < step.left job.id) :
      Cuts work step (step.cut job.id resource (step.earliest work job))

/-- A ready operation gets an entry, which starts when the operation can. Idle time covers its
resources up to there. -/
structure Places (work : Workload) (step : Step) (job : Job) (entry : Entry) (next : Step) :
    Prop where
  found : work.jobs[job.id]? = some job
  ready : job.id ∈ step.residual.frontier
  origin : next.origin = step.origin
  length : next.length = step.length
  source : entry.source = some job.id
  resources : entry.resources = job.operation.resources
  start : entry.start = step.origin + step.earliest work job
  timeline : next.timeline =
    (step.timeline.pad job.operation.resources (step.earliest work job)).occupy
      job.operation.resources (step.earliest work job) entry.duration
  entries : next.entries =
    step.entries ++ step.timeline.gaps job.operation.resources (step.earliest work job) ++ [entry]

variable {work : Workload} {begun : Residual} {step next : Step} {job : Job} {entry : Entry}
  {id : OpId} {ids : List OpId} {remaining : Array Tick}

/-! ## Placing entries -/

/-- Taking an operation places it. -/
lemma places_accept (found : work.jobs[job.id]? = some job)
    (ready : job.id ∈ step.residual.frontier) :
    Places work step job (step.taken job (step.earliest work job))
      (step.accept job (step.earliest work job)) where
  found := found
  ready := ready
  origin := rfl
  length := rfl
  source := rfl
  resources := step.resources_taken job _
  start := rfl
  timeline := rfl
  entries := rfl

/-- Only the finish of the operation that is taken changes. -/
lemma finishOf_accept (inside : job.id < step.finish.size) (start : Tick) (id : OpId) :
    (step.accept job start).finishOf id =
      if id = job.id then start + step.left job.id else step.finishOf id := by
  by_cases same : id = job.id
  · subst same
    simp [finishOf, accept, inside]
  · rw [if_neg same, finishOf, finishOf, accept, Array.getElem?_setIfInBounds_ne (Ne.symm same)]

/-- Cutting a delay places its front part. -/
lemma places_cut {span : Span} {resource : Resource} (found : work.jobs[job.id]? = some job)
    (delay : job.operation = .delay span resource) (ready : job.id ∈ step.residual.frontier) :
    Places work step job (.idle resource (step.origin + step.earliest work job)
      (step.length - step.earliest work job) (some job.id))
      (step.cut job.id resource (step.earliest work job)) where
  found := found
  ready := ready
  origin := rfl
  length := rfl
  source := rfl
  resources := by
    rw [delay]
    rfl
  start := rfl
  timeline := by
    rw [delay]
    rfl
  entries := by
    rw [delay]
    rfl

/-- What a step holds after placing an entry: what it held, idle time, and the entry. -/
lemma Places.mem_entries (places : Places work step job entry next) {other : Entry} :
    other ∈ next.entries ↔ other ∈ step.entries ∨
      other ∈ step.timeline.gaps job.operation.resources (step.earliest work job) ∨
        other = entry := by
  rw [places.entries, List.mem_append, List.mem_append, List.mem_singleton, or_assoc]

/-- The only new entry with a source is the one that is placed. -/
lemma Places.eq_of_source (places : Places work step job entry next) {other : Entry}
    (member : other ∈ next.entries) (source : other.source = some id) :
    other ∈ step.entries ∨ other = entry ∧ job.id = id := by
  rcases places.mem_entries.mp member with old | gap | rfl
  · exact .inl old
  · obtain ⟨_, -, _, _, -, -, rfl⟩ := Timeline.mem_gaps gap
    cases source
  · exact .inr ⟨rfl, Option.some.inj (places.source.symm.trans source)⟩

/-- Placing an entry takes its resources to its end.

**Proof sketch.** Padding and occupying move the resources of the operation to its end, and leave
the others where they are. -/
lemma Places.free (places : Places work step job entry next) (sound : work.Sound)
    (size : step.timeline.nextFree.size = work.numResources) (resource : Resource) :
    next.timeline.free resource = if resource ∈ job.operation.resources then
      step.earliest work job + entry.duration else step.timeline.free resource := by
  have declared : ∀ resource ∈ job.operation.resources,
      resource < step.timeline.nextFree.size := fun resource used =>
    size ▸ sound.declared places.found resource used
  have declared' : ∀ resource ∈ job.operation.resources, resource <
      (step.timeline.pad job.operation.resources (step.earliest work job)).nextFree.size := by
    intro resource used
    rw [Timeline.size_pad]
    exact declared resource used
  rw [places.timeline, Timeline.free_occupy declared']
  split
  · rfl
  · rename_i unused
    rw [Timeline.free_pad declared, if_neg unused]

/-! ## What holds throughout a step -/

/-- The step was begun with `begun` to be done. Only operations that were pending then have entries
in it, they are those that the timeline and the finishes tell of, and nothing that they wait for is
pending. -/
structure Underway (work : Workload) (begun : Residual) (step : Step) : Prop where
  begun_ongoing : begun.Ongoing
  begun_precedence : begun.precedence = work.precedence
  ongoing : step.residual.Ongoing
  precedence : step.residual.precedence = work.precedence
  pending : ∀ id ∈ step.residual.pending, id ∈ begun.pending
  timeline_size : step.timeline.nextFree.size = work.numResources
  finish_size : step.finish.size = work.jobs.size
  remaining_size : step.remaining.size = work.jobs.size
  source : ∀ entry ∈ step.entries, ∀ id, entry.source = some id → id ∈ begun.pending ∧
    (∃ job, work.jobs[id]? = some job ∧ entry.resources = job.operation.resources) ∧
    ∀ before, work.precedence.Edge before id → before ∉ step.residual.pending
  free : ∀ resource, step.timeline.free resource ≠ 0 →
    ∃ entry ∈ step.entries, ∃ id, entry.source = some id ∧ resource ∈ entry.resources
  finish : ∀ id, step.finishOf id ≠ 0 → ∃ entry ∈ step.entries, entry.source = some id

namespace Underway

/-- Nothing was placed in a step that begins. -/
lemma start (ongoing : begun.Ongoing) (same : begun.precedence = work.precedence)
    (size : remaining.size = work.jobs.size) (origin length : Tick) :
    Underway work begun (Step.start work begun remaining origin length) where
  begun_ongoing := ongoing
  begun_precedence := same
  ongoing := ongoing
  precedence := same
  pending := fun _ pending => pending
  timeline_size := Timeline.size_start _ _
  finish_size := Array.size_replicate
  remaining_size := size
  source := by simp [Step.start]
  free := fun resource taken => absurd (Timeline.free_start _ _ resource) taken
  finish := by
    intro id finished
    refine absurd ?_ finished
    by_cases inside : id < work.jobs.size <;> simp [finishOf, Step.start, inside]

/-- Placing an entry, perhaps with completing its operation, keeps the step in order.

**Proof sketch.** The frontier moves on only by completing the operation, which had become ready, so
nothing that waits for it has an entry yet. The new entry is the witness for the resources that are
taken further and for the finish that is set; for everything else the old witness is still there. -/
lemma place (underway : Underway work begun step) (sound : work.Sound)
    (places : Places work step job entry next)
    (residual : next.residual = step.residual ∨ next.residual = step.residual.complete job.id)
    (finish : next.finish = step.finish ∨
      ∃ tick, next.finish = step.finish.setIfInBounds job.id tick)
    (remaining : next.remaining.size = step.remaining.size) : Underway work begun next := by
  obtain ⟨pending, free⟩ := underway.ongoing.mem_frontier_iff.mp places.ready
  have fewer : ∀ id ∈ next.residual.pending, id ∈ step.residual.pending := by
    intro id left
    rcases residual with same | completed
    · rwa [same] at left
    · rw [completed] at left
      exact Residual.mem_pending_of_mem_complete left
  have old : ∀ {other : Entry}, other ∈ step.entries → other ∈ next.entries := fun member =>
    places.mem_entries.mpr (.inl member)
  have new : entry ∈ next.entries := places.mem_entries.mpr (.inr (.inr rfl))
  refine
    { begun_ongoing := underway.begun_ongoing
      begun_precedence := underway.begun_precedence
      ongoing := ?ongoing
      precedence := ?precedence
      pending := fun id left => underway.pending id (fewer id left)
      timeline_size := ?timeline_size
      finish_size := ?finish_size
      remaining_size := remaining.trans underway.remaining_size
      source := ?source
      free := ?free
      finish := ?finish }
  case ongoing =>
    rcases residual with same | completed
    · exact same ▸ underway.ongoing
    · exact completed ▸ underway.ongoing.complete job.id
  case precedence =>
    rcases residual with same | completed
    · rw [same, underway.precedence]
    · rw [completed, Residual.precedence_complete, underway.precedence]
  case timeline_size =>
    rw [places.timeline, Timeline.size_occupy, Timeline.size_pad, underway.timeline_size]
  case finish_size =>
    rcases finish with same | ⟨tick, set⟩
    · rw [same, underway.finish_size]
    · rw [set, Array.size_setIfInBounds, underway.finish_size]
  case source =>
    intro other member id source
    rcases places.eq_of_source member source with before | ⟨rfl, rfl⟩
    · obtain ⟨known, job, apart⟩ := underway.source other before id source
      exact ⟨known, job, fun before edge left => apart before edge (fewer before left)⟩
    · refine ⟨underway.pending _ pending, ⟨job, places.found, places.resources⟩, ?_⟩
      intro before edge left
      exact free before (underway.precedence ▸ edge) (fewer before left)
  case free =>
    intro resource taken
    rw [places.free sound underway.timeline_size] at taken
    by_cases used : resource ∈ job.operation.resources
    · exact ⟨entry, new, job.id, places.source, places.resources ▸ used⟩
    · rw [if_neg used] at taken
      obtain ⟨other, member, rest⟩ := underway.free resource taken
      exact ⟨other, old member, rest⟩
  case finish =>
    intro id finished
    by_cases here : id = job.id
    · exact ⟨entry, new, here ▸ places.source⟩
    · have before : step.finishOf id ≠ 0 := by
        rcases finish with same | ⟨tick, set⟩
        · rwa [finishOf, same] at finished
        · rwa [finishOf, set, Array.getElem?_setIfInBounds_ne (Ne.symm here)] at finished
      obtain ⟨other, member, source⟩ := underway.finish id before
      exact ⟨other, old member, source⟩

/-- Taking or refusing an operation keeps the step in order. -/
lemma takes (underway : Underway work begun step) (sound : work.Sound)
    (takes : Takes work step next) : Underway work begun next := by
  cases takes with
  | refuse =>
    obtain ⟨_, _, _, _, _, _, _, _, _, _, _⟩ := underway
    constructor <;> assumption
  | accept found ready =>
    exact underway.place sound (places_accept found ready) (.inr rfl) (.inr ⟨_, rfl⟩) rfl

/-- Cutting a delay keeps the step in order. -/
lemma cuts (underway : Underway work begun step) (sound : work.Sound)
    (cuts : Cuts work step next) : Underway work begun next := by
  cases cuts with
  | cut found delay ready =>
    exact underway.place sound (places_cut found delay ready) (.inl rfl) (.inl rfl)
      (Array.size_setIfInBounds ..)

/-- What was ready when the step began is ready as long as it is pending. -/
lemma mem_frontier (underway : Underway work begun step) (ready : id ∈ begun.frontier)
    (left : id ∈ step.residual.pending) : id ∈ step.residual.frontier := by
  refine underway.ongoing.mem_frontier_iff.mpr ⟨left, ?_⟩
  intro before edge pending
  rw [underway.precedence, ← underway.begun_precedence] at edge
  exact (underway.begun_ongoing.mem_frontier_iff.mp ready).2 before edge
    (underway.pending before pending)

/-- An operation that was ready when the step began and has no entry in it can start at its
origin.

**Proof sketch.** If one of its resources were taken, an entry in this step would use it, made from
an operation of which it comes behind or in front. In the first case it would not have been ready;
in the second, that other operation would still wait for it. If one of its predecessors had finished
in this step, it would not have been ready either. -/
theorem earliest_eq_zero (underway : Underway work begun step) (sound : work.Sound)
    (found : work.jobs[job.id]? = some job) (ready : job.id ∈ begun.frontier)
    (pending : job.id ∈ step.residual.pending)
    (untouched : ∀ entry ∈ step.entries, entry.source ≠ some job.id) :
    step.earliest work job = 0 := by
  have resources_free : step.timeline.earliest job.operation.resources ≤ 0 := by
    refine Timeline.earliest_le_iff.mpr ?_
    intro resource used
    refine Nat.le_of_eq ?_
    by_contra taken
    obtain ⟨entry, member, id, source, used'⟩ := underway.free resource taken
    obtain ⟨waiting, ⟨other, found', same⟩, free⟩ := underway.source entry member id source
    have distinct : id ≠ job.id := by
      rintro rfl
      exact untouched entry member source
    rw [same] at used'
    exact sound.not_shared underway.begun_ongoing underway.begun_precedence underway.ongoing
      underway.precedence found found' distinct ready pending waiting free used used'
  have preds_done : latest ((work.precedence.preds job.id).map step.finishOf) ≤ 0 := by
    refine latest_le_iff.mpr (List.forall_mem_map.mpr ?_)
    intro before edge
    refine Nat.le_of_eq ?_
    by_contra finished
    obtain ⟨entry, member, source⟩ := underway.finish before finished
    have waiting := (underway.source entry member before source).1
    rw [← underway.begun_precedence] at edge
    exact (underway.begun_ongoing.mem_frontier_iff.mp ready).2 before edge waiting
  exact Nat.le_zero.mp (Nat.max_le.mpr ⟨resources_free, preds_done⟩)

end Underway

/-! ## While a step is filled -/

/-- While a step is filled, no delay was cut: an operation with an entry is completed. -/
structure Filling (work : Workload) (begun : Residual) (step : Step) : Prop
    extends Underway work begun step where
  taken : ∀ entry ∈ step.entries, ∀ id, entry.source = some id → id ∉ step.residual.pending
  admitted : ∀ entry ∈ step.entries, ∀ id, entry.source = some id → step.admitted ≠ 0

namespace Filling

/-- Nothing was placed in a step that begins. -/
lemma start (ongoing : begun.Ongoing) (same : begun.precedence = work.precedence)
    (size : remaining.size = work.jobs.size) (origin length : Tick) :
    Filling work begun (Step.start work begun remaining origin length) :=
  ⟨.start ongoing same size origin length, by simp [Step.start], by simp [Step.start]⟩

/-- Taking or refusing an operation keeps operations with entries completed.

**Proof sketch.** Only accepting an operation changes anything. It completes the operation, and it
adds an entry of that operation and none of others. -/
lemma takes (filling : Filling work begun step) (sound : work.Sound)
    (takes : Takes work step next) : Filling work begun next := by
  refine ⟨filling.toUnderway.takes sound takes, ?_, ?_⟩
  all_goals cases takes with
  | refuse => first | exact filling.taken | exact filling.admitted
  | accept found ready => ?_
  · intro other member id source
    have consistent := filling.ongoing.toConsistent
    show id ∉ (step.residual.complete _).pending
    rw [consistent.mem_pending_complete ready]
    rintro ⟨distinct, left⟩
    rcases (places_accept found ready).eq_of_source member source with old | ⟨-, same⟩
    · exact filling.taken other old id source left
    · exact distinct same.symm
  · intro _ _ _ _
    exact Nat.succ_ne_zero _

/-- An operation that is pending has no entry yet. -/
lemma untouched (filling : Filling work begun step) (pending : id ∈ step.residual.pending) :
    ∀ entry ∈ step.entries, entry.source ≠ some id := fun entry member source =>
  filling.taken entry member id source pending

end Filling

end Step

end Timetable
