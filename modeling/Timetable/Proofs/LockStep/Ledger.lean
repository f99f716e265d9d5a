import Timetable.Proofs.LockStep.Filling
import Timetable.Proofs.Parts

/-!
# What a timestep does with each operation

A step leaves an operation alone, takes all that is left of it, or cuts the front part off a delay.
It makes at most one entry of each operation, and an operation that was ready when the step began
starts at its origin if it starts at all. Entries follow those of the operations that they wait for.

## Main definitions

* `Step.made` — a step that was filled and in which delays were cut.
* `Step.Handles` — what a step does with one operation.
* `Step.Recorded` — what a step does with all of them.

## Main results

* `Step.recorded_made` — the account of a step that was filled and in which delays were cut.
* `Step.Recorded.dominant`, `Step.dominant_fill` — the operation that a step is made for takes all
  of it.
-/

set_option autoImplicit false

namespace Timetable

open Relation

namespace Step

/-- The step that is begun with `begun` to be done and `remaining` ticks left of each operation,
when it was filled and delays were cut. -/
def made (work : Workload) (begun : Residual) (remaining : Array Tick) (origin length : Tick) :
    Step :=
  ((start work begun remaining origin length).fill work).cutDelays work

/-- What a step does with an operation of which `left` ticks were left when it began: it leaves the
operation alone, takes it, or cuts it and lets the first part take its resource to the end. What was
ready when the step began starts at its origin. -/
inductive Handles (work : Workload) (begun : Residual) (left : Tick) (step : Step) (id : OpId) :
    Prop
  | untouched (parts : partsOf id step.entries = []) (same : step.left id = left)
      (pending : id ∈ step.residual.pending ↔ id ∈ begun.pending)
  | taken {job : Job} {start : Tick} (found : work.jobs[id]? = some job)
      (plain : job.operation.isTimestep = false) (pending : id ∈ begun.pending)
      (done : id ∉ step.residual.pending) (fits : start + left ≤ step.length)
      (prompt : id ∈ begun.frontier → start = 0)
      (parts : partsOf id step.entries =
        [⟨job.operation.rest left job.ticks, step.origin + start, left, some id⟩])
  | cut {job : Job} {span : Span} {resource : Resource} {start : Tick}
      (found : work.jobs[id]? = some job) (delay : job.operation = .delay span resource)
      (pending : id ∈ begun.pending) (ready : id ∈ step.residual.frontier)
      (room : start < step.length) (long : step.length - start < left)
      (prompt : id ∈ begun.frontier → start = 0)
      (covered : step.length ≤ step.timeline.free resource)
      (rest : step.left id = left - (step.length - start))
      (parts : partsOf id step.entries =
        [.idle resource (step.origin + start) (step.length - start) (some id)])

/-- A step of `length` ticks from `origin` on, begun with `begun` to be done and `remaining` ticks
left of each operation: what it does with every operation, and how entries follow each other. -/
structure Recorded (work : Workload) (begun : Residual) (remaining : Array Tick)
    (origin length : Tick) (step : Step) : Prop extends Underway work begun step where
  origin_eq : step.origin = origin
  length_eq : step.length = length
  handles : ∀ id, Handles work begun (remaining[id]?.getD 0) step id
  stop_le : ∀ entry ∈ step.entries, ∀ id, entry.source = some id → id ∉ step.residual.pending →
    entry.stop ≤ step.origin + step.finishOf id
  ordered : ∀ entry ∈ step.entries, ∀ other ∈ step.entries, ∀ before after,
    entry.source = some before → other.source = some after → work.precedence.Edge before after →
      entry.stop ≤ other.start
  unsourced : ∀ entry ∈ step.entries, entry.source = none → entry.FillsGap

variable {work : Workload} {begun : Residual} {remaining : Array Tick} {origin length : Tick}
  {step next : Step} {job : Job} {entry : Entry} {id : OpId}

/-! ## Placing an entry -/

/-- Placing an entry adds it to the parts of its operation. -/
lemma Places.partsOf_self (places : Places work step job entry next) :
    partsOf job.id next.entries = partsOf job.id step.entries ++ [entry] := by
  rw [places.entries, partsOf_append, partsOf_append, partsOf_gaps, List.append_nil,
    partsOf_singleton_self places.source]

/-- Placing an entry adds nothing to the parts of other operations. -/
lemma Places.partsOf_ne (places : Places work step job entry next) (distinct : id ≠ job.id) :
    partsOf id next.entries = partsOf id step.entries := by
  have other : entry.source ≠ some id := by
    rw [places.source]
    exact fun same => distinct (Option.some.inj same).symm
  rw [places.entries, partsOf_append, partsOf_append, partsOf_gaps, partsOf_singleton_ne other,
    List.append_nil, List.append_nil]

/-- Placing an entry takes no resource back. -/
lemma Places.free_le (places : Places work step job entry next) (sound : work.Sound)
    (size : step.timeline.nextFree.size = work.numResources) (resource : Resource) :
    step.timeline.free resource ≤ next.timeline.free resource := by
  rw [places.free sound size]
  split
  · rename_i used
    have free := Timeline.earliest_le_iff.mp (timeline_earliest_le work step job) resource used
    exact free.trans (Nat.le_add_right _ _)
  · exact le_rfl

/-- Placing an entry changes nothing about other operations.

**Proof sketch.** Split on what happened to the operation. Its parts are the same, and the resources
that were covered by them still are, because placing an entry only moves resources further. -/
lemma Handles.place_ne {left : Tick} (handles : Handles work begun left step id)
    (places : Places work step job entry next) (sound : work.Sound)
    (size : step.timeline.nextFree.size = work.numResources) (distinct : id ≠ job.id)
    (same : next.left id = step.left id)
    (pending : id ∈ next.residual.pending ↔ id ∈ step.residual.pending)
    (ready : id ∈ step.residual.frontier → id ∈ next.residual.frontier) :
    Handles work begun left next id := by
  have parts := places.partsOf_ne distinct
  cases handles with
  | untouched none rest waits =>
    exact .untouched (parts.trans none) (same.trans rest) (pending.trans waits)
  | taken found plain waits done fits prompt single =>
    refine .taken found plain waits (fun left => done (pending.mp left)) ?_ prompt ?_
    · exact places.length ▸ fits
    · rw [parts, single, places.origin]
  | cut found delay waits still room long prompt covered rest single =>
    rw [← places.length] at room long covered rest single
    rw [← places.origin] at single
    exact .cut found delay waits (ready still) room long prompt
      (covered.trans (places.free_le sound size _)) (same.trans rest) (parts.trans single)

namespace Recorded

/-- Nothing was done in a step that begins. -/
lemma start (ongoing : begun.Ongoing) (same : begun.precedence = work.precedence)
    (size : remaining.size = work.jobs.size) (origin length : Tick) :
    Recorded work begun remaining origin length (Step.start work begun remaining origin length) :=
  ⟨.start ongoing same size origin length, rfl, rfl, fun _ => .untouched rfl rfl Iff.rfl,
    by simp [Step.start], by simp [Step.start], by simp [Step.start]⟩

/-- Placing an entry adds no entries without a source but idle time. -/
lemma unsourced_place (recorded : Recorded work begun remaining origin length step)
    (places : Places work step job entry next) :
    ∀ entry ∈ next.entries, entry.source = none → entry.FillsGap := by
  intro other member source
  rcases places.mem_entries.mp member with old | gap | rfl
  · exact recorded.unsourced other old source
  · exact Entry.fillsGap_of_mem_gaps gap
  · rw [places.source] at source
    cases source

/-- Placing an entry of an operation without one keeps entries in order.

**Proof sketch.** Two entries that were there before are in order. The new entry starts when
everything it waits for has ended. Nothing that waits for its operation has an entry, since the
operation was pending. -/
lemma ordered_place (recorded : Recorded work begun remaining origin length step)
    (places : Places work step job entry next) :
    ∀ entry ∈ next.entries, ∀ other ∈ next.entries, ∀ before after,
      entry.source = some before → other.source = some after →
        work.precedence.Edge before after → entry.stop ≤ other.start := by
  obtain ⟨pending, free⟩ := recorded.ongoing.mem_frontier_iff.mp places.ready
  rw [recorded.precedence] at free
  intro first member second member' before after source source' edge
  rcases places.eq_of_source member' source' with old' | ⟨rfl, rfl⟩
  · rcases places.eq_of_source member source with old | ⟨rfl, rfl⟩
    · exact recorded.ordered first old second old' before after source source' edge
    · -- what waits for the operation has no entry while it is pending
      obtain ⟨-, -, apart⟩ := recorded.source second old' after source'
      exact absurd pending (apart _ edge)
  · rcases places.eq_of_source member source with old | ⟨rfl, rfl⟩
    · have stop := recorded.stop_le first old before source (free before edge)
      have finish : step.finishOf before ≤ step.earliest work job :=
        (le_latest (List.mem_map_of_mem edge)).trans (Nat.le_max_right _ _)
      rw [places.start]
      exact stop.trans (Nat.add_le_add_left finish _)
    · exact absurd pending (free _ edge)

/-- A step makes nothing of what was completed when it began. -/
lemma partsOf_eq_nil (recorded : Recorded work begun remaining origin length step)
    (completed : id ∉ begun.pending) : partsOf id step.entries = [] := by
  refine partsOf_eq_nil_iff.mpr ?_
  intro entry member source
  exact completed (recorded.source entry member id source).1

/-- Taking or refusing an operation keeps the record.

**Proof sketch.** A refused operation changes nothing of the record. An accepted one was ready and
had no entry before, so it was untouched, and now it has a single entry over all that was left of
it; at tick zero of the step if it was ready when the step began. Other operations are handled as
before. -/
lemma takes (recorded : Recorded work begun remaining origin length step)
    (filling : Filling work begun step) (sound : work.Sound) (takes : Takes work step next) :
    Recorded work begun remaining origin length next := by
  have underway := recorded.toUnderway.takes sound takes
  cases takes with
  | refuse =>
    refine ⟨underway, recorded.origin_eq, recorded.length_eq, fun id => ?_, recorded.stop_le,
      recorded.ordered, recorded.unsourced⟩
    cases recorded.handles id with
    | untouched none rest waits => exact .untouched none rest waits
    | taken found plain waits done fits prompt single =>
      exact .taken found plain waits done fits prompt single
    | cut found delay waits still room long prompt covered rest single =>
      exact .cut found delay waits still room long prompt covered rest single
  | @accept job found ready plain fits =>
    have places := places_accept found ready
    have consistent := recorded.ongoing.toConsistent
    have pending := Residual.mem_pending_of_mem_frontier ready
    have completed : ∀ {other : OpId}, other ∈ (step.residual.complete job.id).pending ↔
        other ≠ job.id ∧ other ∈ step.residual.pending :=
      consistent.mem_pending_complete ready
    have inside : job.id < step.finish.size :=
      recorded.finish_size ▸ (Array.getElem?_eq_some_iff.mp found).1
    refine ⟨underway, recorded.origin_eq, recorded.length_eq, fun id => ?handles, ?stop_le,
      recorded.ordered_place places, recorded.unsourced_place places⟩
    case handles =>
      by_cases same : id = job.id
      · subst same
        have untouched := filling.untouched pending
        have none : partsOf job.id step.entries = [] := partsOf_eq_nil_iff.mpr untouched
        cases recorded.handles job.id with
        | untouched _ rest waits =>
          refine @Handles.taken _ _ _ _ _ job (step.earliest work job) found plain
            (waits.mp pending) (fun left => (completed.mp left).1 rfl) (rest ▸ fits)
            (fun begun_ready => ?_) ?_
          · exact recorded.earliest_eq_zero sound found begun_ready pending untouched
          · rw [places.partsOf_self, none, ← rest]
            rfl
        | taken _ _ _ done => exact absurd pending done
        | cut _ _ _ _ _ _ _ _ _ single =>
          rw [none] at single
          cases single
      · exact (recorded.handles id).place_ne places sound recorded.timeline_size same rfl
          (completed.trans (and_iff_right same))
          fun still => consistent.mem_frontier_complete still same
    case stop_le =>
      intro other member id source done
      rcases places.eq_of_source member source with old | ⟨rfl, rfl⟩
      · have distinct : id ≠ job.id := by
          rintro rfl
          exact filling.untouched pending other old source
        have stop := recorded.stop_le other old id source
          fun left => done (completed.mpr ⟨distinct, left⟩)
        rw [finishOf_accept inside, if_neg distinct]
        exact stop
      · rw [finishOf_accept inside, if_pos rfl]
        exact (Nat.add_assoc _ _ _).le

/-- Cutting a delay keeps the record: it was not cut before, because then it could start only at the
end of the step.

**Proof sketch.** A delay that is cut was untouched: one that was taken is not ready any more, and
one that was cut before has taken its resource to the end of the step and finds no room. Now it has
a single part, which ends with the step. Other operations are handled as before. -/
lemma cuts (recorded : Recorded work begun remaining origin length step) (sound : work.Sound)
    (cuts : Cuts work step next) : Recorded work begun remaining origin length next := by
  have underway := recorded.toUnderway.cuts sound cuts
  cases cuts with
  | @cut job span resource found delay ready room long =>
    have places := places_cut found delay ready
    have pending := Residual.mem_pending_of_mem_frontier ready
    have used : resource ∈ job.operation.resources := by
      rw [delay]
      exact List.mem_singleton_self resource
    have free := Timeline.earliest_le_iff.mp (timeline_earliest_le work step job) resource used
    have inside : job.id < step.remaining.size :=
      recorded.remaining_size ▸ (Array.getElem?_eq_some_iff.mp found).1
    refine ⟨underway, recorded.origin_eq, recorded.length_eq, fun id => ?handles, ?stop_le,
      recorded.ordered_place places, recorded.unsourced_place places⟩
    case handles =>
      by_cases same : id = job.id
      · subst same
        cases recorded.handles job.id with
        | untouched none rest waits =>
          have untouched := partsOf_eq_nil_iff.mp none
          refine @Handles.cut _ _ _ _ _ job _ _ (step.earliest work job) found delay
            (waits.mp pending) ready room (rest ▸ long) (fun begun_ready => ?_) ?_ ?_ ?_
          · exact recorded.earliest_eq_zero sound found begun_ready pending untouched
          · rw [places.free sound recorded.timeline_size, if_pos used]
            exact (Nat.add_sub_of_le room.le).ge
          · rw [← rest]
            simp [left, Step.cut, inside]
          · rw [places.partsOf_self, none]
            rfl
        | taken _ _ _ done => exact absurd pending done
        | cut found' delay' _ _ _ _ _ covered =>
          cases found.symm.trans found'
          cases delay.symm.trans delay'
          exact absurd (covered.trans free) (Nat.not_le_of_lt room)
      · refine (recorded.handles id).place_ne places sound recorded.timeline_size same ?_ Iff.rfl
          fun still => still
        simp [left, Step.cut, Array.getElem?_setIfInBounds_ne (Ne.symm same)]
    case stop_le =>
      intro other member id source done
      rcases places.eq_of_source member source with old | ⟨rfl, rfl⟩
      · exact recorded.stop_le other old id source done
      · exact absurd pending done

/-- Moves of filling a step keep the record. -/
lemma of_takes (recorded : Recorded work begun remaining origin length step)
    (filling : Filling work begun step) (sound : work.Sound)
    (moves : ReflTransGen (Takes work) step next) :
    Recorded work begun remaining origin length next := by
  induction moves with
  | refl => exact recorded
  | tail moves takes ih => exact ih.takes (filling.of_takes sound moves) sound takes

/-- Moves of cutting delays keep the record. -/
lemma of_cuts (recorded : Recorded work begun remaining origin length step) (sound : work.Sound)
    (moves : ReflTransGen (Cuts work) step next) :
    Recorded work begun remaining origin length next := by
  induction moves with
  | refl => exact recorded
  | tail _ cuts ih => exact ih.cuts sound cuts

/-- The operation that a step is made for, which was ready when the step began and is as long as the
step, makes an entry of exactly its span.

**Proof sketch.** The operation was waiting when the step began and is completed, so it was taken,
and at tick zero of the step, as it was ready. Its entry is as long as what was left of it. -/
theorem dominant (recorded : Recorded work begun remaining origin length step)
    (ready : id ∈ begun.frontier) (done : id ∉ step.residual.pending)
    (as_long : remaining[id]?.getD 0 = length) :
    ∃ entry ∈ step.entries, entry.source = some id ∧ entry.start = origin ∧
      entry.duration = length := by
  have waits := Residual.mem_pending_of_mem_frontier ready
  cases recorded.handles id with
  | untouched _ _ pending => exact absurd (pending.mpr waits) done
  | cut _ _ _ still => exact absurd (Residual.mem_pending_of_mem_frontier still) done
  | taken _ _ _ _ _ prompt parts =>
    obtain rfl := prompt ready
    obtain ⟨member, source⟩ := mem_partsOf.mp (parts ▸ List.mem_singleton_self _)
    exact ⟨_, member, source, recorded.origin_eq, as_long⟩

end Recorded

/-- The record of a step that was filled. -/
lemma recorded_fill (sound : work.Sound) (ongoing : begun.Ongoing)
    (same : begun.precedence = work.precedence) (size : remaining.size = work.jobs.size)
    (origin length : Tick) : Recorded work begun remaining origin length
      ((Step.start work begun remaining origin length).fill work) := by
  have filling := Filling.start ongoing same size origin length
  have moves := reflTransGen_fill sound filling.ongoing.toConsistent
  exact (Recorded.start ongoing same size origin length).of_takes filling sound moves

/-- Cutting delays takes back no part of an operation. -/
lemma parts_ne_nil_of_cuts (moves : ReflTransGen (Cuts work) step next)
    (parts : partsOf id step.entries ≠ []) : partsOf id next.entries ≠ [] := by
  induction moves with
  | refl => exact parts
  | tail _ cuts ih =>
    cases cuts with
    | cut found delay ready =>
      obtain ⟨entry, member⟩ := List.exists_mem_of_ne_nil _ ih
      obtain ⟨member, source⟩ := mem_partsOf.mp member
      have kept := (places_cut found delay ready).mem_entries.mpr (.inl member)
      exact List.ne_nil_of_mem (mem_partsOf.mpr ⟨kept, source⟩)

/-- A delay that is too long for the rest of the step is cut. -/
lemma cutDelay_eq_cut {span : Span} {resource : Resource} (found : work.jobs[job.id]? = some job)
    (delay : job.operation = .delay span resource) (room : step.earliest work job < step.length)
    (long : step.length - step.earliest work job < step.left job.id) :
    step.cutDelay work job.id = step.cut job.id resource (step.earliest work job) := by
  obtain ⟨number, operation, ticks⟩ := job
  subst delay
  simp only [cutDelay, found]
  exact if_neg (not_or.mpr ⟨Nat.not_le_of_lt room, Nat.not_le_of_lt long⟩)

/-- A ready delay that starts before the step is over, unless it has a part in it already, and does
not fit has a part in it when it was tried to cut it.

**Proof sketch.** Split on what happened to the delay. If nothing did, it is cut now. It was not
taken, since it is still ready. If it was cut before, its part stays. -/
lemma Recorded.parts_cutDelay (recorded : Recorded work begun remaining origin length step)
    (sound : work.Sound) {span : Span} {resource : Resource} {start : Tick}
    (found : work.jobs[job.id]? = some job) (delay : job.operation = .delay span resource)
    (ready : job.id ∈ step.residual.frontier)
    (starts : partsOf job.id step.entries = [] → step.earliest work job = start)
    (room : start < length) (long : length < start + remaining[job.id]?.getD 0) :
    partsOf job.id (step.cutDelay work job.id).entries ≠ [] := by
  cases recorded.handles job.id with
  | untouched none same _ =>
    obtain rfl := starts none
    rw [← recorded.length_eq] at room
    rw [← recorded.length_eq, ← same] at long
    rw [cutDelay_eq_cut found delay room (by lia), (places_cut found delay ready).partsOf_self]
    simp
  | taken _ _ _ done => exact absurd (Residual.mem_pending_of_mem_frontier ready) done
  | cut _ _ _ _ _ _ _ _ _ single =>
    refine parts_ne_nil_of_cuts (reflTransGen_cutDelay sound ready) ?_
    rw [single]
    exact List.cons_ne_nil _ _

/-- Cutting ready delays leaves none of them out.

**Proof sketch.** Induction on the delays. When the turn of the delay comes it starts at the tick at
which it could start all along, where there is room, so a part of it is taken
(`Recorded.parts_cutDelay`), and nothing takes it away again. -/
lemma Recorded.parts_foldl_cutDelay {ids : List OpId}
    (recorded : Recorded work begun remaining origin length step) (sound : work.Sound)
    {span : Span} {resource : Resource} {start : Tick} (found : work.jobs[job.id]? = some job)
    (delay : job.operation = .delay span resource)
    (ready : ∀ other ∈ ids, other ∈ step.residual.frontier) (among : job.id ∈ ids)
    (starts : ∀ next, ReflTransGen (Cuts work) step next → partsOf job.id next.entries = [] →
      next.earliest work job = start)
    (room : start < length) (long : length < start + remaining[job.id]?.getD 0) :
    partsOf job.id (ids.foldl (cutDelay work) step).entries ≠ [] := by
  induction ids generalizing step with
  | nil => cases among
  | cons first ids ih =>
    have moves := reflTransGen_cutDelay sound (ready first List.mem_cons_self)
    have later : ∀ other ∈ ids, other ∈ (step.cutDelay work first).residual.frontier := by
      intro other member
      rw [residual_of_cuts moves]
      exact ready other (List.mem_cons_of_mem _ member)
    rw [List.foldl_cons]
    rcases List.mem_cons.mp among with rfl | among
    · have parts := recorded.parts_cutDelay sound found delay (ready job.id List.mem_cons_self)
        (starts step .refl) room long
      exact parts_ne_nil_of_cuts (reflTransGen_foldl_cutDelay sound later) parts
    · exact ih (recorded.of_cuts sound moves) later among
        fun next moves' => starts next (moves.trans moves')

/-- A delay that is ready when a step of positive length begins has a part in it.

**Proof sketch.** If filling takes the delay, it has a part. Otherwise it is longer than the step,
since it was ready at the beginning; then cutting delays leaves a part of it
(`Recorded.parts_foldl_cutDelay`), because it can start at tick zero. -/
lemma parts_made_ne_nil (sound : work.Sound) (ongoing : begun.Ongoing)
    (same : begun.precedence = work.precedence) (size : remaining.size = work.jobs.size)
    (origin : Tick) (delay : work.isDelay id = true) (ready : id ∈ begun.frontier)
    (positive : 0 < length) :
    partsOf id (made work begun remaining origin length).entries ≠ [] := by
  obtain ⟨job, span, resource, found, operation⟩ := work.exists_delay delay
  have plain : job.operation.isTimestep = false := by
    rw [operation]
    rfl
  have filling := Filling.start ongoing same size origin length
  have recorded := recorded_fill sound ongoing same size origin length
  by_cases left : id ∈ ((Step.start work begun remaining origin length).fill work).residual.pending
  · have long : length < remaining[id]?.getD 0 := by
      by_contra short
      exact filling.not_pending_fill sound found plain ready (Nat.le_of_not_lt short) left
    have still := recorded.mem_frontier ready left
    obtain rfl := sound.numbered found
    refine recorded.parts_foldl_cutDelay sound found operation (fun _ ready => ready) still
      (fun next moves none => ?_) positive (by rwa [Nat.zero_add])
    have pending : job.id ∈ next.residual.pending := residual_of_cuts moves ▸ left
    exact (recorded.of_cuts sound moves).earliest_eq_zero sound found ready pending
      (partsOf_eq_nil_iff.mp none)
  · refine parts_ne_nil_of_cuts (reflTransGen_cutDelays sound _) ?_
    cases recorded.handles id with
    | untouched _ _ waits =>
      exact absurd (waits.mpr (Residual.mem_pending_of_mem_frontier ready)) left
    | taken _ _ _ _ _ _ single | cut _ _ _ _ _ _ _ _ _ single =>
      rw [single]
      exact List.cons_ne_nil _ _

/-- The record of a step in which delays were cut behind that.

**Proof sketch.** Filling keeps the record (`recorded_fill`), and cutting delays does, too. -/
theorem recorded_made (sound : work.Sound) (ongoing : begun.Ongoing)
    (same : begun.precedence = work.precedence) (size : remaining.size = work.jobs.size)
    (origin length : Tick) : Recorded work begun remaining origin length
      (made work begun remaining origin length) :=
  (recorded_fill sound ongoing same size origin length).of_cuts sound
    (reflTransGen_cutDelays sound _)

/-- What is ready when a step begins and not longer than the step is completed in it, so the step
has taken some operation.

**Proof sketch.** What is ready at the beginning and no longer than the step is taken by the first
round (`Filling.not_pending_fill`). It has an entry, and no entry is made without an operation being
admitted. -/
theorem dominant_fill (sound : work.Sound) (ongoing : begun.Ongoing)
    (same : begun.precedence = work.precedence) (size : remaining.size = work.jobs.size)
    (origin : Tick) (found : work.jobs[id]? = some job) (plain : job.operation.isTimestep = false)
    (ready : id ∈ begun.frontier) : let length := remaining[id]?.getD 0
      id ∉ ((Step.start work begun remaining origin length).fill work).residual.pending ∧
      ((Step.start work begun remaining origin length).fill work).admitted ≠ 0 := by
  intro length
  have filling := Filling.start ongoing same size origin length
  have moves := reflTransGen_fill sound filling.ongoing.toConsistent
  have short : (Step.start work begun remaining origin length).left id ≤ length := le_refl length
  have done := filling.not_pending_fill sound found plain ready short
  obtain ⟨entry, member, source, -, -⟩ :=
    (recorded_fill sound ongoing same size origin length).dominant ready done rfl
  exact ⟨done, (filling.of_takes sound moves).admitted entry member id source⟩

end Step

end Timetable
