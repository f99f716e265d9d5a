import Mathlib.Data.List.Sort
import Timetable.Proofs.LockStep.Steady
import Timetable.Proofs.Rescheduling.Flattening

/-!
# A step of a plan is repeated

If the operations of a workload are the entries of a plan, one of its steps is repeated. Seen from
the front of the timeline, the entries that are pending still tile the time of the plan, whatever
was taken before. A ready operation has no pending one in front of it on any of its resources, so it
is due exactly where the plan has it, and takes its entry out of the tiling. Since it fits there,
nothing of the step is left over, and what comes behind it has to wait for the timestep that closes
it.

## Main definitions

* `Workload.Lists` — the operations of a workload are the entries of a plan.
* `Step.Repeats` — a step has placed some operations where the plan has them.

## Main results

* `Tiles.pull` — an entry of a tiling that shares no resource with those in front can come first.
* `Step.Repeats.takes` — taking an operation places it where the plan has it.
* `Workload.Lists.made` — a step of the plan is repeated.
-/

set_option autoImplicit false

namespace Timetable

open Relation

/-! ## Pulling an entry to the front -/

/-- An entry of a tiling that shares no resource with those in front of it can come first.

**Proof sketch.** Induction on the entries in front. One that shares no resource with the entry may
trade places with it. -/
theorem Tiles.pull {numResources : Nat} {first last : Resource → Tick} {entry : Entry}
    {front back : List Entry} (tiles : Tiles numResources first (front ++ entry :: back) last)
    (apart : ∀ before ∈ front, ∀ resource ∈ entry.resources, resource ∉ before.resources) :
    Tiles numResources first (entry :: (front ++ back)) last := by
  induction front generalizing first with
  | nil => exact tiles
  | cons other front ih =>
    obtain ⟨placed, rest⟩ := tiles
    obtain ⟨placed', rest⟩ := ih rest fun before member =>
      apart before (List.mem_cons_of_mem _ member)
    have apart := apart other List.mem_cons_self
    rw [Entry.advance_comm] at rest
    refine ⟨fun resource used => ?_, fun resource used => ?_, rest⟩
    · have same := placed' resource used
      rwa [Entry.advance_of_notMem (apart resource used)] at same
    · rw [Entry.advance_of_notMem fun used' => apart resource used' used]
      exact placed resource used

/-! ## Workloads made of a plan -/

/-- The operations of a workload are the entries of a plan, all of which use resources, and an
operation waits for earlier ones on a resource of its own only. -/
structure Workload.Lists (work : Workload) (plan : List Entry) : Prop where
  sound : work.Sound
  job : ∀ id : OpId, work.jobs[id]? = plan[id]?.map fun entry => entry.job id
  touching : ∀ entry ∈ plan, entry.resources ≠ []
  shares : ∀ {before after : OpId}, work.precedence.Edge before after → before < after ∧
    ∃ earlier later, plan[before]? = some earlier ∧ plan[after]? = some later ∧
      ∃ resource ∈ earlier.resources, resource ∈ later.resources

/-- The entries of a plan that operations stand for. -/
def planned (plan : List Entry) (ids : List OpId) : List Entry :=
  ids.filterMap fun id => plan[id]?

variable {work : Workload} {plan : List Entry} {begun : Residual} {step next : Step} {id : OpId}
  {entry : Entry} {last : Resource → Tick}

/-- What is planned under some numbers are the entries of the plan at these places. -/
lemma mem_planned {ids : List OpId} :
    entry ∈ planned plan ids ↔ ∃ id ∈ ids, plan[id]? = some entry :=
  List.mem_filterMap

/-- What is planned under a number and others begins with the entry at that place. -/
lemma planned_cons (found : plan[id]? = some entry) (ids : List OpId) :
    planned plan (id :: ids) = entry :: planned plan ids :=
  List.filterMap_cons_some found

/-- What is planned under numbers and then others is planned in this order. -/
lemma planned_append (plan : List Entry) (front back : List OpId) :
    planned plan (front ++ back) = planned plan front ++ planned plan back :=
  List.filterMap_append

/-- A numbered plan has the same entries, each made from the operation that stands for it. -/
lemma planned_numbered_cons (found : plan[id]? = some entry) (ids : List OpId) :
    planned (numbered plan) (id :: ids) = entry.madeFrom id :: planned (numbered plan) ids := by
  refine planned_cons ?_ ids
  rw [getElem?_numbered, found, Option.map_some]

namespace Workload.Lists

/-- The job of an operation. -/
lemma job_eq (lists : work.Lists plan) (found : plan[id]? = some entry) :
    work.jobs[id]? = some (entry.job id) := by
  rw [lists.job, found, Option.map_some]

/-- Every job is that of an entry. -/
lemma exists_entry (lists : work.Lists plan) {job : Job} (found : work.jobs[id]? = some job) :
    ∃ entry, plan[id]? = some entry ∧ job = entry.job id := by
  rw [lists.job, Option.map_eq_some_iff] at found
  obtain ⟨entry, planned, rfl⟩ := found
  exact ⟨entry, planned, rfl⟩

/-- Every pending operation is an entry of the plan, which uses a declared resource. -/
lemma exists_used (lists : work.Lists plan) {residual : Residual} (ongoing : residual.Ongoing)
    (same : residual.precedence = work.precedence) (pending : id ∈ residual.pending) :
    ∃ (entry : Entry) (resource : Resource), plan[id]? = some entry ∧
      resource ∈ entry.resources ∧ resource < work.numResources := by
  obtain ⟨job, known, -⟩ := lists.sound.exists_job ongoing same pending
  obtain ⟨entry, found, rfl⟩ := lists.exists_entry known
  obtain ⟨resource, used⟩ :=
    List.exists_mem_of_ne_nil _ (lists.touching entry (List.mem_of_getElem? found))
  exact ⟨entry, resource, found, used, lists.sound.declared known resource used⟩

/-- Nothing that is pending in front of a ready operation uses a resource of its own. -/
lemma apart (lists : work.Lists plan) {residual : Residual} (ongoing : residual.Ongoing)
    (same : residual.precedence = work.precedence) (ready : id ∈ residual.frontier)
    (found : plan[id]? = some entry) {other : OpId} {before : Entry} (smaller : other < id)
    (pending : other ∈ residual.pending) (found' : plan[other]? = some before) :
    ∀ resource ∈ entry.resources, resource ∉ before.resources := by
  intro resource used used'
  have chain := lists.sound.shared smaller (lists.job_eq found') (lists.job_eq found) used' used
  rw [← same] at chain
  exact ongoing.not_mem_frontier chain pending ready

/-- In a tiling by the pending entries, that of a ready operation can come first.

**Proof sketch.** Whatever is pending in front of a ready operation shares no resource with it
(`Lists.apart`), so its entry can be moved to the front (`Tiles.pull`). -/
lemma pull (lists : work.Lists plan) {residual : Residual} (ongoing : residual.Ongoing)
    (same : residual.precedence = work.precedence) (sorted : residual.pending.Pairwise (· < ·))
    {first : Resource → Tick} (tiles : Tiles work.numResources first (planned plan residual.pending)
      last) (ready : id ∈ residual.frontier) (found : plan[id]? = some entry) :
    Tiles work.numResources first (entry :: planned plan (residual.pending.erase id)) last := by
  obtain ⟨front, back, split⟩ :=
    List.append_of_mem (Residual.mem_pending_of_mem_frontier ready)
  rw [split] at sorted tiles
  have smaller : ∀ other ∈ front, other < id := fun other member =>
    (List.pairwise_append.mp sorted).2.2 other member id List.mem_cons_self
  have erased : residual.pending.erase id = front ++ back := by
    rw [split, List.erase_append_right _ fun member => Nat.lt_irrefl id (smaller id member),
      List.erase_cons_head]
  rw [planned_append, planned_cons found] at tiles
  rw [erased, planned_append]
  refine tiles.pull fun before member => ?_
  obtain ⟨other, among, found'⟩ := mem_planned.mp member
  exact lists.apart ongoing same ready found (smaller other among)
    (split ▸ List.mem_append_left _ among) found'

end Workload.Lists

/-- A timestep is no delay. -/
lemma Operation.isDelay_of_isTimestep {operation : Operation}
    (timestep : operation.isTimestep = true) : operation.isDelay = false := by
  cases operation with
  | gate | barrier | timestep => rfl
  | delay => cases timestep

namespace Step

/-- A step was begun with `begun` to be done, and has placed operations where the plan has them. The
entries that are pending tile the rest of the plan, from the front of the timeline to `last`. -/
structure Repeats (work : Workload) (plan : List Entry) (last : Resource → Tick) (begun : Residual)
    (step : Step) : Prop extends Filling work begun step where
  origin : step.timeline.origin = step.origin
  left_eq : ∀ id entry, plan[id]? = some entry → step.left id = entry.duration
  sorted : step.residual.pending.Pairwise (· < ·)
  tiles : Tiles work.numResources step.timeline.front (planned plan step.residual.pending) last
  finish_le : ∀ id entry, plan[id]? = some entry → ∀ resource ∈ entry.resources,
    step.finishOf id ≤ step.timeline.free resource
  made : ∃ ids, step.entries = planned (numbered plan) ids ∧
    begun.pending.Perm (ids ++ step.residual.pending)

namespace Repeats

/-- A ready operation can come first in the rest of the plan. -/
lemma pull (repeats : Repeats work plan last begun step) (lists : work.Lists plan)
    (ready : id ∈ step.residual.frontier) (found : plan[id]? = some entry) :
    Tiles work.numResources step.timeline.front
      (entry :: planned plan (step.residual.pending.erase id)) last :=
  lists.pull repeats.ongoing repeats.precedence repeats.sorted repeats.tiles ready found

/-- The resources of a ready operation have come to where the plan has it. -/
lemma free_eq (repeats : Repeats work plan last begun step) (lists : work.Lists plan)
    (ready : id ∈ step.residual.frontier) (found : plan[id]? = some entry) :
    ∀ resource ∈ entry.resources, step.origin + step.timeline.free resource = entry.start := by
  obtain ⟨placed, -⟩ := repeats.pull lists ready found
  intro resource used
  rw [← (placed resource used).2, Timeline.front, repeats.origin]

/-- A ready operation is due where the plan has it.

**Proof sketch.** Each resource of the entry is free exactly when the entry starts in the plan
(`free_eq`). Predecessors share resources with it and have finished by the tick at which those are
free. -/
lemma earliest_eq (repeats : Repeats work plan last begun step) (lists : work.Lists plan)
    (ready : id ∈ step.residual.frontier) (found : plan[id]? = some entry) :
    step.origin + step.earliest work (entry.job id) = entry.start := by
  have free := repeats.free_eq lists ready found
  obtain ⟨resource, used⟩ :=
    List.exists_mem_of_ne_nil _ (lists.touching entry (List.mem_of_getElem? found))
  have here := free resource used
  have lower : step.timeline.free resource ≤ step.earliest work (entry.job id) :=
    Timeline.earliest_le_iff.mp (timeline_earliest_le work step (entry.job id)) resource used
  have upper : step.earliest work (entry.job id) ≤ step.timeline.free resource := by
    refine Nat.max_le.mpr ⟨Timeline.earliest_le_iff.mpr fun other used' => ?_,
      latest_le_iff.mpr (List.forall_mem_map.mpr fun before edge => ?_)⟩
    · have there := free other used'
      lia
    · obtain ⟨-, earlier, later, found', found'', other, used', used''⟩ := lists.shares edge
      cases found.symm.trans found''
      have there := free other used''
      have finish := repeats.finish_le before earlier found' other used'
      lia
  lia

/-- Taking a ready operation places the entry of the plan, without idle time in front of it.

**Proof sketch.** The operation is due at the start of its entry (`earliest_eq`), where its
resources are free, so there is no gap in front of it. All of its duration is left, and its rest is
the operation itself. -/
lemma places (repeats : Repeats work plan last begun step) (lists : work.Lists plan)
    (ready : id ∈ step.residual.frontier) (found : plan[id]? = some entry) :
    let next := step.accept (entry.job id) (step.earliest work (entry.job id))
    Places work step (entry.job id) (entry.madeFrom id) next ∧
      next.entries = step.entries ++ [entry.madeFrom id] := by
  intro next
  have free := repeats.free_eq lists ready found
  have due := repeats.earliest_eq lists ready found
  have left : step.left id = entry.duration := repeats.left_eq id entry found
  have places : Places work step (entry.job id) _ next :=
    places_accept (lists.job_eq found) ready
  have taken : step.taken (entry.job id) (step.earliest work (entry.job id)) =
      entry.madeFrom id := by
    show Entry.mk (entry.operation.rest (step.left id) entry.duration)
      (step.origin + step.earliest work (entry.job id)) (step.left id) (some id) = _
    rw [due, left, Operation.rest_self]
    rfl
  rw [taken] at places
  have no_gap : step.timeline.gaps (entry.job id).operation.resources
      (step.earliest work (entry.job id)) = [] := by
    refine Timeline.gaps_eq_nil fun resource used => ?_
    have here := free resource used
    lia
  refine ⟨places, ?_⟩
  rw [places.entries, no_gap, List.append_nil]

/-- Taking an operation that is ready places it where the plan has it.

**Proof sketch.** Field by field. The entry is pulled to the front of what is still planned and
leaves the tiling there; its resources come to its end, where it finishes; and its number moves from
what is pending to what was made. -/
lemma accept (repeats : Repeats work plan last begun step) (lists : work.Lists plan)
    (ready : id ∈ step.residual.frontier) (found : plan[id]? = some entry)
    (filling :
      Filling work begun (step.accept (entry.job id) (step.earliest work (entry.job id)))) :
    Repeats work plan last begun
      (step.accept (entry.job id) (step.earliest work (entry.job id))) := by
  have due := repeats.earliest_eq lists ready found
  obtain ⟨placed, tiles⟩ := repeats.pull lists ready found
  obtain ⟨places, written⟩ := repeats.places lists ready found
  have free : ∀ resource, (step.accept (entry.job id)
      (step.earliest work (entry.job id))).timeline.free resource =
        if resource ∈ entry.resources then step.earliest work (entry.job id) + entry.duration
        else step.timeline.free resource :=
    places.free lists.sound repeats.timeline_size
  have origin : (step.accept (entry.job id)
      (step.earliest work (entry.job id))).timeline.origin = step.origin := by
    rw [places.timeline, Timeline.origin_occupy, Timeline.origin_pad, repeats.origin]
  have pending : (step.residual.complete id).pending = step.residual.pending.erase id :=
    Residual.pending_complete ready
  refine
    { toFilling := filling
      origin := origin.trans places.origin.symm
      left_eq := repeats.left_eq
      sorted := ?sorted
      tiles := ?tiles
      finish_le := ?finish_le
      made := ?made }
  case sorted =>
    show (step.residual.complete id).pending.Pairwise (· < ·)
    rw [pending]
    exact repeats.sorted.sublist List.erase_sublist
  case tiles =>
    show Tiles _ _ (planned plan (step.residual.complete id).pending) last
    rw [pending]
    refine tiles.congr (fun resource _ => ?_) fun _ _ => rfl
    rw [Timeline.front, origin, free resource]
    by_cases used : resource ∈ entry.resources
    · rw [Entry.advance_of_mem used, if_pos used, (placed resource used).2, ← due, Nat.add_assoc]
    · rw [Entry.advance_of_notMem used, if_neg used, Timeline.front, repeats.origin]
  case finish_le =>
    intro other before found' resource used
    have inside : id < step.finish.size :=
      repeats.finish_size ▸ (Array.getElem?_eq_some_iff.mp (lists.job_eq found)).1
    rw [finishOf_accept inside]
    split
    · rename_i same
      obtain rfl : other = id := same
      cases found.symm.trans found'
      rw [free resource, if_pos used]
      exact Nat.add_le_add_left (repeats.left_eq other entry found).le _
    · exact (repeats.finish_le other before found' resource used).trans
        (places.free_le lists.sound repeats.timeline_size resource)
  case made =>
    obtain ⟨ids, entries, perm⟩ := repeats.made
    refine ⟨ids ++ [id], ?_, ?_⟩
    · rw [written, entries, planned_append, planned_numbered_cons found]
      rfl
    · show begun.pending.Perm (ids ++ [id] ++ (step.residual.complete id).pending)
      rw [pending, List.append_assoc]
      have erased := List.perm_cons_erase (Residual.mem_pending_of_mem_frontier ready)
      exact perm.trans (erased.append_left ids)

/-- Taking or refusing an operation leaves whatever is placed where the plan has it.

**Proof sketch.** Refusing changes nothing that the plan knows of. An operation that is accepted is
the entry at its place (`Repeats.accept`). -/
theorem takes (repeats : Repeats work plan last begun step) (lists : work.Lists plan)
    (takes : Takes work step next) : Repeats work plan last begun next := by
  have filling := repeats.toFilling.takes lists.sound takes
  cases takes with
  | refuse =>
    exact ⟨filling, repeats.origin, repeats.left_eq, repeats.sorted, repeats.tiles,
      repeats.finish_le, repeats.made⟩
  | @accept job found ready plain fits =>
    obtain ⟨entry, planned_entry, same⟩ := lists.exists_entry found
    generalize job.id = id at *
    subst same
    exact repeats.accept lists ready planned_entry filling

/-- Moves of filling a step leave whatever is placed where the plan has it. -/
lemma of_takes (repeats : Repeats work plan last begun step) (lists : work.Lists plan)
    (moves : ReflTransGen (Takes work) step next) : Repeats work plan last begun next := by
  induction moves with
  | refl => exact repeats
  | tail _ takes ih => exact ih.takes lists takes

/-- Nothing was placed in a step that begins. -/
lemma start {remaining : Array Tick} {origin : Tick} (ongoing : begun.Ongoing)
    (same : begun.precedence = work.precedence) (size : remaining.size = work.jobs.size)
    (left : ∀ (id : OpId) (entry : Entry), plan[id]? = some entry →
      remaining[id]?.getD 0 = entry.duration)
    (sorted : begun.pending.Pairwise (· < ·))
    (tiles : Tiles work.numResources (fun _ => origin) (planned plan begun.pending) last)
    (length : Tick) :
    Repeats work plan last begun (Step.start work begun remaining origin length) where
  toFilling := .start ongoing same size origin length
  origin := rfl
  left_eq := left
  sorted := sorted
  tiles := by
    rw [Step.start, Timeline.front_start]
    exact tiles
  finish_le := by
    intro id entry _ resource _
    refine (Nat.le_of_eq ?_).trans (Nat.zero_le _)
    by_cases inside : id < work.jobs.size <;> simp [finishOf, Step.start, inside]
  made := ⟨[], rfl, .refl _⟩

end Repeats

/-- Trying to cut operations that are no delays changes nothing. -/
lemma cutDelays_eq_self (plain : ∀ id ∈ step.residual.frontier, work.isDelay id = false) :
    step.cutDelays work = step := by
  refine List.foldlRecOn (motive := fun last => last = step) _ _ rfl ?_
  rintro _ rfl id ready
  have no_delay := plain id ready
  unfold cutDelay
  split
  · rename_i found
    simp [Workload.isDelay, found, Operation.isDelay] at no_delay
  · rfl

/-- Resources that have all come to the end of a step need no idle time. -/
lemma padded_entries (reached : ∀ resource < step.timeline.nextFree.size,
    step.length ≤ step.timeline.free resource) : step.padded.entries = step.entries := by
  have none : step.timeline.gaps step.timeline.resources step.length = [] :=
    Timeline.gaps_eq_nil fun resource member => reached resource (List.mem_range.mp member)
  rw [padded, none, List.append_nil]

end Step

/-! ## A step of the plan -/

/-- A timestep on all resources stands at some place of a plan. -/
def Seals (numResources : Nat) (plan : List Entry) (marker : OpId) : Prop :=
  ∃ entry, plan[marker]? = some entry ∧ entry.operation.isTimestep = true ∧
    ∀ resource < numResources, resource ∈ entry.resources

/-- Behind a sealed place both fronts have to be the same. -/
lemma Tiles.first_unique {numResources : Nat} {first first' : Resource → Tick} {ids : List OpId}
    (sealed : ∀ marker, ids.head? = some marker → Seals numResources plan marker)
    (tiles : Tiles numResources first (planned plan ids) last)
    (tiles' : Tiles numResources first' (planned plan ids) last) {resource : Resource}
    (declared : resource < numResources) : first resource = first' resource := by
  cases ids with
  | nil => exact (tiles resource declared).trans (tiles' resource declared).symm
  | cons marker later =>
    obtain ⟨entry, found, -, covers⟩ := sealed marker rfl
    rw [planned_cons found] at tiles tiles'
    have used := covers resource declared
    exact (tiles.1 resource used).2.trans (tiles'.1 resource used).2.symm

namespace Workload.Lists

variable {residual : Residual} {marker : OpId}

/-- What is ready does not stand behind a pending place that is sealed. -/
lemma le_of_ready (lists : work.Lists plan) (ongoing : residual.Ongoing)
    (same : residual.precedence = work.precedence) (sealed : Seals work.numResources plan marker)
    (pending : marker ∈ residual.pending) (ready : id ∈ residual.frontier) : id ≤ marker := by
  by_contra behind
  obtain ⟨entry, found, -, covers⟩ := sealed
  obtain ⟨other, resource, found', used, declared⟩ :=
    lists.exists_used ongoing same (Residual.mem_pending_of_mem_frontier ready)
  exact lists.apart ongoing same ready found' (Nat.lt_of_not_le behind) pending found resource used
    (covers resource declared)

/-- The first pending operation is ready. -/
lemma mem_frontier_of_first (lists : work.Lists plan) (ongoing : residual.Ongoing)
    (same : residual.precedence = work.precedence) {later : List OpId}
    (sorted : residual.pending.Pairwise (· < ·)) (pending : residual.pending = id :: later) :
    id ∈ residual.frontier := by
  refine ongoing.mem_frontier_iff.mpr ⟨pending ▸ List.mem_cons_self, fun before edge left => ?_⟩
  rw [same] at edge
  have smaller := (lists.shares edge).1
  rw [pending] at sorted left
  rcases List.mem_cons.mp left with rfl | behind
  · exact Nat.lt_irrefl _ smaller
  · exact Nat.lt_asymm smaller ((List.pairwise_cons.mp sorted).1 before behind)

/-- If the first pending operation is a timestep on all resources, nothing else is ready. -/
lemma frontier_eq (lists : work.Lists plan) (ongoing : residual.Ongoing)
    (same : residual.precedence = work.precedence) (sorted : residual.pending.Pairwise (· < ·))
    (sealed : Seals work.numResources plan marker) {later : List OpId}
    (pending : residual.pending = marker :: later) : residual.frontier = [marker] := by
  have first := lists.mem_frontier_of_first ongoing same sorted pending
  refine (sorted.filter _).eq_of_mem_iff (List.pairwise_singleton _ _) fun id =>
    ⟨fun ready => ?_, fun here => List.mem_singleton.mp here ▸ first⟩
  have le := lists.le_of_ready ongoing same sealed (pending ▸ List.mem_cons_self) ready
  have waits := Residual.mem_pending_of_mem_frontier ready
  rw [pending] at sorted waits
  refine List.mem_singleton.mpr ((List.mem_cons.mp waits).resolve_right fun behind => ?_)
  exact Nat.not_lt_of_le le ((List.pairwise_cons.mp sorted).1 id behind)

variable {remaining : Array Tick} {origin length : Tick} {body back : List OpId}

/-- A step takes nothing behind a place that is sealed: the timestep there is never taken, and
whatever comes behind it waits for it.

**Proof sketch.** A timestep is never taken by a step, so the one at the sealed place is still
pending. Whatever stands behind it in the plan shares a resource with it and so waits for it. -/
lemma pending_of_sealed (lists : work.Lists plan)
    (recorded : Step.Recorded work begun remaining origin length step)
    (sorted : begun.pending.Pairwise (· < ·)) (split : begun.pending = body ++ back)
    (sealed : ∀ marker, back.head? = some marker → Seals work.numResources plan marker) :
    ∀ id ∈ back, id ∈ step.residual.pending := by
  cases back with
  | nil => simp
  | cons marker later =>
    obtain ⟨entry, found, timestep, covers⟩ := sealed marker rfl
    have waits : marker ∈ begun.pending := split ▸ List.mem_append_right _ List.mem_cons_self
    have pending : marker ∈ step.residual.pending := by
      cases recorded.handles marker with
      | untouched _ _ still => exact still.mpr waits
      | taken known plain =>
        cases (lists.job_eq found).symm.trans known
        exact absurd timestep (Bool.eq_false_iff.mp plain)
      | cut _ _ _ ready => exact Residual.mem_pending_of_mem_frontier ready
    refine List.forall_mem_cons.mpr ⟨pending, fun id member => ?_⟩
    have waiting : id ∈ begun.pending :=
      split ▸ List.mem_append_right _ (List.mem_cons_of_mem _ member)
    rw [split] at sorted
    have behind : marker < id :=
      (List.pairwise_cons.mp (List.pairwise_append.mp sorted).2.1).1 id member
    obtain ⟨other, resource, found', used, declared⟩ :=
      lists.exists_used recorded.begun_ongoing recorded.begun_precedence waiting
    have chain := lists.sound.shared behind (lists.job_eq found) (lists.job_eq found')
      (covers resource declared) used
    rw [← recorded.precedence] at chain
    exact recorded.ongoing.pending_of_transGen chain pending

/-- If something is left of the front part of a sorted list, the first of all that is left belongs
to it. -/
lemma mem_of_first {first : OpId} {later : List OpId}
    (sorted : (body ++ back).Pairwise (· < ·)) (sorted' : (first :: later).Pairwise (· < ·))
    (among : first ∈ body ++ back) (in_body : id ∈ body) (left : id ∈ first :: later) :
    first ∈ body := by
  refine (List.mem_append.mp among).resolve_right fun in_back => ?_
  have behind := (List.pairwise_append.mp sorted).2.2 id in_body first in_back
  rcases List.mem_cons.mp left with rfl | after
  · exact Nat.lt_irrefl _ behind
  · exact Nat.lt_asymm behind ((List.pairwise_cons.mp sorted').1 id after)

/-- Filling a step of the plan takes everything of it and nothing behind it.

**Proof sketch.** What is behind is sealed. If something of the step was left over, the first such
operation would be ready, and by what the plan says it would fit. -/
lemma pending_fill (lists : work.Lists plan) (ongoing : begun.Ongoing)
    (same : begun.precedence = work.precedence) (size : remaining.size = work.jobs.size)
    (repeats : Step.Repeats work plan last begun (Step.start work begun remaining origin length))
    (split : begun.pending = body ++ back)
    (plain : ∀ entry ∈ planned plan body, entry.operation.isTimestep = false)
    (tiles : Tiles work.numResources (fun _ => origin) (planned plan body) fun _ => origin + length)
    (sealed : ∀ marker, back.head? = some marker → Seals work.numResources plan marker) :
    ((Step.start work begun remaining origin length).fill work).residual.pending = back := by
  have filled := repeats.of_takes lists
    (Step.reflTransGen_fill lists.sound repeats.ongoing.toConsistent)
  have sorted : begun.pending.Pairwise (· < ·) := repeats.sorted
  have settles := Step.settles_fill lists.sound repeats.ongoing.toConsistent
  have recorded := Step.recorded_fill lists.sound ongoing same size origin length
  have kept := lists.pending_of_sealed recorded sorted split sealed
  generalize (Step.start work begun remaining origin length).fill work = step at *
  rw [split] at sorted
  refine filled.sorted.eq_of_mem_iff (List.pairwise_append.mp sorted).2.1 fun id =>
    ⟨fun left => ?_, kept id⟩
  refine (List.mem_append.mp (split ▸ filled.pending id left)).resolve_left fun in_body => ?_
  obtain ⟨first, later, pending⟩ := List.exists_cons_of_ne_nil (List.ne_nil_of_mem left)
  have ready := lists.mem_frontier_of_first filled.ongoing filled.precedence filled.sorted pending
  have waits := Residual.mem_pending_of_mem_frontier ready
  have first_in_body : first ∈ body := mem_of_first sorted (pending ▸ filled.sorted)
    (split ▸ filled.pending first waits) in_body (pending ▸ left)
  obtain ⟨entry, resource, found, used, -⟩ :=
    lists.exists_used filled.ongoing filled.precedence waits
  have member : entry ∈ planned plan body := mem_planned.mpr ⟨first, first_in_body, found⟩
  have refused := settles.refused first ready _ (lists.job_eq found) (plain entry member)
  have due := filled.earliest_eq lists ready found
  have long := filled.left_eq first entry found
  have stop := tiles.stop_le member used
  rw [recorded.length_eq] at refused
  rw [recorded.origin_eq] at due
  rw [Entry.stop] at stop
  lia

/-- If what is left begins with a sealed place, if with anything, no delay is ready: at most the
timestep there is. -/
lemma isDelay_of_ready (lists : work.Lists plan) (ongoing : residual.Ongoing)
    (same : residual.precedence = work.precedence) (sorted : residual.pending.Pairwise (· < ·))
    (sealed : ∀ marker, residual.pending.head? = some marker →
      Seals work.numResources plan marker) :
    ∀ id ∈ residual.frontier, work.isDelay id = false := by
  intro id ready
  obtain ⟨marker, later, pending⟩ := List.exists_cons_of_ne_nil
    (List.ne_nil_of_mem (Residual.mem_pending_of_mem_frontier ready))
  have sealed := sealed marker (by rw [pending, List.head?_cons])
  rw [lists.frontier_eq ongoing same sorted sealed pending, List.mem_singleton] at ready
  obtain ⟨entry, found, timestep, -⟩ := sealed
  rw [ready, Workload.isDelay, lists.job_eq found, Option.any_some]
  exact Operation.isDelay_of_isTimestep timestep

/-- When nothing of a step of the plan is left, all resources have come to its end, since what comes
behind begins there. -/
lemma free_of_planned (repeats : Step.Repeats work plan last begun step) {stop : Tick}
    (sealed : ∀ marker, step.residual.pending.head? = some marker →
      Seals work.numResources plan marker)
    (behind : Tiles work.numResources (fun _ => stop) (planned plan step.residual.pending) last)
    {resource : Resource} (declared : resource < work.numResources) :
    step.origin + step.timeline.free resource = stop := by
  have same := Tiles.first_unique sealed repeats.tiles behind declared
  rwa [Timeline.front, repeats.origin] at same

/-- **A step of a plan is repeated.** A step that is begun when the operations of one step of the
plan and those behind it are pending, and that is as long as the plan has it, makes the entries of
the plan.

**Proof sketch.** Filling the step keeps `Repeats` and ends with what is planned behind the step
(`pending_fill`). At most the sealed timestep is ready then, so no delay is cut, and as all
resources have come to the end of the step nothing is padded. -/
theorem made (lists : work.Lists plan) (ongoing : begun.Ongoing)
    (same : begun.precedence = work.precedence) (size : remaining.size = work.jobs.size)
    (left : ∀ (id : OpId) (entry : Entry), plan[id]? = some entry →
      remaining[id]?.getD 0 = entry.duration)
    (sorted : begun.pending.Pairwise (· < ·)) (split : begun.pending = body ++ back)
    (plain : ∀ entry ∈ planned plan body, entry.operation.isTimestep = false)
    (tiles : Tiles work.numResources (fun _ => origin) (planned plan body) fun _ => origin + length)
    (behind : Tiles work.numResources (fun _ => origin + length) (planned plan back) last)
    (sealed : ∀ marker, back.head? = some marker → Seals work.numResources plan marker) :
    (Step.made work begun remaining origin length).residual.pending = back ∧
      (Step.made work begun remaining origin length).remaining = remaining ∧
      (Step.made work begun remaining origin length).padded.entries.Perm
        (planned (numbered plan) body) := by
  have whole : Tiles work.numResources (fun _ => origin) (planned plan begun.pending) last := by
    rw [split, planned_append]
    exact tiles.append behind
  have started := Step.Repeats.start ongoing same size left sorted whole length
  have moves := Step.reflTransGen_fill lists.sound started.ongoing.toConsistent
  have filled := started.of_takes lists moves
  obtain ⟨origin_eq, length_eq, remaining_eq⟩ := Step.keeps_of_takes moves
  have pending := lists.pending_fill ongoing same size started split plain tiles sealed
  unfold Step.made
  generalize (Step.start work begun remaining origin length).fill work = step at *
  have origin_eq : step.origin = origin := origin_eq
  have length_eq : step.length = length := length_eq
  rw [← pending] at sealed behind
  have no_delay := lists.isDelay_of_ready filled.ongoing filled.precedence filled.sorted sealed
  rw [Step.cutDelays_eq_self no_delay]
  have reached : ∀ resource < step.timeline.nextFree.size,
      step.length ≤ step.timeline.free resource := by
    intro resource declared
    rw [filled.timeline_size] at declared
    have same := free_of_planned filled sealed behind declared
    lia
  rw [Step.padded_entries reached]
  refine ⟨pending, remaining_eq, ?_⟩
  obtain ⟨ids, entries, perm⟩ := filled.made
  rw [split, pending] at perm
  rw [entries]
  exact ((List.perm_append_right_iff back).mp perm).symm.filterMap _

end Workload.Lists

end Timetable
