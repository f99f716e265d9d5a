import Timetable.Proofs.LockStep.Passes

/-!
# Timesteps that divide a workload

A timestep on all resources waits for every operation in front of it, and every operation behind it
waits for it. So a run writes what stands in front of a timestep before the timestep, and the rest
behind it. If timesteps close their steps, each of them is the boundary of the step that completes
the last of the operations in front of it, unless another timestep stands right in front of it.

If timesteps open their steps, those that stand next to each other are ready together. The first of
them opens the step, and its boundary is written behind those of the others, which close empty steps
in front. This is the only way in which timesteps can get out of order.

## Main definitions

* `Workload.Divided` — every timestep comes before or behind every other operation.
* `Workload.InTurn` — two operations of which one is a timestep stand in their order.
* `Group.sources`, `Grouping.sources` — the operations that were written, in the order of writing.
* `Workload.MarksNothing` — a timestep bounds no operation.
* `Grouping.Attributing` — whatever was written is in turn, and every boundary where it belongs.

## Main results

* `Workload.Divided.eq_succ_of_complete` — timesteps that are ready one after the other are
  neighbors.
* `Grouping.Attributing.advance` — a step keeps everything in turn.
* `Grouping.Attributing.run` — so does a run.
* `Workload.Divided.not_pairwise_sources` — a run in which neighbors open their steps does not.
-/

set_option autoImplicit false

namespace Timetable

open Relation

/-- Jobs and precedence fit together, and of two operations one of which is a timestep, the first
comes before the second. -/
structure Workload.Divided (work : Workload) : Prop extends work.Sound where
  chain : ∀ {before after : OpId}, before < after → after < work.jobs.size →
    work.isTimestep before = true ∨ work.isTimestep after = true →
      TransGen work.precedence.Edge before after

/-- If one of two operations is a timestep, the earlier one stands in front of the later one. -/
def Workload.InTurn (work : Workload) (earlier later : OpId) : Prop :=
  work.isTimestep earlier = true ∨ work.isTimestep later = true → earlier < later

/-- The operations that were written are in turn, and so are those that are left to be done behind
them. -/
structure Turns (work : Workload) (written : List OpId) (residual : Residual) : Prop where
  pairwise : written.Pairwise work.InTurn
  left : ∀ earlier ∈ written, ∀ later ∈ residual.pending, work.InTurn earlier later

/-- The operations of which a group has entries, in their order; a boundary that opens the step
comes first. -/
def Group.sources (side : CarriedSide) (group : Group) : List OpId :=
  (match side with
    | .closing => group.toList
    | .opening => group.opened).filterMap Entry.source

/-- The operations of which a grouping has entries, group by group. -/
def Grouping.sources (work : Workload) (grouping : Grouping) : List OpId :=
  grouping.groups.flatMap (Group.sources work.side)

/-- The neighbor of a timestep on the side of the step that it bounds is a timestep too, if there is
a neighbor at all. -/
def Workload.MarksNothing (work : Workload) (id : OpId) : Prop :=
  match work.side with
  | .closing => ∀ before, before + 1 = id → work.isTimestep before = true
  | .opening => id + 1 < work.jobs.size → work.isTimestep (id + 1) = true

/-- If a timestep bounds a group, the group is empty exactly if there is nothing to mark. -/
def Workload.Attributes (work : Workload) (group : Group) : Prop :=
  ∀ id, group.boundary.source = some id → (group.entries = [] ↔ work.MarksNothing id)

/-- Two timesteps that stand next to each other are left to be done. -/
def Workload.Neighbors (work : Workload) (residual : Residual) (id : OpId) : Prop :=
  id ∈ residual.pending ∧ id + 1 ∈ residual.pending ∧ work.isTimestep id = true ∧
    work.isTimestep (id + 1) = true

variable {work : Workload} {residual rest : Residual} {written ids markers : List OpId}
  {id other before : OpId} {grouping next last : Grouping}

/-! ## Timesteps that are ready -/

namespace Workload.Divided

/-- The immediate predecessors of a timestep stand in front of it. -/
lemma lt_of_edge (divided : work.Divided) (timestep : work.isTimestep id = true)
    (edge : work.precedence.Edge before id) : before < id := by
  rcases lt_trichotomy before id with smaller | rfl | greater
  · exact smaller
  · exact absurd (.single edge) (divided.acyclic before)
  · have inside : before < work.jobs.size := divided.size ▸ (divided.precedence.lt_size edge).1
    exact absurd ((divided.chain greater inside (.inl timestep)).tail edge) (divided.acyclic id)

variable (divided : work.Divided) (ongoing : residual.Ongoing)
  (same : residual.precedence = work.precedence)

include divided ongoing same

/-- Whatever is left to be done has a job. -/
lemma lt_size (pending : id ∈ residual.pending) : id < work.jobs.size := by
  have inside := ongoing.inside id pending
  rwa [same, divided.size] at inside

/-- What comes behind something that is left is left, if one of both is a timestep. -/
lemma pending_of_lt (smaller : before < id) (inside : id < work.jobs.size)
    (either : work.isTimestep before = true ∨ work.isTimestep id = true)
    (pending : before ∈ residual.pending) : id ∈ residual.pending :=
  ongoing.pending_of_transGen (same ▸ divided.chain smaller inside either) pending

/-- Nothing is ready while something in front of it is left, if one of both is a timestep. -/
lemma not_ready_of_lt (smaller : before < id)
    (either : work.isTimestep before = true ∨ work.isTimestep id = true)
    (pending : before ∈ residual.pending) : id ∉ residual.frontier := fun ready =>
  have inside := divided.lt_size ongoing same (Residual.mem_pending_of_mem_frontier ready)
  ongoing.not_mem_frontier (same ▸ divided.chain smaller inside either) pending ready

/-- What is ready is in turn with everything else that is left. -/
lemma inTurn_of_ready (ready : id ∈ residual.frontier) (pending : other ∈ residual.pending)
    (distinct : other ≠ id) : work.InTurn id other := by
  intro either
  by_contra behind
  have smaller : other < id := lt_of_le_of_ne (Nat.le_of_not_lt behind) distinct
  exact divided.not_ready_of_lt ongoing same smaller either.symm pending ready

/-- A timestep that is left is ready if everything in front of it is completed. -/
lemma ready_of_forall_lt (timestep : work.isTimestep id = true) (pending : id ∈ residual.pending)
    (completed : ∀ before < id, before ∉ residual.pending) : id ∈ residual.frontier := by
  refine ongoing.mem_frontier_iff.mpr ⟨pending, fun before edge => ?_⟩
  rw [same] at edge
  exact completed before (divided.lt_of_edge timestep edge)

/-- If a timestep is ready after another one was completed, it stands right behind that one:
whatever stood between them would still be left.

**Proof sketch.** Both are timesteps, so the one that was ready first has the lower number. If there
were operations between them, the one right behind the first would still be left after it was
completed, and the second one would have to wait for it. -/
theorem eq_succ_of_complete (ready : id ∈ residual.frontier)
    (timestep : work.isTimestep id = true) (ready' : other ∈ (residual.complete id).frontier)
    (timestep' : work.isTimestep other = true) : id + 1 = other := by
  have ongoing' := ongoing.complete id
  have same' : (residual.complete id).precedence = work.precedence :=
    (Residual.precedence_complete residual id).trans same
  obtain ⟨distinct, pending⟩ := (ongoing.toConsistent.mem_pending_complete ready).mp
    (Residual.mem_pending_of_mem_frontier ready')
  have smaller : id < other :=
    divided.inTurn_of_ready ongoing same ready pending distinct (.inl timestep)
  by_contra apart
  have between : id + 1 < other := lt_of_le_of_ne smaller apart
  have inside := divided.lt_size ongoing same pending
  have pending' : id + 1 ∈ residual.pending := divided.pending_of_lt ongoing same id.lt_succ_self
    (between.trans inside) (.inl timestep) (Residual.mem_pending_of_mem_frontier ready)
  have still : id + 1 ∈ (residual.complete id).pending :=
    (ongoing.toConsistent.mem_pending_complete ready).mpr ⟨id.succ_ne_self, pending'⟩
  exact divided.not_ready_of_lt ongoing' same' between (.inr timestep') still ready'

/-- If timesteps are completed one after the other, each but the first stands right behind another
timestep; so all of them have a timestep right in front of them if this holds for what is ready. -/
lemma of_completes (completes : residual.Completes ids rest)
    (timestep : ∀ id ∈ ids, work.isTimestep id = true)
    (first : ∀ id ∈ residual.frontier, work.isTimestep id = true →
      ∀ before, before + 1 = id → work.isTimestep before = true) :
    ∀ id ∈ ids, ∀ before, before + 1 = id → work.isTimestep before = true := by
  induction completes with
  | nil => exact nofun
  | @cons residual rest id ids ready completes ih =>
    obtain ⟨here, timestep⟩ := List.forall_mem_cons.mp timestep
    refine List.forall_mem_cons.mpr ⟨first id ready here, ih (ongoing.complete id)
      ((Residual.precedence_complete residual id).trans same) timestep ?_⟩
    intro other ready' timestep' before behind
    have next := divided.eq_succ_of_complete ongoing same ready here ready' timestep'
    obtain rfl : id = before := Nat.succ_injective (next.trans behind.symm)
    exact here

/-- The first two of several timesteps that are completed together are neighbors. -/
lemma neighbors_of_drained (drained : residual.Drained work (id :: other :: ids) rest) :
    id + 1 = other ∧ work.Neighbors residual id := by
  obtain ⟨completes, timestep, -⟩ := drained
  have here := timestep id List.mem_cons_self
  have there := timestep other (List.mem_cons_of_mem _ List.mem_cons_self)
  have among (id : OpId) := completes.perm.mem_iff (a := id)
  cases completes with
  | cons ready completes =>
    cases completes with
    | cons ready' _ =>
      obtain rfl := divided.eq_succ_of_complete ongoing same ready here ready' there
      exact ⟨rfl, (among _).mpr List.mem_cons_self,
        (among _).mpr (List.mem_cons_of_mem _ List.mem_cons_self), here, there⟩

/-- Neighbors are completed together: if the first of them is, everything in front of the second is
completed, which therefore cannot be left.

**Proof sketch.** Suppose the second neighbor is still left when all ready timesteps are completed.
Everything in front of it is completed, as it stands in front of the first neighbor or is this one;
so it is ready, but no timestep is ready any more. -/
lemma succ_mem_of_drained (drained : residual.Drained work markers rest)
    (neighbors : work.Neighbors residual id) (member : id ∈ markers) : id + 1 ∈ markers := by
  obtain ⟨-, pending, here, there⟩ := neighbors
  have perm := drained.completes.perm
  have ongoing' := drained.completes.ongoing ongoing
  have same' := drained.completes.precedence_eq.trans same
  refine (List.mem_append.mp (perm.mem_iff.mp pending)).resolve_right fun left => ?_
  have completed : id ∉ rest.pending := fun left =>
    (List.nodup_append.mp (perm.nodup_iff.mp ongoing.nodup)).2.2 id member id left rfl
  have inside := divided.lt_size ongoing same pending
  have ready : id + 1 ∈ rest.frontier :=
    divided.ready_of_forall_lt ongoing' same' there left fun before smaller still => by
      -- whatever is still left in front of the second stands in front of the first, or is the first
      rcases Nat.lt_succ_iff_lt_or_eq.mp smaller with smaller | same
      · exact completed (divided.pending_of_lt ongoing' same' smaller
          (id.lt_succ_self.trans inside) (.inr here) still)
      · exact completed (same ▸ still)
  rw [drained.plain _ ready] at there
  cases there

end Workload.Divided

/-! ## What a step does with timesteps -/

namespace Step.Recorded

variable {remaining : Array Tick} {origin length : Tick} {step : Step}

/-- A step makes entries of no timesteps. -/
lemma isTimestep_eq_false (recorded : Recorded work rest remaining origin length step)
    (member : id ∈ step.entries.filterMap Entry.source) : work.isTimestep id = false := by
  obtain ⟨entry, among, source⟩ := List.mem_filterMap.mp member
  cases recorded.handles id with
  | untouched none => exact absurd source (partsOf_eq_nil_iff.mp none entry among)
  | taken found plain => rw [Workload.isTimestep, found, Option.any_some, plain]
  | cut found delay => rw [Workload.isTimestep, found, Option.any_some, delay]; rfl

/-- A step completes no timesteps. -/
lemma timestep_pending (recorded : Recorded work rest remaining origin length step)
    (timestep : work.isTimestep id = true) (pending : id ∈ rest.pending) :
    id ∈ step.residual.pending := by
  cases recorded.handles id with
  | untouched _ _ waits => exact waits.mpr pending
  | taken found plain =>
    rw [Workload.isTimestep, found, Option.any_some, plain] at timestep
    cases timestep
  | cut _ _ _ ready => exact Residual.mem_pending_of_mem_frontier ready

/-- If timesteps divide the workload and none is ready when a step begins, one that is ready when it
ends has something else than a timestep right in front of it.

**Proof sketch.** Suppose the operation right in front of the timestep is a timestep too, or that
there is none. A timestep in front is not left, since a step completes no timesteps and this one
would have to wait for it; so nothing is left in front, and the timestep was ready when the step
began, which none was. -/
lemma exists_plain_before (recorded : Recorded work rest remaining origin length step)
    (divided : work.Divided) (plain : ∀ id ∈ rest.frontier, work.isTimestep id = false)
    (ready : id ∈ step.residual.frontier) (timestep : work.isTimestep id = true) :
    ∃ before, before + 1 = id ∧ work.isTimestep before = false := by
  have waits := recorded.pending id (Residual.mem_pending_of_mem_frontier ready)
  have inside := divided.lt_size recorded.begun_ongoing recorded.begun_precedence waits
  by_contra all
  push Not at all
  have begun_ready : id ∈ rest.frontier :=
    divided.ready_of_forall_lt recorded.begun_ongoing recorded.begun_precedence timestep waits
      fun other smaller left => by
        obtain ⟨before, rfl⟩ : ∃ before, before + 1 = id :=
          ⟨id - 1, Nat.sub_add_cancel (Nat.one_le_of_lt smaller)⟩
        have here : work.isTimestep before = true := by simpa using all before rfl
        have left : before ∈ rest.pending := by
          rcases Nat.lt_succ_iff_lt_or_eq.mp smaller with smaller | rfl
          · exact divided.pending_of_lt recorded.begun_ongoing recorded.begun_precedence smaller
              (before.lt_succ_self.trans inside) (.inr here) left
          · exact left
        exact divided.not_ready_of_lt recorded.ongoing recorded.precedence before.lt_succ_self
          (.inl here) (recorded.timestep_pending here left) ready
  rw [plain id begun_ready] at timestep
  cases timestep

end Step.Recorded

/-! ## What is written is in turn -/

namespace Turns

/-- What is ready can be written next. -/
lemma complete (turns : Turns work written residual) (divided : work.Divided)
    (ongoing : residual.Ongoing) (same : residual.precedence = work.precedence)
    (ready : id ∈ residual.frontier) :
    Turns work (written ++ [id]) (residual.complete id) := by
  have pending := Residual.mem_pending_of_mem_frontier ready
  refine ⟨List.pairwise_append.mpr ⟨turns.pairwise, List.pairwise_singleton _ _, ?_⟩, ?_⟩
  · intro earlier old later new
    obtain rfl := List.mem_singleton.mp new
    exact turns.left earlier old later pending
  · intro earlier member later left
    obtain ⟨distinct, still⟩ := (ongoing.toConsistent.mem_pending_complete ready).mp left
    rcases List.mem_append.mp member with old | new
    · exact turns.left earlier old later still
    · obtain rfl := List.mem_singleton.mp new
      exact divided.inTurn_of_ready ongoing same ready still distinct

/-- Several operations that are completed one after the other can be written next. -/
lemma completes (turns : Turns work written residual) (divided : work.Divided)
    (ongoing : residual.Ongoing) (same : residual.precedence = work.precedence)
    (completes : residual.Completes ids rest) : Turns work (written ++ ids) rest := by
  induction completes generalizing written with
  | nil => rwa [List.append_nil]
  | @cons residual rest id ids ready _ ih =>
    have later := ih (turns.complete divided ongoing same ready) (ongoing.complete id)
      ((Residual.precedence_complete residual id).trans same)
    rwa [List.append_assoc] at later

/-- The operations that a step makes entries of can be written next: it makes none of timesteps, and
none of what waits for a timestep.

**Proof sketch.** A step makes no entries of timesteps, so only the order between what is written
and a timestep that is left has to be looked at. If the timestep had the lower number, a chain of
precedence would lead from it to the operation that was taken, but that one waited for nothing. -/
lemma step {remaining : Array Tick} {origin length : Tick} {step : Step}
    (turns : Turns work written rest) (divided : work.Divided)
    (recorded : Step.Recorded work rest remaining origin length step) :
    Turns work (written ++ step.entries.filterMap Entry.source) step.residual := by
  have plain : ∀ id ∈ step.entries.filterMap Entry.source, work.isTimestep id ≠ true :=
    fun id member => by simp [recorded.isTimestep_eq_false member]
  refine ⟨List.pairwise_append.mpr ⟨turns.pairwise, ?_, ?_⟩, ?_⟩
  · exact List.pairwise_iff_forall_sublist.mpr fun {earlier later} sublist either =>
      absurd either (not_or.mpr ⟨plain earlier (sublist.subset List.mem_cons_self),
        plain later (sublist.subset (List.mem_cons_of_mem _ List.mem_cons_self))⟩)
  · intro earlier old later new
    obtain ⟨entry, among, source⟩ := List.mem_filterMap.mp new
    exact turns.left earlier old later (recorded.source entry among later source).1
  · intro earlier member later left either
    rcases List.mem_append.mp member with old | new
    · exact turns.left earlier old later (recorded.pending later left) either
    · have timestep := either.resolve_left (plain earlier new)
      obtain ⟨entry, among, source⟩ := List.mem_filterMap.mp new
      obtain ⟨waits, -, free⟩ := recorded.source entry among earlier source
      rcases lt_trichotomy earlier later with smaller | rfl | greater
      · exact smaller
      · exact absurd timestep (plain earlier new)
      · have inside := divided.lt_size recorded.begun_ongoing recorded.begun_precedence waits
        have chain := divided.chain greater inside (.inl timestep)
        rw [← recorded.precedence] at chain
        obtain ⟨middle, edge, pending⟩ := recorded.ongoing.exists_pending_edge chain left
        rw [recorded.precedence] at edge
        exact absurd pending (free middle edge)

/-- The boundary of a step can be written with it: one that opens the step was made from what was
ready before the step, and one that closes it is made from what is ready behind it.

**Proof sketch.** If no operation bounds the step, nothing is added. A timestep that closes it was
ready behind the step and is written at the end. A timestep that opens it was among those that were
ready before the step, and stands behind the others of them, as in the order in which they were
completed. -/
lemma bounded {source : Option OpId} {last : Residual} {entries : List OpId}
    (turns : Turns work (written ++ markers ++ entries) residual) (divided : work.Divided)
    (ongoing : residual.Ongoing) (same : residual.precedence = work.precedence)
    (bounded : Grouping.Bounded work markers residual source last)
    (together : work.loose markers ++ (work.opening? markers).toList = markers) :
    Turns work (written ++ work.loose markers ++ match work.side with
      | .closing => entries ++ source.toList
      | .opening => source.toList ++ entries) last := by
  cases bounded with
  | unnamed side none last_eq =>
    rw [Workload.opening?, side, Option.toList_none, List.append_nil] at together
    simp only [side, together]
    rwa [last_eq, none, Option.toList_none, List.append_nil]
  | closed side some ready timestep last_eq =>
    rw [Workload.opening?, side, Option.toList_none, List.append_nil] at together
    simp only [side, together]
    rw [last_eq, some, Option.toList_some, ← List.append_assoc]
    exact turns.complete divided ongoing same ready
  | opened side first last_eq =>
    rw [Workload.opening?, side] at together
    simp only [side, last_eq, first]
    rwa [List.append_assoc, ← List.append_assoc (work.loose markers), together,
      ← List.append_assoc]

end Turns

/-! ## What a step writes -/

/-- A boundary is made from at most one operation. -/
lemma filterMap_source_singleton (entry : Entry) :
    [entry].filterMap Entry.source = entry.source.toList := by
  cases source : entry.source <;> simp [source]

/-- The sources of a group are those of its entries, and that of its boundary on the side of the
step that it bounds. -/
lemma Group.sources_eq (side : CarriedSide) (group : Group) : group.sources side = match side with
    | .closing => group.entries.filterMap Entry.source ++ group.boundary.source.toList
    | .opening => group.boundary.source.toList ++ group.entries.filterMap Entry.source := by
  cases side with
  | closing => rw [sources, toList, List.filterMap_append, filterMap_source_singleton]
  | opening =>
    rw [sources, opened, ← List.singleton_append, List.filterMap_append, filterMap_source_singleton]

/-- Padding a step adds nothing that was made from an operation. -/
lemma Step.filterMap_source_padded (step : Step) :
    step.padded.entries.filterMap Entry.source = step.entries.filterMap Entry.source := by
  have gaps : (step.timeline.gaps step.timeline.resources step.length).filterMap Entry.source =
      [] := by
    refine List.filterMap_eq_nil_iff.mpr fun entry gap => ?_
    exact (Entry.fillsGap_of_mem_gaps gap).source_eq
  rw [padded, List.filterMap_append, gaps, List.append_nil]

/-- Each empty step has a boundary made from its timestep, and nothing else. -/
lemma flatMap_sources_emptyGroup (side : CarriedSide) (work : Workload) (elapsed : Tick)
    (ids : List OpId) :
    (ids.map (Grouping.emptyGroup work elapsed)).flatMap (Group.sources side) = ids := by
  rw [List.flatMap_map]
  cases side <;> exact List.flatMap_singleton' ids

namespace Grouping

/-- The sources of a group that a step makes. -/
lemma sources_padded (side : CarriedSide) (step : Step) (length stop : Tick)
    (resources : List Resource) (source : Option OpId) :
    Group.sources side ⟨step.padded.entries, .boundary length resources stop source⟩ =
      match side with
      | .closing => step.entries.filterMap Entry.source ++ source.toList
      | .opening => source.toList ++ step.entries.filterMap Entry.source := by
  rw [Group.sources_eq, step.filterMap_source_padded]
  rfl

/-- What is known about a run that has come some way: whatever was written is in turn with what is
left, and every group has the boundary that belongs to it. No timestep is ready with something else
right in front of it, if timesteps close their steps; no neighbors are left, if they open them. -/
structure Attributing (work : Workload) (grouping : Grouping) : Prop
    extends InOrder work grouping where
  turns : Turns work (grouping.sources work) grouping.residual
  attributes : ∀ group ∈ grouping.groups, work.Attributes group
  behind : work.side = .closing → ∀ id ∈ grouping.residual.frontier, work.isTimestep id = true →
    ∀ before, before + 1 = id → work.isTimestep before = true
  apart : work.side = .opening → ∀ id, ¬work.Neighbors grouping.residual id

namespace Attributing

/-- Nothing was written at the start. -/
lemma start (divided : work.Divided)
    (apart : work.side = .opening → ∀ id, ¬work.Neighbors (Residual.start work.precedence) id) :
    Attributing work (Grouping.start work) := by
  have inOrder := divided.inOrder_start
  refine ⟨inOrder, ⟨.nil, nofun⟩, nofun, ?_, apart⟩
  rintro - id ready timestep before rfl
  have inside := divided.lt_size inOrder.ongoing inOrder.precedence
    (Residual.mem_pending_of_mem_frontier ready)
  have waits : before ∈ (Grouping.start work).residual.pending :=
    List.mem_range.mpr (divided.size ▸ before.lt_succ_self.trans inside)
  exact absurd ready (divided.not_ready_of_lt inOrder.ongoing inOrder.precedence
    before.lt_succ_self (.inr timestep) waits)

variable (attributing : Attributing work grouping) (divided : work.Divided)

include attributing divided

/-- If timesteps open their steps, no two of them are ready together. -/
lemma eq_nil_or_singleton (side : work.side = .opening)
    (drained : grouping.residual.Drained work markers rest) :
    markers = [] ∨ ∃ id, markers = [id] := by
  match markers with
  | [] => exact .inl rfl
  | [id] => exact .inr ⟨id, rfl⟩
  | id :: other :: others =>
    exact absurd (divided.neighbors_of_drained attributing.ongoing attributing.precedence drained).2
      (attributing.apart side id)

/-- Timesteps that are ready together are written in their order. -/
lemma loose_append (drained : grouping.residual.Drained work markers rest) :
    work.loose markers ++ (work.opening? markers).toList = markers := by
  unfold Workload.loose Workload.opening?
  cases side : work.side with
  | closing => exact List.append_nil markers
  | opening =>
    obtain rfl | ⟨id, rfl⟩ := attributing.eq_nil_or_singleton divided side drained <;> rfl

/-- A timestep that closes an empty step has nothing to mark.

**Proof sketch.** If timesteps close their steps, a timestep that is ready before a step has another
one in front of it, or stands at the very front. If they open their steps, an empty step is closed
only when nothing else is left, and then whatever stands behind the timestep is completed together
with it. -/
lemma attributes_emptyGroup (drained : grouping.residual.Drained work markers rest)
    (either : work.side = .closing ∨ rest.pending = []) (member : id ∈ markers) :
    work.Attributes (emptyGroup work grouping.elapsed id) := by
  intro other source
  obtain rfl := Option.some.inj source
  refine ⟨fun _ => ?_, fun _ => rfl⟩
  unfold Workload.MarksNothing
  cases side : work.side with
  | closing =>
    exact divided.of_completes attributing.ongoing attributing.precedence drained.completes
      drained.timestep (attributing.behind side) id member
  | opening =>
    intro inside
    have done : rest.pending = [] := either.resolve_left (by simp [side])
    have among := drained.completes.perm.mem_iff.mpr (List.mem_append_left _ member)
    have next := divided.pending_of_lt attributing.ongoing attributing.precedence id.lt_succ_self
      inside (.inl (drained.timestep id member)) among
    rw [drained.completes.perm.mem_iff, done, List.append_nil] at next
    exact drained.timestep _ next

/-- The timesteps in front of a step have nothing to mark: if timesteps open their steps, none of
them is loose in front of a step. -/
lemma attributes_loose (drained : grouping.residual.Drained work markers rest)
    (member : id ∈ work.loose markers) :
    work.Attributes (emptyGroup work grouping.elapsed id) := by
  refine attributing.attributes_emptyGroup divided drained (.inl ?_)
    (work.mem_markers (List.mem_append_left _ member))
  cases side : work.side with
  | closing => rfl
  | opening =>
    rw [Workload.loose, side] at member
    obtain rfl | ⟨first, rfl⟩ := attributing.eq_nil_or_singleton divided side drained <;>
      cases member

/-- A timestep that bounds a step with entries has something to mark.

**Proof sketch.** A timestep that closes the step was not ready when the step began, so something
plain stands right in front of it (`Recorded.exists_plain_before`). A timestep that opens the step
is the only one that was ready; what is ready then stands behind it, and right behind it stands no
timestep, for neighbors are excluded. -/
lemma not_marksNothing {remaining : Array Tick} {origin length : Tick} {step : Step}
    {source : Option OpId} {left : Residual}
    (drained : grouping.residual.Drained work markers rest) (ready : other ∈ rest.frontier)
    (recorded : Step.Recorded work rest remaining origin length step)
    (bounded : Bounded work markers step.residual source left) (made : source = some id) :
    ¬work.MarksNothing id := by
  unfold Workload.MarksNothing
  cases bounded with
  | unnamed side none => exact absurd (none.symm.trans made) nofun
  | closed side source_eq still timestep =>
    obtain rfl := Option.some.inj (source_eq.symm.trans made)
    obtain ⟨before, behind, plain⟩ :=
      recorded.exists_plain_before divided drained.plain still timestep
    rw [side]
    intro all
    rw [all before behind] at plain
    cases plain
  | opened side source_eq =>
    rw [source_eq] at made
    obtain rfl | ⟨first, rfl⟩ := attributing.eq_nil_or_singleton divided side drained
    · cases made
    · obtain rfl := Option.some.inj made
      have timestep := drained.timestep first List.mem_cons_self
      have among := drained.completes.perm.mem_iff.mpr (List.mem_append_left _ List.mem_cons_self)
      have later := drained.completes.mem_pending (Residual.mem_pending_of_mem_frontier ready)
      have inside := divided.lt_size attributing.ongoing attributing.precedence later
      have distinct : other ≠ first := by
        rintro rfl
        rw [drained.plain other ready] at timestep
        cases timestep
      have smaller : first < other := by
        cases drained.completes with
        | cons first_ready _ =>
          exact divided.inTurn_of_ready attributing.ongoing attributing.precedence first_ready later
            distinct (.inl timestep)
      have bound : first + 1 < work.jobs.size := (Nat.succ_le_of_lt smaller).trans_lt inside
      rw [side]
      intro next
      exact attributing.apart side first ⟨among, divided.pending_of_lt attributing.ongoing
        attributing.precedence first.lt_succ_self bound (.inl timestep) among, timestep, next bound⟩

/-- Behind a step, a timestep that is ready has another one right in front of it, if timesteps close
their steps: the first that was ready behind the step has become its boundary.

**Proof sketch.** A timestep that is ready behind the step was ready before its boundary was
completed, or became ready with it. In the latter case the boundary stands right in front of it
(`eq_succ_of_complete`); and if no timestep was ready behind the step, none is now. -/
lemma behind_advance (side : work.side = .closing)
    (advanced : grouping.advance work = (next, none)) :
    ∀ id ∈ next.residual.frontier, work.isTimestep id = true →
      ∀ before, before + 1 = id → work.isTimestep before = true := by
  have inOrder := attributing.toInOrder
  obtain ⟨markers, rest, drain⟩ : ∃ markers rest, grouping.residual.drain work = (markers, rest) :=
    ⟨_, _, rfl⟩
  have drained := inOrder.drained
  simp only [drain] at drained
  intro id ready timestep before behind
  rcases eq_or_ne rest.pending [] with done | left
  · obtain ⟨_, advanced', residual, -⟩ := InOrder.advance_of_done drain done
    cases advanced.symm.trans advanced'
    have pending := Residual.mem_pending_of_mem_frontier (residual ▸ ready)
    rw [done] at pending
    cases pending
  · obtain ⟨_, length, _, -, advanced', makes⟩ := inOrder.advance_of_left divided.toSound drain left
    cases advanced.symm.trans advanced'
    have recorded := inOrder.recorded divided.toSound drained length
    rw [makes.residual, Workload.boundary?, side] at ready
    cases found : (Step.made work rest grouping.remaining grouping.elapsed
        length).residual.frontier.find? work.isTimestep with
    | none =>
      rw [found] at ready
      exact absurd timestep (List.find?_eq_none.mp found id ready)
    | some marker =>
      rw [found] at ready
      have marked : work.isTimestep marker = true := List.find?_some found
      have next := divided.eq_succ_of_complete recorded.ongoing recorded.precedence
        (List.mem_of_find?_eq_some found) marked ready timestep
      obtain rfl : marker = before := Nat.succ_injective (next.trans behind.symm)
      exact marked

/-- **One step.** Whatever a step writes is in turn with what was written before and with what is
left, and every group that it makes has the boundary that belongs to it.

**Proof sketch.** The timesteps that are ready are written first, then the operations that the step
makes entries of, and then perhaps a timestep that is ready behind them; a timestep that opens the
step is the only one that was ready. -/
theorem advance (advanced : grouping.advance work = (next, none)) : Attributing work next := by
  have inOrder := attributing.toInOrder
  obtain ⟨_, advanced', advances⟩ := inOrder.exists_advance divided.toSound
  cases advanced.symm.trans advanced'
  have behind (side : work.side = .closing) := attributing.behind_advance divided side advanced
  have inOrder' := inOrder.of_advances advances
  cases advances with
  | @finish markers rest drained done residual _ _ groups =>
    have sources : next.sources work = grouping.sources work ++ markers := by
      rw [Grouping.sources, groups, List.flatMap_append, flatMap_sources_emptyGroup,
        attributing.loose_append divided drained]
      rfl
    refine ⟨inOrder', ?turns, ?attributes, behind, fun _ id neighbors => ?apart⟩
    case turns =>
      rw [sources, residual]
      exact attributing.turns.completes divided inOrder.ongoing inOrder.precedence drained.completes
    case attributes =>
      rw [groups, attributing.loose_append divided drained]
      refine List.forall_mem_append.mpr ⟨attributing.attributes, List.forall_mem_map.mpr ?_⟩
      exact fun id member => attributing.attributes_emptyGroup divided drained (.inr done) member
    case apart =>
      have pending := neighbors.1
      rw [residual, done] at pending
      cases pending
  | @step markers rest dominant length step source drained ready as_long recorded done _ bounded _ _
      groups =>
    obtain ⟨-, -, fewer⟩ := bounded.ongoing recorded.ongoing
    have made := (attributing.turns.completes divided inOrder.ongoing inOrder.precedence
      drained.completes).step divided recorded
    refine ⟨inOrder', ?turns, ?attributes, behind, fun side id neighbors => ?apart⟩
    case turns =>
      rw [Grouping.sources, groups, List.flatMap_append, List.flatMap_append,
        flatMap_sources_emptyGroup, List.flatMap_singleton, sources_padded]
      exact made.bounded divided recorded.ongoing recorded.precedence bounded
        (attributing.loose_append divided drained)
    case attributes =>
      rw [groups]
      refine List.forall_mem_append.mpr ⟨List.forall_mem_append.mpr ⟨attributing.attributes,
        List.forall_mem_map.mpr fun id => attributing.attributes_loose divided drained⟩,
        List.forall_mem_singleton.mpr fun id marked => ?_⟩
      have some_entry : step.padded.entries ≠ [] := by
        obtain ⟨entry, member, -⟩ := recorded.dominant ready done as_long.symm
        exact List.ne_nil_of_mem (List.mem_append_left _ member)
      exact iff_of_false some_entry
        (attributing.not_marksNothing divided drained ready recorded bounded marked)
    case apart =>
      -- neighbors that are left now were left before the step
      have before {id : OpId} (pending : id ∈ next.residual.pending) :
          id ∈ grouping.residual.pending :=
        drained.completes.mem_pending (recorded.pending id (fewer id pending))
      exact attributing.apart side id ⟨before neighbors.1, before neighbors.2.1, neighbors.2.2⟩

omit attributing in
/-- **The run.** Steps keep what is known about a run.

**Proof sketch.** Induction on the run, with `advance` for each step. -/
theorem run (runs : Runs work grouping last) (attributing : Attributing work grouping) :
    Attributing work last := by
  induction runs with
  | done => exact attributing
  | step _ advanced _ ih => exact ih (attributing.advance divided advanced)

end Attributing

end Grouping

/-! ## Neighbors that open steps -/

/-- Neighbors of which the first is completed before a step are among several timesteps that are.
The first two of these are neighbors as well. -/
lemma Workload.Divided.exists_neighbors (divided : work.Divided) (ongoing : residual.Ongoing)
    (same : residual.precedence = work.precedence)
    (drained : residual.Drained work markers rest) (neighbors : work.Neighbors residual id)
    (member : id ∈ markers) : ∃ first more, markers = first :: (first + 1) :: more ∧
      work.isTimestep first = true ∧ work.isTimestep (first + 1) = true := by
  have second := divided.succ_mem_of_drained ongoing same drained neighbors member
  match markers with
  | [] => cases member
  | [other] =>
    have distinct := (List.mem_singleton.mp second).trans (List.mem_singleton.mp member).symm
    exact absurd distinct id.succ_ne_self
  | first :: other :: more =>
    obtain ⟨rfl, -, -, here, there⟩ := divided.neighbors_of_drained ongoing same drained
    exact ⟨first, more, rfl, here, there⟩

/-- If timesteps open steps, neighbors that are left when a step begins are left behind it, or of
all that are completed by it, the second one is written in front of the first one.

**Proof sketch.** If the first neighbor is not completed as a timestep that is ready before the
step, it stays with the second one: only timesteps that are ready before the step are completed by
it. If it is completed, then so is the second one, and of all such timesteps the first one opens the
step. Its boundary is written with the step, and those of the others in front of it. -/
lemma Workload.Divided.neighbors_or_exists (divided : work.Divided) (side : work.side = .opening)
    (inOrder : Grouping.InOrder work grouping) (advances : Grouping.Advances work grouping next)
    (neighbors : work.Neighbors grouping.residual id) :
    work.Neighbors next.residual id ∨ ∃ first written between behind,
      work.isTimestep first = true ∧ work.isTimestep (first + 1) = true ∧
        next.sources work = written ++ (first + 1) :: (between ++ first :: behind) := by
  obtain ⟨pending, pending', here, there⟩ := neighbors
  cases advances with
  | @finish markers rest drained done residual _ _ groups =>
    have member : id ∈ markers := by
      have among := drained.completes.perm.mem_iff.mp pending
      rwa [done, List.append_nil] at among
    obtain ⟨first, more, rfl, here, there⟩ := divided.exists_neighbors inOrder.ongoing
      inOrder.precedence drained ⟨pending, pending', here, there⟩ member
    refine .inr ⟨first, grouping.sources work, more, [], here, there, ?_⟩
    rw [Grouping.sources, groups, List.flatMap_append, flatMap_sources_emptyGroup, Workload.loose,
      Workload.opening?, side]
    simp [Grouping.sources, side]
  | @step markers rest dominant length step source drained _ _ recorded _ _ bounded _ _ groups =>
    obtain ⟨ongoing, same⟩ := inOrder.of_drained drained
    cases bounded with
    | unnamed closing | closed closing => cases side.symm.trans closing
    | opened _ source_eq last_eq =>
      by_cases member : id ∈ markers
      · obtain ⟨first, more, rfl, here, there⟩ := divided.exists_neighbors inOrder.ongoing
          inOrder.precedence drained ⟨pending, pending', here, there⟩ member
        refine .inr ⟨first, grouping.sources work, more, step.entries.filterMap Entry.source, here,
          there, ?_⟩
        rw [Grouping.sources, groups, List.flatMap_append, List.flatMap_append,
          flatMap_sources_emptyGroup, List.flatMap_singleton, Grouping.sources_padded, source_eq,
          Workload.loose, side]
        simp [Grouping.sources, side]
      · have left : id ∈ rest.pending :=
          (List.mem_append.mp (drained.completes.perm.mem_iff.mp pending)).resolve_left member
        have left' : id + 1 ∈ rest.pending := divided.pending_of_lt ongoing same id.lt_succ_self
          (divided.lt_size inOrder.ongoing inOrder.precedence pending') (.inl here) left
        rw [last_eq]
        exact .inl ⟨recorded.timestep_pending here left, recorded.timestep_pending there left',
          here, there⟩

/-- If timesteps open steps, and neighbors are left to be done, a run gets timesteps out of order.

**Proof sketch.** Neighbors are completed together, by the step that begins when they are ready. Of
all timesteps that are ready then, the first one opens the step; its neighbor closes an empty step
in front of it. -/
theorem Workload.Divided.not_pairwise_sources (divided : work.Divided)
    (side : work.side = .opening) (runs : Grouping.Runs work grouping last)
    (inOrder : Grouping.InOrder work grouping) (neighbors : work.Neighbors grouping.residual id) :
    ¬(last.sources work).Pairwise fun earlier later =>
      work.isTimestep earlier = true → work.isTimestep later = true → earlier < later := by
  induction runs with
  | @done grouping done =>
    have pending := neighbors.1
    rw [List.isEmpty_iff.mp done] at pending
    cases pending
  | step _ advanced runs ih =>
    obtain ⟨_, advanced', advances⟩ := inOrder.exists_advance divided.toSound
    cases advanced.symm.trans advanced'
    have inOrder' := inOrder.of_advances advances
    rcases divided.neighbors_or_exists side inOrder advances neighbors with still | swapped
    · exact ih inOrder' still
    · obtain ⟨first, written, between, behind, here, there, sources⟩ := swapped
      obtain ⟨more, groups⟩ := runs.exists_groups inOrder' divided.toSound
      intro ordered
      rw [Grouping.sources, groups, List.flatMap_append] at ordered
      have before := (List.pairwise_append.mp ordered).1
      rw [← Grouping.sources, sources] at before
      have smaller := (List.pairwise_cons.mp (List.pairwise_append.mp before).2.1).1 first
        (List.mem_append_right _ List.mem_cons_self) there here
      exact absurd smaller first.lt_succ_self.asymm

end Timetable
