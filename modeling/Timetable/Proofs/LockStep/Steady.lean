import Timetable.Proofs.LockStep.Writing

/-!
# What bounds the length of a step

A step goes on until nothing that is ready fits. What its length depends on can be seen in its
entries: either the operation that it is made for is no delay, and then no entry before it uses one
of its resources, or nothing but delays was ready, and then, if the shortest of them decides, every
entry that starts with the step takes all of it.

## Main definitions

* `Step.Leads` — an operation has an entry, and those in front of it use none of its resources.
* `Step.AllOrNothing` — every entry that starts with the step takes all of it.
* `Group.LedBy` — an entry has none in front of it on any of its resources.
* `Group.Steady` — a group shows what bounds its length.

## Main results

* `Step.Settles.refused` — nothing that is ready fits into a step that was filled.
* `Step.leads_fill` — what was ready when the step began leads in it.
* `Step.AllOrNothing.made` — if none of the ready delays is shorter than the step.
* `Workload.Dominant.exists_ledBy` — the operation that a step is made for leads its group.
* `Grouping.Runs.steady` — the groups of a run are steady if the shortest delay decides.
-/

set_option autoImplicit false

namespace Timetable

open Relation

variable {work : Workload} {begun : Residual} {remaining : Array Tick} {origin length : Tick}
  {step next last : Step} {job : Job} {id : OpId} {ids : List OpId}

namespace Step

/-! ## Nothing more fits -/

/-- Offering an operation takes it or does nothing but take a note, and then the operation does not
fit.

**Proof sketch.** The cases of the definition: the operation is unknown, or is a timestep, or would
end behind the step, or is accepted. -/
lemma offer_eq (work : Workload) (step : Step) (id : OpId) :
    (step.offer work id).admitted = step.admitted + 1 ∨
      (∃ notes, step.offer work id = { step with notes }) ∧ ∀ job, work.jobs[id]? = some job →
        job.operation.isTimestep = false → step.length < step.earliest work job + step.left id := by
  unfold offer
  cases found : work.jobs[id]? with
  | none => exact .inr ⟨⟨step.notes, rfl⟩, by simp⟩
  | some job =>
    dsimp only
    split
    · rename_i timestep
      refine .inr ⟨⟨step.notes, rfl⟩, fun other same plain => ?_⟩
      cases same
      rw [timestep] at plain
      cases plain
    · split
      · rename_i long
        refine .inr ⟨⟨_, rfl⟩, fun other same _ => ?_⟩
        cases same
        exact long
      · exact .inl rfl

/-- Offers never give back an operation. -/
lemma admitted_le_foldl_offer (ids : List OpId) (step : Step) :
    step.admitted ≤ (ids.foldl (offer work) step).admitted := by
  induction ids generalizing step with
  | nil => exact le_rfl
  | cons id ids ih =>
    refine le_trans ?_ (ih (step.offer work id))
    rcases offer_eq work step id with taken | ⟨⟨notes, same⟩, -⟩
    · omega
    · rw [same]

/-- If offers take nothing, nothing that was offered fits.

**Proof sketch.** Induction on what is offered. An offer that was taken would raise the number of
admitted operations, which never falls again; so the first one was refused, and the rest was offered
to the same step. -/
lemma refused_of_foldl_offer
    (nothing : (ids.foldl (offer work) step).admitted = step.admitted) :
    (∃ notes, ids.foldl (offer work) step = { step with notes }) ∧
      ∀ id ∈ ids, ∀ job, work.jobs[id]? = some job → job.operation.isTimestep = false →
        step.length < step.earliest work job + step.left id := by
  induction ids generalizing step with
  | nil => exact ⟨⟨step.notes, rfl⟩, by simp⟩
  | cons id ids ih =>
    rw [List.foldl_cons] at nothing ⊢
    have more : (step.offer work id).admitted ≤
        (ids.foldl (offer work) (step.offer work id)).admitted :=
      admitted_le_foldl_offer ids (step.offer work id)
    rcases offer_eq work step id with taken | ⟨⟨notes, same⟩, refused⟩
    · omega
    · rw [same] at nothing ⊢
      obtain ⟨unchanged, later⟩ := ih nothing
      exact ⟨unchanged, List.forall_mem_cons.mpr ⟨refused, later⟩⟩

/-- Nothing that is ready fits into a step that was filled.

**Proof sketch.** The last round took nothing, so each of its offers was refused and left the step
as it was but for notes. -/
theorem Settles.refused (settles : Settles work step last) :
    ∀ id ∈ last.residual.frontier, ∀ job, work.jobs[id]? = some job →
      job.operation.isTimestep = false → last.length < last.earliest work job + last.left id := by
  induction settles with
  | @last step nothing =>
    obtain ⟨⟨notes, same⟩, refused⟩ := refused_of_foldl_offer nothing
    have round : step.round work = { step with notes } := same
    rw [round]
    exact refused
  | again _ _ ih => exact ih

/-! ## What was ready when the step began -/

/-- Nothing is placed on the resources of an operation that was ready when the step began until it
is taken itself.

**Proof sketch.** As long as the operation waits it could start at tick zero of the step, so its
resources are free until then and no idle time is on them. An entry of another operation on such a
resource would need that operation to be completed while this one is pending, although they share a
resource and wait for nothing; this is impossible since one of them comes before the other. -/
lemma Filling.unused (filling : Filling work begun step) (sound : work.Sound)
    (tiled : Tiled work.numResources origin length step)
    (unsourced : ∀ entry ∈ step.entries, entry.source = none → entry.FillsGap)
    (found : work.jobs[job.id]? = some job) (ready : job.id ∈ begun.frontier)
    (pending : job.id ∈ step.residual.pending) :
    ∀ entry ∈ step.entries, ∀ resource ∈ job.operation.resources, resource ∉ entry.resources := by
  have untouched := filling.untouched pending
  have start := filling.earliest_eq_zero sound found ready pending untouched
  intro entry member resource used used'
  cases source : entry.source with
  | none =>
    obtain ⟨other, begins, duration, positive, rfl⟩ := unsourced entry member source
    have free := Timeline.earliest_le_iff.mp (timeline_earliest_le work step job) resource used
    have le_start := tiled.tiles.le_start member used'
    have stop_le := tiled.tiles.stop_le member used'
    rw [start] at free
    rw [Timeline.front, tiled.timeline] at stop_le
    simp only [Entry.stop, Entry.idle] at le_start stop_le
    lia
  | some id =>
    obtain ⟨waiting, ⟨other, found', same⟩, free⟩ := filling.source entry member id source
    have distinct : id ≠ job.id := by
      rintro rfl
      exact untouched entry member source
    rw [same] at used'
    exact sound.not_shared filling.begun_ongoing filling.begun_precedence filling.ongoing
      filling.precedence found found' distinct ready pending waiting free used used'

/-- Some entries hold one that was made from an operation, and those in front of it use none of its
resources. -/
def Leads (id : OpId) (entries : List Entry) : Prop :=
  ∃ front entry back, entries = front ++ entry :: back ∧ entry.source = some id ∧
    ∀ before ∈ front, ∀ resource ∈ entry.resources, resource ∉ before.resources

/-- Further entries behind the others change nothing about this. -/
lemma Leads.append {entries : List Entry} (leads : Leads id entries) (more : List Entry) :
    Leads id (entries ++ more) := by
  obtain ⟨front, entry, back, rfl, rest⟩ := leads
  exact ⟨front, entry, back ++ more, by simp, rest⟩

/-- Taking or refusing an operation keeps the tiling. -/
lemma Tiled.takes (tiled : Tiled work.numResources origin length step)
    (wellFormed : work.WellFormed) (takes : Takes work step next) :
    Tiled work.numResources origin length next := by
  cases takes with
  | refuse =>
    obtain ⟨_, _, _, _, _, _, _⟩ := tiled
    constructor <;> assumption
  | accept found ready plain fits =>
    exact tiled.accept (wellFormed.declared found) (wellFormed.touching found) plain
      (timeline_earliest_le work step _) fits

/-- Taking an operation that was ready when the step began puts its entry in front on all of its
resources, where it stays.

**Proof sketch.** When the operation is taken, nothing is placed on its resources yet
(`Filling.unused`) and no idle time is needed in front of it; so its entry comes first on them. If
it was taken before, further entries come at the end. -/
lemma Recorded.leads_takes (recorded : Recorded work begun remaining origin length step)
    (filling : Filling work begun step) (sound : work.Sound)
    (tiled : Tiled work.numResources origin length step) (ready : id ∈ begun.frontier)
    (leads : id ∉ step.residual.pending → Leads id step.entries) (takes : Takes work step next) :
    id ∉ next.residual.pending → Leads id next.entries := by
  intro done
  cases takes with
  | refuse => exact leads done
  | @accept job found ready' plain fits =>
    have places := places_accept found ready'
    by_cases pending : id ∈ step.residual.pending
    · obtain rfl : id = job.id := by
        by_contra distinct
        exact done ((filling.ongoing.mem_pending_complete ready').mpr ⟨distinct, pending⟩)
      have start := filling.earliest_eq_zero sound found ready pending (filling.untouched pending)
      have unused := filling.unused sound tiled recorded.unsourced found ready pending
      have gaps : step.timeline.gaps job.operation.resources 0 = [] :=
        Timeline.gaps_eq_nil fun _ _ => Nat.zero_le _
      refine ⟨step.entries, step.taken job (step.earliest work job), [], ?_, rfl, ?_⟩
      · rw [places.entries, start, gaps, List.append_nil]
      · intro before member resource used
        rw [places.resources] at used
        exact unused before member resource used
    · rw [places.entries, List.append_assoc]
      exact (leads pending).append _

/-- What was ready when the step began, and was taken, is in front on all of its resources.

**Proof sketch.** The invariant "if it is completed, its entry leads" holds when the step begins,
where nothing is completed yet, and is kept by each move (`Recorded.leads_takes`). -/
theorem leads_fill (sound : work.Sound) (wellFormed : work.WellFormed) (ongoing : begun.Ongoing)
    (same : begun.precedence = work.precedence) (size : remaining.size = work.jobs.size)
    (ready : id ∈ begun.frontier)
    (done : id ∉ ((start work begun remaining origin length).fill work).residual.pending) :
    Leads id ((start work begun remaining origin length).fill work).entries := by
  have filling := Filling.start ongoing same size origin length
  have recorded := Recorded.start ongoing same size origin length
  have tiled := tiled_start work begun remaining origin length
  have moves := reflTransGen_fill sound filling.ongoing.toConsistent
  have invariant : ∀ {last : Step}, ReflTransGen (Takes work)
      (start work begun remaining origin length) last →
      Tiled work.numResources origin length last ∧
        (id ∉ last.residual.pending → Leads id last.entries) := by
    intro last moves
    induction moves with
    | refl =>
      exact ⟨tiled, fun done => absurd (Residual.mem_pending_of_mem_frontier ready) done⟩
    | tail before takes ih =>
      have filling := filling.of_takes sound before
      exact ⟨ih.1.takes wellFormed takes, (recorded.of_takes (.start ongoing same size _ _) sound
        before).leads_takes filling sound ih.1 ready ih.2 takes⟩
  exact (invariant moves).2 done

/-! ## Steps for which nothing but delays is ready -/

/-- Every resource is still free at the beginning of the step or taken to its end, what was
completed in the step finishes at its end, and every entry that starts with the step takes all of
it. -/
structure AllOrNothing (begun : Residual) (step : Step) : Prop where
  origin : step.timeline.origin = step.origin
  free : ∀ resource, step.timeline.free resource = 0 ∨ step.timeline.free resource = step.length
  finish : ∀ id ∈ begun.pending, id ∉ step.residual.pending → step.finishOf id = step.length
  entries : ∀ entry ∈ step.entries, entry.start = step.origin → entry.duration = step.length

namespace AllOrNothing

/-- Nothing was placed in a step that begins. -/
lemma start (work : Workload) (begun : Residual) (remaining : Array Tick) (origin length : Tick) :
    AllOrNothing begun (Step.start work begun remaining origin length) where
  origin := rfl
  free := fun resource => .inl (Timeline.free_start _ _ resource)
  finish := fun _ pending done => absurd pending done
  entries := by simp [Step.start]

/-- A predecessor of a ready operation finished at the end of the step, or before it. -/
lemma finish_of_edge (all : AllOrNothing begun step) (underway : Underway work begun step)
    (ready : id ∈ step.residual.frontier) {before : OpId} (edge : work.precedence.Edge before id) :
    step.finishOf before = 0 ∨ step.finishOf before = step.length := by
  by_cases finished : step.finishOf before = 0
  · exact .inl finished
  · obtain ⟨entry, member, source⟩ := underway.finish before finished
    rw [← underway.precedence] at edge
    exact .inr (all.finish before (underway.source entry member before source).1
      ((underway.ongoing.mem_frontier_iff.mp ready).2 before edge))

/-- A ready operation can start at the beginning of the step, or at its end.

**Proof sketch.** The operation starts at the latest tick at which a resource becomes free or a
predecessor has finished, and each of these ticks is the beginning of the step or its end. -/
lemma earliest (all : AllOrNothing begun step) (underway : Underway work begun step)
    (ready : job.id ∈ step.residual.frontier) :
    step.earliest work job = 0 ∨ step.earliest work job = step.length := by
  have resources : step.timeline.earliest job.operation.resources = 0 ∨
      step.timeline.earliest job.operation.resources = step.length := by
    rcases latest_eq_zero_or_mem (job.operation.resources.map step.timeline.free) with zero | among
    · exact .inl zero
    · obtain ⟨resource, -, same⟩ := List.mem_map.mp among
      rw [Timeline.earliest, ← same]
      exact all.free resource
  have preds : latest ((work.precedence.preds job.id).map step.finishOf) = 0 ∨
      latest ((work.precedence.preds job.id).map step.finishOf) = step.length := by
    rcases latest_eq_zero_or_mem ((work.precedence.preds job.id).map step.finishOf) with
      zero | among
    · exact .inl zero
    · obtain ⟨before, edge, same⟩ := List.mem_map.mp among
      rw [← same]
      exact all.finish_of_edge underway ready edge
  rw [Step.earliest]
  rcases resources with zero | stop <;> rcases preds with zero' | stop' <;> simp [*]

/-- An operation that fits ends with the step, if nothing that was ready when the step began is
shorter than the step.

**Proof sketch.** An operation that was ready at the beginning is at least as long as the step. Any
other one waited for something that was completed in the step, which finished with the step; so this
one can start only at the end. -/
lemma stop_eq (all : AllOrNothing begun step) (filling : Filling work begun step)
    (long : ∀ id ∈ begun.frontier, step.length ≤ step.left id)
    (ready : job.id ∈ step.residual.frontier)
    (fits : step.earliest work job + step.left job.id ≤ step.length) :
    step.earliest work job + step.left job.id = step.length := by
  have pending := Residual.mem_pending_of_mem_frontier ready
  refine le_antisymm fits ?_
  by_cases at_begin : job.id ∈ begun.frontier
  · exact (long _ at_begin).trans (Nat.le_add_left _ _)
  · -- what it waited for when the step began was completed since, and finished with the step
    obtain ⟨before, edge, waiting⟩ : ∃ before, begun.precedence.Edge before job.id ∧
        before ∈ begun.pending := by
      by_contra none
      exact at_begin (filling.begun_ongoing.mem_frontier_iff.mpr
        ⟨filling.pending _ pending, fun before edge waiting => none ⟨before, edge, waiting⟩⟩)
    rw [filling.begun_precedence, ← filling.precedence] at edge
    have done := (filling.ongoing.mem_frontier_iff.mp ready).2 before edge
    rw [filling.precedence] at edge
    have finish : step.finishOf before ≤ step.earliest work job :=
      (le_latest (List.mem_map_of_mem edge)).trans (Nat.le_max_right _ _)
    rw [all.finish before waiting done] at finish
    exact finish.trans (Nat.le_add_right _ _)

/-- Placing an entry that ends with the step keeps this, if finishes stay as they should be.

**Proof sketch.** The resources of the entry come to the end of the step, and the others stay where
they are. Idle time in front of the entry reaches from the beginning to the end of the step, as the
entry starts at one of these two ticks. -/
lemma place (all : AllOrNothing begun step) (underway : Underway work begun step)
    (sound : work.Sound) {entry : Entry} (places : Places work step job entry next)
    (stop : step.earliest work job + entry.duration = step.length)
    (finish : ∀ id ∈ begun.pending, id ∉ next.residual.pending → next.finishOf id = next.length) :
    AllOrNothing begun next := by
  have declared : ∀ resource ∈ job.operation.resources,
      resource < step.timeline.nextFree.size := fun resource used =>
    underway.timeline_size ▸ sound.declared places.found resource used
  have earliest := all.earliest underway places.ready
  refine ⟨?origin, fun resource => ?free, finish, fun other member first => ?entries⟩
  case origin =>
    rw [places.timeline, Timeline.origin_occupy, Timeline.origin_pad, all.origin, places.origin]
  case free =>
    rw [places.free sound underway.timeline_size, places.length]
    split
    · exact .inr stop
    · exact all.free resource
  case entries =>
    rw [places.origin] at first
    rw [places.length]
    rcases places.mem_entries.mp member with old | gap | rfl
    · exact all.entries other old first
    · obtain ⟨resource, -, lags, rfl⟩ := Timeline.eq_of_mem_gaps declared gap
      have free := all.free resource
      rw [all.origin] at first
      simp only [Entry.idle] at first ⊢
      lia
    · rw [places.start] at first
      lia

/-- Taking an operation that fits keeps this.

**Proof sketch.** Refusing changes nothing that the property knows of. An operation that is accepted
ends with the step (`AllOrNothing.stop_eq`), so placing it takes its resources there. -/
lemma takes (all : AllOrNothing begun step) (filling : Filling work begun step)
    (sound : work.Sound) (long : ∀ id ∈ begun.frontier, step.length ≤ step.left id)
    (takes : Takes work step next) : AllOrNothing begun next := by
  cases takes with
  | refuse => exact ⟨all.origin, all.free, all.finish, all.entries⟩
  | @accept job found ready plain fits =>
    have stop := all.stop_eq filling long ready fits
    refine all.place filling.toUnderway sound (places_accept found ready) stop
      fun id waiting done => ?_
    have inside : job.id < step.finish.size :=
      filling.finish_size ▸ (Array.getElem?_eq_some_iff.mp found).1
    rw [finishOf_accept inside]
    split
    · exact stop
    · rename_i distinct
      exact all.finish id waiting fun left => done
        ((filling.ongoing.mem_pending_complete ready).mpr ⟨distinct, left⟩)

/-- Cutting a delay keeps this. -/
lemma cuts (all : AllOrNothing begun step) (underway : Underway work begun step)
    (sound : work.Sound) (cuts : Cuts work step next) : AllOrNothing begun next := by
  cases cuts with
  | cut found delay ready room long =>
    exact all.place underway sound (places_cut found delay ready) (Nat.add_sub_of_le room.le)
      all.finish

/-- Idle time that fills the rest of the step changes nothing about this. -/
lemma padded (all : AllOrNothing begun step) :
    ∀ entry ∈ step.padded.entries, entry.start = step.origin → entry.duration = step.length := by
  intro entry member first
  rcases List.mem_append.mp member with placed | gap
  · exact all.entries entry placed first
  · obtain ⟨resource, -, lags, rfl⟩ :=
      Timeline.eq_of_mem_gaps (fun _ among => List.mem_range.mp among) gap
    have free := all.free resource
    rw [all.origin] at first
    simp only [Entry.idle] at first ⊢
    lia

/-- A step has this property if none of the operations that are ready when it begins is shorter
than it.

**Proof sketch.** All moves keep the property: filling by `takes`, since nothing that was ready is
shorter than the step, and cutting by `cuts`, since a part that is cut ends with the step. -/
theorem made (sound : work.Sound) (ongoing : begun.Ongoing)
    (same : begun.precedence = work.precedence) (size : remaining.size = work.jobs.size)
    (origin : Tick) (long : ∀ id ∈ begun.frontier, length ≤ remaining[id]?.getD 0) :
    AllOrNothing begun (Step.made work begun remaining origin length) := by
  have filling := Filling.start ongoing same size origin length
  have filled : ∀ {last : Step}, ReflTransGen (Takes work)
      (Step.start work begun remaining origin length) last → AllOrNothing begun last := by
    intro last moves
    induction moves with
    | refl => exact .start work begun remaining origin length
    | tail before takes ih =>
      obtain ⟨-, length_eq, remaining_eq⟩ := keeps_of_takes before
      refine ih.takes (filling.of_takes sound before) sound (fun id ready => ?_) takes
      rw [left, length_eq, remaining_eq]
      exact long id ready
  have moves := reflTransGen_fill sound filling.ongoing.toConsistent
  have cut : ∀ {last : Step}, ReflTransGen (Cuts work)
      ((Step.start work begun remaining origin length).fill work) last →
      Underway work begun last ∧ AllOrNothing begun last := by
    intro last cutting
    induction cutting with
    | refl => exact ⟨(filling.of_takes sound moves).toUnderway, filled moves⟩
    | tail _ cuts ih => exact ⟨ih.1.cuts sound cuts, ih.2.cuts ih.1 sound cuts⟩
  exact (cut (reflTransGen_cutDelays sound _)).2

end AllOrNothing

/-- An operation that leads when a step was filled does so in the end.

**Proof sketch.** Cutting delays and padding only add entries behind those that there are. -/
lemma leads_padded
    (leads : Leads id ((start work begun remaining origin length).fill work).entries) :
    Leads id (made work begun remaining origin length).padded.entries := by
  have cut : ∀ (ids : List OpId) {step : Step}, Leads id step.entries →
      Leads id (ids.foldl (cutDelay work) step).entries := by
    intro ids step leads
    refine List.foldlRecOn (motive := fun step : Step => Leads id step.entries) ids _ leads ?_
    intro step leads other _
    unfold cutDelay
    split
    · dsimp only
      split
      · exact leads
      · rw [List.append_assoc]
        exact leads.append _
    · exact leads
  exact (cut _ leads).append _

end Step

/-! ## Groups -/

/-- An entry leads a group: those in front of it use none of its resources. -/
def Group.LedBy (group : Group) (entry : Entry) : Prop :=
  ∃ front back, group.entries = front ++ entry :: back ∧
    ∀ before ∈ front, ∀ resource ∈ entry.resources, resource ∉ before.resources

/-- A group shows what bounds its length. Either one of its entries, which is no delay, is as long
as the group, and those in front of it use none of its resources; or every entry that starts with
the group takes all of it. -/
def Group.Steady (group : Group) : Prop :=
  (∃ front entry back, group.entries = front ++ entry :: back ∧ entry.operation.isDelay = false ∧
    entry.duration = group.length ∧
      ∀ before ∈ front, ∀ resource ∈ entry.resources, resource ∉ before.resources) ∨
  ∀ entry ∈ group.entries, entry.start + group.length = group.boundary.start →
    entry.duration = group.length

/-- The dominant operation that a step is made for leads its group and is as long as it.

**Proof sketch.** The dominant operation is completed by the step (`Step.dominant_fill`), so its
entry leads all others on its resources (`Step.leads_padded`), and it takes all that was left of the
operation, which is the length of the step. -/
theorem Workload.Dominant.exists_ledBy (dominant : work.Dominant begun.frontier remaining id length)
    (sound : work.Sound) (wellFormed : work.WellFormed) (ongoing : begun.Ongoing)
    (same : begun.precedence = work.precedence) (size : remaining.size = work.jobs.size)
    (found : work.jobs[id]? = some job) (plain : job.operation.isTimestep = false)
    (origin : Tick) (boundary : Entry) :
    ∃ entry, Group.LedBy ⟨(Step.made work begun remaining origin length).padded.entries, boundary⟩
        entry ∧ entry.operation.isDelay = work.isDelay id ∧ entry.duration = length := by
  have done := (Step.dominant_fill sound ongoing same size origin found plain dominant.among).1
  rw [← dominant.length_eq] at done
  obtain ⟨front, entry, back, entries, made_from, apart⟩ := Step.leads_padded
    (Step.leads_fill sound wellFormed ongoing same size dominant.among done)
  refine ⟨entry, ⟨front, back, entries, apart⟩, ?_⟩
  have part : entry ∈ partsOf id (Step.made work begun remaining origin length).entries := by
    rw [← Step.partsOf_padded, entries]
    exact mem_partsOf.mpr ⟨List.mem_append_right _ List.mem_cons_self, made_from⟩
  have recorded := Step.recorded_made sound ongoing same size origin length
  cases recorded.handles id with
  | untouched none => simp [none] at part
  | taken found' _ _ _ _ _ single =>
    cases found.symm.trans found'
    rw [single, ← dominant.length_eq] at part
    obtain rfl := List.mem_singleton.mp part
    refine ⟨?_, rfl⟩
    rw [Operation.isDelay_rest, Workload.isDelay, found, Option.any_some]
  | cut _ _ _ ready =>
    rw [Step.made, Step.residual_of_cuts (Step.reflTransGen_cutDelays sound _)] at ready
    exact absurd (Residual.mem_pending_of_mem_frontier ready) done

/-- The group of a step that is made for a dominant operation is not empty, and it is steady if the
shortest delay decides.

**Proof sketch.** The entry of the dominant operation leads the group and is as long as it
(`Dominant.exists_ledBy`). If it is no delay, it is the longest. If it is the shortest of delays,
everything that is ready is at least as long as the step, so all resources are taken for the whole
step or not at all. -/
lemma Workload.Dominant.steady (dominant : work.Dominant begun.frontier remaining id length)
    (sound : work.Sound) (wellFormed : work.WellFormed) (ongoing : begun.Ongoing)
    (same : begun.precedence = work.precedence) (size : remaining.size = work.jobs.size)
    (found : work.jobs[id]? = some job) (plain : job.operation.isTimestep = false)
    (rule : work.rule = .shortest) (origin : Tick) (source : Option OpId) :
    let group : Group := ⟨(Step.made work begun remaining origin length).padded.entries,
      .boundary length work.resources (origin + length) source⟩
    group.entries ≠ [] ∧ group.Steady := by
  intro group
  obtain ⟨entry, ⟨front, back, entries, apart⟩, same_kind, duration⟩ := dominant.exists_ledBy sound
    wellFormed ongoing same size found plain origin group.boundary
  refine ⟨entries ▸ List.append_ne_nil_of_right_ne_nil front (List.cons_ne_nil entry back), ?_⟩
  cases kind : work.isDelay id with
  | false => exact .inl ⟨front, entry, back, entries, same_kind.trans kind, duration, apart⟩
  | true =>
    have long : ∀ other ∈ begun.frontier, length ≤ remaining[other]?.getD 0 := by
      have all := dominant.delay kind
      rwa [rule] at all
    have recorded := Step.recorded_made sound ongoing same size origin length
    have all := (Step.AllOrNothing.made sound ongoing same size origin long).padded
    rw [recorded.origin_eq, recorded.length_eq] at all
    exact .inr fun other member first => all other member (Nat.add_right_cancel first)

namespace Grouping

variable {grouping last : Grouping}

/-- While no timestep is ready, no rounds of completing them change anything. -/
lemma drainRounds_of_plain {residual : Residual}
    (plain : ∀ id ∈ residual.frontier, work.isTimestep id = false) (times : Nat) :
    residual.drainRounds work times = ([], residual) := by
  have none : residual.frontier.filter work.isTimestep = [] :=
    List.filter_eq_nil_iff.mpr fun id ready timestep => by
      rw [plain id ready] at timestep
      cases timestep
  cases times with
  | zero => rfl
  | succ times => rw [Residual.drainRounds, none]

/-- Without timesteps a step is made for a dominant operation, and leaves everything in order. -/
lemma InOrder.makes_of_plain (inOrder : InOrder work grouping) (sound : work.Sound)
    (plain : ∀ id, work.isTimestep id = false) (left : grouping.residual.isDone = false)
    {next : Grouping} (advanced : grouping.advance work = (next, none)) : ∃ id length,
      work.Dominant grouping.residual.frontier grouping.remaining id length ∧
      Makes work grouping [] grouping.residual length next ∧ InOrder work next := by
  have drain : grouping.residual.drain work = ([], grouping.residual) :=
    drainRounds_of_plain (fun id _ => plain id) _
  have some_left : grouping.residual.pending ≠ [] := fun none => by
    rw [Residual.isDone, none] at left
    cases left
  obtain ⟨id, length, _, dominant, advanced', makes⟩ :=
    inOrder.advance_of_left sound drain some_left
  cases advanced.symm.trans advanced'
  obtain ⟨_, advanced', advances⟩ := inOrder.exists_advance sound
  cases advanced.symm.trans advanced'
  exact ⟨id, length, dominant, makes, inOrder.of_advances advances⟩

/-- No timesteps leave no loose ones. -/
lemma loose_nil (work : Workload) : work.loose [] = [] := by
  unfold Workload.loose
  split <;> rfl

/-- No timestep opens a step if none is ready. -/
lemma opening?_nil (work : Workload) : work.opening? [] = none := by
  unfold Workload.opening?
  split <;> rfl

/-- Without timesteps nothing bounds a step but its length. -/
lemma boundary?_of_plain (plain : ∀ id, work.isTimestep id = false) (residual : Residual) :
    work.boundary? (work.opening? []) residual = none := by
  unfold Workload.boundary? Workload.opening?
  split
  · rfl
  · exact List.find?_eq_none.mpr fun id _ => by simp [plain id]

/-- If there are no timesteps and the shortest delay decides, the groups of a run are steady and
none of them is empty.

**Proof sketch.** Induction on the run. Each step is made for a dominant operation. If that is no
delay, it leads its group; if it is one, it is the shortest of all that are ready, and then all or
nothing of the step is taken on every resource (`Workload.Dominant.steady`). -/
theorem Runs.steady (runs : Runs work grouping last) (inOrder : InOrder work grouping)
    (sound : work.Sound) (wellFormed : work.WellFormed) (rule : work.rule = .shortest)
    (plain : ∀ id, work.isTimestep id = false)
    (before : ∀ group ∈ grouping.groups, group.entries ≠ [] ∧ group.Steady) :
    ∀ group ∈ last.groups, group.entries ≠ [] ∧ group.Steady := by
  induction runs with
  | done => exact before
  | @step grouping next last left advanced rest ih =>
    obtain ⟨id, length, dominant, makes, inOrder'⟩ :=
      inOrder.makes_of_plain sound plain left advanced
    refine ih inOrder' ?_
    obtain ⟨job, found, number⟩ := sound.exists_job inOrder.ongoing inOrder.precedence
      (Residual.mem_pending_of_mem_frontier dominant.among)
    have no_timestep : job.operation.isTimestep = false := by
      simpa [Workload.isTimestep, found] using plain id
    have steady := dominant.steady sound wellFormed inOrder.ongoing inOrder.precedence inOrder.size
      found no_timestep rule grouping.elapsed
    intro group member
    rw [makes.groups, loose_nil, List.map_nil, List.append_nil] at member
    rcases List.mem_append.mp member with old | new
    · exact before group old
    · rw [List.mem_singleton.mp new]
      exact steady _

end Grouping

end Timetable
