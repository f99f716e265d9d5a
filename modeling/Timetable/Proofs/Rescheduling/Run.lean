import Timetable.Proofs.Rescheduling.Governed

/-!
# A run of a plan is repeated

The groups of a lock-step run, laid out with their boundaries, are a plan. What is ready in a run
that works on this plan leads the next group of it; so if the groups are governed, the dominant
operation makes each step as long as it was, the step is repeated, and the boundary of the plan
bounds it, whether it closes the step or opens it.

## Main definitions

* `Group.laid` — the entries of a group with its boundary where it bounds the step.
* `Group.BoundedLike` — a group has the boundary of another one.
* `Workload.Lists.Left` — what is left of a plan.
* `Workload.Lists.Remakes` — a step makes a group of the plan again.

## Main results

* `Workload.Lists.length_eq_iff` — a step is as long as it was if its group is governed.
* `Workload.Lists.exists_remakes` — a step is made again.
* `Workload.Lists.run` — so are all of them.
-/

set_option autoImplicit false

namespace Timetable

open Relation

/-- The entries of a group with its boundary, which stands behind them or in front of them. -/
def Group.laid (side : CarriedSide) (group : Group) : List Entry :=
  match side with
  | .closing => group.toList
  | .opening => (group.stamped .opening).opened

/-- Apart from what it was made from, a group has the boundary of another one. -/
structure Group.BoundedLike (group again : Group) : Prop where
  operation : again.boundary.operation = group.boundary.operation
  start : again.boundary.start = group.boundary.start
  duration : again.boundary.duration = group.boundary.duration

variable {numResources : Nat} {first middle : Tick} {group : Group} {groups : List Group}
  {work : Workload} {plan : List Entry} {residual : Residual} {remaining : Array Tick}
  {last : Resource → Tick} {id : OpId} {ids body back : List OpId}

/-! ## Groups laid out -/

/-- The boundary of a group stands where the group ends. -/
lemma Group.Spans.boundary_eq (spans : group.Spans numResources first middle) :
    ∃ source, group.boundary =
      .boundary group.length (List.range numResources) (first + group.length) source := by
  have stop := spans.length_eq
  obtain ⟨source, boundary⟩ := spans.boundary
  have length : middle - first = group.length := by lia
  exact ⟨source, by rw [stop, ← length, boundary]⟩

/-- A boundary on all resources takes none of them further. -/
lemma tiles_boundary {entries : List Entry} {stop : Tick} (length : Tick) (source : Option OpId)
    (tiles : Tiles numResources (fun _ => stop) entries last) : Tiles numResources (fun _ => stop)
      (.boundary length (List.range numResources) stop source :: entries) last := by
  refine ⟨fun resource used => ⟨List.mem_range.mp used, rfl⟩, tiles.congr ?_ fun _ _ => rfl⟩
  intro resource _
  simp [Entry.advance, Entry.boundary]

/-- Where the boundary of a group bounds the step, its entry is on all resources and takes no
time. -/
lemma Group.Spans.laid (spans : group.Spans numResources first middle) (side : CarriedSide) :
    Tiles numResources (fun _ => first) (group.laid side) fun _ => middle := by
  cases side with
  | closing => exact spans.toList
  | opening =>
    obtain ⟨source, boundary⟩ := spans.boundary_eq
    have start : first + group.length - group.length = first := Nat.add_sub_cancel _ _
    have opened : group.laid .opening = .boundary group.length (List.range numResources) first
        source :: group.entries := by
      simp only [Group.laid, Group.stamped, Group.opened, boundary, Entry.boundary, start]
    rw [opened]
    exact tiles_boundary _ _ spans.tiles

/-- Groups that follow each other tile their time when they are laid out. -/
lemma LockStepped.tiles_laid {stop : Tick} (stepped : LockStepped numResources first groups stop)
    (side : CarriedSide) :
    Tiles numResources (fun _ => first) (groups.flatMap (Group.laid side)) fun _ => stop :=
  tiles_flatMap (fun spans => spans.laid side) stepped

/-! ## How long a step is -/

/-- An element of a sorted list that is less than another one stands in front of it. -/
lemma mem_of_lt_of_sorted {front : List Nat} {number other : Nat} {back : List Nat}
    (sorted : (front ++ number :: back).Pairwise (· < ·)) (among : other ∈ front ++ number :: back)
    (smaller : other < number) : other ∈ front := by
  refine (List.mem_append.mp among).resolve_right fun behind => ?_
  rcases List.mem_cons.mp behind with rfl | behind
  · exact Nat.lt_irrefl _ smaller
  · have order := (List.pairwise_cons.mp (List.pairwise_append.mp sorted).2.1).1 other behind
    exact Nat.lt_asymm smaller order

namespace Workload.Lists

/-- While a step of the plan is pending, what is ready belongs to it and is no timestep.

**Proof sketch.** The timestep behind the step covers all resources and waits for whatever is left
of the step, and what comes behind the timestep waits for it. So what is ready is in the step, and a
span has no timesteps among its entries. -/
lemma plain_of_ready (lists : work.Lists plan) (ongoing : residual.Ongoing)
    (same : residual.precedence = work.precedence) (sorted : residual.pending.Pairwise (· < ·))
    (split : residual.pending = body ++ back) (entries : planned plan body = group.entries)
    (some_entry : group.entries ≠ []) (spans : group.Spans work.numResources first middle)
    (sealed : ∀ marker, back.head? = some marker → Seals work.numResources plan marker)
    (ready : id ∈ residual.frontier) : id ∈ body ∧ work.isTimestep id = false := by
  have left : body ≠ [] := by
    rintro rfl
    exact some_entry entries.symm
  have waits := Residual.mem_pending_of_mem_frontier ready
  have in_body : id ∈ body := by
    refine (List.mem_append.mp (split ▸ waits)).resolve_right fun in_back => ?_
    cases back with
    | nil => cases in_back
    | cons marker later =>
      -- the timestep waits for the rest of its step, and what comes behind it waits for it
      have sealed := sealed marker rfl
      have marker_pending : marker ∈ residual.pending := by
        rw [split]
        exact List.mem_append_right _ List.mem_cons_self
      have le := lists.le_of_ready ongoing same sealed marker_pending ready
      rw [split] at sorted
      have tail := (List.pairwise_append.mp sorted).2.1
      obtain rfl : id = marker := (List.mem_cons.mp in_back).resolve_right fun behind =>
        Nat.not_lt_of_le le ((List.pairwise_cons.mp tail).1 id behind)
      obtain ⟨earliest, member⟩ := List.exists_mem_of_ne_nil _ left
      have waiting : earliest ∈ residual.pending := split ▸ List.mem_append_left _ member
      obtain ⟨entry, found, -, covers⟩ := sealed
      obtain ⟨other, resource, found', used, declared⟩ :=
        lists.exists_used ongoing same waiting
      exact lists.apart ongoing same ready found
        ((List.pairwise_append.mp sorted).2.2 earliest member id List.mem_cons_self) waiting
        found' resource (covers resource declared) used
  obtain ⟨entry, resource, found, -, -⟩ := lists.exists_used ongoing same waits
  refine ⟨in_body, ?_⟩
  rw [Workload.isTimestep, lists.job_eq found, Option.any_some]
  exact (spans.plain entry (entries ▸ mem_planned.mpr ⟨id, in_body, found⟩)).1

/-- While a step of the plan is pending, the entries that lead its group are those of the ready
operations.

**Proof sketch.** An operation waits for earlier ones on a resource of its own only; so it waits for
nothing exactly if nothing in front of its entry shares a resource with it. -/
lemma ledBy_iff (lists : work.Lists plan) (ongoing : residual.Ongoing)
    (same : residual.precedence = work.precedence) (sorted : residual.pending.Pairwise (· < ·))
    (split : residual.pending = body ++ back) (entries : planned plan body = group.entries)
    (in_body : ∀ id ∈ residual.frontier, id ∈ body) {entry : Entry} :
    group.LedBy entry ↔ ∃ id ∈ residual.frontier, plan[id]? = some entry := by
  constructor
  · rintro ⟨front, rest, steps, apart⟩
    rw [← entries, planned, List.filterMap_eq_append_iff] at steps
    obtain ⟨ids, more, rfl, rfl, steps⟩ := steps
    obtain ⟨skipped, other, others, rfl, unplanned, found, rfl⟩ :=
      List.filterMap_eq_cons_iff.mp steps
    have split' : residual.pending = (ids ++ skipped) ++ other :: (others ++ back) := by
      rw [split]
      simp
    refine ⟨other, ongoing.mem_frontier_iff.mpr ⟨split' ▸ by simp, fun before edge pending => ?_⟩,
      found⟩
    rw [same] at edge
    obtain ⟨smaller, earlier, later, known, known', shared, used, used'⟩ := lists.shares edge
    cases found.symm.trans known'
    rw [split'] at pending sorted
    rcases List.mem_append.mp (mem_of_lt_of_sorted sorted pending smaller) with among | none
    · exact apart earlier (mem_planned.mpr ⟨before, among, known⟩) shared used' used
    · rw [unplanned before none] at known
      cases known
  · rintro ⟨id, ready, found⟩
    obtain ⟨front, rest, rfl⟩ := List.append_of_mem (in_body id ready)
    refine ⟨planned plan front, planned plan rest, ?_, fun before member => ?_⟩
    · rw [← entries, planned_append, planned_cons found]
    · obtain ⟨other, among, known⟩ := mem_planned.mp member
      rw [split, List.append_assoc] at sorted
      have smaller : other < id := (List.pairwise_append.mp sorted).2.2 other among id
        (List.mem_append_left _ List.mem_cons_self)
      have pending : other ∈ residual.pending := by
        rw [split, List.append_assoc]
        exact List.mem_append_left _ among
      exact lists.apart ongoing same ready found smaller pending known

/-- While a step of the plan is pending, the dominant operation is the one that decides among the
entries that lead its group.

**Proof sketch.** What is ready are the entries that lead the group (`ledBy_iff`), and as much of
each is left as its entry lasts. The conditions on a dominant operation are then those on the entry
that decides. -/
lemma exists_decidedBy (lists : work.Lists plan) (ongoing : residual.Ongoing)
    (same : residual.precedence = work.precedence) (sorted : residual.pending.Pairwise (· < ·))
    (split : residual.pending = body ++ back) (entries : planned plan body = group.entries)
    (left : ∀ (id : OpId) (entry : Entry), plan[id]? = some entry →
      remaining[id]?.getD 0 = entry.duration)
    (in_body : ∀ id ∈ residual.frontier, id ∈ body) {length : Tick}
    (dominant : work.Dominant residual.frontier remaining id length) :
    ∃ entry, group.DecidedBy work.rule entry ∧ entry.duration = length := by
  have leads_iff {entry : Entry} :=
    @ledBy_iff _ _ _ _ _ _ lists ongoing same sorted split entries in_body entry
  have isDelay_eq {id : OpId} {entry : Entry} (found : plan[id]? = some entry) :
      work.isDelay id = entry.operation.isDelay := by
    rw [Workload.isDelay, lists.job_eq found, Option.any_some]
    rfl
  obtain ⟨entry, -, found, -⟩ :=
    lists.exists_used ongoing same (Residual.mem_pending_of_mem_frontier dominant.among)
  obtain rfl : length = entry.duration := dominant.length_eq.trans (left id entry found)
  refine ⟨entry, ⟨leads_iff.mpr ⟨id, dominant.among, found⟩, fun other leads no_delay => ?operation,
    fun delay other leads => ?delay⟩, rfl⟩
  case operation =>
    obtain ⟨id', ready, found'⟩ := leads_iff.mp leads
    rw [← left id' other found', ← isDelay_eq found]
    exact dominant.operation id' ready ((isDelay_eq found').trans no_delay)
  case delay =>
    obtain ⟨id', ready, found'⟩ := leads_iff.mp leads
    rw [← left id' other found']
    exact dominant.delay ((isDelay_eq found).trans delay) id' ready

/-- A step is as long as it was exactly if its group is governed.

**Proof sketch.** A step is as long as what is left of the dominant operation. This operation
decides among the entries that lead the group (`exists_decidedBy`), and when it is as long as the
group was found in `DecidedBy.duration_eq_iff`. -/
theorem length_eq_iff (lists : work.Lists plan) (ongoing : residual.Ongoing)
    (same : residual.precedence = work.precedence) (sorted : residual.pending.Pairwise (· < ·))
    (split : residual.pending = body ++ back) (entries : planned plan body = group.entries)
    (some_entry : group.entries ≠ []) (spans : group.Spans work.numResources first middle)
    (sealed : ∀ marker, back.head? = some marker → Seals work.numResources plan marker)
    (left : ∀ (id : OpId) (entry : Entry), plan[id]? = some entry →
      remaining[id]?.getD 0 = entry.duration) {length : Tick}
    (dominant : work.Dominant residual.frontier remaining id length) :
    length = group.length ↔ group.GovernedBy work.rule := by
  have in_body : ∀ id ∈ residual.frontier, id ∈ body := fun id ready =>
    (lists.plain_of_ready ongoing same sorted split entries some_entry spans sealed ready).1
  obtain ⟨entry, decided, rfl⟩ :=
    lists.exists_decidedBy ongoing same sorted split entries left in_body dominant
  exact decided.duration_eq_iff spans

/-! ## One step -/

variable {grouping : Grouping} {markers : List OpId}

/-- If the operations of a step of the plan are the first that are pending when the ready timesteps
are completed, this step is made again, as long as it was and of the same entries.

**Proof sketch.** Something is left when the ready timesteps are completed, so a step is made for a
dominant operation, and it is as long as it was (`length_eq_iff`). Of a step of that length
`Lists.made` says which entries it makes and what it leaves. -/
lemma exists_step (lists : work.Lists plan) (inOrder : Grouping.InOrder work grouping)
    (left : ∀ (id : OpId) (entry : Entry), plan[id]? = some entry →
      grouping.remaining[id]?.getD 0 = entry.duration)
    (drain : grouping.residual.drain work = (markers, residual))
    (sorted : residual.pending.Pairwise (· < ·)) (split : residual.pending = body ++ back)
    (entries : planned plan body = group.entries) (some_entry : group.entries ≠ [])
    (governed : group.GovernedBy work.rule)
    (spans : group.Spans work.numResources grouping.elapsed middle)
    (behind : Tiles work.numResources (fun _ => middle) (planned plan back) last)
    (sealed : ∀ marker, back.head? = some marker → Seals work.numResources plan marker) :
    ∃ (next : Grouping) (step : Step), grouping.advance work = (next, none) ∧
      Grouping.InOrder work next ∧ step.residual.Ongoing ∧
      step.residual.precedence = work.precedence ∧ step.residual.pending = back ∧
      step.padded.entries.Perm (planned (numbered plan) body) ∧
      next.residual = (work.boundary? (work.opening? markers) step.residual).toList.foldl
        Residual.complete step.residual ∧
      next.remaining = grouping.remaining ∧ next.elapsed = middle ∧
      next.groups = grouping.groups ++
        (work.loose markers).map (Grouping.emptyGroup work grouping.elapsed) ++
          [⟨step.padded.entries, { group.boundary with
            source := work.boundary? (work.opening? markers) step.residual }⟩] := by
  have drained := (Residual.drains_drain inOrder.ongoing.toConsistent work).drained
    inOrder.ongoing.toConsistent
  rw [drain] at drained
  obtain ⟨ongoing, same⟩ := inOrder.of_drained drained
  have still : residual.pending ≠ [] := by
    intro none
    rw [split, List.append_eq_nil_iff] at none
    exact some_entry (entries.symm.trans (congrArg (planned plan) none.1))
  have plain : ∀ entry ∈ planned plan body, entry.operation.isTimestep = false := by
    rw [entries]
    exact fun entry member => (spans.plain entry member).1
  obtain ⟨id, length, next, dominant, advanced, makes⟩ :=
    inOrder.advance_of_left lists.sound drain still
  obtain ⟨_, advanced', advances⟩ := inOrder.exists_advance lists.sound
  cases advanced.symm.trans advanced'
  obtain rfl := (lists.length_eq_iff ongoing same sorted split entries some_entry spans sealed left
    dominant).mpr governed
  have ends := spans.length_eq
  have tiles : Tiles work.numResources (fun _ => grouping.elapsed) (planned plan body)
      fun _ => grouping.elapsed + group.length := by
    rw [entries, ends]
    exact spans.tiles
  rw [← ends] at behind
  obtain ⟨pending, remaining, made⟩ := lists.made ongoing same inOrder.size left sorted split plain
    tiles behind sealed
  have recorded := inOrder.recorded lists.sound drained group.length
  obtain ⟨source, boundary⟩ := spans.boundary_eq
  refine ⟨next, _, advanced, inOrder.of_advances advances, recorded.ongoing, recorded.precedence,
    pending, made, makes.residual, makes.remaining.trans remaining, makes.elapsed.trans ends, ?_⟩
  rw [makes.groups, boundary]
  rfl

/-- If all operations are in the plan, the first of them is the first entry. -/
lemma planned_eq_cons {entry : Entry} {entries : List Entry}
    (known : ∀ id ∈ ids, ∃ entry, plan[id]? = some entry)
    (same : planned plan ids = entry :: entries) :
    ∃ id later, ids = id :: later ∧ plan[id]? = some entry ∧ planned plan later = entries := by
  cases ids with
  | nil => cases same
  | cons id later =>
    obtain ⟨first, found⟩ := known id List.mem_cons_self
    rw [planned_cons found, List.cons.injEq] at same
    obtain ⟨rfl, same⟩ := same
    exact ⟨id, later, rfl, found, same⟩

/-- The boundary of a group seals its place. -/
lemma seals_of_spans {marker : OpId} {stop : Tick} (spans : group.Spans numResources first middle)
    (found : plan[marker]? = some { group.boundary with start := stop }) :
    Seals numResources plan marker := by
  obtain ⟨source, boundary⟩ := spans.boundary_eq
  refine ⟨_, found, ?_, fun resource declared => ?_⟩
  · rw [boundary]
    rfl
  · rw [boundary]
    exact List.mem_range.mpr declared

/-- If boundaries open their groups, the first place of groups that are laid out is sealed.

**Proof sketch.** The first entry of groups that are laid out is the boundary that opens the first
group, and a boundary is a timestep on all resources. -/
lemma seals_of_laid {stop : Tick} (known : ∀ id ∈ ids, ∃ entry, plan[id]? = some entry)
    (laid : planned plan ids = groups.flatMap (Group.laid .opening))
    (stepped : LockStepped numResources first groups stop) :
    ∀ marker, ids.head? = some marker → Seals numResources plan marker := by
  intro marker at_front
  cases groups with
  | nil =>
    cases ids with
    | nil => cases at_front
    | cons id ids =>
      obtain ⟨entry, found⟩ := known id List.mem_cons_self
      rw [planned_cons found] at laid
      cases laid
  | cons group groups =>
    obtain ⟨_, spans, -⟩ := stepped
    obtain ⟨id, later, rfl, found, -⟩ := planned_eq_cons known laid
    cases at_front
    exact seals_of_spans spans found

/-- A timestep stands at a sealed place. -/
lemma isTimestep_of_seals (lists : work.Lists plan) {marker : OpId}
    (seals : Seals work.numResources plan marker) : work.isTimestep marker = true := by
  obtain ⟨entry, found, timestep, -⟩ := seals
  rw [Workload.isTimestep, lists.job_eq found, Option.any_some]
  exact timestep

/-- If a timestep is all that is ready, and none is ready when it is completed, then it is the only
one that is completed when a step begins. -/
lemma drain_eq_singleton {marker : OpId} (frontier : residual.frontier = [marker])
    (marks : work.isTimestep marker = true)
    (plain : ∀ id ∈ (residual.complete marker).frontier, work.isTimestep id = false) :
    residual.drain work = ([marker], residual.complete marker) := by
  have ready : residual.frontier.filter work.isTimestep = [marker] := by
    rw [frontier, List.filter_cons_of_pos marks, List.filter_nil]
  have waits : marker ∈ residual.pending :=
    Residual.mem_pending_of_mem_frontier (frontier ▸ List.mem_singleton_self marker)
  obtain ⟨rounds, length⟩ := Nat.exists_eq_add_one.mpr (List.length_pos_of_mem waits)
  rw [Residual.drain, length, Residual.drainRounds, ready]
  simp only [List.foldl_cons, List.foldl_nil, Grouping.drainRounds_of_plain plain, List.append_nil]

/-- What is left of the plan when a step has been made. -/
structure Left (work : Workload) (plan : List Entry) (grouping : Grouping) (entries : List Entry) :
    Prop extends Grouping.InOrder work grouping where
  sorted : grouping.residual.pending.Pairwise (· < ·)
  left : ∀ (id : OpId) (entry : Entry), plan[id]? = some entry →
    grouping.remaining[id]?.getD 0 = entry.duration
  pending : planned plan grouping.residual.pending = entries

/-- Everything that is left is in the plan. -/
lemma Left.known {entries : List Entry} (state : Left work plan grouping entries)
    (lists : work.Lists plan) :
    ∀ id ∈ grouping.residual.pending, ∃ entry, plan[id]? = some entry := by
  intro id waits
  obtain ⟨entry, -, found, -⟩ := lists.exists_used state.ongoing state.precedence waits
  exact ⟨entry, found⟩

/-- A step makes the group `again` for the group `group` of the plan, with the same boundary and of
the operations that were completed. It leaves the further groups of the plan, up to tick `stop`. -/
structure Remakes (work : Workload) (plan : List Entry) (grouping : Grouping) (group : Group)
    (groups : List Group) (stop : Tick) (next : Grouping) (again : Group) : Prop where
  advanced : grouping.advance work = (next, none)
  left : Left work plan next (groups.flatMap (Group.laid work.side))
  stepped : LockStepped work.numResources next.elapsed groups stop
  groups_eq : next.groups = grouping.groups ++ [again]
  boundedLike : group.BoundedLike again
  perm : ∃ ids, grouping.residual.pending = ids ++ next.residual.pending ∧
    (again.stamped work.side).toList.Perm (planned (numbered plan) ids)

variable {stop : Tick}

/-- If boundaries close their steps, the operations of a step are the first that are left, and the
boundary that closes it is the next. No timestep is ready.

**Proof sketch.** What is left of the plan begins with the entries of the group and its boundary, so
the pending operations are divided in the same way. No timestep is ready in front of the boundary
(`plain_of_ready`), so nothing is drained. -/
lemma Left.exists_split (lists : work.Lists plan) (side : work.side = .closing)
    (state : Left work plan grouping ((group :: groups).flatMap (Group.laid work.side)))
    (spans : group.Spans work.numResources first middle) (some_entry : group.entries ≠ []) :
    ∃ body marker back, grouping.residual.pending = body ++ marker :: back ∧
      planned plan body = group.entries ∧ plan[marker]? = some group.boundary ∧
      planned plan back = groups.flatMap (Group.laid work.side) ∧
      Seals work.numResources plan marker ∧
      grouping.residual.drain work = ([], grouping.residual) := by
  have laid : planned plan grouping.residual.pending =
      group.entries ++ group.boundary :: groups.flatMap (Group.laid work.side) := by
    rw [state.pending, List.flatMap_cons, side]
    simp [Group.laid, Group.toList]
  rw [planned, List.filterMap_eq_append_iff] at laid
  obtain ⟨body, others, split, entries, laid⟩ := laid
  obtain ⟨marker, back, rfl, found, later⟩ := planned_eq_cons
    (fun id member => state.known lists id (split ▸ List.mem_append_right _ member)) laid
  have seals := seals_of_spans spans found
  have sealed : ∀ place, (marker :: back).head? = some place →
      Seals work.numResources plan place := fun place same => Option.some.inj same ▸ seals
  exact ⟨body, marker, back, split, entries, found, later, seals,
    Grouping.drainRounds_of_plain (fun id ready => (lists.plain_of_ready state.ongoing
      state.precedence state.sorted split entries some_entry spans sealed ready).2) _⟩

/-- If boundaries close their steps, a step is made again and the boundary closes it.

**Proof sketch.** Nothing is drained, since the first timestep waits for its step. The step makes
its entries (`exists_step`), and then the timestep behind it is the only operation that is ready, so
it closes the step. -/
lemma exists_remakes_closing (lists : work.Lists plan) (side : work.side = .closing)
    (state : Left work plan grouping ((group :: groups).flatMap (Group.laid work.side)))
    (stepped : LockStepped work.numResources grouping.elapsed (group :: groups) stop)
    (some_entry : group.entries ≠ []) (governed : group.GovernedBy work.rule) :
    ∃ next again, Remakes work plan grouping group groups stop next again := by
  obtain ⟨middle, spans, rest⟩ := stepped
  obtain ⟨body, marker, back, split, entries, found, later, seals, drain⟩ :=
    state.exists_split lists side spans some_entry
  obtain ⟨inOrder, sorted, left, -⟩ := state
  have sealed : ∀ place, (marker :: back).head? = some place →
      Seals work.numResources plan place := fun place same => Option.some.inj same ▸ seals
  have behind : Tiles work.numResources (fun _ => middle) (planned plan (marker :: back))
      fun _ => stop := by
    obtain ⟨source, boundary⟩ := spans.boundary_eq
    have laid : planned plan (marker :: back) = group.boundary :: planned plan back :=
      planned_cons found back
    rw [laid, later, boundary, spans.length_eq]
    exact tiles_boundary _ _ (rest.tiles_laid work.side)
  obtain ⟨next, step, advanced, inOrder', ongoing, same, pending', made, residual, remaining,
    elapsed, written⟩ := lists.exists_step inOrder left drain sorted split entries some_entry
      governed spans behind sealed
  have tail_sorted : step.residual.pending.Pairwise (· < ·) := by
    rw [pending']
    exact (List.pairwise_append.mp (split ▸ sorted)).2.1
  have frontier := lists.frontier_eq ongoing same tail_sorted seals pending'
  have bounds : work.boundary? (work.opening? []) step.residual = some marker := by
    simp only [Workload.boundary?, side, frontier, List.find?_cons, lists.isTimestep_of_seals seals]
  rw [bounds] at residual written
  rw [Grouping.loose_nil, List.map_nil, List.append_nil] at written
  have completed : next.residual.pending = back := by
    rw [residual, Option.toList_some, List.foldl_cons, List.foldl_nil,
      Residual.pending_complete (frontier ▸ List.mem_singleton_self marker), pending',
      List.erase_cons_head]
  refine ⟨next, _, advanced, ⟨inOrder', ?sorted, remaining ▸ left, completed ▸ later⟩,
    elapsed ▸ rest, written, ⟨rfl, rfl, rfl⟩, body ++ [marker], ?split, ?perm⟩
  case sorted =>
    rw [completed]
    exact (List.pairwise_cons.mp (pending' ▸ tail_sorted)).2
  case split =>
    rw [completed, split]
    simp
  case perm =>
    rw [side, planned_append, planned_numbered_cons found]
    exact made.append_right _

/-- If boundaries open their steps, a step is made again and the boundary that opens it closes
it.

**Proof sketch.** The first timestep covers all resources and is the only operation that is ready,
so draining completes it and nothing else. The step that it opened makes its entries
(`exists_step`), and completing the timestep once more does nothing. -/
lemma exists_remakes_opening (lists : work.Lists plan) (side : work.side = .opening)
    (state : Left work plan grouping ((group :: groups).flatMap (Group.laid work.side)))
    (stepped : LockStepped work.numResources grouping.elapsed (group :: groups) stop)
    (some_entry : group.entries ≠ []) (governed : group.GovernedBy work.rule) :
    ∃ next again, Remakes work plan grouping group groups stop next again := by
  have known := state.known lists
  obtain ⟨inOrder, sorted, left, pending⟩ := state
  obtain ⟨middle, spans, rest⟩ := stepped
  have laid : planned plan grouping.residual.pending = (group.stamped .opening).boundary ::
      (group.entries ++ groups.flatMap (Group.laid work.side)) := by
    rw [pending, List.flatMap_cons, side]
    rfl
  obtain ⟨marker, others, split, found, laid⟩ := planned_eq_cons known laid
  rw [planned, List.filterMap_eq_append_iff] at laid
  obtain ⟨body, back, rfl, entries, later⟩ := laid
  have seals := seals_of_spans spans found
  have sealed : ∀ place, back.head? = some place → Seals work.numResources plan place :=
    seals_of_laid (fun id member =>
      known id (split ▸ List.mem_cons_of_mem _ (List.mem_append_right _ member)))
      (side ▸ later) rest
  have frontier := lists.frontier_eq inOrder.ongoing inOrder.precedence sorted seals split
  -- completing the marker releases the operations of its step
  have opened : (grouping.residual.complete marker).pending = body ++ back := by
    rw [Residual.pending_complete (frontier ▸ List.mem_singleton_self marker), split,
      List.erase_cons_head]
  have opened_sorted : (grouping.residual.complete marker).pending.Pairwise (· < ·) := by
    rw [opened]
    exact (List.pairwise_cons.mp (split ▸ sorted)).2
  have drain : grouping.residual.drain work = ([marker], grouping.residual.complete marker) :=
    drain_eq_singleton frontier (lists.isTimestep_of_seals seals) fun id ready =>
      (lists.plain_of_ready (inOrder.ongoing.complete marker)
        ((Residual.precedence_complete _ _).trans inOrder.precedence) opened_sorted opened entries
        some_entry spans sealed ready).2
  have behind : Tiles work.numResources (fun _ => middle) (planned plan back) fun _ => stop := by
    rw [planned, later]
    exact rest.tiles_laid work.side
  obtain ⟨next, step, advanced, inOrder', ongoing, same, pending', made, residual, remaining,
    elapsed, written⟩ := lists.exists_step inOrder left drain opened_sorted opened entries
      some_entry governed spans behind sealed
  have bounds : work.boundary? (work.opening? [marker]) step.residual = some marker := by
    simp only [Workload.boundary?, Workload.opening?, side, List.head?_cons]
  have loose : work.loose [marker] = [] := by
    simp only [Workload.loose, side, List.tail_cons]
  rw [bounds] at residual written
  rw [loose, List.map_nil, List.append_nil] at written
  have apart : marker ∉ back := fun member =>
    Nat.lt_irrefl marker ((List.pairwise_cons.mp (split ▸ sorted)).1 marker
      (List.mem_append_right _ member))
  have completed : next.residual.pending = back := by
    have done : marker ∉ step.residual.frontier := fun ready =>
      apart (pending' ▸ Residual.mem_pending_of_mem_frontier ready)
    rw [residual, Option.toList_some, List.foldl_cons, List.foldl_nil,
      Residual.complete_of_notMem done, pending']
  refine ⟨next, _, advanced, ⟨inOrder', ?sorted, remaining ▸ left, completed ▸ later⟩,
    elapsed ▸ rest, written, ⟨rfl, rfl, rfl⟩, marker :: body, ?split, ?perm⟩
  case sorted =>
    rw [completed]
    exact (List.pairwise_append.mp (opened ▸ opened_sorted)).2.1
  case split =>
    rw [completed, split]
    rfl
  case perm =>
    rw [side, planned_numbered_cons found]
    exact (made.append_right _).trans (List.perm_append_singleton _ _)

/-- A step is made again.

**Proof sketch.** Boundaries either close their steps or open them. -/
theorem exists_remakes (lists : work.Lists plan)
    (state : Left work plan grouping ((group :: groups).flatMap (Group.laid work.side)))
    (stepped : LockStepped work.numResources grouping.elapsed (group :: groups) stop)
    (some_entry : group.entries ≠ []) (governed : group.GovernedBy work.rule) :
    ∃ next again, Remakes work plan grouping group groups stop next again := by
  cases side : work.side with
  | closing => exact lists.exists_remakes_closing side state stepped some_entry governed
  | opening => exact lists.exists_remakes_opening side state stepped some_entry governed

/-! ## All steps -/

/-- The groups of a plan are made again, one after the other.

**Proof sketch.** Induction on the groups. Each step of the run makes one of them again
(`exists_remakes`) and leaves what comes behind it. When no groups are left, nothing is pending and
the run ends. -/
theorem run (lists : work.Lists plan) {final : Grouping} (runs : Grouping.Runs work grouping final)
    (state : Left work plan grouping (groups.flatMap (Group.laid work.side)))
    (stepped : LockStepped work.numResources grouping.elapsed groups stop)
    (governed : ∀ group ∈ groups, group.entries ≠ [] ∧ group.GovernedBy work.rule) :
    ∃ again, final.groups = grouping.groups ++ again ∧ final.elapsed = stop ∧
      List.Forall₂ Group.BoundedLike groups again ∧
      (stampedEntries work.side again).Perm
        (planned (numbered plan) grouping.residual.pending) := by
  induction groups generalizing grouping with
  | nil =>
    have done : grouping.residual.pending = [] := by
      cases waits : grouping.residual.pending with
      | nil => rfl
      | cons id ids =>
        obtain ⟨entry, found⟩ := state.known lists id (waits ▸ List.mem_cons_self)
        have pending := state.pending
        rw [waits, planned_cons found] at pending
        cases pending
    cases runs with
    | done => exact ⟨[], (List.append_nil _).symm, stepped, .nil, by rw [done]; rfl⟩
    | step left =>
      rw [Residual.isDone, done] at left
      cases left
  | cons group groups ih =>
    obtain ⟨some_entry, by_rule⟩ := governed group List.mem_cons_self
    obtain ⟨next, first, remakes⟩ := lists.exists_remakes state stepped some_entry by_rule
    obtain ⟨ids, pending, perm⟩ := remakes.perm
    cases runs with
    | done done =>
      have none := List.isEmpty_iff.mp done
      have laid := state.pending
      rw [none] at laid
      have empty := (List.append_eq_nil_iff.mp laid.symm).1
      cases side : work.side <;> simp [side, Group.laid, Group.toList, Group.opened] at empty
    | step left advanced' rest =>
      cases remakes.advanced.symm.trans advanced'
      obtain ⟨later, written, stop_eq, all_made, perm'⟩ := ih rest remakes.left remakes.stepped
        fun other member => governed other (List.mem_cons_of_mem _ member)
      refine ⟨first :: later, ?_, stop_eq, .cons remakes.boundedLike all_made, ?_⟩
      · rw [written, remakes.groups_eq, List.append_assoc, List.singleton_append]
      · rw [pending, planned_append]
        exact perm.append perm'

end Workload.Lists

end Timetable
