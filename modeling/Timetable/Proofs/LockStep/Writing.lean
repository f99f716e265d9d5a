import Timetable.Proofs.GapFree.Shifting
import Timetable.Proofs.LockStep.Run

/-!
# What a lock-step run writes

For every operation, what a run writes is a list of parts that only ever grows. There are two ways
in which it does: a timestep that is ready becomes a boundary at the tick that the run has come to,
and a step adds the parts of the operations that it handles. All of this is written down in the
order of time, with one exception: the boundary that opens a step is written behind it. Stamping
such boundaries with the tick at which they open makes up for that.

## Main definitions

* `Group.stamped` — a group with its boundary at the tick that it stands for.
* `Journal` — how far a run has come, and the parts it has written.
* `Journal.Writes` — the two ways in which a journal grows.
* `Group.Led` — a group has an entry of its whole span, unless it is empty.
* `Workload.Grouped` — what a run has done in the end.

## Main results

* `Grouping.Advances.writes` — a run grows its journal in these two ways.
* `Workload.Sound.exists_grouped` — every run completes everything.
-/

set_option autoImplicit false

namespace Timetable

open Relation

/-- The length of the step that a boundary closes. -/
def Group.length (group : Group) : Tick := group.boundary.stepLength

/-- A group whose boundary stands at the tick that it was made for: where the step begins if
timesteps open their steps. -/
def Group.stamped (side : CarriedSide) (group : Group) : Group :=
  match side with
  | .closing => group
  | .opening => { group with boundary.start := group.boundary.start - group.length }

/-- A group is empty and has no length, or one of its entries was made from an operation and spans
all of it. The entries that were made from none fill gaps, and the others were made from one of
`size` operations. -/
structure Group.Led (size : Nat) (group : Group) : Prop where
  empty : group.entries = [] → group.length = 0
  dominated : group.entries ≠ [] → ∃ entry ∈ group.entries,
    (∃ id < size, entry.source = some id) ∧ entry.duration = group.length ∧
      entry.stop = group.boundary.start
  unsourced : ∀ entry ∈ group.entries, entry.source = none → entry.FillsGap
  known : ∀ entry ∈ group.toList, ∀ id, entry.source = some id → id < size

/-- How far a run has come, and which parts it has written for each operation. -/
structure Journal where
  /-- The operations not completed. -/
  residual : Residual
  /-- For every operation, the ticks of it that are not placed yet. -/
  remaining : Array Tick
  /-- The last boundary. -/
  elapsed : Tick
  /-- The parts of each operation. -/
  parts : OpId → List Entry

/-- The entries of groups, with boundaries at the ticks that they were made for. -/
def stampedEntries (side : CarriedSide) (groups : List Group) : List Entry :=
  groups.flatMap fun group => (group.stamped side).toList

/-- What a grouping has written for each operation. -/
def Grouping.journal (work : Workload) (grouping : Grouping) : Journal :=
  ⟨grouping.residual, grouping.remaining, grouping.elapsed,
    fun id => partsOf id (stampedEntries work.side grouping.groups)⟩

/-- How a journal grows. A timestep that is ready becomes a boundary, or a step is made, in which no
ready delay is passed over unless the step is empty. -/
inductive Journal.Writes (work : Workload) : Journal → Journal → Prop
  | mark {residual : Residual} {remaining : Array Tick} {elapsed : Tick}
      {parts : OpId → List Entry} {id : OpId} (length : Tick) (ongoing : residual.Ongoing)
      (precedence : residual.precedence = work.precedence) (ready : id ∈ residual.frontier)
      (timestep : work.isTimestep id = true) :
      Writes work ⟨residual, remaining, elapsed, parts⟩
        ⟨residual.complete id, remaining, elapsed, fun other =>
          parts other ++ partsOf other [.boundary length work.resources elapsed (some id)]⟩
  | step {residual : Residual} {remaining : Array Tick} {elapsed : Tick}
      {parts : OpId → List Entry} {length : Tick} {step : Step}
      (recorded : Step.Recorded work residual remaining elapsed length step)
      (progress : ∀ id ∈ residual.frontier, work.isDelay id = true → 0 < length →
        partsOf id step.entries ≠ []) :
      Writes work ⟨residual, remaining, elapsed, parts⟩
        ⟨step.residual, step.remaining, elapsed + length, fun id =>
          parts id ++ partsOf id step.entries⟩

variable {work : Workload} {grouping next : Grouping} {residual rest : Residual}
  {markers : List OpId} {id : OpId} {elapsed : Tick}

/-! ## Boundaries made from timesteps -/

/-- The boundary of an empty step, made from a timestep. -/
def emptyBoundary (work : Workload) (elapsed : Tick) (id : OpId) : Entry :=
  .boundary 0 work.resources elapsed (some id)

/-- The entries of groups are written one group after the other. -/
@[simp]
lemma stampedEntries_append (side : CarriedSide) (groups others : List Group) :
    stampedEntries side (groups ++ others) =
      stampedEntries side groups ++ stampedEntries side others :=
  List.flatMap_append

/-- The boundary of an empty step stands where the step begins, too. -/
@[simp]
lemma stampedEntries_map_emptyGroup (side : CarriedSide) (work : Workload) (elapsed : Tick)
    (ids : List OpId) : stampedEntries side (ids.map (Grouping.emptyGroup work elapsed)) =
      ids.map (emptyBoundary work elapsed) := by
  rw [stampedEntries, List.flatMap_map, List.map_eq_flatMap]
  cases side <;> rfl

/-- Only the boundary made from an operation is a part of it. -/
lemma partsOf_boundary_ne {other : OpId} (length : Tick) (resources : List Resource) (stop : Tick)
    (distinct : other ≠ id) :
    partsOf other [.boundary length resources stop (some id)] = [] :=
  partsOf_singleton_ne fun same => distinct (Option.some.inj same).symm

/-- An operation has no part among the boundaries made from others. -/
lemma partsOf_emptyBoundaries (fresh : id ∉ markers) :
    partsOf id (markers.map (emptyBoundary work elapsed)) = [] := by
  refine partsOf_eq_nil_iff.mpr ?_
  intro entry member source
  obtain ⟨marker, among, rfl⟩ := List.mem_map.mp member
  exact fresh (Option.some.inj source ▸ among)

namespace Journal

/-- Timesteps that are completed one after the other become boundaries.

**Proof sketch.** Induction on what is completed. Each timestep is one more boundary of length zero
at the elapsed tick, and the boundaries of the others follow it. -/
lemma writes_markers (completes : residual.Completes markers rest) (ongoing : residual.Ongoing)
    (precedence : residual.precedence = work.precedence)
    (timestep : ∀ id ∈ markers, work.isTimestep id = true) (remaining : Array Tick)
    (elapsed : Tick) (parts : OpId → List Entry) :
    ReflTransGen (Writes work) ⟨residual, remaining, elapsed, parts⟩
      ⟨rest, remaining, elapsed, fun id =>
        parts id ++ partsOf id (markers.map (emptyBoundary work elapsed))⟩ := by
  induction completes generalizing parts with
  | nil =>
    simp only [List.map_nil, partsOf_nil, List.append_nil]
    exact .refl
  | @cons residual rest first others ready _ ih =>
    have marked := @Writes.mark work residual remaining elapsed parts first 0 ongoing precedence
      ready (timestep first List.mem_cons_self)
    have later := ih (ongoing.complete first)
      ((Residual.precedence_complete residual first).trans precedence)
      (fun id member => timestep id (List.mem_cons_of_mem _ member)) fun other => parts other ++
        partsOf other [.boundary 0 work.resources elapsed (some first)]
    have same :
        (fun id => parts id ++ partsOf id ((first :: others).map (emptyBoundary work elapsed))) =
          fun id => parts id ++ partsOf id [.boundary 0 work.resources elapsed (some first)] ++
            partsOf id (others.map (emptyBoundary work elapsed)) := by
      funext id
      rw [List.map_cons, partsOf_cons, List.append_assoc]
      rfl
    rw [same]
    exact later.head marked

/-- If the first of some timesteps opens the step behind them, its boundary may as well be written
behind the entries of the step: it is the only part of that timestep.

**Proof sketch.** The first timestep becomes a boundary of the length of the step, the others become
empty ones, and then the step is made. For any other operation the first boundary is no part of it,
and for the timestep itself there is none but this boundary, as it is completed before the step. -/
lemma writes_opened {first : OpId} {others : List OpId} {remaining : Array Tick} {length : Tick}
    {step : Step} (completes : residual.Completes (first :: others) rest)
    (ongoing : residual.Ongoing) (precedence : residual.precedence = work.precedence)
    (timestep : ∀ id ∈ first :: others, work.isTimestep id = true)
    (recorded : Step.Recorded work rest remaining elapsed length step)
    (progress : ∀ id ∈ rest.frontier, work.isDelay id = true → 0 < length →
      partsOf id step.entries ≠ []) (parts : OpId → List Entry) :
    ReflTransGen (Writes work) ⟨residual, remaining, elapsed, parts⟩
      ⟨step.residual, step.remaining, elapsed + length, fun id =>
        parts id ++ partsOf id (others.map (emptyBoundary work elapsed)) ++
          (partsOf id step.entries ++
            partsOf id [.boundary length work.resources elapsed (some first)])⟩ := by
  have nodup := completes.perm.nodup_iff.mp ongoing.nodup
  have fresh : first ∉ others := fun among =>
    (List.nodup_cons.mp nodup).1 (List.mem_append_left _ among)
  have completed : first ∉ rest.pending := fun pending =>
    (List.nodup_cons.mp nodup).1 (List.mem_append_right _ pending)
  cases completes with
  | cons ready later =>
    have opened := @Writes.mark work residual remaining elapsed parts first length ongoing
      precedence ready (timestep first List.mem_cons_self)
    have marked := writes_markers later (ongoing.complete first)
      ((Residual.precedence_complete _ _).trans precedence)
      (fun id among => timestep id (List.mem_cons_of_mem _ among)) remaining elapsed
      fun id => parts id ++ partsOf id [.boundary length work.resources elapsed (some first)]
    have made := (marked.head opened).tail (.step recorded progress)
    have same : ∀ id, parts id ++ partsOf id (others.map (emptyBoundary work elapsed)) ++
        (partsOf id step.entries ++
          partsOf id [.boundary length work.resources elapsed (some first)]) =
        parts id ++ partsOf id [.boundary length work.resources elapsed (some first)] ++
          partsOf id (others.map (emptyBoundary work elapsed)) ++ partsOf id step.entries := by
      intro id
      by_cases opens : id = first
      · subst opens
        rw [partsOf_emptyBoundaries fresh, recorded.partsOf_eq_nil completed]
        simp
      · rw [partsOf_boundary_ne length _ _ opens]
        simp
    simp only [same]
    exact made

end Journal

/-- Padding a step adds no parts. -/
@[simp]
lemma Step.partsOf_padded (id : OpId) (step : Step) :
    partsOf id step.padded.entries = partsOf id step.entries := by
  rw [padded, partsOf_append, partsOf_gaps, List.append_nil]

/-- The entries of a single group that ends at its boundary. -/
lemma stampedEntries_singleton (side : CarriedSide) (entries : List Entry) (length : Tick)
    (resources : List Resource) (elapsed : Tick) (source : Option OpId) :
    stampedEntries side [⟨entries, .boundary length resources (elapsed + length) source⟩] =
      entries ++ [.boundary length resources
        (match side with | .closing => elapsed + length | .opening => elapsed) source] := by
  cases side with
  | closing => simp [stampedEntries, Group.stamped, Group.toList]
  | opening =>
    simp [stampedEntries, Group.stamped, Group.toList, Group.length, Entry.boundary,
      Entry.stepLength, Operation.stepLength?]

/-- If nothing but timesteps was left, each of them has the boundary of an empty step.

**Proof sketch.** If timesteps open their steps, the first of them comes behind the others. Each of
them has one boundary, so the order makes no difference to the parts of an operation. -/
lemma partsOf_loose_opening (nodup : markers.Nodup) (id : OpId) :
    partsOf id ((work.loose markers ++ (work.opening? markers).toList).map
      (emptyBoundary work elapsed)) = partsOf id (markers.map (emptyBoundary work elapsed)) := by
  cases side : work.side with
  | closing => simp [Workload.loose, Workload.opening?, side]
  | opening =>
    cases markers with
    | nil => simp [Workload.loose, Workload.opening?, side]
    | cons first others =>
      obtain ⟨fresh, -⟩ := List.nodup_cons.mp nodup
      simp only [Workload.loose, Workload.opening?, side, List.tail_cons, List.head?_cons,
        Option.toList_some, List.map_append, List.map_cons, List.map_nil, partsOf_append]
      rw [partsOf_cons id _ (others.map _)]
      by_cases same : id = first
      · subst same
        rw [partsOf_emptyBoundaries fresh, List.nil_append, List.append_nil]
      · rw [emptyBoundary, partsOf_boundary_ne 0 _ _ same, List.append_nil, List.nil_append]

namespace Grouping.Advances

/-- A step grows the journal.

**Proof sketch.** The timesteps that are ready become boundaries one after the other, then the step
is made, and then perhaps another timestep becomes its boundary. If timesteps open their steps, the
boundary made from the first of them is written only behind the step, which comes to the same
(`Journal.writes_opened`). -/
theorem writes (inOrder : InOrder work grouping) (advances : Advances work grouping next) :
    ReflTransGen (Journal.Writes work) (grouping.journal work) (next.journal work) := by
  have ongoing := inOrder.ongoing
  cases advances with
  | finish drained done residual remaining elapsed groups =>
    have nodup := (List.nodup_append.mp (drained.completes.perm.nodup_iff.mp ongoing.nodup)).1
    have marked := Journal.writes_markers drained.completes ongoing inOrder.precedence
      drained.timestep grouping.remaining grouping.elapsed
      fun id => partsOf id (stampedEntries work.side grouping.groups)
    simp only [journal, residual, remaining, elapsed, groups, stampedEntries_append,
      stampedEntries_map_emptyGroup, partsOf_append, partsOf_loose_opening nodup]
    exact marked
  | @step markers rest _ length step source drained _ _ recorded _ progress bounded remaining
      elapsed groups =>
    have marked := Journal.writes_markers drained.completes ongoing inOrder.precedence
      drained.timestep grouping.remaining grouping.elapsed
      fun id => partsOf id (stampedEntries work.side grouping.groups)
    have made := marked.tail (.step recorded progress)
    have unnamed : ∀ id tick, partsOf id [.boundary length work.resources tick none] = [] :=
      fun _ _ => rfl
    simp only [journal, remaining, elapsed, groups, stampedEntries_append,
      stampedEntries_map_emptyGroup, stampedEntries_singleton, partsOf_append, Step.partsOf_padded]
    cases bounded with
    | unnamed side source_eq last_eq =>
      simp only [side, source_eq, last_eq, Workload.loose, unnamed, List.append_nil]
      simp only [side] at made
      exact made
    | @closed id side source_eq ready timestep last_eq =>
      simp only [side, source_eq, last_eq, Workload.loose]
      simp only [side] at made
      have closed := made.tail (.mark length recorded.ongoing recorded.precedence ready timestep)
      simp only [List.append_assoc] at closed ⊢
      exact closed
    | opened side source_eq last_eq =>
      simp only [side] at made
      simp only [side, source_eq, last_eq, Workload.loose]
      cases markers with
      | nil =>
        simp only [List.head?_nil, List.tail_nil, unnamed, List.append_nil]
        exact made
      | cons first others =>
        exact Journal.writes_opened drained.completes ongoing inOrder.precedence drained.timestep
          recorded progress _

/-- The groups of a step are led.

**Proof sketch.** The steps of timesteps have no entries, so their boundary is all there is to see.
In a step with entries the dominant operation is completed, so that its entry lasts as long as the
step (`Recorded.dominant`). Entries without a source are idle time, and every source was pending. -/
lemma led (inOrder : InOrder work grouping) (sound : work.Sound)
    (advances : Advances work grouping next)
    (led : ∀ group ∈ grouping.groups, group.Led work.jobs.size) :
    ∀ group ∈ next.groups, group.Led work.jobs.size := by
  have lt_size : ∀ {id}, id ∈ grouping.residual.pending → id < work.jobs.size := by
    intro id pending
    rw [← sound.size, ← inOrder.precedence]
    exact inOrder.ongoing.inside id pending
  have empty : ∀ id < work.jobs.size, (emptyGroup work grouping.elapsed id).Led work.jobs.size := by
    intro id inside
    refine ⟨fun _ => rfl, fun some_entry => absurd rfl some_entry, by simp [emptyGroup], ?_⟩
    intro entry member other source
    obtain rfl := List.mem_singleton.mp member
    exact Option.some.inj source ▸ inside
  intro group member
  cases advances with
  | @finish markers _ drained _ _ _ _ groups =>
    rw [groups, List.mem_append] at member
    rcases member with old | new
    · exact led group old
    · obtain ⟨id, among, rfl⟩ := List.mem_map.mp new
      have among := work.mem_markers among
      exact empty id (lt_size (drained.completes.perm.mem_iff.mpr (List.mem_append_left _ among)))
  | @step markers rest id length step source drained ready length_eq recorded done _ bounded _ _
      groups =>
    rw [groups, List.mem_append, List.mem_append, List.mem_singleton] at member
    rcases member with (old | new) | rfl
    · exact led group old
    · obtain ⟨id, among, rfl⟩ := List.mem_map.mp new
      have among := work.mem_markers (List.mem_append_left _ among)
      exact empty id (lt_size (drained.completes.perm.mem_iff.mpr (List.mem_append_left _ among)))
    · obtain ⟨entry, member, source, start, duration⟩ :=
        recorded.dominant ready done length_eq.symm
      have inside : id < work.jobs.size := by
        obtain ⟨job, found, -⟩ := inOrder.exists_plain_job sound drained ready
        exact (Array.getElem?_eq_some_iff.mp found).1
      have kept : entry ∈ step.padded.entries := List.mem_append_left _ member
      refine ⟨fun none => absurd none (List.ne_nil_of_mem kept),
        fun _ => ⟨entry, kept, ⟨id, inside, source⟩, duration, ?_⟩, ?_, ?_⟩
      · rw [Entry.stop, start, duration]
        rfl
      · intro other member none
        rcases List.mem_append.mp member with placed | gap
        · exact recorded.unsourced other placed none
        · exact Entry.fillsGap_of_mem_gaps gap
      · intro other member id known
        rcases List.mem_append.mp member with member | boundary
        · have placed : other ∈ step.entries := by
            refine (List.mem_append.mp member).resolve_right fun gap => ?_
            rw [(Entry.fillsGap_of_mem_gaps gap).source_eq] at known
            cases known
          exact lt_size (drained.completes.mem_pending (recorded.source other placed id known).1)
        · obtain rfl := List.mem_singleton.mp boundary
          rcases bounded.source_mem known with completed | pending
          · exact lt_size (drained.completes.perm.mem_iff.mpr (List.mem_append_left _ completed))
          · exact lt_size (drained.completes.mem_pending (recorded.pending id pending))

end Grouping.Advances

/-! ## A whole run -/

/-- What a run that has completed everything has done. -/
structure Workload.Grouped (work : Workload) (last : Grouping) : Prop where
  done : last.residual.pending = []
  writes : ReflTransGen (Journal.Writes work) ((Grouping.start work).journal work)
    (last.journal work)
  led : ∀ group ∈ last.groups, group.Led work.jobs.size

/-- A run from nothing placed completes everything.

**Proof sketch.** There is a run that completes everything (`Sound.exists_grouping`). By induction
on it, each step is some writes (`Advances.writes`), and its groups are led (`Advances.led`). -/
theorem Workload.Sound.exists_grouped (sound : work.Sound) :
    ∃ last, work.grouping = (last, none) ∧ work.Grouped last := by
  obtain ⟨last, ran, done, advances, -⟩ := sound.exists_grouping
  have of_run : ∀ {next}, ReflTransGen (Grouping.Advances work) (Grouping.start work) next →
      ReflTransGen (Journal.Writes work) ((Grouping.start work).journal work) (next.journal work) ∧
        ∀ group ∈ next.groups, group.Led work.jobs.size := by
    intro next advances
    induction advances with
    | refl => exact ⟨.refl, by simp [Grouping.start]⟩
    | tail before advances ih =>
      have inOrder := sound.inOrder_start.of_run before
      exact ⟨ih.1.trans (advances.writes inOrder), advances.led inOrder sound ih.2⟩
  exact ⟨last, ran, done, (of_run advances).1, (of_run advances).2⟩

end Timetable
