import Timetable.Proofs.LockStep.Passes

/-!
# Lock step keeps every operation

A delay is cut into parts of positive length that follow each other immediately, because one that
was cut stays ready, and then the next step that takes any time continues it at its origin. What is
left of it and what was placed always add up to its duration. All other operations are placed whole,
and every timestep becomes one boundary. So when everything is completed, all operations are kept.

## Main definitions

* `Pieces` — the parts of a delay so far.
* `Unfinished` — what was made of an operation that is not completed.
* `Journal.Kept` — what was made of every operation.

## Main results

* `Journal.Kept.writes` — nothing that is written loses or doubles anything.
* `Workload.Grouped.kept` — in the end every operation is kept.
-/

set_option autoImplicit false

namespace Timetable

open Relation

/-- Parts of a delay so far: delays of positive length on a resource, each of which starts where the
one before it ends, and the last of which ends at tick `stop`. -/
structure Pieces (resource : Resource) (stop : Tick) (parts : List Entry) : Prop where
  delay : ∀ part ∈ parts, ∃ span, part.operation = .delay span resource
  consecutive : parts.IsChain fun earlier later => earlier.stop = later.start
  positive : ∀ part ∈ parts, 0 < part.duration
  last : ∀ part ∈ parts.getLast?, part.stop = stop

/-- What was made of the operation of a job that is not completed and of which `left` ticks are
left. Nothing was, or it is a delay of which some parts were placed; then it is ready, and the next
part has to start at tick `elapsed`. -/
inductive Unfinished (residual : Residual) (elapsed left : Tick) (job : Job) (parts : List Entry) :
    Prop
  | untouched (none : parts = []) (left_eq : left = job.ticks)
  | begun {span : Span} {resource : Resource} (delay : job.operation = .delay span resource)
      (ready : job.id ∈ residual.frontier) (pieces : Pieces resource elapsed parts)
      (positive : 0 < left) (total : (parts.map Entry.duration).sum + left = job.ticks)

/-- Nothing was made of numbers that are no operations, every completed operation is kept, and of
every other one there is left what was not placed. -/
structure Journal.Kept (work : Workload) (journal : Journal) : Prop where
  unknown : ∀ id, work.jobs[id]? = none → journal.parts id = []
  completed : ∀ {job : Job}, work.jobs[job.id]? = some job → job.id ∉ journal.residual.pending →
    job.operation.KeptInLockStep work.numResources job.id job.ticks (journal.parts job.id)
  unfinished : ∀ {job : Job}, work.jobs[job.id]? = some job → job.id ∈ journal.residual.pending →
    Unfinished journal.residual journal.elapsed (journal.remaining[job.id]?.getD 0) job
      (journal.parts job.id)

variable {work : Workload} {resource : Resource} {stop left : Tick} {parts : List Entry}
  {part : Entry} {job : Job} {residual : Residual} {elapsed : Tick}

/-! ## One more part -/

/-- There is no part yet. -/
lemma pieces_nil (resource : Resource) (stop : Tick) : Pieces resource stop [] :=
  ⟨by simp, .nil, by simp, by simp⟩

/-- A delay that starts where the others end follows them immediately. -/
lemma Pieces.append (pieces : Pieces resource part.start parts) {span : Span}
    (delay : part.operation = .delay span resource) :
    (∀ other ∈ parts ++ [part], ∃ span, other.operation = .delay span resource) ∧
      (parts ++ [part]).IsChain fun earlier later => earlier.stop = later.start := by
  refine ⟨?_, List.isChain_append.mpr ⟨pieces.consecutive, .singleton _, ?_⟩⟩
  · intro other member
    rcases List.mem_append.mp member with old | new
    · exact pieces.delay other old
    · obtain rfl := List.mem_singleton.mp new
      exact ⟨span, delay⟩
  · intro earlier last later first
    obtain rfl : later = part := by simpa using first.symm
    exact pieces.last earlier last

/-- One more part behind the others. -/
lemma Pieces.concat (pieces : Pieces resource part.start parts) {span : Span}
    (delay : part.operation = .delay span resource) (positive : 0 < part.duration) :
    Pieces resource part.stop (parts ++ [part]) := by
  obtain ⟨delays, consecutive⟩ := pieces.append delay
  refine ⟨delays, consecutive, ?_, by simp⟩
  intro other member
  rcases List.mem_append.mp member with old | new
  · exact pieces.positive other old
  · obtain rfl := List.mem_singleton.mp new
    exact positive

/-- The last part behind the others. It may be empty only if it is the only one. -/
lemma Pieces.split (pieces : Pieces resource part.start parts) {span : Span}
    (delay : part.operation = .delay span resource) (positive : parts ≠ [] → 0 < part.duration) :
    Split resource ((parts.map Entry.duration).sum + part.duration) (parts ++ [part]) := by
  obtain ⟨delays, consecutive⟩ := pieces.append delay
  refine ⟨by simp, delays, consecutive, by simp, ?_⟩
  intro several other member
  have some_part : parts ≠ [] := by
    rintro rfl
    simp at several
  rcases List.mem_append.mp member with old | new
  · exact pieces.positive other old
  · obtain rfl := List.mem_singleton.mp new
    exact positive some_part

/-- What is left of a delay is a delay on its resource. -/
lemma Operation.exists_rest_delay (duration full : Tick) (span : Span) (resource : Resource) :
    ∃ span', (Operation.delay span resource).rest duration full = .delay span' resource := by
  simp only [rest]
  split
  · exact ⟨span, rfl⟩
  · exact ⟨.ticks duration, rfl⟩

namespace Unfinished

/-- An operation is kept when all that is left of it is placed, at the end of its other parts if it
has any.

**Proof sketch.** If the operation is untouched, all of it is placed in one entry. If it is a delay
of which some parts were placed, it goes on at tick zero of the step, which is where the last of its
parts ended, and all of them add up to its duration. -/
lemma taken (unfinished : Unfinished residual elapsed left job parts)
    (plain : job.operation.isTimestep = false) {start : Tick}
    (prompt : job.id ∈ residual.frontier → start = 0) (numResources : Nat) :
    job.operation.KeptInLockStep numResources job.id job.ticks
      (parts ++ [⟨job.operation.rest left job.ticks, elapsed + start, left, some job.id⟩]) := by
  obtain ⟨id, operation, ticks⟩ := job
  cases unfinished with
  | untouched none all =>
    subst none all
    rw [List.nil_append, Operation.rest_self]
    cases operation with
    | timestep => cases plain
    | delay span resource =>
      have split := @Pieces.split resource [] ⟨.delay span resource, elapsed + start, left, some id⟩
        (pieces_nil resource _) span rfl (absurd rfl)
      rw [List.map_nil, List.sum_nil, Nat.zero_add] at split
      exact split
    | gate | barrier => exact ⟨_, rfl⟩
  | @begun span resource delay ready pieces positive total =>
    obtain rfl := prompt ready
    obtain ⟨span', rest⟩ := Operation.exists_rest_delay left ticks span resource
    dsimp only at delay total ⊢
    subst delay
    rw [rest]
    have split := @Pieces.split resource parts ⟨.delay span' resource, elapsed, left, some id⟩
      pieces span' rfl fun _ => positive
    rwa [total] at split

/-- A delay is unfinished when a part of it is placed, at the end of its other parts if there are
any.

**Proof sketch.** The part is placed at the end of the other parts, if there are any, because a
delay that has begun goes on at tick zero of the step. What is left and what is placed make up the
duration as before. -/
lemma cut (unfinished : Unfinished residual elapsed left job parts) {span : Span}
    (delay : job.operation = .delay span resource) {start part : Tick} (some_part : 0 < part)
    (long : part < left) (prompt : job.id ∈ residual.frontier → start = 0) {rest : Residual}
    (ready : job.id ∈ rest.frontier) :
    Unfinished rest (elapsed + start + part) (left - part) job
      (parts ++ [.idle resource (elapsed + start) part (some job.id)]) := by
  have positive : 0 < left - part := Nat.sub_pos_of_lt long
  cases unfinished with
  | untouched none all =>
    subst none all
    have pieces := @Pieces.concat resource [] (.idle resource (elapsed + start) part (some job.id))
      (pieces_nil resource _) (.ticks part) rfl some_part
    refine .begun delay ready pieces positive ?_
    show part + (job.ticks - part) = job.ticks
    exact Nat.add_sub_of_le long.le
  | @begun span' resource' delay' ready' pieces _ total =>
    obtain rfl := prompt ready'
    obtain ⟨rfl, rfl⟩ : span' = span ∧ resource' = resource := by
      simpa using delay'.symm.trans delay
    have pieces := @Pieces.concat resource' parts (.idle resource' elapsed part (some job.id))
      pieces (.ticks part) rfl some_part
    refine .begun delay ready pieces positive ?_
    rw [List.map_append, List.sum_append, ← total, Nat.add_assoc]
    exact congrArg _ (Nat.add_sub_of_le long.le)

/-- A timestep is kept when it becomes a boundary. -/
lemma boundary (unfinished : Unfinished residual elapsed left job parts)
    (timestep : job.operation.isTimestep = true) (numResources : Nat) (length stop : Tick) :
    job.operation.KeptInLockStep numResources job.id job.ticks
      (parts ++ [.boundary length (List.range numResources) stop (some job.id)]) := by
  cases unfinished with
  | untouched none _ =>
    subst none
    cases operation : job.operation with
    | timestep => exact ⟨length, stop, rfl⟩
    | gate | delay | barrier =>
      simp [operation, Operation.isTimestep, Operation.stepLength?] at timestep
  | begun delay =>
    rw [delay] at timestep
    cases timestep

/-- What is not touched is unfinished as before, if no time passes for a delay that was begun. -/
lemma mono (unfinished : Unfinished residual elapsed left job parts) {rest : Residual}
    {next : Tick} (ready : job.id ∈ residual.frontier → job.id ∈ rest.frontier)
    (waits : job.operation.isDelay = true → job.id ∈ residual.frontier → next = elapsed) :
    Unfinished rest next left job parts := by
  cases unfinished with
  | untouched none all => exact .untouched none all
  | begun delay ready' pieces positive total =>
    obtain rfl := waits (by rw [delay]; rfl) ready'
    exact .begun delay (ready ready') pieces positive total

end Unfinished

/-! ## What is written -/

namespace Journal.Kept

/-- Nothing was made of anything at the start. -/
lemma start (sound : work.Sound) : Kept work ((Grouping.start work).journal work) where
  unknown := fun _ _ => rfl
  completed := by
    intro job found done
    refine absurd (List.mem_range.mpr ?_) done
    show job.id < work.precedence.size
    rw [sound.size]
    exact (Array.getElem?_eq_some_iff.mp found).1
  unfinished := by
    intro job found _
    refine .untouched rfl ?_
    have listed : work.jobs.toList[job.id]? = some job := by simpa using found
    simp [Grouping.journal, Grouping.start, listed]

/-- Making a boundary from a timestep keeps it, and leaves the others as they are.

**Proof sketch.** For the timestep itself, which is completed now, the boundary is the only part,
since nothing was made of it before. All others have the parts that they had, are completed exactly
if they were, and if they are ready they are still. -/
lemma mark {remaining : Array Tick} {parts : OpId → List Entry} {marker : OpId}
    (kept : Kept work ⟨residual, remaining, elapsed, parts⟩) (length : Tick)
    (consistent : residual.Consistent) (ready : marker ∈ residual.frontier)
    (timestep : work.isTimestep marker = true) :
    Kept work ⟨residual.complete marker, remaining, elapsed, fun other =>
      parts other ++ partsOf other [.boundary length work.resources elapsed (some marker)]⟩ := by
  obtain ⟨markerJob, marker_found, is_timestep⟩ : ∃ job, work.jobs[marker]? = some job ∧
      job.operation.isTimestep = true := by
    simpa [Workload.isTimestep, Option.any_eq_true] using timestep
  have same_parts : ∀ id, id ≠ marker → parts id ++
      partsOf id [.boundary length work.resources elapsed (some marker)] = parts id := by
    intro id distinct
    rw [partsOf_boundary_ne length _ _ distinct, List.append_nil]
  refine ⟨fun id none => ?unknown, fun {job} found done => ?completed,
    fun {job} found left => ?unfinished⟩
  case unknown =>
    have distinct : id ≠ marker := by
      rintro rfl
      cases none.symm.trans marker_found
    exact (same_parts id distinct).trans (kept.unknown id none)
  case completed =>
    by_cases same : job.id = marker
    · subst same
      obtain rfl : job = markerJob := Option.some.inj (found.symm.trans marker_found)
      have unfinished := kept.unfinished found (Residual.mem_pending_of_mem_frontier ready)
      have single := partsOf_singleton_self
        (rfl : (Entry.boundary length work.resources elapsed (some job.id)).source = some job.id)
      show job.operation.KeptInLockStep _ _ _ (parts job.id ++ _)
      rw [single]
      exact unfinished.boundary is_timestep _ _ _
    · show job.operation.KeptInLockStep _ _ _ (parts job.id ++ _)
      rw [same_parts job.id same]
      exact kept.completed found fun left =>
        done ((consistent.mem_pending_complete ready).mpr ⟨same, left⟩)
  case unfinished =>
    obtain ⟨distinct, pending⟩ := (consistent.mem_pending_complete ready).mp left
    show Unfinished _ _ _ _ (parts job.id ++ _)
    rw [same_parts job.id distinct]
    exact (kept.unfinished found pending).mono
      (fun still => consistent.mem_frontier_complete still distinct) fun _ _ => rfl

/-- Making a step keeps what it takes, and leaves the rest of what it cuts.

**Proof sketch.** Look at what the step did with each operation (`Recorded.handles`). An untouched
one is as before, only that a delay which has begun must go on at once: it was ready, so it would
have made progress unless the step took no time. One that was taken is completed
(`Unfinished.taken`), and of one that was cut the rest is left (`Unfinished.cut`). -/
lemma step {remaining : Array Tick} {parts : OpId → List Entry} {length : Tick} {step : Step}
    (kept : Kept work ⟨residual, remaining, elapsed, parts⟩)
    (recorded : Step.Recorded work residual remaining elapsed length step)
    (progress : ∀ id ∈ residual.frontier, work.isDelay id = true → 0 < length →
      partsOf id step.entries ≠ []) :
    Kept work ⟨step.residual, step.remaining, elapsed + length, fun id =>
      parts id ++ partsOf id step.entries⟩ := by
  refine ⟨fun id none => ?unknown, fun {job} found done => ?completed,
    fun {job} found left => ?unfinished⟩
  case unknown =>
    show parts id ++ partsOf id step.entries = []
    cases recorded.handles id with
    | untouched no_parts =>
      rw [no_parts, List.append_nil]
      exact kept.unknown id none
    | taken found | cut found => cases none.symm.trans found
  case completed =>
    show job.operation.KeptInLockStep _ _ _ (parts job.id ++ partsOf job.id step.entries)
    cases recorded.handles job.id with
    | untouched no_parts _ pending =>
      rw [no_parts, List.append_nil]
      exact kept.completed found fun left => done (pending.mpr left)
    | taken found' plain pending _ _ prompt single =>
      cases found.symm.trans found'
      rw [single, recorded.origin_eq]
      exact (kept.unfinished found pending).taken plain prompt _
    | cut _ _ _ ready => exact absurd (Residual.mem_pending_of_mem_frontier ready) done
  case unfinished =>
    show Unfinished _ (elapsed + length) (step.left job.id) _
      (parts job.id ++ partsOf job.id step.entries)
    cases recorded.handles job.id with
    | untouched no_parts same pending =>
      rw [no_parts, List.append_nil, same]
      refine (kept.unfinished found (pending.mp left)).mono
        (fun ready => recorded.mem_frontier ready left) fun delay ready => ?_
      have is_delay : work.isDelay job.id = true := by simp [Workload.isDelay, found, delay]
      have instant : length = 0 := by
        by_contra some_time
        exact progress job.id ready is_delay (Nat.pos_of_ne_zero some_time) no_parts
      rw [instant, Nat.add_zero]
    | taken _ _ _ done => exact absurd left done
    | @cut job' span resource start found' delay pending ready room long prompt _ rest single =>
      cases found.symm.trans found'
      rw [recorded.length_eq] at room long rest single
      rw [recorded.origin_eq] at single
      have stop : elapsed + length = elapsed + start + (length - start) := by
        rw [Nat.add_assoc, Nat.add_sub_of_le room.le]
      rw [rest, single, stop]
      exact (kept.unfinished found pending).cut delay (Nat.sub_pos_of_lt room) long prompt ready

/-- Nothing that is written loses or doubles an operation.

**Proof sketch.** A boundary that is written is `Kept.mark`, and a step that is made is
`Kept.step`. -/
theorem writes {journal next : Journal} (kept : Kept work journal)
    (writes : Writes work journal next) : Kept work next := by
  cases writes with
  | mark length ongoing _ ready timestep =>
    exact kept.mark length ongoing.toConsistent ready timestep
  | step recorded progress => exact kept.step recorded progress

/-- Nothing that is written loses or doubles an operation, however much it is. -/
lemma of_writes {journal next : Journal} (kept : Kept work journal)
    (writes : ReflTransGen (Writes work) journal next) : Kept work next := by
  induction writes with
  | refl => exact kept
  | tail _ writes ih => exact ih.writes writes

end Journal.Kept

/-- When everything is completed, every operation is kept.

**Proof sketch.** At the start nothing is written and everything is left (`Kept.start`). All that is
written keeps every operation (`Kept.of_writes`), and at the end nothing is left. -/
theorem Workload.Grouped.kept {last : Grouping} (grouped : work.Grouped last) (sound : work.Sound)
    {id : OpId} (found : work.jobs[id]? = some job) :
    job.operation.KeptInLockStep work.numResources id job.ticks
      (partsOf id (stampedEntries work.side last.groups)) := by
  obtain rfl := sound.numbered found
  refine ((Journal.Kept.start sound).of_writes grouped.writes).completed found ?_
  show job.id ∉ last.residual.pending
  rw [grouped.done]
  exact List.not_mem_nil

/-! ## Turned around -/

/-- Whether its boundary stands behind a group or in front of it makes no difference to an operation
of which either all parts are timesteps or none is.

**Proof sketch.** If all parts are timesteps then none of them is among the plain entries, and if
none is then the boundary is no part. In either case there is nothing for the boundary to be in
front of or behind. -/
lemma Group.partsOf_toList {group : Group} {id : OpId} {isTimestep : Bool}
    (boundary : group.boundary.operation.isTimestep = true)
    (plain : ∀ entry ∈ group.entries, entry.operation.isTimestep = false)
    (alike : ∀ part ∈ partsOf id group.opened, part.operation.isTimestep = isTimestep) :
    partsOf id group.toList = partsOf id group.opened := by
  rw [opened, partsOf_cons] at alike ⊢
  rw [toList, partsOf_append]
  cases isTimestep with
  | true =>
    have none : partsOf id group.entries = [] := by
      refine List.eq_nil_iff_forall_not_mem.mpr ?_
      intro part member
      have is_timestep := alike part (List.mem_append_right _ member)
      rw [plain part (mem_partsOf.mp member).1] at is_timestep
      cases is_timestep
    rw [none, List.nil_append, List.append_nil]
  | false =>
    have none : partsOf id [group.boundary] = [] := by
      refine List.eq_nil_iff_forall_not_mem.mpr ?_
      intro part member
      have not_timestep := alike part (List.mem_append_left _ member)
      obtain rfl := List.mem_singleton.mp (mem_partsOf.mp member).1
      rw [boundary] at not_timestep
      cases not_timestep
    rw [none, List.nil_append, List.append_nil]

/-- The parts among several groups are the same wherever the boundaries are written. -/
lemma partsOf_flatMap_toList {groups : List Group} {id : OpId} {isTimestep : Bool}
    (boundaries : ∀ group ∈ groups, group.boundary.operation.isTimestep = true)
    (plain : ∀ group ∈ groups, ∀ entry ∈ group.entries, entry.operation.isTimestep = false)
    (alike : ∀ part ∈ partsOf id (groups.flatMap Group.opened),
      part.operation.isTimestep = isTimestep) :
    partsOf id (groups.flatMap Group.toList) = partsOf id (groups.flatMap Group.opened) := by
  induction groups with
  | nil => rfl
  | cons group groups ih =>
    rw [List.flatMap_cons, partsOf_append] at alike
    have rest := ih (fun other member => boundaries other (List.mem_cons_of_mem _ member))
      (fun other member => plain other (List.mem_cons_of_mem _ member))
      fun part member => alike part (List.mem_append_right _ member)
    have first := Group.partsOf_toList (boundaries group List.mem_cons_self)
      (plain group List.mem_cons_self) fun part member => alike part (List.mem_append_left _ member)
    rw [List.flatMap_cons, List.flatMap_cons, partsOf_append, partsOf_append, first, rest]

variable {program : Program} {table : DurationTable} {rule : DelayRule} {side : CarriedSide}
  {last : Grouping} {reversal : Reversal} {id : OpId}

/-- In the end every operation of a program is kept. -/
lemma Program.LockStepRun.kept (run : program.LockStepRun table rule side last)
    (inside : id < program.size) : ∃ operation ticks, program.operation? id = some operation ∧
      program.duration? table id = some ticks ∧
        operation.KeptInLockStep program.numResources id ticks
          (partsOf id (stampedEntries side last.groups)) := by
  have bound : id < (program.workload table rule side).jobs.size := by
    rwa [size_workload run.resolves]
  have found := Array.getElem?_eq_getElem bound
  obtain ⟨-, operation, ticks⟩ := job_of_workload run.resolves found
  exact ⟨_, _, operation, ticks, run.grouped.kept run.sound found⟩

/-- The entries of a run were made from operations of the program. -/
lemma Program.LockStepRun.lt_size (run : program.LockStepRun table rule side last)
    {entry : Entry} (member : entry ∈ stampedEntries side last.groups)
    (source : entry.source = some id) : id < program.size := by
  obtain ⟨group, among, member⟩ := List.mem_flatMap.mp member
  have led := run.grouped.led group among
  rw [size_workload run.resolves] at led
  cases side with
  | closing => exact led.known entry member id source
  | opening =>
    rcases List.mem_append.mp member with inside | boundary
    · exact led.known entry (List.mem_append_left _ inside) id source
    · obtain rfl := List.mem_singleton.mp boundary
      exact led.known group.boundary (List.mem_append_right _ (List.mem_singleton_self _)) id source

/-- As late as possible, the parts of an operation are those of the opposite one, turned around.

**Proof sketch.** Turning the groups around turns the list of their entries around, with the
boundary of each group in front of its entries, so the parts are those of the opposite operation
turned around (`partsOf_mirrored`). Either all of them are timesteps or none is, and so the side of
the boundaries does not matter (`Group.partsOf_toList`). -/
lemma Program.LockStepRun.partsOf_turned
    (run : reversal.program.LockStepRun table rule .opening last)
    (reversed : program.ReversedBy table reversal)
    (stepped : LockStepped program.numResources 0 (last.turned reversal) last.elapsed)
    (inside : id < program.size) :
    partsOf id ((last.turned reversal).flatMap Group.toList) =
      (partsOf (program.flip id) (stampedEntries .opening last.groups)).reverse.map
        (Entry.mirrored last.elapsed reversal.origin?) := by
  have came : ∀ entry ∈ stampedEntries .opening last.groups,
      entry.source.bind reversal.origin? = some id ↔ entry.source = some (program.flip id) :=
    fun entry member => reversed.bind_origin_eq_some_iff inside fun place source =>
      reversed.size ▸ run.lt_size member source
  have parts : partsOf id ((last.turned reversal).flatMap Group.opened) =
      (partsOf (program.flip id) (stampedEntries .opening last.groups)).reverse.map
        (Entry.mirrored last.elapsed reversal.origin?) := by
    have turned := map_mirrored_reverse_toList last.elapsed reversal.origin?
      (last.groups.map (Group.stamped .opening))
    rw [List.flatMap_map, ← List.map_reverse, List.map_map] at turned
    rw [← partsOf_mirrored came]
    exact congrArg (partsOf id) turned.symm
  obtain ⟨operation, ticks, -, -, kept⟩ := run.kept (reversed.size ▸ flip_lt inside)
  have alike : ∀ part ∈ partsOf id ((last.turned reversal).flatMap Group.opened),
      part.operation.isTimestep = operation.isTimestep := by
    intro part member
    rw [parts] at member
    obtain ⟨before, found, rfl⟩ := List.mem_map.mp member
    exact kept.isTimestep_eq before (List.mem_reverse.mp found)
  refine (partsOf_flatMap_toList ?_ ?_ alike).trans parts
  · intro group member
    obtain ⟨_, _, spans⟩ := stepped.exists_spans group member
    exact spans.isTimestep_boundary
  · intro group member entry inside
    obtain ⟨_, _, spans⟩ := stepped.exists_spans group member
    exact (spans.plain entry inside).1

end Timetable
