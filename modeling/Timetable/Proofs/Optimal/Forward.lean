import Timetable.Proofs.GapFree.Forward
import Timetable.Proofs.Precedence.Order

/-!
# The forward pass starts every operation as early as possible

An assignment of starts is feasible if whatever an operation requires has finished when it starts.
The forward pass places an operation at the latest tick up to which something that it requires is
known to last: an immediate predecessor, or the last operation placed on one of its resources.
Padding does not count here, as it never covers a resource beyond the start of the operation that
it was made for. So the starts are feasible, and no feasible assignment starts an operation
earlier.

## Main definitions

* `Program.Feasible`, `Program.makespan` — assignments of starts, and when they are through.
* `Front.Earliest` — the operations placed so far are placed as early as possible.

## Main results

* `Front.Earliest.place` — placing one more operation.
* `Program.exists_forward` — the forward pass succeeds, and starts everything as early as
  possible.
-/

set_option autoImplicit false

namespace Timetable

open Relation

/-- Starts for the operations of a program are feasible if whatever an operation requires has
finished when it starts. -/
def Program.Feasible (program : Program) (duration start : OpId → Tick) : Prop :=
  ∀ before after, program.Requires before after → start before + duration before ≤ start after

/-- The tick at which all operations have finished. -/
def Program.makespan (program : Program) (duration start : OpId → Tick) : Tick :=
  latest (program.ids.map fun id => start id + duration id)

namespace Front

variable {program : Program} {duration : OpId → Tick} {front : Front} {done : List OpId} {job : Job}

/-! ## Placing one operation -/

/-- The tick at which the pass starts an operation. -/
def due (precedence : Precedence) (front : Front) (job : Job) : Tick :=
  max (front.timeline.earliest job.operation.resources)
    (latest ((precedence.preds job.id).map front.finishOf))

/-- An operation is started when its resources are free and its immediate predecessors have
finished. -/
lemma due_le_iff {precedence : Precedence} {tick : Tick} : front.due precedence job ≤ tick ↔
    (∀ resource ∈ job.operation.resources, front.timeline.free resource ≤ tick) ∧
      ∀ before, precedence.Edge before job.id → front.finishOf before ≤ tick := by
  rw [due, Nat.max_le, Timeline.earliest_le_iff, latest_le_iff, List.forall_mem_map]
  rfl

/-- What the pass writes for an operation. -/
lemma entries_place (precedence : Precedence) (front : Front) (job : Job) :
    (place precedence front job).entries =
      front.entries ++ front.timeline.gaps job.operation.resources (front.due precedence job) ++
        [⟨job.operation, front.due precedence job, job.ticks, some job.id⟩] := rfl

/-- Placing an operation takes its resources to its end. -/
lemma free_place (precedence : Precedence)
    (declared : ∀ resource ∈ job.operation.resources, resource < front.timeline.nextFree.size)
    (resource : Resource) :
    (place precedence front job).timeline.free resource =
      if resource ∈ job.operation.resources then front.due precedence job + job.ticks
      else front.timeline.free resource := by
  have declared' : ∀ resource ∈ job.operation.resources, resource <
      (front.timeline.pad job.operation.resources (front.due precedence job)).nextFree.size := by
    intro other used
    rw [Timeline.size_pad]
    exact declared other used
  refine (Timeline.free_occupy declared' _ _ resource).trans ?_
  split
  · rfl
  · rename_i unused
    rw [Timeline.free_pad declared, if_neg unused]

/-- Placing an operation sets its finish. -/
lemma finishOf_place (precedence : Precedence) (inside : job.id < front.finish.size) (id : OpId) :
    (place precedence front job).finishOf id =
      if id = job.id then front.due precedence job + job.ticks else front.finishOf id := by
  unfold finishOf place due
  by_cases same : id = job.id
  · subst same
    simp [inside]
  · simp [same, Ne.symm same]

/-! ## What was placed -/

/-- The entries record exactly the operations `done`, with their durations and finishes. -/
structure Records (duration : OpId → Tick) (done : List OpId) (front : Front) : Prop where
  source : ∀ entry ∈ front.entries, ∀ id, entry.source = some id →
    id ∈ done ∧ entry.duration = duration id ∧ entry.stop = front.finishOf id
  placed : ∀ id ∈ done, ∃ entry ∈ front.entries, entry.source = some id

/-- Placing a further operation leaves the finishes of the others as they are. -/
lemma finishOf_place_of_mem (precedence : Precedence) (inside : job.id < front.finish.size)
    (fresh : job.id ∉ done) {id : OpId} (placed : id ∈ done) :
    (place precedence front job).finishOf id = front.finishOf id := by
  rw [finishOf_place precedence inside, if_neg (ne_of_mem_of_not_mem placed fresh)]

/-- The pass records the operation that it places.

**Proof sketch.** The entries are those from before, idle time and the new one. The finish of the
job is set by placing it, and that of every other operation stays, as the job was not placed
before. -/
lemma Records.place (records : Records duration done front) (precedence : Precedence)
    (inside : job.id < front.finish.size) (ticks : job.ticks = duration job.id)
    (fresh : job.id ∉ done) :
    Records duration (done ++ [job.id]) (place precedence front job) := by
  constructor
  · intro entry member id source
    rw [entries_place, List.mem_append, List.mem_append, List.mem_singleton] at member
    rcases member with (before | gap) | rfl
    · obtain ⟨placed, same, stop⟩ := records.source entry before id source
      refine ⟨List.mem_append_left _ placed, same, stop.trans ?_⟩
      exact (finishOf_place_of_mem precedence inside fresh placed).symm
    · obtain ⟨_, -, _, _, -, -, rfl⟩ := Timeline.mem_gaps gap
      cases source
    · cases source
      refine ⟨List.mem_append_right _ (List.mem_singleton_self _), ticks, ?_⟩
      rw [finishOf_place precedence inside, if_pos rfl]
      rfl
  · intro id placed
    rw [entries_place]
    rcases List.mem_append.mp placed with before | here
    · obtain ⟨entry, member, source⟩ := records.placed id before
      exact ⟨entry, List.mem_append_left _ (List.mem_append_left _ member), source⟩
    · obtain rfl := List.mem_singleton.mp here
      exact ⟨_, List.mem_append_right _ (List.mem_singleton_self _), rfl⟩

/-! ## Everything placed so far is placed as early as possible -/

/-- Exactly the operations `done` were placed. They are placed feasibly, and no feasible assignment
finishes one of them earlier. Every resource is free when the last of them that uses it has
finished. -/
structure Earliest (program : Program) (duration : OpId → Tick) (done : List OpId)
    (front : Front) : Prop where
  tiled : front.Tiled program.numResources
  finish_size : front.finish.size = program.size
  records : front.Records duration done
  finishOf_le_free : ∀ id ∈ done, ∀ resource, program.uses id resource →
    front.finishOf id ≤ front.timeline.free resource
  free_eq : ∀ resource, front.timeline.free resource = 0 ∨
    ∃ id ∈ done, program.uses id resource ∧ front.timeline.free resource = front.finishOf id
  feasible : ∀ before after, program.Requires before after → after ∈ done →
    before ∈ done ∧ front.finishOf before + duration after ≤ front.finishOf after
  minimal : ∀ start, program.Feasible duration start → ∀ id ∈ done,
    front.finishOf id ≤ start id + duration id

/-- Nothing was placed yet. -/
lemma earliest_start (program : Program) (duration : OpId → Tick) :
    Earliest program duration [] (start program) := by
  refine ⟨tiled_start program, by simp [start], ⟨by simp [start], by simp⟩, by simp,
    fun resource => .inl ?_, by simp, by simp⟩
  exact Timeline.free_start _ _ resource

/-- Whatever comes before an operation that was placed was placed. -/
lemma Earliest.mem_of_transGen (earliest : Earliest program duration done front)
    (physical : program.violation? = none) {before after : OpId}
    (chain : TransGen program.precedence.Edge before after) (placed : after ∈ done) :
    before ∈ done := by
  induction chain with
  | single edge => exact (earliest.feasible _ _ (Program.requires_of_edge physical edge) placed).1
  | tail _ edge ih =>
    exact ih (earliest.feasible _ _ (Program.requires_of_edge physical edge) placed).1

/-- Whatever an operation requires was placed if its immediate predecessors were. -/
lemma Earliest.mem_of_requires (earliest : Earliest program duration done front)
    (closed : program.Closed) (physical : program.violation? = none) {before after : OpId}
    (ready : ∀ before, program.precedence.Edge before after → before ∈ done)
    (required : program.Requires before after) : before ∈ done := by
  cases Program.transGen_edge closed required with
  | single edge => exact ready before edge
  | tail chain edge => exact earliest.mem_of_transGen physical chain (ready _ edge)

/-- The pass starts an operation no later than any feasible assignment.

**Proof sketch.** An operation placed on the same resource comes before it in the program, as
otherwise it would itself require the one that is placed now. So both are required, the last
operation on the resource and the immediate predecessors, and were finished as early as
possible. -/
lemma Earliest.due_le (earliest : Earliest program duration done front)
    (physical : program.violation? = none) (fresh : job.id ∉ done)
    (found : program.operation? job.id = some job.operation)
    (ready : ∀ before, program.precedence.Edge before job.id → before ∈ done)
    {begin : OpId → Tick} (feasible : program.Feasible duration begin) :
    front.due program.precedence job ≤ begin job.id := by
  have uses : ∀ resource ∈ job.operation.resources, program.uses job.id resource :=
    fun resource used => Program.uses_iff.mpr ⟨_, found, used⟩
  refine due_le_iff.mpr ⟨fun resource used => ?_, fun before edge => ?_⟩
  · rcases earliest.free_eq resource with zero | ⟨id, placed, uses', same⟩
    · exact zero ▸ Nat.zero_le _
    · have distinct : id ≠ job.id := fun same => fresh (same ▸ placed)
      rcases Nat.lt_or_gt_of_ne distinct with smaller | greater
      · have required : program.Requires id job.id :=
          .inr ⟨smaller, resource, uses', uses resource used⟩
        exact same ▸ (earliest.minimal begin feasible id placed).trans (feasible _ _ required)
      · have required : program.Requires job.id id :=
          .inr ⟨greater, resource, uses resource used, uses'⟩
        exact absurd (earliest.feasible _ _ required placed).1 fresh
  · have required := Program.requires_of_edge physical edge
    exact (earliest.minimal begin feasible before (ready before edge)).trans (feasible _ _ required)

/-- The pass starts an operation no earlier than whatever it requires has finished. -/
lemma Earliest.finishOf_le_due (earliest : Earliest program duration done front)
    (found : program.operation? job.id = some job.operation) {before : OpId}
    (placed : before ∈ done) (required : program.Requires before job.id) :
    front.finishOf before ≤ front.due program.precedence job := by
  obtain ⟨free, finished⟩ := due_le_iff.mp (le_refl (front.due program.precedence job))
  rcases required with known | ⟨-, resource, uses, uses'⟩
  · exact finished before
      (Program.edge_iff.mpr ⟨Program.lt_size_of_operation? found, .inr known⟩)
  · obtain ⟨operation, found', used⟩ := Program.uses_iff.mp uses'
    cases found.symm.trans found'
    exact (earliest.finishOf_le_free before placed resource uses).trans (free resource used)

section Place

variable (earliest : Earliest program duration done front)
  (found : program.operation? job.id = some job.operation)

include earliest found

/-- Placing an operation leaves the finishes of those that were placed as they are. -/
lemma Earliest.finishOf_old (fresh : job.id ∉ done) {id : OpId} (placed : id ∈ done) :
    (place program.precedence front job).finishOf id = front.finishOf id :=
  finishOf_place_of_mem program.precedence
    (earliest.finish_size ▸ Program.lt_size_of_operation? found) fresh placed

/-- An operation finishes as long after it was due as it lasts. -/
lemma Earliest.finishOf_new (ticks : job.ticks = duration job.id) :
    (place program.precedence front job).finishOf job.id =
      front.due program.precedence job + duration job.id := by
  rw [finishOf_place program.precedence
    (earliest.finish_size ▸ Program.lt_size_of_operation? found), if_pos rfl, ticks]

/-- Placing an operation takes its resources to the tick at which it finishes. -/
lemma Earliest.free_place (wellFormed : program.WellFormed) (ticks : job.ticks = duration job.id)
    (resource : Resource) : (place program.precedence front job).timeline.free resource =
      if program.uses job.id resource then (place program.precedence front job).finishOf job.id
      else front.timeline.free resource := by
  have declared : ∀ resource ∈ job.operation.resources,
      resource < front.timeline.nextFree.size := fun resource used =>
    earliest.tiled.size ▸ wellFormed.declared _ (Program.mem_operations_of_operation? found)
      resource used
  have uses : program.uses job.id resource ↔ resource ∈ job.operation.resources := by
    simp [Program.uses, found]
  rw [Front.free_place program.precedence declared, earliest.finishOf_new found ticks, ticks]
  exact if_congr uses.symm rfl rfl

/-- Whatever was placed has finished when its resources become free.

**Proof sketch.** A resource of the new operation moves on, as it was free by the due tick, and ends
where the operation finishes. No other resource moves. -/
lemma Earliest.finishOf_le_free_place (wellFormed : program.WellFormed)
    (ticks : job.ticks = duration job.id) (fresh : job.id ∉ done) {id : OpId}
    (placed : id ∈ done ++ [job.id]) {resource : Resource} (uses : program.uses id resource) :
    (place program.precedence front job).finishOf id ≤
      (place program.precedence front job).timeline.free resource := by
  rw [earliest.free_place found wellFormed ticks]
  rcases List.mem_append.mp placed with before | here
  · have bound := earliest.finishOf_le_free id before resource uses
    rw [earliest.finishOf_old found fresh before]
    split
    · -- the resource was free by the due tick, and has moved on since
      rename_i uses'
      obtain ⟨operation, found', used⟩ := Program.uses_iff.mp uses'
      cases found.symm.trans found'
      have due := (due_le_iff.mp (le_refl (front.due program.precedence job))).1 resource used
      rw [earliest.finishOf_new found ticks]
      lia
    · exact bound
  · obtain rfl := List.mem_singleton.mp here
    rw [if_pos uses]

/-- What is required has finished when an operation that was placed begins. -/
lemma Earliest.feasible_place (wellFormed : program.WellFormed)
    (physical : program.violation? = none) (ticks : job.ticks = duration job.id)
    (fresh : job.id ∉ done)
    (ready : ∀ before, program.precedence.Edge before job.id → before ∈ done)
    {before after : OpId} (required : program.Requires before after)
    (placed : after ∈ done ++ [job.id]) :
    before ∈ done ++ [job.id] ∧
      (place program.precedence front job).finishOf before + duration after ≤
        (place program.precedence front job).finishOf after := by
  rcases List.mem_append.mp placed with old | here
  · obtain ⟨placed', bound⟩ := earliest.feasible before after required old
    rw [earliest.finishOf_old found fresh placed', earliest.finishOf_old found fresh old]
    exact ⟨List.mem_append_left _ placed', bound⟩
  · obtain rfl := List.mem_singleton.mp here
    have placed' := earliest.mem_of_requires wellFormed.toClosed physical ready required
    have bound := earliest.finishOf_le_due found placed' required
    rw [earliest.finishOf_old found fresh placed', earliest.finishOf_new found ticks]
    exact ⟨List.mem_append_left _ placed', Nat.add_le_add_right bound _⟩

end Place

/-- Placing one more operation, after everything that it requires.

**Proof sketch.** The job starts at its due tick, which is a tick at which a resource becomes free
or a predecessor has finished. All of these are ends of operations that the job requires, so the
start is feasible (`feasible_place`). A feasible assignment starts what is required no earlier than
here, by the invariant, so it starts the job no earlier than the due tick (`due_le`). -/
theorem Earliest.place (earliest : Earliest program duration done front)
    (wellFormed : program.WellFormed) (physical : program.violation? = none)
    (found : program.operation? job.id = some job.operation) (ticks : job.ticks = duration job.id)
    (fresh : job.id ∉ done)
    (ready : ∀ before, program.precedence.Edge before job.id → before ∈ done) :
    Earliest program duration (done ++ [job.id]) (place program.precedence front job) := by
  have known := Program.mem_operations_of_operation? found
  have declared := wellFormed.declared _ known
  have inside : job.id < front.finish.size :=
    earliest.finish_size ▸ Program.lt_size_of_operation? found
  refine
    { tiled := earliest.tiled.place _ declared (wellFormed.touching _ known)
      finish_size := by simp [Front.place, earliest.finish_size]
      records := earliest.records.place _ inside ticks fresh
      finishOf_le_free := fun id placed resource =>
        earliest.finishOf_le_free_place found wellFormed ticks fresh placed
      free_eq := fun resource => ?free_eq
      feasible := fun before after =>
        earliest.feasible_place found wellFormed physical ticks fresh ready
      minimal := fun begin feasible id placed => ?minimal }
  case free_eq =>
    rw [earliest.free_place found wellFormed ticks]
    split
    · rename_i uses
      exact .inr ⟨job.id, List.mem_append_right _ (List.mem_singleton_self _), uses, rfl⟩
    · rcases earliest.free_eq resource with zero | ⟨id, placed, uses, same⟩
      · exact .inl zero
      · exact .inr ⟨id, List.mem_append_left _ placed, uses,
          same.trans (earliest.finishOf_old found fresh placed).symm⟩
  case minimal =>
    rcases List.mem_append.mp placed with before | here
    · rw [earliest.finishOf_old found fresh before]
      exact earliest.minimal begin feasible id before
    · obtain rfl := List.mem_singleton.mp here
      rw [earliest.finishOf_new found ticks]
      exact Nat.add_le_add_right (earliest.due_le physical fresh found ready feasible) _

/-- Placing all operations in an order that respects precedence.

**Proof sketch.** Induction on the jobs that are left. As the order respects precedence, whatever
comes before a job has been placed. -/
lemma Earliest.foldl_place {order : List OpId} {jobs : List Job}
    (earliest : Earliest program duration done front) (wellFormed : program.WellFormed)
    (physical : program.violation? = none) (respects : program.precedence.Respects order)
    (nodup : order.Nodup) (split : order = done ++ jobs.map Job.id)
    (known : ∀ job ∈ jobs, program.operation? job.id = some job.operation ∧
      job.ticks = duration job.id) :
    Earliest program duration order (jobs.foldl (Front.place program.precedence) front) := by
  induction jobs generalizing done front with
  | nil =>
    rw [List.map_nil, List.append_nil] at split
    exact split ▸ earliest
  | cons job jobs ih =>
    obtain ⟨found, ticks⟩ := known job List.mem_cons_self
    have fresh : job.id ∉ done := by
      intro placed
      rw [split] at nodup
      exact (List.nodup_append.mp nodup).2.2 _ placed _ List.mem_cons_self rfl
    have ready : ∀ before, program.precedence.Edge before job.id → before ∈ done :=
      respects done job.id (jobs.map Job.id) split
    refine ih (earliest.place wellFormed physical found ticks fresh ready) ?_
      fun other member => known other (List.mem_cons_of_mem _ member)
    rw [split, List.append_assoc]
    rfl

/-- Everything has finished at the latest end of an entry, which idle time does not exceed.

**Proof sketch.** Every entry uses a resource and ends no later than that resource becomes free,
which is at tick zero or where a placed operation has finished. Conversely every placed operation
has an entry that ends where it has finished. -/
lemma Earliest.latestStop_closed (earliest : Earliest program duration done front) :
    latestStop front.closed = latest (done.map front.finishOf) := by
  have records := earliest.records
  apply Nat.le_antisymm
  · refine latest_le_iff.mpr ?_
    intro tick found
    obtain ⟨entry, member, rfl⟩ := List.mem_map.mp found
    obtain ⟨resource, used⟩ :=
      List.exists_mem_of_ne_nil _ (earliest.tiled.touching_closed entry member)
    refine (earliest.tiled.closed.stop_le member used).trans (latest_le_iff.mpr fun tick free => ?_)
    obtain ⟨place, inside, rfl⟩ := List.getElem_of_mem free
    have same : front.timeline.nextFree.toList[place] = front.timeline.free place := by
      simp only [Array.length_toList] at inside
      simp [Timeline.free, inside]
    rw [same]
    rcases earliest.free_eq place with zero | ⟨id, placed, -, finished⟩
    · exact zero ▸ Nat.zero_le _
    · exact finished ▸ le_latest (List.mem_map_of_mem placed)
  · refine latest_le_iff.mpr ?_
    intro tick found
    obtain ⟨id, placed, rfl⟩ := List.mem_map.mp found
    obtain ⟨entry, member, source⟩ := records.placed id placed
    rw [← (records.source entry member id source).2.2]
    exact le_latest (List.mem_map_of_mem (List.mem_append_left _ member))

end Front

/-! ## The pass -/

/-- Some entries are those of a schedule that gives the operations of a program the given
durations and starts. -/
structure Program.Realizes (program : Program) (duration start : OpId → Tick)
    (entries : List Entry) : Prop where
  source : ∀ entry ∈ entries, ∀ id, entry.source = some id →
    id < program.size ∧ entry.duration = duration id ∧ entry.start = start id
  placed : ∀ id < program.size, ∃ entry ∈ entries, entry.source = some id

/-- The start of an operation can be read off the schedule. -/
lemma Program.Realizes.startOf {program : Program} {duration start : OpId → Tick}
    {schedule : Schedule} (realizes : program.Realizes duration start schedule.entries) {id : OpId}
    (inside : id < program.size) : schedule.startOf id = some (start id) := by
  obtain ⟨entry, member, source⟩ := realizes.placed id inside
  have some_found : (schedule.entries.find? fun entry => entry.source = some id).isSome :=
    List.find?_isSome.mpr ⟨entry, member, by simpa using source⟩
  obtain ⟨found, found_eq⟩ := Option.isSome_iff_exists.mp some_found
  have source' : found.source = some id := by simpa using List.find?_some found_eq
  rw [Schedule.startOf, found_eq, Option.map_some,
    (realizes.source found (List.mem_of_find?_eq_some found_eq) id source').2.2]

/-- Feasible starts of which no feasible assignment gives an operation an earlier one. -/
structure Program.EarliestStart (program : Program) (duration start : OpId → Tick) : Prop where
  feasible : program.Feasible duration start
  minimal : ∀ other, program.Feasible duration other → ∀ id < program.size, start id ≤ other id

/-- The start of an operation that was placed. -/
def Front.startOf (front : Front) (duration : OpId → Tick) (id : OpId) : Tick :=
  front.finishOf id - duration id

namespace Front.Earliest

variable {program : Program} {duration : OpId → Tick} {front : Front} {done : List OpId}

/-- An operation that was placed lasts from its start to its finish. -/
lemma startOf_add (earliest : Earliest program duration done front) {id : OpId}
    (placed : id ∈ done) : front.startOf duration id + duration id = front.finishOf id := by
  obtain ⟨entry, member, source⟩ := earliest.records.placed id placed
  obtain ⟨-, lasts, stop⟩ := earliest.records.source entry member id source
  rw [startOf, ← stop, Entry.stop, lasts, Nat.add_sub_cancel]

/-- The entries realize the starts. -/
lemma realizes (earliest : Earliest program duration done front)
    (all : ∀ id, id ∈ done ↔ id < program.size) :
    program.Realizes duration (front.startOf duration) front.closed := by
  constructor
  · intro entry member id source
    rcases List.mem_append.mp member with placed | gap
    · obtain ⟨among, lasts, stop⟩ := earliest.records.source entry placed id source
      refine ⟨(all id).mp among, lasts, ?_⟩
      rw [startOf, ← stop, Entry.stop, lasts, Nat.add_sub_cancel]
    · obtain ⟨_, -, _, _, -, -, rfl⟩ := Timeline.mem_gaps gap
      cases source
  · intro id inside
    obtain ⟨entry, member, source⟩ := earliest.records.placed id ((all id).mpr inside)
    exact ⟨entry, List.mem_append_left _ member, source⟩

/-- The starts are the earliest feasible ones. -/
lemma earliestStart (earliest : Earliest program duration done front)
    (closed : program.Closed) (all : ∀ id, id ∈ done ↔ id < program.size) :
    program.EarliestStart duration (front.startOf duration) := by
  constructor
  · intro before after required
    have placed := (all after).mpr (closed.lt_size_of_requires required).2
    obtain ⟨placed', bound⟩ := earliest.feasible before after required placed
    rw [earliest.startOf_add placed']
    exact Nat.le_sub_of_add_le bound
  · intro other feasible id inside
    exact Nat.sub_le_of_le_add (earliest.minimal other feasible id ((all id).mpr inside))

/-- The latest end of an entry is the tick at which all operations have finished. -/
lemma latestStop_eq_makespan (earliest : Earliest program duration done front)
    (perm : done.Perm program.ids) :
    latestStop front.closed = program.makespan duration (front.startOf duration) := by
  have finish : ∀ id ∈ done, front.finishOf id = front.startOf duration id + duration id :=
    fun id placed => (earliest.startOf_add placed).symm
  rw [earliest.latestStop_closed, List.map_congr_left finish]
  exact latest_perm (perm.map _)

end Front.Earliest

/-- The forward pass succeeds if there is an order and all durations are known. -/
lemma Program.forward_of_ordered {program : Program} {table : DurationTable} {order : List OpId}
    (closed : program.Closed) (physical : program.violation? = none)
    (ordered : program.precedence.order = .ok order)
    (resolves : (program.resolve table order).failure = none) :
    (program.forward table).result = .ok (.sealedFor program
      (Front.after program (program.resolve table order).jobs).closed
      (program.resolve table order).anomalies) := by
  simp only [forward, Program.ordered, physical, closed.undeclared?, ordered, resolves,
    Front.after]

/-- **As soon as possible.** The forward pass schedules every physical program without circular
dependencies whose durations are known. It starts everything at the earliest feasible tick, and the
latest end of an entry is the tick at which all operations have finished.

**Proof sketch.** Acyclicity is that of the explicit edges and of sharing, which precedence closes
(`transGen_edge_eq`), so there is an order. All durations are known, so that the jobs are the
operations in that order, and placing them keeps `Earliest`. -/
theorem Program.exists_forward {program : Program} {table : DurationTable} {duration : OpId → Tick}
    (wellFormed : program.WellFormed) (physical : program.violation? = none)
    (acyclic : program.Acyclic) (lasts : program.Lasts table duration) :
    ∃ schedule start, (program.forward table).result = .ok schedule ∧
      program.Realizes duration start schedule.entries ∧ program.EarliestStart duration start ∧
      schedule.total = program.makespan duration start := by
  have sound := wellFormed.toClosed.precedence_sound
  have acyclic' : ∀ id, ¬ TransGen program.precedence.Edge id id := by
    rw [transGen_edge_eq wellFormed.toClosed physical]
    exact acyclic
  obtain ⟨order, ordered⟩ := Precedence.exists_order sound acyclic'
  obtain ⟨perm, respects⟩ := Precedence.order_eq_ok sound ordered
  rw [size_precedence] at perm
  have all : ∀ id, id ∈ order ↔ id < program.size := fun id => perm.mem_iff.trans List.mem_range
  have known : ∀ id ∈ order, id < program.size := fun id => (all id).mp
  obtain ⟨resolves, -⟩ := resolve_of_lasts lasts known
  have ids := ids_of_resolve known resolves
  have jobs : ∀ job ∈ (program.resolve table order).jobs,
      program.operation? job.id = some job.operation ∧ job.ticks = duration job.id := by
    intro job member
    obtain ⟨-, found, ticks⟩ := mem_jobs member
    have same := lasts job.id (lt_size_of_operation? found)
    exact ⟨found, Option.some.inj (ticks.symm.trans same)⟩
  have earliest := (Front.earliest_start program duration).foldl_place wellFormed physical respects
    (perm.nodup_iff.mpr List.nodup_range) (by rw [ids, List.nil_append]) jobs
  exact ⟨_, _, forward_of_ordered wellFormed.toClosed physical ordered resolves,
    earliest.realizes all, earliest.earliestStart wellFormed.toClosed all,
    earliest.latestStop_eq_makespan perm⟩

end Timetable
