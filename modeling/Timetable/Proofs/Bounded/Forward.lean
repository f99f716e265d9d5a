import Mathlib.Algebra.BigOperators.Group.List.Basic
import Mathlib.Algebra.GroupWithZero.Nat
import Timetable.Proofs.Bounded.Timeline
import Timetable.Proofs.Optimal.Forward

/-!
# The forward pass within a limit

While operations are placed, no resource is taken and no operation finishes later than all durations
so far add up to. What is still to come therefore always fits if all durations together do.

## Main definitions

* `Front.placeWithin`, `Program.forwardWithin` — the pass with arithmetic within a limit.
* `Front.OverBy` — all that was placed is over at a tick.

## Main results

* `Front.OverBy.place` — placing an operation takes no longer than the operation.
* `Program.Closed.forwardWithin_eq` — the pass within the sum of all durations.
-/

set_option autoImplicit false

namespace Timetable

variable {limit : Tick} {program : Program} {table : DurationTable} {duration : OpId → Tick}

namespace Front

/-- Places an operation as soon as its resources and its predecessors allow, with arithmetic within
a limit. -/
def placeWithin (limit : Tick) (precedence : Precedence) (front : Front) (job : Job) :
    Option Front := do
  let resources := job.operation.resources
  let start := front.due precedence job
  let gaps ← front.timeline.gapsWithin limit resources start
  let timeline ← (front.timeline.pad resources start).occupyWithin limit resources start job.ticks
  let finish ← Tick.add? limit start job.ticks
  let entry : Entry := ⟨job.operation, start, job.ticks, some job.id⟩
  return {
    timeline
    finish := front.finish.setIfInBounds job.id finish
    entries := front.entries ++ gaps ++ [entry]
    notes := front.notes.push (.placed entry job.id gaps.length) }

/-- The entries, followed by the idle time that covers all resources up to the latest finish, with
arithmetic within a limit. -/
def closedWithin (limit : Tick) (front : Front) : Option (List Entry) := do
  let gaps ← front.timeline.gapsWithin limit front.timeline.resources front.timeline.horizon
  return front.entries ++ gaps

/-- All that was placed so far is over at a tick. -/
structure OverBy (tick : Tick) (front : Front) : Prop where
  origin : front.timeline.origin = 0
  free_le : ∀ resource, front.timeline.free resource ≤ tick
  finish_le : ∀ id, front.finishOf id ≤ tick
  stop_le : ∀ entry ∈ front.entries, entry.stop ≤ tick

namespace OverBy

variable {front : Front} {job : Job} {jobs : List Job} {tick : Tick}

/-- At the start everything is over. -/
lemma start (program : Program) : OverBy 0 (Front.start program) where
  origin := rfl
  free_le := fun resource => (Timeline.free_start _ _ resource).le
  finish_le := fun id => by
    by_cases inside : id < program.size <;> simp [finishOf, Front.start, inside]
  stop_le := by simp [Front.start]

/-- An operation can start when all that was placed is over. -/
lemma due_le (ended : OverBy tick front) (precedence : Precedence) (job : Job) :
    front.due precedence job ≤ tick :=
  due_le_iff.mpr ⟨fun resource _ => ended.free_le resource, fun before _ => ended.finish_le before⟩

/-- An operation can be placed if there is room for it when all that was placed is over. -/
lemma placeWithin_eq (ended : OverBy tick front) (fits : tick + job.ticks ≤ limit)
    (precedence : Precedence) :
    front.placeWithin limit precedence job = some (front.place precedence job) := by
  have start := ended.due_le precedence job
  have gaps : front.timeline.origin + front.due precedence job ≤ limit := by
    rw [ended.origin]
    lia
  have ends : front.due precedence job + job.ticks ≤ limit := by lia
  simp only [placeWithin, Timeline.gapsWithin_eq gaps, Timeline.occupyWithin_eq ends,
    Tick.add?_eq ends]
  rfl

/-- After placing an operation, all is over as much later as the operation lasts.

**Proof sketch.** The operation starts when all it waits for is over, so no later than `tick`, and
ends at most its duration later. Padding takes resources to its start, occupying them to its end,
and idle time fills in at most up to its start; everything else is as it was. -/
theorem place (ended : OverBy tick front) (precedence : Precedence) (job : Job) :
    OverBy (tick + job.ticks) (front.place precedence job) := by
  have start := ended.due_le precedence job
  have later : tick ≤ tick + job.ticks := Nat.le_add_right _ _
  have ends : front.due precedence job + job.ticks ≤ tick + job.ticks :=
    Nat.add_le_add_right start _
  refine ⟨?_, fun resource => ?_, fun id => ?_, fun entry member => ?_⟩
  · show ((front.timeline.pad _ _).occupy _ _ _).origin = 0
    rw [Timeline.origin_occupy, Timeline.origin_pad, ended.origin]
  · exact Timeline.free_occupy_le (Timeline.free_pad_le
      (fun other => (ended.free_le other).trans later) (start.trans later)) ends resource
  · exact getD_setIfInBounds_le (fun other => (ended.finish_le other).trans later) ends job.id id
  · have entries : (front.place precedence job).entries = front.entries ++
        front.timeline.gaps job.operation.resources (front.due precedence job) ++
          [⟨job.operation, front.due precedence job, job.ticks, some job.id⟩] := rfl
    rw [entries, List.mem_append, List.mem_append, List.mem_singleton] at member
    rcases member with (old | gap) | rfl
    · exact (ended.stop_le entry old).trans later
    · obtain ⟨_, -, _, _, -, within, rfl⟩ := Timeline.mem_gaps gap
      rw [ended.origin, Nat.zero_add] at within
      exact within.trans (start.trans later)
    · exact ends

/-- All jobs can be placed one after the other if there is room for all of them. -/
lemma foldlM_placeWithin (ended : OverBy tick front)
    (fits : tick + (jobs.map Job.ticks).sum ≤ limit) (precedence : Precedence) :
    jobs.foldlM (placeWithin limit precedence) front =
        some (jobs.foldl (Front.place precedence) front) ∧
      OverBy limit (jobs.foldl (Front.place precedence) front) := by
  induction jobs generalizing front tick with
  | nil =>
    have later : tick ≤ limit := fits
    exact ⟨rfl, ended.origin, fun resource => (ended.free_le resource).trans later,
      fun id => (ended.finish_le id).trans later,
      fun entry member => (ended.stop_le entry member).trans later⟩
  | cons job jobs ih =>
    rw [List.map_cons, List.sum_cons, ← Nat.add_assoc] at fits
    have room : tick + job.ticks ≤ limit := (Nat.le_add_right _ _).trans fits
    rw [List.foldlM_cons, ended.placeWithin_eq room, List.foldl_cons]
    exact ih (ended.place precedence job) fits

/-- When everything was placed, all resources can be covered up to the latest finish.

**Proof sketch.** The horizon is the latest tick at which a resource becomes free, and none of these
passes the limit. Idle time at the end stops at the horizon. -/
lemma closedWithin_eq (ended : OverBy limit front) :
    front.closedWithin limit = some front.closed ∧ latestStop front.closed ≤ limit := by
  have horizon : front.timeline.origin + front.timeline.horizon ≤ limit := by
    rw [ended.origin, Nat.zero_add]
    refine latest_le_iff.mpr fun tick member => ?_
    obtain ⟨resource, inside, rfl⟩ := List.mem_iff_getElem.mp member
    have free := ended.free_le resource
    rwa [Timeline.free, ← Array.getElem?_toList, List.getElem?_eq_getElem inside] at free
  refine ⟨?_, latestStop_le_iff.mpr fun entry member => ?_⟩
  · rw [closedWithin, Timeline.gapsWithin_eq horizon]
    rfl
  · rcases List.mem_append.mp member with old | gap
    · exact ended.stop_le entry old
    · obtain ⟨_, -, _, _, -, within, rfl⟩ := Timeline.mem_gaps gap
      exact within.trans horizon

end OverBy

end Front

namespace Program

/-- Schedules a program as soon as possible, with arithmetic within a limit. -/
def forwardWithin (limit : Tick) (program : Program) (table : DurationTable) : Option Run :=
  match program.ordered with
  | .error e => some (.failed program e)
  | .ok (precedence, order) => do
    let resolution := program.resolve table order
    let front ← resolution.jobs.foldlM (Front.placeWithin limit precedence) (Front.start program)
    let notes := #[.order program.name order] ++ front.notes
    match resolution.failure with
    | some e => return { program := resolution.program, notes, result := .error (.duration e) }
    | none =>
      let entries ← front.closedWithin limit
      let schedule ← Schedule.sealedForWithin limit program entries resolution.anomalies
      return { program := resolution.program, notes, result := .ok schedule }

/-- How long all operations of a program take one after the other. -/
def totalDuration (program : Program) (duration : OpId → Tick) : Tick :=
  (program.ids.map duration).sum

/-- The jobs of some operations take as long as the operations. -/
lemma sum_ticks_job? {ids : List OpId} (known : ∀ id ∈ ids, id < program.size) :
    ((ids.filterMap (program.job? duration)).map Job.ticks).sum = (ids.map duration).sum := by
  induction ids with
  | nil => rfl
  | cons id ids ih =>
    obtain ⟨inside, known⟩ := List.forall_mem_cons.mp known
    obtain ⟨operation, found⟩ := Option.isSome_iff_exists.mp (operation?_isSome_iff.mpr inside)
    have job : program.job? duration id = some ⟨id, operation, duration id⟩ := by
      rw [job?, found, Option.map_some]
    rw [List.filterMap_cons_some job, List.map_cons, List.sum_cons, ih known, List.map_cons,
      List.sum_cons]

/-- The forward pass never computes a tick beyond the sum of all durations.

**Proof sketch.** Whatever the order of the operations, the durations of all jobs add up to the
total duration. The invariant `Front.OverBy` starts at tick zero and moves on by each duration
that is placed, so it never passes the limit, and all sums that placing and closing compute are
below it. -/
theorem Closed.forwardWithin_eq (closed : program.Closed) (lasts : program.Lasts table duration)
    (fits : program.totalDuration duration ≤ limit) :
    program.forwardWithin limit table = some (program.forward table) ∧
      ∀ schedule, (program.forward table).result = .ok schedule → schedule.Within limit := by
  unfold forwardWithin forward
  cases ordered : program.ordered with
  | error e => exact ⟨rfl, by simp [Run.failed]⟩
  | ok found =>
    obtain ⟨precedence, order⟩ := found
    obtain ⟨physical, rfl, acyclic⟩ := ordered_eq_ok ordered
    have known := closed.lt_size_of_order acyclic
    obtain ⟨resolves, jobs⟩ := resolve_of_lasts lasts known
    have room : 0 + ((program.resolve table order).jobs.map Job.ticks).sum ≤ limit := by
      rw [Nat.zero_add, jobs, sum_ticks_job? known,
        ((closed.perm_of_order acyclic).map duration).sum_nat]
      exact fits
    obtain ⟨placed, ended⟩ :=
      (Front.OverBy.start program).foldlM_placeWithin room program.precedence
    obtain ⟨closes, ends⟩ := ended.closedWithin_eq
    simp only [placed, resolves, Option.bind_eq_bind, Option.bind_some, closes,
      Schedule.sealedForWithin_eq ends]
    refine ⟨rfl, fun schedule ok => ?_⟩
    cases ok
    exact ⟨rfl, ends⟩

end Program

end Timetable
