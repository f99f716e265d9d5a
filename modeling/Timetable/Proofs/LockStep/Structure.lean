import Timetable.Proofs.LockStep.Passes
import Timetable.Proofs.Policy

/-!
# The structure of lock-step schedules

A lock-step schedule is a sequence of steps. Each is closed by a boundary on all resources, at the
tick at which the lengths of the steps so far end; its entries lie inside it, keep every resource
busy for all of it, and one of them is as long as the step, because the step was made for the
operation it was made from. Only steps that a carried timestep closes are empty, and they take no
time.

## Main definitions

* `timeOn` — how long some entries keep a resource.
* `Group.Fills` — a group is a step that begins at a given tick.
* `InLockStep` — steps that follow each other.

## Main results

* `Program.schedule_inLockStep` — what a lock-step schedule looks like, in both directions of time.
-/

set_option autoImplicit false

namespace Timetable

/-- How long some entries keep a resource. -/
def timeOn (resource : Resource) (entries : List Entry) : Tick :=
  ((entries.filter fun entry => entry.uses resource).map Entry.duration).sum

/-- A group is a step that begins at tick `first`. Its boundary closes it on all resources at its
end, and is the only timestep. The entries lie inside the step and keep every resource for all of
it. One of them was made from an operation and spans the whole step; if there are none, the step
takes no time. -/
structure Group.Fills (numResources : Nat) (first : Tick) (group : Group) : Prop where
  boundary : ∃ source, group.boundary =
    .boundary group.length (List.range numResources) (first + group.length) source
  plain : ∀ entry ∈ group.entries, entry.operation.isTimestep = false
  inside : ∀ entry ∈ group.entries, first ≤ entry.start ∧ entry.stop ≤ first + group.length
  covered : ∀ resource < numResources, timeOn resource group.entries = group.length
  dominated : group.entries ≠ [] → ∃ entry ∈ group.entries, (∃ id, entry.source = some id) ∧
    entry.start = first ∧ entry.stop = first + group.length
  empty : group.entries = [] → group.length = 0

/-- Steps that follow each other from tick `first` on. -/
def InLockStep (numResources : Nat) : (first : Tick) → List Group → Prop
  | _, [] => True
  | first, group :: groups =>
    group.Fills numResources first ∧ InLockStep numResources (first + group.length) groups

variable {numResources size : Nat} {first last : Tick} {group : Group} {groups : List Group}

/-! ## Groups that span some time and are led -/

/-- A tiling keeps a resource busy from the first front to the last.

**Proof sketch.** Induction on the entries. An entry on the resource moves the front by its
duration, and any other one leaves it where it is. -/
lemma Tiles.timeOn {first last : Resource → Tick} {entries : List Entry}
    (tiles : Tiles numResources first entries last) {resource : Resource}
    (declared : resource < numResources) :
    first resource + Timetable.timeOn resource entries = last resource := by
  induction entries generalizing first with
  | nil => exact tiles resource declared
  | cons entry entries ih =>
    have rest := ih tiles.2
    unfold Timetable.timeOn at rest ⊢
    rw [Entry.advance] at rest
    rw [List.filter_cons]
    split
    · rename_i uses
      rw [if_pos uses, Nat.add_assoc] at rest
      rw [List.map_cons, List.sum_cons, rest]
    · rename_i unused
      rwa [if_neg unused] at rest

/-- A group that spans some time takes as long as its boundary says. -/
lemma Group.Spans.length_eq (spans : group.Spans numResources first last) :
    first + group.length = last := by
  obtain ⟨source, boundary⟩ := spans.boundary
  rw [Group.length, boundary]
  exact Nat.add_sub_of_le spans.le

/-- A group that spans some time and is led is a step.

**Proof sketch.** The span says where the group begins and ends, so its length is known and its
entries lie inside and cover every resource. That it is led gives an entry of the whole length,
which starts with the group because it ends with it. -/
lemma Group.Spans.fills (spans : group.Spans numResources first last) (led : group.Led size) :
    group.Fills numResources first := by
  have stop := spans.length_eq
  obtain ⟨source, boundary⟩ := spans.boundary
  refine
    { boundary := ⟨source, ?boundary⟩
      plain := fun entry member => (spans.plain entry member).1
      inside := ?inside
      covered := ?covered
      dominated := ?dominated
      empty := led.empty }
  case boundary =>
    have length : group.length = last - first := Nat.eq_sub_of_add_eq' stop
    rw [stop, length, boundary]
  case inside =>
    intro entry member
    obtain ⟨resource, used⟩ := List.exists_mem_of_ne_nil _ (spans.plain entry member).2
    exact ⟨spans.tiles.le_start member used, stop ▸ spans.tiles.stop_le member used⟩
  case covered =>
    intro resource declared
    have busy := spans.tiles.timeOn declared
    exact Nat.add_left_cancel (busy.trans stop.symm)
  case dominated =>
    intro some_entry
    obtain ⟨entry, member, ⟨id, -, source⟩, duration, end_eq⟩ := led.dominated some_entry
    have ends : entry.stop = first + group.length := by
      rw [end_eq, boundary, stop]
      rfl
    refine ⟨entry, member, ⟨id, source⟩, ?_, ends⟩
    rw [Entry.stop, duration] at ends
    exact Nat.add_right_cancel ends

/-- Groups that follow each other and are led are steps, whose lengths add up to the end. -/
lemma LockStepped.inLockStep (stepped : LockStepped numResources first groups last)
    (led : ∀ group ∈ groups, group.Led size) :
    InLockStep numResources first groups ∧ first + (groups.map Group.length).sum = last := by
  induction groups generalizing first with
  | nil => exact ⟨trivial, stepped⟩
  | cons group groups ih =>
    obtain ⟨middle, spans, rest⟩ := stepped
    obtain ⟨steps, total⟩ := ih rest fun other member => led other (List.mem_cons_of_mem _ member)
    have stop := spans.length_eq
    refine ⟨⟨spans.fills (led group List.mem_cons_self), stop ▸ steps⟩, ?_⟩
    rw [List.map_cons, List.sum_cons, ← Nat.add_assoc, stop, total]

/-- Groups that follow each other lead forward, and none of them ends behind the last one. -/
lemma LockStepped.exists_spans_le (stepped : LockStepped numResources first groups last) :
    first ≤ last ∧ ∀ group ∈ groups, ∃ before after,
      group.Spans numResources before after ∧ after ≤ last := by
  induction groups generalizing first with
  | nil => exact ⟨(show first = last from stepped).le, by simp⟩
  | cons group groups ih =>
    obtain ⟨middle, spans, rest⟩ := stepped
    obtain ⟨le, later⟩ := ih rest
    exact ⟨spans.le.trans le, List.forall_mem_cons.mpr ⟨⟨first, middle, spans, le⟩, later⟩⟩

/-! ## Groups turned around -/

/-- Turned around, a group is still led.

**Proof sketch.** Turning around takes the dominant entry to one of the same duration, which now
ends with the turned group, because the entry ended with the group before. Entries without a source
stay without one, since every source of the group has an origin. -/
lemma Group.Led.turned {total : Tick} {origin : OpId → Option OpId} (led : group.Led size)
    (spans : group.Spans numResources first last) (within : last ≤ total)
    (came : ∀ id < size, ∃ other < size, origin id = some other) :
    ((group.stamped .opening).mirrored total origin).Led size := by
  have le := spans.le
  have stop := spans.length_eq
  obtain ⟨source, boundary⟩ := spans.boundary
  have start : group.boundary.start = last ∧ group.boundary.duration = 0 := by
    rw [boundary]
    exact ⟨rfl, rfl⟩
  refine ⟨fun none => led.empty (by simpa [mirrored, stamped] using none), fun some_entry => ?_, ?_,
    ?_⟩
  · have some_entry : group.entries ≠ [] := by simpa [mirrored, stamped] using some_entry
    obtain ⟨entry, member, ⟨id, inside, source⟩, duration, ends⟩ := led.dominated some_entry
    obtain ⟨other, inside', from_id⟩ := came id inside
    refine ⟨entry.mirrored total origin, List.mem_map_of_mem (List.mem_reverse.mpr member),
      ⟨other, inside', ?_⟩, duration, ?_⟩
    · rw [Entry.mirrored, source]
      exact from_id
    · show total - entry.stop + entry.duration =
        total - (group.boundary.start - group.length + group.boundary.duration)
      rw [ends, start.1, start.2, duration]
      lia
  · intro entry member none
    obtain ⟨before, found, rfl⟩ := List.mem_map.mp member
    have found : before ∈ group.entries := List.mem_reverse.mp found
    cases known : before.source with
    | none => exact (led.unsourced before found known).mirrored total origin
    | some id =>
      obtain ⟨other, -, from_id⟩ :=
        came id (led.known before (List.mem_append_left _ found) id known)
      rw [Entry.mirrored, known] at none
      cases from_id.symm.trans none
  · have translated : ∀ before ∈ group.toList, ∀ id, before.source.bind origin = some id →
        id < size := by
      intro before found id known
      obtain ⟨old, source, from_old⟩ := Option.bind_eq_some_iff.mp known
      obtain ⟨other, inside, same⟩ := came old (led.known before found old source)
      cases from_old.symm.trans same
      exact inside
    intro entry member id known
    rcases List.mem_append.mp member with inside | boundary
    · obtain ⟨before, found, rfl⟩ := List.mem_map.mp inside
      exact translated before (List.mem_append_left _ (List.mem_reverse.mp found)) id known
    · obtain rfl := List.mem_singleton.mp boundary
      exact translated group.boundary (List.mem_append_right _ (List.mem_singleton_self _)) id known

/-! ## Lock-step schedules -/

variable {program : Program} {table : DurationTable} {settings : Settings} {schedule : Schedule}
  {rule : DelayRule} {side : CarriedSide} {grouping : Grouping}

/-- The groups of a run are steps that follow each other from tick zero on. -/
lemma Program.LockStepRun.inLockStep (run : program.LockStepRun table rule side grouping) :
    InLockStep program.numResources 0 grouping.groups ∧
      (grouping.groups.map Group.length).sum = grouping.elapsed := by
  obtain ⟨steps, total⟩ := run.stepped.inLockStep run.grouped.led
  rw [Nat.zero_add] at total
  exact ⟨steps, total⟩

/-- A run has a job for every operation. -/
lemma Program.LockStepRun.size_eq (run : program.LockStepRun table rule side grouping) :
    (program.workload table rule side).jobs.size = program.size :=
  size_workload run.resolves

/-- Turned around, the groups of a run are led. -/
lemma Program.LockStepRun.led_turned {reversal : Reversal}
    (run : reversal.program.LockStepRun table rule side grouping)
    (reversed : program.ReversedBy table reversal) :
    ∀ group ∈ grouping.turned reversal, group.Led program.size := by
  have led := run.grouped.led
  rw [run.size_eq, reversed.size] at led
  have came : ∀ id < program.size, ∃ other < program.size, reversal.origin? id = some other := by
    intro place inside
    obtain ⟨id, inside', origin, -⟩ := reversed.exists_origin inside
    exact ⟨id, inside', origin⟩
  intro group member
  obtain ⟨before, found, rfl⟩ := List.mem_map.mp member
  have found : before ∈ grouping.groups := List.mem_reverse.mp found
  obtain ⟨_, _, spans, within⟩ := run.stepped.exists_spans_le.2 before found
  exact (led before found).turned spans within came

/-- **Lock step.** Whatever program was built, a schedule in lock step consists of steps that follow
each other from tick zero on, and the duration it comes with is that of all of them together. Each
is closed by a boundary of no duration on all declared resources; its entries lie between the
boundary before it and its own, keep every declared resource for exactly its length, and include one
with a source that spans all of it. A step without entries takes no time.

**Proof sketch.** The forward pass writes its steps as groups that span consecutive times
(`LockStepRun.stepped`), each led by the operation it was made for; `LockStepped.inLockStep` turns
this into steps and adds their lengths up. The closing pass runs forward on the reversed program,
and its schedule consists of the same groups turned around, which span consecutive times from tick
zero again and are still led, since the translation back gives every job its operation. -/
theorem Program.schedule_inLockStep (built : program.Built)
    (method : settings.method = "asap_timestep" ∨ settings.method = "alap_timestep")
    (ok : (program.schedule table settings).result = .ok schedule) :
    ∃ groups, schedule.entries = groups.flatMap Group.toList ∧
      InLockStep program.numResources 0 groups ∧
      schedule.cached = some (groups.map Group.length).sum := by
  obtain ⟨policy, offered, ok⟩ := schedule_eq_ok ok
  generalize settings.method = name at offered method
  cases offered with
  | asap | alap => simp at method
  | asapTimestep rule =>
    obtain ⟨last, anomalies, run, rfl⟩ := lockStep_run built.wellFormed ok
    obtain ⟨steps, total⟩ := run.inLockStep
    exact ⟨last.groups, rfl, steps, congrArg some (run.latestStop_eq.trans total.symm)⟩
  | alapTimestep rule =>
    obtain ⟨reversal, last, -, reversedBy, run, cached, entries, stepped, none⟩ :=
      Policy.lockStep_reversed_run built.wellFormed ok
    obtain ⟨steps, total⟩ := stepped.inLockStep (run.led_turned reversedBy)
    rw [Nat.zero_add] at total
    refine ⟨last.turned reversal, entries, steps, ?_⟩
    rw [cached, Schedule.total, entries, total]
    exact congrArg some (stepped.latestStop_eq none)

/-- Three steps, made with time running backwards, take nine ticks together. -/
theorem Program.schedule_inLockStep_relay : ∃ schedule groups,
    (relay.schedule .relay { method := "alap_timestep" }).result = .ok schedule ∧
      schedule.entries = groups.flatMap Group.toList ∧ InLockStep 3 0 groups ∧
      schedule.cached = some 9 ∧ (groups.map Group.length).sum = 9 := by
  have ok : (relay.schedule .relay { method := "alap_timestep" }).result = .ok _ := rfl
  obtain ⟨groups, entries, steps, cached⟩ := schedule_inLockStep built_relay (.inr rfl) ok
  exact ⟨_, groups, ok, entries, steps, rfl, (Option.some.inj cached).symm⟩

end Timetable
