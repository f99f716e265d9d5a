import Timetable.Proofs.GapFree
import Timetable.Proofs.LockStep.Conservation
import Timetable.Proofs.Reordering.Forward
import Timetable.Proofs.Reordering.Run

/-!
# Schedules do not depend on how operations are listed

A program lists its operations in some order, but only the order of those that share a resource
matters, and that of those that depend on each other. Two neighbors without a common resource can
change places, and every method makes the same schedule but for their numbers. Ticks are compared
as they are; only the order of the entries may be another one.

## Main definitions

* `Schedule.Relabels` — two schedules with the same entries under different numbers.

## Main results

* `Program.Relabels.exists_schedule` — the other program can be scheduled, too.
* `Program.Relabels.relabels_schedule` — its schedule has the same entries.
* `Program.schedule_swapped` — neighbors can change places.
-/

set_option autoImplicit false

namespace Timetable

/-- A schedule is as long as another one and has the same entries in some order, but for the numbers
of the operations that they were made from. -/
structure Schedule.Relabels (rename : OpId → OpId) (schedule other : Schedule) : Prop where
  duration : other.duration = schedule.duration
  entries : other.entries.Perm (schedule.entries.map (.relabeled rename))

variable {program other : Program} {rename : OpId → OpId} {table : DurationTable}
  {settings : Settings} {schedule schedule' : Schedule} {reversal reversal' : Reversal} {id : OpId}

/-- Schedules with the same entries under different numbers are equally long. -/
lemma Schedule.relabels_of_perm (cached : schedule.cached = some schedule.total)
    (cached' : schedule'.cached = some schedule'.total)
    (perm : schedule'.entries.Perm (schedule.entries.map (.relabeled rename))) :
    schedule.Relabels rename schedule' := by
  refine ⟨?_, perm⟩
  have stops := latest_perm (perm.map Entry.stop)
  rw [List.map_map] at stops
  rw [duration, duration, cached, cached']
  exact stops

/-! ## Groups -/

/-- Groups stay the same under different numbers when their boundaries are moved.

**Proof sketch.** Stamping moves the start of the boundary by the length of the group, which does
not depend on numbers, and leaves the entries alone. -/
lemma Group.Relabels.perm_stamped {group other : Group} (same : group.Relabels rename other)
    (side : CarriedSide) : (other.stamped side).toList.Perm
      ((group.stamped side).toList.map (.relabeled rename)) := by
  have boundary : (other.stamped side).boundary =
      (group.stamped side).boundary.relabeled rename := by
    cases side with
    | closing => exact same.boundary
    | opening =>
      simp only [stamped, length, same.boundary]
      rfl
  have entries : (other.stamped side).entries.Perm
      ((group.stamped side).entries.map (.relabeled rename)) := by
    cases side <;> exact same.entries
  rw [toList, toList, List.map_append, boundary]
  exact entries.append_right _

/-- Two runs that have come equally far have the same entries. -/
lemma Grouping.Relabels.perm_stamped {last last' : Grouping} (same : last.Relabels rename last')
    (side : CarriedSide) : (stampedEntries side last'.groups).Perm
      ((stampedEntries side last.groups).map (.relabeled rename)) := by
  have groups := same.groups
  generalize last.groups = before, last'.groups = after at groups
  induction groups with
  | nil => exact .nil
  | cons group _ ih =>
    rw [stampedEntries, stampedEntries, List.flatMap_cons, List.flatMap_cons, List.map_append]
    exact (group.perm_stamped side).append ih

namespace Program.Relabels

/-! ## With time running backwards -/

/-- Changing numbers and turning around can be exchanged. -/
lemma mirrored_relabeled (relabels : Relabels rename program other)
    (reversed : program.ReversedBy table reversal) (reversed' : other.ReversedBy table reversal')
    {entry : Entry} (known : ∀ place, entry.source = some place → place < program.size)
    (total : Tick) :
    (entry.relabeled (program.flipped rename)).mirrored total reversal'.origin? =
      (entry.mirrored total reversal.origin?).relabeled rename := by
  have source : (entry.source.map (program.flipped rename)).bind reversal'.origin? =
      (entry.source.bind reversal.origin?).map rename := by
    cases source : entry.source with
    | none => rfl
    | some place => exact relabels.origin?_flipped reversed reversed' (known place source)
  simp only [Entry.mirrored, Entry.relabeled, Entry.stop, source]

/-- Entries of the reversals that are the same under different numbers are still so when they are
turned around. -/
lemma perm_mirrored (relabels : Relabels rename program other)
    (reversed : program.ReversedBy table reversal) (reversed' : other.ReversedBy table reversal')
    {entries entries' : List Entry}
    (perm : entries'.Perm (entries.map (.relabeled (program.flipped rename))))
    (known : ∀ entry ∈ entries, ∀ place, entry.source = some place → place < program.size)
    (total : Tick) : (entries'.reverse.map (Entry.mirrored total reversal'.origin?)).Perm
      ((entries.reverse.map (Entry.mirrored total reversal.origin?)).map
        (Entry.relabeled rename)) := by
  have turned : (entries.reverse.map (Entry.relabeled (program.flipped rename))).map
      (Entry.mirrored total reversal'.origin?) =
        (entries.reverse.map (Entry.mirrored total reversal.origin?)).map
          (Entry.relabeled rename) := by
    rw [List.map_map, List.map_map]
    refine List.map_congr_left fun entry member => ?_
    have known := known entry (List.mem_reverse.mp member)
    exact relabels.mirrored_relabeled reversed reversed' known total
  rw [← turned]
  have backwards := perm.trans ((List.reverse_perm entries).symm.map _)
  exact ((List.reverse_perm entries').trans backwards).map _

/-! ## All methods -/

/-- Every policy on offer gives two programs with the same operations the same entries.

**Proof sketch.** Each policy schedules the program or its reversal. The reversals of relabeled
programs are relabeled as well, so the entries of the forward pass, or of the run in lock step, are
the same up to numbers and order. Turning entries around at the same total keeps this. -/
lemma perm_run {method : String} {policy : Policy} (relabels : Relabels rename program other)
    (offered : Policy.Offered table method policy) (wellFormed : program.WellFormed)
    (plain : ∀ operation ∈ program.operations, operation.isTimestep = false)
    (ok : (policy.run program).result = .ok schedule)
    (ok' : (policy.run other).result = .ok schedule') :
    schedule'.entries.Perm (schedule.entries.map (.relabeled rename)) := by
  have closed := wellFormed.toClosed
  have wellFormed' := relabels.wellFormed wellFormed
  have plain' : ∀ operation ∈ other.operations, operation.isTimestep = false :=
    fun operation member => plain operation (relabels.mem_operations.mp member)
  cases offered with
  | asap => exact relabels.perm_forward wellFormed ok ok'
  | alap =>
    obtain ⟨reversal, inner, -, reversed, ran, -, -, entries⟩ :=
      Policy.forward_reversed_eq_ok plain ok
    obtain ⟨reversal', inner', -, reversed', ran', -, -, entries'⟩ :=
      Policy.forward_reversed_eq_ok plain' ok'
    have inner_wellFormed := reversed.wellFormed wellFormed
    have perm := (relabels.reversed closed reversed reversed').perm_forward inner_wellFormed
      ran ran'
    have same := Schedule.relabels_of_perm (forward_gapFree inner_wellFormed ran).cached
      (forward_gapFree (reversed'.wellFormed wellFormed') ran').cached perm
    rw [entries, entries', Reversal.turned, Reversal.turned, same.duration]
    refine relabels.perm_mirrored reversed reversed' perm ?_ _
    rw [← reversed.size]
    exact (conserved_forward inner_wellFormed ran).1.known
  | asapTimestep rule =>
    obtain ⟨physical, -⟩ := lockStep_eq_ok ok
    obtain ⟨last, anomalies, run, rfl⟩ := lockStep_run wellFormed ok
    obtain ⟨last', anomalies', run', rfl⟩ := lockStep_run wellFormed' ok'
    exact (run.relabeled run' relabels wellFormed physical plain).perm_stamped .closing
  | alapTimestep rule =>
    obtain ⟨reversal, last, physical, reversed, run, -, entries, -⟩ :=
      Policy.lockStep_reversed_run wellFormed ok
    obtain ⟨reversal', last', -, reversed', run', -, entries', -⟩ :=
      Policy.lockStep_reversed_run wellFormed' ok'
    have same := run.relabeled run' (relabels.reversed closed reversed reversed')
      (reversed.wellFormed wellFormed) (reversed.physical physical)
      fun operation member => plain operation (reversed.mem_operations.mp member)
    have perm := relabels.perm_mirrored reversed reversed' (same.perm_stamped .opening)
      (fun entry member place source => reversed.size ▸ run.lt_size member source) last.elapsed
    have turned := last.turned_perm reversal
    have turned' := last'.turned_perm reversal'
    rw [same.elapsed] at turned'
    rw [entries, entries']
    exact turned'.trans (perm.trans (turned.symm.map _))

/-- If a program can be scheduled, one with the same operations can be scheduled as well.

**Proof sketch.** A policy answers with a schedule exactly if the program is schedulable
(`Offered.answered`), and being schedulable does not depend on how operations are listed. -/
theorem exists_schedule (relabels : Relabels rename program other)
    (wellFormed : program.WellFormed)
    (ok : (program.schedule table settings).result = .ok schedule) :
    ∃ schedule', (other.schedule table settings).result = .ok schedule' := by
  obtain ⟨policy, named, ok⟩ := exists_policy ok
  have offered := Policy.ofSettings_eq_ok named
  have answered := offered.answered wellFormed
  have answered' := offered.answered (relabels.wellFormed wellFormed)
  rw [ok] at answered
  rw [result_schedule named]
  cases result : (policy.run other).result with
  | ok schedule' => exact ⟨schedule', rfl⟩
  | error e =>
    rw [result] at answered'
    cases answered' with
    | error rejects =>
      exact absurd (relabels.schedulable answered.schedulable) rejects.not_schedulable

/-- Schedules of programs with the same operations, none of which is a timestep, are the same under
different numbers.

**Proof sketch.** Both runs follow the policy that the settings name, so the entries are the same
(`perm_run`). Without timesteps the schedules have no gaps and their durations are cached. -/
theorem relabels_schedule (relabels : Relabels rename program other)
    (wellFormed : program.WellFormed)
    (plain : ∀ operation ∈ program.operations, operation.isTimestep = false)
    (ok : (program.schedule table settings).result = .ok schedule)
    (ok' : (other.schedule table settings).result = .ok schedule') :
    schedule.Relabels rename schedule' := by
  have plain' : ∀ operation ∈ other.operations, operation.isTimestep = false :=
    fun operation member => plain operation (relabels.mem_operations.mp member)
  have gapFree := (schedule_gapFree wellFormed (fun _ => plain) ok).2
  have gapFree' := (schedule_gapFree (relabels.wellFormed wellFormed) (fun _ => plain') ok').2
  obtain ⟨policy, named, ok⟩ := exists_policy ok
  rw [result_schedule named] at ok'
  exact Schedule.relabels_of_perm gapFree.cached gapFree'.cached
    (relabels.perm_run (Policy.ofSettings_eq_ok named) wellFormed plain ok ok')

end Program.Relabels

namespace Program

/-- **Schedules do not depend on how operations are listed.** Suppose that two neighboring
operations of a program that was built share no resource, and that no operation is a timestep. With
any durations, method and rule the program can be scheduled exactly if it can be when the two have
changed places. Then both schedules are equally long and have the same entries: as many with the
same operation, start and duration that were made from the same operation.

**Proof sketch.** Two neighbors that share no resource may change places: neither precedes the other
through a resource, so the program with both swapped has the same operations under swapped numbers
(`relabels_swapped`), and this is symmetric. -/
theorem schedule_swapped (built : program.Built) (inside : id + 1 < program.size)
    (disjoint : ∀ resource, ¬ (program.uses id resource ∧ program.uses (id + 1) resource))
    (plain : ∀ operation ∈ program.operations, operation.isTimestep = false)
    (table : DurationTable) (settings : Settings) :
    ((∃ schedule, (program.schedule table settings).result = .ok schedule) ↔
      ∃ schedule, ((program.swapped id).schedule table settings).result = .ok schedule) ∧
    ∀ schedule schedule', (program.schedule table settings).result = .ok schedule →
      ((program.swapped id).schedule table settings).result = .ok schedule' →
        schedule.Relabels (Equiv.swap id (id + 1)) schedule' := by
  have relabels := relabels_swapped program inside disjoint
  have wellFormed := built.wellFormed
  refine ⟨⟨fun ⟨_, ok⟩ => relabels.exists_schedule wellFormed ok, fun ⟨_, ok⟩ => ?_⟩,
    fun _ _ ok ok' => relabels.relabels_schedule wellFormed plain ok ok'⟩
  exact relabels.symm.exists_schedule (relabels.wellFormed wellFormed) ok

/-- The first gate and the delay of the small program can change places, also in lock step with time
running backwards. -/
theorem schedule_swapped_relay : ∃ schedule schedule' : Schedule,
    (relay.schedule .relay { method := "alap_timestep" }).result = .ok schedule ∧
      ((relay.swapped 0).schedule .relay { method := "alap_timestep" }).result = .ok schedule' ∧
        schedule.Relabels (Equiv.swap 0 1) schedule' := by
  have plain : ∀ operation ∈ relay.operations, operation.isTimestep = false := by decide
  have disjoint : ∀ resource, ¬ (relay.uses 0 resource ∧ relay.uses 1 resource) := by
    rintro resource ⟨uses, uses'⟩
    simp [relay, Program.uses, operation?, Operation.resources] at uses uses'
    lia
  have ok : (relay.schedule .relay { method := "alap_timestep" }).result = .ok _ := rfl
  obtain ⟨succeeds, same⟩ := @schedule_swapped _ 0 built_relay (by decide) disjoint plain
    .relay { method := "alap_timestep" }
  obtain ⟨schedule', ok'⟩ := succeeds.mp ⟨_, ok⟩
  exact ⟨_, schedule', ok, ok', same _ schedule' ok ok'⟩

end Program

end Timetable
