import Timetable.Proofs.GapFree.Reversal
import Timetable.Proofs.LockStep.Writing

/-!
# The two lock-step passes

As soon as possible, a lock-step schedule is made of the groups of a run. As late as possible it is
made of the groups of a run of the reversed program, turned around. The boundaries of that run open
their steps; turned around they are moved behind the steps, and each comes to stand at the opposite
of the tick at which it opened its step.

## Main definitions

* `Program.LockStepRun` — what is known about the run of a program.

## Main results

* `Program.lockStep_run` — a schedule as soon as possible.
* `Policy.lockStep_reversed_run` — a schedule as late as possible.
-/

set_option autoImplicit false

namespace Timetable

open Relation

/-- A run of the workload of a program that has completed everything. -/
structure Program.LockStepRun (program : Program) (table : DurationTable) (rule : DelayRule)
    (side : CarriedSide) (last : Grouping) : Prop where
  resolves : (program.resolve table program.ids).failure = none
  sound : (program.workload table rule side).Sound
  ran : (program.workload table rule side).grouping = (last, none)
  grouped : (program.workload table rule side).Grouped last
  stepped : LockStepped program.numResources 0 last.groups last.elapsed
  groups_eq_nil : program.numResources = 0 → last.groups = []

variable {program : Program} {table : DurationTable} {rule : DelayRule} {side : CarriedSide}
  {schedule : Schedule} {last : Grouping}

/-! ## As soon as possible -/

/-- A program that can be scheduled in lock step can be ordered. -/
lemma Program.exists_order_of_lockStep
    (ok : (program.lockStep table rule side).result = .ok schedule) :
    ∃ order, program.precedence.order = .ok order := by
  unfold Program.lockStep at ok
  split at ok
  · cases ok
  · rename_i ordered
    obtain ⟨-, -, order⟩ := Program.ordered_eq_ok ordered
    exact ⟨_, order⟩

/-- A program that can be ordered and whose durations are known has a run. -/
lemma Program.WellFormed.exists_lockStepRun (wellFormed : program.WellFormed) {order : List OpId}
    (ordered : program.precedence.order = .ok order)
    (resolves : (program.resolve table program.ids).failure = none) (rule : DelayRule)
    (side : CarriedSide) : ∃ last, (program.workload table rule side).grouping = (last, none) ∧
      program.LockStepRun table rule side last := by
  have sound := wellFormed.toClosed.sound_workload ordered resolves rule side
  obtain ⟨last, ran, grouped⟩ := sound.exists_grouped
  have stepped : Grouping.Stepped _ (program.workload table rule side).grouping.1 :=
    Grouping.stepped_run (wellFormed.workload resolves rule side) _ _ rfl
  have none := wellFormed.groups_eq_nil table rule side
  rw [ran] at stepped none
  exact ⟨last, ran, resolves, sound, ran, grouped, stepped, none⟩

/-- A physical program that can be ordered and whose durations are known is scheduled in lock step
by a run. -/
lemma Program.WellFormed.exists_lockStep (wellFormed : program.WellFormed)
    (physical : program.violation? = none) {order : List OpId}
    (ordered : program.precedence.order = .ok order)
    (resolves : (program.resolve table program.ids).failure = none) (rule : DelayRule)
    (side : CarriedSide) : ∃ last, program.LockStepRun table rule side last ∧
      (program.lockStep table rule side).result = .ok (.sealedFor program last.entries
        (program.resolve table program.ids).anomalies) := by
  obtain ⟨last, ran, run⟩ := wellFormed.exists_lockStepRun ordered resolves rule side
  refine ⟨last, run, ?_⟩
  simp only [Workload.grouping, Program.workload] at ran
  simp only [Program.lockStep, Program.ordered, physical, wellFormed.toClosed.undeclared?, ordered,
    resolves, ran]

/-- As soon as possible, a lock-step schedule consists of the entries of a run.

**Proof sketch.** A pass that succeeds has ordered and resolved the operations, and then its groups
are those of a run (`WellFormed.exists_lockStepRun`). -/
theorem Program.lockStep_run (wellFormed : program.WellFormed)
    (ok : (program.lockStep table rule side).result = .ok schedule) :
    ∃ last anomalies, program.LockStepRun table rule side last ∧
      schedule = .sealedFor program last.entries anomalies := by
  obtain ⟨order, ordered⟩ := exists_order_of_lockStep ok
  obtain ⟨-, resolves, rfl⟩ := lockStep_eq_ok ok
  obtain ⟨last, ran, run⟩ := wellFormed.exists_lockStepRun ordered resolves rule side
  rw [ran]
  exact ⟨last, _, run, rfl⟩

/-- A run makes one step after the other. -/
lemma Program.LockStepRun.runs (run : program.LockStepRun table rule side last) :
    Grouping.Runs (program.workload table rule side)
      (Grouping.start (program.workload table rule side)) last := by
  obtain ⟨other, ran, -, -, runs⟩ := run.sound.exists_grouping
  cases run.ran.symm.trans ran
  exact runs

/-- A run ends where its last group does. -/
lemma Program.LockStepRun.latestStop_eq (run : program.LockStepRun table rule side last) :
    latestStop last.entries = last.elapsed :=
  run.stepped.latestStop_eq run.groups_eq_nil

/-! ## As late as possible -/

/-- Turned around and shifted, a boundary stands at the opposite of the tick at which it opened its
step.

**Proof sketch.** Induction on the groups from the back, since the last one comes first when they
are turned around. Its boundary is moved by the length of its step to where the other groups begin,
which is the opposite of where the step was opened. -/
lemma shiftGroups_mirrored {numResources : Nat} {first last total : Tick} {groups : List Group}
    (stepped : LockStepped numResources first groups last) (origin : OpId → Option OpId)
    (within : last ≤ total) :
    shiftGroups (total - last) (groups.reverse.map (Group.mirrored total origin)) =
      groups.reverse.map fun group => (group.stamped .opening).mirrored total origin := by
  induction groups using List.reverseRecOn generalizing last with
  | nil => rfl
  | append_singleton groups group ih =>
    obtain ⟨middle, before, spans⟩ := lockStepped_concat.mp stepped
    have le := spans.le
    obtain ⟨source, boundary⟩ := spans.boundary
    have stop : total - last + ((group.mirrored total origin).boundary.operation.stepLength?.getD 0)
        = total - middle := by
      simp only [Group.mirrored, boundary, Entry.mirrored, Entry.boundary, Operation.stepLength?,
        Option.getD_some]
      lia
    have start : last - (last - middle) = middle := Nat.sub_sub_self le
    rw [List.reverse_append, List.reverse_singleton, List.singleton_append, List.map_cons,
      List.map_cons, shiftGroups, stop, ih before (le.trans within)]
    simp [Group.stamped, Group.mirrored, Group.length, boundary, Entry.mirrored, Entry.boundary,
      Entry.stop, Entry.stepLength, Operation.stepLength?, start]

/-- The groups of a run of the reversed program, turned around. -/
def Grouping.turned (reversal : Reversal) (last : Grouping) : List Group :=
  last.groups.reverse.map fun group =>
    (group.stamped .opening).mirrored last.elapsed reversal.origin?

/-- The entries of a run that are turned around, group by group, are all entries turned around. -/
lemma Grouping.turned_perm (last : Grouping) (reversal : Reversal) :
    ((last.turned reversal).flatMap Group.toList).Perm
      ((stampedEntries .opening last.groups).reverse.map
        (Entry.mirrored last.elapsed reversal.origin?)) := by
  have turned : (stampedEntries .opening last.groups).reverse.map
      (Entry.mirrored last.elapsed reversal.origin?) =
        (last.turned reversal).flatMap Group.opened := by
    have stamped : stampedEntries .opening last.groups =
        (last.groups.map (Group.stamped .opening)).flatMap Group.toList :=
      (List.flatMap_map ..).symm
    rw [stamped, map_mirrored_reverse_toList, ← List.map_reverse, List.map_map]
    rfl
  rw [turned]
  exact List.Perm.flatMap_left _ fun group _ => List.perm_append_singleton _ _

/-- Turned around, groups that follow each other from tick zero on still do. -/
lemma LockStepped.turned {numResources : Nat} {last : Tick} {groups : List Group}
    (stepped : LockStepped numResources 0 groups last) (origin : OpId → Option OpId) :
    LockStepped numResources 0
      (groups.reverse.map fun group => (group.stamped .opening).mirrored last origin) last := by
  have mirrored := stepped.mirrored origin (le_refl last)
  rwa [shiftGroups_mirrored stepped origin (le_refl last), Nat.sub_self, Nat.sub_zero] at mirrored

/-- Turning the entries of groups around and shifting their boundaries turns the groups around. -/
lemma LockStepped.shiftEntries_turned {numResources : Nat} {last : Tick} {groups : List Group}
    (stepped : LockStepped numResources 0 groups last) (origin : OpId → Option OpId) :
    shiftEntries none 0 ((groups.flatMap Group.toList).reverse.map (Entry.mirrored last origin)) =
      (groups.reverse.map fun group => (group.stamped .opening).mirrored last origin).flatMap
        Group.toList := by
  have shifted := shiftGroups_mirrored stepped origin (le_refl last)
  rw [Nat.sub_self] at shifted
  rw [stepped.shiftEntries_mirrored, shifted]

/-- Turning the entries of a run around and shifting their boundaries turns its groups around. -/
lemma Program.LockStepRun.shiftEntries_turned
    (run : program.LockStepRun table rule side last) (reversal : Reversal) :
    shiftEntries none 0 (last.entries.reverse.map (Entry.mirrored last.elapsed reversal.origin?)) =
      (last.turned reversal).flatMap Group.toList :=
  run.stepped.shiftEntries_turned reversal.origin?

/-- Turned around, a run ends where it ended. -/
lemma Program.LockStepRun.latestStop_turned (run : program.LockStepRun table rule side last)
    (reversal : Reversal) :
    latestStop ((last.turned reversal).flatMap Group.toList) = last.elapsed :=
  (run.stepped.turned reversal.origin?).latestStop_eq fun zero => by
    simp [run.groups_eq_nil zero]

/-- As late as possible, a lock-step schedule consists of the groups of a run of the reversed
program, turned around, which follow each other from tick zero on.

**Proof sketch.** The inner pass is a run on the reversed program (`Program.lockStep_run`), and its
latest end is the end of its last step. Turned around and shifted, its entries are those of the
groups turned around (`LockStepRun.shiftEntries_turned`), which follow each other again
(`LockStepped.turned`). -/
theorem Policy.lockStep_reversed_run (wellFormed : program.WellFormed)
    (ok : ((reversed (lockStep table rule .opening) table).run program).result = .ok schedule) :
    ∃ reversal last, program.violation? = none ∧ program.ReversedBy table reversal ∧
      reversal.program.LockStepRun table rule .opening last ∧
      schedule.cached = some schedule.total ∧
      schedule.entries = (last.turned reversal).flatMap Group.toList ∧
      LockStepped program.numResources 0 (last.turned reversal) last.elapsed ∧
      (program.numResources = 0 → last.turned reversal = []) := by
  obtain ⟨reversal, inner, physical, reversedBy, ok, -, cached, entries⟩ := run_reversed_eq_ok ok
  obtain ⟨last, anomalies, run, rfl⟩ := Program.lockStep_run (reversedBy.wellFormed wellFormed) ok
  have resources : reversal.program.numResources = program.numResources :=
    congrArg Layout.numResources reversedBy.layout
  have stepped := run.stepped
  have none := run.groups_eq_nil
  rw [resources] at stepped none
  have duration : (Schedule.sealedFor reversal.program last.entries anomalies).duration =
      last.elapsed := run.latestStop_eq
  refine ⟨reversal, last, physical, reversedBy, run, cached, ?_, stepped.turned _, ?_⟩
  · rw [entries, Reversal.turned, duration]
    exact run.shiftEntries_turned reversal
  · intro zero
    simp [Grouping.turned, none zero]

end Timetable
