import Timetable.Proofs.LockStep.Placement
import Timetable.Proofs.Reordering.Run
import Timetable.Proofs.Rescheduling.LockStep

/-!
# Scheduling a lock-step schedule again if the longest delay decides

If the longest delay decides how long a step is for which nothing but delays is ready, an operation
that waits for a delay of no duration can start with that step. As operations of their own, the
entries of the step do not say that it had to wait: it is ready when the step is made again, and
being no delay it decides how long the step is. This is all that can go wrong, so a schedule is
repeated exactly if its groups are governed.

## Main definitions

* `Schedule.PlacedAlike` — another schedule has the same operations at the same ticks.
* `Program.DelaysTakeTime` — no delay lasts zero ticks.
* `Program.MadeFor` — a group was made for one of its entries.

## Main results

* `Workload.Lists.governedBy_of_lengths` — groups that are made again are governed.
* `Step.Filled.exists_plain_ready` — if delays take time, only they can start behind delays.
* `Program.schedule_longest_again_iff` — when a lock-step schedule is repeated.
* `Program.schedule_longest_differs` — one that is not.
-/

set_option autoImplicit false

namespace Timetable

/-- Another schedule is as long, has the same timesteps, and has the same operations at the same
ticks; what entries were made from, and in which order they are listed, may differ. -/
structure Schedule.PlacedAlike (schedule again : Schedule) : Prop where
  duration : again.duration = schedule.duration
  timesteps : again.timesteps = schedule.timesteps
  entries : (again.entries.map Entry.unsourced).Perm (schedule.entries.map Entry.unsourced)

/-- No delay of a program lasts zero ticks. -/
def Program.DelaysTakeTime (program : Program) (table : DurationTable) : Prop :=
  ∀ {id operation ticks}, program.operation? id = some operation → operation.isDelay = true →
    program.duration? table id = some ticks → 0 < ticks

/-- A group was made for one of its entries: it leads the group and is as long as it. If delays take
time and the entry is one, nothing but delays starts with the group. -/
structure Program.MadeFor (program : Program) (table : DurationTable) (group : Group)
    (entry : Entry) : Prop where
  leads : group.LedBy entry
  duration_eq : entry.duration = group.length
  delays : program.DelaysTakeTime table → entry.operation.isDelay = true →
    ∀ other ∈ group.entries, other.start + group.length = group.boundary.start →
      other.operation.isDelay = true

variable {work : Workload} {plan : List Entry} {grouping last final : Grouping} {group : Group}
  {groups again : List Group} {first middle stop : Tick}

/-! ## What is made again is governed -/

namespace Workload.Lists

/-- If boundaries close their steps, the next step makes one group, which is as long as the next one
of the plan exactly if that one is governed. -/
lemma exists_made (lists : work.Lists plan) (side : work.side = .closing)
    (state : Left work plan grouping ((group :: groups).flatMap (Group.laid work.side)))
    (spans : group.Spans work.numResources first middle) (some_entry : group.entries ≠ []) :
    ∃ next made, grouping.advance work = (next, none) ∧ Grouping.InOrder work next ∧
      next.groups = grouping.groups ++ [made] ∧
      (made.length = group.length ↔ group.GovernedBy work.rule) := by
  obtain ⟨body, marker, back, split, entries, -, -, seals, drain⟩ :=
    state.exists_split lists side spans some_entry
  obtain ⟨id, length, next, dominant, advanced, makes⟩ :=
    state.toInOrder.advance_of_left lists.sound drain (by simp [split])
  obtain ⟨_, advanced', advances⟩ := state.toInOrder.exists_advance lists.sound
  cases advanced.symm.trans advanced'
  have written := makes.groups
  rw [Grouping.loose_nil, List.map_nil, List.append_nil] at written
  exact ⟨next, _, advanced, state.toInOrder.of_advances advances, written,
    lists.length_eq_iff state.ongoing state.precedence state.sorted split entries some_entry spans
      (fun place same => Option.some.inj same ▸ seals) state.left dominant⟩

/-- If boundaries close their steps, and the groups of a run are as long as those of its plan, the
groups of the plan are governed.

**Proof sketch.** Induction on the groups. The next step is as long as the next group, so that group
is governed; so it is made again, and the rest of the plan is left. -/
theorem governedBy_of_lengths (lists : work.Lists plan)
    (side : work.side = .closing) (runs : Grouping.Runs work grouping final)
    (state : Left work plan grouping (groups.flatMap (Group.laid work.side)))
    (stepped : LockStepped work.numResources grouping.elapsed groups stop)
    (some_entry : ∀ group ∈ groups, group.entries ≠ [])
    (written : final.groups = grouping.groups ++ again)
    (lengths : again.map Group.length = groups.map Group.length) :
    ∀ group ∈ groups, group.GovernedBy work.rule := by
  induction groups generalizing grouping again with
  | nil => simp
  | cons group groups ih =>
    obtain ⟨some_first, some_later⟩ := List.forall_mem_cons.mp some_entry
    obtain ⟨first, later, rfl, as_long, same⟩ := List.map_eq_cons_iff.mp lengths
    cases runs with
    | done => simp at written
    | step left advanced rest =>
      have ⟨_, spans, _⟩ := stepped
      obtain ⟨next, made, advanced', inOrder, grown, as_long_iff⟩ :=
        lists.exists_made side state spans some_first
      cases advanced.symm.trans advanced'
      -- the first of the groups that come is the one that this step makes
      obtain ⟨more, final_groups⟩ := rest.exists_groups inOrder lists.sound
      rw [final_groups, grown, List.append_assoc] at written
      obtain ⟨rfl, rfl⟩ := List.cons.inj (List.append_cancel_left written)
      have by_rule := as_long_iff.mp as_long
      obtain ⟨_, _, remakes⟩ := lists.exists_remakes_closing side state stepped some_first by_rule
      cases advanced.symm.trans remakes.advanced
      exact List.forall_mem_cons.mpr
        ⟨by_rule, ih rest remakes.left remakes.stepped some_later final_groups same⟩

end Workload.Lists

/-! ## Delays that take time -/

namespace Step.Filled

variable {begun : Residual} {remaining : Array Tick} {origin length : Tick} {step : Step}
  {id : OpId} {entry : Entry}

/-- If all delays take time, whatever is no delay and starts with a step shows that something that
is no delay was ready.

**Proof sketch.** Induction along precedence. An operation that was not ready waited for another one
of the same step, which finished when the step began. So that one took no time and is no delay, and
it started with the step, too. -/
theorem exists_plain_ready (filled : Filled work begun remaining origin length step)
    (sound : work.Sound)
    (positive : ∀ id ∈ begun.pending, work.isDelay id = true → 0 < remaining[id]?.getD 0)
    (no_delay : work.isDelay id = false) (waits : id ∈ begun.pending)
    (done : id ∉ step.residual.pending) (due : step.due work id = 0) :
    ∃ other ∈ begun.frontier, work.isDelay other = false := by
  induction id using Precedence.induction sound.precedence sound.acyclic with
  | step id ih =>
    by_cases ready : id ∈ begun.frontier
    · exact ⟨id, ready, no_delay⟩
    obtain ⟨before, edge, waits'⟩ : ∃ before, work.precedence.Edge before id ∧
        before ∈ begun.pending := by
      by_contra none
      push Not at none
      refine ready (filled.begun_ongoing.mem_frontier_iff.mpr ⟨waits, fun before edge => ?_⟩)
      exact none before (filled.begun_precedence ▸ edge)
    have done' := filled.done_of_edge edge done
    have finish : step.finishOf before = 0 :=
      Nat.le_zero.mp (due ▸ due_le_iff.mp le_rfl before edge)
    rw [filled.finishes before waits' done', left, filled.remaining_eq,
      Nat.add_eq_zero_iff] at finish
    refine ih before edge ?_ waits' done' finish.1
    by_contra delay
    exact (positive before waits' (Bool.eq_true_of_not_eq_false delay)).ne' finish.2

/-- If all delays take time and an entry at the beginning of a step is no delay, some operation that
was ready when the step began is none.

**Proof sketch.** The entry is not idle time, because it is no delay, so it is the one entry of an
operation that was taken. It starts with the step, so nothing was before it that takes time, and
some operation that is no delay was ready (`exists_plain_ready`). -/
lemma exists_plain_ready_of_mem (filled : Filled work begun remaining origin length step)
    (sound : work.Sound)
    (positive : ∀ id ∈ begun.pending, work.isDelay id = true → 0 < remaining[id]?.getD 0)
    (member : entry ∈ (step.cutDelays work).padded.entries)
    (no_delay : entry.operation.isDelay = false) (start : entry.start = origin) :
    ∃ other ∈ begun.frontier, work.isDelay other = false := by
  obtain ⟨recorded, prompt, residual, due_eq⟩ := filled.cutDelays sound
  have not_idle : ¬entry.FillsGap := by
    rintro ⟨resource, start, duration, -, rfl⟩
    cases no_delay
  have made : entry ∈ (step.cutDelays work).entries :=
    (List.mem_append.mp member).resolve_right fun gap => not_idle (Entry.fillsGap_of_mem_gaps gap)
  cases source : entry.source with
  | none => exact absurd (recorded.unsourced entry made source) not_idle
  | some id =>
    have part : entry ∈ partsOf id (step.cutDelays work).entries := mem_partsOf.mpr ⟨made, source⟩
    cases recorded.handles id with
    | untouched none => simp [none] at part
    | taken found _ waits done _ _ single =>
      rw [single] at part
      obtain rfl := List.mem_singleton.mp part
      have due := prompt.starts _ made id source
      rw [start, due_eq, recorded.origin_eq] at due
      rw [Operation.isDelay_rest] at no_delay
      refine filled.exists_plain_ready sound positive ?_ waits (residual ▸ done)
        (Nat.left_eq_add.mp due)
      rw [Workload.isDelay, found, Option.any_some, no_delay]
    | cut _ _ _ _ _ _ _ _ _ single =>
      rw [single] at part
      obtain rfl := List.mem_singleton.mp part
      cases no_delay

end Step.Filled

/-! ## What a run makes -/

namespace Program

variable {program : Program} {table table' : DurationTable} {rule : DelayRule}
  {side : CarriedSide} {settings settings' : Settings} {schedule : Schedule} {journal : Journal}

/-- What is left of a pending delay takes time, if delays do. -/
lemma LockStepRun.left_pos (run : program.LockStepRun table rule side last)
    (kept : Journal.Kept (program.workload table rule side) journal)
    (ongoing : journal.residual.Ongoing)
    (same : journal.residual.precedence = (program.workload table rule side).precedence)
    (timed : program.DelaysTakeTime table) : ∀ id ∈ journal.residual.pending,
      (program.workload table rule side).isDelay id = true → 0 < journal.remaining[id]?.getD 0 := by
  intro id waits delay
  obtain ⟨job, found, rfl⟩ := run.sound.exists_job ongoing same waits
  rw [Workload.isDelay, found, Option.any_some] at delay
  obtain ⟨-, known, lasts⟩ := job_of_workload run.resolves found
  cases kept.unfinished found waits with
  | untouched _ left => exact left ▸ timed known delay lasts
  | begun _ _ _ positive => exact positive

/-- Without timesteps, every group of a run was made for one of its entries.

**Proof sketch.** Run lemma (`Runs.eachStep`). Each step is made for a dominant operation, whose
entry leads the group and is as long as it. If that is a delay, no other kind of operation was
ready, so that no entry at the beginning of the step is of another kind. -/
lemma LockStepRun.exists_madeFor (run : program.LockStepRun table rule side last)
    (wellFormed : program.WellFormed)
    (plain : ∀ operation ∈ program.operations, operation.isTimestep = false) :
    ∀ group ∈ last.groups, ∃ entry, program.MadeFor table group entry := by
  have each : EachStep (fun _ group => ∃ entry, program.MadeFor table group entry) last.groups := by
    have fresh := run.fresh wellFormed plain
    refine run.runs.eachStep (Grouping.Going (program.workload table rule side))
      (fun {grouping next} going left advanced _ => ?_) (.start run.sound) (eachStep_nil _)
    obtain ⟨id, length, dominant, makes, -⟩ :=
      going.toInOrder.makes_of_plain run.sound fresh.plain left advanced
    refine ⟨(going.advance run.sound advanced).1, fun each => ?_⟩
    obtain ⟨job, found, number⟩ := run.sound.exists_job going.ongoing going.precedence
      (Residual.mem_pending_of_mem_frontier dominant.among)
    have no_timestep : job.operation.isTimestep = false := by
      simpa [Workload.isTimestep, found] using fresh.plain id
    rw [makes.groups, Grouping.loose_nil, List.map_nil, List.append_nil]
    obtain ⟨entry, leads, same_kind, as_long⟩ := dominant.exists_ledBy run.sound fresh.wellFormed
      going.ongoing going.precedence going.size found no_timestep grouping.elapsed _
    refine each.concat ⟨entry, leads, as_long, fun timed delay other member start => ?_⟩
    by_contra no_delay
    have filled := Step.filled_fill run.sound going.ongoing going.precedence going.size
      grouping.elapsed length
    obtain ⟨first, ready, plain'⟩ := filled.exists_plain_ready_of_mem run.sound
      (run.left_pos going.kept going.ongoing going.precedence timed) member
        (Bool.eq_false_iff.mpr no_delay) (Nat.add_right_cancel start)
    rw [same_kind, (dominant.operation first ready plain').1] at delay
    cases delay
  intro group member
  obtain ⟨before, after, split⟩ := List.append_of_mem member
  exact each before group after split

/-- If delays take time, the groups of a run are governed. -/
lemma LockStepRun.governed (run : program.LockStepRun table rule side last)
    (wellFormed : program.WellFormed)
    (plain : ∀ operation ∈ program.operations, operation.isTimestep = false)
    (timed : program.DelaysTakeTime table) : ∀ group ∈ last.groups, group.Governed := by
  rintro group member ⟨other, leads', no_delay⟩
  obtain ⟨entry, leads, as_long, only_delays⟩ := run.exists_madeFor wellFormed plain group member
  refine ⟨entry, leads, ?_, as_long⟩
  by_contra delay
  obtain ⟨first, _, spans⟩ := run.stepped.exists_spans group member
  obtain ⟨source, boundary⟩ := spans.boundary_eq
  have start : other.start + group.length = group.boundary.start := by
    rw [spans.start_eq leads', boundary]
    rfl
  rw [only_delays timed (Bool.eq_true_of_not_eq_false delay) other leads'.mem start] at no_delay
  cases no_delay

/-- A schedule that a run made is repeated by a run on its entries exactly if its groups are
governed.

**Proof sketch.** If both schedules are alike, the steps of the second run are as long as those of
the first, so the groups are governed (`governedBy_of_lengths`). Conversely governed groups are made
again, because the longest delay that leads a group is as long as it whenever a delay decides. -/
lemma LockStepRun.placedAlike_iff {anomalies : List Anomaly}
    (run : program.LockStepRun table .longest .closing last) (wellFormed : program.WellFormed)
    (plain : ∀ operation ∈ program.operations, operation.isTimestep = false)
    (tight : (Schedule.sealedFor program last.entries anomalies).Tight)
    (run' : (Schedule.sealedFor program last.entries anomalies).toProgram.LockStepRun table'
      .longest .closing final) (anomalies' : List Anomaly) :
    (Schedule.sealedFor program last.entries anomalies).PlacedAlike (.sealedFor
      (Schedule.sealedFor program last.entries anomalies).toProgram final.entries anomalies') ↔
        ∀ group ∈ last.groups, group.Governed := by
  have made := run.exists_madeFor wellFormed plain
  have some_entry : ∀ group ∈ last.groups, group.entries ≠ [] := by
    intro group member
    obtain ⟨entry, made_for⟩ := made group member
    exact List.ne_nil_of_mem made_for.leads.mem
  constructor
  · intro alike
    have timesteps := alike.timesteps
    rw [run'.stepped.timesteps_eq rfl, run.stepped.timesteps_eq rfl] at timesteps
    have lengths : final.groups.map Group.length = last.groups.map Group.length := by
      have lengths := congrArg (List.map Prod.snd) timesteps
      rwa [List.map_map, List.map_map] at lengths
    have lists := tight.lists rfl table' .longest .closing
    have by_rule := lists.governedBy_of_lengths rfl run'.runs
      (tight.left_start rfl table' .longest .closing).2 run.stepped some_entry rfl lengths
    exact fun group member => (by_rule group member).governed
  · intro governed
    have by_rule : ∀ group ∈ last.groups, group.entries ≠ [] ∧ group.GovernedBy .longest := by
      intro group member
      obtain ⟨entry, leads, as_long, -⟩ := made group member
      exact ⟨some_entry group member, (Group.governedBy_longest_iff ⟨entry, leads, as_long⟩).mpr
        (governed group member)⟩
    obtain ⟨duration, timesteps, perm⟩ :=
      tight.renumbered rfl run.stepped run.latestStop_eq by_rule run' anomalies'
    have alike := perm.map Entry.unsourced
    rw [map_unsourced_numbered] at alike
    exact ⟨duration, timesteps, alike⟩

/-- **Lock-step schedules if the longest delay decides.** Suppose that a program was built without
timesteps and scheduled in lock step as soon as possible, with the longest delay deciding how long a
step is for which only delays are ready. Scheduling the entries of that schedule in the same way
succeeds, whatever durations are used. It gives a schedule that is as long, has the same timesteps,
and has the same operations at the same ticks, exactly if every group of the first schedule is
governed: if operations that are no delays lead the group, one of them is as long as it. This is so
if no delay lasts zero ticks.

**Proof sketch.** The second run always succeeds, since its program is well formed, physical and
ordered. When it repeats the first one is `placedAlike_iff`, and groups are governed if delays take
time (`LockStepRun.governed`). -/
theorem schedule_longest_again_iff (built : program.Built)
    (plain : ∀ operation ∈ program.operations, operation.isTimestep = false)
    (method : settings.method = "asap_timestep") (rule : settings.rule = "longest")
    (ok : (program.schedule table settings).result = .ok schedule) (table' : DurationTable)
    (method' : settings'.method = settings.method) (rule' : settings'.rule = settings.rule) :
    ∃ again groups, (schedule.toProgram.schedule table' settings').result = .ok again ∧
      schedule.entries = groups.flatMap Group.toList ∧
      InLockStep program.numResources 0 groups ∧
      (schedule.PlacedAlike again ↔ ∀ group ∈ groups, group.Governed) ∧
      (program.DelaysTakeTime table → schedule.PlacedAlike again) := by
  have tight := schedule_tight built.wellFormed (fun alap => by simp [alap] at method) ok
  have parsed : DelayRule.parse settings.rule = .ok .longest := by
    rw [rule]
    rfl
  have parsed' : DelayRule.parse settings'.rule = .ok .longest := by rw [rule', parsed]
  rw [result_schedule (Policy.ofSettings_asapTimestep method parsed)] at ok
  obtain ⟨last, anomalies, run, rfl⟩ := lockStep_run built.wellFormed ok
  have resolves := ((Schedule.sealedFor program last.entries anomalies).resolve_toProgram table').1
  obtain ⟨final, run', ok'⟩ :=
    tight.wellFormed.exists_lockStep tight.physical tight.order resolves .longest .closing
  have alike_iff := run.placedAlike_iff built.wellFormed plain tight run'
  exact ⟨_, last.groups, schedule_of_run (Policy.ofSettings_asapTimestep (method'.trans method)
    parsed') ok', rfl, run.inLockStep.1, alike_iff _,
      fun timed => (alike_iff _).mpr (run.governed built.wellFormed plain timed)⟩

/-- With the longest delay deciding, too, the small program is scheduled in three steps, and its
schedule once more in as many. -/
theorem schedule_longest_again_iff_relay : ∃ first again groups,
    (relay.schedule .relay { method := "asap_timestep", rule := "longest" }).result = .ok first ∧
      first.timesteps = [(3, 3), (5, 2), (9, 4)] ∧
      (first.toProgram.schedule .empty { method := "asap_timestep", rule := "longest" }).result =
        .ok again ∧
      first.entries = groups.flatMap Group.toList ∧ InLockStep 3 0 groups ∧
      (first.PlacedAlike again ↔ ∀ group ∈ groups, group.Governed) ∧ first.PlacedAlike again := by
  have ok : (relay.schedule .relay { method := "asap_timestep", rule := "longest" }).result =
    .ok _ := rfl
  have timed : relay.DelaysTakeTime .relay := by
    intro id operation ticks known delay lasts
    rcases id with _ | _ | _ | _ | id <;> cases known <;> cases delay
    cases lasts
    decide
  obtain ⟨again, groups, ok', entries, steps, alike_iff, alike⟩ :=
    @schedule_longest_again_iff relay .relay _ { method := "asap_timestep", rule := "longest" } _
      built_relay (by decide) rfl rfl ok .empty rfl rfl
  exact ⟨_, again, groups, ok, rfl, ok', entries, steps, alike_iff, alike timed⟩

/-- A long delay, a delay of no duration, and a gate that waits for the latter. -/
def nap : Program where
  name := "nap"
  layout := .physical 3
  tasks := #[⟨.delay (.ticks 4) 0, none⟩, ⟨.delay (.ticks 0) 1, none⟩, ⟨.gate "x" [2], none⟩]
  dependencies := [(1, 2)]

/-- The gate starts with the first step, which is as long as the long delay. Once more, the gate
waits for nothing and cuts the long delay. -/
theorem schedule_longest_differs : nap.Built ∧
    (∀ operation ∈ nap.operations, operation.isTimestep = false) ∧
    ∃ first again,
      (nap.schedule (.ofList [("x", [2], 2)])
        { method := "asap_timestep", rule := "longest" }).result = .ok first ∧
      (first.toProgram.schedule (.ofList [("x", [2], 2)])
        { method := "asap_timestep", rule := "longest" }).result = .ok again ∧
      first.timesteps = [(4, 4)] ∧ again.timesteps = [(2, 2), (4, 2)] ∧
      ¬first.PlacedAlike again := by
  have first := @Built.push _ _ (.delay (.ticks 4) 0) (.empty "nap" (.physical 3)) rfl
  have second := @Built.push _ _ (.delay (.ticks 0) 1) first rfl
  have third := @Built.push _ _ (.gate "x" [2]) second rfl
  have built : nap.Built := @Built.depend _ _ 1 2 third rfl
  exact ⟨built, by decide, _, _, rfl, rfl, rfl, rfl, fun alike =>
    absurd alike.timesteps (by decide)⟩

end Program

end Timetable
