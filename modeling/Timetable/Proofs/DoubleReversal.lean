import Timetable.Proofs.Conservation
import Timetable.Proofs.History
import Timetable.Proofs.LockStep.Sides
import Timetable.Proofs.Precedence.Reversal
import Timetable.Proofs.Rescheduling.Reversal
import Timetable.Proofs.Totality

/-!
# Running backwards twice

The reversal of a reversal has the operations and the dependencies that were reversed, with their
durations written into the slots, so a pass makes the same schedule of it. That schedule is turned
around twice on its way back. Entries then stand where they stood. Boundaries are shifted twice, and
although shifting is not its own inverse, each of them returns to the end of its step, because
turned around it stands at the opposite of the tick at which the step began.

## Main definitions

* `Program.twofold` — the reversal of the reversal of a program.

## Main results

* `Program.Lasts.turned_back` — turning entries around twice leads back to the entries.
* `Grouping.turned_turned` — turning the groups of a run around twice leads back to the run.
* `Program.latest_latest` — the latest of the latest schedules is the earliest.
-/

set_option autoImplicit false

namespace Timetable

variable {program other : Program} {table : DurationTable} {duration : OpId → Tick}
  {schedule : Schedule} {rule : DelayRule}

/-! ## Reversing a program twice -/

namespace Program

/-- The reversal of the reversal of a program. -/
abbrev twofold (program : Program) (table : DurationTable) : Reversal :=
  (program.reversal table).program.reversal table

namespace Lasts

/-- Every operation lasts as long in the reversal of the reversal as it does in the program. -/
lemma twofold (lasts : program.Lasts table duration) :
    (program.twofold table).program.Lasts table duration := by
  have first := lasts.reversedBy
  intro id inside
  have twice := (lasts.reversal table).reversal table id inside
  rw [first.flip_eq] at twice
  rw [twice]
  have smaller : id < program.size :=
    (lasts.reversal table).reversedBy.size.trans first.size ▸ inside
  exact congrArg (some ∘ duration) (flip_flip smaller)

/-- What an operation of the reversal of the reversal came from is the same operation of the
program. -/
lemma origin_twofold (lasts : program.Lasts table duration) {id : OpId}
    (inside : id < program.size) :
    ((program.twofold table).origin? id).bind (program.reversal table).origin? = some id :=
  lasts.reversedBy.origin_twice (lasts.reversal table).reversedBy inside

/-- What comes back from the reversal of the reversal comes to an operation of the reversal. -/
lemma source_lt (lasts : program.Lasts table duration) {source : Option OpId}
    (known : ∀ place, source = some place → place < program.size) {id : OpId}
    (origin : source.bind (program.twofold table).origin? = some id) : id < program.size := by
  have first := lasts.reversedBy
  obtain ⟨place, rfl, origin⟩ := Option.bind_eq_some_iff.mp origin
  obtain ⟨other, inside, origin', -⟩ :=
    (lasts.reversal table).reversedBy.exists_origin (first.size.symm ▸ known place rfl)
  cases origin.symm.trans origin'
  exact first.size ▸ inside

/-- Entries that come back with shifted boundaries were made from operations of the program. -/
lemma source_lt_shifted (lasts : program.Lasts table duration)
    (known : ∀ entry ∈ schedule.entries, ∀ id, entry.source = some id → id < program.size) :
    ∀ entry ∈ shiftEntries none 0 ((program.twofold table).turned schedule), ∀ id,
      entry.source = some id → id < program.size := by
  intro entry member id source
  obtain ⟨moved, among, same⟩ := exists_unplaced_of_mem_shiftEntries member
  obtain ⟨before, found, rfl⟩ := List.mem_map.mp among
  exact lasts.source_lt (known before (List.mem_reverse.mp found))
    ((congrArg Entry.source same).trans source)

end Lasts

/-- The reversal of the reversal differs from the program in slots at most. -/
lemma sameButSlots_twofold (closed : program.Closed) (lasts : program.Lasts table duration) :
    (program.twofold table).program.SameButSlots program :=
  lasts.sameButSlots_reversal closed table

/-! ## Passes over programs that differ in slots -/

/-- The forward pass makes the same entries for programs that differ in slots at most if everything
lasts as long. -/
lemma SameButSlots.exists_forward (same : other.SameButSlots program) (closed : program.Closed)
    (lasts : program.Lasts table duration) (lasts' : other.Lasts table duration)
    (ok : (program.forward table).result = .ok schedule) :
    ∃ again, (other.forward table).result = .ok again ∧ again.entries = schedule.entries := by
  obtain ⟨order, physical, ordered, resolves, rfl⟩ := forward_eq_ok ok
  have known := closed.lt_size_of_order ordered
  obtain ⟨-, jobs⟩ := resolve_of_lasts lasts known
  obtain ⟨resolves', jobs'⟩ := resolve_of_lasts lasts' fun id member => same.size ▸ known id member
  have entries : (Front.after other (other.resolve table order).jobs).closed =
      (Front.after program (program.resolve table order).jobs).closed := by
    rw [jobs, jobs', same.job?, Front.after, Front.after, Front.start, Front.start, same.precedence,
      same.numResources, same.size]
  exact ⟨_, forward_of_ordered (closed.of_same same) (same.violation?.trans physical)
    (same.precedence ▸ ordered) resolves', entries⟩

/-- The workloads of programs that differ in slots at most only differ in their sides if everything
lasts as long. -/
lemma SameButSlots.workload_eq (same : other.SameButSlots program)
    (lasts : program.Lasts table duration) (lasts' : other.Lasts table duration) (rule : DelayRule)
    (side side' : CarriedSide) :
    other.workload table rule side' = (program.workload table rule side).onSide side' := by
  have known : ∀ id ∈ program.ids, id < program.size := fun id => List.mem_range.mp
  have known' : ∀ id ∈ other.ids, id < other.size := fun id => List.mem_range.mp
  obtain ⟨-, jobs⟩ := resolve_of_lasts lasts known
  obtain ⟨-, jobs'⟩ := resolve_of_lasts lasts' known'
  unfold workload Workload.onSide
  rw [jobs, jobs', same.job?, same.ids, same.name, same.precedence, same.numResources]

/-- Without timesteps, the lock-step pass makes the same run of programs that differ in slots at
most, on whichever side, if everything lasts as long. -/
lemma SameButSlots.lockStepRun (same : other.SameButSlots program)
    (wellFormed : program.WellFormed) (physical : program.violation? = none) {order : List OpId}
    (ordered : program.precedence.order = .ok order) (lasts : program.Lasts table duration)
    (lasts' : other.Lasts table duration)
    (plain : ∀ operation ∈ program.operations, operation.isTimestep = false)
    {side : CarriedSide} {last : Grouping} (run : program.LockStepRun table rule side last)
    (side' : CarriedSide) : other.LockStepRun table rule side' last ∧
      (other.lockStep table rule side').result = .ok (.sealedFor other last.entries
        (other.resolve table other.ids).anomalies) := by
  obtain ⟨resolves', -⟩ := resolve_of_lasts lasts' fun _ => List.mem_range.mp
  obtain ⟨again, run', ok'⟩ := (wellFormed.of_same same).exists_lockStep
    (same.violation?.trans physical) (same.precedence ▸ ordered) resolves' rule side'
  have ran := run'.ran
  rw [same.workload_eq lasts lasts' rule side side',
    Workload.grouping_onSide (isTimestep_workload run.resolves plain), run.ran] at ran
  cases ran
  exact ⟨run', ok'⟩

end Program

/-! ## Turning a schedule around twice -/

/-- An entry that is turned around twice, and whose source leads back, is what it was. -/
lemma Entry.mirrored_back {entry : Entry} {total : Tick} {origin origin' : OpId → Option OpId}
    (within : entry.stop ≤ total)
    (back : ∀ id, entry.source = some id → (origin id).bind origin' = some id) :
    (entry.mirrored total origin).mirrored total origin' = entry := by
  have source : (entry.source.bind origin).bind origin' = entry.source := by
    cases source : entry.source with
    | none => rfl
    | some id => exact back id source
  rw [mirrored_twice within, source]

/-- Entries that come back from the reversal of the reversal in two turns are what they were.

**Proof sketch.** Reversed twice, the list of entries is in its old order. Each entry ends within
the duration, so turning it around twice leads back to its place, and its source comes back since
the two translations of a number undo each other (`origin_twofold`). -/
theorem Program.Lasts.turned_back (lasts : program.Lasts table duration)
    (known : ∀ entry ∈ schedule.entries, ∀ id, entry.source = some id → id < program.size)
    (ends : ∀ entry ∈ schedule.entries, entry.stop ≤ schedule.duration) :
    ((program.twofold table).turned schedule).reverse.map
      (Entry.mirrored schedule.duration (program.reversal table).origin?) = schedule.entries := by
  rw [Reversal.turned, ← List.map_reverse, List.reverse_reverse, List.map_map]
  refine (List.map_congr_left fun entry member => ?_).trans (List.map_id _)
  exact Entry.mirrored_back (ends entry member) fun id source =>
    lasts.origin_twofold (known entry member id source)

/-- A group that is turned around twice, each time with its boundary where it opens the step, is
what it was.

**Proof sketch.** The entries come back one by one, because they lie within the group and so within
the total. The boundary is stamped at the opening side before each turn, so that it has to be
followed through both of them: it starts at the end of its step, is turned with the step, and ends
up there again. -/
lemma Group.Spans.mirrored_back {group : Group} {numResources : Nat} {first last total : Tick}
    {origin origin' : OpId → Option OpId} (spans : group.Spans numResources first last)
    (within : last ≤ total) (back : ∀ entry ∈ group.toList, ∀ id, entry.source = some id →
      (origin id).bind origin' = some id) :
    (((group.stamped .opening).mirrored total origin).stamped .opening).mirrored total origin' =
      group := by
  have le := spans.le
  obtain ⟨source, boundary⟩ := spans.boundary
  have entries : group.entries.map (fun entry =>
      (entry.mirrored total origin).mirrored total origin') = group.entries := by
    refine (List.map_congr_left fun entry member => ?_).trans (List.map_id _)
    obtain ⟨resource, used⟩ := List.exists_mem_of_ne_nil _ (spans.plain entry member).2
    exact Entry.mirrored_back ((spans.tiles.stop_le member used).trans within)
      (back entry (List.mem_append_left _ member))
  have known : (source.bind origin).bind origin' = source := by
    cases source with
    | none => rfl
    | some id =>
      have closes : group.boundary ∈ group.toList :=
        List.mem_append_right _ (List.mem_singleton_self _)
      exact back group.boundary closes id (by rw [boundary]; rfl)
  -- The boundary stands at the end, the opposite of the begin, the opposite end, and at the end.
  have start : total - (total - (last - (last - first)) - (last - first)) = last := by lia
  refine congrArg₂ Group.mk ?_ ?_
  · simpa [stamped, Group.mirrored, List.map_reverse, Function.comp_def] using entries
  · simp [stamped, Group.mirrored, length, boundary, Entry.mirrored, Entry.boundary, Entry.stop,
      Entry.stepLength, Operation.stepLength?, start, known]

/-- Turning the groups of a run around twice leads back to the groups of the run.

**Proof sketch.** Reversed twice, the list of groups is in its old order, and each group comes back
(`Group.Spans.mirrored_back`). -/
theorem Grouping.turned_turned {reversal reversal' : Reversal} {last : Grouping}
    {numResources : Nat} (stepped : LockStepped numResources 0 last.groups last.elapsed)
    (back : ∀ entry ∈ last.entries, ∀ id, entry.source = some id →
      (reversal.origin? id).bind reversal'.origin? = some id) :
    ((last.turned reversal).reverse.map fun group =>
      (group.stamped .opening).mirrored last.elapsed reversal'.origin?) = last.groups := by
  rw [turned, ← List.map_reverse, List.reverse_reverse, List.map_map]
  refine (List.map_congr_left fun group member => ?_).trans (List.map_id _)
  obtain ⟨before, after, spans, within⟩ := stepped.exists_spans_le.2 group member
  exact spans.mirrored_back within fun entry among =>
    back entry (List.mem_flatMap.mpr ⟨group, member, among⟩)

/-! ## The passes -/

/-- If a pass schedules the reversal of the reversal, the schedule comes back in two turns. -/
lemma Policy.exists_run_twofold {inner : Policy} {middle : List Entry}
    (physical : program.violation? = none) (lasts : program.Lasts table duration)
    (ok : (inner.run (program.twofold table).program).result = .ok schedule)
    (known : ∀ entry ∈ schedule.entries, ∀ id, entry.source = some id → id < program.size)
    (turned : shiftEntries none 0 ((program.twofold table).turned schedule) = middle)
    (ends : latestStop middle = schedule.duration) :
    ∃ again, ((reversed (reversed inner table) table).run program).result = .ok again ∧
      again.cached = some again.total ∧ again.entries = shiftEntries none 0 (middle.reverse.map
        (Entry.mirrored schedule.duration (program.reversal table).origin?)) := by
  have first := lasts.reversedBy
  obtain ⟨halfway, ran, -, cached, entries⟩ := exists_run_reversed (first.physical physical)
    (lasts.reversal table).reverses ok fun entry member id source =>
      first.size.symm ▸ known entry member id source
  obtain ⟨again, ran', -, cached', entries'⟩ := exists_run_reversed physical lasts.reverses ran
    (entries ▸ lasts.source_lt_shifted known)
  have entries := entries.trans turned
  have duration : halfway.duration = schedule.duration := by
    rw [Schedule.duration_of_cached cached, Schedule.total, entries, ends]
  rw [Reversal.turned, entries, duration] at entries'
  exact ⟨again, ran', cached', entries'⟩

namespace Program

/-- The forward pass, twice with time running backwards.

**Proof sketch.** The reversal of the reversal differs from the program in its slots only
(`sameButSlots_twofold`), so the forward pass makes the same entries for it. Without timesteps
nothing is shifted, neither after the first turn nor after the second one, and two turns lead back
to these entries (`Lasts.turned_back`). -/
lemma exists_forward_twofold (wellFormed : program.WellFormed)
    (physical : program.violation? = none) (acyclic : program.Acyclic)
    (lasts : program.Lasts table duration)
    (plain : ∀ operation ∈ program.operations, operation.isTimestep = false) :
    ∃ schedule again, (program.forward table).result = .ok schedule ∧
      ((Policy.reversed (.reversed (.forward table) table) table).run program).result = .ok again ∧
      again.entries = schedule.entries ∧ again.duration = schedule.duration := by
  have closed := wellFormed.toClosed
  obtain ⟨schedule, start, ok, realizes, -, -⟩ :=
    exists_forward wellFormed physical acyclic lasts
  have gapFree := forward_gapFree wellFormed ok
  obtain ⟨inner, ok', entries⟩ :=
    (sameButSlots_twofold closed lasts).exists_forward closed lasts lasts.twofold ok
  have gapFree' := forward_gapFree (wellFormed.of_same (sameButSlots_twofold closed lasts)) ok'
  have inner_ok : ((Policy.forward table).run _).result = .ok inner := ok'
  have known : ∀ entry ∈ inner.entries, ∀ id, entry.source = some id → id < program.size := by
    intro entry member id source
    rw [entries] at member
    exact (realizes.source entry member id source).1
  have still : ∀ entry ∈ inner.entries, entry.operation.isTimestep = false := by
    intro entry member
    rw [entries] at member
    exact isTimestep_of_idle_or_mem plain (operation_of_mem_forward ok member)
  have still' : ∀ entry ∈ (program.twofold table).turned inner,
      entry.operation.isTimestep = false := by
    intro entry member
    obtain ⟨before, found, rfl⟩ := List.mem_map.mp member
    exact still before (List.mem_reverse.mp found)
  obtain ⟨again, ran, cached', entries'⟩ := Policy.exists_run_twofold physical lasts inner_ok known
    (shiftEntries_of_plain 0 still')
    ((gapFree'.latestStop_turned _).trans gapFree'.duration_eq.symm)
  have ends : ∀ entry ∈ inner.entries, entry.stop ≤ inner.duration := fun entry member =>
    gapFree'.duration_eq ▸ stop_le_latestStop member
  rw [lasts.turned_back known ends, shiftEntries_of_plain 0 still] at entries'
  refine ⟨schedule, again, ok, ran, entries'.trans entries, ?_⟩
  rw [Schedule.duration_of_cached cached', Schedule.total, entries', entries,
    gapFree.duration_eq, Schedule.total]

/-- The lock-step pass, twice with time running backwards.

**Proof sketch.** The reversal of the reversal differs from the program in its slots only, and
without carried timesteps it does not matter on which side they bound a step, so the inner run makes
the same groups (`SameButSlots.lockStepRun`). After each turn the boundaries are shifted to the
other side of their steps, and two turns lead back to the same groups (`Grouping.turned_turned`). -/
lemma exists_lockStep_twofold (wellFormed : program.WellFormed)
    (physical : program.violation? = none) (acyclic : program.Acyclic)
    (lasts : program.Lasts table duration)
    (plain : ∀ operation ∈ program.operations, operation.isTimestep = false) (rule : DelayRule) :
    ∃ schedule again, (program.lockStep table rule .closing).result = .ok schedule ∧
      ((Policy.reversed (.reversed (.lockStep table rule .opening) table) table).run
        program).result = .ok again ∧
      again.entries = schedule.entries ∧ again.duration = schedule.duration := by
  have closed := wellFormed.toClosed
  obtain ⟨order, ordered⟩ := Precedence.exists_order closed.precedence_sound
    ((closed.acyclic_iff physical).mp acyclic)
  obtain ⟨resolves, -⟩ := resolve_of_lasts lasts fun _ => List.mem_range.mp
  obtain ⟨last, run, ok⟩ := wellFormed.exists_lockStep physical ordered resolves rule .closing
  obtain ⟨run', ok'⟩ := (sameButSlots_twofold closed lasts).lockStepRun wellFormed physical ordered
    lasts lasts.twofold plain run .opening
  obtain ⟨inner, inner_ok, made, ends⟩ : ∃ inner,
      ((Policy.lockStep table rule .opening).run (program.twofold table).program).result =
        .ok inner ∧ inner.entries = last.entries ∧ inner.duration = last.elapsed :=
    ⟨_, ok', rfl, run'.latestStop_eq⟩
  have known : ∀ entry ∈ last.entries, ∀ id, entry.source = some id → id < program.size :=
    run.conserved.known
  have turned : LockStepped _ 0 (last.turned (program.twofold table)) last.elapsed :=
    run'.stepped.turned _
  have shifted : shiftEntries none 0 ((program.twofold table).turned inner) =
      (last.turned (program.twofold table)).flatMap Group.toList := by
    rw [Reversal.turned, made, ends]
    exact run'.shiftEntries_turned _
  obtain ⟨again, ran, cached, entries⟩ := Policy.exists_run_twofold physical lasts inner_ok
    (made ▸ known) shifted ((run'.latestStop_turned _).trans ends.symm)
  have back := Grouping.turned_turned run.stepped fun entry member id source =>
    lasts.origin_twofold (known entry member id source)
  rw [ends, turned.shiftEntries_turned, back] at entries
  refine ⟨_, again, ok, ran, entries, ?_⟩
  rw [Schedule.duration_of_cached cached, Schedule.total, entries]
  rfl

/-- **Running backwards twice.** For a program that was built, that is physical and has neither
circular dependencies nor timesteps, and whose durations are all known, either forward pass makes a
schedule. With time running backwards twice it succeeds, too, with the same entries in the same
order, and the schedule is as long.

**Proof sketch.** One case for each of the two passes, `exists_forward_twofold` and
`exists_lockStep_twofold`. -/
theorem latest_latest (built : program.Built) (physical : program.violation? = none)
    (acyclic : program.Acyclic) (lasts : ∃ duration, program.Lasts table duration)
    (plain : ∀ operation ∈ program.operations, operation.isTimestep = false) {policy : Policy}
    (forwards : policy = .forward table ∨ ∃ rule, policy = .lockStep table rule .closing) :
    ∃ schedule again, (policy.run program).result = .ok schedule ∧
      (((policy.latest table).latest table).run program).result = .ok again ∧
      again.entries = schedule.entries ∧ again.duration = schedule.duration := by
  obtain ⟨duration, lasts⟩ := lasts
  rcases forwards with rfl | ⟨rule, rfl⟩
  · exact exists_forward_twofold built.wellFormed physical acyclic lasts plain
  · exact exists_lockStep_twofold built.wellFormed physical acyclic lasts plain rule

/-- Both passes over the relay, twice with time running backwards. -/
theorem latest_latest_relay :
    (∃ schedule again, ((Policy.forward .relay).run relay).result = .ok schedule ∧
      ((((Policy.forward .relay).latest .relay).latest .relay).run relay).result = .ok again ∧
      again.entries = schedule.entries ∧ again.duration = schedule.duration) ∧
    ∃ schedule again, ((Policy.lockStep .relay .longest .closing).run relay).result = .ok schedule ∧
      ((((Policy.lockStep .relay .longest .closing).latest .relay).latest .relay).run
        relay).result = .ok again ∧
      again.entries = schedule.entries ∧ again.duration = schedule.duration := by
  have plain : ∀ operation ∈ relay.operations, operation.isTimestep = false := by decide
  constructor
  · exact latest_latest built_relay rfl acyclic_relay ⟨_, lasts_relay⟩ plain (.inl rfl)
  · exact latest_latest built_relay rfl acyclic_relay ⟨_, lasts_relay⟩ plain (.inr ⟨.longest, rfl⟩)

end Program

end Timetable
