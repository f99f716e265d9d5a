import Timetable.Proofs.GapFree.Reversal
import Timetable.Proofs.Optimal.Forward

/-!
# As late as possible is as early as possible with time running backwards

The reversed program requires the opposite of what the program requires. So turning starts around
within some total, which makes the end of every operation a start, turns feasible starts that are
through by that total into feasible starts of the reversed program, and earliest ones into latest
ones. In particular neither direction takes longer than the other.

## Main definitions

* `Program.Opposite` — two programs that require the opposite of each other.
* `Program.turnedStart` — starts turned around.
* `Program.LatestStart` — feasible starts within a total that are as late as possible.

## Main results

* `Program.ReversedBy.opposite` — a reversal requires the opposite.
* `Program.Opposite.latestStart` — earliest starts turned around are latest starts.
* `Policy.exists_run_forward_reversed` — the forward pass with time running backwards succeeds, and
  starts everything as late as possible.
-/

set_option autoImplicit false

namespace Timetable

open Relation

namespace Program

/-- Two closed programs of one size require the opposite of each other, and their operations last
equally long. -/
structure Opposite (program other : Program) (duration otherDuration : OpId → Tick) : Prop where
  closed : program.Closed
  other_closed : other.Closed
  size : other.size = program.size
  requires : ∀ before < program.size, ∀ after < program.size,
    other.Requires (program.flip after) (program.flip before) ↔ program.Requires before after
  duration : ∀ id < program.size, otherDuration (program.flip id) = duration id

/-- Starts turned around within `total` ticks: an operation starts where the one at the opposite
place has finished. -/
def turnedStart (program : Program) (total : Tick) (duration start : OpId → Tick) (id : OpId) :
    Tick :=
  total - (start (program.flip id) + duration (program.flip id))

/-- Feasible starts with which everything has finished by some tick, none of which could be
later. -/
structure LatestStart (program : Program) (duration : OpId → Tick) (total : Tick)
    (start : OpId → Tick) : Prop where
  feasible : program.Feasible duration start
  within : ∀ id < program.size, start id + duration id ≤ total
  maximal : ∀ other, program.Feasible duration other →
    (∀ id < program.size, other id + duration id ≤ total) → ∀ id < program.size, other id ≤ start id

variable {program other : Program} {duration otherDuration start otherStart : OpId → Tick}
  {total : Tick}

/-- Turned around, an operation starts where the opposite one has finished. -/
lemma turnedStart_flip {id : OpId} (inside : id < program.size) :
    program.turnedStart total duration start (program.flip id) =
      total - (start id + duration id) := by
  rw [turnedStart, flip_flip inside]

/-- Everything has finished by a tick exactly if every operation has. -/
lemma makespan_le_iff : program.makespan duration start ≤ total ↔
    ∀ id < program.size, start id + duration id ≤ total := by
  simp [makespan, latest_le_iff, ids]

/-- With the earliest starts everything finishes as early as possible. -/
lemma EarliestStart.makespan_le (earliest : program.EarliestStart duration start)
    (feasible : program.Feasible duration otherStart) :
    program.makespan duration start ≤ program.makespan duration otherStart :=
  makespan_le_iff.mpr fun id inside =>
    (Nat.add_le_add_right (earliest.minimal otherStart feasible id inside) _).trans
      (makespan_le_iff.mp (le_refl _) id inside)

/-! ## Programs that require the opposite of each other -/

namespace Opposite

/-- The opposite place does not depend on which of the two programs is asked. -/
lemma flip_eq (opposite : Opposite program other duration otherDuration) :
    other.flip = program.flip := by
  funext id
  rw [flip, flip, opposite.size]

/-- Each program is the opposite of the other. -/
lemma symm (opposite : Opposite program other duration otherDuration) :
    Opposite other program otherDuration duration := by
  refine ⟨opposite.other_closed, opposite.closed, opposite.size.symm, ?_, ?_⟩
  · intro before inside after inside'
    obtain ⟨id, smaller, rfl⟩ := exists_flip (opposite.size ▸ inside)
    obtain ⟨id', smaller', rfl⟩ := exists_flip (opposite.size ▸ inside')
    rw [opposite.flip_eq, flip_flip smaller, flip_flip smaller']
    exact (opposite.requires id' smaller' id smaller).symm
  · intro place inside
    obtain ⟨id, smaller, rfl⟩ := exists_flip (opposite.size ▸ inside)
    rw [opposite.flip_eq, flip_flip smaller, opposite.duration id smaller]

/-- Feasible starts within a total stay feasible when they are turned around. -/
lemma feasible_turnedStart (opposite : Opposite program other duration otherDuration)
    (feasible : program.Feasible duration start)
    (within : ∀ id < program.size, start id + duration id ≤ total) :
    other.Feasible otherDuration (program.turnedStart total duration start) := by
  intro before after required
  obtain ⟨inside, inside'⟩ := opposite.other_closed.lt_size_of_requires required
  obtain ⟨id, smaller, rfl⟩ := exists_flip (opposite.size ▸ inside)
  obtain ⟨id', smaller', rfl⟩ := exists_flip (opposite.size ▸ inside')
  have order := feasible id' id ((opposite.requires id' smaller' id smaller).mp required)
  have bound := within id smaller
  rw [turnedStart_flip smaller, turnedStart_flip smaller',
    opposite.duration id smaller]
  lia

/-- Starts turned around within a total stay within it. -/
lemma turnedStart_add_le (opposite : Opposite program other duration otherDuration)
    (within : ∀ id < program.size, start id + duration id ≤ total) :
    ∀ place < other.size,
      program.turnedStart total duration start place + otherDuration place ≤ total := by
  intro place inside
  obtain ⟨id, smaller, rfl⟩ := exists_flip (opposite.size ▸ inside)
  have bound := within id smaller
  rw [turnedStart_flip smaller, opposite.duration id smaller]
  lia

/-- Earliest starts are through no later than any feasible starts of the opposite program. -/
lemma makespan_le (opposite : Opposite program other duration otherDuration)
    (earliest : program.EarliestStart duration start)
    (feasible : other.Feasible otherDuration otherStart) :
    program.makespan duration start ≤ other.makespan otherDuration otherStart := by
  have within := makespan_le_iff.mp (le_refl (other.makespan otherDuration otherStart))
  refine (earliest.makespan_le (opposite.symm.feasible_turnedStart feasible within)).trans ?_
  exact makespan_le_iff.mpr (opposite.symm.turnedStart_add_le within)

/-- Neither direction takes longer than the other. -/
lemma makespan_eq (opposite : Opposite program other duration otherDuration)
    (earliest : program.EarliestStart duration start)
    (earliest' : other.EarliestStart otherDuration otherStart) :
    program.makespan duration start = other.makespan otherDuration otherStart :=
  Nat.le_antisymm (opposite.makespan_le earliest earliest'.feasible)
    (opposite.symm.makespan_le earliest' earliest.feasible)

/-- Earliest starts turned around within their makespan are latest starts.

**Proof sketch.** Competing starts are turned around, too, and are then feasible for the opposite
program, whose earliest starts are no later. -/
theorem latestStart (opposite : Opposite program other duration otherDuration)
    (earliest : program.EarliestStart duration start) :
    other.LatestStart otherDuration (program.makespan duration start)
      (program.turnedStart (program.makespan duration start) duration start) := by
  have within := makespan_le_iff.mp (le_refl (program.makespan duration start))
  refine ⟨opposite.feasible_turnedStart earliest.feasible within,
    opposite.turnedStart_add_le within, fun competing feasible within' place inside => ?_⟩
  obtain ⟨id, smaller, rfl⟩ := exists_flip (opposite.size ▸ inside)
  have earlier :=
    earliest.minimal _ (opposite.symm.feasible_turnedStart feasible within') id smaller
  have bound := within' _ inside
  rw [turnedStart, opposite.flip_eq, opposite.duration id smaller] at earlier
  rw [opposite.duration id smaller] at bound
  rw [turnedStart_flip smaller]
  lia

end Opposite

/-! ## The reversal of a program -/

namespace ReversedBy

variable {table : DurationTable} {reversal : Reversal}

/-- The reversal uses a resource where the program does. -/
lemma uses_flip (reversed : program.ReversedBy table reversal) {id : OpId}
    (inside : id < program.size) (resource : Resource) :
    reversal.program.uses (program.flip id) resource = program.uses id resource := by
  rw [uses, uses, reversed.operation id inside]

/-- The dependencies of the reversal are the opposite of those of the program. -/
lemma mem_dependencies_flip (reversed : program.ReversedBy table reversal)
    (closed : program.Closed) {before after : OpId} (inside : before < program.size)
    (inside' : after < program.size) :
    (program.flip after, program.flip before) ∈ reversal.program.dependencies ↔
      (before, after) ∈ program.dependencies := by
  rw [reversed.dependencies]
  refine ⟨fun known => ?_, fun known => List.mem_map.mpr ⟨_, known, rfl⟩⟩
  obtain ⟨⟨before', after'⟩, known, same⟩ := List.mem_map.mp known
  obtain ⟨bound, bound'⟩ := closed.known _ known
  obtain ⟨same', same⟩ := Prod.mk.inj same
  rw [← flip_flip inside, ← flip_flip inside', ← same, ← same', flip_flip bound, flip_flip bound']
  exact known

/-- The reversal requires the opposite of what the program requires. -/
lemma requires_flip (reversed : program.ReversedBy table reversal) (closed : program.Closed)
    {before after : OpId} (inside : before < program.size) (inside' : after < program.size) :
    reversal.program.Requires (program.flip after) (program.flip before) ↔
      program.Requires before after := by
  refine or_congr (reversed.mem_dependencies_flip closed inside inside') (and_congr ?_ ?_)
  · unfold flip
    lia
  · simp only [reversed.uses_flip inside, reversed.uses_flip inside']
    exact exists_congr fun resource => and_comm

/-- A program and its reversal are opposite.

**Proof sketch.** The reversal has as many operations, requires the other way around what the
program requires, and counts the operations from the other end. -/
theorem opposite (reversed : program.ReversedBy table reversal) (closed : program.Closed) :
    Opposite program reversal.program duration fun place => duration (program.flip place) :=
  ⟨closed, reversed.closed closed, reversed.size,
    fun _ inside _ inside' => reversed.requires_flip closed inside inside',
    fun _ inside => congrArg duration (flip_flip inside)⟩

/-- The reversal of a physical program is physical. -/
lemma physical (reversed : program.ReversedBy table reversal)
    (physical : program.violation? = none) : reversal.program.violation? = none :=
  physical_of_subset physical reversed.layout fun _ => reversed.mem_operations.mp

/-- In the reversal, chains of what is required lead from the opposite of their end to the opposite
of their start. -/
lemma transGen_flip (reversed : program.ReversedBy table reversal) (closed : program.Closed)
    {before after : OpId} (chain : TransGen program.Requires before after) :
    TransGen reversal.program.Requires (program.flip after) (program.flip before) := by
  refine transGen_swap.mp (TransGen.lift program.flip (fun before after required => ?_) _ _ chain)
  obtain ⟨inside, inside'⟩ := closed.lt_size_of_requires required
  exact (reversed.requires_flip closed inside inside').mpr required

/-- All chains of the reversal come from chains of the program. -/
lemma transGen_of_flip (reversed : program.ReversedBy table reversal) (closed : program.Closed)
    {before after : OpId} (chain : TransGen reversal.program.Requires before after) :
    TransGen program.Requires (program.flip after) (program.flip before) := by
  refine transGen_swap.mp (TransGen.lift program.flip (fun before after required => ?_) _ _ chain)
  obtain ⟨inside, inside'⟩ := (reversed.closed closed).lt_size_of_requires required
  obtain ⟨id, smaller, rfl⟩ := exists_flip (reversed.size ▸ inside)
  obtain ⟨id', smaller', rfl⟩ := exists_flip (reversed.size ▸ inside')
  have required' := (reversed.requires_flip closed smaller' smaller).mp required
  rwa [← flip_flip smaller, ← flip_flip smaller'] at required'

/-- A program has no circular dependencies if its reversal has none. -/
lemma acyclic_of_reversal (reversed : program.ReversedBy table reversal) (closed : program.Closed)
    (acyclic : reversal.program.Acyclic) : program.Acyclic :=
  fun _ circle => acyclic _ (reversed.transGen_flip closed circle)

/-- The reversal of a program without circular dependencies has none. -/
lemma acyclic (reversed : program.ReversedBy table reversal) (closed : program.Closed)
    (acyclic : program.Acyclic) : reversal.program.Acyclic :=
  fun _ circle => acyclic _ (reversed.transGen_of_flip closed circle)

/-- In the reversal every operation lasts as long as in the program. -/
lemma lasts (reversed : program.ReversedBy table reversal) (lasts : program.Lasts table duration)
    (other : DurationTable) :
    reversal.program.Lasts other fun place => duration (program.flip place) := by
  intro place inside
  obtain ⟨id, smaller, rfl⟩ := exists_flip (reversed.size ▸ inside)
  rw [reversed.duration id smaller, lasts id smaller]
  exact congrArg (some ∘ duration) (flip_flip smaller).symm

/-- A schedule of the reversal that is turned around realizes the starts turned around.

**Proof sketch.** Both directions go through the origins: an entry that is turned around comes from
the operation at the place counted from the other end, keeps its duration, and starts where the
total leaves it when it ended before. -/
lemma realizes (reversed : program.ReversedBy table reversal) {schedule : Schedule}
    (realizes : reversal.program.Realizes (fun place => duration (program.flip place)) start
      schedule.entries) :
    program.Realizes duration (reversal.program.turnedStart schedule.duration
      (fun place => duration (program.flip place)) start) (reversal.turned schedule) := by
  constructor
  · intro entry member id source
    obtain ⟨before, found, rfl⟩ := List.mem_map.mp member
    obtain ⟨place, source', origin⟩ := Option.bind_eq_some_iff.mp source
    obtain ⟨inside, lasts, begins⟩ :=
      realizes.source before (List.mem_reverse.mp found) place source'
    obtain ⟨id', smaller, rfl⟩ := exists_flip (reversed.size ▸ inside)
    obtain rfl : id' = id := Option.some.inj ((reversed.origin id' smaller).symm.trans origin)
    have back : reversal.program.flip id' = program.flip id' := by rw [flip, flip, reversed.size]
    refine ⟨smaller, lasts.trans (congrArg duration (flip_flip smaller)), ?_⟩
    rw [turnedStart, back, Entry.mirrored, Entry.stop, lasts, begins]
  · intro id inside
    have place := flip_lt inside
    rw [← reversed.size] at place
    obtain ⟨entry, member, source⟩ := realizes.placed (program.flip id) place
    refine ⟨_, List.mem_map_of_mem (List.mem_reverse.mpr member), ?_⟩
    rw [Entry.mirrored, source, Option.bind_some, reversed.origin id inside]

end ReversedBy

end Program

/-! ## The pass -/

/-- The entries of the forward pass with time running backwards, before boundaries are shifted. -/
def Program.unshifted? (program : Program) (table : DurationTable) : Option (List Entry) :=
  match program.reverse table with
  | (_, .error _) => none
  | (_, .ok reversal) =>
    match (reversal.program.forward table).result with
    | .error _ => none
    | .ok schedule => some (reversal.turned schedule)

/-- The entries are delays and the operations of the program. -/
lemma Program.operation_of_unshifted? {program : Program} {table : DurationTable}
    {entries : List Entry} (unshifted : program.unshifted? table = some entries) {entry : Entry}
    (member : entry ∈ entries) : (∃ length resource, entry.operation = .idle length resource) ∨
      entry.operation ∈ program.operations := by
  unfold unshifted? at unshifted
  split at unshifted
  · cases unshifted
  · rename_i reverses
    obtain ⟨-, reversedBy⟩ := reverse_eq_ok reverses
    split at unshifted
    · cases unshifted
    · rename_i ok
      cases unshifted
      exact reversedBy.operation_of_mem_turned ok member

/-- Some entries, each of which uses a resource, lead all resources of a program from tick zero to
`total`, where the last of them end, and start every operation as late as possible. -/
structure Program.Late (program : Program) (duration : OpId → Tick) (total : Tick)
    (start : OpId → Tick) (entries : List Entry) : Prop where
  latest : program.LatestStart duration total start
  realizes : program.Realizes duration start entries
  touching : ∀ entry ∈ entries, entry.resources ≠ []
  tiles : Tiles program.numResources (fun _ => 0) entries fun _ => total
  latestStop_eq : latestStop entries = total

/-- **As late as possible.** With time running backwards the forward pass schedules every physical
program without circular dependencies whose durations are known. Before boundaries are shifted, the
entries have no gaps, are through when the earliest starts are, and start everything at the latest
feasible tick.

**Proof sketch.** The reversal is again physical and without circles, and its durations are known,
so that `Program.exists_forward` schedules it. Starts of the reversal and of the program are
opposite to each other (`Program.Opposite`), which turns the earliest ones into the latest. -/
theorem Policy.exists_run_forward_reversed {program : Program} {table : DurationTable}
    {duration early : OpId → Tick} (wellFormed : program.WellFormed)
    (physical : program.violation? = none) (acyclic : program.Acyclic)
    (lasts : program.Lasts table duration) (earliest : program.EarliestStart duration early) :
    ∃ schedule late start, ((reversed (forward table) table).run program).result = .ok schedule ∧
      schedule.layout = program.layout ∧ schedule.cached = some schedule.total ∧
      program.unshifted? table = some late ∧ schedule.entries = shiftEntries none 0 late ∧
      program.Late duration (program.makespan duration early) start late := by
  have reversedBy := Program.reversedBy lasts.reverses
  have opposite : Program.Opposite program _ duration _ := reversedBy.opposite wellFormed.toClosed
  obtain ⟨inner, start, ok, realizes, earliest', total⟩ := Program.exists_forward
    (reversedBy.wellFormed wellFormed) (reversedBy.physical physical)
    (reversedBy.acyclic wellFormed.toClosed acyclic) (reversedBy.lasts lasts table)
  have gapFree := Program.forward_gapFree (reversedBy.wellFormed wellFormed) ok
  have resources : inner.numResources = program.numResources := by
    obtain ⟨order, -, -, -, rfl⟩ := Program.forward_eq_ok ok
    exact congrArg Layout.numResources reversedBy.layout
  have same : inner.total = program.makespan duration early := by
    rw [total, opposite.makespan_eq earliest earliest']
  have sources : ∀ entry ∈ inner.entries, ∀ id, entry.source = some id → id < program.size :=
    fun entry member id source => reversedBy.size ▸ (realizes.source entry member id source).1
  have inner_ok : ((forward table).run _).result = .ok inner := ok
  obtain ⟨schedule, succeeds, layout, cached, entries⟩ :=
    exists_run_reversed physical lasts.reverses inner_ok sources
  have late : program.Late duration inner.total _
      ((program.resolve table program.ids.reverse).reversal.turned inner) :=
    { latest := total ▸ opposite.symm.latestStart earliest'
      realizes := gapFree.duration_eq ▸ reversedBy.realizes realizes
      touching := gapFree.touching_turned _
      tiles := resources ▸ gapFree.tiles_turned _
      latestStop_eq := gapFree.latestStop_turned _ }
  refine ⟨schedule, _, _, succeeds, layout, cached, ?_, entries, same ▸ late⟩
  simp only [Program.unshifted?, Program.reverse, lasts.reverses, ok]

end Timetable
