import Timetable.Proofs.Optimal

/-!
# The precedence of a reversal

Turning a program around turns its precedence around. The immediate predecessors of an operation are
found by going through the operations in program order, which is the other way round in the
reversal, so the two searches have nothing in common. But that one operation hands a resource over
to another says nothing about a direction: both use it, and nothing in between does.

Reversing the reversal leads back to the program, with its durations written into the slots.

## Main definitions

* `Program.reversal` — the reversal of a program whose durations are known.

## Main results

* `Program.ReversedBy.handsOver_flip` — resources are handed over in the opposite direction.
* `Program.ReversedBy.edge_flip` — immediate predecessors become immediate successors.
* `Program.Lasts.sameButSlots_reversal` — reversing twice leads back to the program.
* `Program.reverse_reverse` — what reversing a program does, once and twice.
-/

set_option autoImplicit false

namespace Timetable

namespace Program

variable {program : Program} {table : DurationTable} {duration : OpId → Tick}

/-! ## Immediate predecessors in the reversal -/

namespace ReversedBy

variable {other : DurationTable} {reversal again : Reversal}

/-- In the reversal, resources are handed over in the opposite direction.

**Proof sketch.** Places counted from the other end are in the opposite order, and the operations
there use the same resources. So what lies between two operations is the same, seen from the other
side. -/
theorem handsOver_flip (reversed : program.ReversedBy table reversal) {before after : OpId}
    (inside : before < program.size) (inside' : after < program.size) (resource : Resource) :
    reversal.program.HandsOver resource (program.flip after) (program.flip before) ↔
      program.HandsOver resource before after := by
  unfold HandsOver
  rw [flip_lt_flip_iff inside inside', reversed.uses_flip inside, reversed.uses_flip inside']
  refine and_congr_right fun _ => ?_
  rw [and_left_comm]
  refine and_congr_right fun _ => and_congr_right fun _ => ⟨fun unused => ?_, fun unused => ?_⟩
  · intro between behind smaller used
    have known := smaller.trans inside'
    exact unused (program.flip between) ((flip_lt_flip_iff known inside').mpr smaller)
      ((flip_lt_flip_iff inside known).mpr behind) (by rwa [reversed.uses_flip known])
  · intro place behind smaller used
    obtain ⟨between, known, rfl⟩ := exists_flip (smaller.trans (flip_lt inside))
    rw [reversed.uses_flip known] at used
    exact unused between ((flip_lt_flip_iff inside known).mp smaller)
      ((flip_lt_flip_iff known inside').mp behind) used

/-- In the reversal, immediate predecessors are immediate successors.

**Proof sketch.** An immediate predecessor is explicit, or hands over a resource, or is the
operation itself. Each of these turns around. -/
theorem edge_flip (reversed : program.ReversedBy table reversal) (closed : program.Closed)
    {before after : OpId} (inside : before < program.size) (inside' : after < program.size) :
    reversal.program.precedence.Edge (program.flip after) (program.flip before) ↔
      program.precedence.Edge before after := by
  have place : program.flip before < reversal.program.size := reversed.size ▸ flip_lt inside
  have opposite : program.flip after = program.flip before ↔ before = after := by
    unfold flip
    lia
  rw [edge_iff, edge_iff, and_iff_right place, and_iff_right inside',
    reversed.mem_dependencies_flip closed inside inside', mem_resourcePreds_iff,
    mem_resourcePreds_iff, opposite, reversed.operation before inside]
  refine or_congr (or_congr (exists_congr (reversed.handsOver_flip inside inside')) ?_) Iff.rfl
  -- Only an operation that names a resource twice is handed one by itself.
  exact and_congr_right fun same => by rw [same]

/-- The dependencies of a reversal of the reversal are those of the program, in the same order. -/
lemma dependencies_twice (first : program.ReversedBy table reversal)
    (second : reversal.program.ReversedBy other again) (closed : program.Closed) :
    again.program.dependencies = program.dependencies := by
  rw [second.dependencies, first.dependencies, first.flip_eq, List.map_map]
  refine (List.map_congr_left fun pair member => ?_).trans (List.map_id _)
  obtain ⟨inside, inside'⟩ := closed.known pair member
  exact Prod.ext (flip_flip inside) (flip_flip inside')

/-- What an operation of a reversal of the reversal came from came from the same operation of the
program. -/
lemma origin_twice (first : program.ReversedBy table reversal)
    (second : reversal.program.ReversedBy other again) {id : OpId} (inside : id < program.size) :
    (again.origin? id).bind reversal.origin? = some id := by
  have place := flip_lt inside
  have origin := second.origin (program.flip id) (first.size.symm ▸ place)
  rw [first.flip_eq, flip_flip inside] at origin
  rw [origin, Option.bind_some, first.origin id inside]

end ReversedBy

/-! ## Programs whose durations are known -/

/-- The reversal of a program. -/
abbrev reversal (program : Program) (table : DurationTable) : Reversal :=
  (program.resolve table program.ids.reverse).reversal

namespace Lasts

/-- If all durations are known, reversing succeeds. -/
lemma reverse_eq (lasts : program.Lasts table duration) : program.reverse table =
    (program.resolve table program.ids.reverse, .ok (program.reversal table)) := by
  simp only [reverse, lasts.reverses]

/-- If all durations are known, the reversal of a program is one. -/
lemma reversedBy (lasts : program.Lasts table duration) :
    program.ReversedBy table (program.reversal table) :=
  Program.reversedBy lasts.reverses

/-- The operations of the reversal came from those of the program, last operation first. -/
lemma origin_eq (lasts : program.Lasts table duration) :
    (program.reversal table).origin.toList = program.ids.reverse :=
  ids_of_resolve (fun _ => lt_size_of_mem_reverse_ids) lasts.reverses

/-- The reversal lasts as long, seen from the other end. -/
lemma reversal (lasts : program.Lasts table duration) (other : DurationTable) :
    (program.reversal table).program.Lasts other fun place => duration (program.flip place) :=
  lasts.reversedBy.lasts lasts other

/-- **Reversing twice.** The reversal of the reversal differs from the program in slots at most,
whatever table the reversal is reversed with.

**Proof sketch.** Operations are listed in reverse twice, and resolving writes to slots only.
Dependencies are the ones from before by `dependencies_twice`. -/
theorem sameButSlots_reversal (lasts : program.Lasts table duration) (closed : program.Closed)
    (other : DurationTable) :
    ((program.reversal table).program.reversal other).program.SameButSlots program := by
  have first := lasts.reversedBy
  have second := (lasts.reversal other).reversedBy
  refine ⟨?_, second.layout.trans first.layout, ?_, first.dependencies_twice second closed⟩
  · have name := (sameButSlots_resolve program table program.ids.reverse).name
    exact (sameButSlots_resolve (program.reversal table).program other _).name.trans name
  · rw [second.operations, first.operations, List.reverse_reverse]

/-- The reversal of the reversal holds how long the operations of the program last. -/
lemma resolved?_twice (lasts : program.Lasts table duration) (other : DurationTable) {id : OpId}
    (inside : id < program.size) :
    ((program.reversal table).program.reversal other).program.resolved? id =
      (program.duration? table id).map fun ticks => ⟨ticks, none⟩ := by
  have first := lasts.reversedBy
  have holds := resolved?_reversal (lasts.reversal other).reverses
    (first.size.symm ▸ flip_lt inside : program.flip id < _)
  rwa [first.flip_eq, flip_flip inside, first.duration id inside] at holds

end Lasts

/-- **Reversing a program.** If all durations of a program are known, reversing it succeeds. One
operation is an immediate predecessor of another exactly if at the opposite places of the reversal
it is the other way round. The operations of the reversal came from those at the opposite places,
each from another one, and their slots hold how long those last. Reversing the reversal succeeds as
well, whatever the table, and leads back to the operations and the dependencies of the program in
the same order, with how long they last in the slots. Going back twice to where an operation came
from leads to the same operation of the program.

**Proof sketch.** As all durations are known, the reversal is explicit (`ReversedBy`), and counting
from the other end relates it to the program. The reversal knows its durations from its slots, so
it can be reversed with any table, and `sameButSlots_reversal` compares the outcome with the
program. -/
theorem reverse_reverse (closed : program.Closed)
    (lasts : ∃ duration, program.Lasts table duration) :
    ∃ resolution reversal, program.reverse table = (resolution, .ok reversal) ∧
      reversal.program.size = program.size ∧
      (∀ before < program.size, ∀ after < program.size,
        program.precedence.Edge before after ↔
          reversal.program.precedence.Edge (program.flip after) (program.flip before)) ∧
      reversal.origin.toList = program.ids.map program.flip ∧
      reversal.origin.toList.Perm program.ids ∧
      reversal.program.operations = program.operations.reverse ∧
      (∀ id < program.size, reversal.program.resolved? (program.flip id) =
        (program.duration? table id).map fun ticks => ⟨ticks, none⟩) ∧
      ∀ other, ∃ resolution' again, reversal.program.reverse other = (resolution', .ok again) ∧
        again.program.operations = program.operations ∧
        again.program.dependencies = program.dependencies ∧
        (∀ id < program.size, again.program.resolved? id =
          (program.duration? table id).map fun ticks => ⟨ticks, none⟩) ∧
        ∀ id < program.size, (again.origin? id).bind reversal.origin? = some id := by
  obtain ⟨duration, lasts⟩ := lasts
  have first := lasts.reversedBy
  refine ⟨_, _, lasts.reverse_eq, first.size, fun before inside after inside' => ?_, ?_, ?_,
    first.operations, fun id => resolved?_reversal lasts.reverses, fun other => ?_⟩
  · exact (first.edge_flip closed inside inside').symm
  · rw [lasts.origin_eq, reverse_ids]
  · rw [lasts.origin_eq]
    exact List.reverse_perm _
  · have same := lasts.sameButSlots_reversal closed other
    have second := (lasts.reversal other).reversedBy
    exact ⟨_, _, (lasts.reversal other).reverse_eq, same.operations, same.dependencies,
      fun id => lasts.resolved?_twice other, fun id => first.origin_twice second⟩

/-- In the reversal of the relay, the last gate comes right before the first, as the first comes
right before the last in the relay. -/
theorem reverse_reverse_relay : ∃ resolution reversal,
    relay.reverse .relay = (resolution, .ok reversal) ∧
      relay.precedence.Edge 0 3 ∧ reversal.program.precedence.Edge 0 3 ∧
      reversal.origin.toList = [3, 2, 1, 0] ∧
      reversal.program.resolved? 3 = some ⟨3, none⟩ ∧
      ∃ resolution' again, reversal.program.reverse {} = (resolution', .ok again) ∧
        again.program.operations = relay.operations ∧ again.program.dependencies = [(0, 3)] ∧
        again.program.resolved? 0 = some ⟨3, none⟩ := by
  obtain ⟨resolution, reversal, reverses, -, edges, origin, -, -, holds, again⟩ :=
    reverse_reverse built_relay.wellFormed.toClosed ⟨_, lasts_relay⟩
  obtain ⟨resolution', again, reverses', operations, dependencies, holds', -⟩ := again {}
  have edge : relay.precedence.Edge 0 3 := by decide
  refine ⟨resolution, reversal, reverses, edge, ?_, origin, ?_, resolution', again, reverses',
    operations, dependencies, ?_⟩
  · exact (edges 0 (by decide) 3 (by decide)).mp edge
  · exact holds 0 (by decide)
  · exact holds' 0 (by decide)

end Program

end Timetable
