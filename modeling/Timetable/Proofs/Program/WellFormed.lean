import Mathlib.Data.Nat.Basic
import Mathlib.Order.Basic
import Timetable.Program

/-!
# Well-formed programs

Whoever builds a program operation by operation can only name what exists: an operation uses at
least one resource, all of them declared, and a dependency is between operations of the program.
Writing durations into slots changes none of this.

## Main definitions

* `Program.Closed`, `Program.WellFormed` — the operations and dependencies name what exists.
* `Program.Built` — the programs that can be built.
* `Program.SameButSlots` — two programs that differ in the slots of their operations at most.

## Main results

* `Program.Built.wellFormed` — what can be built is well formed.
* `Program.nodup_of_physical` — in a physical program no operation names a resource twice.
-/

set_option autoImplicit false

namespace Timetable

namespace Program

/-- The operations use declared resources only, and the dependencies are between operations of
the program. -/
structure Closed (program : Program) : Prop where
  declared : ∀ operation ∈ program.operations, ∀ resource ∈ operation.resources,
    resource < program.numResources
  known : ∀ pair ∈ program.dependencies, pair.1 < program.size ∧ pair.2 < program.size

/-- A closed program in which every operation uses a resource. -/
structure WellFormed (program : Program) : Prop extends Closed program where
  touching : ∀ operation ∈ program.operations, operation.resources ≠ []

/-- The programs that can be built: operations and dependencies are added to the empty program of
a layout, and in between slots are written. -/
inductive Built : Program → Prop
  | empty (name : String) (layout : Layout) : Built { name, layout }
  | push {program next : Program} {operation : Operation} (built : Built program)
      (ok : program.push operation = .ok next) : Built next
  | depend {program next : Program} {before after : OpId} (built : Built program)
      (ok : program.depend before after = .ok next) : Built next
  | fill {program : Program} (id : OpId) (resolved : Resolved) (built : Built program) :
      Built (program.fill id resolved)

/-! ## Operations by number -/

variable {program other : Program}

/-- The operation with a number is the one at that place in the list of all operations. -/
lemma operation?_eq (program : Program) (id : OpId) :
    program.operation? id = program.operations[id]? := by
  simp [operation?, operations]

/-- There are as many operations as the program is large. -/
@[simp]
lemma length_operations (program : Program) : program.operations.length = program.size := by
  simp [operations, size]

/-- The operations of a program are those that have a number. -/
lemma mem_operations_iff {operation : Operation} : operation ∈ program.operations ↔
    ∃ id, program.operation? id = some operation := by
  simp only [operation?_eq, List.mem_iff_getElem?]

/-- An operation with a number is one of the operations. -/
lemma mem_operations_of_operation? {id : OpId} {operation : Operation}
    (found : program.operation? id = some operation) : operation ∈ program.operations :=
  mem_operations_iff.mpr ⟨id, found⟩

/-- An operation exists exactly if its number is below the size of the program. -/
lemma operation?_isSome_iff {id : OpId} : (program.operation? id).isSome ↔ id < program.size := by
  rw [operation?_eq, ← length_operations]
  simp

/-- A number outside of the program has no operation. -/
lemma operation?_eq_none {id : OpId} (outside : ¬ id < program.size) :
    program.operation? id = none :=
  Option.not_isSome_iff_eq_none.mp fun found => outside (operation?_isSome_iff.mp found)

/-- An operation of a program has a number below the size of the program. -/
lemma lt_size_of_operation? {id : OpId} {operation : Operation}
    (found : program.operation? id = some operation) : id < program.size :=
  operation?_isSome_iff.mp (by rw [found]; rfl)

/-- An operation uses a resource if it exists and names it. -/
lemma uses_iff {id : OpId} {resource : Resource} : program.uses id resource = true ↔
    ∃ operation, program.operation? id = some operation ∧ resource ∈ operation.resources := by
  simp [uses, Option.any_eq_true]

/-! ## Programs with operations of another program -/

/-- A program whose operations are all operations of a closed program of the same layout is closed
if its dependencies are. -/
lemma Closed.of_subset (closed : other.Closed) (layout : program.layout = other.layout)
    (operations : program.operations ⊆ other.operations)
    (known : ∀ pair ∈ program.dependencies, pair.1 < program.size ∧ pair.2 < program.size) :
    program.Closed := by
  refine ⟨fun operation member resource used => ?_, known⟩
  rw [numResources, layout]
  exact closed.declared operation (operations member) resource used

/-- A closed program whose operations are all operations of a well-formed program is well formed. -/
lemma WellFormed.of_subset (wellFormed : other.WellFormed) (closed : program.Closed)
    (operations : program.operations ⊆ other.operations) : program.WellFormed :=
  ⟨closed, fun operation member => wellFormed.touching operation (operations member)⟩

/-! ## Programs that differ in their slots -/

/-- Two programs have the same name, layout, operations and dependencies. -/
structure SameButSlots (program other : Program) : Prop where
  name : program.name = other.name
  layout : program.layout = other.layout
  operations : program.operations = other.operations
  dependencies : program.dependencies = other.dependencies

namespace SameButSlots

/-- Every program has what it has. -/
lemma refl (program : Program) : SameButSlots program program := ⟨rfl, rfl, rfl, rfl⟩

/-- If a program has the same as a second one, and this the same as a third one, the first has the
same as the third one. -/
lemma trans {third : Program} (first : SameButSlots program other)
    (second : SameButSlots other third) : SameButSlots program third :=
  ⟨first.name.trans second.name, first.layout.trans second.layout,
    first.operations.trans second.operations, first.dependencies.trans second.dependencies⟩

/-- It does not matter which of the two programs is named first. -/
lemma symm (same : SameButSlots program other) : SameButSlots other program :=
  ⟨same.name.symm, same.layout.symm, same.operations.symm, same.dependencies.symm⟩

/-- Both programs have as many operations. -/
lemma size (same : SameButSlots program other) : program.size = other.size := by
  rw [← length_operations, same.operations, length_operations]

end SameButSlots

/-- Writing a slot changes slots only. -/
lemma sameButSlots_fill (program : Program) (id : OpId) (resolved : Resolved) :
    SameButSlots (program.fill id resolved) program := by
  refine ⟨rfl, rfl, ?_, rfl⟩
  apply List.ext_getElem?
  intro place
  simp only [operations, fill, List.getElem?_map, Array.getElem?_toList, Array.getElem?_modify]
  split
  · cases program.tasks[place]? <;> rfl
  · rfl

/-- Being closed does not depend on slots. -/
lemma Closed.of_same (closed : other.Closed) (same : SameButSlots program other) :
    program.Closed := by
  refine closed.of_subset same.layout (fun _ => (same.operations ▸ ·)) ?_
  rw [same.dependencies, same.size]
  exact closed.known

/-- Being well formed does not depend on slots. -/
lemma WellFormed.of_same (wellFormed : other.WellFormed) (same : SameButSlots program other) :
    program.WellFormed :=
  wellFormed.of_subset (wellFormed.toClosed.of_same same) fun _ => (same.operations ▸ ·)

/-! ## What can be built is well formed -/

/-- Adding an operation gives a program with it at the end, and it uses a resource and declared
ones only. -/
lemma push_eq_ok {next : Program} {operation : Operation}
    (ok : program.push operation = .ok next) :
    next = { program with tasks := program.tasks.push { operation } } ∧
      operation.resources ≠ [] ∧ ∀ resource ∈ operation.resources,
        resource < program.numResources := by
  unfold push at ok
  split at ok
  · cases ok
  · rename_i touching
    split at ok
    · cases ok
    · rename_i declared
      cases ok
      refine ⟨rfl, fun none => touching (by simp [none]), ?_⟩
      intro resource used
      simpa using List.find?_eq_none.mp declared resource used

/-- Adding a dependency changes the dependencies only, and leaves those that were there together
with perhaps the new one, which is between operations of the program.

**Proof sketch.** The cases of the definition. Those that check the two operations fail, and a
dependency that is known already is not added again. -/
lemma depend_eq_ok {next : Program} {before after : OpId}
    (ok : program.depend before after = .ok next) :
    ∃ dependencies, next = { program with dependencies } ∧ ∀ pair ∈ dependencies,
      pair ∈ program.dependencies ∨ pair.1 < program.size ∧ pair.2 < program.size := by
  unfold depend at ok
  split at ok
  · cases ok
  split at ok
  · cases ok
  split at ok
  · cases ok
  split at ok
  · cases ok
    exact ⟨program.dependencies, rfl, fun pair member => .inl member⟩
  · cases ok
    refine ⟨_, rfl, ?_⟩
    intro pair member
    rcases List.mem_append.mp member with old | new
    · exact .inl old
    · obtain rfl := List.mem_singleton.mp new
      exact .inr ⟨by lia, by lia⟩

/-- The operations behind an addition. -/
lemma mem_operations_push {operation added : Operation} :
    operation ∈ ({ program with tasks := program.tasks.push { operation := added } } :
      Program).operations ↔ operation ∈ program.operations ∨ operation = added := by
  simp [operations]

/-- What can be built is well formed.

**Proof sketch.** Induction on how the program was built. Adding an operation checks its resources
and moves the bound on dependencies up, adding a dependency checks its ends, and filling a slot
changes neither. -/
theorem Built.wellFormed (built : Built program) : program.WellFormed := by
  induction built with
  | empty name layout =>
    exact ⟨⟨by simp [operations], by simp⟩, by simp [operations]⟩
  | push _ ok ih =>
    obtain ⟨rfl, touching, declared⟩ := push_eq_ok ok
    refine ⟨⟨fun operation member => ?_, fun pair member => ?_⟩, fun operation member => ?_⟩
    · rcases mem_operations_push.mp member with old | rfl
      · exact ih.declared operation old
      · exact declared
    · have bounds := ih.known pair member
      simp only [size, Array.size_push] at bounds ⊢
      lia
    · rcases mem_operations_push.mp member with old | rfl
      · exact ih.touching operation old
      · exact touching
  | depend _ ok ih =>
    obtain ⟨dependencies, rfl, known⟩ := depend_eq_ok ok
    exact ⟨⟨ih.declared, fun pair member => (known pair member).elim (ih.known pair) id⟩,
      ih.touching⟩
  | fill id resolved _ ih => exact ih.of_same (sameButSlots_fill _ id resolved)

/-! ## Physical programs -/

/-- A program is physical exactly if it has one register, and no operation names a resource
twice.

**Proof sketch.** The check looks at the layout first and then at each operation for a resource that
is named twice. -/
lemma violation?_eq_none_iff : program.violation? = none ↔
    program.layout.isPhysical = true ∧
      ∀ operation ∈ program.operations, operation.resources.Nodup := by
  unfold violation?
  split
  · rename_i virtual
    constructor
    · intro none
      cases none
    · intro physical
      simp [physical.1] at virtual
  · rename_i virtual
    have physical : program.layout.isPhysical = true := by simpa using virtual
    rw [List.findSome?_eq_none_iff]
    constructor
    · intro sound
      refine ⟨physical, ?_⟩
      intro operation known
      obtain ⟨id, found⟩ := mem_operations_iff.mp known
      have here := sound id (List.mem_range.mpr (lt_size_of_operation? found))
      simpa [found, Operation.hasRepeatedResource] using here
    · intro sound id _
      split
      · rename_i operation found
        have nodup := sound.2 operation (mem_operations_of_operation? found)
        simp [Operation.hasRepeatedResource, nodup]
      · rfl

/-- In a physical program no operation names a resource twice.

**Proof sketch.** This is the second half of `violation?_eq_none_iff`. -/
theorem nodup_of_physical (physical : program.violation? = none) {operation : Operation}
    (member : operation ∈ program.operations) : operation.resources.Nodup :=
  (violation?_eq_none_iff.mp physical).2 operation member

/-- A program whose operations are all operations of a physical program of the same layout is
physical. -/
lemma physical_of_subset (physical : other.violation? = none)
    (layout : program.layout = other.layout)
    (operations : program.operations ⊆ other.operations) : program.violation? = none :=
  violation?_eq_none_iff.mpr ⟨layout ▸ (violation?_eq_none_iff.mp physical).1,
    fun _ member => nodup_of_physical physical (operations member)⟩

/-- A closed program uses no undeclared resource. -/
lemma Closed.undeclared? (closed : program.Closed) : program.undeclared? = none := by
  refine List.find?_eq_none.mpr ?_
  intro resource member
  obtain ⟨operation, found, used⟩ := List.mem_flatMap.mp member
  simpa using closed.declared operation found resource used

end Program

end Timetable
