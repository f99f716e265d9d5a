import Mathlib.Logic.Equiv.Basic
import Timetable.Proofs.Optimal.Reversal
import Timetable.Proofs.Reordering.Idle
import Timetable.Proofs.Totality

/-!
# Programs that list their operations in another order

Two programs may give different numbers to the same operations. As long as operations that share a
resource come in the same order in both, and dependencies are between the same operations, the
immediate predecessors of every operation are the same, too. Turning both programs around in time
gives two programs of which the same can be said.

## Main definitions

* `Program.Relabels` — two programs with the same operations under different numbers.
* `Program.swapped` — a program in which two neighboring operations have changed places.

## Main results

* `Program.Relabels.edge_iff` — the precedence is the same.
* `Program.Relabels.schedulable` — the other program can be scheduled, too.
* `Program.Relabels.reversed` — the reversals are related, too.
* `Program.relabels_swapped` — two neighbors without a common resource can change places.
-/

set_option autoImplicit false

namespace Timetable

open Relation

namespace Program

/-- Two programs over one layout have the same operations under different numbers: operation `id` of
the first one is operation `rename id` of the other one, and the other way around. Operations that
share a resource come in the same order, and dependencies are between the same operations. -/
structure Relabels (rename : OpId → OpId) (program other : Program) : Prop where
  involutive : rename.Involutive
  layout : other.layout = program.layout
  size : other.size = program.size
  operation : ∀ id, other.operation? (rename id) = program.operation? id
  duration : ∀ (table : DurationTable) (id : OpId),
    other.duration? table (rename id) = program.duration? table id
  order : ∀ {before after : OpId} {resource : Resource}, program.uses before resource →
    program.uses after resource → (rename before < rename after ↔ before < after)
  dependencies : ∀ before after : OpId,
    (rename before, rename after) ∈ other.dependencies ↔ (before, after) ∈ program.dependencies

/-- The program in which operation `id` and the one behind it have changed places. Dependencies are
still between the same operations. -/
def swapped (program : Program) (id : OpId) : Program :=
  { program with
    tasks := program.tasks.swapIfInBounds id (id + 1)
    dependencies := program.dependencies.map
      (Prod.map (Equiv.swap id (id + 1)) (Equiv.swap id (id + 1))) }

/-- New numbers in the reversal of a program: those of the opposite places, turned around. -/
def flipped (program : Program) (rename : OpId → OpId) (place : OpId) : OpId :=
  if place < program.size then program.flip (rename (program.flip place)) else place

variable {program other : Program} {rename : OpId → OpId} {table : DurationTable}
  {before after id : OpId} {resource : Resource} {reversal reversal' : Reversal}

/-! ## Programs with the same operations -/

namespace Relabels

/-- New numbers are those of operations exactly if the old ones are. -/
lemma inside_iff (relabels : Relabels rename program other) :
    rename id < other.size ↔ id < program.size := by
  rw [← operation?_isSome_iff, relabels.operation, operation?_isSome_iff]

/-- An operation uses its resources under its new number. -/
lemma uses_eq (relabels : Relabels rename program other) (id : OpId) (resource : Resource) :
    other.uses (rename id) resource = program.uses id resource := by
  rw [uses, uses, relabels.operation]

/-- It does not matter which of the two programs has the new numbers.

**Proof sketch.** Numbering twice leads back, so each field of one direction is that of the other at
the new numbers. -/
lemma symm (relabels : Relabels rename program other) : Relabels rename other program := by
  have involutive := relabels.involutive
  have back : ∀ {id resource}, other.uses id resource → program.uses (rename id) resource := by
    intro id resource uses
    rwa [← relabels.uses_eq, involutive]
  refine ⟨involutive, relabels.layout.symm, relabels.size.symm, fun id => ?_, fun table id => ?_,
    fun {before after resource} uses uses' => ?_, fun before after => ?_⟩
  · rw [← relabels.operation, involutive]
  · rw [← relabels.duration, involutive]
  · have order := relabels.order (back uses) (back uses')
    rw [involutive, involutive] at order
    exact order.symm
  · rw [← relabels.dependencies, involutive, involutive]

/-- Both programs have the same operations. -/
lemma mem_operations (relabels : Relabels rename program other) {operation : Operation} :
    operation ∈ other.operations ↔ operation ∈ program.operations := by
  have one : ∀ {rename program other}, Relabels rename program other → ∀ {operation : Operation},
      operation ∈ program.operations → operation ∈ other.operations := by
    intro rename program other relabels operation member
    obtain ⟨id, found⟩ := mem_operations_iff.mp member
    exact mem_operations_iff.mpr ⟨rename id, (relabels.operation id).trans found⟩
  exact ⟨one relabels.symm, one relabels⟩

/-- The other program is closed if the first one is. -/
lemma closed (relabels : Relabels rename program other) (closed : program.Closed) :
    other.Closed := by
  refine closed.of_subset relabels.layout (fun _ => relabels.mem_operations.mp) ?_
  rintro ⟨before, after⟩ known
  have known' := (relabels.symm.dependencies before after).mpr known
  obtain ⟨inside, inside'⟩ := closed.known _ known'
  exact ⟨relabels.symm.inside_iff.mp inside, relabels.symm.inside_iff.mp inside'⟩

/-- The other program is well formed if the first one is. -/
lemma wellFormed (relabels : Relabels rename program other) (wellFormed : program.WellFormed) :
    other.WellFormed :=
  wellFormed.of_subset (relabels.closed wellFormed.toClosed) fun _ => relabels.mem_operations.mp

/-- The other program is physical if the first one is. -/
lemma physical (relabels : Relabels rename program other)
    (physical : program.violation? = none) : other.violation? = none :=
  physical_of_subset physical relabels.layout fun _ => relabels.mem_operations.mp

/-! ## The same precedence -/

/-- The last user of a resource before an operation that uses it is the same. -/
lemma lastUser_eq_some (relabels : Relabels rename program other)
    (uses : program.uses after resource)
    (found : program.lastUser resource after = some before) :
    other.lastUser resource (rename after) = some (rename before) := by
  obtain ⟨smaller, uses', last⟩ := lastUser_eq_some_iff.mp found
  refine lastUser_eq_some_iff.mpr
    ⟨(relabels.order uses' uses).mpr smaller, ?_, fun id below user => ?_⟩
  · rwa [relabels.uses_eq]
  · obtain ⟨id, rfl⟩ := relabels.involutive.surjective id
    rw [relabels.uses_eq] at user
    have le := last id ((relabels.order user uses).mp below) user
    exact Nat.le_of_not_lt fun behind => Nat.not_lt_of_le le ((relabels.order uses' user).mp behind)

/-- Immediate predecessors are so under the new numbers. -/
lemma edge (relabels : Relabels rename program other) (physical : program.violation? = none)
    (edge : program.precedence.Edge before after) :
    other.precedence.Edge (rename before) (rename after) := by
  obtain ⟨inside, shared | known⟩ := Program.edge_iff.mp edge
  all_goals refine Program.edge_iff.mpr ⟨relabels.inside_iff.mpr inside, ?_⟩
  · obtain ⟨resource, uses, found⟩ :=
      (mem_resourcePreds fun _ => nodup_of_physical physical).mp shared
    exact .inl ((mem_resourcePreds fun _ => nodup_of_physical (relabels.physical physical)).mpr
      ⟨resource, (relabels.uses_eq ..).trans uses, relabels.lastUser_eq_some uses found⟩)
  · exact .inr ((relabels.dependencies before after).mpr known)

/-- Both programs have the same immediate predecessors.

**Proof sketch.** An edge is kept under new numbers (`Relabels.edge`), and numbering back is
numbering anew. -/
theorem edge_iff (relabels : Relabels rename program other) (physical : program.violation? = none) :
    other.precedence.Edge (rename before) (rename after) ↔
      program.precedence.Edge before after := by
  refine ⟨fun edge => ?_, relabels.edge physical⟩
  have back := relabels.symm.edge (relabels.physical physical) edge
  rwa [relabels.involutive, relabels.involutive] at back

/-- Both programs require the same. -/
lemma requires_iff (relabels : Relabels rename program other) :
    other.Requires (rename before) (rename after) ↔ program.Requires before after := by
  refine or_congr (relabels.dependencies before after) ⟨?_, ?_⟩
  all_goals
    rintro ⟨smaller, resource, uses, uses'⟩
    simp only [relabels.uses_eq] at *
  · exact ⟨(relabels.order uses uses').mp smaller, resource, uses, uses'⟩
  · exact ⟨(relabels.order uses uses').mpr smaller, resource, uses, uses'⟩

/-- Operations last as long under their new numbers. -/
lemma lasts (relabels : Relabels rename program other) {duration : OpId → Tick}
    (lasts : program.Lasts table duration) : other.Lasts table (duration ∘ rename) := by
  intro id inside
  obtain ⟨id, rfl⟩ := relabels.involutive.surjective id
  rw [relabels.inside_iff] at inside
  rw [relabels.duration, lasts id inside, Function.comp_apply, relabels.involutive]

/-- The other program can be scheduled if the first one can.

**Proof sketch.** Circles are carried back to circles edge by edge, and durations are those of the
renamed operations. -/
theorem schedulable (relabels : Relabels rename program other)
    (schedulable : program.Schedulable table) : other.Schedulable table := by
  obtain ⟨duration, lasts⟩ := schedulable.lasts
  have physical := relabels.physical schedulable.physical
  refine ⟨physical, fun id circle => schedulable.acyclic (rename id) ?_, _, relabels.lasts lasts⟩
  exact TransGen.lift rename (fun _ _ edge => relabels.symm.edge physical edge) id id circle

/-! ## With time running backwards -/

/-- The opposite place of an operation gets the opposite of its new number. -/
lemma flipped_flip (relabels : Relabels rename program other) (inside : id < program.size) :
    program.flipped rename (program.flip id) = other.flip (rename id) := by
  rw [flipped, if_pos (flip_lt inside), flip_flip inside, flip, flip, relabels.size]

/-- Both programs give the same new numbers to opposite places. -/
lemma flipped_eq (relabels : Relabels rename program other) :
    other.flipped rename = program.flipped rename := by
  funext place
  simp only [flipped, flip, relabels.size]

/-- Only opposite places of operations get new numbers, which are again such places. -/
lemma flipped_lt_iff (relabels : Relabels rename program other) {place : OpId} :
    program.flipped rename place < program.size ↔ place < program.size := by
  by_cases inside : place < program.size
  · obtain ⟨id, smaller, rfl⟩ := exists_flip inside
    have bound := flip_lt (relabels.inside_iff.mpr smaller)
    rw [← relabels.flipped_flip smaller, relabels.size] at bound
    exact iff_of_true bound inside
  · rw [flipped, if_neg inside]

/-- Where an operation of the other reversal came from. -/
lemma origin?_flipped (relabels : Relabels rename program other)
    (reversed : program.ReversedBy table reversal) (reversed' : other.ReversedBy table reversal')
    {place : OpId} (inside : place < program.size) :
    reversal'.origin? (program.flipped rename place) = (reversal.origin? place).map rename := by
  obtain ⟨id, smaller, origin, rfl⟩ := reversed.exists_origin inside
  rw [relabels.flipped_flip smaller, origin, Option.map_some,
    reversed'.origin _ (relabels.inside_iff.mpr smaller)]

/-- Giving opposite places new numbers twice leads back. -/
lemma flipped_involutive (relabels : Relabels rename program other) :
    (program.flipped rename).Involutive := by
  intro place
  by_cases inside : place < program.size
  · obtain ⟨id, smaller, rfl⟩ := exists_flip inside
    rw [relabels.flipped_flip smaller, ← relabels.flipped_eq,
      relabels.symm.flipped_flip (relabels.inside_iff.mpr smaller), relabels.involutive]
  · have same : program.flipped rename place = place := if_neg inside
    rw [same, same]

/-- The reversals have the same dependencies under different numbers.

**Proof sketch.** Both reversals have the dependencies of their programs between opposite places the
other way around, and those of the programs correspond. -/
lemma dependencies_flipped (relabels : Relabels rename program other) (closed : program.Closed)
    (reversed : program.ReversedBy table reversal) (reversed' : other.ReversedBy table reversal')
    (before after : OpId) :
    (program.flipped rename before, program.flipped rename after) ∈
        reversal'.program.dependencies ↔
      (before, after) ∈ reversal.program.dependencies := by
  by_cases inside : before < program.size ∧ after < program.size
  · obtain ⟨id, smaller, rfl⟩ := exists_flip inside.1
    obtain ⟨id', smaller', rfl⟩ := exists_flip inside.2
    rw [relabels.flipped_flip smaller, relabels.flipped_flip smaller',
      reversed'.mem_dependencies_flip (relabels.closed closed) (relabels.inside_iff.mpr smaller')
        (relabels.inside_iff.mpr smaller),
      relabels.dependencies, reversed.mem_dependencies_flip closed smaller' smaller]
  · -- no dependency of a reversal goes beyond its operations
    refine iff_of_false (fun known => inside ?_) fun known => inside ?_
    · have bounds := (reversed'.closed (relabels.closed closed)).known _ known
      rw [reversed'.size, relabels.size] at bounds
      exact ⟨relabels.flipped_lt_iff.mp bounds.1, relabels.flipped_lt_iff.mp bounds.2⟩
    · have bounds := (reversed.closed closed).known _ known
      rwa [reversed.size] at bounds

/-- The reversals have the same operations under different numbers.

**Proof sketch.** Counting from the other end before and after turns the numbering of the programs
into one of the reversals. Each field is the field of the programs at the opposite places. -/
theorem reversed (relabels : Relabels rename program other) (closed : program.Closed)
    (reversed : program.ReversedBy table reversal) (reversed' : other.ReversedBy table reversal') :
    Relabels (program.flipped rename) reversal.program reversal'.program := by
  have inside' : ∀ {id}, id < program.size → rename id < other.size := relabels.inside_iff.mpr
  have size := reversed.size
  have size' := reversed'.size.trans relabels.size
  refine
    { involutive := relabels.flipped_involutive
      layout := by rw [reversed'.layout, relabels.layout, reversed.layout]
      size := size'.trans size.symm
      operation := ?operation
      duration := ?duration
      order := ?order
      dependencies := relabels.dependencies_flipped closed reversed reversed' }
  case operation =>
    intro place
    by_cases inside : place < program.size
    · obtain ⟨id, smaller, rfl⟩ := exists_flip inside
      rw [relabels.flipped_flip smaller, reversed'.operation _ (inside' smaller),
        relabels.operation, reversed.operation _ smaller]
    · rw [flipped, if_neg inside, operation?_eq_none (by rwa [size']),
        operation?_eq_none (by rwa [size])]
  case duration =>
    intro table place
    by_cases inside : place < program.size
    · obtain ⟨id, smaller, rfl⟩ := exists_flip inside
      rw [relabels.flipped_flip smaller, reversed'.duration _ (inside' smaller),
        relabels.duration, reversed.duration _ smaller]
    · rw [flipped, if_neg inside, duration?_eq_none (by rwa [size']),
        duration?_eq_none (by rwa [size])]
  case order =>
    intro before after resource uses uses'
    obtain ⟨id, smaller, rfl⟩ := exists_flip (reversed.size ▸ lt_size_of_uses uses)
    obtain ⟨id', smaller', rfl⟩ := exists_flip (reversed.size ▸ lt_size_of_uses uses')
    rw [reversed.uses_flip smaller] at uses
    rw [reversed.uses_flip smaller'] at uses'
    have order := relabels.order uses' uses
    have bound := inside' smaller
    have bound' := inside' smaller'
    rw [relabels.flipped_flip smaller, relabels.flipped_flip smaller']
    unfold flip at *
    lia

end Relabels

/-! ## Neighbors that change places -/

/-- Two neighboring operations without a common resource can change places.

**Proof sketch.** The tasks stand at swapped places. Only the two neighbors change their order
relative to each other, and they share no resource, so operations that share one stay in program
order. -/
theorem relabels_swapped (program : Program) (inside : id + 1 < program.size)
    (disjoint : ∀ resource, ¬ (program.uses id resource ∧ program.uses (id + 1) resource)) :
    Relabels (Equiv.swap id (id + 1)) program (program.swapped id) := by
  have involutive : Function.Involutive (Equiv.swap id (id + 1)) :=
    Equiv.swap_apply_self id (id + 1)
  have tasks : ∀ place, (program.swapped id).tasks[Equiv.swap id (id + 1) place]? =
      program.tasks[place]? := by
    intro place
    have second : id + 1 < program.tasks.size := inside
    have first : id < program.tasks.size := Nat.lt_of_succ_lt second
    rw [swapped, Array.swapIfInBounds_def, dif_pos first, dif_pos second, Array.getElem?_swap,
      Equiv.swap_apply_def]
    split
    · subst place
      simp [first]
    · split
      · subst place
        simp [second]
      · rename_i other other'
        rw [if_neg (Ne.symm other'), if_neg (Ne.symm other)]
  refine ⟨involutive, rfl, Array.size_swapIfInBounds, fun place => ?_, fun table place => ?_, ?_,
    fun before after => ?_⟩
  · rw [operation?, tasks, operation?]
  · rw [duration?, tasks, duration?]
  · intro before after resource uses uses'
    have apart : ¬ (before = id ∧ after = id + 1) := by
      rintro ⟨rfl, rfl⟩
      exact disjoint resource ⟨uses, uses'⟩
    have apart' : ¬ (before = id + 1 ∧ after = id) := by
      rintro ⟨rfl, rfl⟩
      exact disjoint resource ⟨uses', uses⟩
    simp only [Equiv.swap_apply_def]
    split <;> split <;> lia
  · show Prod.map (Equiv.swap id (id + 1)) (Equiv.swap id (id + 1)) (before, after) ∈
      program.dependencies.map _ ↔ _
    exact List.mem_map_of_injective (involutive.injective.prodMap involutive.injective)

end Program

end Timetable
