import Timetable.Proofs.Conservation
import Timetable.Proofs.Reordering.Relabeling

/-!
# The forward pass does not depend on how operations are listed

The forward pass starts every operation at the earliest feasible tick, and what is feasible is the
same for two programs that give different numbers to the same operations. So the same operations
stand at the same places, and with them comes the same idle time.

## Main results

* `Program.EarliestStart.relabeled` — earliest starts are the same under new numbers.
* `Front.Tiled.bridges_foldl_place` — the pass bridges gaps with idle time.
* `Program.Relabels.perm_forward` — the forward pass gives the same entries.
-/

set_option autoImplicit false

namespace Timetable

variable {program other : Program} {rename : OpId → OpId} {table : DurationTable}
  {duration start start' : OpId → Tick} {schedule schedule' : Schedule} {numResources : Nat}
  {id : OpId}

/-! ## Earliest starts -/

namespace Program

/-- What is feasible stays so under new numbers. -/
lemma Feasible.relabeled (feasible : program.Feasible duration start)
    (relabels : Relabels rename program other) :
    other.Feasible (duration ∘ rename) (start ∘ rename) := by
  intro before after required
  exact feasible _ _ (relabels.symm.requires_iff.mpr required)

/-- Earliest starts of one program are no later than those of the other. -/
lemma EarliestStart.relabeled_le (earliest : program.EarliestStart duration start)
    (relabels : Relabels rename program other)
    (feasible : other.Feasible (duration ∘ rename) start') (inside : id < program.size) :
    start id ≤ start' (rename id) := by
  have feasible' := feasible.relabeled relabels.symm
  rw [Function.comp_assoc, relabels.involutive.comp_self, Function.comp_id] at feasible'
  exact earliest.minimal _ feasible' id inside

/-- Earliest starts are the same under new numbers.

**Proof sketch.** Feasible starts stay feasible under new numbers, so each of the two assignments is
at most the other. -/
theorem EarliestStart.relabeled (earliest : program.EarliestStart duration start)
    (relabels : Relabels rename program other)
    (earliest' : other.EarliestStart (duration ∘ rename) start') (inside : id < program.size) :
    start' (rename id) = start id := by
  refine Nat.le_antisymm ?_ (earliest.relabeled_le relabels earliest'.feasible inside)
  have minimal := earliest'.minimal _ (earliest.feasible.relabeled relabels) _
    (relabels.inside_iff.mpr inside)
  rwa [Function.comp_apply, relabels.involutive] at minimal

/-- Everything finishes at the same tick if all starts are the same. -/
lemma Relabels.makespan_eq (relabels : Relabels rename program other)
    (same : ∀ id < program.size, start' (rename id) = start id) :
    other.makespan (duration ∘ rename) start' = program.makespan duration start := by
  refine Nat.le_antisymm (makespan_le_iff.mpr fun id inside => ?_)
    (makespan_le_iff.mpr fun id inside => ?_)
  · obtain ⟨id, rfl⟩ := relabels.involutive.surjective id
    rw [relabels.inside_iff] at inside
    rw [same id inside, Function.comp_apply, relabels.involutive]
    exact makespan_le_iff.mp le_rfl id inside
  · have bound := makespan_le_iff.mp (le_refl (other.makespan (duration ∘ rename) start')) _
      (relabels.inside_iff.mpr inside)
    rwa [same id inside, Function.comp_apply, relabels.involutive] at bound

end Program

/-! ## Idle time of the forward pass -/

namespace Front

/-- The pass bridges gaps with idle time while it places operations.

**Proof sketch.** Induction on the jobs. Placing one writes idle time up to its due tick and then
its entry, which is made from an operation (`Bridges.place`). -/
theorem Tiled.bridges_foldl_place {front : Front} (tiled : Tiled numResources front)
    (bridges : front.timeline.Bridges front.entries) (precedence : Precedence) {jobs : List Job}
    (declared : ∀ job ∈ jobs, ∀ resource ∈ job.operation.resources, resource < numResources)
    (touching : ∀ job ∈ jobs, job.operation.resources ≠ []) :
    (jobs.foldl (Front.place precedence) front).timeline.Bridges
      (jobs.foldl (Front.place precedence) front).entries := by
  induction jobs generalizing front with
  | nil => exact bridges
  | cons job jobs ih =>
    rw [List.forall_mem_cons] at declared touching
    refine ih (tiled.place precedence declared.1 touching.1) ?_ declared.2 touching.2
    have origin : front.due precedence job = front.timeline.origin + front.due precedence job := by
      rw [tiled.origin, Nat.zero_add]
    exact bridges.place ⟨job.operation, front.due precedence job, job.ticks, some job.id⟩ _
      (Option.some_ne_none _) (fun resource used => tiled.size ▸ declared.1 resource used) origin

end Front

/-- What the forward pass writes is bridged up to the end.

**Proof sketch.** Nothing is placed at first, and placing all operations keeps gaps bridged. At last
all resources are covered up to the common end (`Bridges.closed`). -/
lemma Program.bridged_forward (wellFormed : program.WellFormed)
    (ok : (program.forward table).result = .ok schedule) :
    Bridged program.numResources 0 schedule.total schedule.entries := by
  have touching := (forward_gapFree wellFormed ok).touching
  obtain ⟨order, physical, ordered, resolves, rfl⟩ := forward_eq_ok ok
  have known : ∀ job ∈ (program.resolve table order).jobs,
      job.operation ∈ program.operations := fun job member =>
    mem_operations_of_operation? (mem_jobs member).2.1
  have declared := fun job member => wellFormed.declared job.operation (known job member)
  have touches := fun job member => wellFormed.touching job.operation (known job member)
  have tiled := (Front.tiled_start program).foldl_place program.precedence declared touches
  have bridges := (Front.tiled_start program).bridges_foldl_place
    (Timeline.bridges_start program.numResources 0) program.precedence declared touches
  have tiles := tiled.closed
  rw [← tiled.origin, ← Nat.zero_add (Timeline.horizon _), ← tiled.origin] at tiles
  have closed := bridges.closed tiles
  rw [tiled.origin] at closed
  exact closed.to_latestStop touching

/-! ## The pass -/

/-- The single entry of an operation in a schedule as soon as possible. -/
lemma Program.partsOf_forward (wellFormed : program.WellFormed)
    (ok : (program.forward table).result = .ok schedule)
    (realizes : program.Realizes duration start schedule.entries) (inside : id < program.size) :
    ∃ operation, program.operation? id = some operation ∧
      partsOf id schedule.entries = [⟨operation, start id, duration id, some id⟩] := by
  obtain ⟨operation, ticks, found, -, begin, parts⟩ :=
    (conserved_forward wellFormed ok).1.kept id inside
  obtain ⟨member, source⟩ := mem_partsOf.mp (parts ▸ List.mem_singleton_self _)
  obtain ⟨-, lasts, starts⟩ := realizes.source _ member id source
  refine ⟨operation, found, ?_⟩
  rw [parts, ← lasts, ← starts]

/-- **The forward pass does not depend on how operations are listed.** The schedules of two programs
that give different numbers to the same operations have the same entries.

**Proof sketch.** Both programs are schedulable, and their earliest starts agree up to the numbers.
Each operation has one entry, which its start and duration determine, and idle time is determined by
the entries of operations (`Bridged.perm`). -/
theorem Program.Relabels.perm_forward (relabels : Relabels rename program other)
    (wellFormed : program.WellFormed) (ok : (program.forward table).result = .ok schedule)
    (ok' : (other.forward table).result = .ok schedule') :
    schedule'.entries.Perm (schedule.entries.map (.relabeled rename)) := by
  have wellFormed' := relabels.wellFormed wellFormed
  have answered := wellFormed.answered_forward table
  rw [ok] at answered
  have schedulable := answered.schedulable
  have schedulable' := relabels.schedulable schedulable
  have acyclic := (wellFormed.acyclic_iff schedulable.physical).mpr schedulable.acyclic
  have acyclic' := (wellFormed'.acyclic_iff schedulable'.physical).mpr schedulable'.acyclic
  obtain ⟨duration, lasts⟩ := schedulable.lasts
  obtain ⟨_, start, done, realizes, earliest, total⟩ :=
    exists_forward wellFormed schedulable.physical acyclic lasts
  obtain ⟨_, start', done', realizes', earliest', total'⟩ :=
    exists_forward wellFormed' schedulable'.physical acyclic' (relabels.lasts lasts)
  cases ok.symm.trans done
  cases ok'.symm.trans done'
  have same : ∀ id < program.size, start' (rename id) = start id := fun id inside =>
    earliest.relabeled relabels earliest' inside
  have bridged := bridged_forward wellFormed ok
  have bridged' := bridged_forward wellFormed' ok'
  rw [numResources, relabels.layout, total', relabels.makespan_eq same, ← total] at bridged'
  have outside : ∀ id, ¬ id < program.size → partsOf id schedule.entries = [] := fun id outside =>
    partsOf_eq_nil_iff.mpr fun entry member source =>
      outside (realizes.source entry member id source).1
  refine bridged.perm bridged' relabels.involutive (fun id => ?_) fun id => ?_
  · by_cases inside : id < program.size
    · obtain ⟨_, -, parts⟩ := partsOf_forward wellFormed ok realizes inside
      rw [parts, List.length_singleton]
    · rw [outside id inside]
      exact Nat.zero_le _
  · by_cases inside : id < program.size
    · obtain ⟨operation, found, parts⟩ := partsOf_forward wellFormed ok realizes inside
      obtain ⟨operation', found', parts'⟩ :=
        partsOf_forward wellFormed' ok' realizes' (relabels.inside_iff.mpr inside)
      rw [relabels.operation] at found'
      cases found.symm.trans found'
      rw [parts, parts', same id inside, Function.comp_apply, relabels.involutive]
      rfl
    · have outside' : partsOf (rename id) schedule'.entries = [] :=
        partsOf_eq_nil_iff.mpr fun entry member source =>
          inside (relabels.inside_iff.mp (realizes'.source entry member _ source).1)
      rw [outside id inside, outside', List.map_nil]

end Timetable
