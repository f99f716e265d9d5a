import Timetable.Proofs.Program.Durations
import Timetable.Reversal

/-!
# What a slot holds is what would be resolved

Slots are only ever written with what their operations resolve to. A program whose slots were
written in part therefore resolves like the program it was before, with the same durations, the same
anomalies and the same error, and a slot that is written is never written again.

## Main definitions

* `Program.outcome?` — what resolving an operation gives.
* `Program.ResolvesLike` — two programs differ in slots at most, and resolve alike.
* `Program.FillsTo` — slots of a program were written with what they resolve to.
* `Program.anomalies` — the anomalies of the operations whose durations are rounded.

## Main results

* `Program.fillsTo_resolve` — resolving operations fills slots.
* `Program.ResolvesLike.resolve` — programs that resolve alike give the same jobs.
* `Program.anomalies_resolve` — resolving reports the anomalies of the operations visited.
-/

set_option autoImplicit false

namespace Timetable

namespace Program

variable {program other third : Program} {table : DurationTable} {ids : List OpId} {id : OpId}

/-- What resolving an operation gives, if the operation exists: what is in its slot, else what the
table says. -/
def outcome? (program : Program) (table : DurationTable) (id : OpId) :
    Option (Except DurationError Resolved) :=
  program.tasks[id]?.map fun task => task.resolve table

/-- The anomaly that resolving an operation reports: the one that its first resolution left in its
slot, or the one that it would leave there. -/
def anomaly? (program : Program) (table : DurationTable) (id : OpId) : Option Anomaly :=
  (program.outcome? table id).bind fun outcome => outcome.toOption.bind Resolved.anomaly

/-- The anomalies of all operations whose durations are rounded, in program order. -/
def anomalies (program : Program) (table : DurationTable) : List Anomaly :=
  program.ids.filterMap (program.anomaly? table)

/-- Two programs differ in slots at most, and every operation of one resolves to what it resolves to
in the other. -/
structure ResolvesLike (table : DurationTable) (program other : Program) : Prop
    extends SameButSlots program other where
  outcome : ∀ id, program.outcome? table id = other.outcome? table id

/-- A program turns into another one by writing slots with what their operations resolve to. Slots
that were written before stay as they are. -/
structure FillsTo (table : DurationTable) (program later : Program) : Prop
    extends ResolvesLike table later program where
  kept : ∀ id resolved, program.resolved? id = some resolved →
    later.resolved? id = some resolved

/-! ## Programs that resolve alike -/

/-- Programs that differ in slots at most have the same operation under each number. -/
lemma SameButSlots.operation? (same : SameButSlots program other) (id : OpId) :
    program.operation? id = other.operation? id := by
  rw [operation?_eq, operation?_eq, same.operations]

namespace ResolvesLike

/-- A program resolves like itself. -/
lemma refl (table : DurationTable) (program : Program) : ResolvesLike table program program :=
  ⟨.refl program, fun _ => rfl⟩

/-- Resolving alike is transitive. -/
lemma trans (first : ResolvesLike table program other)
    (second : ResolvesLike table other third) : ResolvesLike table program third :=
  ⟨first.toSameButSlots.trans second.toSameButSlots, fun id =>
    (first.outcome id).trans (second.outcome id)⟩

/-- Resolving alike is symmetric. -/
lemma symm (like : ResolvesLike table program other) : ResolvesLike table other program :=
  ⟨like.toSameButSlots.symm, fun id => (like.outcome id).symm⟩

/-- The operation and the outcome of a task are those of the task in the other program. -/
lemma exists_task (like : ResolvesLike table program other) {task : Task}
    (found : program.tasks[id]? = some task) : ∃ task' : Task, other.tasks[id]? = some task' ∧
      task'.operation = task.operation ∧ task'.resolve table = task.resolve table := by
  have outcome := like.outcome id
  have operation := like.operation? id
  simp only [outcome?, operation?, found, Option.map_some] at outcome operation
  obtain ⟨task', found', resolves⟩ := Option.map_eq_some_iff.mp outcome.symm
  rw [found', Option.map_some, Option.some_inj] at operation
  exact ⟨task', found', operation.symm, resolves⟩

/-- The same operations exist in both programs. -/
lemma tasks_eq_none (like : ResolvesLike table program other)
    (unknown : program.tasks[id]? = none) : other.tasks[id]? = none := by
  have outcome := like.outcome id
  simp only [outcome?, unknown, Option.map_none] at outcome
  exact Option.map_eq_none_iff.mp outcome.symm

/-- Programs that resolve alike report the same anomalies. -/
lemma anomaly? (like : ResolvesLike table program other) (id : OpId) :
    program.anomaly? table id = other.anomaly? table id := by
  rw [Program.anomaly?, Program.anomaly?, like.outcome]

end ResolvesLike

/-! ## Writing slots -/

namespace FillsTo

/-- A program fills to itself. -/
lemma refl (table : DurationTable) (program : Program) : FillsTo table program program :=
  ⟨.refl table program, fun _ _ written => written⟩

/-- Filling slots is transitive: slots that were written stay written. -/
lemma trans (first : FillsTo table program other) (second : FillsTo table other third) :
    FillsTo table program third :=
  ⟨second.toResolvesLike.trans first.toResolvesLike, fun id resolved written =>
    second.kept id resolved (first.kept id resolved written)⟩

end FillsTo

/-- Writing the slot of an operation with what it resolves to fills it.

**Proof sketch.** Only the slot of the operation changes. It is written with what the operation
resolves to, and a slot that holds something keeps it. -/
lemma fillsTo_fill {task : Task} {resolved : Resolved} (found : program.tasks[id]? = some task)
    (ok : task.resolve table = .ok resolved) :
    FillsTo table program (program.fill id resolved) := by
  refine ⟨⟨sameButSlots_fill program id resolved, fun place => ?_⟩, fun place held written => ?_⟩
  · unfold outcome? fill
    rw [Array.getElem?_modify]
    split
    · subst id
      simp [found, resolve_fill ok, ok]
    · rfl
  · unfold resolved? fill at *
    rw [Array.getElem?_modify]
    split
    · subst id
      rw [found, Option.bind_some] at written
      simp [found, Task.fill, written]
    · exact written

/-- Resolving operations fills slots.

**Proof sketch.** Resolving fills slots one after the other (`resolve_induction`), and each is
filled with what the operation resolves to. -/
theorem fillsTo_resolve (program : Program) (table : DurationTable) (ids : List OpId) :
    FillsTo table program (program.resolve table ids).program :=
  resolve_induction (.refl table program)
    (fun fills found resolves => fills.trans (fillsTo_fill found resolves)) ids

/-- After a successful resolution the slots of all operations visited are written.

**Proof sketch.** Induction on the visit. Once the operation is visited its slot is written, and
resolving the others keeps what is written (`fillsTo_resolve`). -/
lemma resolved?_resolve (ok : (program.resolve table ids).failure = none) (visited : id ∈ ids)
    (inside : id < program.size) :
    ((program.resolve table ids).program.resolved? id).isSome := by
  induction ids generalizing program with
  | nil => cases visited
  | cons first ids ih =>
    unfold resolve at ok ⊢
    cases found : program.tasks[first]? with
    | none =>
      simp only [found] at ok ⊢
      rcases List.mem_cons.mp visited with rfl | later
      · exact absurd inside (Nat.not_lt_of_le (Array.getElem?_eq_none_iff.mp found))
      · exact ih ok later inside
    | some task =>
      cases resolves : task.resolve table with
      | error e => simp [found, resolves] at ok
      | ok resolved =>
        simp only [found, resolves] at ok ⊢
        rcases List.mem_cons.mp visited with rfl | later
        · obtain ⟨held, written⟩ : ∃ held, (program.fill id resolved).resolved? id = some held := by
            unfold resolved? fill
            rw [Array.getElem?_modify, if_pos rfl, found]
            cases slot : task.resolved <;> simp [Task.fill, slot]
          rw [(fillsTo_resolve _ table ids).kept id held written]
          rfl
        · exact ih ok later (by rwa [(sameButSlots_fill _ _ _).size])

/-- A slot that is written is not written again.

**Proof sketch.** Filling a task whose slot holds something leaves the task as it is. -/
lemma fill_of_resolved (written : (program.resolved? id).isSome) (resolved : Resolved) :
    program.fill id resolved = program := by
  obtain ⟨held, written⟩ := Option.isSome_iff_exists.mp written
  obtain ⟨task, found, slot⟩ := Option.bind_eq_some_iff.mp written
  have same : task.fill resolved = task := by
    rw [Task.fill, slot, Option.some_or, ← slot]
  have tasks : (program.tasks.modify id fun task => task.fill resolved) = program.tasks := by
    refine Array.ext_getElem? fun place => ?_
    rw [Array.getElem?_modify]
    split
    · subst id
      rw [found, Option.map_some, same]
    · rfl
  rw [fill, tasks]

/-! ## Resolving programs that resolve alike -/

/-- Programs that resolve alike give the same jobs, the same anomalies and the same error.

**Proof sketch.** Each writes the slots of the operations visited on the way, but that leaves it
resolving as before. -/
theorem ResolvesLike.resolve (like : ResolvesLike table program other) (ids : List OpId) :
    (program.resolve table ids).jobs = (other.resolve table ids).jobs ∧
      (program.resolve table ids).anomalies = (other.resolve table ids).anomalies ∧
      (program.resolve table ids).failure = (other.resolve table ids).failure := by
  induction ids generalizing program other with
  | nil => exact ⟨rfl, rfl, rfl⟩
  | cons id ids ih =>
    unfold Program.resolve
    cases found : program.tasks[id]? with
    | none =>
      simp only [like.tasks_eq_none found]
      exact ih like
    | some task =>
      obtain ⟨task', found', operation, resolves⟩ := like.exists_task found
      cases ok : task.resolve table with
      | error e =>
        simp only [found', resolves, ok, and_self]
      | ok resolved =>
        have filled := fillsTo_fill found ok
        have filled' := fillsTo_fill found' (resolves.trans ok)
        obtain ⟨jobs, anomalies, failure⟩ :=
          ih ((filled.toResolvesLike.trans like).trans filled'.toResolvesLike.symm)
        simp only [found', operation, resolves, ok, jobs, anomalies, failure, and_self]

/-! ## Anomalies -/

/-- A successful resolution reports the anomalies of the operations visited, in the order of the
visit.

**Proof sketch.** Induction on the visit. Filling a slot leaves it open what the other operations
report, since a slot is filled with what the operation would resolve to anyway. -/
theorem anomalies_resolve (ok : (program.resolve table ids).failure = none) :
    (program.resolve table ids).anomalies = ids.filterMap (program.anomaly? table) := by
  induction ids generalizing program with
  | nil => rfl
  | cons id ids ih =>
    unfold resolve at ok ⊢
    cases found : program.tasks[id]? with
    | none =>
      have silent : program.anomaly? table id = none := by simp [anomaly?, outcome?, found]
      simp only [found] at ok ⊢
      rw [List.filterMap_cons_none silent, ih ok]
    | some task =>
      cases resolves : task.resolve table with
      | error e => simp [found, resolves] at ok
      | ok resolved =>
        have first : program.anomaly? table id = resolved.anomaly := by
          simp [anomaly?, outcome?, found, resolves, Except.toOption]
        have later : (program.fill id resolved).anomaly? table = program.anomaly? table :=
          funext (fillsTo_fill found resolves).anomaly?
        simp only [found, resolves] at ok ⊢
        rw [ih ok, later]
        cases anomaly : resolved.anomaly with
        | none => rw [List.filterMap_cons_none (first.trans anomaly)]; rfl
        | some lost => rw [List.filterMap_cons_some (first.trans anomaly)]; rfl

/-- A reversal reports no anomalies, because it knows its durations from the program. -/
lemma anomaly?_reversal (resolution : Resolution) (table : DurationTable) (id : OpId) :
    resolution.reversal.program.anomaly? table id = none := by
  simp only [anomaly?, outcome?, Resolution.reversal]
  cases found : resolution.jobs[id]? <;> simp [found, Task.known, Task.resolve, Except.toOption]

end Program

end Timetable
