import Timetable.Program.Resolution
import Timetable.Proofs.Program.WellFormed

/-!
# Durations of the operations of a program

The effective duration of an operation is the one in its slot, and otherwise the one its duration
table gives. Resolving operations one after the other writes what it finds into the slots, which
changes no effective duration, so the jobs it gives carry the effective durations of the program as
it was at the start.

## Main definitions

* `Program.duration?` — the effective duration of an operation.
* `Program.Lasts` — every operation has an effective duration.

## Main results

* `Program.resolve_of_lasts` — resolving a program whose durations are known gives all of its jobs.
* `Program.mem_jobs` — what a job says about its program.
* `Program.ids_of_resolve` — if resolving succeeds there is one job for each operation visited.
-/

set_option autoImplicit false

namespace Timetable

namespace Program

variable {program : Program} {table : DurationTable} {ids : List OpId}

/-- The effective duration of an operation: the one in its slot, else the one in the table. -/
def duration? (program : Program) (table : DurationTable) (id : OpId) : Option Tick :=
  program.tasks[id]?.bind fun task => (task.resolve table).toOption.map Resolved.ticks

/-- The effective duration of every operation is known; `duration` gives it. -/
def Lasts (program : Program) (table : DurationTable) (duration : OpId → Tick) : Prop :=
  ∀ id < program.size, program.duration? table id = some (duration id)

/-- The job of an operation, given how long it takes. -/
def job? (program : Program) (duration : OpId → Tick) (id : OpId) : Option Job :=
  (program.operation? id).map fun operation => ⟨id, operation, duration id⟩

/-- Programs that differ in slots at most have the same jobs. -/
lemma SameButSlots.job? {other : Program} (same : program.SameButSlots other)
    (duration : OpId → Tick) : program.job? duration = other.job? duration := by
  funext id
  rw [Program.job?, Program.job?, operation?_eq, operation?_eq, same.operations]

/-- A number without an operation has no duration. -/
lemma duration?_eq_none {id : OpId} (outside : ¬ id < program.size) :
    program.duration? table id = none := by
  rw [duration?, Array.getElem?_eq_none (Nat.le_of_not_lt outside), Option.bind_none]

/-- If all durations are known, no operation fails to resolve. -/
lemma Lasts.resolve_ne_error {duration : OpId → Tick} (lasts : program.Lasts table duration)
    {id : OpId} {task : Task} (found : program.tasks[id]? = some task) (error : DurationError) :
    task.resolve table ≠ .error error := by
  intro unknown
  have inside : id < program.size := (Array.getElem?_eq_some_iff.mp found).1
  have known := lasts id inside
  rw [duration?, found, Option.bind_some, unknown] at known
  cases known

/-! ## Writing slots -/

/-- A task that has been given the duration it resolves to still resolves to it. -/
lemma resolve_fill {task : Task} {resolved : Resolved}
    (ok : task.resolve table = .ok resolved) :
    (task.fill resolved).resolve table = .ok resolved := by
  unfold Task.resolve Task.fill at *
  cases slot : task.resolved with
  | none => rfl
  | some known => simpa [slot] using ok

/-- Storing the duration that a task resolves to changes no effective duration. -/
lemma duration?_fill {id : OpId} {task : Task} {resolved : Resolved}
    (found : program.tasks[id]? = some task) (ok : task.resolve table = .ok resolved)
    (other : OpId) :
    (program.fill id resolved).duration? table other = program.duration? table other := by
  unfold duration? fill
  rw [Array.getElem?_modify]
  split
  · subst id
    simp [found, resolve_fill ok, ok]
  · rfl

/-! ## Resolving one after the other -/

/-- Resolving operations does nothing to the program but write what resolving its tasks gives into
their slots. Whatever holds of the program and is kept by every such write holds afterwards.

**Proof sketch.** Induction on the operations that are visited, for all programs. An operation that
does not exist, or that has no duration, leaves the program as it is. -/
lemma resolve_induction {motive : Program → Prop} (holds : motive program)
    (write : ∀ {program : Program} {id : OpId} {task : Task} {resolved : Resolved},
      motive program → program.tasks[id]? = some task → task.resolve table = .ok resolved →
        motive (program.fill id resolved)) (ids : List OpId) :
    motive (program.resolve table ids).program := by
  induction ids generalizing program with
  | nil => exact holds
  | cons id ids ih =>
    unfold resolve
    cases found : program.tasks[id]? with
    | none => exact ih holds
    | some task =>
      dsimp only
      cases resolves : task.resolve table with
      | error e => exact holds
      | ok resolved => exact ih (write holds found resolves)

/-- Resolving changes slots only. -/
lemma sameButSlots_resolve (program : Program) (table : DurationTable) (ids : List OpId) :
    SameButSlots (program.resolve table ids).program program :=
  resolve_induction (motive := fun changed => SameButSlots changed program) (.refl program)
    (fun same _ _ => (sameButSlots_fill _ _ _).trans same) ids

/-- A job is an operation of the program that was visited, with its effective duration.

**Proof sketch.** Induction on the visit. Filling the slot of an operation changes neither
operations nor effective durations, so what holds of the later jobs in the filled program holds in
the program. -/
theorem mem_jobs {job : Job} (member : job ∈ (program.resolve table ids).jobs) :
    job.id ∈ ids ∧ program.operation? job.id = some job.operation ∧
      program.duration? table job.id = some job.ticks := by
  induction ids generalizing program with
  | nil => cases member
  | cons id ids ih =>
    unfold resolve at member
    cases found : program.tasks[id]? with
    | none =>
      obtain ⟨visited, rest⟩ := ih (by simpa only [found] using member)
      exact ⟨List.mem_cons_of_mem _ visited, rest⟩
    | some task =>
      cases ok : task.resolve table with
      | error e => simp [found, ok] at member
      | ok resolved =>
        simp only [found, ok] at member
        rcases List.mem_cons.mp member with rfl | later
        · exact ⟨List.mem_cons_self, by simp [operation?, found],
            by simp [duration?, found, ok, Except.toOption]⟩
        · obtain ⟨visited, operation, ticks⟩ := ih later
          refine ⟨List.mem_cons_of_mem _ visited, ?_, ?_⟩
          · rwa [operation?_eq, (sameButSlots_fill _ _ _).operations, ← operation?_eq] at operation
          · rwa [duration?_fill found ok] at ticks

/-- If resolving succeeds there is one job for each operation visited, in the order of the
visit.

**Proof sketch.** Induction on the visit. As resolving succeeds, each operation that is visited adds
one job. -/
theorem ids_of_resolve (known : ∀ id ∈ ids, id < program.size)
    (ok : (program.resolve table ids).failure = none) :
    (program.resolve table ids).jobs.map Job.id = ids := by
  induction ids generalizing program with
  | nil => rfl
  | cons id ids ih =>
    have inside : id < program.tasks.size := known id List.mem_cons_self
    have found : program.tasks[id]? = some program.tasks[id] := Array.getElem?_eq_getElem inside
    unfold resolve at ok ⊢
    simp only [found] at ok ⊢
    cases resolves : program.tasks[id].resolve table with
    | error e => simp [resolves] at ok
    | ok resolved =>
      simp only [resolves] at ok ⊢
      rw [List.map_cons, ih (fun other member => ?_) ok]
      rw [(sameButSlots_fill _ _ _).size]
      exact known other (List.mem_cons_of_mem _ member)

/-- If resolving succeeds the job at some place is that of the operation visited there. -/
lemma getElem?_ids_of_resolve (known : ∀ id ∈ ids, id < program.size)
    (ok : (program.resolve table ids).failure = none) {place : Nat} {job : Job}
    (found : (program.resolve table ids).jobs[place]? = some job) : ids[place]? = some job.id := by
  have ids_eq := ids_of_resolve known ok
  rw [← ids_eq, List.getElem?_map, found, Option.map_some]

/-- If resolving all operations succeeds, their durations are known. -/
lemma exists_lasts_of_resolve (known : ∀ id, id ∈ ids ↔ id < program.size)
    (resolves : (program.resolve table ids).failure = none) :
    ∃ duration, program.Lasts table duration := by
  refine ⟨fun id => (program.duration? table id).getD 0, fun id inside => ?_⟩
  have visited := (known id).mpr inside
  rw [← ids_of_resolve (fun id member => (known id).mp member) resolves] at visited
  obtain ⟨job, member, rfl⟩ := List.mem_map.mp visited
  obtain ⟨-, -, lasts⟩ := mem_jobs member
  dsimp only
  rw [lasts, Option.getD_some]

/-- If resolving fails, some operation has no duration.

**Proof sketch.** Slots are written on the way, but only with what an operation resolves to, so the
operation at which resolving stops has no duration to begin with. -/
lemma exists_of_resolve_failure {error : DurationError}
    (fails : (program.resolve table ids).failure = some error) :
    ∃ (id : OpId) (task : Task), program.tasks[id]? = some task ∧
      task.resolve table = .error error := by
  induction ids generalizing program with
  | nil => cases fails
  | cons id ids ih =>
    unfold resolve at fails
    cases found : program.tasks[id]? with
    | none => exact ih (by simpa only [found] using fails)
    | some task =>
      cases resolves : task.resolve table with
      | error e =>
        simp only [found, resolves, Option.some.injEq] at fails
        exact ⟨id, task, found, fails ▸ resolves⟩
      | ok resolved =>
        simp only [found, resolves] at fails
        obtain ⟨other, task', found', fails'⟩ := ih fails
        simp only [fill, Array.getElem?_modify] at found'
        split at found'
        · subst other
          rw [found, Option.map_some, Option.some.injEq] at found'
          rw [← found', resolve_fill resolves] at fails'
          cases fails'
        · exact ⟨other, task', found', fails'⟩

/-- Resolving operations whose durations are known gives the job of each of them.

**Proof sketch.** Induction on the visit. An operation whose duration is known resolves, and filling
its slot leaves all effective durations as they are, so the induction hypothesis applies to the
filled program. -/
theorem resolve_of_lasts {duration : OpId → Tick} (lasts : program.Lasts table duration)
    (known : ∀ id ∈ ids, id < program.size) :
    (program.resolve table ids).failure = none ∧
      (program.resolve table ids).jobs = ids.filterMap (program.job? duration) := by
  induction ids generalizing program with
  | nil => exact ⟨rfl, rfl⟩
  | cons id ids ih =>
    have inside : id < program.tasks.size := known id List.mem_cons_self
    have found : program.tasks[id]? = some program.tasks[id] := Array.getElem?_eq_getElem inside
    have lasts_id := lasts id inside
    unfold duration? at lasts_id
    rw [found, Option.bind_some] at lasts_id
    cases resolves : program.tasks[id].resolve table with
    | error e => simp [resolves, Except.toOption] at lasts_id
    | ok resolved =>
      rw [resolves] at lasts_id
      have ticks : resolved.ticks = duration id := by simpa [Except.toOption] using lasts_id
      have same := sameButSlots_fill program id resolved
      have lasts' : (program.fill id resolved).Lasts table duration := fun other smaller => by
        rw [duration?_fill found resolves]
        exact lasts other (same.size ▸ smaller)
      obtain ⟨no_failure, jobs⟩ := ih lasts' fun other member => by
        rw [same.size]
        exact known other (List.mem_cons_of_mem _ member)
      have first : program.job? duration id =
          some ⟨id, program.tasks[id].operation, duration id⟩ := by
        simp [job?, operation?, found]
      unfold resolve
      simp only [found, resolves, no_failure, jobs, same.job?, ticks,
        List.filterMap_cons_some first, and_self]

end Program

end Timetable
