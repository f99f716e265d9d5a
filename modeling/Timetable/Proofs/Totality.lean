import Timetable.Proofs.Conservation
import Timetable.Proofs.LockStep.Safety

/-!
# Scheduling succeeds, or says why it cannot

A program can be scheduled if it is physical, nothing in it waits for itself, and all durations are
known. Every method succeeds for these programs, and for all others it says what is missing. It
never gives up for any other reason: no run goes on forever or beyond its bound, nothing is looked
up that is not there, and with time running backwards every entry comes back.

## Main definitions

* `Program.Schedulable`, `Program.Rejects` — when a program can be scheduled, and why not.
* `Policy.Safe` — a policy looks up only what there is, and its loops end.

## Main results

* `Policy.Offered.answered` — every policy succeeds, or says why it cannot.
* `Program.schedule_total` — so does scheduling with any method.
-/

set_option autoImplicit false

namespace Timetable

open Relation

/-- A program can be scheduled with the durations of a table: it is physical, no operation comes
before itself, and the effective durations of all operations are known. -/
structure Program.Schedulable (program : Program) (table : DurationTable) : Prop where
  physical : program.violation? = none
  acyclic : ∀ id, ¬ TransGen program.precedence.Edge id id
  lasts : ∃ duration, program.Lasts table duration

/-- The reasons for which a program cannot be scheduled: it is not physical; or if it is, some
operation comes before itself, or some operation has no duration. -/
inductive Program.Rejects (program : Program) (table : DurationTable) : SchedulingError → Prop
  | notPhysical {violation : Violation} (violates : program.violation? = some violation) :
      Rejects program table (.notPhysical violation)
  | circularDependency {stuck : OpId} (physical : program.violation? = none)
      (circle : ∃ id, TransGen program.precedence.Edge id id) :
      Rejects program table (.circularDependency stuck)
  | duration {error : DurationError} {id : OpId} {task : Task}
      (physical : program.violation? = none) (found : program.tasks[id]? = some task)
      (unknown : task.resolve table = .error error) : Rejects program table (.duration error)

/-- An answer to whether a program can be scheduled. -/
inductive Program.Answered (program : Program) (table : DurationTable) :
    Except SchedulingError Schedule → Prop
  | ok (schedulable : program.Schedulable table) (schedule : Schedule) :
      Answered program table (.ok schedule)
  | error {e : SchedulingError} (rejects : program.Rejects table e) :
      Answered program table (.error e)

/-- How far the forward pass can come by placing operations of the program in some order. -/
inductive Front.Reached (program : Program) : Front → Prop
  | start : Reached program (start program)
  | place {front : Front} {job : Job} (reached : Reached program front)
      (known : program.operation? job.id = some job.operation) :
      Reached program (place program.precedence front job)

/-- There is a finish for each operation, and a place on the timeline for each resource that one of
them uses. -/
structure Front.InRange (program : Program) (front : Front) : Prop where
  finish : program.size ≤ front.finish.size
  resources : ∀ operation ∈ program.operations, ∀ resource ∈ operation.resources,
    resource < front.timeline.nextFree.size

/-- A policy runs safely on a physical program. Its precedence is built and put in order with
lookups that are in range, and so are those of the forward pass in every state that it can reach. If
there is an order and all durations are known, a lock-step run is safe, too. With time running
backwards the inner policy is safe on the reversal. -/
def Policy.Safe : Policy → Program → Prop
  | forward _, program => program.violation? = none → program.Closed ∧
      (∀ residual, Residual.Reached program.precedence residual → residual.InRange program.size) ∧
      ∀ front, Front.Reached program front → front.InRange program
  | lockStep table rule side, program => program.violation? = none → program.Closed ∧
      (∀ residual, Residual.Reached program.precedence residual → residual.InRange program.size) ∧
      ∀ order, program.precedence.order = .ok order →
        (program.resolve table program.ids).failure = none →
          (program.workload table rule side).Safe
  | reversed inner table, program => program.violation? = none → ∀ resolution reversal,
      program.reverse table = (resolution, .ok reversal) → inner.Safe reversal.program

variable {program : Program} {table : DurationTable} {rule : DelayRule} {side : CarriedSide}
  {schedule : Schedule} {settings : Settings} {policy : Policy} {reversal : Reversal}

/-! ## Reasons -/

/-- A program that is rejected cannot be scheduled. -/
lemma Program.Rejects.not_schedulable {e : SchedulingError} (rejects : program.Rejects table e) :
    ¬ program.Schedulable table := by
  rintro ⟨physical, acyclic, duration, lasts⟩
  cases rejects with
  | notPhysical violates => cases physical.symm.trans violates
  | circularDependency _ circle =>
    obtain ⟨id, circle⟩ := circle
    exact acyclic id circle
  | duration _ found unknown => exact lasts.resolve_ne_error found _ unknown

/-- A program that was scheduled can be scheduled. -/
lemma Program.Answered.schedulable (answered : program.Answered table (.ok schedule)) :
    program.Schedulable table := by
  cases answered with
  | ok schedulable => exact schedulable

/-- If there is no order, some operation comes before itself. -/
lemma Precedence.exists_circle {precedence : Precedence} {stuck : OpId} (sound : precedence.Sound)
    (fails : precedence.order = .error stuck) : ∃ id, TransGen precedence.Edge id id := by
  by_contra none
  obtain ⟨order, ordered⟩ := exists_order sound (not_exists.mp none)
  cases fails.symm.trans ordered

/-- If the precedence of a closed program cannot be put in order, it says why.

**Proof sketch.** A closed program declares all resources, so ordering fails because the program is
not physical or because visiting comes to a halt, which needs a circle (`exists_circle`). -/
lemma Program.Closed.rejects_of_ordered (closed : program.Closed) (table : DurationTable)
    {e : SchedulingError} (fails : program.ordered = .error e) : program.Rejects table e := by
  unfold ordered at fails
  rw [closed.undeclared?] at fails
  split at fails
  · rename_i violates
    cases fails
    exact .notPhysical violates
  · rename_i none
    cases none
  · rename_i physical _
    split at fails
    · rename_i stuck
      cases fails
      exact .circularDependency physical
        (Precedence.exists_circle closed.precedence_sound stuck)
    · cases fails

/-! ## The forward passes -/

/-- The forward pass succeeds, or says why it cannot.

**Proof sketch.** The pass fails where ordering does (`rejects_of_ordered`) or where a duration is
unknown. Otherwise there is an order, so there are no circles, and all durations resolve. -/
lemma Program.WellFormed.answered_forward (wellFormed : program.WellFormed)
    (table : DurationTable) : program.Answered table (program.forward table).result := by
  have closed := wellFormed.toClosed
  unfold forward
  split
  · rename_i fails
    exact .error (closed.rejects_of_ordered table fails)
  · rename_i ordered
    obtain ⟨physical, rfl, order⟩ := ordered_eq_ok ordered
    have sound := closed.precedence_sound
    dsimp only
    split
    · rename_i fails
      obtain ⟨id, task, found, unknown⟩ := exists_of_resolve_failure fails
      exact .error (.duration physical found unknown)
    · rename_i resolves
      have perm := closed.perm_of_order order
      have lasts := exists_lasts_of_resolve (fun id => perm.mem_iff.trans List.mem_range) resolves
      exact .ok ⟨physical, Precedence.not_transGen_edge sound order, lasts⟩ _

/-- The lock-step pass succeeds, or says why it cannot.

**Proof sketch.** As for the forward pass, but at the end the run has to come to an end without an
error, which it does for a sound workload (`exists_lockStepRun`). -/
lemma Program.WellFormed.answered_lockStep (wellFormed : program.WellFormed)
    (table : DurationTable) (rule : DelayRule) (side : CarriedSide) :
    program.Answered table (program.lockStep table rule side).result := by
  have closed := wellFormed.toClosed
  unfold lockStep
  split
  · rename_i fails
    exact .error (closed.rejects_of_ordered table fails)
  · rename_i ordered
    obtain ⟨physical, rfl, order⟩ := ordered_eq_ok ordered
    have sound := closed.precedence_sound
    dsimp only
    split
    · rename_i fails
      obtain ⟨id, task, found, unknown⟩ := exists_of_resolve_failure fails
      exact .error (.duration physical found unknown)
    · rename_i resolves
      have lasts := exists_lasts_of_resolve (fun id => List.mem_range) resolves
      obtain ⟨last, ran, -⟩ := wellFormed.exists_lockStepRun order resolves rule side
      dsimp only
      split
      · rename_i failed
        cases (congrArg Prod.snd ran).symm.trans failed
      · exact .ok ⟨physical, Precedence.not_transGen_edge sound order, lasts⟩ _

/-! ## With time running backwards -/

/-- In a closed physical program, nothing comes before itself if nothing requires itself. -/
lemma Program.Closed.acyclic_iff (closed : program.Closed)
    (physical : program.violation? = none) :
    program.Acyclic ↔ ∀ id, ¬ TransGen program.precedence.Edge id id := by
  rw [Acyclic, transGen_edge_eq closed physical]

namespace Program.ReversedBy

/-- If the reversal of a program can be scheduled, so can the program. -/
lemma schedulable (reversed : program.ReversedBy table reversal) (closed : program.Closed)
    (physical : program.violation? = none) (lasts : ∃ duration, program.Lasts table duration)
    (schedulable : reversal.program.Schedulable table) : program.Schedulable table := by
  have acyclic :=
    ((reversed.closed closed).acyclic_iff schedulable.physical).mpr schedulable.acyclic
  exact ⟨physical, (closed.acyclic_iff physical).mp (reversed.acyclic_of_reversal closed acyclic),
    lasts⟩

/-- If the reversal of a program is rejected, it is for a reason to reject the program.

**Proof sketch.** The reversal is physical and all of its durations are known, because this holds of
the program. So a circle is the only reason that is left, and turned around it is one of the
program. -/
lemma rejects (reversed : program.ReversedBy table reversal) (closed : program.Closed)
    (physical : program.violation? = none) (lasts : ∃ duration, program.Lasts table duration)
    {e : SchedulingError} (rejects : reversal.program.Rejects table e) :
    program.Rejects table e := by
  have physical' := reversed.physical physical
  cases rejects with
  | notPhysical violates => cases physical'.symm.trans violates
  | circularDependency _ circle =>
    refine .circularDependency physical ?_
    by_contra none
    have acyclic := (closed.acyclic_iff physical).mpr (not_exists.mp none)
    have acyclic' := reversed.acyclic closed acyclic
    obtain ⟨place, circle⟩ := circle
    exact ((reversed.closed closed).acyclic_iff physical').mp acyclic' place circle
  | duration _ found unknown =>
    obtain ⟨duration, lasts⟩ := lasts
    exact absurd unknown ((reversed.lasts lasts table).resolve_ne_error found _)

end Program.ReversedBy

namespace Policy

/-- With time running backwards a policy succeeds, or says why it cannot, if it does on the reversal
and makes its entries from operations only.

**Proof sketch.** If the program is not physical or a duration is unknown, that is reported before
anything is reversed. Otherwise the reversal is answered, a reason of the reversal is one of the
program (`ReversedBy.rejects`), and entries that were made from operations come back
(`exists_run_reversed`). -/
lemma answered_reversed (wellFormed : program.WellFormed)
    (answered : ∀ reversal, program.ReversedBy table reversal →
      reversal.program.Answered table (policy.run reversal.program).result)
    (known : ∀ reversal, program.ReversedBy table reversal → ∀ schedule,
      (policy.run reversal.program).result = .ok schedule →
        ∀ entry ∈ schedule.entries, ∀ id, entry.source = some id → id < program.size) :
    program.Answered table ((reversed policy table).run program).result := by
  have closed := wellFormed.toClosed
  cases physical : program.violation? with
  | some violation =>
    simp only [run, physical]
    exact .error (.notPhysical physical)
  | none =>
    cases resolves : (program.resolve table program.ids.reverse).failure with
    | some e =>
      simp only [run, physical, Program.reverse, resolves]
      obtain ⟨id, task, found, unknown⟩ := Program.exists_of_resolve_failure resolves
      exact .error (.duration physical found unknown)
    | none =>
      have reversedBy := Program.reversedBy resolves
      have lasts := Program.exists_lasts_of_resolve
        (fun id => List.mem_reverse.trans List.mem_range) resolves
      have answer := answered _ reversedBy
      cases inner : (policy.run (program.resolve table program.ids.reverse).reversal.program).result
        with
      | error e =>
        rw [inner] at answer
        cases answer with
        | error rejects =>
          simp only [run, physical, Program.reverse, resolves, conclude, inner]
          exact .error (reversedBy.rejects closed physical lasts rejects)
      | ok schedule =>
        rw [inner] at answer
        cases answer with
        | ok schedulable =>
          obtain ⟨schedule, ok, -⟩ := exists_run_reversed physical resolves inner
            (known _ reversedBy schedule inner)
          rw [ok]
          exact .ok (reversedBy.schedulable closed physical lasts schedulable) schedule

/-- Every policy on offer succeeds, or says why it cannot.

**Proof sketch.** One of the four policies. As late as possible the reversal is well formed and
answered, and by conservation its entries are made from its operations. -/
theorem Offered.answered {method : String} (offered : Offered table method policy)
    (wellFormed : program.WellFormed) : program.Answered table (policy.run program).result := by
  cases offered with
  | asap => exact wellFormed.answered_forward table
  | asapTimestep rule => exact wellFormed.answered_lockStep table rule .closing
  | alap =>
    refine answered_reversed wellFormed
      (fun _ reversed => (reversed.wellFormed wellFormed).answered_forward table) ?_
    intro reversal reversed schedule ok
    rw [← reversed.size]
    exact (Program.conserved_forward (reversed.wellFormed wellFormed) ok).1.known
  | alapTimestep rule =>
    refine answered_reversed wellFormed
      (fun _ reversed => (reversed.wellFormed wellFormed).answered_lockStep table rule .opening) ?_
    intro reversal reversed schedule ok entry member id source
    obtain ⟨last, anomalies, run, rfl⟩ :=
      Program.lockStep_run (reversed.wellFormed wellFormed) ok
    have led := run.grouped.led
    rw [run.size_eq, reversed.size] at led
    exact (run.stepped.accounted led entry member).1 id source

end Policy

/-! ## Safety -/

/-- A precedence has successors for each operation. -/
lemma Program.size_succLists (program : Program) :
    program.precedence.succLists.size = program.size := by
  simp [precedence]

/-- Whatever is completed in whatever order, nothing out of range is looked up. -/
lemma Program.Closed.inRange_of_reached (closed : program.Closed) {residual : Residual}
    (reached : Residual.Reached program.precedence residual) : residual.InRange program.size :=
  reached.inRange closed.precedence_sound (size_precedence program) (size_succLists program)

/-- The arrays of the forward pass keep their sizes. -/
lemma Front.Reached.sizes {front : Front} (reached : Front.Reached program front) :
    front.finish.size = program.size ∧ front.timeline.nextFree.size = program.numResources := by
  induction reached with
  | start => exact ⟨Array.size_replicate, Timeline.size_start _ _⟩
  | place _ _ ih =>
    refine ⟨Array.size_setIfInBounds.trans ih.1, ?_⟩
    simp only [Front.place, Timeline.size_occupy, Timeline.size_pad, ih.2]

namespace Policy

/-- The forward pass is safe. -/
lemma safe_forward (closed : program.Closed) (table : DurationTable) :
    (forward table).Safe program := by
  intro _
  refine ⟨closed, fun _ => closed.inRange_of_reached, fun front reached => ?_⟩
  obtain ⟨finish, timeline⟩ := reached.sizes
  refine ⟨finish.ge, ?_⟩
  rw [timeline]
  exact closed.declared

/-- The lock-step pass is safe. -/
lemma safe_lockStep (closed : program.Closed) (table : DurationTable) (rule : DelayRule)
    (side : CarriedSide) : (lockStep table rule side).Safe program := by
  intro _
  refine ⟨closed, fun _ => closed.inRange_of_reached, fun order ordered resolves => ?_⟩
  refine (closed.sound_workload ordered resolves rule side).safe ?_
  rw [Program.size_workload resolves]
  exact program.size_succLists

/-- A policy is safe with time running backwards if it is on closed programs. -/
lemma safe_reversed (closed : program.Closed)
    (safe : ∀ {other : Program}, other.Closed → policy.Safe other) :
    (reversed policy table).Safe program := by
  intro _ resolution reversal reverses
  obtain ⟨-, reversedBy⟩ := Program.reverse_eq_ok reverses
  exact safe (reversedBy.closed closed)

/-- Every policy on offer is safe. -/
lemma Offered.safe {method : String} (offered : Offered table method policy)
    (closed : program.Closed) : policy.Safe program := by
  cases offered with
  | asap => exact safe_forward closed table
  | asapTimestep rule => exact safe_lockStep closed table rule .closing
  | alap => exact safe_reversed closed fun closed => safe_forward closed table
  | alapTimestep rule => exact safe_reversed closed fun closed => safe_lockStep closed table rule _

end Policy

/-! ## All methods -/

/-- **Scheduling is total.** Whatever program was built, with any table, method and rule scheduling
succeeds exactly if the program is physical, its precedence has no circles, and the durations of all
operations are known. Otherwise the error names one of these three reasons, and it is a reason. The
policy that runs is safe: in no state that it can reach does it look up anything out of range, and
all of its loops end on their own.

**Proof sketch.** The method and the rule name a policy on offer, which answers (`Offered.answered`)
and is safe (`Offered.safe`). A program that can be scheduled has none of the reasons, and each
reason keeps it from being scheduled. -/
theorem Program.schedule_total (built : program.Built) (table : DurationTable)
    (method : settings.method ∈ ["asap", "alap", "asap_timestep", "alap_timestep"])
    (rule : settings.rule ∈ ["shortest", "longest"]) :
    ((∃ schedule, (program.schedule table settings).result = .ok schedule) ↔
        program.Schedulable table) ∧
      (∀ e, (program.schedule table settings).result = .error e → program.Rejects table e) ∧
      ∃ policy, Policy.ofSettings settings table = .ok policy ∧ policy.Safe program := by
  have wellFormed := built.wellFormed
  obtain ⟨policy, named⟩ := Policy.exists_ofSettings table method rule
  have offered := Policy.ofSettings_eq_ok named
  have answer := offered.answered wellFormed
  rw [← result_schedule named] at answer
  refine ⟨?_, ?_, policy, named, offered.safe wellFormed.toClosed⟩
  · constructor
    · rintro ⟨schedule, ok⟩
      rw [ok] at answer
      cases answer with
      | ok schedulable => exact schedulable
    · intro schedulable
      cases result : (program.schedule table settings).result with
      | ok schedule => exact ⟨schedule, rfl⟩
      | error e =>
        rw [result] at answer
        cases answer with
        | error rejects => exact absurd schedulable rejects.not_schedulable
  · intro e failed
    rw [failed] at answer
    cases answer with
    | error rejects => exact rejects

/-- The sample program can be scheduled in lock step with time running backwards. -/
theorem Program.schedule_total_relay : relay.Schedulable .relay ∧
    (∃ schedule, (relay.schedule .relay { method := "alap_timestep" }).result = .ok schedule) ∧
      ∃ policy, Policy.ofSettings { method := "alap_timestep" } .relay = .ok policy ∧
        policy.Safe relay := by
  obtain ⟨succeeds, -, safe⟩ :=
    @schedule_total _ { method := "alap_timestep" } built_relay .relay (by decide) (by decide)
  exact ⟨succeeds.mp ⟨_, rfl⟩, ⟨_, rfl⟩, safe⟩

end Timetable
