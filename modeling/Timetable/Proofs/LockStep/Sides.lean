import Timetable.Proofs.LockStep.Steady

/-!
# Timesteps that close and timesteps that open

The side of a workload says how its timesteps are read. Filling a step takes no notice of it, and
without timesteps closing a step does not either, so the run is the same on both sides.

## Main definitions

* `Workload.onSide` — a workload whose timesteps are read on the given side.

## Main results

* `Workload.grouping_onSide` — without timesteps the run does not depend on the side.
-/

set_option autoImplicit false

namespace Timetable

/-- The workload with its timesteps read on the given side. -/
def Workload.onSide (work : Workload) (side : CarriedSide) : Workload := { work with side }

variable {work : Workload} {side : CarriedSide}

/-- Filling a step takes no notice of the side. -/
lemma Step.rounds_onSide (times : Nat) (step : Step) :
    step.rounds (work.onSide side) times = step.rounds work times := by
  induction times generalizing step with
  | zero => rfl
  | succ times ih =>
    have next : step.round (work.onSide side) = step.round work := rfl
    rw [rounds, rounds, next, ih]

namespace Grouping

/-- Without timesteps making a step takes no notice of the side.

**Proof sketch.** Without timesteps draining completes nothing, so no boundary opens the step and
none is ready to close it. Filling a step and cutting delays do not read the side at all. -/
lemma advance_onSide (plain : ∀ id, work.isTimestep id = false) (grouping : Grouping) :
    grouping.advance (work.onSide side) = grouping.advance work := by
  have plain' : ∀ id, (work.onSide side).isTimestep id = false := plain
  have drain : grouping.residual.drain work = ([], grouping.residual) :=
    drainRounds_of_plain (fun id _ => plain id) _
  have drain' : grouping.residual.drain (work.onSide side) = ([], grouping.residual) :=
    drainRounds_of_plain (fun id _ => plain' id) _
  have filled : ∀ (ready : Grouping) (dominant : DominanceKey),
      ready.filled (work.onSide side) dominant = ready.filled work dominant :=
    fun _ _ => Step.rounds_onSide _ _
  have close : ∀ (ready : Grouping) (dominant : OpId) (filled : Step),
      ready.close (work.onSide side) none dominant filled =
        ready.close work none dominant filled := by
    intro ready dominant filled
    have unbounded := boundary?_of_plain plain
    have unbounded' := boundary?_of_plain plain'
    rw [opening?_nil] at unbounded
    rw [opening?_nil] at unbounded'
    unfold Grouping.close
    simp only [unbounded, unbounded']
    rfl
  unfold advance begun
  simp only [drain, drain', opening?_nil, loose_nil, filled, close]
  rfl

/-- Without timesteps no step takes notice of the side. -/
lemma run_onSide (plain : ∀ id, work.isTimestep id = false) (bound budget : Nat)
    (grouping : Grouping) :
    grouping.run (work.onSide side) bound budget = grouping.run work bound budget := by
  induction budget generalizing grouping with
  | zero => rfl
  | succ budget ih =>
    rw [run, run, advance_onSide plain]
    simp only [ih]

end Grouping

/-- Without timesteps the run of a workload does not depend on the side.

**Proof sketch.** Every step is the same (`advance_onSide`), and so is the run. -/
theorem Workload.grouping_onSide (plain : ∀ id, work.isTimestep id = false) :
    (work.onSide side).grouping = work.grouping :=
  Grouping.run_onSide plain _ _ _

end Timetable
