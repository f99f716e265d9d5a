import Timetable.Proofs.Optimal.Reversal
import Timetable.Proofs.Policy
import Timetable.Proofs.Precedence.Circles

/-!
# Circular dependencies as late as possible

With time running backwards it is the reversed program that turns out to have a circle. What waits
for a circle there is what a circle waits for in the given program, and the lowest of it is the
opposite of the highest of these operations. It is reported by the number that it has in the
reversed program, which in the given program belongs to the operation at the opposite place.

## Main definitions

* `Program.knot` — a program with a circle that its first operation has nothing to do with.

## Main results

* `Program.alap_circular` — which number is reported as late as possible.
* `Program.alap_blames_bystander` — it may belong to an operation that no circle is connected with.
-/

set_option autoImplicit false

namespace Timetable

open Relation

variable {program : Program} {table : DurationTable} {settings : Settings} {reversal : Reversal}
  {policy : Policy} {stuck : OpId}

/-- What is blocked in the reversal is the opposite of what is blocking in the program.

**Proof sketch.** In both programs chains of precedence are chains of requirements, and reversing
turns these around. So a circle that is followed by a chain becomes a circle that is preceded by
one. -/
lemma Program.ReversedBy.blocked_flip_iff (reversed : program.ReversedBy table reversal)
    (closed : program.Closed) (physical : program.violation? = none) {id : OpId}
    (inside : id < program.size) :
    reversal.program.precedence.Blocked (program.flip id) ↔ program.precedence.Blocking id := by
  unfold Precedence.Blocked Precedence.Blocking
  simp only [reflTransGen_iff_eq_or_transGen, transGen_edge_eq closed physical,
    transGen_edge_eq (reversed.closed closed) (reversed.physical physical)]
  constructor
  · rintro ⟨knot, circle, chain⟩
    refine ⟨program.flip knot, reversed.transGen_of_flip closed circle, ?_⟩
    refine chain.imp (fun same => ?_) fun chain => ?_
    · rw [← same, flip_flip inside]
    · rw [← flip_flip inside]
      exact reversed.transGen_of_flip closed chain
  · rintro ⟨knot, circle, chain⟩
    refine ⟨program.flip knot, reversed.transGen_flip closed circle, ?_⟩
    exact chain.imp (congrArg program.flip ·.symm) (reversed.transGen_flip closed)

/-- If a program has a circle, its reversal is stuck at the opposite of the highest operation that
is blocking in the program.

**Proof sketch.** Turned around, a circle is a circle, so ordering the reversal fails with the
lowest operation that is blocked there (`Precedence.order_eq_error`). What is blocked there is the
opposite of what is blocking in the program, and the lowest place is the opposite of the highest
operation. -/
lemma Program.ReversedBy.exists_order_error (reversed : program.ReversedBy table reversal)
    (closed : program.Closed) (physical : program.violation? = none)
    (circle : ∃ id, TransGen program.precedence.Edge id id) :
    ∃ highest, reversal.program.precedence.order = .error (program.flip highest) ∧
      program.precedence.Blocking highest ∧
      ∀ id, program.precedence.Blocking id → id ≤ highest := by
  have physical' := reversed.physical physical
  have sound := (reversed.closed closed).precedence_sound
  have size := (size_precedence reversal.program).trans reversed.size
  have turned : ∃ place, TransGen reversal.program.precedence.Edge place place := by
    obtain ⟨id, circle⟩ := circle
    rw [transGen_edge_eq closed physical] at circle
    rw [transGen_edge_eq (reversed.closed closed) physical']
    exact ⟨program.flip id, reversed.transGen_flip closed circle⟩
  obtain ⟨place, fails⟩ := Precedence.exists_order_error sound turned
  obtain ⟨blocked, lowest⟩ := Precedence.order_eq_error sound fails
  obtain ⟨highest, inside, rfl⟩ := exists_flip (size ▸ blocked.lt_size sound)
  refine ⟨highest, fails, (reversed.blocked_flip_iff closed physical inside).mp blocked, ?_⟩
  intro id blocking
  have inside' : id < program.size :=
    size_precedence program ▸ blocking.lt_size closed.precedence_sound
  have le := lowest _ ((reversed.blocked_flip_iff closed physical inside').mpr blocking)
  unfold flip at le
  lia

/-- Neither pass schedules a program that has no order. -/
lemma Policy.run_circular (closed : program.Closed) (physical : program.violation? = none)
    (fails : program.precedence.order = .error stuck)
    (plain : policy = forward table ∨ ∃ rule side, policy = lockStep table rule side) :
    (policy.run program).result = .error (.circularDependency stuck) := by
  have ordered : program.ordered = .error (.circularDependency stuck) := by
    simp only [Program.ordered, physical, closed.undeclared?, fails]
  rcases plain with rfl | ⟨rule, side, rfl⟩
  · simp only [run, Program.forward, ordered, Run.failed]
  · simp only [run, Program.lockStep, ordered, Run.failed]

/-- With time running backwards, an error of the inner policy is reported as it is. -/
lemma Policy.run_reversed_eq_error {e : SchedulingError} (physical : program.violation? = none)
    (resolves : (program.resolve table program.ids.reverse).failure = none)
    (fails : (policy.run (program.resolve table program.ids.reverse).reversal.program).result =
      .error e) : ((reversed policy table).run program).result = .error e := by
  simp only [run, physical, Program.reverse, resolves, conclude, fails]

namespace Program

/-- **As late as possible, a circle is reported by the opposite number.** If a physical program has
a circle and all durations are known, both methods that schedule as late as possible report the
highest operation that is in a circle or that a circle waits for, but by the number of the operation
at the opposite place. That one is in a circle or connected with one only by chance.

**Proof sketch.** The durations are known, so the program is reversed, and both methods run on the
reversal, whose ordering fails with the opposite of the highest blocking operation
(`Program.ReversedBy.exists_order_error`). The error is passed on as it is, without the number being
translated back. -/
theorem alap_circular (built : program.Built) (physical : program.violation? = none)
    (lasts : ∃ duration, program.Lasts table duration)
    (circle : ∃ id, TransGen program.precedence.Edge id id)
    (method : settings.method = "alap" ∨
      settings.method = "alap_timestep" ∧ settings.rule ∈ ["shortest", "longest"]) :
    ∃ highest, program.precedence.Blocking highest ∧
      (∀ id, program.precedence.Blocking id → id ≤ highest) ∧
      (program.schedule table settings).result =
        .error (.circularDependency (program.flip highest)) ∧
      ((∃ id, (program.schedule table settings).result = .error (.circularDependency id) ∧
          program.precedence.Entangled id) ↔
        program.precedence.Entangled (program.flip highest)) := by
  have closed := built.wellFormed.toClosed
  obtain ⟨duration, lasts⟩ := lasts
  obtain ⟨resolves, -⟩ := resolve_of_lasts lasts fun id member =>
    List.mem_range.mp (List.mem_reverse.mp member)
  have reversed := reversedBy resolves
  have physical' := reversed.physical physical
  obtain ⟨highest, fails, blocking, greatest⟩ :=
    reversed.exists_order_error closed physical circle
  have result : (program.schedule table settings).result =
      .error (.circularDependency (program.flip highest)) := by
    rcases method with alap | ⟨alap, rule⟩
    · rw [result_schedule (Policy.ofSettings_alap alap)]
      exact Policy.run_reversed_eq_error physical resolves
        (Policy.run_circular (reversed.closed closed) physical' fails (.inl rfl))
    · obtain ⟨rule, parsed⟩ := DelayRule.exists_parse rule
      rw [result_schedule (Policy.ofSettings_alapTimestep alap parsed)]
      exact Policy.run_reversed_eq_error physical resolves
        (Policy.run_circular (reversed.closed closed) physical' fails (.inr ⟨rule, _, rfl⟩))
  refine ⟨highest, blocking, greatest, result, ?_, fun entangled => ⟨_, result, entangled⟩⟩
  rintro ⟨id, result', entangled⟩
  cases result.symm.trans result'
  exact entangled

end Program

/-- The durations of three gates. -/
def DurationTable.knot : DurationTable :=
  .ofList [("a", [0], 2), ("b", [1], 3), ("c", [2], 4)]

namespace Program

/-- Two gates that wait for each other, and one that has nothing to do with them. -/
def knot : Program where
  name := "knot"
  layout := .physical 3
  tasks := #[⟨.gate "a" [0], none⟩, ⟨.gate "b" [1], none⟩, ⟨.gate "c" [2], none⟩]
  dependencies := [(1, 2), (2, 1)]

/-- The program is built operation by operation. -/
lemma built_knot : knot.Built := by
  have first := @Built.push _ _ (.gate "a" [0]) (.empty "knot" (.physical 3)) rfl
  have second := @Built.push _ _ (.gate "b" [1]) first rfl
  have third := @Built.push _ _ (.gate "c" [2]) second rfl
  have there := @Built.depend _ _ 1 2 third rfl
  exact @Built.depend _ _ 2 1 there rfl

/-- All durations are known. -/
lemma lasts_knot : knot.Lasts .knot fun id => [2, 3, 4].getD id 0 := by
  unfold Lasts
  decide

/-- The last two operations wait for each other. -/
lemma circle_knot : TransGen knot.precedence.Edge 1 1 :=
  .tail (b := 2) (.single (by decide : 1 ∈ knot.precedence.preds 2))
    (by decide : 2 ∈ knot.precedence.preds 1)

/-- The last operation is in the circle, and the number of the first is reported. -/
theorem alap_circular_knot : ∃ highest, knot.precedence.Blocking highest ∧
    (∀ id, knot.precedence.Blocking id → id ≤ highest) ∧
    (knot.schedule .knot { method := "alap_timestep" }).result =
      .error (.circularDependency (knot.flip highest)) ∧ knot.flip highest = 0 := by
  obtain ⟨highest, blocking, greatest, result, -⟩ :=
    @alap_circular _ _ { method := "alap_timestep" } built_knot rfl ⟨_, lasts_knot⟩
      ⟨1, circle_knot⟩ (.inr ⟨rfl, by decide⟩)
  have reported : (knot.schedule .knot { method := "alap_timestep" }).result =
    .error (.circularDependency 0) := rfl
  have opposite :=
    SchedulingError.circularDependency.inj (Except.error.inj (result.symm.trans reported))
  exact ⟨highest, blocking, greatest, result, opposite⟩

/-- The first operation, which is reported, is not connected with the circle. -/
theorem alap_blames_bystander : knot.Built ∧ knot.violation? = none ∧
    (∃ duration, knot.Lasts .knot duration) ∧ TransGen knot.precedence.Edge 1 1 ∧
    (knot.schedule .knot { method := "alap" }).result = .error (.circularDependency 0) ∧
    (knot.schedule .knot { method := "alap_timestep" }).result = .error (.circularDependency 0) ∧
    ¬ knot.precedence.Entangled 0 := by
  refine ⟨built_knot, rfl, ⟨_, lasts_knot⟩, circle_knot, rfl, rfl, ?_⟩
  rintro (⟨other, circle, chain⟩ | ⟨other, circle, chain⟩)
  · obtain ⟨before, -, edge⟩ := TransGen.tail'_iff.mp (circle.trans_left chain)
    have none : knot.precedence.preds 0 = [] := rfl
    rw [Precedence.Edge, none] at edge
    exact List.not_mem_nil edge
  · obtain ⟨after, edge, -⟩ := TransGen.head'_iff.mp (circle.trans_right chain)
    have inside : after < 3 := (edge_iff.mp edge).1
    exact absurd edge ((by decide : ∀ after < 3, 0 ∉ knot.precedence.preds after) after inside)

end Program

end Timetable
