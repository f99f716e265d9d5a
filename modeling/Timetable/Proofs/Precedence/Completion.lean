import Timetable.Proofs.Precedence.Frontier

/-!
# Completing operations in any order

Whoever works through a program may try to complete any operation at any time, one that was
completed already or does not exist included. Only operations of the frontier can be completed, and
every other attempt leaves everything as it is. So after any number of attempts what is left follows
from what was completed: the frontier are the operations that are not completed while all their
immediate predecessors are.

## Main definitions

* `Residual.attempts` — trying to complete one operation after the other.
* `Residual.countDown?` — counting an operation down, unless it waits for nothing any more.
* `Program.LeftAfter` — what is left of a program after some of its operations were completed.

## Main results

* `Residual.completes_attempts` — what attempts amount to is completing operations of the frontier.
* `Residual.Completes.pending_eq` — what is left is what was not completed.
* `Residual.Consistent.foldlM_countDown?` — no count falls below zero.
* `Program.leftAfter_attempts` — what is left of a program after any attempts.
-/

set_option autoImplicit false

namespace Timetable

open Relation

namespace Residual

/-- Tries to complete one operation after the other. Gives those for which that succeeded, and what
is left. -/
def attempts (residual : Residual) : (ids : List OpId) → List OpId × Residual
  | [] => ([], residual)
  | id :: ids =>
    let (succeeded, next) := residual.attempt id
    let (completed, last) := next.attempts ids
    (if succeeded then id :: completed else completed, last)

/-- Counts an operation down by one. Fails if it waits for nothing, or if it is not counted. -/
def countDown? (waiting : Array Nat) (id : OpId) : Option (Array Nat) :=
  if 0 < waiting[id]?.getD 0 then some (waiting.modify id (· - 1)) else none

variable {residual last : Residual} {id : OpId} {ids completed : List OpId}

/-! ## Attempts -/

/-- An attempt succeeds for the operations of the frontier. -/
lemma attempt_fst_iff : (residual.attempt id).1 = true ↔ id ∈ residual.frontier := by
  simp [attempt]

/-- An attempt that fails leaves everything as it is. -/
lemma attempt_snd_of_notMem (blocked : id ∉ residual.frontier) :
    (residual.attempt id).2 = residual :=
  complete_of_notMem blocked

/-- The attempts that succeed complete operations one after the other, each when it is in the
frontier, and the others change nothing.

**Proof sketch.** Induction on the attempts. An attempt succeeds exactly if the operation is in the
frontier, and else leaves everything as it was. -/
theorem completes_attempts (residual : Residual) (ids : List OpId) :
    Completes residual (residual.attempts ids).1 (residual.attempts ids).2 := by
  induction ids generalizing residual with
  | nil => exact .nil residual
  | cons id ids ih =>
    by_cases ready : id ∈ residual.frontier
    · simp only [attempts, attempt_fst_iff.mpr ready, if_true]
      exact .cons ready (ih _)
    · simp only [attempts, attempt_fst_iff, ready, if_false, attempt_snd_of_notMem ready]
      exact ih residual

/-! ## What is left -/

/-- What is left is pending in the same order as before, without what was completed.

**Proof sketch.** Induction on what was completed. Each completion erases one operation, and as none
is listed twice this is the same as filtering it out. -/
theorem Completes.pending_eq (completes : Completes residual completed last)
    (nodup : residual.pending.Nodup) :
    last.pending = residual.pending.filter fun id => id ∉ completed := by
  induction completes with
  | nil => simp
  | @cons residual last id ids ready _ ih =>
    rw [ih (by rw [pending_complete ready]; exact nodup.erase id), pending_complete ready,
      nodup.erase_eq_filter, List.filter_filter]
    refine List.filter_congr fun other _ => ?_
    rw [Bool.eq_iff_iff]
    simp [and_comm]

/-- The frontier after some operations were completed are those that were pending and are not among
them, while all their immediate predecessors that were pending are. -/
lemma Completes.frontier_eq (completes : Completes residual completed last)
    (consistent : residual.Consistent) :
    last.frontier = residual.pending.filter fun id => id ∉ completed ∧
      ∀ before ∈ residual.precedence.preds id, before ∈ residual.pending → before ∈ completed := by
  have pending := completes.pending_eq consistent.nodup
  have left : ∀ id, id ∈ last.pending ↔ id ∈ residual.pending ∧ id ∉ completed := by
    simp [pending]
  rw [frontier, pending, List.filter_filter]
  refine List.filter_congr fun id member => ?_
  have ready := @Consistent.mem_frontier_iff _ id (completes.consistent consistent)
  rw [frontier, List.mem_filter, completes.precedence_eq, left] at ready
  rw [Bool.eq_iff_iff]
  simp only [Precedence.Edge, left, member, true_and, not_and, not_not] at ready
  simp only [Bool.and_eq_true, decide_eq_true_eq]
  rw [and_comm, ready]

/-! ## Counting down -/

/-- Counting distinct operations down, each of which waits for something, does not fail. -/
lemma foldlM_countDown?_eq {waiting : Array Nat} (nodup : ids.Nodup)
    (positive : ∀ id ∈ ids, 0 < waiting[id]?.getD 0) :
    ids.foldlM countDown? waiting =
      some (ids.foldl (fun waiting id => waiting.modify id (· - 1)) waiting) := by
  induction ids generalizing waiting with
  | nil => rfl
  | cons id ids ih =>
    obtain ⟨fresh, nodup⟩ := List.nodup_cons.mp nodup
    rw [List.foldlM_cons, countDown?, if_pos (positive id List.mem_cons_self), List.foldl_cons,
      Option.bind_eq_bind, Option.bind_some]
    refine ih nodup fun other member => ?_
    rw [Array.getElem?_modify, if_neg (ne_of_mem_of_not_mem member fresh).symm]
    exact positive other (List.mem_cons_of_mem _ member)

/-- Completing an operation of the frontier counts its successors down, and each of them waits for
something until then.

**Proof sketch.** A successor is listed once and waits at least for the operation that is completed,
so its count is positive when it is counted down. The result is then the plain array that `complete`
builds. -/
theorem Consistent.foldlM_countDown? (consistent : residual.Consistent)
    (ready : id ∈ residual.frontier) :
    (residual.precedence.succs id).foldlM countDown? residual.waiting =
      some (residual.complete id).waiting := by
  have counted := @foldlM_countDown?_eq (residual.precedence.succs id) residual.waiting
    (consistent.sound.nodup_succs id) fun after listed => ?_
  · rw [counted, Residual.complete, if_pos (by simpa using ready)]
  · have edge := consistent.sound.mem_succs.mp listed
    have blocked := mem_blockers.mpr ⟨edge, mem_pending_of_mem_frontier ready⟩
    rw [consistent.waiting after (consistent.sound.lt_size edge).2, Option.getD_some]
    exact List.length_pos_of_mem blocked

end Residual

namespace Program

/-- What is left of a program after some of its operations were completed. -/
structure LeftAfter (program : Program) (completed : List OpId) (residual : Residual) : Prop where
  /-- The frontier lists, in program order, the operations that are not completed while all their
  immediate predecessors are. -/
  frontier : residual.frontier = program.ids.filter fun id => id ∉ completed ∧
    ∀ before ∈ program.precedence.preds id, before ∈ completed
  /-- Attempts succeed for the operations of the frontier. -/
  succeeds : ∀ id, (residual.attempt id).1 = true ↔ id ∈ residual.frontier
  /-- Attempts that fail leave everything as it is. -/
  fails : ∀ id, (residual.attempt id).1 = false → (residual.attempt id).2 = residual
  /-- An attempt that succeeds counts the successors down, and no count falls below zero. -/
  counts : ∀ id, (residual.attempt id).1 = true →
    (program.precedence.succs id).foldlM Residual.countDown? residual.waiting =
      some (residual.attempt id).2.waiting
  /-- Everything is done when every operation is completed. -/
  done : residual.isDone = true ↔ ∀ id < program.size, id ∈ completed
  /-- Two operations of the frontier use no common resource. -/
  apart : ∀ first ∈ residual.frontier, ∀ second ∈ residual.frontier, first ≠ second →
    ∀ resource, program.uses first resource → ¬ program.uses second resource
  /-- If no operation comes before itself, the frontier is empty only when everything is done. -/
  progress : (∀ id, ¬ TransGen program.precedence.Edge id id) → residual.isDone = false →
    residual.frontier ≠ []

variable {program : Program}

/-- Two operations that are in the frontier together use no common resource. -/
lemma not_uses_of_frontier {residual : Residual} (ongoing : residual.Ongoing)
    (same : residual.precedence = program.precedence) {first second : OpId} {resource : Resource}
    (ready : first ∈ residual.frontier) (ready' : second ∈ residual.frontier)
    (distinct : first ≠ second) (uses : program.uses first resource) :
    ¬ program.uses second resource := by
  intro uses'
  have apart : ∀ {before after : OpId}, before ∈ residual.frontier → after ∈ residual.frontier →
      program.uses before resource → program.uses after resource → ¬ before < after := by
    intro before after ready ready' uses uses' smaller
    have chain := transGen_edge_of_uses smaller uses uses'
    rw [← same] at chain
    exact ongoing.not_mem_frontier chain (Residual.mem_pending_of_mem_frontier ready) ready'
  rcases Nat.lt_or_gt_of_ne distinct with smaller | greater
  · exact apart ready ready' uses uses' smaller
  · exact apart ready' ready uses' uses greater

/-- When operations were completed one after the other, each when it was in the frontier, what is
left follows from them.

**Proof sketch.** The invariants `Consistent` and `Ongoing` hold at the start and are kept by each
completion. What is in the frontier, what is done and what an attempt does then follow from what is
pending, which is whatever was not completed (`Completes.pending_eq`). -/
lemma Closed.leftAfter (closed : program.Closed) {completed : List OpId} {residual : Residual}
    (completes : (Residual.start program.precedence).Completes completed residual) :
    program.LeftAfter completed residual := by
  have sound := closed.precedence_sound
  have start := Residual.consistent_start sound
  have ongoing := completes.ongoing (Residual.ongoing_start sound)
  have same : residual.precedence = program.precedence := completes.precedence_eq
  have all : (Residual.start program.precedence).pending = program.ids := by
    rw [Residual.start, size_precedence]
    rfl
  have done : residual.isDone = true ↔ residual.pending = [] := List.isEmpty_iff
  refine ⟨?_, fun id => Residual.attempt_fst_iff, fun id failed => ?_, fun id succeeded => ?_, ?_,
    ?_, fun acyclic left => ?_⟩
  · rw [completes.frontier_eq start, all]
    refine List.filter_congr fun id _ => decide_eq_decide.mpr (and_congr_right fun _ => ?_)
    refine forall₂_congr fun before edge => ?_
    exact imp_iff_right (List.mem_range.mpr (size_precedence program ▸ (sound.lt_size edge).1))
  · refine Residual.attempt_snd_of_notMem fun ready => ?_
    rw [Residual.attempt_fst_iff.mpr ready] at failed
    cases failed
  · rw [← same]
    exact ongoing.foldlM_countDown? (Residual.attempt_fst_iff.mp succeeded)
  · rw [done, completes.pending_eq start.nodup, all, List.filter_eq_nil_iff]
    simp [ids]
  · exact fun _ ready _ ready' distinct _ => not_uses_of_frontier ongoing same ready ready' distinct
  · refine ongoing.frontier_ne_nil (same ▸ acyclic) fun none => ?_
    rw [done.mpr none] at left
    cases left

/-- **What is left after any attempts.** Whatever operations one tries to complete, whether they
exist or not and in whatever order, what is left of the program follows from those for which that
succeeded.

**Proof sketch.** The attempts that succeed complete operations one after the other
(`completes_attempts`), and the others change nothing, so `Closed.leftAfter` applies. -/
theorem leftAfter_attempts (closed : program.Closed) (tried : List OpId) :
    program.LeftAfter ((Residual.start program.precedence).attempts tried).1
      ((Residual.start program.precedence).attempts tried).2 :=
  closed.leftAfter (Residual.completes_attempts _ tried)

/-- The first two gates of the lineup are completed, each at the first attempt at which that is
possible, and then the third one is in the frontier. -/
theorem leftAfter_attempts_lineup : lineup.Closed ∧
    ∃ residual, (Residual.start lineup.precedence).attempts [2, 0, 0, 7, 1] = ([0, 1], residual) ∧
      residual.frontier = [2] ∧ lineup.LeftAfter [0, 1] residual := by
  have closed : lineup.Closed := ⟨by decide, by decide⟩
  have left := leftAfter_attempts closed [2, 0, 0, 7, 1]
  have completed : ((Residual.start lineup.precedence).attempts [2, 0, 0, 7, 1]).1 = [0, 1] := by
    decide
  rw [completed] at left
  refine ⟨closed, ((Residual.start lineup.precedence).attempts [2, 0, 0, 7, 1]).2, ?_, ?_, left⟩
  · rw [← completed]
  · rw [left.frontier]
    decide

end Program

end Timetable
