import Timetable.Proofs.Precedence.Order

/-!
# The frontier while operations are completed

As long as only operations of the frontier are completed, whatever comes behind a pending operation
is pending too. So the frontier never holds two operations of which one comes before the other, an
operation stays in it until it is completed itself, and without circles it is empty only when
everything is completed.

## Main definitions

* `Residual.Ongoing` — the counts are right, and whatever comes behind a pending operation is
  pending.
* `Residual.Completes` — completing operations one after the other, each when it is in the frontier.

## Main results

* `Residual.Ongoing.complete` — completing an operation keeps this.
* `Residual.Ongoing.not_mem_frontier` — nothing in the frontier comes behind a pending operation.
* `Residual.Ongoing.frontier_ne_nil` — without circles, some pending operation is in the frontier.
-/

set_option autoImplicit false

namespace Timetable

open Relation

namespace Residual

/-- Every operation counts its blockers, and the operations that are not completed include whatever
comes behind one of them. -/
structure Ongoing (residual : Residual) : Prop extends Consistent residual where
  pending_of_edge : ∀ {before after : OpId}, residual.precedence.Edge before after →
    before ∈ residual.pending → after ∈ residual.pending

/-- Completing operations one after the other, each of them when it is in the frontier, until
`last` is left. -/
inductive Completes : Residual → List OpId → Residual → Prop
  | nil (residual : Residual) : Completes residual [] residual
  | cons {residual last : Residual} {id : OpId} {ids : List OpId} (ready : id ∈ residual.frontier)
      (rest : Completes (residual.complete id) ids last) : Completes residual (id :: ids) last

variable {precedence : Precedence} {residual middle last : Residual} {id other : OpId}
  {ids more : List OpId}

/-! ## The frontier -/

/-- Nothing is completed at the start. -/
lemma ongoing_start (sound : precedence.Sound) : (start precedence).Ongoing := by
  refine ⟨consistent_start sound, ?_⟩
  intro before after edge _
  exact List.mem_range.mpr (sound.lt_size edge).2

/-- The frontier lists no operation twice. -/
lemma Consistent.nodup_frontier (consistent : residual.Consistent) : residual.frontier.Nodup :=
  consistent.nodup.filter _

/-- Along a chain, too, whatever comes behind a pending operation is pending. -/
lemma Ongoing.pending_of_transGen (ongoing : residual.Ongoing) {before after : OpId}
    (chain : TransGen residual.precedence.Edge before after) (pending : before ∈ residual.pending) :
    after ∈ residual.pending := by
  induction chain with
  | single edge => exact ongoing.pending_of_edge edge pending
  | tail _ edge ih => exact ongoing.pending_of_edge edge ih

/-- If an operation comes behind a pending one, one of its immediate predecessors is pending. -/
lemma Ongoing.exists_pending_edge (ongoing : residual.Ongoing) {before after : OpId}
    (chain : TransGen residual.precedence.Edge before after) (pending : before ∈ residual.pending) :
    ∃ middle, residual.precedence.Edge middle after ∧ middle ∈ residual.pending := by
  cases chain with
  | single edge => exact ⟨before, edge, pending⟩
  | tail chain edge => exact ⟨_, edge, ongoing.pending_of_transGen chain pending⟩

/-- Nothing in the frontier comes behind a pending operation.

**Proof sketch.** Along the chain everything is pending, so the last operation before the end is a
predecessor that is pending. -/
theorem Ongoing.not_mem_frontier (ongoing : residual.Ongoing) {before after : OpId}
    (chain : TransGen residual.precedence.Edge before after) (pending : before ∈ residual.pending) :
    after ∉ residual.frontier := by
  intro ready
  obtain ⟨middle, edge, pending'⟩ := ongoing.exists_pending_edge chain pending
  exact (ongoing.mem_frontier_iff.mp ready).2 middle edge pending'

/-- Without circles, some pending operation is in the frontier.

**Proof sketch.** As there are no circles, some pending operation comes behind no other pending one,
and such an operation is in the frontier. -/
theorem Ongoing.frontier_ne_nil (ongoing : residual.Ongoing)
    (acyclic : ∀ id, ¬ TransGen residual.precedence.Edge id id) (left : residual.pending ≠ []) :
    residual.frontier ≠ [] := by
  obtain ⟨first, pending, free⟩ := exists_first_of_acyclic acyclic left
  have ready : first ∈ residual.frontier := by
    refine ongoing.mem_frontier_iff.mpr ⟨pending, ?_⟩
    intro before edge pending'
    exact free before pending' (.single edge)
  exact List.ne_nil_of_mem ready

/-! ## Completing one operation -/

/-- What is pending after completing an operation was pending before. -/
lemma mem_pending_of_mem_complete (member : other ∈ (residual.complete id).pending) :
    other ∈ residual.pending := by
  by_cases ready : id ∈ residual.frontier
  · rw [pending_complete ready] at member
    exact List.mem_of_mem_erase member
  · rwa [complete_of_notMem ready] at member

/-- After completing an operation of the frontier all others that were pending are pending. -/
lemma Consistent.mem_pending_complete (consistent : residual.Consistent)
    (ready : id ∈ residual.frontier) :
    other ∈ (residual.complete id).pending ↔ other ≠ id ∧ other ∈ residual.pending := by
  rw [pending_complete ready, consistent.nodup.mem_erase_iff]

/-- Completing an operation of the frontier leaves one operation less. -/
lemma length_pending_complete (ready : id ∈ residual.frontier) :
    (residual.complete id).pending.length + 1 = residual.pending.length := by
  have pending := mem_pending_of_mem_frontier ready
  have positive := List.length_pos_of_mem pending
  rw [pending_complete ready, List.length_erase_of_mem pending]
  omega

/-- An operation stays in the frontier while others are completed. -/
lemma Consistent.mem_frontier_complete (consistent : residual.Consistent)
    (ready : other ∈ residual.frontier) (distinct : other ≠ id) :
    other ∈ (residual.complete id).frontier := by
  by_cases completed : id ∈ residual.frontier
  · obtain ⟨pending, free⟩ := consistent.mem_frontier_iff.mp ready
    rw [(consistent.complete id).mem_frontier_iff, consistent.mem_pending_complete completed,
      precedence_complete]
    refine ⟨⟨distinct, pending⟩, ?_⟩
    intro before edge pending'
    exact free before edge (mem_pending_of_mem_complete pending')
  · rwa [complete_of_notMem completed]

/-- Completing an operation keeps whatever comes behind a pending operation pending.

**Proof sketch.** The operation that is completed was in the frontier, so none of its
predecessors was pending. Whatever comes behind another pending operation is therefore not the
one that leaves. -/
theorem Ongoing.complete (ongoing : residual.Ongoing) (id : OpId) :
    (residual.complete id).Ongoing := by
  refine ⟨ongoing.toConsistent.complete id, ?_⟩
  intro before after edge pending
  rw [precedence_complete] at edge
  by_cases ready : id ∈ residual.frontier
  · have pending' := mem_pending_of_mem_complete pending
    rw [ongoing.mem_pending_complete ready]
    refine ⟨?_, ongoing.pending_of_edge edge pending'⟩
    rintro rfl
    exact (ongoing.mem_frontier_iff.mp ready).2 before edge pending'
  · rw [complete_of_notMem ready] at pending ⊢
    exact ongoing.pending_of_edge edge pending

/-! ## Completing one operation after the other -/

namespace Completes

/-- Completing operations and then more of them is completing all of them. -/
lemma append (first : Completes residual ids middle) (second : Completes middle more last) :
    Completes residual (ids ++ more) last := by
  induction first with
  | nil => exact second
  | cons ready _ ih => exact .cons ready (ih second)

/-- Completing operations does not change their precedence. -/
lemma precedence_eq (completes : Completes residual ids last) :
    last.precedence = residual.precedence := by
  induction completes with
  | nil => rfl
  | cons _ _ ih => rw [ih, precedence_complete]

/-- Counts stay consistent when operations are completed one after the other. -/
lemma consistent (completes : Completes residual ids last) (consistent : residual.Consistent) :
    last.Consistent := by
  induction completes with
  | nil => exact consistent
  | cons _ _ ih => exact ih (consistent.complete _)

/-- What is pending stays closed under precedence when operations are completed one after the
other. -/
lemma ongoing (completes : Completes residual ids last) (ongoing : residual.Ongoing) :
    last.Ongoing := by
  induction completes with
  | nil => exact ongoing
  | cons _ _ ih => exact ih (ongoing.complete _)

/-- What is left after completing operations was pending before. -/
lemma mem_pending (completes : Completes residual ids last) (left : other ∈ last.pending) :
    other ∈ residual.pending := by
  induction completes with
  | nil => exact left
  | cons _ _ ih => exact mem_pending_of_mem_complete (ih left)

/-- The operations completed and those that are left are the ones that were pending. -/
lemma perm (completes : Completes residual ids last) :
    residual.pending.Perm (ids ++ last.pending) := by
  induction completes with
  | nil => exact .refl _
  | cons ready _ ih =>
    rw [pending_complete ready] at ih
    exact (List.perm_cons_erase (mem_pending_of_mem_frontier ready)).trans (ih.cons _)

end Completes

/-- Operations that are in the frontier together can be completed one after the other. -/
lemma Consistent.completes_foldl (consistent : residual.Consistent) (nodup : ids.Nodup)
    (ready : ∀ id ∈ ids, id ∈ residual.frontier) :
    Completes residual ids (ids.foldl Residual.complete residual) := by
  induction ids generalizing residual with
  | nil => exact .nil _
  | cons id ids ih =>
    obtain ⟨fresh, nodup⟩ := List.nodup_cons.mp nodup
    refine .cons (ready id List.mem_cons_self) (ih (consistent.complete id) nodup ?_)
    intro other member
    exact consistent.mem_frontier_complete (ready other (List.mem_cons_of_mem _ member))
      (ne_of_mem_of_not_mem member fresh)

end Residual

end Timetable
