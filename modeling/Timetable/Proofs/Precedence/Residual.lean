import Mathlib.Data.List.Nodup
import Timetable.Precedence.Residual
import Timetable.Proofs.Precedence.Requires

/-!
# Completing operations keeps count

Counting how many predecessors every operation still waits for is a way to know whether it waits
for any of them. The counts stay right whatever is completed, because an operation of the frontier
is completed once and lowers the counts of exactly the operations of which it is an immediate
predecessor.

## Main definitions

* `Residual.blockers` — the predecessors that an operation waits for.
* `Residual.Consistent` — every operation counts its blockers.

## Main results

* `Residual.Consistent.complete` — completing an operation keeps the counts right.
* `Residual.Consistent.mem_frontier_iff` — the frontier are the operations that wait for nothing.
-/

set_option autoImplicit false

namespace Timetable

namespace Residual

/-- The immediate predecessors of an operation that are not completed. -/
def blockers (residual : Residual) (id : OpId) : List OpId :=
  (residual.precedence.preds id).filter residual.pending.contains

/-- The operations that are not completed are operations of the precedence, each of them once, and
every operation counts its blockers. -/
structure Consistent (residual : Residual) : Prop where
  sound : residual.precedence.Sound
  nodup : residual.pending.Nodup
  inside : ∀ id ∈ residual.pending, id < residual.precedence.size
  waiting : ∀ id < residual.precedence.size,
    residual.waiting[id]? = some (residual.blockers id).length

variable {precedence : Precedence} {residual : Residual} {id before : OpId}

/-- An operation is blocked by its immediate predecessors that are pending. -/
lemma mem_blockers : before ∈ residual.blockers id ↔
    residual.precedence.Edge before id ∧ before ∈ residual.pending := by
  simp [blockers, Precedence.Edge]

/-- Nothing is completed at the start. -/
lemma consistent_start (sound : precedence.Sound) : (start precedence).Consistent := by
  refine ⟨sound, List.nodup_range, fun id member => List.mem_range.mp member, ?_⟩
  intro id inside
  have all : (start precedence).blockers id = precedence.preds id := by
    refine List.filter_eq_self.mpr ?_
    intro before edge
    simpa [start] using (sound.lt_size edge).1
  rw [all]
  have listed : precedence.predLists[id]? = some precedence.predLists[id] :=
    Array.getElem?_eq_getElem inside
  simp [start, Precedence.preds, listed]

/-! ## The frontier -/

/-- The frontier are the operations that wait for nothing.

**Proof sketch.** An operation is free if its count is zero. As counts are right, it then has no
blockers. -/
theorem Consistent.mem_frontier_iff (consistent : residual.Consistent) : id ∈ residual.frontier ↔
    id ∈ residual.pending ∧ ∀ before, residual.precedence.Edge before id →
      before ∉ residual.pending := by
  rw [frontier, List.mem_filter]
  refine and_congr_right ?_
  intro member
  rw [isFree, consistent.waiting id (consistent.inside id member), beq_iff_eq, Option.some_inj,
    List.length_eq_zero_iff, List.eq_nil_iff_forall_not_mem]
  simp only [mem_blockers, not_and]

/-- Operations of the frontier are pending. -/
lemma mem_pending_of_mem_frontier (ready : id ∈ residual.frontier) : id ∈ residual.pending :=
  (List.mem_filter.mp ready).1

/-! ## Completing an operation -/

/-- Completing an operation leaves the precedence as it is. -/
@[simp]
lemma precedence_complete (residual : Residual) (id : OpId) :
    (residual.complete id).precedence = residual.precedence := by
  unfold complete
  split <;> rfl

/-- An operation of the frontier is pending until it is completed. -/
lemma pending_complete (ready : id ∈ residual.frontier) :
    (residual.complete id).pending = residual.pending.erase id := by
  rw [complete, if_pos (by simpa using ready)]

/-- Only the operations of the frontier can be completed. -/
lemma complete_of_notMem (blocked : id ∉ residual.frontier) :
    residual.complete id = residual := by
  rw [complete, if_neg (by simpa using blocked)]

/-- Changing the elements of an array at distinct places one after the other. -/
lemma getElem?_foldl_modify {places : List Nat} (nodup : places.Nodup) (counts : Array Nat)
    (change : Nat → Nat) (place : Nat) :
    (places.foldl (fun counts place => counts.modify place change) counts)[place]? =
      if place ∈ places then counts[place]?.map change else counts[place]? := by
  induction places generalizing counts with
  | nil => simp
  | cons first places ih =>
    obtain ⟨fresh, nodup⟩ := List.nodup_cons.mp nodup
    rw [List.foldl_cons, ih nodup, Array.getElem?_modify]
    by_cases same : first = place
    · subst same
      simp [fresh]
    · simp [same, Ne.symm same]

/-- Completing an operation takes it from the blockers of all others. -/
lemma Consistent.blockers_complete (consistent : residual.Consistent)
    (ready : id ∈ residual.frontier) (other : OpId) :
    (residual.complete id).blockers other = (residual.blockers other).erase id := by
  have distinct : (residual.blockers other).Nodup := (consistent.sound.nodup_preds other).filter _
  rw [distinct.erase_eq_filter, blockers, blockers, List.filter_filter, precedence_complete,
    pending_complete ready]
  refine List.filter_congr ?_
  intro before _
  rw [Bool.eq_iff_iff]
  simp [consistent.nodup.mem_erase_iff]

/-- Completing an operation keeps the counts right.

**Proof sketch.** If the operation is not in the frontier nothing changes. Otherwise it leaves what
is pending, and it blocked exactly its successors, each of which is listed once; so each of their
lists of blockers becomes shorter by one, as does the count. -/
theorem Consistent.complete (consistent : residual.Consistent) (id : OpId) :
    (residual.complete id).Consistent := by
  by_cases ready : id ∈ residual.frontier
  · have pending := mem_pending_of_mem_frontier ready
    refine ⟨by simpa using consistent.sound, ?_, ?_, ?_⟩
    · rw [pending_complete ready]
      exact consistent.nodup.erase id
    · intro other member
      rw [pending_complete ready] at member
      simpa using consistent.inside other (List.mem_of_mem_erase member)
    · intro other inside
      rw [precedence_complete] at inside
      rw [consistent.blockers_complete ready, Residual.complete, if_pos (by simpa using ready),
        getElem?_foldl_modify (consistent.sound.nodup_succs id), consistent.waiting other inside]
      by_cases waits : other ∈ residual.precedence.succs id
      · have blocked : id ∈ residual.blockers other :=
          mem_blockers.mpr ⟨consistent.sound.mem_succs.mp waits, pending⟩
        rw [if_pos waits, Option.map_some, List.length_erase_of_mem blocked]
      · have unblocked : id ∉ residual.blockers other := fun blocked =>
          waits (consistent.sound.mem_succs.mpr (mem_blockers.mp blocked).1)
        rw [if_neg waits, List.erase_of_not_mem unblocked]
  · rwa [complete_of_notMem ready]

end Residual

end Timetable
