import Timetable.Proofs.Precedence.Residual

/-!
# Topological orders

Visiting the frontier again and again completes an operation only after its predecessors. It comes
to a halt with operations left over only if each of them waits for another one, and among finitely
many operations that is possible only in a circle.

## Main definitions

* `Precedence.Respects` — a list in which every operation comes after its predecessors.
* `Residual.Visited` — what visiting the frontier again and again has done.

## Main results

* `Precedence.order_eq_ok` — the order lists all operations and respects the precedence.
* `Program.Closed.perm_of_order` — the order of a program lists its operations.
* `Precedence.exists_order` — there is an order if no operation comes before itself.
* `Precedence.not_transGen_edge` — and only then.
* `Precedence.order_eq_range` — if precedence agrees with program order, it is program order.
-/

set_option autoImplicit false

namespace Timetable

open Relation

/-- Every operation of a list comes after all of its immediate predecessors. -/
def Precedence.Respects (precedence : Precedence) (order : List OpId) : Prop :=
  ∀ (earlier : List OpId) (id : OpId) (later : List OpId), order = earlier ++ id :: later →
    ∀ before, precedence.Edge before id → before ∈ earlier

namespace Residual

/-- Some operations were completed one after the other, each when it waited for none of the pending
ones any more, and `rest` is what is left. -/
structure Visited (residual : Residual) (ids : List OpId) (rest : Residual) : Prop where
  consistent : rest.Consistent
  precedence : rest.precedence = residual.precedence
  perm : (ids ++ rest.pending).Perm residual.pending
  after : ∀ (earlier : List OpId) (id : OpId) (later : List OpId), ids = earlier ++ id :: later →
    ∀ before, residual.precedence.Edge before id → before ∈ residual.pending → before ∈ earlier

variable {residual rest : Residual} {id : OpId} {ids : List OpId}

/-- Nothing was completed. -/
lemma Consistent.visited_nil (consistent : residual.Consistent) :
    Visited residual [] residual :=
  ⟨consistent, rfl, .refl _, fun earlier id later none => by simp at none⟩

/-- An operation of the frontier can be completed before all others.

**Proof sketch.** The operation waits for nothing, so it may come first. What comes behind another
one in the rest does so when both are still pending. -/
lemma Consistent.visited_cons (consistent : residual.Consistent) (ready : id ∈ residual.frontier)
    (visited : Visited (residual.complete id) ids rest) : Visited residual (id :: ids) rest := by
  obtain ⟨pending, free⟩ := consistent.mem_frontier_iff.mp ready
  obtain ⟨consistent', precedence, perm, after⟩ := visited
  rw [precedence_complete] at precedence after
  rw [pending_complete ready] at perm after
  refine ⟨consistent', precedence, (perm.cons id).trans (List.perm_cons_erase pending).symm, ?_⟩
  intro earlier other later split before edge waits
  rcases earlier with _ | ⟨first, earlier⟩
  · obtain ⟨rfl, rfl⟩ := List.cons.inj split
    exact absurd waits (free before edge)
  · obtain ⟨rfl, tail⟩ := List.cons.inj split
    by_cases same : before = id
    · exact same ▸ List.mem_cons_self
    · have waits' := (List.mem_erase_of_ne same).mpr waits
      exact List.mem_cons_of_mem _ (after earlier other later tail before edge waits')

/-- Visiting the frontier completes operations in order. -/
lemma Consistent.visit (consistent : residual.Consistent) (times : Nat) :
    Visited residual (residual.visit times).1 (residual.visit times).2 := by
  induction times generalizing residual with
  | zero => exact consistent.visited_nil
  | succ times ih =>
    unfold Residual.visit
    split
    · exact consistent.visited_nil
    · rename_i id others found
      have ready : id ∈ residual.frontier := found ▸ List.mem_cons_self
      exact consistent.visited_cons ready (ih (consistent.complete id))

/-- After enough visits the frontier is empty.

**Proof sketch.** Induction on the number of visits. Each visit completes one operation, so that
fewer are pending. -/
lemma frontier_visit (times : Nat) (enough : residual.pending.length ≤ times) :
    (residual.visit times).2.frontier = [] := by
  induction times generalizing residual with
  | zero =>
    have none : residual.pending = [] := List.length_eq_zero_iff.mp (Nat.le_zero.mp enough)
    simp [Residual.visit, frontier, none]
  | succ times ih =>
    unfold Residual.visit
    split
    · assumption
    · rename_i id others found
      have ready : id ∈ residual.frontier := found ▸ List.mem_cons_self
      refine ih ?_
      rw [pending_complete ready, List.length_erase_of_mem (mem_pending_of_mem_frontier ready)]
      omega

/-- If precedence agrees with program order, visiting the frontier completes everything in program
order: the lowest pending operation waits for nothing.

**Proof sketch.** Induction on the number of visits. Whatever the lowest pending operation waits for
is lower than it, so nothing of it is pending; the operation is first in the frontier and first
among what is pending. -/
lemma Consistent.visit_of_upward (consistent : residual.Consistent)
    (upward : ∀ {before after : OpId}, residual.precedence.Edge before after → before < after)
    (sorted : residual.pending.Pairwise (· < ·)) {times : Nat}
    (enough : residual.pending.length ≤ times) :
    (residual.visit times).1 = residual.pending ∧ (residual.visit times).2.pending = [] := by
  induction times generalizing residual with
  | zero =>
    have done : residual.pending = [] := List.length_eq_zero_iff.mp (Nat.le_zero.mp enough)
    exact ⟨done.symm, done⟩
  | succ times ih =>
    cases pending : residual.pending with
    | nil =>
      have empty : residual.frontier = [] := by simp [frontier, pending]
      simp [Residual.visit, empty, pending]
    | cons id others =>
      rw [pending] at sorted enough
      obtain ⟨lowest, sorted⟩ := List.pairwise_cons.mp sorted
      have ready : id ∈ residual.frontier := by
        refine consistent.mem_frontier_iff.mpr ⟨pending ▸ List.mem_cons_self, ?_⟩
        intro before edge waits
        rw [pending] at waits
        rcases List.mem_cons.mp waits with rfl | later
        · exact Nat.lt_irrefl _ (upward edge)
        · exact Nat.lt_asymm (upward edge) (lowest before later)
      have free : residual.isFree id = true := (List.mem_filter.mp ready).2
      have first : residual.frontier = id :: others.filter residual.isFree := by
        rw [frontier, pending, List.filter_cons_of_pos free]
      have left : (residual.complete id).pending = others := by
        rw [pending_complete ready, pending, List.erase_cons_head]
      obtain ⟨visited, done⟩ := ih (consistent.complete id)
        (by rw [precedence_complete]; exact upward) (left ▸ sorted)
        (by rw [left]; exact Nat.le_of_succ_le_succ enough)
      simp only [Residual.visit, first, visited, left, done, and_self]

end Residual

/-- If nothing follows itself in a circle, some element of a list comes after none of them.

**Proof sketch.** Induction on the list. Either the first of the other elements is still first with
one more element, or that element comes before it, and then before it comes nothing. -/
lemma exists_first_of_acyclic {α : Type} {before : α → α → Prop}
    (acyclic : ∀ element, ¬ TransGen before element element) {elements : List α}
    (some_element : elements ≠ []) :
    ∃ first ∈ elements, ∀ element ∈ elements, ¬ TransGen before element first := by
  induction elements with
  | nil => exact absurd rfl some_element
  | cons element elements ih =>
    rcases eq_or_ne elements [] with rfl | others
    · exact ⟨element, List.mem_singleton_self _, by simpa using acyclic element⟩
    · obtain ⟨first, member, free⟩ := ih others
      by_cases earlier : TransGen before element first
      · refine ⟨element, List.mem_cons_self, List.forall_mem_cons.mpr ⟨acyclic element, ?_⟩⟩
        exact fun other among chain => free other among (chain.trans earlier)
      · exact ⟨first, List.mem_cons_of_mem _ member, List.forall_mem_cons.mpr ⟨earlier, free⟩⟩

namespace Precedence

variable {precedence : Precedence} {order : List OpId}

/-- The order lists every operation once, and respects the precedence.

**Proof sketch.** Visiting the frontier completes operations that wait for nothing, so each one is
visited after its predecessors. There is an order only if nothing is left, and then everything was
visited. -/
theorem order_eq_ok (sound : precedence.Sound) (ok : precedence.order = .ok order) :
    order.Perm (List.range precedence.size) ∧ precedence.Respects order := by
  have visited := (Residual.consistent_start sound).visit precedence.size
  unfold Precedence.order at ok
  dsimp only at ok
  split at ok
  · rename_i nothing_left
    cases ok
    have perm := visited.perm
    rw [nothing_left, List.append_nil] at perm
    refine ⟨perm, ?_⟩
    intro earlier id later split before edge
    exact visited.after earlier id later split before edge
      (List.mem_range.mpr (sound.lt_size edge).1)
  · cases ok

/-- There is an order if no operation comes before itself.

**Proof sketch.** If something were left when the frontier is empty, some pending operation would
wait for no other pending one and so be in the frontier. -/
theorem exists_order (sound : precedence.Sound)
    (acyclic : ∀ id, ¬ TransGen precedence.Edge id id) : ∃ order, precedence.order = .ok order := by
  have visited := (Residual.consistent_start sound).visit precedence.size
  have empty :=
    (Residual.start precedence).frontier_visit precedence.size (by simp [Residual.start])
  have nothing_left : ((Residual.start precedence).visit precedence.size).2.pending = [] := by
    by_contra left
    obtain ⟨first, pending, free⟩ := exists_first_of_acyclic acyclic left
    have ready := visited.consistent.mem_frontier_iff.mpr ⟨pending, fun before edge waits => by
      rw [visited.precedence] at edge
      exact free before waits (.single edge)⟩
    rw [empty] at ready
    exact List.not_mem_nil ready
  unfold Precedence.order
  dsimp only
  rw [nothing_left]
  exact ⟨_, rfl⟩

/-- What holds of every operation whose immediate predecessors it holds of, holds of all of them if
nothing comes before itself.

**Proof sketch.** Among the operations of which it does not hold, some would come after none of the
others. But then it holds of the predecessors of this one. -/
lemma induction (sound : precedence.Sound)
    (acyclic : ∀ id, ¬ TransGen precedence.Edge id id) {motive : OpId → Prop}
    (step : ∀ id, (∀ before, precedence.Edge before id → motive before) → motive id) (id : OpId) :
    motive id := by
  classical
  by_contra fails
  have inside : ∀ {id}, ¬ motive id → id < precedence.size := by
    intro id fails
    by_contra outside
    exact fails (step id fun before edge => absurd (sound.lt_size edge).2 outside)
  let failing := (List.range precedence.size).filter fun id => ¬ motive id
  have mem_failing : ∀ id, id ∈ failing ↔ ¬ motive id := fun id => by
    simpa [failing] using inside
  obtain ⟨first, among, comes_first⟩ :=
    exists_first_of_acyclic acyclic (List.ne_nil_of_mem ((mem_failing id).mpr fails))
  refine (mem_failing first).mp among (step first fun before edge => ?_)
  by_contra fails'
  exact comes_first before ((mem_failing before).mpr fails') (.single edge)

/-- If precedence agrees with program order, the order is program order.

**Proof sketch.** Visiting the frontier then completes everything in program order
(`Consistent.visit_of_upward`). -/
theorem order_eq_range (sound : precedence.Sound)
    (upward : ∀ {before after : OpId}, precedence.Edge before after → before < after) :
    precedence.order = .ok (List.range precedence.size) := by
  have enough : (Residual.start precedence).pending.length ≤ precedence.size := by
    simp [Residual.start]
  obtain ⟨visited, done⟩ := (Residual.consistent_start sound).visit_of_upward upward
    List.pairwise_lt_range enough
  unfold Precedence.order
  dsimp only
  rw [visited, done]
  rfl

/-- An operation of a list that respects a precedence stands behind its predecessors. -/
lemma Respects.idxOf_lt (respects : precedence.Respects order) {before after : OpId}
    (among : after ∈ order) (edge : precedence.Edge before after) :
    order.idxOf before < order.idxOf after := by
  obtain ⟨earlier, later, rfl, fresh⟩ := List.eq_append_cons_of_mem among
  have member := respects earlier after later rfl before edge
  rw [List.idxOf_append_of_mem member, List.idxOf_append_of_notMem fresh, List.idxOf_cons_self]
  exact List.idxOf_lt_length_of_mem member

/-- A list that respects a precedence holds whatever comes before one of its operations, and holds
it further in front. -/
lemma Respects.idxOf_lt_of_transGen (respects : precedence.Respects order) {before after : OpId}
    (chain : TransGen precedence.Edge before after) (among : after ∈ order) :
    before ∈ order ∧ order.idxOf before < order.idxOf after := by
  have step : ∀ {before after : OpId}, precedence.Edge before after → after ∈ order →
      before ∈ order ∧ order.idxOf before < order.idxOf after := fun edge among =>
    have earlier := respects.idxOf_lt among edge
    ⟨List.idxOf_lt_length_iff.mp (earlier.trans (List.idxOf_lt_length_of_mem among)), earlier⟩
  induction chain with
  | single edge => exact step edge among
  | tail _ edge ih =>
    obtain ⟨member, earlier⟩ := step edge among
    exact ⟨(ih member).1, (ih member).2.trans earlier⟩

/-- If there is an order, no operation comes before itself.

**Proof sketch.** Along precedence the place in the order increases, so a circle would come before
itself. -/
theorem not_transGen_edge (sound : precedence.Sound) (ok : precedence.order = .ok order)
    (id : OpId) : ¬ TransGen precedence.Edge id id := by
  intro circle
  obtain ⟨perm, respects⟩ := order_eq_ok sound ok
  obtain ⟨before, -, edge⟩ := TransGen.tail'_iff.mp circle
  have among : id ∈ order := perm.mem_iff.mpr (List.mem_range.mpr (sound.lt_size edge).2)
  exact Nat.lt_irrefl _ (respects.idxOf_lt_of_transGen circle among).2

end Precedence

namespace Program

variable {program : Program} {order : List OpId}

/-- The order of a program lists its operations.

**Proof sketch.** The order lists every operation of the precedence once (`Precedence.order_eq_ok`),
and the precedence of a program has its size. -/
theorem Closed.perm_of_order (closed : program.Closed)
    (ok : program.precedence.order = .ok order) : order.Perm program.ids := by
  obtain ⟨perm, -⟩ := Precedence.order_eq_ok closed.precedence_sound ok
  rw [size_precedence] at perm
  exact perm

/-- The order of a program lists nothing but its operations. -/
lemma Closed.lt_size_of_order (closed : program.Closed)
    (ok : program.precedence.order = .ok order) : ∀ id ∈ order, id < program.size :=
  fun _ member => List.mem_range.mp ((closed.perm_of_order ok).mem_iff.mp member)

/-- A program has no circular dependencies if its operations can be ordered. -/
lemma acyclic_of_order (closed : program.Closed) (physical : program.violation? = none)
    (ok : program.precedence.order = .ok order) : program.Acyclic := by
  unfold Acyclic
  rw [← transGen_edge_eq closed physical]
  exact Precedence.not_transGen_edge closed.precedence_sound ok

end Program

end Timetable
