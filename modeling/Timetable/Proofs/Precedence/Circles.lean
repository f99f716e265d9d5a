import Timetable.Proofs.Precedence.Order

/-!
# Circles

If some operations wait for each other in a circle, none of them is ever visited, and neither is any
operation that waits for one of them. All others are. So what stays behind when visiting comes to a
halt is known exactly, and the lowest of it is what is reported.

## Main definitions

* `Precedence.Blocked`, `Precedence.Blocking` — an operation is in a circle, or waits for one, or
  one waits for it.
* `Precedence.Entangled` — an operation is blocked or blocking.
* `Program.circling` — a program with a circle, and an operation that waits for it.

## Main results

* `Residual.Visited.mem_pending_iff` — what stays behind is what is blocked.
* `Precedence.order_eq_error` — the lowest blocked operation is reported.
* `Precedence.exists_order_error` — if there is a circle, one is reported.
* `Program.order_reports_circle_iff` — when the operation that is reported is in a circle.
* `Program.order_reports_waiting` — it may only wait for one.
-/

set_option autoImplicit false

namespace Timetable

open Relation

variable {precedence : Precedence} {order : List OpId} {stuck : OpId}

/-- An operation comes before itself, or after an operation that does. -/
def Precedence.Blocked (precedence : Precedence) (id : OpId) : Prop :=
  ∃ knot, TransGen precedence.Edge knot knot ∧ ReflTransGen precedence.Edge knot id

/-- An operation comes before itself, or before an operation that does. -/
def Precedence.Blocking (precedence : Precedence) (id : OpId) : Prop :=
  ∃ knot, TransGen precedence.Edge knot knot ∧ ReflTransGen precedence.Edge id knot

/-- An operation is in a circle, or a chain of precedence connects it with one. -/
def Precedence.Entangled (precedence : Precedence) (id : OpId) : Prop :=
  precedence.Blocked id ∨ precedence.Blocking id

/-- A chain of precedence leads between operations that exist. -/
lemma Precedence.Sound.lt_size_of_transGen (sound : precedence.Sound) {before after : OpId}
    (chain : TransGen precedence.Edge before after) :
    before < precedence.size ∧ after < precedence.size := by
  obtain ⟨_, first, -⟩ := TransGen.head'_iff.mp chain
  obtain ⟨_, -, last⟩ := TransGen.tail'_iff.mp chain
  exact ⟨(sound.lt_size first).1, (sound.lt_size last).2⟩

/-- Only operations that exist can be blocked. -/
lemma Precedence.Blocked.lt_size {id : OpId} (blocked : precedence.Blocked id)
    (sound : precedence.Sound) : id < precedence.size := by
  obtain ⟨knot, circle, chain⟩ := blocked
  exact (sound.lt_size_of_transGen (circle.trans_left chain)).2

/-- Only operations that exist can be blocking. -/
lemma Precedence.Blocking.lt_size {id : OpId} (blocking : precedence.Blocking id)
    (sound : precedence.Sound) : id < precedence.size := by
  obtain ⟨knot, circle, chain⟩ := blocking
  exact (sound.lt_size_of_transGen (circle.trans_right chain)).1

/-- A list that respects a precedence holds nothing that is blocked. -/
lemma Precedence.Respects.not_blocked (respects : precedence.Respects order) {id : OpId}
    (among : id ∈ order) : ¬ precedence.Blocked id := by
  rintro ⟨knot, circle, chain⟩
  have member := (respects.idxOf_lt_of_transGen (circle.trans_left chain) among).1
  exact Nat.lt_irrefl _ (respects.idxOf_lt_of_transGen circle member).2

namespace Residual

variable {residual rest : Residual} {ids : List OpId}

/-- Visiting keeps the order of what is left. -/
lemma sublist_visit (times : Nat) (residual : Residual) :
    (residual.visit times).2.pending.Sublist residual.pending := by
  induction times generalizing residual with
  | zero => exact .refl _
  | succ times ih =>
    unfold Residual.visit
    split
    · exact .refl _
    · rename_i id others found
      have ready : id ∈ residual.frontier := found ▸ List.mem_cons_self
      exact (ih _).trans (pending_complete ready ▸ List.erase_sublist)

/-- When all operations were pending and none is ready any more, exactly the blocked ones are left.

**Proof sketch.** What was visited comes in order, so nothing blocked is among it. What is left
waits for something that is left, too; going back from one to another leads into a circle, since
there are only finitely many. -/
theorem Visited.mem_pending_iff (visited : (start precedence).Visited ids rest)
    (sound : precedence.Sound) (halted : rest.frontier = []) {id : OpId} :
    id ∈ rest.pending ↔ precedence.Blocked id := by
  have same : rest.precedence = precedence := visited.precedence
  constructor
  · intro left
    by_contra free
    have acyclic : ∀ element, ¬ TransGen
        (fun before after => precedence.Edge before after ∧ ReflTransGen precedence.Edge after id)
        element element := by
      intro knot circle
      obtain ⟨-, -, -, chain⟩ := TransGen.tail'_iff.mp circle
      exact free ⟨knot, TransGen.mono (fun _ _ => And.left) _ _ circle, chain⟩
    classical
    have among : id ∈ rest.pending.filter fun other => ReflTransGen precedence.Edge other id :=
      List.mem_filter.mpr ⟨left, decide_eq_true .refl⟩
    obtain ⟨first, among, comes_first⟩ :=
      exists_first_of_acyclic acyclic (List.ne_nil_of_mem among)
    obtain ⟨pending, chain⟩ := List.mem_filter.mp among
    have chain := of_decide_eq_true chain
    have waits : ∃ before, precedence.Edge before first ∧ before ∈ rest.pending := by
      by_contra none
      have ready := visited.consistent.mem_frontier_iff.mpr
        ⟨pending, fun before edge waits => none ⟨before, same ▸ edge, waits⟩⟩
      exact List.not_mem_nil (halted ▸ ready)
    obtain ⟨before, edge, pending'⟩ := waits
    exact comes_first before
      (List.mem_filter.mpr ⟨pending', decide_eq_true (chain.head edge)⟩) (.single ⟨edge, chain⟩)
  · intro blocked
    have respects : precedence.Respects ids := fun earlier id later split before edge =>
      visited.after earlier id later split before edge (List.mem_range.mpr (sound.lt_size edge).1)
    have member : id ∈ ids ++ rest.pending :=
      visited.perm.mem_iff.mpr (List.mem_range.mpr (blocked.lt_size sound))
    exact (List.mem_append.mp member).resolve_left fun among => respects.not_blocked among blocked

end Residual

namespace Precedence

/-- If there is no order, the lowest blocked operation is reported.

**Proof sketch.** Visiting the frontier stops when it is empty, and then what is pending is exactly
what is blocked (`Visited.mem_pending_iff`). Pending operations stay sorted, and the first of them
is reported. -/
theorem order_eq_error (sound : precedence.Sound) (fails : precedence.order = .error stuck) :
    precedence.Blocked stuck ∧ ∀ id, precedence.Blocked id → stuck ≤ id := by
  have visited := (Residual.consistent_start sound).visit precedence.size
  have halted :=
    (Residual.start precedence).frontier_visit precedence.size (by simp [Residual.start])
  have left := @Residual.Visited.mem_pending_iff _ _ _ visited sound halted
  have sorted := List.pairwise_lt_range.sublist
    (Residual.sublist_visit precedence.size (Residual.start precedence))
  unfold Precedence.order at fails
  dsimp only at fails
  split at fails
  · cases fails
  · rename_i found
    cases fails
    rw [found] at left sorted
    refine ⟨left.mp List.mem_cons_self, fun id blocked => ?_⟩
    rcases List.mem_cons.mp (left.mpr blocked) with rfl | later
    · exact le_rfl
    · exact ((List.pairwise_cons.mp sorted).1 id later).le

/-- If there is a circle, an operation is reported.

**Proof sketch.** An order would rule out every circle (`not_transGen_edge`). -/
theorem exists_order_error (sound : precedence.Sound)
    (circle : ∃ id, TransGen precedence.Edge id id) : ∃ stuck, precedence.order = .error stuck := by
  cases ordered : precedence.order with
  | error stuck => exact ⟨stuck, rfl⟩
  | ok order =>
    obtain ⟨id, circle⟩ := circle
    exact absurd circle (not_transGen_edge sound ordered id)

end Precedence

namespace Program

variable {program : Program}

/-- **The reported operation.** If the operations of a program cannot be ordered, the one that is
reported is the lowest of those that are in a circle or wait for one. It is in a circle itself, and
then the lowest operation that is in any, exactly if no operation that waits for a circle is lower
than all operations in circles.

**Proof sketch.** The lowest blocked operation is reported (`order_eq_error`). If it is in a circle,
it is itself the operation in a circle that lies below everything blocked. Conversely some operation
in a circle lies below the one that is reported; it is blocked, so it is that one. -/
theorem order_reports_circle_iff (closed : program.Closed)
    (fails : program.precedence.order = .error stuck) :
    program.precedence.Blocked stuck ∧ (∀ id, program.precedence.Blocked id → stuck ≤ id) ∧
      ((TransGen program.precedence.Edge stuck stuck ∧
          ∀ id, TransGen program.precedence.Edge id id → stuck ≤ id) ↔
        ∀ id, program.precedence.Blocked id →
          ∃ knot ≤ id, TransGen program.precedence.Edge knot knot) := by
  obtain ⟨blocked, lowest⟩ := Precedence.order_eq_error closed.precedence_sound fails
  refine ⟨blocked, lowest, ?_, fun circles => ?_⟩
  · rintro ⟨circle, -⟩ id waits
    exact ⟨stuck, lowest id waits, circle⟩
  · obtain ⟨knot, below, circle⟩ := circles stuck blocked
    obtain rfl : knot = stuck := below.antisymm (lowest knot ⟨knot, circle, .refl⟩)
    exact ⟨circle, fun id circle => lowest id ⟨id, circle, .refl⟩⟩

/-- Four gates on resources of their own, two of which wait for each other, and one for the first of
these. -/
def circling (first second third : OpId) : Program where
  name := "circling"
  layout := .physical 4
  tasks := #[⟨.gate "a" [0], none⟩, ⟨.gate "b" [1], none⟩, ⟨.gate "c" [2], none⟩,
    ⟨.gate "d" [3], none⟩]
  dependencies := [(first, second), (second, first), (first, third)]

/-- The circle comes before the gate that waits for it, and the first gate in it is reported. -/
theorem order_reports_circle_circling : (circling 1 2 3).Closed ∧
    (circling 1 2 3).precedence.order = .error 1 ∧
    TransGen (circling 1 2 3).precedence.Edge 1 1 ∧
    ∀ id, TransGen (circling 1 2 3).precedence.Edge id id → 1 ≤ id := by
  have closed : (circling 1 2 3).Closed := ⟨by decide, by decide⟩
  have fails : (circling 1 2 3).precedence.order = .error 1 := rfl
  have circle : TransGen (circling 1 2 3).precedence.Edge 1 1 :=
    .tail (b := 2) (.single (by decide : 1 ∈ (circling 1 2 3).precedence.preds 2))
      (by decide : 2 ∈ (circling 1 2 3).precedence.preds 1)
  obtain ⟨-, lowest, reports⟩ := order_reports_circle_iff closed fails
  exact ⟨closed, fails, reports.mpr fun id waits => ⟨1, lowest id waits, circle⟩⟩

/-- The gate that waits for the circle comes before it, and is reported in its place. -/
theorem order_reports_waiting : (circling 2 3 1).Built ∧
    (circling 2 3 1).precedence.order = .error 1 ∧
    TransGen (circling 2 3 1).precedence.Edge 2 2 ∧
    ¬ TransGen (circling 2 3 1).precedence.Edge 1 1 := by
  have first := @Built.push _ _ (.gate "a" [0]) (.empty "circling" (.physical 4)) rfl
  have second := @Built.push _ _ (.gate "b" [1]) first rfl
  have third := @Built.push _ _ (.gate "c" [2]) second rfl
  have fourth := @Built.push _ _ (.gate "d" [3]) third rfl
  have there := @Built.depend _ _ 2 3 fourth rfl
  have back := @Built.depend _ _ 3 2 there rfl
  refine ⟨@Built.depend _ _ 2 1 back rfl, rfl, ?_, fun circle => ?_⟩
  · exact .tail (b := 3) (.single (by decide : 2 ∈ (circling 2 3 1).precedence.preds 3))
      (by decide : 3 ∈ (circling 2 3 1).precedence.preds 2)
  · obtain ⟨after, edge, -⟩ := TransGen.head'_iff.mp circle
    have inside : after < 4 := (edge_iff.mp edge).1
    exact absurd edge
      ((by decide : ∀ after < 4, 1 ∉ (circling 2 3 1).precedence.preds after) after inside)

end Program

end Timetable
