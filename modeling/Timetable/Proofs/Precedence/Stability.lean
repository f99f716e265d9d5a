import Timetable.Proofs.Precedence.Order

/-!
# The order stays close to program order

Of all orders that respect a precedence, the one that is chosen is the lexicographically least:
wherever several operations could come next, the lowest of them does. Program order is the least
order of all, so it is kept whenever it respects the precedence.

## Main definitions

* `Residual.CompletedBy` — an order in which the pending operations can be completed.

## Main results

* `Residual.CompletedBy.visit_eq_or_lex` — visiting the lowest operation of the frontier again and
  again is the least way of completing everything.
* `Program.order_stable` — the order of a program exists unless there is a circle, and is the least.
-/

set_option autoImplicit false

namespace Timetable

open Relation

namespace Residual

/-- The pending operations in an order in which each of them comes behind those that it waits
for. -/
structure CompletedBy (residual : Residual) (order : List OpId) : Prop where
  perm : order.Perm residual.pending
  after : ∀ (earlier : List OpId) (id : OpId) (later : List OpId), order = earlier ++ id :: later →
    ∀ before, residual.precedence.Edge before id → before ∈ residual.pending → before ∈ earlier

variable {residual : Residual} {first : OpId} {order others : List OpId}

/-- The first operation of such an order is in the frontier. -/
lemma CompletedBy.mem_frontier (completed : residual.CompletedBy (first :: others))
    (consistent : residual.Consistent) : first ∈ residual.frontier := by
  refine consistent.mem_frontier_iff.mpr ⟨completed.perm.mem_iff.mp List.mem_cons_self, ?_⟩
  intro before edge waits
  exact List.not_mem_nil (completed.after [] first others rfl before edge waits)

/-- When the first operation is completed, the others are in such an order. -/
lemma CompletedBy.tail (completed : residual.CompletedBy (first :: others))
    (consistent : residual.Consistent) : (residual.complete first).CompletedBy others := by
  have left := pending_complete (completed.mem_frontier consistent)
  refine ⟨?_, ?_⟩
  · rw [left, ← List.erase_cons_head (a := first) (l := others)]
    exact completed.perm.erase first
  · intro earlier id later split before edge waits
    rw [left, consistent.nodup.mem_erase_iff] at waits
    rw [precedence_complete] at edge
    have member := completed.after (first :: earlier) id later (congrArg (first :: ·) split) before
      edge waits.2
    exact (List.mem_cons.mp member).resolve_left waits.1

/-- The frontier starts with the lowest of its operations. -/
lemma le_of_frontier_eq_cons (sorted : residual.pending.Pairwise (· < ·)) {lowest : OpId}
    (found : residual.frontier = lowest :: others) (ready : first ∈ residual.frontier) :
    lowest ≤ first := by
  have increasing := sorted.filter residual.isFree
  rw [← frontier, found] at increasing
  rcases List.mem_cons.mp (found ▸ ready) with rfl | later
  · exact le_rfl
  · exact ((List.pairwise_cons.mp increasing).1 first later).le

/-- Visiting the lowest operation of the frontier again and again comes lexicographically first
among all ways of completing the pending operations in order.

**Proof sketch.** By induction on the number of visits. The first operation of another order is in
the frontier, so it is not lower than the first one visited. If it is the same one, what follows it
is another order of the operations that are left. -/
theorem CompletedBy.visit_eq_or_lex (completed : residual.CompletedBy order)
    (consistent : residual.Consistent) (sorted : residual.pending.Pairwise (· < ·)) {times : Nat}
    (enough : residual.pending.length ≤ times) :
    (residual.visit times).1 = order ∨ List.Lex (· < ·) (residual.visit times).1 order := by
  induction times generalizing residual order with
  | zero =>
    have done : residual.pending = [] := List.length_eq_zero_iff.mp (Nat.le_zero.mp enough)
    exact .inl (done ▸ completed.perm).eq_nil.symm
  | succ times ih =>
    cases order with
    | nil =>
      have done : residual.frontier = [] := by rw [frontier, completed.perm.nil_eq.symm]; rfl
      simp [Residual.visit, done]
    | cons first others =>
      have ready := completed.mem_frontier consistent
      obtain ⟨lowest, rest, found⟩ := List.exists_cons_of_ne_nil (List.ne_nil_of_mem ready)
      have visit : (residual.visit (times + 1)).1 =
          lowest :: ((residual.complete lowest).visit times).1 := by
        simp only [Residual.visit, found]
      rw [visit]
      rcases (le_of_frontier_eq_cons sorted found ready).lt_or_eq with lower | rfl
      · exact .inr (.rel lower)
      · have left := pending_complete ready
        have fewer : (residual.complete lowest).pending.length ≤ times := by
          rw [left, List.length_erase_of_mem (mem_pending_of_mem_frontier ready)]
          omega
        have sorted' : (residual.complete lowest).pending.Pairwise (· < ·) := by
          rw [left]
          exact sorted.sublist List.erase_sublist
        rcases ih (completed.tail consistent) (consistent.complete lowest) sorted' fewer with
          same | earlier
        · exact .inl (congrArg (lowest :: ·) same)
        · exact .inr (.cons earlier)

end Residual

/-- The order of a precedence comes lexicographically first among all orders that respect it.

**Proof sketch.** At the start the other order completes everything that is pending, and visiting
the frontier is compared with any such list (`CompletedBy.visit_eq_or_lex`). -/
lemma Precedence.order_eq_or_lex {precedence : Precedence} {order other : List OpId}
    (sound : precedence.Sound) (ok : precedence.order = .ok order)
    (perm : other.Perm (List.range precedence.size)) (respects : precedence.Respects other) :
    order = other ∨ List.Lex (· < ·) order other := by
  have completed : (Residual.start precedence).CompletedBy other :=
    ⟨perm, fun earlier id later split before edge _ => respects earlier id later split before edge⟩
  have enough : (Residual.start precedence).pending.length ≤ precedence.size := by
    simp [Residual.start]
  have least := completed.visit_eq_or_lex (Residual.consistent_start sound) List.pairwise_lt_range
    enough
  unfold Precedence.order at ok
  dsimp only at ok
  split at ok
  · cases ok
    exact least
  · cases ok

namespace Program

variable {program : Program}

/-- Where no operation names a resource twice and all dependencies agree with program order, so does
the precedence. -/
lemma lt_of_edge_of_upward (upward : ∀ pair ∈ program.dependencies, pair.1 < pair.2)
    (nodup : ∀ operation ∈ program.operations, operation.resources.Nodup) {before after : OpId}
    (edge : program.precedence.Edge before after) : before < after := by
  obtain ⟨-, shared | known⟩ := edge_iff.mp edge
  · exact lt_of_mem_resourcePreds nodup shared
  · exact upward _ known

/-- **Stable topological order.** The operations of a program can be ordered exactly if none of them
comes before itself. The order lists each of them once and behind its predecessors, and of all such
lists it is the lexicographically least. If no operation names a resource twice and all dependencies
go from lower to higher numbers, it is program order.

**Proof sketch.** There is an order exactly if there are no circles (`exists_order`,
`not_transGen_edge`). In each visit the lowest operation of the frontier is taken, so any other list
that respects precedence is no smaller where it first differs (`order_eq_or_lex`). If all edges go
upward, every visit takes the lowest pending operation (`order_eq_range`). -/
theorem order_stable (closed : program.Closed) :
    ((∃ order, program.precedence.order = .ok order) ↔
        ∀ id, ¬ TransGen program.precedence.Edge id id) ∧
      (∀ order, program.precedence.order = .ok order →
        order.Perm program.ids ∧ program.precedence.Respects order ∧
          ∀ other : List OpId, other.Perm program.ids → program.precedence.Respects other →
            order = other ∨ List.Lex (· < ·) order other) ∧
      ((∀ pair ∈ program.dependencies, pair.1 < pair.2) →
        (∀ operation ∈ program.operations, operation.resources.Nodup) →
          program.precedence.order = .ok program.ids) := by
  have sound := closed.precedence_sound
  refine ⟨⟨?_, Precedence.exists_order sound⟩, fun order ok => ?_, fun upward nodup => ?_⟩
  · rintro ⟨order, ok⟩
    exact Precedence.not_transGen_edge sound ok
  · refine ⟨closed.perm_of_order ok, (Precedence.order_eq_ok sound ok).2, fun other perm => ?_⟩
    exact Precedence.order_eq_or_lex sound ok (perm.trans (by rw [size_precedence]; rfl))
  · rw [Precedence.order_eq_range sound fun edge => lt_of_edge_of_upward upward nodup edge,
      size_precedence]
    rfl

/-- Three gates on resources of their own, the first of which has to wait for the second. -/
def detour : Program where
  name := "detour"
  layout := .physical 3
  tasks := #[⟨.gate "a" [0], none⟩, ⟨.gate "b" [1], none⟩, ⟨.gate "c" [2], none⟩]
  dependencies := [(1, 0)]

/-- The first gate comes as soon as the second is through, and the third not before its turn. -/
theorem order_stable_detour : detour.Closed ∧ detour.precedence.order = .ok [1, 0, 2] ∧
    [1, 0, 2].Perm detour.ids ∧ detour.precedence.Respects [1, 0, 2] ∧
    ∀ other : List OpId, other.Perm detour.ids → detour.precedence.Respects other →
      [1, 0, 2] = other ∨ List.Lex (· < ·) [1, 0, 2] other := by
  have closed : detour.Closed := ⟨by decide, by decide⟩
  have ok : detour.precedence.order = .ok [1, 0, 2] := rfl
  exact ⟨closed, ok, (order_stable closed).2.1 _ ok⟩

end Program

end Timetable
