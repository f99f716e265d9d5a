/-!
# Stable sorting

Sorting by insertion. Elements that the order does not tell apart keep their places relative to
each other. Insertion is quick where the list is nearly in order already, which is the case for
everything that is sorted here.

## Main definitions

* `insertInOrder` — puts an element into a list in order, in front of its equals.
* `sortBy` — a list in order.

## Main results

* `sortBy_perm` — sorting loses and adds nothing.
* `pairwise_sortBy` — the result is in order.
* `filter_sortBy` — elements with the same key stay as they were.
-/

set_option autoImplicit false

namespace Timetable

variable {α : Type}

/-- Puts an element into a list in order, in front of the first element that it may precede. -/
def insertInOrder (le : α → α → Bool) (a : α) : List α → List α
  | [] => [a]
  | b :: list => if le a b then a :: b :: list else b :: insertInOrder le a list

/-- A list in order; elements that are equal in the order keep their places relative to each
other. -/
def sortBy (le : α → α → Bool) (list : List α) : List α :=
  list.foldr (insertInOrder le) []

/-- There is nothing to sort in an empty list. -/
@[simp]
theorem sortBy_nil (le : α → α → Bool) : sortBy le [] = [] := rfl

/-- A list is sorted by inserting its first element into the others once they are in order. -/
@[simp]
theorem sortBy_cons (le : α → α → Bool) (a : α) (list : List α) :
    sortBy le (a :: list) = insertInOrder le a (sortBy le list) := rfl

/-- Inserting adds exactly the new element. -/
theorem insertInOrder_perm (le : α → α → Bool) (a : α) (list : List α) :
    (insertInOrder le a list).Perm (a :: list) := by
  induction list with
  | nil => exact .refl _
  | cons b list ih =>
    simp only [insertInOrder]
    split
    · exact .refl _
    · exact (ih.cons b).trans (.swap a b list)

/-- Sorting loses and adds nothing. -/
theorem sortBy_perm (le : α → α → Bool) (list : List α) : (sortBy le list).Perm list := by
  induction list with
  | nil => exact .refl _
  | cons a list ih => exact (insertInOrder_perm le a _).trans (ih.cons a)

/-- Inserting into a list in order keeps it in order.

**Proof sketch.** Induction on the list. If the element goes in front of the head it comes before
everything by transitivity; otherwise the head comes before it because the order is total, and
before all others as it did. -/
theorem pairwise_insertInOrder {le : α → α → Bool} (total : ∀ a b, le a b || le b a)
    (trans : ∀ a b c, le a b → le b c → le a c) (a : α) {list : List α}
    (h : list.Pairwise fun x y => le x y) :
    (insertInOrder le a list).Pairwise fun x y => le x y := by
  induction list with
  | nil => simp [insertInOrder]
  | cons b list ih =>
    obtain ⟨first, rest⟩ := List.pairwise_cons.mp h
    simp only [insertInOrder]
    split
    · rename_i before
      refine List.pairwise_cons.mpr ⟨fun c hc => ?_, h⟩
      rcases List.mem_cons.mp hc with rfl | hc
      · exact before
      · exact trans a b c before (first c hc)
    · rename_i behind
      refine List.pairwise_cons.mpr ⟨fun c hc => ?_, ih rest⟩
      rcases List.mem_cons.mp ((insertInOrder_perm le a list).mem_iff.mp hc) with rfl | hc
      · simpa [behind] using total c b
      · exact first c hc

/-- Sorting gives a list in order. -/
theorem pairwise_sortBy {le : α → α → Bool} (total : ∀ a b, le a b || le b a)
    (trans : ∀ a b c, le a b → le b c → le a c) (list : List α) :
    (sortBy le list).Pairwise fun x y => le x y := by
  induction list with
  | nil => exact .nil
  | cons a list ih => exact pairwise_insertInOrder total trans a ih

/-- An element is inserted in front of those with the same key, and changes nothing about the
others.

**Proof sketch.** Induction on the list. Whatever the element is put behind has a smaller key, so
the elements with the same key still follow it; those with another key are not touched by the
filter. -/
theorem filter_insertInOrder (key : α → Nat) (a : α) (list : List α) (k : Nat) :
    (insertInOrder (fun x y => key x ≤ key y) a list).filter (key · = k) =
      (a :: list).filter (key · = k) := by
  induction list with
  | nil => rfl
  | cons b list ih =>
    simp only [insertInOrder]
    split
    · rfl
    · rename_i behind
      -- what `a` is put behind has a smaller key
      have distinct : key b = k → ¬key a = k := by
        intro here there
        simp [here, there] at behind
      rw [List.filter_cons, ih, List.filter_cons, List.filter_cons, List.filter_cons]
      by_cases here : key b = k
      · simp [here, distinct here]
      · simp [here]

/-- Sorting by a key leaves the elements with the same key in their order. -/
theorem filter_sortBy (key : α → Nat) (list : List α) (k : Nat) :
    (sortBy (fun x y => key x ≤ key y) list).filter (key · = k) = list.filter (key · = k) := by
  induction list with
  | nil => rfl
  | cons a list ih =>
    rw [sortBy_cons, filter_insertInOrder, List.filter_cons, List.filter_cons, ih]

end Timetable
