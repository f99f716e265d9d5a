/-!
# Ticks, resources and operation numbers

Time is counted in ticks, the smallest unit that can be scheduled. Resources and operations are
numbered from zero.

## Main definitions

* `Tick`, `Resource`, `OpId` — the three kinds of numbers.
* `tickLimit` — the greatest tick that a conversion from a machine number gives.
* `latest` — the greatest of some ticks.

## Main results

* `latest_le_iff`, `le_latest`, `latest_eq_zero_or_mem` — `latest` is the least upper bound, and one
  of the ticks unless it is zero.
-/

set_option autoImplicit false

namespace Timetable

/-- A number of ticks: a point in time, or a length of time. -/
abbrev Tick := Nat

/-- The number of a resource that only one operation can use at a time. -/
abbrev Resource := Nat

/-- The number of an operation inside its program, in program order. -/
abbrev OpId := Nat

/-- The greatest tick that a conversion from a machine number gives: the greatest number of
sixty-four bits. -/
def tickLimit : Tick := 0xFFFFFFFFFFFFFFFF

/-- The latest of some ticks, and zero if there are none. -/
def latest (ticks : List Tick) : Tick :=
  ticks.foldr max 0

/-- Without any ticks the latest one is zero. -/
@[simp]
theorem latest_nil : latest [] = 0 := rfl

/-- The latest tick of a list is the first one or the latest of the others. -/
@[simp]
theorem latest_cons (t : Tick) (ticks : List Tick) :
    latest (t :: ticks) = max t (latest ticks) := rfl

/-- The latest tick is the least upper bound. -/
theorem latest_le_iff {ticks : List Tick} {bound : Tick} :
    latest ticks ≤ bound ↔ ∀ t ∈ ticks, t ≤ bound := by
  induction ticks with
  | nil => simp
  | cons t ticks ih => rw [latest_cons, Nat.max_le, ih, List.forall_mem_cons]

/-- The latest tick is an upper bound. -/
theorem le_latest {ticks : List Tick} {t : Tick} (h : t ∈ ticks) : t ≤ latest ticks :=
  latest_le_iff.mp (Nat.le_refl _) t h

/-- The latest tick is one of the ticks unless it is zero. -/
theorem latest_eq_zero_or_mem (ticks : List Tick) : latest ticks = 0 ∨ latest ticks ∈ ticks := by
  induction ticks with
  | nil => exact .inl rfl
  | cons tick ticks ih =>
    rw [latest_cons]
    rcases Nat.le_total tick (latest ticks) with le | le
    · rw [Nat.max_eq_right le]
      exact ih.imp_right (List.mem_cons_of_mem _)
    · rw [Nat.max_eq_left le]
      exact .inr List.mem_cons_self

/-- The latest tick does not depend on the order of the ticks. -/
theorem latest_perm {ticks others : List Tick} (perm : ticks.Perm others) :
    latest ticks = latest others :=
  Nat.le_antisymm (latest_le_iff.mpr fun _ member => le_latest (perm.mem_iff.mp member))
    (latest_le_iff.mpr fun _ member => le_latest (perm.mem_iff.mpr member))

/-- The latest tick of two lists is the later one of the latest ticks of each. -/
@[simp]
theorem latest_append (ticks others : List Tick) :
    latest (ticks ++ others) = max (latest ticks) (latest others) := by
  induction ticks with
  | nil => simp
  | cons t ticks ih => simp [ih, Nat.max_assoc]

end Timetable
