import Mathlib.Algebra.GroupWithZero.Nat
import Timetable.Proofs.Alignment

/-!
# How often a resource is measured

A group may name a resource several times. Where it is missing, idle time on it then gives up its
end several times: as long as a part of the idle time is left in front of the measurement, each time
adds another measurement of the resource over the same interval. Where none is left, the
measurement itself takes the place of the idle time, and more of the same changes nothing.

## Main definitions

* `Measured.timesMeasured` — how many measurements come of an entry.

## Main results

* `Measured.splitTimes_eq` — the parts of an entry that gives up its end several times.
* `Measured.measuredOver_complete_of_ne` — completing a measurement adds nothing over other
  intervals.
* `Measured.count_measuredOver_complete` — how often a resource is measured over its own.
-/

set_option autoImplicit false

namespace Timetable

variable {entry whole : Entry} {entries completed : List Entry} {resource : Resource}
  {resources : List Resource} {groups : List (List Resource)} {interval : Tick × Tick}

/-! ## The parts of an entry -/

namespace Measured

variable {measured : Measured}

/-- How many measurements come of an entry that gives up its end a number of times: as many if a
part of it is left in front of them, and otherwise one at most. -/
def timesMeasured (measured : Measured) (times : Nat) (whole : Entry) : Nat :=
  if whole.start < measured.start then times else min times 1

/-- A measurement of the resource over the interval stays what it is. -/
lemma splitTimes_added (measured : Measured) (times : Nat) (resource : Resource) :
    measured.splitTimes times (measured.added resource) = [measured.added resource] := by
  induction times with
  | zero => rfl
  | succ times ih =>
    have parts : measured.split (measured.added resource) = [measured.added resource] :=
      split_of_not_before rfl (lt_irrefl measured.start)
    rw [splitTimes_succ parts, ih, List.append_nil]

/-- Idle time that starts before the interval is shortened once, and each time another measurement
is added behind it. -/
lemma splitTimes_of_before (times : Nat) (used : whole.resources = [resource])
    (before : whole.start < measured.start) :
    measured.splitTimes (times + 1) whole =
      measured.kept resource whole :: List.replicate (times + 1) (measured.added resource) := by
  induction times generalizing whole with
  | zero => rw [splitTimes_succ (split_of_before used before)]; rfl
  | succ times ih =>
    have again : measured.kept resource (measured.kept resource whole) =
        measured.kept resource whole := rfl
    rw [splitTimes_succ (split_of_before used before),
      @ih (measured.kept resource whole) rfl before, again, List.cons_append,
      ← List.replicate_succ']

/-- The parts of an entry on one resource that gives up its end.

**Proof sketch.** The first split decides what is kept in front of the measurement. If the entry
starts before it, every further split finds the piece that was kept and adds one more measurement.
If it starts with it, the first split leaves the added measurement only, which no further split
changes. -/
theorem splitTimes_eq {times : Nat} (some : times ≠ 0) (used : whole.resources = [resource]) :
    measured.splitTimes times whole =
      (if whole.start < measured.start then [measured.kept resource whole] else []) ++
        List.replicate (measured.timesMeasured times whole) (measured.added resource) := by
  obtain ⟨times, rfl⟩ := Nat.exists_eq_succ_of_ne_zero some
  unfold timesMeasured
  split
  · rename_i before
    exact splitTimes_of_before times used before
  · rename_i behind
    rw [splitTimes_succ (split_of_not_before used behind), splitTimes_added, List.append_nil,
      Nat.min_eq_right (Nat.le_add_left 1 times)]
    rfl

end Measured

/-! ## What the parts measure -/

/-- Measurements of two lists are those of the first and then those of the second. -/
lemma measuredOver_append (before after : List Entry) (interval : Tick × Tick) :
    measuredOver (before ++ after) interval =
      measuredOver before interval ++ measuredOver after interval := by
  simp only [measuredOver, List.filter_append, List.flatMap_append]

/-- If each entry is replaced by parts, what is measured is what the parts of each measure, one
entry after the other. -/
lemma measuredOver_flatMap (parts : Entry → List Entry) (entries : List Entry)
    (interval : Tick × Tick) : measuredOver (entries.flatMap parts) interval =
      entries.flatMap fun entry => measuredOver (parts entry) interval := by
  rw [measuredOver, List.filter_flatMap, List.flatMap_assoc]
  rfl

/-- What some entries measure is what each of them measures. -/
lemma measuredOver_eq_flatMap (entries : List Entry) (interval : Tick × Tick) :
    measuredOver entries interval = entries.flatMap fun entry => measuredOver [entry] interval := by
  rw [← measuredOver_flatMap, List.flatMap_singleton']

/-- An entry that is no measurement measures nothing. -/
lemma measuredOver_singleton_of_ne (plain : entry.operation.name ≠ measureName)
    (interval : Tick × Tick) : measuredOver [entry] interval = [] := by
  simp [measuredOver, plain]

namespace Measured

variable {measured : Measured} {all : List Measured}

/-- The measurements that are added are over the interval.

**Proof sketch.** Induction on how many there are. Each of them is over the interval of the
measurement and on the resource. -/
lemma measuredOver_replicate (timed : measured.start ≤ measured.stop) (times : Nat)
    (resource : Resource) (interval : Tick × Tick) :
    measuredOver (List.replicate times (measured.added resource)) interval =
      if measured.interval = interval then List.replicate times resource else [] := by
  have named : (measured.added resource).operation.name = measureName := rfl
  have used : (measured.added resource).resources = [resource] := rfl
  have same : ((measured.added resource).start, (measured.added resource).stop) =
      measured.interval := Prod.ext rfl (stop_added timed resource)
  have one : measuredOver [measured.added resource] interval =
      if measured.interval = interval then [resource] else [] := by
    by_cases here : measured.interval = interval <;> simp [measuredOver, named, used, same, here]
  induction times with
  | zero => exact (ite_self []).symm
  | succ times ih =>
    rw [List.replicate_succ, ← List.singleton_append, measuredOver_append, one, ih]
    split <;> rfl

/-- The parts of an entry that measures nothing itself measure its resource over the interval. -/
lemma measuredOver_splitTimes (times : Nat) (used : whole.resources = [resource])
    (plain : whole.operation.name ≠ measureName) (timed : measured.start ≤ measured.stop)
    (interval : Tick × Tick) : measuredOver (measured.splitTimes times whole) interval =
      if measured.interval = interval then
        List.replicate (measured.timesMeasured times whole) resource else [] := by
  rcases eq_or_ne times 0 with rfl | some
  · have none : measured.timesMeasured 0 whole = 0 := by simp [timesMeasured]
    rw [none, List.replicate_zero, ite_self]
    exact measuredOver_singleton_of_ne plain interval
  · rw [splitTimes_eq some used, measuredOver_append, measuredOver_replicate timed]
    split
    · rw [measuredOver_singleton_of_ne (name_kept_ne resource whole), List.nil_append]
    · rfl

/-- What becomes of an entry when a measurement is completed measures as much as before over other
intervals. -/
lemma measuredOver_parts_of_ne (completes : measured.Completes resources entries completed)
    (member : entry ∈ entries) (other : measured.interval ≠ interval) :
    measuredOver (measured.splitTimes (resources.countP (measured.concerns · entry)) entry)
      interval = measuredOver [entry] interval := by
  by_cases apart : ∀ resource ∈ resources, ¬measured.concerns resource entry
  · rw [List.countP_eq_zero.mpr apart]
    rfl
  · push Not at apart
    obtain ⟨resource, missing, concerned⟩ := apart
    obtain ⟨used, plain⟩ := completes.alone missing member concerned
    rw [measuredOver_splitTimes _ used plain (completes.timed missing member concerned),
      if_neg other, measuredOver_singleton_of_ne plain]

/-- What becomes of an entry when a measurement is completed measures a resource more often over the
interval if the entry overlaps it there.

**Proof sketch.** An entry that overlaps no missing resource is left alone, and if it overlaps the
given resource then this one is not missing. Any other entry is a delay on a single missing
resource, so its parts measure this resource as often as `timesMeasured` says, and no other one. -/
lemma count_measuredOver_parts (completes : measured.Completes resources entries completed)
    (member : entry ∈ entries) (resource : Resource) :
    (measuredOver (measured.splitTimes (resources.countP (measured.concerns · entry)) entry)
      measured.interval).count resource = (measuredOver [entry] measured.interval).count resource +
        if measured.concerns resource entry then
          measured.timesMeasured (resources.count resource) entry else 0 := by
  by_cases apart : ∀ resource ∈ resources, ¬measured.concerns resource entry
  · have none : (if measured.concerns resource entry then
        measured.timesMeasured (resources.count resource) entry else 0) = 0 := by
      split
      · rename_i concerned
        have absent : resources.count resource = 0 :=
          List.count_eq_zero.mpr fun missing => apart resource missing concerned
        simp [timesMeasured, absent]
      · rfl
    rw [List.countP_eq_zero.mpr apart, none, Nat.add_zero]
    rfl
  · push Not at apart
    obtain ⟨other, missing, concerned⟩ := apart
    obtain ⟨used, plain⟩ := completes.alone missing member concerned
    rw [measuredOver_splitTimes _ used plain (completes.timed missing member concerned), if_pos rfl,
      countP_concerns used concerned, measuredOver_singleton_of_ne plain, List.count_nil,
      Nat.zero_add, List.count_replicate]
    by_cases same : other = resource
    · subst same
      simp [concerned]
    · have apart : ¬measured.concerns resource entry = true := fun concerned =>
        same (List.mem_singleton.mp (used ▸ (concerns_iff.mp concerned).2.1)).symm
      simp [same, apart]

/-! ## Completing a measurement -/

/-- If each of some entries has a number of further copies of a resource, all of them have the sum
of these. -/
lemma count_flatMap_eq_add {parts wholes : Entry → List Resource} {further : Entry → Nat}
    {concerned : Entry → Bool} (each : ∀ entry ∈ entries, (parts entry).count resource =
      (wholes entry).count resource + if concerned entry then further entry else 0) :
    (entries.flatMap parts).count resource = (entries.flatMap wholes).count resource +
      ((entries.filter concerned).map further).sum := by
  induction entries with
  | nil => rfl
  | cons entry entries ih =>
    obtain ⟨here, each⟩ := List.forall_mem_cons.mp each
    rw [List.flatMap_cons, List.flatMap_cons, List.count_append, List.count_append, here, ih each,
      List.filter_cons]
    split
    · rw [List.map_cons, List.sum_cons]
      omega
    · omega

/-- Completing a measurement adds nothing to what is measured over other intervals.

**Proof sketch.** Completing replaces each entry by its parts, and the parts measure over another
interval what the entry measured (`measuredOver_parts_of_ne`). -/
theorem measuredOver_complete_of_ne (ok : measured.complete groups entries = .ok completed)
    (other : measured.interval ≠ interval) :
    measuredOver completed interval = measuredOver entries interval := by
  have completes := completes_of_complete ok
  obtain ⟨-, -, rfl⟩ := complete_eq_ok_iff.mp ok
  rw [splitAll, measuredOver_flatMap, measuredOver_eq_flatMap entries]
  exact List.flatMap_congr fun entry member => measuredOver_parts_of_ne completes member other

/-- Completing a measurement adds, over its own interval, for each entry that overlaps it on a
resource as many measurements of this resource as come of the entry.

**Proof sketch.** Completing replaces each entry by its parts. Count in the parts of each entry
(`count_measuredOver_parts`), and add the counts up. -/
theorem count_measuredOver_complete (ok : measured.complete groups entries = .ok completed)
    (resource : Resource) :
    (measuredOver completed measured.interval).count resource =
      (measuredOver entries measured.interval).count resource +
        ((entries.filter (measured.concerns resource)).map
          (measured.timesMeasured ((measured.missing groups).count resource))).sum := by
  have completes := completes_of_complete ok
  obtain ⟨-, -, rfl⟩ := complete_eq_ok_iff.mp ok
  rw [splitAll, measuredOver_flatMap, measuredOver_eq_flatMap entries]
  exact count_flatMap_eq_add fun entry member =>
    count_measuredOver_parts completes member resource

/-- Completing measurements adds nothing over an interval for which no resource is missing.

**Proof sketch.** Induction on the measurements. One over another interval adds nothing over this
one, and one over this interval has no resource to add. -/
lemma measuredOver_foldlM (ok : all.foldlM (complete groups) entries = .ok completed)
    (whole : ∀ measured ∈ all, measured.interval = interval → measured.missing groups = []) :
    measuredOver completed interval = measuredOver entries interval := by
  induction all generalizing entries with
  | nil =>
    cases ok
    rfl
  | cons measured all ih =>
    rw [List.foldlM_cons] at ok
    obtain ⟨middle, first, rest⟩ := bind_eq_ok.mp ok
    obtain ⟨none, whole⟩ := List.forall_mem_cons.mp whole
    rw [ih rest whole]
    by_cases here : measured.interval = interval
    · obtain ⟨-, -, rfl⟩ := complete_eq_ok_iff.mp first
      rw [none here, splitAll_nil]
    · exact measuredOver_complete_of_ne first here

end Measured

end Timetable
