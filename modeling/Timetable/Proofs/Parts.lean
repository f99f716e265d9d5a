import Mathlib.Algebra.BigOperators.Group.List.Basic
import Mathlib.Algebra.GroupWithZero.Nat
import Mathlib.Data.List.Chain
import Timetable.Proofs.Timeline

/-!
# The parts of an operation

The entries of a schedule that were made from one operation are its parts. Most operations have one
part. In lock step a delay may have several, which follow each other immediately, and a timestep
becomes the boundary of a step.

## Main definitions

* `partsOf` — the entries made from an operation; `Entry.FillsGap` — the other ones.
* `Split` — a delay in parts that follow each other.
* `Operation.KeptWhole`, `Operation.KeptInLockStep` — what is made of an operation.

## Main results

* `partsOf_mirrored` — turning entries around turns the parts of every operation around.
* `Split.mirrored`, `Operation.KeptInLockStep.mirrored` — turned around, an operation is still kept.
-/

set_option autoImplicit false

namespace Timetable

/-- The entries made from an operation. -/
def partsOf (id : OpId) (entries : List Entry) : List Entry :=
  entries.filter fun entry => entry.source = some id

/-- An entry fills a gap: it is idle time of positive length that was made from no operation. -/
def Entry.FillsGap (entry : Entry) : Prop :=
  ∃ resource start duration, 0 < duration ∧ entry = .idle resource start duration

/-- Parts of a delay on a resource, of `ticks` ticks altogether: each is a delay on this resource
and starts where the one before it ends. If there are several, none of them is empty. -/
structure Split (resource : Resource) (ticks : Tick) (parts : List Entry) : Prop where
  nonempty : parts ≠ []
  delay : ∀ part ∈ parts, ∃ span, part.operation = .delay span resource
  consecutive : parts.IsChain fun earlier later => earlier.stop = later.start
  total : (parts.map Entry.duration).sum = ticks
  positive : 1 < parts.length → ∀ part ∈ parts, 0 < part.duration

/-- An operation is kept whole in a single entry. -/
def Operation.KeptWhole (operation : Operation) (id : OpId) (ticks : Tick) (parts : List Entry) :
    Prop :=
  ∃ start, parts = [⟨operation, start, ticks, some id⟩]

/-- What lock step makes of an operation: the boundary of a step from a timestep, the parts of a
delay, and a single entry from all others. -/
def Operation.KeptInLockStep (numResources : Nat) (operation : Operation) (id : OpId)
    (ticks : Tick) (parts : List Entry) : Prop :=
  match operation with
  | .timestep _ _ =>
    ∃ length start, parts = [.boundary length (List.range numResources) start (some id)]
  | .delay _ resource => Split resource ticks parts
  | operation => operation.KeptWhole id ticks parts

variable {id : OpId} {entries others parts : List Entry} {entry : Entry} {resource : Resource}
  {ticks total : Tick} {origin : OpId → Option OpId} {operation : Operation} {numResources : Nat}

/-! ## Reading off parts -/

/-- Without entries there are no parts. -/
@[simp]
lemma partsOf_nil (id : OpId) : partsOf id [] = [] := rfl

/-- The parts of an operation in two lists are those in the first and then those in the second. -/
@[simp]
lemma partsOf_append (id : OpId) (entries others : List Entry) :
    partsOf id (entries ++ others) = partsOf id entries ++ partsOf id others :=
  List.filter_append ..

/-- The first entry is a part of an operation or not, and the others decide about the rest. -/
lemma partsOf_cons (id : OpId) (entry : Entry) (entries : List Entry) :
    partsOf id (entry :: entries) = partsOf id [entry] ++ partsOf id entries :=
  partsOf_append id [entry] entries

/-- The parts of an operation are the entries that were made from it. -/
lemma mem_partsOf : entry ∈ partsOf id entries ↔ entry ∈ entries ∧ entry.source = some id := by
  simp [partsOf]

/-- An operation has no parts if no entry was made from it. -/
lemma partsOf_eq_nil_iff :
    partsOf id entries = [] ↔ ∀ entry ∈ entries, entry.source ≠ some id := by
  simp [partsOf, List.filter_eq_nil_iff]

/-- A single entry is a part of the operation it was made from. -/
lemma partsOf_singleton_self (source : entry.source = some id) :
    partsOf id [entry] = [entry] := by
  simp [partsOf, source]

/-- A single entry is no part of any operation that it was not made from. -/
lemma partsOf_singleton_ne (source : entry.source ≠ some id) : partsOf id [entry] = [] := by
  simp [partsOf, source]

/-- The idle time that is written between operations fills gaps. -/
lemma Entry.fillsGap_of_mem_gaps {timeline : Timeline} {resources : List Resource} {tick : Tick}
    (member : entry ∈ timeline.gaps resources tick) : entry.FillsGap := by
  obtain ⟨resource, -, start, duration, positive, -, rfl⟩ := Timeline.mem_gaps member
  exact ⟨resource, start, duration, positive, rfl⟩

/-- What fills a gap was made from no operation. -/
lemma Entry.FillsGap.source_eq (fills : entry.FillsGap) : entry.source = none := by
  obtain ⟨_, _, _, -, rfl⟩ := fills
  rfl

/-- Idle time that fills gaps is no part of any operation. -/
@[simp]
lemma partsOf_gaps (id : OpId) (timeline : Timeline) (resources : List Resource) (tick : Tick) :
    partsOf id (timeline.gaps resources tick) = [] := by
  refine partsOf_eq_nil_iff.mpr ?_
  intro entry member source
  rw [(Entry.fillsGap_of_mem_gaps member).source_eq] at source
  cases source

/-! ## What is made of an operation -/

/-- Something is made of every operation. -/
lemma Operation.KeptInLockStep.ne_nil
    (kept : operation.KeptInLockStep numResources id ticks parts) : parts ≠ [] := by
  cases operation with
  | timestep length resources =>
    obtain ⟨length, start, rfl⟩ := kept
    simp
  | delay span resource => exact Split.nonempty kept
  | gate | barrier =>
    obtain ⟨start, rfl⟩ := kept
    simp

/-- A part performs the operation it was made from, up to the length of a delay, and a timestep is
on all declared resources.

**Proof sketch.** Split on the operation: a timestep has become a boundary, a delay has parts that
are delays, and any other operation is kept whole. -/
lemma Operation.KeptInLockStep.part_cases
    (kept : operation.KeptInLockStep numResources id ticks parts) {part : Entry}
    (member : part ∈ parts) : part.operation = operation ∨
      (∃ span other resource, operation = .delay span resource ∧
        part.operation = .delay other resource) ∨
      ∃ length other resources, operation = .timestep length resources ∧
        part.operation = .timestep other (List.range numResources) := by
  cases operation with
  | timestep length resources =>
    obtain ⟨other, start, rfl⟩ := kept
    obtain rfl := List.mem_singleton.mp member
    exact .inr (.inr ⟨length, other, resources, rfl, rfl⟩)
  | delay span resource =>
    obtain ⟨other, delay⟩ := Split.delay kept part member
    exact .inr (.inl ⟨span, other, resource, rfl, delay⟩)
  | gate | barrier =>
    obtain ⟨start, rfl⟩ := kept
    obtain rfl := List.mem_singleton.mp member
    exact .inl rfl

/-- Timesteps are made of a timestep, and none of any other operation. -/
lemma Operation.KeptInLockStep.isTimestep_eq
    (kept : operation.KeptInLockStep numResources id ticks parts) :
    ∀ part ∈ parts, part.operation.isTimestep = operation.isTimestep := by
  intro part member
  obtain same | ⟨_, _, _, rfl, same⟩ | ⟨_, _, _, rfl, same⟩ := kept.part_cases member <;> rw [same]
  all_goals rfl

/-! ## Parts turned around -/

/-- Turned around, an entry still fills a gap. -/
lemma Entry.FillsGap.mirrored (fills : entry.FillsGap) (total : Tick)
    (origin : OpId → Option OpId) : (entry.mirrored total origin).FillsGap := by
  obtain ⟨resource, start, duration, positive, rfl⟩ := fills
  exact ⟨resource, total - (start + duration), duration, positive, rfl⟩

/-- Turning entries around turns the parts of every operation around. The operation `other` comes
from is `id`, and no other operation does.

**Proof sketch.** Turning around and keeping the entries of an operation can be done in either
order, because the entries that are kept are the same. -/
theorem partsOf_mirrored {other : OpId}
    (came : ∀ entry ∈ entries, entry.source.bind origin = some id ↔ entry.source = some other) :
    partsOf id (entries.reverse.map (Entry.mirrored total origin)) =
      (partsOf other entries).reverse.map (Entry.mirrored total origin) := by
  have same : entries.filter ((fun entry => entry.source = some id) ∘ Entry.mirrored total origin) =
      partsOf other entries := by
    refine List.filter_congr ?_
    intro entry member
    exact decide_eq_decide.mpr (came entry member)
  rw [partsOf, List.filter_map, List.filter_reverse, same]

/-- The parts of a delay that end in time are parts of it when they are turned around.

**Proof sketch.** Durations do not change, so the total and positivity stay. Two parts that meet
still meet in the opposite order, because both are reflected at the same total. -/
theorem Split.mirrored (split : Split resource ticks parts)
    (within : ∀ part ∈ parts, part.stop ≤ total) (origin : OpId → Option OpId) :
    Split resource ticks (parts.reverse.map (Entry.mirrored total origin)) where
  nonempty := by simpa using split.nonempty
  delay := by
    intro part member
    obtain ⟨before, found, rfl⟩ := List.mem_map.mp member
    exact split.delay before (List.mem_reverse.mp found)
  consecutive := by
    rw [List.isChain_map, List.isChain_reverse]
    refine (List.isChain_iff_forall_rel_of_append_cons_cons.mpr ?_)
    intro earlier later front back parts_eq
    have meet := List.isChain_iff_forall_rel_of_append_cons_cons.mp split.consecutive parts_eq
    have inside := within later (by simp [parts_eq])
    show total - later.stop + later.duration = total - earlier.stop
    rw [meet]
    unfold Entry.stop at *
    lia
  total := by
    have durations : Entry.duration ∘ Entry.mirrored total origin = Entry.duration := rfl
    rw [List.map_map, durations, List.map_reverse, List.sum_reverse, split.total]
  positive := by
    intro several part member
    obtain ⟨before, found, rfl⟩ := List.mem_map.mp member
    rw [List.length_map, List.length_reverse] at several
    exact split.positive several before (List.mem_reverse.mp found)

/-- Turned around, a single entry is still the only one. -/
lemma Operation.KeptWhole.mirrored {other : OpId} (kept : operation.KeptWhole other ticks parts)
    (came : origin other = some id) (total : Tick) :
    operation.KeptWhole id ticks (parts.reverse.map (Entry.mirrored total origin)) := by
  obtain ⟨start, rfl⟩ := kept
  refine ⟨total - (start + ticks), ?_⟩
  simp [Entry.mirrored, Entry.stop, came]

/-- Turned around, what lock step made of an operation is still what it makes of it.

**Proof sketch.** Split on the operation. A delay in parts is `Split.mirrored`, and an operation
that is kept in one piece is `KeptWhole.mirrored`. -/
theorem Operation.KeptInLockStep.mirrored {other : OpId}
    (kept : operation.KeptInLockStep numResources other ticks parts)
    (within : ∀ part ∈ parts, part.stop ≤ total) (came : origin other = some id) :
    operation.KeptInLockStep numResources id ticks
      (parts.reverse.map (Entry.mirrored total origin)) := by
  cases operation with
  | timestep length resources =>
    obtain ⟨length, start, rfl⟩ := kept
    refine ⟨length, total - start, ?_⟩
    simp [Entry.mirrored, Entry.stop, Entry.boundary, came]
  | delay span resource => exact Split.mirrored kept within origin
  | gate name resources => exact KeptWhole.mirrored kept came total
  | barrier resources => exact KeptWhole.mirrored kept came total

end Timetable
