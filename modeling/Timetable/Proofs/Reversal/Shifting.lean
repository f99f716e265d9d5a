import Mathlib.Algebra.BigOperators.Group.List.Basic
import Mathlib.Algebra.GroupWithZero.Nat
import Timetable.Proofs.Bounded.Reversal
import Timetable.Proofs.GapFree.Shifting

/-!
# Where shifting puts timesteps

Whatever the entries of a schedule are, shifting its boundaries leaves all but the timesteps alone.
The timesteps stay in order. Each takes the place that the next one had among the other entries, the
last one the place behind all of them, and it starts at the sum of the lengths of all timesteps up
to it. This says all there is to say: no other entries fit the description.

## Main definitions

* `Entry.timestepsOf`, `Entry.plainOf` — the timesteps among some entries, and the other entries.
* `Entry.timestepPlaces` — where the timesteps stand among the other entries.
* `ShiftedTo` — what shifting makes of entries.

## Main results

* `Entry.eq_of_timestepPlaces` — the timesteps, their places and the other entries are all there is
  to know about entries.
* `shiftedTo_shiftEntries` — shifting makes of entries what it should.
* `Schedule.shiftBoundaries_shifts` — what becomes of a schedule.
-/

set_option autoImplicit false

namespace Timetable

namespace Entry

/-- The timesteps among some entries. -/
def timestepsOf (entries : List Entry) : List Entry :=
  entries.filter fun entry => entry.operation.isTimestep

/-- The entries that are no timesteps. -/
def plainOf (entries : List Entry) : List Entry :=
  entries.filter fun entry => !entry.operation.isTimestep

/-- For each timestep, how many other entries stand in front of it. -/
def timestepPlaces : List Entry → List Nat
  | [] => []
  | entry :: entries =>
    if entry.operation.isTimestep then 0 :: timestepPlaces entries
    else (timestepPlaces entries).map (· + 1)

/-- Timesteps at the ends of their spans, if the first span begins at tick `elapsed`: each starts as
long after that as all timesteps up to it, itself included, are together. -/
def stampedFrom (elapsed : Tick) (markers : List Entry) : List Entry :=
  markers.mapIdx fun number marker =>
    { marker with start := elapsed + ((markers.take (number + 1)).map stepLength).sum }

end Entry

/-- What shifting makes of entries, if the first span begins at tick `elapsed`. -/
structure ShiftedTo (elapsed : Tick) (entries shifted : List Entry) : Prop where
  plain : Entry.plainOf shifted = Entry.plainOf entries
  timesteps : Entry.timestepsOf shifted = Entry.stampedFrom elapsed (Entry.timestepsOf entries)
  /-- Each timestep is at the place that the next one had, the last one behind all other entries. -/
  places : Entry.timestepPlaces shifted =
    (Entry.timestepPlaces entries ++ [(Entry.plainOf entries).length]).tail

variable {elapsed : Tick} {marker entry : Entry} {entries others shifted : List Entry}

namespace Entry

/-! ## Timesteps and other entries -/

/-- No entries have no timesteps. -/
@[simp]
lemma timestepsOf_nil : timestepsOf [] = [] := rfl

/-- No entries have no others. -/
@[simp]
lemma plainOf_nil : plainOf [] = [] := rfl

/-- No entries have no places of timesteps. -/
@[simp]
lemma timestepPlaces_nil : timestepPlaces [] = [] := rfl

/-- A timestep is the first of the timesteps. -/
@[simp]
lemma timestepsOf_cons_of_timestep (timestep : entry.operation.isTimestep = true) :
    timestepsOf (entry :: entries) = entry :: timestepsOf entries :=
  List.filter_cons_of_pos timestep

/-- Any other entry adds no timestep. -/
@[simp]
lemma timestepsOf_cons_of_plain (plain : entry.operation.isTimestep = false) :
    timestepsOf (entry :: entries) = timestepsOf entries :=
  List.filter_cons_of_neg (Bool.eq_false_iff.mp plain)

/-- A timestep adds no other entry. -/
@[simp]
lemma plainOf_cons_of_timestep (timestep : entry.operation.isTimestep = true) :
    plainOf (entry :: entries) = plainOf entries :=
  List.filter_cons_of_neg (by simpa using timestep)

/-- Any other entry is the first of the others. -/
@[simp]
lemma plainOf_cons_of_plain (plain : entry.operation.isTimestep = false) :
    plainOf (entry :: entries) = entry :: plainOf entries :=
  List.filter_cons_of_pos (by simpa using plain)

/-- In front of a timestep at the beginning there is no other entry. -/
@[simp]
lemma timestepPlaces_cons_of_timestep (timestep : entry.operation.isTimestep = true) :
    timestepPlaces (entry :: entries) = 0 :: timestepPlaces entries :=
  if_pos timestep

/-- Any other entry at the beginning stands in front of all timesteps. -/
@[simp]
lemma timestepPlaces_cons_of_plain (plain : entry.operation.isTimestep = false) :
    timestepPlaces (entry :: entries) = (timestepPlaces entries).map (· + 1) :=
  if_neg (Bool.eq_false_iff.mp plain)

/-- No timesteps are stamped with no starts. -/
@[simp]
lemma stampedFrom_nil (elapsed : Tick) : stampedFrom elapsed [] = [] := rfl

/-- A timestep has its own length to go, and the next ones begin their spans where it ends. -/
@[simp]
lemma stampedFrom_cons (elapsed : Tick) (marker : Entry) (markers : List Entry) :
    stampedFrom elapsed (marker :: markers) =
      { marker with start := elapsed + marker.stepLength } ::
        stampedFrom (elapsed + marker.stepLength) markers := by
  simp [stampedFrom, List.mapIdx_cons, Nat.add_assoc]

/-- In front of a timestep at the head of the entries there is no other entry, and in front of all
timesteps behind another entry there is one. -/
lemma timestepPlaces_cons_ne (timestep : marker.operation.isTimestep = true)
    (plain : entry.operation.isTimestep = false) :
    timestepPlaces (marker :: entries) ≠ timestepPlaces (entry :: others) := by
  rw [timestepPlaces_cons_of_timestep timestep, timestepPlaces_cons_of_plain plain]
  cases timestepPlaces others <;> simp

/-- If there are neither timesteps nor other entries, there is nothing at all. -/
lemma eq_nil_of_plainOf_eq_nil (plain : plainOf entries = []) (none : timestepsOf entries = []) :
    entries = [] := by
  refine List.eq_nil_iff_forall_not_mem.mpr fun entry member => ?_
  have not_timestep := List.filter_eq_nil_iff.mp none entry member
  have not_plain := List.filter_eq_nil_iff.mp plain entry member
  exact not_plain (by simpa using not_timestep)

/-- The timesteps, their places and the other entries are all there is to know about entries.

**Proof sketch.** Induction on both lists. They begin with the same kind of entry, since the first
place is zero exactly if a timestep comes first, and with the same entry of that kind. -/
theorem eq_of_timestepPlaces (plain : plainOf entries = plainOf others)
    (timesteps : timestepsOf entries = timestepsOf others)
    (places : timestepPlaces entries = timestepPlaces others) : entries = others := by
  induction entries generalizing others with
  | nil => exact (eq_nil_of_plainOf_eq_nil plain.symm timesteps.symm).symm
  | cons entry entries ih =>
    cases others with
    | nil => exact eq_nil_of_plainOf_eq_nil plain timesteps
    | cons other others =>
      cases kind : entry.operation.isTimestep <;> cases kind' : other.operation.isTimestep
      case true.true =>
        rw [plainOf_cons_of_timestep kind, plainOf_cons_of_timestep kind'] at plain
        rw [timestepsOf_cons_of_timestep kind, timestepsOf_cons_of_timestep kind'] at timesteps
        rw [timestepPlaces_cons_of_timestep kind, timestepPlaces_cons_of_timestep kind'] at places
        obtain ⟨same, timesteps⟩ := List.cons.inj timesteps
        rw [same, ih plain timesteps (List.cons.inj places).2]
      case false.false =>
        rw [plainOf_cons_of_plain kind, plainOf_cons_of_plain kind'] at plain
        rw [timestepsOf_cons_of_plain kind, timestepsOf_cons_of_plain kind'] at timesteps
        rw [timestepPlaces_cons_of_plain kind, timestepPlaces_cons_of_plain kind'] at places
        obtain ⟨same, plain⟩ := List.cons.inj plain
        rw [same, ih plain timesteps (List.map_injective_iff.mpr Nat.succ_injective places)]
      case true.false => exact absurd places (timestepPlaces_cons_ne kind kind')
      case false.true => exact absurd places.symm (timestepPlaces_cons_ne kind' kind)

end Entry

/-! ## Shifting one entry after the other -/

namespace ShiftedTo

open Entry

/-- Entries can be shifted in one way only. -/
lemma unique (one : ShiftedTo elapsed entries shifted)
    (other : ShiftedTo elapsed entries others) : shifted = others :=
  eq_of_timestepPlaces (one.plain.trans other.plain.symm)
    (one.timesteps.trans other.timesteps.symm) (one.places.trans other.places.symm)

/-- There is nothing to shift. -/
lemma nil : ShiftedTo elapsed [] [] := ⟨rfl, rfl, rfl⟩

/-- The last timestep goes behind nothing. -/
lemma last (timestep : marker.operation.isTimestep = true) :
    ShiftedTo elapsed [marker] [{ marker with start := elapsed + marker.stepLength }] := by
  constructor <;> simp [timestep]

/-- A timestep goes right in front of the next one, which begins its span where the first one
ends. -/
lemma next (timestep : marker.operation.isTimestep = true)
    (timestep' : entry.operation.isTimestep = true)
    (later : ShiftedTo (elapsed + marker.stepLength) (entry :: entries) shifted) :
    ShiftedTo elapsed (marker :: entry :: entries)
      ({ marker with start := elapsed + marker.stepLength } :: shifted) := by
  obtain ⟨plain, timesteps, places⟩ := later
  constructor
  case plain => simp [timestep, plain]
  case timesteps => simp [timestep, timesteps]
  case places => simp [timestep, timestep', places]

/-- Any other entry stays where it is, and a timestep that waits in front of it passes by.

**Proof sketch.** The timestep that waits, if there is one, moves its place by one and keeps
everything else. -/
lemma pass {held : Option Entry} (waits : ∀ marker ∈ held, marker.operation.isTimestep = true)
    (still : entry.operation.isTimestep = false)
    (later : ShiftedTo elapsed (held.toList ++ entries) shifted) :
    ShiftedTo elapsed (held.toList ++ entry :: entries) (entry :: shifted) := by
  obtain ⟨plain, timesteps, places⟩ := later
  cases held with
  | none =>
    rw [Option.toList_none, List.nil_append] at plain timesteps places ⊢
    constructor
    case plain => simp [still, plain]
    case timesteps => simp [still, timesteps]
    case places => simp [still, places]
  | some marker =>
    have timestep := waits marker rfl
    rw [Option.toList_some, List.singleton_append] at plain timesteps places ⊢
    constructor
    case plain => simp [still, plain, timestep]
    case timesteps => simp [still, timesteps, timestep]
    case places => simp [still, places, timestep]

end ShiftedTo

/-- Shifting makes of entries, behind the timestep that waits, what it should.

**Proof sketch.** Induction on the entries, with the timestep that waits as the first of those that
are left. Another timestep takes its place (`ShiftedTo.next`), and any other entry passes by
(`ShiftedTo.pass`). -/
theorem shiftedTo_shiftEntries {held : Option Entry}
    (waits : ∀ marker ∈ held, marker.operation.isTimestep = true) (elapsed : Tick)
    (entries : List Entry) :
    ShiftedTo elapsed (held.toList ++ entries) (shiftEntries held elapsed entries) := by
  -- The timestep that waits counts as the first of the entries that are left.
  induction entries generalizing held elapsed with
  | nil =>
    cases held with
    | none => exact .nil
    | some marker => exact .last (waits marker rfl)
  | cons entry entries ih =>
    cases kind : entry.operation.isTimestep with
    | false =>
      rw [shiftEntries_cons_of_plain held elapsed kind]
      exact .pass waits kind (ih waits elapsed)
    | true =>
      have next : ∀ marker ∈ some entry, marker.operation.isTimestep = true := by
        rintro marker ⟨⟩
        exact kind
      cases held with
      | none =>
        rw [shiftEntries_none_cons elapsed kind]
        exact ih next elapsed
      | some marker =>
        rw [shiftEntries_some_cons elapsed kind]
        exact .next (waits marker rfl) kind (ih next _)

/-! ## Shifting the boundaries of a schedule -/

namespace Schedule

/-- **Shifting boundaries.** Whatever the entries of a schedule are, shifting its boundaries leaves
all but the timesteps as they are and in their order. The timesteps stay in order, too, and nothing
but their starts changes: each starts at the sum of the lengths of all timesteps up to it, itself
included. Each stands where the next one stood among the other entries, and the last one behind all
of them. No other entries are like this. The cached duration is the latest end of the entries.
Machine numbers can hold all ticks that are computed exactly if they can hold this duration.

**Proof sketch.** Shifting does what it should (`shiftedTo_shiftEntries`), and timesteps, places
and the other entries determine a list (`ShiftedTo.unique`). The duration is computed as the
latest end. -/
theorem shiftBoundaries_shifts (schedule : Schedule) :
    ShiftedTo 0 schedule.entries schedule.shiftBoundaries.entries ∧
      (∀ shifted, ShiftedTo 0 schedule.entries shifted →
        shifted = schedule.shiftBoundaries.entries) ∧
      (∃ total, schedule.shiftBoundaries.cached = some total ∧
        (∀ entry ∈ schedule.shiftBoundaries.entries, entry.stop ≤ total) ∧
        (total = 0 ∨ ∃ entry ∈ schedule.shiftBoundaries.entries, entry.stop = total)) ∧
      ∀ limit, schedule.shiftBoundariesWithin limit = some schedule.shiftBoundaries ↔
        schedule.shiftBoundaries.total ≤ limit := by
  have shifts : ShiftedTo 0 schedule.entries schedule.shiftBoundaries.entries :=
    @shiftedTo_shiftEntries none (by rintro _ ⟨⟩) 0 schedule.entries
  refine ⟨shifts, fun shifted fits => fits.unique shifts,
    ⟨_, rfl, fun entry => stop_le_latestStop, ?_⟩, fun limit => shiftBoundariesWithin_eq_iff⟩
  exact (latest_eq_zero_or_mem _).imp_right List.mem_map.mp

/-- Two gates with timesteps in front of them and between them, at whatever ticks. -/
def interleaved : Schedule where
  name := "interleaved"
  layout := .physical 1
  entries := [.boundary 2 [0] 9 (some 4), ⟨.gate "x" [0], 0, 2, some 1⟩, .boundary 5 [0] 2,
    .boundary 3 [0] 2 (some 0), ⟨.gate "y" [0], 2, 5, some 2⟩]

/-- The first of the two timesteps that stand next to each other stays between the gates, and the
second one goes behind them. Ten ticks are needed. -/
theorem shiftBoundaries_shifts_interleaved :
    interleaved.shiftBoundaries.entries =
      [⟨.gate "x" [0], 0, 2, some 1⟩, .boundary 2 [0] 2 (some 4), .boundary 5 [0] 7,
        ⟨.gate "y" [0], 2, 5, some 2⟩, .boundary 3 [0] 10 (some 0)] ∧
      interleaved.shiftBoundariesWithin 10 = some interleaved.shiftBoundaries := by
  obtain ⟨-, only, -, within⟩ := shiftBoundaries_shifts interleaved
  refine ⟨(only _ ?shifted).symm, (within 10).mpr (by decide)⟩
  case shifted => exact ⟨rfl, rfl, rfl⟩

end Schedule

end Timetable
