import Timetable.Proofs.Reversal

/-!
# When timesteps can be shifted

Shifting moves each timestep behind the entries up to the next one, to the tick at which the
lengths of all timesteps so far end. That is where it belongs if it was made by a pass that
schedules in lock step. A timestep that was carried through another pass stands anywhere, and
there is one condition for the entries to still follow each other without a gap: behind the entries
up to the next timestep, its resources have to have come to exactly the tick it is moved to, and
none of these entries may have had to wait for it.

## Main definitions

* `Entry.FitsBehind` — a timestep can be moved behind the entries up to the next one.
* `ShiftFits` — all timesteps can be.

## Main results

* `tiles_shiftEntries` — if all timesteps fit, the entries end where they did before.
* `shiftFits_of_tiles` — if the entries still follow each other, all timesteps fit.
-/

set_option autoImplicit false

namespace Timetable

namespace Entry

/-- The length of the span that an entry closes; other entries than timesteps close none. -/
def stepLength (entry : Entry) : Tick := entry.operation.stepLength?.getD 0

/-- It does not matter which of two entries is taken first. -/
lemma advance_comm (entry other : Entry) (front : Resource → Tick) :
    entry.advance (other.advance front) = other.advance (entry.advance front) := by
  funext resource
  simp only [advance]
  split <;> split <;> lia

/-- The front behind some entries. -/
def advanceAll (entries : List Entry) (front : Resource → Tick) : Resource → Tick :=
  entries.foldl (fun front entry => entry.advance front) front

/-- The entries in front of the next timestep. -/
def beforeTimestep (entries : List Entry) : List Entry :=
  entries.takeWhile fun entry => !entry.operation.isTimestep

/-- A timestep can be moved behind the entries up to the next one, where `front` is how far the
entries before it take the resources, and `elapsed` how long the timesteps before it are: there its
resources have come to the end of its own length, and if it takes time itself, no entry in between
uses any of them. -/
def FitsBehind (front : Resource → Tick) (elapsed : Tick) (marker : Entry) (entries : List Entry) :
    Prop :=
  ∀ resource ∈ marker.resources,
    advanceAll (beforeTimestep entries) front resource = elapsed + marker.stepLength ∧
      (marker.duration = 0 ∨ ∀ entry ∈ beforeTimestep entries, resource ∉ entry.resources)

end Entry

/-- All timesteps can be moved behind the entries up to the next one, where `front` is how far the
entries before these take the resources, and `elapsed` how long the timesteps before them are. -/
def ShiftFits : (front : Resource → Tick) → (elapsed : Tick) → List Entry → Prop
  | _, _, [] => True
  | front, elapsed, entry :: entries =>
    (entry.operation.isTimestep = true → entry.FitsBehind front elapsed entries) ∧
      ShiftFits (entry.advance front) (elapsed + entry.stepLength) entries

instance (front : Resource → Tick) (elapsed : Tick) (marker : Entry) (entries : List Entry) :
    Decidable (marker.FitsBehind front elapsed entries) :=
  inferInstanceAs (Decidable (∀ resource ∈ marker.resources, _ ∧ (_ ∨ _)))

instance decidableShiftFits : (front : Resource → Tick) → (elapsed : Tick) →
    (entries : List Entry) → Decidable (ShiftFits front elapsed entries)
  | _, _, [] => .isTrue trivial
  | front, elapsed, entry :: entries =>
    have := decidableShiftFits (entry.advance front) (elapsed + entry.stepLength) entries
    inferInstanceAs (Decidable (_ ∧ _))

variable {numResources : Nat} {front last last' : Resource → Tick} {elapsed : Tick}
  {marker entry : Entry} {entries : List Entry}

/-! ## Shifting one entry after the other -/

/-- An entry that is no timestep closes no span. -/
lemma Entry.stepLength_of_plain (plain : entry.operation.isTimestep = false) :
    entry.stepLength = 0 := by
  cases operation : entry.operation <;>
    simp_all [stepLength, Operation.isTimestep, Operation.stepLength?]

/-- Shifting leaves an entry that is no timestep where it is. -/
lemma shiftEntries_cons_of_plain (held : Option Entry) (elapsed : Tick)
    (plain : entry.operation.isTimestep = false) (entries : List Entry) :
    shiftEntries held elapsed (entry :: entries) = entry :: shiftEntries held elapsed entries :=
  shiftEntries_append held elapsed entries (List.forall_mem_singleton.mpr plain)

/-- The first timestep waits for its place. -/
lemma shiftEntries_none_cons (elapsed : Tick) (timestep : entry.operation.isTimestep = true)
    (entries : List Entry) :
    shiftEntries none elapsed (entry :: entries) = shiftEntries (some entry) elapsed entries := by
  rw [shiftEntries, if_pos timestep]

/-- The timestep that waits has its place in front of the next one. -/
lemma shiftEntries_some_cons (elapsed : Tick) (timestep : entry.operation.isTimestep = true)
    (entries : List Entry) : shiftEntries (some marker) elapsed (entry :: entries) =
      { marker with start := elapsed + marker.stepLength } ::
        shiftEntries (some entry) (elapsed + marker.stepLength) entries := by
  rw [shiftEntries, if_pos timestep]
  rfl

namespace Entry

/-- A timestep fits behind nothing if its resources have come to the end of its length. -/
lemma fitsBehind_of_beforeTimestep_eq_nil (none : beforeTimestep entries = []) :
    FitsBehind front elapsed marker entries ↔
      ∀ resource ∈ marker.resources, front resource = elapsed + marker.stepLength := by
  simp [FitsBehind, none, advanceAll]

/-- A timestep fits behind one more entry if that does not have to wait for it, and if it fits
behind the others.

**Proof sketch.** The entries that are in front of the next timestep are this one and those behind
it. A marker that takes time fits behind them if it shares no resource with any of them, and the
front it has to meet is the one behind all of them. -/
lemma fitsBehind_cons (plain : entry.operation.isTimestep = false) :
    FitsBehind front elapsed marker (entry :: entries) ↔
      (marker.duration = 0 ∨ ∀ resource ∈ marker.resources, resource ∉ entry.resources) ∧
        FitsBehind (entry.advance front) elapsed marker entries := by
  have first : beforeTimestep (entry :: entries) = entry :: beforeTimestep entries := by
    simp [beforeTimestep, plain]
  simp only [FitsBehind, first, advanceAll, List.foldl_cons, List.forall_mem_cons]
  constructor
  · intro fits
    refine ⟨?apart, ?later⟩
    case later =>
      intro resource used
      obtain ⟨shared, bounds⟩ := fits resource used
      exact ⟨shared, bounds.imp_right And.right⟩
    case apart =>
      by_cases instant : marker.duration = 0
      · exact .inl instant
      · exact .inr fun resource used => ((fits resource used).2.resolve_left instant).1
  · rintro ⟨apart, fits⟩ resource used
    refine ⟨(fits resource used).1, ?_⟩
    rcases apart with instant | apart
    · exact .inl instant
    · exact (fits resource used).2.imp_right fun others => ⟨apart resource used, others⟩

end Entry

/-- Shifting makes no new operations.

**Proof sketch.** Induction on the entries. What comes out is an entry that passed, or the timestep
that was held, with another start. -/
lemma exists_of_mem_shiftEntries {held : Option Entry}
    (member : entry ∈ shiftEntries held elapsed entries) :
    ∃ before, (held = some before ∨ before ∈ entries) ∧ entry.operation = before.operation := by
  induction entries generalizing held elapsed with
  | nil =>
    cases held with
    | none => cases member
    | some marker =>
      obtain rfl := List.mem_singleton.mp member
      exact ⟨marker, .inl rfl, rfl⟩
  | cons other entries ih =>
    by_cases timestep : other.operation.isTimestep = true
    · cases held with
      | none =>
        rw [shiftEntries_none_cons elapsed timestep] at member
        obtain ⟨before, among | among, same⟩ := ih member
        · exact ⟨before, .inr (Option.some.inj among ▸ List.mem_cons_self), same⟩
        · exact ⟨before, .inr (List.mem_cons_of_mem _ among), same⟩
      | some marker =>
        rw [shiftEntries_some_cons elapsed timestep] at member
        rcases List.mem_cons.mp member with rfl | member
        · exact ⟨marker, .inl rfl, rfl⟩
        · obtain ⟨before, among | among, same⟩ := ih member
          · exact ⟨before, .inr (Option.some.inj among ▸ List.mem_cons_self), same⟩
          · exact ⟨before, .inr (List.mem_cons_of_mem _ among), same⟩
    · have plain : other.operation.isTimestep = false := by simpa using timestep
      rw [shiftEntries_cons_of_plain _ elapsed plain] at member
      rcases List.mem_cons.mp member with rfl | member
      · exact ⟨entry, .inr List.mem_cons_self, rfl⟩
      · obtain ⟨before, among, same⟩ := ih member
        exact ⟨before, among.imp_right (List.mem_cons_of_mem _), same⟩

/-- Shifting the boundaries among entries leaves the operation of every entry as it is. -/
lemma operation_of_mem_shiftEntries (member : entry ∈ shiftEntries none elapsed entries) :
    ∃ before ∈ entries, entry.operation = before.operation := by
  obtain ⟨before, held | among, same⟩ := exists_of_mem_shiftEntries member
  · cases held
  · exact ⟨before, among, same⟩

/-! ## Fitting is enough -/

/-- A timestep that waits and those behind it can be shifted if they fit.

**Proof sketch.** Induction on the entries. At the end or in front of the next timestep, the one
that waits comes out where it fits. An entry in between moves in front of the timestep; it starts
where its resources have come to, since on no resource had it to wait for the timestep. The order of
the two does not matter for the front behind them (`Entry.advance_comm`). -/
lemma tiles_shiftEntries_some (tiles : Tiles numResources (marker.advance front) entries last)
    (declared : ∀ resource ∈ marker.resources, resource < numResources)
    (fits : marker.FitsBehind front elapsed entries)
    (later : ShiftFits (marker.advance front) (elapsed + marker.stepLength) entries) :
    Tiles numResources front (shiftEntries (some marker) elapsed entries) last := by
  induction entries generalizing marker front elapsed with
  | nil =>
    have here := (Entry.fitsBehind_of_beforeTimestep_eq_nil rfl).mp fits
    exact ⟨fun resource used => ⟨declared resource used, here resource used⟩, tiles⟩
  | cons entry entries ih =>
    obtain ⟨placed, rest⟩ := tiles
    by_cases timestep : entry.operation.isTimestep = true
    · have none : Entry.beforeTimestep (entry :: entries) = [] := by
        simp [Entry.beforeTimestep, timestep]
      have here := (Entry.fitsBehind_of_beforeTimestep_eq_nil none).mp fits
      rw [shiftEntries_some_cons elapsed timestep]
      refine ⟨fun resource used => ⟨declared resource used, here resource used⟩, ?_⟩
      exact ih rest (fun resource used => (placed resource used).1) (later.1 timestep) later.2
    · have plain : entry.operation.isTimestep = false := by simpa using timestep
      obtain ⟨apart, fits⟩ := (Entry.fitsBehind_cons plain).mp fits
      rw [shiftEntries_cons_of_plain _ elapsed plain]
      rw [Entry.advance_comm] at rest
      have later := later.2
      rw [Entry.advance_comm, Entry.stepLength_of_plain plain, Nat.add_zero] at later
      refine ⟨?_, ih rest declared fits later⟩
      intro resource used
      obtain ⟨inside, start⟩ := placed resource used
      refine ⟨inside, start ▸ ?_⟩
      -- the entry did not wait for the timestep, which is not in front of it any more
      by_cases both : resource ∈ marker.resources
      · have instant := apart.resolve_right fun apart => apart resource both used
        rw [Entry.advance_of_mem both, instant, Nat.add_zero]
      · rw [Entry.advance_of_notMem both]

/-- Entries that follow each other still do so, and end at the same front, if all timesteps among
them fit where they are moved to.

**Proof sketch.** Induction on the entries. A timestep is held and comes out later
(`tiles_shiftEntries_some`); any other entry stays. -/
theorem tiles_shiftEntries (tiles : Tiles numResources front entries last)
    (fits : ShiftFits front elapsed entries) :
    Tiles numResources front (shiftEntries none elapsed entries) last := by
  induction entries generalizing front elapsed with
  | nil => exact tiles
  | cons entry entries ih =>
    obtain ⟨placed, rest⟩ := tiles
    by_cases timestep : entry.operation.isTimestep = true
    · rw [shiftEntries_none_cons elapsed timestep]
      exact tiles_shiftEntries_some rest (fun resource used => (placed resource used).1)
        (fits.1 timestep) fits.2
    · have plain : entry.operation.isTimestep = false := by simpa using timestep
      have later := fits.2
      rw [Entry.stepLength_of_plain plain, Nat.add_zero] at later
      rw [shiftEntries_cons_of_plain _ elapsed plain]
      exact ⟨placed, ih rest later⟩

/-! ## Fitting is necessary -/

/-- If entries behind a timestep that waits still follow each other, it fits, and so do those
behind it.

**Proof sketch.** Induction on the entries, as in `tiles_shiftEntries_some`. Where the timestep
comes out, the shifted tiling tells that it starts where its resources have come to. An entry that
it shares a resource with starts at the same front with and without the timestep in front of it, so
the timestep takes no time. -/
lemma fitsBehind_of_tiles (tiles : Tiles numResources (marker.advance front) entries last)
    (shifted : Tiles numResources front (shiftEntries (some marker) elapsed entries) last') :
    marker.FitsBehind front elapsed entries ∧
      ShiftFits (marker.advance front) (elapsed + marker.stepLength) entries := by
  induction entries generalizing marker front elapsed with
  | nil =>
    refine ⟨(Entry.fitsBehind_of_beforeTimestep_eq_nil rfl).mpr fun resource used => ?_, trivial⟩
    exact (shifted.1 resource used).2
  | cons entry entries ih =>
    obtain ⟨placed, rest⟩ := tiles
    by_cases timestep : entry.operation.isTimestep = true
    · rw [shiftEntries_some_cons elapsed timestep] at shifted
      obtain ⟨moved, shifted⟩ := shifted
      have none : Entry.beforeTimestep (entry :: entries) = [] := by
        simp [Entry.beforeTimestep, timestep]
      obtain ⟨fits, later⟩ := ih rest shifted
      refine ⟨(Entry.fitsBehind_of_beforeTimestep_eq_nil none).mpr fun resource used => ?_,
        fun _ => fits, later⟩
      exact (moved resource used).2
    · have plain : entry.operation.isTimestep = false := by simpa using timestep
      rw [shiftEntries_cons_of_plain _ elapsed plain] at shifted
      obtain ⟨placed', shifted⟩ := shifted
      rw [Entry.advance_comm] at rest
      obtain ⟨fits, later⟩ := ih rest shifted
      refine ⟨(Entry.fitsBehind_cons plain).mpr ⟨?_, fits⟩, fun again => absurd again timestep, ?_⟩
      · refine or_iff_not_imp_left.mpr ?_
        intro takes_time resource both used
        have with_marker := (placed resource used).2
        rw [Entry.advance_of_mem both, ← (placed' resource used).2] at with_marker
        exact takes_time (Nat.add_eq_left.mp with_marker)
      · rwa [Entry.advance_comm, Entry.stepLength_of_plain plain, Nat.add_zero]

/-- If entries that follow each other still do so after shifting, all timesteps among them fit where
they are moved to.

**Proof sketch.** Induction on the entries; what is said about a timestep that is held is
`fitsBehind_of_tiles`. -/
theorem shiftFits_of_tiles (tiles : Tiles numResources front entries last)
    (shifted : Tiles numResources front (shiftEntries none elapsed entries) last') :
    ShiftFits front elapsed entries := by
  induction entries generalizing front elapsed with
  | nil => trivial
  | cons entry entries ih =>
    obtain ⟨placed, rest⟩ := tiles
    by_cases timestep : entry.operation.isTimestep = true
    · rw [shiftEntries_none_cons elapsed timestep] at shifted
      obtain ⟨fits, later⟩ := fitsBehind_of_tiles rest shifted
      exact ⟨fun _ => fits, later⟩
    · have plain : entry.operation.isTimestep = false := by simpa using timestep
      rw [shiftEntries_cons_of_plain _ elapsed plain] at shifted
      refine ⟨fun again => absurd again timestep, ?_⟩
      rw [Entry.stepLength_of_plain plain, Nat.add_zero]
      exact ih rest shifted.2

end Timetable
