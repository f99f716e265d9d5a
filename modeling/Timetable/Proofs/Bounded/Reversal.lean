import Timetable.Proofs.Bounded.Timeline
import Timetable.Proofs.Reversal

/-!
# Schedules brought back within a limit

An entry that is turned around starts as long after tick zero as it ended before the end of the
schedule. No entry ends behind that end, so nothing is ever taken from less. Shifting boundaries
adds up lengths of timesteps, and writes every sum that it computes into an entry.

## Main definitions

* `Reversal.bringBackWithin`, `Schedule.shiftBoundariesWithin`, `Policy.concludeWithin` — bringing a
  schedule back, with arithmetic within a limit.

## Main results

* `Reversal.bringBackWithin_eq` — a sealed schedule within the limit can be turned around.
* `Schedule.shiftBoundariesWithin_eq_iff` — boundaries can be shifted if the outcome is within the
  limit.
* `Policy.concludeWithin_eq` — what bringing a schedule back needs.
-/

set_option autoImplicit false

namespace Timetable

variable {limit : Tick}

/-- The duration of a schedule: the cached one, else the latest end of the entries, with arithmetic
within a limit. -/
def Schedule.durationWithin (limit : Tick) (schedule : Schedule) : Option Tick :=
  match schedule.cached with
  | some total => some total
  | none => latestStopWithin limit schedule.entries

/-! ## Turning entries around -/

namespace Reversal

/-- Brings entries of the reversed program back, one after the other, with arithmetic within a
limit. -/
def bringBackEntriesWithin (limit : Tick) (reversal : Reversal) (total : Tick) :
    List Entry → Program → Option (Program × Option (List Entry))
  | [], program => some (program, some [])
  | entry :: entries, program => do
    let stop ← entry.stopWithin limit
    let start ← Tick.sub? total stop
    let moved (source : Option OpId) : Entry := { entry with start, source }
    match entry.source with
    | none =>
      let (program, rest) ← reversal.bringBackEntriesWithin limit total entries program
      return (program, rest.map (moved none :: ·))
    | some id =>
      match reversal.origin? id with
      | none => return (program, none)
      | some origin =>
        match program.record? origin entry.duration with
        | none => return (program, none)
        | some (_, program) =>
          let (program, rest) ← reversal.bringBackEntriesWithin limit total entries program
          return (program, rest.map (moved (some origin) :: ·))

/-- Brings a schedule of the reversed program back to the given program, with arithmetic within a
limit. -/
def bringBackWithin (limit : Tick) (reversal : Reversal) (schedule : Schedule)
    (program : Program) : Option (Program × Option Schedule) := do
  let total ← schedule.durationWithin limit
  let (program, entries) ←
    reversal.bringBackEntriesWithin limit total schedule.entries.reverse program
  match entries with
  | none => return (program, none)
  | some entries =>
    let schedule ← Schedule.sealedForWithin limit program entries schedule.anomalies
    return (program, some schedule)

variable {reversal : Reversal} {total : Tick} {entries : List Entry} {schedule : Schedule}

/-- Entries that end within a span of time can be brought back.

**Proof sketch.** Induction on the entries. All of them end within the total, so the end of each can
be computed and taken from the total; where the translation of the sources fails, it fails on both
sides. -/
lemma bringBackEntriesWithin_eq (fits : total ≤ limit) (ends : ∀ entry ∈ entries,
    entry.stop ≤ total) (program : Program) :
    reversal.bringBackEntriesWithin limit total entries program =
      some (reversal.bringBackEntries total entries program) := by
  induction entries generalizing program with
  | nil => rfl
  | cons entry entries ih =>
    obtain ⟨first, ends⟩ := List.forall_mem_cons.mp ends
    have stop : entry.stopWithin limit = some entry.stop := Tick.add?_eq (first.trans fits)
    unfold bringBackEntriesWithin bringBackEntries
    simp only [stop, Tick.sub?_eq first, Option.bind_eq_bind, Option.bind_some]
    cases entry.source with
    | none =>
      dsimp only
      rw [ih ends]
      rfl
    | some id =>
      dsimp only
      cases reversal.origin? id with
      | none => rfl
      | some origin =>
        dsimp only
        cases program.record? origin entry.duration with
        | none => rfl
        | some recorded =>
          dsimp only
          rw [ih ends]
          rfl

/-- Entries that end within a span of time still do when they are turned around in it. -/
lemma latestStop_mirrored_le (ends : ∀ entry ∈ entries, entry.stop ≤ total)
    (origin : OpId → Option OpId) :
    latestStop (entries.map (Entry.mirrored total origin)) ≤ total := by
  refine latestStop_le_iff.mpr fun moved member => ?_
  obtain ⟨entry, found, rfl⟩ := List.mem_map.mp member
  have stop := ends entry found
  show total - entry.stop + entry.duration ≤ total
  have stops : entry.start + entry.duration = entry.stop := rfl
  lia

/-- A schedule that comes back consists of the entries turned around. -/
lemma entries_bringBack {program : Program} {moved : Schedule}
    (back : (reversal.bringBack schedule program).2 = some moved) :
    moved.entries = reversal.turned schedule := by
  obtain ⟨entries, found, rfl⟩ := Option.map_eq_some_iff.mp back
  exact bringBackEntries_eq_some found

/-- A sealed schedule within the limit can be brought back.

**Proof sketch.** The duration that is used is the latest end, so every entry can be turned around
within it (`bringBackEntriesWithin_eq`), and entries that are turned around end within it again, so
the result can be sealed. -/
theorem bringBackWithin_eq (within : schedule.Within limit) (reversal : Reversal)
    (program : Program) : reversal.bringBackWithin limit schedule program =
      some (reversal.bringBack schedule program) := by
  obtain ⟨cached, fits⟩ := within
  have ends : ∀ entry ∈ schedule.entries.reverse, entry.stop ≤ schedule.total :=
    fun entry member => stop_le_latestStop (List.mem_reverse.mp member)
  have total : schedule.durationWithin limit = some schedule.total := by
    rw [Schedule.durationWithin, cached]
  unfold bringBackWithin bringBack
  rw [total, Schedule.duration_of_cached cached, Option.bind_eq_bind, Option.bind_some,
    bringBackEntriesWithin_eq fits ends, Option.bind_eq_bind, Option.bind_some]
  cases back : reversal.bringBackEntries schedule.total schedule.entries.reverse program with
  | mk program moved =>
    cases moved with
    | none => rfl
    | some moved =>
      have turned := bringBackEntries_eq_some (congrArg Prod.snd back)
      have stops : latestStop moved ≤ limit := by
        rw [turned]
        exact (latestStop_mirrored_le ends reversal.origin?).trans fits
      dsimp only
      rw [Schedule.sealedForWithin_eq stops]
      rfl

end Reversal

/-! ## Shifting boundaries -/

/-- Moves each timestep in front of the next one, and the last one to the end, with arithmetic
within a limit. -/
def shiftEntriesWithin (limit : Tick) :
    (held : Option Entry) → (elapsed : Tick) → List Entry → Option (List Entry)
  | none, _, [] => some []
  | some marker, elapsed, [] => do
    let stop ← Tick.add? limit elapsed (marker.operation.stepLength?.getD 0)
    return [{ marker with start := stop }]
  | held, elapsed, entry :: entries =>
    if entry.operation.isTimestep then
      match held with
      | none => shiftEntriesWithin limit (some entry) elapsed entries
      | some marker => do
        let stop ← Tick.add? limit elapsed (marker.operation.stepLength?.getD 0)
        let others ← shiftEntriesWithin limit (some entry) stop entries
        return { marker with start := stop } :: others
    else do
      let others ← shiftEntriesWithin limit held elapsed entries
      return entry :: others

/-- Moves each timestep behind the step in front of which it stands, with arithmetic within a
limit. -/
def Schedule.shiftBoundariesWithin (limit : Tick) (schedule : Schedule) : Option Schedule := do
  let entries ← shiftEntriesWithin limit none 0 schedule.entries
  let total ← latestStopWithin limit entries
  return { schedule.withEntries entries with cached := some total }

/-- Boundaries can be shifted if nothing starts behind the limit then.

**Proof sketch.** Induction on the entries. The only sum that is computed is the new start of the
boundary that is held, when the next one comes or at the end, and this start is that of an entry of
the result. -/
lemma shiftEntriesWithin_eq {held : Option Entry} {elapsed : Tick} {entries : List Entry}
    (fits : ∀ entry ∈ shiftEntries held elapsed entries, entry.start ≤ limit) :
    shiftEntriesWithin limit held elapsed entries = some (shiftEntries held elapsed entries) := by
  induction entries generalizing held elapsed with
  | nil =>
    cases held with
    | none => rfl
    | some marker =>
      have stop := List.forall_mem_singleton.mp fits
      rw [shiftEntriesWithin, Tick.add?_eq stop]
      rfl
  | cons entry entries ih =>
    by_cases timestep : entry.operation.isTimestep = true
    · cases held with
      | none =>
        simp only [shiftEntries, shiftEntriesWithin, if_pos timestep] at fits ⊢
        exact ih fits
      | some marker =>
        simp only [shiftEntries, shiftEntriesWithin, if_pos timestep] at fits ⊢
        obtain ⟨stop, fits⟩ := List.forall_mem_cons.mp fits
        rw [Tick.add?_eq stop, Option.bind_eq_bind, Option.bind_some, ih fits]
        rfl
    · have passes : shiftEntries held elapsed (entry :: entries) =
          entry :: shiftEntries held elapsed entries := by
        cases held <;> exact if_neg timestep
      have passes_within : shiftEntriesWithin limit held elapsed (entry :: entries) =
          (shiftEntriesWithin limit held elapsed entries).bind fun others =>
            some (entry :: others) := by
        cases held <;> exact if_neg timestep
      rw [passes] at fits ⊢
      rw [passes_within, ih (List.forall_mem_cons.mp fits).2, Option.bind_some]

/-- The boundaries of a schedule can be shifted if it ends within the limit then. -/
lemma Schedule.shiftBoundariesWithin_eq {schedule : Schedule}
    (fits : latestStop (shiftEntries none 0 schedule.entries) ≤ limit) :
    schedule.shiftBoundariesWithin limit = some schedule.shiftBoundaries := by
  have starts : ∀ entry ∈ shiftEntries none 0 schedule.entries, entry.start ≤ limit :=
    fun entry member => (Nat.le_add_right _ _).trans (latestStop_le_iff.mp fits entry member)
  rw [shiftBoundariesWithin, shiftEntriesWithin_eq starts, Option.bind_eq_bind, Option.bind_some,
    latestStopWithin_eq fits]
  rfl

/-- That is when the boundaries of a schedule can be shifted.

**Proof sketch.** One direction is `shiftBoundariesWithin_eq`. Conversely, a result was sealed, for
which the latest end of its entries had to be computed, and this end is that of the shifted
schedule. -/
theorem Schedule.shiftBoundariesWithin_eq_iff {schedule : Schedule} :
    schedule.shiftBoundariesWithin limit = some schedule.shiftBoundaries ↔
      schedule.shiftBoundaries.total ≤ limit := by
  refine ⟨fun computed => ?_, shiftBoundariesWithin_eq⟩
  obtain ⟨entries, -, rest⟩ := Option.bind_eq_some_iff.mp computed
  obtain ⟨total, ends, same⟩ := Option.bind_eq_some_iff.mp rest
  have made : entries = schedule.shiftBoundaries.entries :=
    congrArg Schedule.entries (Option.some.inj same)
  exact latestStop_le_of_latestStopWithin (made ▸ ends)

/-! ## Concluding a pass with time running backwards -/

namespace Policy

/-- Brings the schedule of a reversed program back, and repairs the boundaries of lock-step time,
with arithmetic within a limit. -/
def concludeWithin (limit : Tick) (reversal : Reversal) (resolution : Resolution) (inner : Run) :
    Option Run :=
  match inner.result with
  | .error e => some { result := .error e, program := resolution.program, notes := inner.notes }
  | .ok schedule => do
    let (program, broughtBack) ← reversal.bringBackWithin limit schedule resolution.program
    match broughtBack with
    | none => return { program, notes := inner.notes, result := .error .unknownOperation }
    | some schedule =>
      let shifted ←
        if schedule.timesteps.isEmpty then some schedule else schedule.shiftBoundariesWithin limit
      return { program, notes := inner.notes, result := .ok (shifted.warn resolution.anomalies) }

/-- A schedule within the limit can be brought back if it is within the limit then, and it is sealed
then, too.

**Proof sketch.** The inner schedule can be brought back because it is within the limit. What is
brought back has the entries turned around, and if these are shifted they end within the limit by
assumption, so that shifting can be computed, too. The schedule that comes out has the shifted
entries. -/
theorem concludeWithin_eq {reversal : Reversal} {resolution : Resolution} {inner : Run}
    (fits : ∀ schedule, inner.result = .ok schedule → schedule.Within limit ∧
      latestStop (shiftEntries none 0 (reversal.turned schedule)) ≤ limit) :
    concludeWithin limit reversal resolution inner = some (conclude reversal resolution inner) ∧
      ∀ schedule, (conclude reversal resolution inner).result = .ok schedule →
        schedule.Within limit := by
  refine ⟨?_, fun schedule ok => ?_⟩
  · unfold concludeWithin conclude
    cases result : inner.result with
    | error e => rfl
    | ok schedule =>
      obtain ⟨within, ends⟩ := fits schedule result
      dsimp only
      rw [Reversal.bringBackWithin_eq within, Option.bind_eq_bind, Option.bind_some]
      cases back : reversal.bringBack schedule resolution.program with
      | mk program moved =>
        cases moved with
        | none => rfl
        | some moved =>
          have turned := Reversal.entries_bringBack (congrArg Prod.snd back)
          rw [← turned] at ends
          dsimp only
          split
          · rfl
          · rw [Schedule.shiftBoundariesWithin_eq ends]
            rfl
  · obtain ⟨reversed, result, -, cached, entries⟩ := conclude_eq_ok ok
    refine ⟨cached, ?_⟩
    rw [Schedule.total, entries]
    exact (fits reversed result).2

end Policy

end Timetable
