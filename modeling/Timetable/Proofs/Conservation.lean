import Timetable.Proofs.LockStep.Order
import Timetable.Proofs.LockStep.Structure

/-!
# Nothing is lost, nothing is doubled

Outside of lock step every operation has a single entry: the forward pass places each operation
once, and turning its entries around and shifting boundaries only changes where entries stand. In
lock step a delay may be split, and timesteps become boundaries. Whatever else a schedule contains
fills gaps or bounds steps.

## Main definitions

* `Program.Conserved` — every operation is kept, and other entries fill gaps or bound steps.
* `Entry.unplaced` — an entry regardless of where it stands.

## Main results

* `shiftEntries_perm` — shifting boundaries changes nothing but places.
* `Program.schedule_conserves` — all four methods conserve the program.
-/

set_option autoImplicit false

namespace Timetable

/-- Entries conserve a program. Of each operation, given with its number and its effective duration,
its parts are `kept`; the entries that were made from no operation fill gaps or are boundaries on
all resources. -/
structure Program.Conserved (program : Program) (table : DurationTable)
    (kept : Operation → OpId → Tick → List Entry → Prop) (entries : List Entry) : Prop where
  kept : ∀ id < program.size, ∃ operation ticks, program.operation? id = some operation ∧
    program.duration? table id = some ticks ∧ kept operation id ticks (partsOf id entries)
  known : ∀ entry ∈ entries, ∀ id, entry.source = some id → id < program.size
  unsourced : ∀ entry ∈ entries, entry.source = none → entry.FillsGap ∨
    ∃ length stop, entry = .boundary length (List.range program.numResources) stop

/-- An entry regardless of where it stands. -/
def Entry.unplaced (entry : Entry) : Entry := { entry with start := 0 }

variable {program : Program} {table : DurationTable} {rule : DelayRule} {schedule : Schedule}
  {settings : Settings} {entries : List Entry} {entry other : Entry} {id : OpId} {ticks : Tick}
  {operation : Operation} {parts : List Entry} {job : Job} {jobs : List Job}

/-! ## The forward pass -/

namespace Front

variable {precedence : Precedence} {front : Front}

/-- Placing an operation adds its entry to its parts. -/
lemma partsOf_place (precedence : Precedence) (front : Front) (job : Job) (id : OpId) :
    partsOf id (place precedence front job).entries = partsOf id front.entries ++
      partsOf id [⟨job.operation, front.due precedence job, job.ticks, some job.id⟩] := by
  rw [entries_place, partsOf_append, partsOf_append, partsOf_gaps, List.append_nil]

/-- Placing other operations adds no parts. -/
lemma partsOf_foldl_place (fresh : id ∉ jobs.map Job.id) :
    partsOf id (jobs.foldl (place precedence) front).entries = partsOf id front.entries := by
  induction jobs generalizing front with
  | nil => rfl
  | cons job jobs ih =>
    rw [List.map_cons, List.mem_cons, not_or] at fresh
    obtain ⟨distinct, fresh⟩ := fresh
    have no_part := @partsOf_singleton_ne id
      ⟨job.operation, front.due precedence job, job.ticks, some job.id⟩
      fun same => distinct (Option.some.inj same).symm
    rw [List.foldl_cons, ih fresh, partsOf_place, no_part, List.append_nil]

/-- Every operation is placed once.

**Proof sketch.** Induction on the jobs. The operation is placed once, when its job comes up;
placing other jobs adds no part of it. -/
lemma keptWhole_foldl_place (nodup : (jobs.map Job.id).Nodup) (among : job ∈ jobs)
    (fresh : partsOf job.id front.entries = []) :
    job.operation.KeptWhole job.id job.ticks
      (partsOf job.id (jobs.foldl (place precedence) front).entries) := by
  induction jobs generalizing front with
  | nil => cases among
  | cons first jobs ih =>
    obtain ⟨apart, nodup⟩ := List.nodup_cons.mp nodup
    rw [List.foldl_cons]
    rcases List.mem_cons.mp among with rfl | among
    · refine ⟨front.due precedence job, ?_⟩
      rw [partsOf_foldl_place apart, partsOf_place, fresh, List.nil_append]
      exact partsOf_singleton_self rfl
    · have distinct : job.id ≠ first.id := fun same =>
        apart (same ▸ List.mem_map_of_mem among)
      refine ih nodup among ?_
      rw [partsOf_place, fresh, List.nil_append]
      exact partsOf_singleton_ne fun same => distinct (Option.some.inj same).symm

end Front

/-- The forward pass conserves the program, and all of its entries without a source fill gaps.

**Proof sketch.** The jobs of the pass are the operations in topological order, each of them once.
Placing a job writes idle time, which fills a gap, and one entry for the operation; so every
operation has exactly its own entry among those that are placed, and closing adds idle time only. -/
lemma Program.conserved_forward (wellFormed : program.WellFormed)
    (ok : (program.forward table).result = .ok schedule) :
    program.Conserved table Operation.KeptWhole schedule.entries ∧
      ∀ entry ∈ schedule.entries, entry.source = none → entry.FillsGap := by
  obtain ⟨order, physical, ordered, resolves, rfl⟩ := forward_eq_ok ok
  have perm := wellFormed.toClosed.perm_of_order ordered
  have inside := wellFormed.toClosed.lt_size_of_order ordered
  have ids := ids_of_resolve inside resolves
  have unsourced : ∀ entry ∈ (Front.after program (program.resolve table order).jobs).closed,
      entry.source = none → entry.FillsGap := by
    intro entry member none
    rcases Front.written_of_mem_closed member with fills | ⟨job, -, -, -, source⟩
    · exact fills
    · cases none.symm.trans source
  refine ⟨⟨fun id smaller => ?kept, fun entry member id source => ?known, fun entry member none =>
    .inl (unsourced entry member none)⟩, unsourced⟩
  case kept =>
    have visited : id ∈ order := perm.mem_iff.mpr (List.mem_range.mpr smaller)
    rw [← ids] at visited
    obtain ⟨job, among, rfl⟩ := List.mem_map.mp visited
    obtain ⟨-, operation, ticks⟩ := mem_jobs among
    have nodup : ((program.resolve table order).jobs.map Job.id).Nodup := by
      rw [ids]
      exact perm.nodup_iff.mpr List.nodup_range
    refine ⟨_, _, operation, ticks, ?_⟩
    show job.operation.KeptWhole job.id job.ticks (partsOf job.id (Front.closed _))
    rw [Front.closed, partsOf_append, partsOf_gaps, List.append_nil]
    exact Front.keptWhole_foldl_place nodup among rfl
  case known =>
    rcases Front.written_of_mem_closed member with fills | ⟨job, among, -, -, source'⟩
    · obtain ⟨_, _, _, -, rfl⟩ := fills
      cases source
    · cases source.symm.trans source'
      exact inside job.id (mem_jobs among).1

/-! ## Shifting boundaries -/

/-- Shifting boundaries changes nothing but the places of entries.

**Proof sketch.** Induction on the entries. A boundary that is held comes out when the next one
takes its place or at the end; other entries pass through in front of it. -/
theorem shiftEntries_perm (held : Option Entry) (elapsed : Tick) (entries : List Entry) :
    ((shiftEntries held elapsed entries).map Entry.unplaced).Perm
      ((held.toList ++ entries).map Entry.unplaced) := by
  induction entries generalizing held elapsed with
  | nil => cases held <;> exact .refl _
  | cons entry entries ih =>
    by_cases timestep : entry.operation.isTimestep = true
    · cases held with
      | none =>
        rw [shiftEntries_none_cons elapsed timestep]
        exact ih (some entry) elapsed
      | some marker =>
        rw [shiftEntries_some_cons elapsed timestep]
        exact (ih (some entry) _).cons marker.unplaced
    · have plain : entry.operation.isTimestep = false := by simpa using timestep
      rw [shiftEntries_cons_of_plain held elapsed plain]
      exact ((ih held elapsed).cons entry.unplaced).trans (List.perm_middle.map _).symm

/-- A shifted entry is one of the entries, regardless of where it stands. -/
lemma exists_unplaced_of_mem_shiftEntries {elapsed : Tick}
    (member : entry ∈ shiftEntries none elapsed entries) :
    ∃ before ∈ entries, before.unplaced = entry.unplaced :=
  List.mem_map.mp
    ((shiftEntries_perm none elapsed entries).mem_iff.mp (List.mem_map_of_mem member))

/-- The parts of an operation do not depend on where entries stand. -/
lemma partsOf_map_unplaced (id : OpId) (entries : List Entry) :
    partsOf id (entries.map Entry.unplaced) = (partsOf id entries).map Entry.unplaced :=
  List.filter_map

/-- Whether an operation is kept whole does not depend on where its entry stands. -/
lemma Operation.keptWhole_iff : operation.KeptWhole id ticks parts ↔
    parts.map Entry.unplaced = [⟨operation, 0, ticks, some id⟩] := by
  constructor
  · rintro ⟨start, rfl⟩
    rfl
  · intro single
    obtain ⟨⟨operation, start, duration, source⟩, rfl, same⟩ := List.map_eq_singleton_iff.mp single
    cases same
    exact ⟨start, rfl⟩

/-- Neither does whether an entry fills a gap. -/
lemma Entry.FillsGap.of_unplaced (fills : other.FillsGap)
    (same : entry.unplaced = other.unplaced) : entry.FillsGap := by
  obtain ⟨resource, start, duration, positive, rfl⟩ := fills
  obtain ⟨operation, start', duration', source⟩ := entry
  cases same
  exact ⟨resource, start', duration, positive, rfl⟩

/-- Shifting boundaries conserves what was conserved.

**Proof sketch.** Up to their places the entries are the same (`shiftEntries_perm`), and neither the
single entry of an operation nor idle time that fills a gap is told apart by its place. -/
lemma Program.Conserved.shiftEntries
    (conserved : program.Conserved table Operation.KeptWhole entries)
    (unsourced : ∀ entry ∈ entries, entry.source = none → entry.FillsGap) :
    program.Conserved table Operation.KeptWhole (Timetable.shiftEntries none 0 entries) := by
  refine ⟨fun id inside => ?kept, fun entry member id source => ?known,
    fun entry member none => ?unsourced⟩
  case kept =>
    obtain ⟨operation, ticks, found, lasts, kept⟩ := conserved.kept id inside
    refine ⟨operation, ticks, found, lasts, Operation.keptWhole_iff.mpr ?_⟩
    have parts := (shiftEntries_perm none 0 entries).filter fun entry => entry.source = some id
    change (partsOf id _).Perm (partsOf id _) at parts
    rw [partsOf_map_unplaced, partsOf_map_unplaced] at parts
    exact (parts.trans (.of_eq (Operation.keptWhole_iff.mp kept))).eq_singleton
  case known =>
    obtain ⟨before, found, same⟩ := exists_unplaced_of_mem_shiftEntries member
    exact conserved.known before found id ((congrArg Entry.source same).trans source)
  case unsourced =>
    obtain ⟨before, found, same⟩ := exists_unplaced_of_mem_shiftEntries member
    have fills := unsourced before found ((congrArg Entry.source same).trans none)
    exact .inl (fills.of_unplaced same.symm)

/-! ## Turning entries around -/

/-- Turned around, what conserves the reversal conserves the program.

**Proof sketch.** An entry of the reversal made from some place is turned into one made from the
operation at the opposite place, so the parts of an operation are those of its opposite turned
around (`partsOf_mirrored`). An entry without a source has none afterwards, and one that had a
source keeps one, since every place comes from an operation. -/
lemma Program.ReversedBy.conserved {reversal : Reversal}
    (reversed : program.ReversedBy table reversal)
    (conserved : reversal.program.Conserved table Operation.KeptWhole entries)
    (unsourced : ∀ entry ∈ entries, entry.source = none → entry.FillsGap) (total : Tick) :
    program.Conserved table Operation.KeptWhole
        (entries.reverse.map (Entry.mirrored total reversal.origin?)) ∧
      ∀ entry ∈ entries.reverse.map (Entry.mirrored total reversal.origin?),
        entry.source = none → entry.FillsGap := by
  have known := conserved.known
  rw [reversed.size] at known
  have exists_before : ∀ entry ∈ entries.reverse.map (Entry.mirrored total reversal.origin?),
      ∃ before ∈ entries, before.mirrored total reversal.origin? = entry := by
    intro entry member
    obtain ⟨before, found, same⟩ := List.mem_map.mp member
    exact ⟨before, List.mem_reverse.mp found, same⟩
  have fills : ∀ entry ∈ entries.reverse.map (Entry.mirrored total reversal.origin?),
      entry.source = none → entry.FillsGap := by
    intro entry member none
    obtain ⟨before, found, rfl⟩ := exists_before entry member
    refine (unsourced before found ?_).mirrored total reversal.origin?
    by_contra sourced
    obtain ⟨place, source⟩ := Option.ne_none_iff_exists'.mp sourced
    obtain ⟨id, -, origin, -⟩ := reversed.exists_origin (known before found place source)
    rw [Entry.mirrored, source] at none
    cases origin.symm.trans none
  refine ⟨⟨fun id inside => ?kept, fun entry member id source => ?known, fun entry member none =>
    .inl (fills entry member none)⟩, fills⟩
  case kept =>
    obtain ⟨operation, ticks, found, lasts, kept⟩ :=
      conserved.kept (program.flip id) (reversed.size ▸ flip_lt inside)
    rw [reversed.operation id inside] at found
    rw [reversed.duration id inside] at lasts
    refine ⟨operation, ticks, found, lasts, ?_⟩
    rw [partsOf_mirrored fun entry member =>
      reversed.bind_origin_eq_some_iff inside (known entry member)]
    exact kept.mirrored (reversed.origin id inside) total
  case known =>
    obtain ⟨before, found, rfl⟩ := exists_before entry member
    obtain ⟨place, source, origin⟩ := Option.bind_eq_some_iff.mp source
    obtain ⟨other, smaller, origin', -⟩ := reversed.exists_origin (known before found place source)
    exact Option.some.inj (origin'.symm.trans origin) ▸ smaller

/-! ## Lock step -/

/-- Groups that are led account for all of their entries: they were made from operations of the
program, or they fill gaps or are boundaries. -/
lemma LockStepped.accounted {numResources size : Nat} {first last : Tick} {groups : List Group}
    (stepped : LockStepped numResources first groups last)
    (led : ∀ group ∈ groups, group.Led size) :
    ∀ entry ∈ groups.flatMap Group.toList, (∀ id, entry.source = some id → id < size) ∧
      (entry.source = none → entry.FillsGap ∨
        ∃ length stop, entry = .boundary length (List.range numResources) stop) := by
  intro entry member
  obtain ⟨group, among, member⟩ := List.mem_flatMap.mp member
  refine ⟨fun id source => (led group among).known entry member id source, fun none => ?_⟩
  rcases List.mem_append.mp member with inside | boundary
  · exact .inl ((led group among).unsourced entry inside none)
  · obtain rfl := List.mem_singleton.mp boundary
    obtain ⟨_, _, spans⟩ := stepped.exists_spans group among
    obtain ⟨source, same⟩ := spans.boundary
    rw [same] at none
    obtain rfl : source = .none := none
    exact .inr ⟨_, _, same⟩

/-- As soon as possible, a lock-step schedule conserves the program. -/
lemma Program.LockStepRun.conserved {last : Grouping}
    (run : program.LockStepRun table rule .closing last) :
    program.Conserved table (Operation.KeptInLockStep program.numResources) last.entries := by
  have led := run.grouped.led
  rw [run.size_eq] at led
  have accounted := run.stepped.accounted led
  exact ⟨fun id inside => run.kept inside, fun entry member => (accounted entry member).1,
    fun entry member => (accounted entry member).2⟩

/-- As late as possible, too, a lock-step schedule conserves the operations of the program.

**Proof sketch.** The run conserves those of the reversal (`LockStepRun.kept`), which are the
operations at the opposite places. Turning their parts around keeps what lock step made of them
(`KeptInLockStep.mirrored`). -/
lemma Program.LockStepRun.conserved_turned {reversal : Reversal} {last : Grouping}
    (run : reversal.program.LockStepRun table rule .opening last)
    (reversed : program.ReversedBy table reversal)
    (stepped : LockStepped program.numResources 0 (last.turned reversal) last.elapsed) :
    program.Conserved table (Operation.KeptInLockStep program.numResources)
      ((last.turned reversal).flatMap Group.toList) := by
  have accounted := stepped.accounted (run.led_turned reversed)
  refine ⟨fun id inside => ?_, fun entry member => (accounted entry member).1,
    fun entry member => (accounted entry member).2⟩
  obtain ⟨operation, ticks, found, lasts, kept⟩ := run.kept (reversed.size ▸ flip_lt inside)
  have resources : reversal.program.numResources = program.numResources :=
    congrArg Layout.numResources reversed.layout
  rw [reversed.operation id inside] at found
  rw [reversed.duration id inside] at lasts
  rw [resources] at kept
  refine ⟨operation, ticks, found, lasts, ?_⟩
  rw [run.partsOf_turned reversed stepped inside]
  exact kept.mirrored (fun part member => run.stop_le member) (reversed.origin id inside)

/-! ## All methods -/

/-- **Nothing is lost, nothing is doubled.** Whatever program was built, whatever schedule comes out
conserves it. Outside of lock step every operation has a single entry, of its effective duration. In
lock step a delay may be split into delays on its resource that follow each other immediately and
add up to its effective duration, none of them empty if there are several; a timestep becomes a
boundary of no duration; and every other operation has a single entry. Entries without a source are
idle time of positive length on one resource, or boundaries.

**Proof sketch.** One case for each method. The forward pass conserves what it is run on
(`conserved_forward`), and so does the run in lock step (`LockStepRun.conserved`). As late as
possible this is the reversed program; turning the entries around conserves the program itself, and
shifting boundaries afterwards keeps that. -/
theorem Program.schedule_conserves (built : program.Built)
    (ok : (program.schedule table settings).result = .ok schedule) :
    (settings.method = "asap" ∨ settings.method = "alap") ∧
        program.Conserved table Operation.KeptWhole schedule.entries ∨
      (settings.method = "asap_timestep" ∨ settings.method = "alap_timestep") ∧
        program.Conserved table (Operation.KeptInLockStep program.numResources)
          schedule.entries := by
  have wellFormed := built.wellFormed
  obtain ⟨policy, offered, ok⟩ := schedule_eq_ok ok
  generalize settings.method = method at offered
  cases offered with
  | asap => exact .inl ⟨.inl rfl, (conserved_forward wellFormed ok).1⟩
  | alap =>
    obtain ⟨reversal, inner, -, reversedBy, ok, -, -, entries⟩ := Policy.run_reversed_eq_ok ok
    obtain ⟨conserved, unsourced⟩ := conserved_forward (reversedBy.wellFormed wellFormed) ok
    obtain ⟨conserved, unsourced⟩ := reversedBy.conserved conserved unsourced inner.duration
    rw [entries]
    exact .inl ⟨.inr rfl, conserved.shiftEntries unsourced⟩
  | asapTimestep rule =>
    obtain ⟨last, anomalies, run, rfl⟩ := lockStep_run wellFormed ok
    exact .inr ⟨.inl rfl, run.conserved⟩
  | alapTimestep rule =>
    obtain ⟨reversal, last, -, reversedBy, run, -, entries, stepped, -⟩ :=
      Policy.lockStep_reversed_run wellFormed ok
    rw [entries]
    exact .inr ⟨.inr rfl, run.conserved_turned reversedBy stepped⟩

/-- With time running backwards, the longer delay is split in two. -/
theorem Program.schedule_conserves_relay : ∃ schedule : Schedule,
    (relay.schedule .relay { method := "alap_timestep" }).result = .ok schedule ∧
      relay.Conserved .relay (Operation.KeptInLockStep 3) schedule.entries ∧
      partsOf 1 schedule.entries = [.idle 1 0 2 (some 1), .idle 1 2 3 (some 1)] := by
  obtain ⟨schedule, ok, parts⟩ : ∃ schedule : Schedule,
      (relay.schedule .relay { method := "alap_timestep" }).result = .ok schedule ∧
        partsOf 1 schedule.entries = [.idle 1 0 2 (some 1), .idle 1 2 3 (some 1)] :=
    ⟨_, rfl, rfl⟩
  rcases schedule_conserves built_relay ok with ⟨other, -⟩ | ⟨-, conserved⟩
  · exact absurd other (by decide)
  · exact ⟨schedule, ok, conserved, parts⟩

end Timetable
