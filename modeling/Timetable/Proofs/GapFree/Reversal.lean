import Mathlib.Data.List.Induction
import Timetable.Proofs.GapFree.LockStep
import Timetable.Proofs.Reversal

/-!
# Lock step with time running backwards

Turned around, groups that follow each other still do, but the boundary of each of them stands in
front of its entries instead of behind them. Shifting moves all boundaries by one group, and since
the tick of a boundary is the sum of the lengths so far, each then closes the group that it opened.

## Main definitions

* `Group.mirrored`, `Group.opened` — a group turned around, with its boundary in front.
* `shiftGroups` — groups with their boundaries moved behind them.

## Main results

* `shiftEntries_opened` — shifting entries shifts groups.
* `LockStepped.mirrored` — groups that are turned around and shifted follow each other.
* `Policy.lockStep_reversed_groups` — what a lock-step schedule is made of if time runs backwards.
-/

set_option autoImplicit false

namespace Timetable

/-- The entries of a group that its boundary opens. -/
def Group.opened (group : Group) : List Entry := group.boundary :: group.entries

/-- A group at the opposite place within `total` ticks. -/
def Group.mirrored (total : Tick) (origin : OpId → Option OpId) (group : Group) : Group :=
  ⟨group.entries.reverse.map (Entry.mirrored total origin), group.boundary.mirrored total origin⟩

/-- The groups with their boundaries behind them, where the lengths up to each of them end. -/
def shiftGroups : (elapsed : Tick) → List Group → List Group
  | _, [] => []
  | elapsed, group :: groups =>
    let stop := elapsed + group.boundary.operation.stepLength?.getD 0
    ⟨group.entries, { group.boundary with start := stop }⟩ :: shiftGroups stop groups

section

variable {numResources : Nat} {first last total : Tick} {groups : List Group} {group : Group}

/-- Turned around, the boundaries of groups open them. -/
lemma map_mirrored_reverse_toList (total : Tick) (origin : OpId → Option OpId)
    (groups : List Group) :
    (groups.flatMap Group.toList).reverse.map (Entry.mirrored total origin) =
      (groups.reverse.map (Group.mirrored total origin)).flatMap Group.opened := by
  induction groups with
  | nil => rfl
  | cons group groups ih =>
    simp [ih, Group.toList, Group.opened, Group.mirrored, List.flatMap_append]

/-! ## Shifting -/

/-- A boundary in front of further groups moves to the end of its length. -/
lemma shiftEntries_held {marker : Entry} (elapsed : Tick)
    (boundaries : ∀ group ∈ groups, group.boundary.operation.isTimestep = true) :
    shiftEntries (some marker) elapsed (groups.flatMap Group.opened) =
      { marker with start := elapsed + marker.operation.stepLength?.getD 0 } ::
        shiftEntries none (elapsed + marker.operation.stepLength?.getD 0)
          (groups.flatMap Group.opened) := by
  cases groups with
  | nil => rfl
  | cons group groups =>
    have boundary := boundaries group List.mem_cons_self
    simp only [List.flatMap_cons, Group.opened, List.cons_append, shiftEntries, boundary, if_true]

/-- Shifting the entries of groups that are opened by their boundaries shifts the groups.

**Proof sketch.** Induction on the groups. The boundary of the first group is held while the entries
of the group pass, and comes out when the next boundary takes its place (`shiftEntries_held`), so
that the group has its boundary at the end. -/
theorem shiftEntries_opened (elapsed : Tick)
    (boundaries : ∀ group ∈ groups, group.boundary.operation.isTimestep = true)
    (plain : ∀ group ∈ groups, ∀ entry ∈ group.entries, entry.operation.isTimestep = false) :
    shiftEntries none elapsed (groups.flatMap Group.opened) =
      (shiftGroups elapsed groups).flatMap Group.toList := by
  induction groups generalizing elapsed with
  | nil => rfl
  | cons group groups ih =>
    have boundary := boundaries group List.mem_cons_self
    have later : ∀ other ∈ groups, other.boundary.operation.isTimestep = true :=
      fun other member => boundaries other (List.mem_cons_of_mem _ member)
    rw [List.flatMap_cons, Group.opened, List.cons_append, shiftEntries, if_pos boundary,
      shiftEntries_append _ _ _ (plain group List.mem_cons_self), shiftEntries_held elapsed later,
      ih _ later fun other member => plain other (List.mem_cons_of_mem _ member)]
    simp [shiftGroups, Group.toList]

/-- Turning the entries of groups around and shifting them is turning the groups around and shifting
them. -/
lemma LockStepped.shiftEntries_mirrored (stepped : LockStepped numResources first groups last)
    (total : Tick) (origin : OpId → Option OpId) (elapsed : Tick) :
    shiftEntries none elapsed
        ((groups.flatMap Group.toList).reverse.map (Entry.mirrored total origin)) =
      (shiftGroups elapsed (groups.reverse.map (Group.mirrored total origin))).flatMap
        Group.toList := by
  rw [map_mirrored_reverse_toList]
  refine shiftEntries_opened elapsed (fun group member => ?_) fun group member entry inside => ?_
  · obtain ⟨before, found, rfl⟩ := List.mem_map.mp member
    obtain ⟨_, _, spans⟩ := stepped.exists_spans before (List.mem_reverse.mp found)
    exact spans.isTimestep_boundary
  · obtain ⟨before, found, rfl⟩ := List.mem_map.mp member
    obtain ⟨_, _, spans⟩ := stepped.exists_spans before (List.mem_reverse.mp found)
    obtain ⟨original, within, rfl⟩ := List.mem_map.mp inside
    exact (spans.plain original (List.mem_reverse.mp within)).1

/-! ## Groups turned around -/

/-- A group turned around is closed by its boundary where the group began. -/
lemma Group.Spans.mirrored (spans : group.Spans numResources first last)
    (origin : OpId → Option OpId) (within : last ≤ total) :
    Group.Spans numResources (total - last) (total - first)
      ⟨(group.mirrored total origin).entries,
        { (group.mirrored total origin).boundary with start := total - first }⟩ := by
  have le := spans.le
  obtain ⟨source, boundary⟩ := spans.boundary
  refine ⟨Nat.sub_le_sub_left le total, spans.tiles.mirrored origin fun _ _ => within, ?_,
    source.bind origin, ?_⟩
  · intro entry member
    obtain ⟨before, found, rfl⟩ := List.mem_map.mp member
    exact spans.plain before (List.mem_reverse.mp found)
  · have length : total - first - (total - last) = last - first := by lia
    rw [length]
    simp only [Group.mirrored, boundary, Entry.mirrored, Entry.boundary]

/-- Groups that follow each other still do after being turned around and shifted.

**Proof sketch.** Induction from the last group on, which comes first when turned around: its
length leads from where it ended to where it began, seen from `total`. -/
theorem LockStepped.mirrored (stepped : LockStepped numResources first groups last)
    (origin : OpId → Option OpId) (within : last ≤ total) :
    LockStepped numResources (total - last)
      (shiftGroups (total - last) (groups.reverse.map (Group.mirrored total origin)))
      (total - first) := by
  induction groups using List.reverseRecOn generalizing last with
  | nil =>
    obtain rfl : first = last := stepped
    rfl
  | append_singleton groups group ih =>
    obtain ⟨middle, before, spans⟩ := lockStepped_concat.mp stepped
    have le := spans.le
    obtain ⟨source, boundary⟩ := spans.boundary
    have stop : total - last + ((group.mirrored total origin).boundary.operation.stepLength?.getD 0)
        = total - middle := by
      simp only [Group.mirrored, boundary, Entry.mirrored, Entry.boundary, Operation.stepLength?,
        Option.getD_some]
      lia
    rw [List.reverse_append, List.reverse_singleton, List.singleton_append, List.map_cons,
      shiftGroups, stop]
    exact ⟨total - middle, spans.mirrored origin within, ih before (le.trans within)⟩

end

/-! ## The passes with time running backwards -/

namespace Schedule.GapFree

variable {schedule reversed : Schedule}

/-- Turned around, all entries still use resources. -/
lemma touching_turned (gapFree : reversed.GapFree) (reversal : Reversal) :
    ∀ entry ∈ reversal.turned reversed, entry.resources ≠ [] := by
  intro entry member
  obtain ⟨before, found, rfl⟩ := List.mem_map.mp member
  exact gapFree.touching before (List.mem_reverse.mp found)

/-- Turned around, the entries of a schedule without gaps still lead to its end. -/
lemma tiles_turned (gapFree : reversed.GapFree) (reversal : Reversal) :
    Tiles reversed.numResources (fun _ => 0) (reversal.turned reversed)
      fun _ => reversed.total := by
  rw [Reversal.turned, gapFree.duration_eq]
  exact (gapFree.tiles.mirrored reversal.origin? fun _ _ => le_refl reversed.total).congr
    (fun _ _ => Nat.sub_self _) fun _ _ => Nat.sub_zero _

/-- Turning a schedule without gaps around does not change the latest end of its entries. -/
lemma latestStop_turned (gapFree : reversed.GapFree) (reversal : Reversal) :
    latestStop (reversal.turned reversed) = reversed.total :=
  (gapFree.tiles_turned reversal).latestStop_congr gapFree.tiles (gapFree.touching_turned reversal)
    gapFree.touching

/-- A schedule without gaps has none when it is turned around. -/
lemma turned (gapFree : reversed.GapFree) (reversal : Reversal)
    (layout : schedule.layout = reversed.layout)
    (cached : schedule.cached = some schedule.total)
    (entries : schedule.entries = reversal.turned reversed) : schedule.GapFree := by
  have tiles := gapFree.tiles_turned reversal
  rw [← entries, numResources, ← layout] at tiles
  exact gapFree_of_tiles cached (entries ▸ gapFree.touching_turned reversal) tiles

end Schedule.GapFree

variable {program : Program} {table : DurationTable} {schedule : Schedule}

/-- With time running backwards, too, the forward pass places delays and the operations of the
program. -/
lemma Program.ReversedBy.operation_of_mem_turned {reversal : Reversal}
    (reversedBy : program.ReversedBy table reversal)
    (ok : (reversal.program.forward table).result = .ok schedule) {entry : Entry}
    (member : entry ∈ reversal.turned schedule) :
    (∃ length resource, entry.operation = .idle length resource) ∨
      entry.operation ∈ program.operations := by
  obtain ⟨before, found, rfl⟩ := List.mem_map.mp member
  exact (operation_of_mem_forward ok (List.mem_reverse.mp found)).imp_right
    reversedBy.mem_operations.mp

/-- A program without timesteps gets none from idle time. -/
lemma Program.isTimestep_of_idle_or_mem
    (plain : ∀ operation ∈ program.operations, operation.isTimestep = false) {operation : Operation}
    (known : (∃ length resource, operation = .idle length resource) ∨
      operation ∈ program.operations) : operation.isTimestep = false := by
  rcases known with ⟨length, resource, rfl⟩ | member
  · rfl
  · exact plain operation member

namespace Policy

/-- Without timesteps, the forward pass with time running backwards gives the entries of the
reversal turned around, and none of them is shifted. -/
lemma forward_reversed_eq_ok
    (plain : ∀ operation ∈ program.operations, operation.isTimestep = false)
    (ok : ((reversed (forward table) table).run program).result = .ok schedule) :
    ∃ reversal inner, program.violation? = none ∧ program.ReversedBy table reversal ∧
      (reversal.program.forward table).result = .ok inner ∧ schedule.layout = program.layout ∧
      schedule.cached = some schedule.total ∧ schedule.entries = reversal.turned inner := by
  obtain ⟨reversal, inner, physical, reversedBy, ok, layout, cached, entries⟩ :=
    run_reversed_eq_ok ok
  have turned_plain : ∀ entry ∈ reversal.turned inner, entry.operation.isTimestep = false :=
    fun _ member =>
      Program.isTimestep_of_idle_or_mem plain (reversedBy.operation_of_mem_turned ok member)
  rw [shiftEntries_of_plain 0 turned_plain] at entries
  exact ⟨reversal, inner, physical, reversedBy, ok, layout, cached, entries⟩

/-- The forward pass with time running backwards gives schedules without gaps if the program has
no timesteps. -/
lemma forward_reversed_gapFree (wellFormed : program.WellFormed)
    (plain : ∀ operation ∈ program.operations, operation.isTimestep = false)
    (ok : ((reversed (forward table) table).run program).result = .ok schedule) :
    schedule.layout = program.layout ∧ schedule.GapFree := by
  obtain ⟨reversal, inner, -, reversedBy, ok, layout, cached, entries⟩ :=
    forward_reversed_eq_ok plain ok
  have gapFree := Program.forward_gapFree (reversedBy.wellFormed wellFormed) ok
  have inner_layout : inner.layout = reversal.program.layout := by
    obtain ⟨order, -, -, -, rfl⟩ := Program.forward_eq_ok ok
    rfl
  refine ⟨layout, gapFree.turned reversal ?_ cached entries⟩
  rw [layout, inner_layout, reversedBy.layout]

/-- With time running backwards, too, a lock-step schedule is made of groups that follow each
other from tick zero on.

**Proof sketch.** The inner pass makes groups that follow each other (`Program.lockStep_groups`).
Turned around they follow each other again, each with its boundary in front
(`LockStepped.mirrored`), and shifting moves the boundaries to the ends of their groups
(`LockStepped.shiftEntries_mirrored`). -/
theorem lockStep_reversed_groups {rule : DelayRule} {side : CarriedSide}
    (wellFormed : program.WellFormed)
    (ok : ((reversed (lockStep table rule side) table).run program).result = .ok schedule) :
    schedule.layout = program.layout ∧ schedule.cached = some schedule.total ∧
      ∃ groups last, schedule.entries = groups.flatMap Group.toList ∧
        LockStepped program.numResources 0 groups last ∧
        (program.numResources = 0 → groups = []) := by
  obtain ⟨reversal, inner, -, reversedBy, ok, layout, cached, entries⟩ := run_reversed_eq_ok ok
  obtain ⟨groups, last, anomalies, rfl, stepped, none⟩ :=
    Program.lockStep_groups (reversedBy.wellFormed wellFormed) ok
  have resources : reversal.program.numResources = program.numResources :=
    congrArg Layout.numResources reversedBy.layout
  rw [resources] at stepped none
  have duration : (Schedule.sealedFor reversal.program (groups.flatMap Group.toList)
      anomalies).duration = last := stepped.latestStop_eq none
  have mirrored := stepped.mirrored reversal.origin? (le_refl last)
  rw [Nat.sub_self, Nat.sub_zero] at mirrored
  rw [Reversal.turned, duration] at entries
  refine ⟨layout, cached, _, last, entries.trans ?_, mirrored, fun zero => ?_⟩
  · exact stepped.shiftEntries_mirrored last reversal.origin? 0
  · simp [none zero, shiftGroups]

/-- The lock-step pass with time running backwards gives schedules without gaps. -/
lemma lockStep_reversed_gapFree {rule : DelayRule} {side : CarriedSide}
    (wellFormed : program.WellFormed)
    (ok : ((reversed (lockStep table rule side) table).run program).result = .ok schedule) :
    schedule.layout = program.layout ∧ schedule.GapFree := by
  obtain ⟨layout, cached, groups, last, entries, stepped, none⟩ :=
    lockStep_reversed_groups wellFormed ok
  have resources : schedule.numResources = program.numResources :=
    congrArg Layout.numResources layout
  rw [← resources] at stepped none
  exact ⟨layout, stepped.gapFree cached entries none⟩

end Policy

end Timetable
