import Timetable.Proofs.Channels
import Timetable.Proofs.LockStep.Structure

/-!
# Which schedules can be sequenced

Sequencing walks the entries of a schedule with one cursor for every resource, and stops at the
first entry that does not start where all of its resources have come to. Here the walk is replaced
by a condition on the schedule alone: where a resource has come to is how long the earlier entries
keep it. The instructions are those of one entry after the other, sorted by their start, and those
that start together stay in the order of the entries.

The only thing that is compared with the instructions is the duration of the whole schedule. So an
instruction never ends behind the schedule, but it may end behind its own entry, and nothing reports
this while the schedule goes on.

## Main definitions

* `Entry.instructions` — the instructions that an entry amounts to.
* `StablySorted` — a list in the order of a key, with elements of the same key as they were.
* `Schedule.Sequenceable` — what sequencing asks of a schedule.

## Main results

* `tiles_iff_timeOn` — entries tile exactly if each starts where the earlier ones have come to.
* `Walk.run_eq_none_iff` — the walk gets to the end exactly of tilings that can be carried out.
* `Schedule.sequence_iff` — exactly the sequenceable schedules are sequenced, and what comes out.
* `Schedule.instructions_within` — no instruction ends behind the schedule.
* `Program.sequence_overruns` — but one may end behind its entry, and clash with others.
-/

set_option autoImplicit false

namespace Timetable

/-- The instructions that an entry amounts to. A delay idles on the three channels of its resource;
a gate starts its implementation, if there is one, together with the entry; barriers and timesteps
need nothing. -/
def Entry.instructions (lookup : ImplementationLookup) (entry : Entry) : List TimedInstruction :=
  match entry.operation with
  | .barrier _ => []
  | .timestep _ _ => []
  | .delay _ resource =>
    [⟨entry.start, "delay", .drive resource, entry.duration⟩,
      ⟨entry.start, "delay", .measure resource, entry.duration⟩,
      ⟨entry.start, "delay", .acquire resource, entry.duration⟩]
  | .gate name resources =>
    match lookup name resources with
    | none => []
    | some implementation => implementation.instructions.map fun relative =>
      ⟨entry.start + relative.offset, relative.name, relative.channel, relative.duration⟩

/-- A list is another one in the order of a key: it has the same elements, and those with the same
key follow each other as they did. -/
structure StablySorted {α : Type} (key : α → Tick) (list sorted : List α) : Prop where
  perm : sorted.Perm list
  ordered : sorted.Pairwise fun a b => key a ≤ key b
  stable : ∀ tick, sorted.filter (key · = tick) = list.filter (key · = tick)

/-- What sequencing asks of a schedule: each entry uses some resources, all of them declared, and
starts on each of them where the earlier entries have taken it; gates have implementations; and what
reaches furthest, a resource or an instruction, reaches exactly to the end of the schedule. -/
structure Schedule.Sequenceable (lookup : ImplementationLookup) (schedule : Schedule) : Prop where
  touching : ∀ entry ∈ schedule.entries, entry.resources ≠ []
  declared : ∀ entry ∈ schedule.entries, ∀ resource ∈ entry.resources,
    resource < schedule.numResources
  placed : ∀ before entry after, schedule.entries = before ++ entry :: after →
    ∀ resource ∈ entry.resources, entry.start = timeOn resource before
  implemented : ∀ entry ∈ schedule.entries, entry.operation.isMarker = false →
    entry.operation.isDelay = false → (lookup entry.operation.name entry.resources).isSome
  reaches : max
    (latest ((List.range schedule.numResources).map (timeOn · schedule.entries)))
    (latest ((schedule.entries.flatMap (Entry.instructions lookup)).map TimedInstruction.stop)) =
      schedule.duration

variable {lookup : ImplementationLookup} {schedule : Schedule} {entry : Entry}
  {entries : List Entry} {first last : Resource → Tick} {numResources : Nat}

/-- Sorting by a key is stable. -/
lemma stablySorted_sortBy {α : Type} (key : α → Tick) (list : List α) :
    StablySorted key list (sortBy (fun a b => key a ≤ key b) list) where
  perm := sortBy_perm _ list
  ordered := (pairwise_sortBy (fun a b => by simpa using Nat.le_total (key a) (key b))
    (fun a b c => by simpa using Nat.le_trans) list).imp of_decide_eq_true
  stable := filter_sortBy key list

/-- No instruction of an entry starts before the entry. -/
lemma Entry.start_le_of_mem_instructions {instruction : TimedInstruction}
    (member : instruction ∈ entry.instructions lookup) : entry.start ≤ instruction.start := by
  unfold Entry.instructions at member
  split at member
  · cases member
  · cases member
  · simp only [List.mem_cons, List.not_mem_nil, or_false] at member
    rcases member with rfl | rfl | rfl <;> rfl
  · split at member
    · cases member
    · obtain ⟨relative, -, rfl⟩ := List.mem_map.mp member
      exact Nat.le_add_right _ _

/-! ## Tilings by the time that entries take -/

/-- One more entry in front takes its resources for its duration. -/
lemma timeOn_cons (entry : Entry) (entries : List Entry) (resource : Resource) :
    timeOn resource (entry :: entries) =
      (if entry.uses resource then entry.duration else 0) + timeOn resource entries := by
  unfold timeOn
  rw [List.filter_cons]
  split <;> simp

/-- Entries lead from one front to another exactly if each uses declared resources only and starts,
on each of them, where the entries in front of it have taken it, and all of them together take each
resource to the second front.

**Proof sketch.** From left to right a tiling is cut in front of the entry. From right to left by
induction on the entries: advancing past the first one moves its duration from the sum to the
front. -/
theorem tiles_iff_timeOn : Tiles numResources first entries last ↔
    (∀ before entry after, entries = before ++ entry :: after → ∀ resource ∈ entry.resources,
      resource < numResources ∧ first resource + timeOn resource before = entry.start) ∧
    ∀ resource < numResources, first resource + timeOn resource entries = last resource := by
  refine ⟨fun tiles => ⟨?_, fun resource => tiles.timeOn⟩, ?_⟩
  · rintro before entry after rfl resource used
    obtain ⟨middle, front, placed, -⟩ := tiles_append.mp tiles
    obtain ⟨declared, start⟩ := placed resource used
    exact ⟨declared, (front.timeOn declared).trans start⟩
  · rintro ⟨placed, ends⟩
    induction entries generalizing first with
    | nil => exact ends
    | cons entry entries ih =>
      have advanced (resource : Resource) (before : List Entry) :
          entry.advance first resource + timeOn resource before =
            first resource + timeOn resource (entry :: before) := by
        rw [timeOn_cons, Entry.advance]
        split <;> lia
      refine ⟨fun resource used => placed [] entry entries rfl resource used, ih ?_ ?_⟩
      · rintro before other after rfl resource used
        rw [advanced]
        exact placed (entry :: before) other after rfl resource used
      · intro resource declared
        rw [advanced]
        exact ends resource declared

/-! ## The walk -/

namespace Walk

variable {walk walked : Walk} {index : Nat}

/-- The instructions that the walk collects for an entry are those that it amounts to. -/
lemma emitted_eq (lookup : ImplementationLookup) (entry : Entry) :
    emitted lookup entry = entry.instructions lookup := by
  unfold emitted instructionsOf Entry.instructions
  cases entry.operation with
  | gate name resources =>
    dsimp only
    cases lookup name resources <;> rfl
  | delay | barrier | timestep => rfl

/-- An entry can be carried out unless it is a gate without an implementation. -/
lemma isSome_instructionsOf_iff : (instructionsOf lookup entry).isSome ↔
    (entry.operation.isMarker = false → entry.operation.isDelay = false →
      (lookup entry.operation.name entry.resources).isSome) := by
  unfold instructionsOf Entry.resources
  cases entry.operation with
  | gate name resources =>
    simp [Operation.isMarker, Operation.isDelay, Operation.name, Operation.resources]
  | delay | barrier | timestep => simp [Operation.isMarker, Operation.isDelay]

/-- An entry without a defect uses some resources, which have all come to its start.

**Proof sketch.** Each check of the definition failed to find a defect, so all resources are
declared, their cursors agree with that of the first one, and this agrees with the start. -/
lemma placed_of_defect?_eq_none (sound : walk.defect? entry = none) : entry.resources ≠ [] ∧
    ∀ resource ∈ entry.resources,
      resource < walk.cursors.size ∧ walk.cursor resource = entry.start := by
  unfold defect? at sound
  split at sound
  · cases sound
  · rename_i first others resources
    split at sound
    · cases sound
    · rename_i declared
      dsimp only at sound
      split at sound
      · cases sound
      · rename_i agree
        split at sound
        · rename_i start
          rw [resources]
          refine ⟨List.cons_ne_nil _ _, fun resource used => ⟨?_, ?_⟩⟩
          · simpa using List.find?_eq_none.mp declared resource used
          · have same := List.find?_eq_none.mp agree resource used
            exact (by simpa using same : walk.cursor resource = walk.cursor first).trans start
        · cases sound

/-- A walk that gets to the end of some entries has collected the instructions of one after the
other.

**Proof sketch.** Induction on the entries. A walk that gets to the end found instructions
for each. -/
lemma instructions_of_run (ran : run lookup index entries walk = (walked, none)) :
    walked.instructions =
      walk.instructions ++ entries.flatMap (Entry.instructions lookup) := by
  induction entries generalizing walk index with
  | nil =>
    cases ran
    simp
  | cons entry entries ih =>
    unfold run at ran
    split at ran
    · cases ran
    · dsimp only at ran
      split at ran
      · cases ran
      · rename_i more found
        have here : entry.instructions lookup = more := by
          rw [← emitted_eq, emitted, found, Option.getD_some]
        rw [ih ran, List.flatMap_cons, here, List.append_assoc]

/-- A walk that gets to the end of some entries has found a tiling, of which all entries can be
carried out.

**Proof sketch.** By induction on the entries: the first of them has no defect, so it starts where
its resources have come to, and the walk goes on from the front behind it. -/
lemma tiles_of_run (nodup : ∀ entry ∈ entries, entry.resources.Nodup)
    (ran : run lookup index entries walk = (walked, none)) :
    walked.cursors.size = walk.cursors.size ∧
      Tiles walk.cursors.size walk.cursor entries walked.cursor ∧
      ∀ entry ∈ entries, entry.resources ≠ [] ∧ (instructionsOf lookup entry).isSome := by
  induction entries generalizing walk index with
  | nil =>
    cases ran
    exact ⟨rfl, .refl _ _, by simp⟩
  | cons entry entries ih =>
    obtain ⟨once, nodup⟩ := List.forall_mem_cons.mp nodup
    unfold run at ran
    split at ran
    · cases ran
    · rename_i sound
      dsimp only at ran
      split at ran
      · cases ran
      · rename_i more found
        obtain ⟨touching, placed⟩ := placed_of_defect?_eq_none sound
        obtain ⟨size, tiles, carried⟩ := ih nodup ran
        have next := cursor_advance once (fun resource used => (placed resource used).1) index
        have same := walk.size_advance index entry
        refine ⟨size.trans same, ⟨placed, ?_⟩,
          List.forall_mem_cons.mpr ⟨⟨touching, Option.isSome_of_eq_some found⟩, carried⟩⟩
        rw [← next, ← same]
        exact tiles

/-- A walk gets to the end of some entries, none of which names a resource twice, exactly if they
are a tiling and all of them can be carried out.

**Proof sketch.** From left to right each entry had no defect, which makes a tiling
(`tiles_of_run`). From right to left the walk follows the tiling (`exists_run_of_tiles`). -/
theorem run_eq_none_iff (nodup : ∀ entry ∈ entries, entry.resources.Nodup) :
    (∃ walked, run lookup index entries walk = (walked, none)) ↔
      (∃ last, Tiles walk.cursors.size walk.cursor entries last) ∧
        ∀ entry ∈ entries, entry.resources ≠ [] ∧ (instructionsOf lookup entry).isSome := by
  constructor
  · rintro ⟨walked, ran⟩
    obtain ⟨-, tiles, carried⟩ := tiles_of_run nodup ran
    exact ⟨⟨_, tiles⟩, carried⟩
  · rintro ⟨⟨last, tiles⟩, carried⟩
    obtain ⟨walked, ran, -⟩ := exists_run_of_tiles tiles
      (fun entry member => (carried entry member).1) nodup
      (fun entry member => (carried entry member).2) index
    exact ⟨walked, ran⟩

/-- The instructions of an entry are among those that the walk has collected. -/
lemma mem_instructions_of_run (ran : run lookup index entries walk = (walked, none))
    (member : entry ∈ entries) {instruction : TimedInstruction}
    (among : instruction ∈ entry.instructions lookup) : instruction ∈ walked.instructions := by
  rw [instructions_of_run ran]
  exact List.mem_append_right _ (List.mem_flatMap.mpr ⟨entry, member, among⟩)

/-- No instruction of an entry ends behind what the walk reaches. -/
lemma stop_le_reach_of_run (ran : run lookup index entries walk = (walked, none))
    (member : entry ∈ entries) {instruction : TimedInstruction}
    (among : instruction ∈ entry.instructions lookup) : instruction.stop ≤ walked.reach :=
  (le_latest (List.mem_map_of_mem (mem_instructions_of_run ran member among))).trans
    (Nat.le_max_right _ _)

/-- A walk that stops at an entry does not do so because of the duration of the instructions.

**Proof sketch.** Induction on the entries. A walk stops for a defect of an entry or for want of an
implementation. -/
lemma ne_durationMismatch_of_run {error : SequencingError}
    (ran : run lookup index entries walk = (walked, some error)) (expected actual : Tick) :
    error ≠ .durationMismatch expected actual := by
  induction entries generalizing walk index with
  | nil => cases ran
  | cons entry entries ih =>
    unfold run at ran
    split at ran
    · cases ran
      intro same
      cases same
    · dsimp only at ran
      split at ran
      · cases ran
        intro same
        cases same
      · exact ih ran

/-- A walk through a whole schedule reaches as far as the entries take a resource, or as an
instruction does.

**Proof sketch.** The cursors end where the entries take the resources (`tiles_of_run`,
`tiles_iff_timeOn`), and the instructions are those of the entries (`instructions_of_run`). -/
lemma reach_of_run (nodup : ∀ entry ∈ entries, entry.resources.Nodup)
    (ran : run lookup 0 entries (start numResources) = (walked, none)) : walked.reach =
      max (latest ((List.range numResources).map (timeOn · entries)))
        (latest ((entries.flatMap (Entry.instructions lookup)).map TimedInstruction.stop)) := by
  obtain ⟨size, tiles, -⟩ := tiles_of_run nodup ran
  have instructions := instructions_of_run ran
  have size : walked.cursors.size = numResources := by simpa [start] using size
  have taken := (tiles_iff_timeOn.mp tiles).2
  have cursors : walked.cursors.toList = (List.range numResources).map (timeOn · entries) := by
    refine List.ext_getElem (by simp [size]) fun resource inside inside' => ?_
    have declared : resource < numResources := by simpa using inside'
    have here := taken resource (by simpa [start] using declared)
    rw [cursor_start, Nat.zero_add, cursor,
      Array.getElem?_eq_getElem (size.symm ▸ declared), Option.getD_some] at here
    simpa using here.symm
  rw [reach, cursors, instructions]
  rfl

end Walk

/-! ## Whole schedules -/

namespace Schedule

variable {sequence : Sequence}

/-- A schedule is sequenced exactly if the walk gets to its end and reaches as far as it does. The
instructions are sorted by their start.

**Proof sketch.** The cases of the definition: the walk stops, or it reaches as far as it should, or
it does not. -/
lemma sequenceWith_eq_ok : (schedule.sequenceWith lookup).2 = .ok sequence ↔
    ∃ walked, Walk.run lookup 0 schedule.entries (Walk.start schedule.numResources) =
        (walked, none) ∧ walked.reach = schedule.duration ∧
      sequence = ⟨schedule.name, schedule.duration,
        sortBy (fun a b => a.start ≤ b.start) walked.instructions⟩ := by
  unfold sequenceWith
  rcases Walk.run lookup 0 schedule.entries (Walk.start schedule.numResources) with
    ⟨walked, _ | error⟩
  · dsimp only
    split
    · rename_i reaches
      exact ⟨fun ok => ⟨walked, rfl, reaches, (Except.ok.inj ok).symm⟩, fun ⟨_, same, _, ok⟩ => by
        cases same
        rw [ok]⟩
    · rename_i differs
      exact ⟨nofun, fun ⟨_, same, reaches, _⟩ => by
        cases same
        exact absurd reaches differs⟩
  · exact ⟨nofun, fun ⟨_, same, _⟩ => by cases same⟩

/-- A walk gets to the end of a schedule exactly if each entry uses declared resources, starts where
the earlier ones have taken them, and has an implementation if it needs one.

**Proof sketch.** This is `run_eq_none_iff` for cursors that begin at zero, with the tiling written
as sums of durations (`tiles_iff_timeOn`). -/
lemma exists_run_iff (nodup : ∀ entry ∈ schedule.entries, entry.resources.Nodup) :
    (∃ walked, Walk.run lookup 0 schedule.entries (Walk.start schedule.numResources) =
        (walked, none)) ↔
      (∀ entry ∈ schedule.entries, entry.resources ≠ []) ∧
      (∀ entry ∈ schedule.entries, ∀ resource ∈ entry.resources,
        resource < schedule.numResources) ∧
      (∀ before entry after, schedule.entries = before ++ entry :: after →
        ∀ resource ∈ entry.resources, entry.start = timeOn resource before) ∧
      ∀ entry ∈ schedule.entries, entry.operation.isMarker = false →
        entry.operation.isDelay = false →
          (lookup entry.operation.name entry.resources).isSome := by
  have size : (Walk.start schedule.numResources).cursors.size = schedule.numResources := by
    simp [Walk.start]
  rw [Walk.run_eq_none_iff nodup, Walk.cursor_start, size]
  simp only [tiles_iff_timeOn, Nat.zero_add, Walk.isSome_instructionsOf_iff]
  constructor
  · rintro ⟨⟨last, placed, -⟩, carried⟩
    refine ⟨fun entry member => (carried entry member).1, fun entry member => ?_,
      fun before entry after split resource used => ((placed before entry after split) resource
        used).2.symm, fun entry member => (carried entry member).2⟩
    obtain ⟨before, after, split⟩ := List.append_of_mem member
    exact fun resource used => (placed before entry after split resource used).1
  · rintro ⟨touching, declared, placed, implemented⟩
    refine ⟨⟨fun resource => timeOn resource schedule.entries, ?_, fun _ _ => rfl⟩,
      fun entry member => ⟨touching entry member, implemented entry member⟩⟩
    intro before entry after split resource used
    have member : entry ∈ schedule.entries := split ▸ List.mem_append_right _ List.mem_cons_self
    exact ⟨declared entry member resource used, (placed before entry after split resource
      used).symm⟩

/-- **Which schedules are sequenced.** A schedule of which no entry names a resource twice is
sequenced exactly if each entry uses some resources, all of them declared, and starts on each of
them at the sum of the durations of the earlier entries there; if every entry that is no barrier, no
timestep and no delay has an implementation; and if the latest end of a resource or an instruction
is the duration of the schedule. Its instructions then are those of one entry after the other,
sorted by their start, where those that start together keep their order; and no two entries that
share a resource overlap.

**Proof sketch.** Sequencing succeeds if the walk gets to the end, which is `exists_run_iff`, and if
what it reaches is the duration, which does not depend on the walk (`reach_of_run`). Its
instructions are collected entry by entry and sorted stably. -/
theorem sequence_iff (nodup : ∀ entry ∈ schedule.entries, entry.resources.Nodup) :
    ((∃ sequence, (schedule.sequenceWith lookup).2 = .ok sequence) ↔
      schedule.Sequenceable lookup) ∧
    ∀ sequence, (schedule.sequenceWith lookup).2 = .ok sequence →
      sequence.name = schedule.name ∧ sequence.duration = schedule.duration ∧
      StablySorted TimedInstruction.start
        (schedule.entries.flatMap (Entry.instructions lookup)) sequence.instructions ∧
      schedule.entries.Pairwise fun earlier later => ∀ resource ∈ earlier.resources,
        resource ∈ later.resources → earlier.stop ≤ later.start := by
  constructor
  · constructor
    · rintro ⟨sequence, ok⟩
      obtain ⟨walked, ran, reaches, -⟩ := sequenceWith_eq_ok.mp ok
      obtain ⟨touching, declared, placed, implemented⟩ :=
        (exists_run_iff nodup).mp ⟨walked, ran⟩
      exact ⟨touching, declared, placed, implemented, Walk.reach_of_run nodup ran ▸ reaches⟩
    · rintro ⟨touching, declared, placed, implemented, reaches⟩
      obtain ⟨walked, ran⟩ :=
        (exists_run_iff nodup).mpr ⟨touching, declared, placed, implemented⟩
      exact ⟨_, sequenceWith_eq_ok.mpr
        ⟨walked, ran, (Walk.reach_of_run nodup ran).trans reaches, rfl⟩⟩
  · intro sequence ok
    obtain ⟨walked, ran, -, rfl⟩ := sequenceWith_eq_ok.mp ok
    obtain ⟨-, tiles, -⟩ := Walk.tiles_of_run nodup ran
    refine ⟨rfl, rfl, ?_, tiles.pairwise_apart⟩
    have instructions := Walk.instructions_of_run ran
    rw [show schedule.entries.flatMap (Entry.instructions lookup) = walked.instructions from
      instructions.symm]
    exact stablySorted_sortBy _ _

/-- The relay in lock step as late as possible is sequenced, and its instructions are sorted. -/
theorem sequence_iff_relay : ∃ schedule sequence,
    (Program.relay.schedule .relay { method := "alap_timestep" }).result = .ok schedule ∧
      (∀ entry ∈ schedule.entries, entry.resources.Nodup) ∧
      (schedule.sequence .relay).2 = .ok sequence ∧
      schedule.Sequenceable Implementations.relay.toLookup ∧ sequence.duration = 9 ∧
      StablySorted TimedInstruction.start
        (schedule.entries.flatMap (Entry.instructions Implementations.relay.toLookup))
        sequence.instructions := by
  obtain ⟨schedule, sequence, ran, ok, nodup, duration⟩ : ∃ schedule sequence,
      (Program.relay.schedule .relay { method := "alap_timestep" }).result = .ok schedule ∧
        (schedule.sequence .relay).2 = .ok sequence ∧
        (∀ entry ∈ schedule.entries, entry.resources.Nodup) ∧ schedule.duration = 9 :=
    ⟨_, _, rfl, rfl, by decide, rfl⟩
  have accepted := @sequence_iff Implementations.relay.toLookup schedule nodup
  obtain ⟨-, lasts, sorted, -⟩ := accepted.2 sequence ok
  exact ⟨schedule, sequence, ran, nodup, ok, accepted.1.mp ⟨sequence, ok⟩, lasts.trans duration,
    sorted⟩

/-- What is compared with the duration of the schedule is at least the end of every instruction.

**Proof sketch.** The mismatch was not reported by the walk (`ne_durationMismatch_of_run`), so the
walk got to its end, and what it reaches is compared with the duration. -/
lemma durationMismatch_eq {expected actual : Tick}
    (failed : (schedule.sequenceWith lookup).2 = .error (.durationMismatch expected actual)) :
    expected = schedule.duration ∧ ∀ entry ∈ schedule.entries,
      ∀ instruction ∈ entry.instructions lookup, instruction.stop ≤ actual := by
  unfold sequenceWith at failed
  rcases ran : Walk.run lookup 0 schedule.entries (Walk.start schedule.numResources) with
    ⟨walked, _ | error⟩
  · rw [ran] at failed
    dsimp only at failed
    split at failed
    · cases failed
    · cases failed
      exact ⟨rfl, fun entry member instruction among =>
        Walk.stop_le_reach_of_run ran member among⟩
  · rw [ran] at failed
    cases failed
    exact absurd rfl (Walk.ne_durationMismatch_of_run ran _ _)

/-- **Overruns.** In whatever is sequenced no instruction starts before its entry, and none ends
behind the schedule. So an implementation that goes on behind the end of the schedule makes
sequencing fail, wherever in the schedule its entry stands; and if nothing else is wrong, what is
reported is how long the instructions take.

**Proof sketch.** Each instruction is collected by the walk, so its end is at most what the walk
reaches, and a sequence is accepted only if that is the duration. If an instruction ends later, the
only mismatch that can be reported is this one. -/
theorem instructions_within :
    (∀ sequence, (schedule.sequenceWith lookup).2 = .ok sequence →
      ∀ entry ∈ schedule.entries, ∀ instruction ∈ entry.instructions lookup,
        instruction ∈ sequence.instructions ∧ entry.start ≤ instruction.start ∧
          instruction.stop ≤ schedule.duration) ∧
    ∀ entry ∈ schedule.entries, ∀ instruction ∈ entry.instructions lookup,
      schedule.duration < instruction.stop →
        ∃ error, (schedule.sequenceWith lookup).2 = .error error ∧
          ∀ expected actual, error = .durationMismatch expected actual →
            expected = schedule.duration ∧ instruction.stop ≤ actual := by
  have within {sequence : Sequence} (ok : (schedule.sequenceWith lookup).2 = .ok sequence) :
      ∀ entry ∈ schedule.entries, ∀ instruction ∈ entry.instructions lookup,
        instruction ∈ sequence.instructions ∧ instruction.stop ≤ schedule.duration := by
    obtain ⟨walked, ran, reaches, rfl⟩ := sequenceWith_eq_ok.mp ok
    intro entry member instruction among
    exact ⟨(sortBy_perm _ _).mem_iff.mpr (Walk.mem_instructions_of_run ran member among),
      reaches ▸ Walk.stop_le_reach_of_run ran member among⟩
  constructor
  · intro sequence ok entry member instruction among
    obtain ⟨listed, ends⟩ := within ok entry member instruction among
    exact ⟨listed, Entry.start_le_of_mem_instructions among, ends⟩
  · intro entry member instruction among behind
    match result : (schedule.sequenceWith lookup).2 with
    | .ok sequence => exact absurd (within result entry member instruction among).2 behind.not_ge
    | .error error =>
      refine ⟨error, rfl, ?_⟩
      rintro expected actual rfl
      obtain ⟨same, ends⟩ := durationMismatch_eq result
      exact ⟨same, ends entry member instruction among⟩

end Schedule

/-- A gate, and another one behind it. -/
def Program.pair : Program where
  name := "pair"
  layout := .physical 1
  tasks := #[⟨.gate "x" [0], none⟩, ⟨.gate "y" [0], none⟩]

/-- The durations of the gates. -/
def DurationTable.pair : DurationTable :=
  .ofList [("x", [0], 3), ("y", [0], 5)]

/-- The instructions of the gates, where that of the first takes as long as given. -/
def Implementations.pair (length : Tick) : Implementations :=
  (Dictionary.empty.insert ("x", [0]) ⟨[⟨"pulse", .drive 0, 0, length⟩]⟩).insert
    ("y", [0]) ⟨[⟨"pulse", .drive 0, 0, 5⟩]⟩

/-- If the first gate is played for as long as both of them take, no instruction ends behind the
schedule, but one tick more is too much. -/
theorem Schedule.instructions_within_pair : ∃ schedule sequence,
    (Program.pair.schedule .pair {}).result = .ok schedule ∧
      (schedule.sequence (.pair 8)).2 = .ok sequence ∧
      (∀ entry ∈ schedule.entries,
        ∀ instruction ∈ entry.instructions (Implementations.pair 8).toLookup,
          instruction ∈ sequence.instructions ∧ entry.start ≤ instruction.start ∧
            instruction.stop ≤ 8) ∧
      ∃ error, (schedule.sequence (.pair 9)).2 = .error error := by
  obtain ⟨schedule, sequence, entry, others, ran, ok, listed, gate, duration⟩ :
      ∃ schedule sequence entry others, (Program.pair.schedule .pair {}).result = .ok schedule ∧
        (schedule.sequence (.pair 8)).2 = .ok sequence ∧ schedule.entries = entry :: others ∧
        entry.instructions (Implementations.pair 9).toLookup = [⟨0, "pulse", .drive 0, 9⟩] ∧
        schedule.duration = 8 := ⟨_, _, _, _, rfl, rfl, rfl, rfl, rfl⟩
  have fits := (@instructions_within (Implementations.pair 8).toLookup schedule).1 sequence ok
  obtain ⟨error, fails, -⟩ := (@instructions_within (Implementations.pair 9).toLookup schedule).2
    entry (listed ▸ List.mem_cons_self) _ (gate ▸ List.mem_cons_self) (by rw [duration]; decide)
  rw [duration] at fits
  exact ⟨schedule, sequence, ran, ok, fits, error, fails⟩

/-- The first gate is played for a tick longer than it was scheduled to take. Nothing reports this,
as the second one goes on for longer, and both play on the same channel at the same time. -/
theorem Program.sequence_overruns : ∃ schedule sequence,
    (pair.schedule .pair {}).result = .ok schedule ∧
      (schedule.sequence (.pair 4)).2 = .ok sequence ∧
      (∃ entry ∈ schedule.entries, entry.operation.isMarker = false ∧
        entry.operation.isDelay = false ∧
        ∃ instruction ∈ entry.instructions (Implementations.pair 4).toLookup,
          instruction ∈ sequence.instructions ∧ entry.start + entry.duration < instruction.stop) ∧
      ∃ a ∈ sequence.instructions, ∃ b ∈ sequence.instructions, a ≠ b ∧ a.Clashes b :=
  ⟨_, _, rfl, rfl, by decide, by decide⟩

end Timetable
