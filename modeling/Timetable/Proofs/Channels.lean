import Timetable.Proofs.Rescheduling
import Timetable.Proofs.Sequencing

/-!
# Channels are exclusive

If the instructions of every gate stay within the time and on the channels of its resources,
whatever was scheduled can be sequenced, and takes as long as it was scheduled to. No resource is
used twice at a time, so no channel is either, however the instructions are sorted.

## Main definitions

* `TimedInstruction.Clashes` — two instructions use a channel at the same time.
* `Implementation.Fits` — an implementation stays within the time and on the channels of an entry.

## Main results

* `Schedule.Tight.exists_sequence` — a tight schedule can be sequenced, without clashes.
* `Program.schedule_sequence` — so can whatever was scheduled.
-/

set_option autoImplicit false

namespace Timetable

variable {entry : Entry} {lookup : ImplementationLookup}

/-- Two instructions of positive duration play on the same channel at some tick. -/
def TimedInstruction.Clashes (a b : TimedInstruction) : Prop :=
  a.channel = b.channel ∧ 0 < a.duration ∧ 0 < b.duration ∧ a.start < b.stop ∧ b.start < a.stop

instance : DecidableRel TimedInstruction.Clashes := fun _ _ => inferInstanceAs (Decidable (_ ∧ _))

/-- An implementation stays within the time of an entry and on the channels of its resources, and
its own instructions do not clash. -/
structure Implementation.Fits (implementation : Implementation) (entry : Entry) : Prop where
  within : ∀ instruction ∈ implementation.instructions,
    instruction.offset + instruction.duration ≤ entry.duration
  own : ∀ instruction ∈ implementation.instructions, ∃ resource ∈ entry.resources,
    instruction.channel ∈ Channel.ofResource resource
  exclusive : implementation.instructions.Pairwise fun a b =>
    ¬ (a.placedAt 0).Clashes (b.placedAt 0)

instance (implementation : Implementation) (entry : Entry) :
    Decidable (implementation.Fits entry) :=
  decidable_of_iff (_ ∧ _ ∧ _)
    ⟨fun ⟨within, own, exclusive⟩ => ⟨within, own, exclusive⟩,
      fun ⟨within, own, exclusive⟩ => ⟨within, own, exclusive⟩⟩

/-- If an entry is a gate, there is an implementation for it, which fits. -/
def Entry.Implemented (lookup : ImplementationLookup) (entry : Entry) : Prop :=
  match entry.operation with
  | .gate name resources => ∃ implementation ∈ lookup name resources, implementation.Fits entry
  | _ => True

instance (lookup : ImplementationLookup) : (entry : Entry) → Decidable (entry.Implemented lookup)
  | ⟨.gate name resources, start, duration, source⟩ =>
    inferInstanceAs (Decidable (∃ implementation ∈ lookup name resources,
      implementation.Fits ⟨.gate name resources, start, duration, source⟩))
  | ⟨.delay .., _, _, _⟩ => isTrue trivial
  | ⟨.barrier .., _, _, _⟩ => isTrue trivial
  | ⟨.timestep .., _, _, _⟩ => isTrue trivial

/-! ## Clashes -/

/-- If one instruction clashes with another, the other one clashes with it. -/
lemma TimedInstruction.Clashes.symm {a b : TimedInstruction} (clashes : a.Clashes b) :
    b.Clashes a :=
  ⟨clashes.1.symm, clashes.2.2.1, clashes.2.1, clashes.2.2.2.2, clashes.2.2.2.1⟩

/-- Instructions that clash still do when both are moved. -/
lemma Instruction.clashes_placedAt {a b : Instruction} {tick : Tick}
    (clashes : (a.placedAt tick).Clashes (b.placedAt tick)) :
    (a.placedAt 0).Clashes (b.placedAt 0) := by
  obtain ⟨channel, some_time, some_time', before, before'⟩ := clashes
  refine ⟨channel, some_time, some_time', ?_, ?_⟩ <;>
    simp only [TimedInstruction.stop, placedAt] at before before' ⊢ <;> lia

/-- A channel belongs to one resource only. -/
lemma Channel.resource_unique {channel : Channel} {resource other : Resource}
    (belongs : channel ∈ ofResource resource) (belongs' : channel ∈ ofResource other) :
    resource = other := by
  simp only [ofResource, List.mem_cons, List.not_mem_nil, or_false] at belongs belongs'
  rcases belongs with rfl | rfl | rfl <;> simpa using belongs'

/-! ## The instructions of an entry -/

namespace Entry.Implemented

/-- An entry that is implemented can be carried out. -/
lemma carried (implemented : entry.Implemented lookup) :
    (Walk.instructionsOf lookup entry).isSome := by
  unfold Entry.Implemented at implemented
  unfold Walk.instructionsOf
  cases operation : entry.operation with
  | gate name resources =>
    rw [operation] at implemented
    obtain ⟨implementation, found, -⟩ := implemented
    simp [Option.mem_def.mp found]
  | delay | barrier | timestep => rfl

/-- The instructions of an entry stay within its time and on the channels of its resources.

**Proof sketch.** A gate has an implementation that stays within its time and on its channels,
relative to where it starts. Idle time gives instructions that take no time on the channels of its
resource, and markers give none. -/
lemma mem_emitted (implemented : entry.Implemented lookup) {instruction : TimedInstruction}
    (member : instruction ∈ Walk.emitted lookup entry) :
    entry.start ≤ instruction.start ∧ instruction.stop ≤ entry.stop ∧
      ∃ resource ∈ entry.resources, instruction.channel ∈ Channel.ofResource resource := by
  unfold Entry.Implemented at implemented
  unfold Walk.emitted Walk.instructionsOf at member
  cases operation : entry.operation with
  | gate name resources =>
    rw [operation] at implemented
    obtain ⟨implementation, found, fits⟩ := implemented
    simp only [operation, Option.mem_def.mp found, Option.map_some, Option.getD_some,
      List.mem_map] at member
    obtain ⟨relative, among, rfl⟩ := member
    refine ⟨Nat.le_add_right _ _, ?_, fits.own relative among⟩
    have within := fits.within relative among
    simp only [TimedInstruction.stop, Instruction.placedAt, Entry.stop]
    lia
  | delay span resource =>
    simp only [operation, Walk.idle, Option.getD_some, List.mem_map] at member
    obtain ⟨channel, among, rfl⟩ := member
    refine ⟨le_rfl, le_rfl, resource, ?_, among⟩
    simp [Entry.resources, operation, Operation.resources]
  | barrier | timestep => simp [operation] at member

/-- The instructions of an entry do not clash with each other.

**Proof sketch.** The instructions of an implementation exclude each other, and placing them at a
tick does not change this. Idle time has one instruction, and markers have none. -/
lemma pairwise_emitted (implemented : entry.Implemented lookup) :
    (Walk.emitted lookup entry).Pairwise fun a b => ¬ a.Clashes b := by
  unfold Entry.Implemented at implemented
  unfold Walk.emitted Walk.instructionsOf
  cases operation : entry.operation with
  | gate name resources =>
    rw [operation] at implemented
    obtain ⟨implementation, found, fits⟩ := implemented
    simp only [Option.mem_def.mp found, Option.map_some, Option.getD_some]
    exact List.pairwise_map.mpr (fits.exclusive.imp fun apart clashes =>
      apart (Instruction.clashes_placedAt clashes))
  | delay span resource =>
    simp [Walk.idle, Channel.ofResource, TimedInstruction.Clashes]
  | barrier | timestep => simp

end Entry.Implemented

/-- Instructions of entries that do not overlap on any resource do not clash. -/
lemma Entry.Implemented.not_clashes {later : Entry} (implemented : entry.Implemented lookup)
    (implemented' : later.Implemented lookup)
    (apart : ∀ resource ∈ entry.resources, resource ∈ later.resources → entry.stop ≤ later.start)
    {a b : TimedInstruction} (member : a ∈ Walk.emitted lookup entry)
    (member' : b ∈ Walk.emitted lookup later) : ¬ a.Clashes b := by
  rintro ⟨channel, -, -, -, before⟩
  obtain ⟨-, within, resource, used, own⟩ := implemented.mem_emitted member
  obtain ⟨within', -, other, used', own'⟩ := implemented'.mem_emitted member'
  obtain rfl := Channel.resource_unique own (channel ▸ own')
  have behind := apart resource used used'
  lia

/-! ## The instructions of a schedule -/

/-- In a tiling an entry that shares a resource with a later one has ended when that one starts. -/
lemma Tiles.pairwise_apart {numResources : Nat} {first last : Resource → Tick}
    {entries : List Entry} (tiles : Tiles numResources first entries last) :
    entries.Pairwise fun earlier later => ∀ resource ∈ earlier.resources,
      resource ∈ later.resources → earlier.stop ≤ later.start := by
  refine List.pairwise_iff_forall_sublist.mpr fun {earlier later} before resource used used' => ?_
  have apart := List.pairwise_filter.mp (tiles.pairwise resource)
  exact List.pairwise_iff_forall_sublist.mp apart before (Entry.uses_iff.mpr used)
    (Entry.uses_iff.mpr used')

namespace Schedule.Tight

variable {schedule : Schedule}

/-- The instructions of the entries of a tight schedule do not clash. -/
lemma pairwise_emitted (tight : schedule.Tight)
    (implemented : ∀ entry ∈ schedule.entries, entry.Implemented lookup) :
    (schedule.entries.flatMap (Walk.emitted lookup)).Pairwise fun a b => ¬ a.Clashes b := by
  rw [List.pairwise_flatMap]
  refine ⟨fun entry member => (implemented entry member).pairwise_emitted, ?_⟩
  refine tight.tiles.pairwise_apart.imp_of_mem fun {entry later} member member' apart => ?_
  intro a among b among'
  exact (implemented entry member).not_clashes (implemented later member') apart among among'

/-- A walk to the end of a tight schedule reaches as far as the schedule.

**Proof sketch.** All cursors are at the total, and no instruction ends behind its entry, so the
walk reaches no further than the total. Every entry uses a declared resource and ends by where the
cursor of this resource has come to, so the walk reaches as far. -/
lemma reach_eq (tight : schedule.Tight)
    (implemented : ∀ entry ∈ schedule.entries, entry.Implemented lookup) {walked : Walk}
    (size : walked.cursors.size = schedule.numResources)
    (cursor : ∀ resource < schedule.numResources, walked.cursor resource = schedule.total)
    (instructions : walked.instructions = schedule.entries.flatMap (Walk.emitted lookup)) :
    walked.reach = schedule.total := by
  have cursor_at : ∀ (resource : Resource) (inside : resource < walked.cursors.toList.length),
      walked.cursors.toList[resource] = schedule.total := by
    intro resource inside
    have inside : resource < walked.cursors.size := by simpa using inside
    rw [← cursor resource (size ▸ inside), Walk.cursor, Array.getElem?_eq_getElem inside]
    rfl
  apply Nat.le_antisymm
  · refine Nat.max_le.mpr ⟨latest_le_iff.mpr fun tick member => ?_,
      latest_le_iff.mpr fun tick member => ?_⟩
    · obtain ⟨resource, inside, rfl⟩ := List.mem_iff_getElem.mp member
      exact (cursor_at resource inside).le
    · obtain ⟨instruction, among, rfl⟩ := List.mem_map.mp member
      rw [instructions] at among
      obtain ⟨entry, member, among⟩ := List.mem_flatMap.mp among
      obtain ⟨-, within, -⟩ := (implemented entry member).mem_emitted among
      exact within.trans (stop_le_latestStop member)
  · refine latestStop_le_iff.mpr fun entry member => ?_
    obtain ⟨resource, used⟩ := List.exists_mem_of_ne_nil _ (tight.touching entry member)
    have declared := tight.tiles.declared member used
    have inside : resource < walked.cursors.toList.length := by simpa [size] using declared
    have reaches : schedule.total ∈ walked.cursors.toList :=
      cursor_at resource inside ▸ List.getElem_mem inside
    exact (tight.tiles.stop_le member used).trans ((le_latest reaches).trans (Nat.le_max_left _ _))

/-- A tight schedule whose gates are implemented can be sequenced. Its instructions are in the order
of their starts, and none of them clash.

**Proof sketch.** The walk finds each entry where the cursors are, because the schedule is a tiling
(`Walk.exists_run_of_tiles`), and at its end it reaches as far as the schedule (`reach_eq`), which
is the check on the duration. The instructions are sorted by their starts, and sorting only reorders
them, so that they are apart because those of different entries are (`pairwise_emitted`). -/
theorem exists_sequence (tight : schedule.Tight) (cached : schedule.cached = some schedule.total)
    (implemented : ∀ entry ∈ schedule.entries, entry.Implemented lookup) :
    ∃ sequence, (schedule.sequenceWith lookup).2 = .ok sequence ∧
      schedule.cached = some sequence.duration ∧
      (sequence.instructions.Pairwise fun a b => a.start ≤ b.start) ∧
      sequence.instructions.Pairwise fun a b => ¬ a.Clashes b := by
  have size : (Walk.start schedule.numResources).cursors.size = schedule.numResources := by
    simp [Walk.start]
  have tiles : Tiles (Walk.start schedule.numResources).cursors.size
      (Walk.start schedule.numResources).cursor schedule.entries fun _ => schedule.total := by
    rw [Walk.cursor_start, size]
    exact tight.tiles
  obtain ⟨walked, ran, same, cursor, instructions⟩ := Walk.exists_run_of_tiles tiles tight.touching
    tight.nodup (fun entry member => (implemented entry member).carried) 0
  rw [size] at same cursor
  have duration := duration_of_cached cached
  have reach : walked.reach = schedule.duration :=
    (tight.reach_eq implemented same cursor instructions).trans duration.symm
  have emitted : walked.instructions = schedule.entries.flatMap (Walk.emitted lookup) :=
    instructions
  refine ⟨⟨schedule.name, schedule.duration,
    sortBy (fun a b => a.start ≤ b.start) walked.instructions⟩, ?_, duration ▸ cached, ?_, ?_⟩
  · simp only [sequenceWith, ran, if_pos reach]
  · refine (pairwise_sortBy ?_ ?_ walked.instructions).imp of_decide_eq_true
    · intro a b
      simpa using Nat.le_total a.start b.start
    · intro a b c before before'
      simp only [decide_eq_true_eq] at before before' ⊢
      exact before.trans before'
  · have apart := tight.pairwise_emitted implemented
    rw [← emitted] at apart
    exact (sortBy_perm _ _).symm.pairwise apart fun clear clashes => clear clashes.symm

end Schedule.Tight

namespace Program

variable {program : Program} {table : DurationTable} {settings : Settings} {schedule : Schedule}

/-- **Channels are exclusive.** Whatever was scheduled for a program that was built can be sequenced
if every gate of the schedule has an implementation within its time and on the channels of its
resources that does not clash with itself. The instructions take as long as the schedule, are in the
order of their starts, and do not clash. As late as possible outside of lock step, the program may
not have timesteps.

**Proof sketch.** What is scheduled is tight: a tiling with the resources of each entry distinct
(`schedule_tight`). So `exists_sequence` applies. -/
theorem schedule_sequence (built : program.Built)
    (plain : settings.method = "alap" →
      ∀ operation ∈ program.operations, operation.isTimestep = false)
    (ok : (program.schedule table settings).result = .ok schedule)
    (implemented : ∀ entry ∈ schedule.entries, entry.Implemented lookup) :
    ∃ sequence, (schedule.sequenceWith lookup).2 = .ok sequence ∧
      schedule.cached = some sequence.duration ∧
      (sequence.instructions.Pairwise fun a b => a.start ≤ b.start) ∧
      sequence.instructions.Pairwise fun a b => ¬ a.Clashes b := by
  obtain ⟨-, gapFree⟩ := schedule_gapFree built.wellFormed plain ok
  exact (schedule_tight built.wellFormed plain ok).exists_sequence gapFree.cached implemented

end Program

/-- The instructions of the gates of the relay. -/
def Implementations.relay : Implementations :=
  ((Dictionary.empty.insert
    ("h", [0]) ⟨[⟨"pulse", .drive 0, 0, 2⟩, ⟨"frame", .drive 0, 1, 0⟩]⟩).insert
    ("cx", [0, 1]) ⟨[⟨"pulse", .drive 1, 0, 4⟩, ⟨"pulse", .drive 0, 2, 2⟩]⟩).insert
    ("x", [2]) ⟨[⟨"readout", .measure 2, 0, 2⟩, ⟨"capture", .acquire 2, 1, 1⟩]⟩

/-- The relay in lock step as late as possible. -/
theorem Program.schedule_sequence_relay :
    ∃ schedule sequence,
      (relay.schedule .relay { method := "alap_timestep" }).result = .ok schedule ∧
      (schedule.sequence .relay).2 = .ok sequence ∧ sequence.duration = 9 ∧
      (sequence.instructions.Pairwise fun a b => a.start ≤ b.start) ∧
      sequence.instructions.Pairwise fun a b => ¬ a.Clashes b := by
  have plain : ∀ operation ∈ relay.operations, operation.isTimestep = false := by decide
  have ok : (relay.schedule .relay { method := "alap_timestep" }).result = .ok _ := rfl
  obtain ⟨sequence, sequenced, cached, sorted, apart⟩ :=
    @schedule_sequence Implementations.relay.toLookup _ _ _ _ built_relay (fun _ => plain) ok
      (by decide)
  exact ⟨_, sequence, ok, sequenced, (Option.some.inj cached).symm, sorted, apart⟩

end Timetable
