import Mathlib.Data.Nat.Basic
import Mathlib.Order.Basic
import Timetable.Timeline

/-!
# Tilings

Entries tile the time between two fronts if they can be laid down one after the other, each
starting exactly where all of its resources have come to and taking them as far as it lasts, so
that the resources end up at the second front. On every resource such entries follow each other
without a gap and without an overlap.

## Main definitions

* `Entry.advance` — a front behind one more entry.
* `Tiles` — entries that lead from one front to another.
* `Entry.mirrored` — an entry at the opposite place within a span of time.
* `Schedule.GapFree` — a schedule whose entries lead all resources from tick zero to its end.

## Main results

* `tiles_append` — tilings compose.
* `Tiles.pairwise`, `Tiles.exists_covering` — no overlaps and no gaps on any resource.
* `Tiles.latestStop_eq` — the common front at the end is the latest end of an entry.
* `Tiles.mirrored` — a tiling read backwards in time is a tiling.
-/

set_option autoImplicit false

namespace Timetable

namespace Entry

/-- The front behind an entry, which takes each of its resources for its duration. A front says of
every resource how far it is taken. -/
def advance (entry : Entry) (front : Resource → Tick) : Resource → Tick := fun resource =>
  if entry.uses resource then front resource + entry.duration else front resource

/-- An entry uses the resources of its operation. -/
@[simp]
lemma uses_iff {entry : Entry} {resource : Resource} :
    entry.uses resource = true ↔ resource ∈ entry.resources := by
  simp [uses]

/-- An entry takes its own resources further. -/
lemma advance_of_mem {entry : Entry} {front : Resource → Tick} {resource : Resource}
    (used : resource ∈ entry.resources) :
    entry.advance front resource = front resource + entry.duration := by
  simp [advance, used]

/-- An entry leaves the other resources where they are. -/
lemma advance_of_notMem {entry : Entry} {front : Resource → Tick} {resource : Resource}
    (unused : resource ∉ entry.resources) : entry.advance front resource = front resource := by
  simp [advance, unused]

/-- An entry takes no resource back. -/
lemma le_advance (entry : Entry) (front : Resource → Tick) (resource : Resource) :
    front resource ≤ entry.advance front resource := by
  unfold advance
  split
  · exact Nat.le_add_right _ _
  · exact Nat.le_refl _

end Entry

/-- The latest end of entries is the least upper bound of their ends. -/
lemma latestStop_le_iff {entries : List Entry} {bound : Tick} :
    latestStop entries ≤ bound ↔ ∀ entry ∈ entries, entry.stop ≤ bound :=
  latest_le_iff.trans List.forall_mem_map

/-- No entry ends behind the latest end. -/
lemma stop_le_latestStop {entries : List Entry} {entry : Entry} (member : entry ∈ entries) :
    entry.stop ≤ latestStop entries :=
  latestStop_le_iff.mp le_rfl entry member

/-- Entries lead from the front `first` to the front `last`: walking them in order, each entry uses
declared resources only and starts exactly where all of them have come to. -/
def Tiles (numResources : Nat) : (first : Resource → Tick) → List Entry → (last : Resource → Tick) →
    Prop
  | first, [], last => ∀ resource < numResources, first resource = last resource
  | first, entry :: entries, last =>
    (∀ resource ∈ entry.resources, resource < numResources ∧ first resource = entry.start) ∧
      Tiles numResources (entry.advance first) entries last

section

variable {numResources : Nat} {first middle last : Resource → Tick} {entries others : List Entry}

/-! ## Composition -/

/-- No entries lead from a front to itself. -/
lemma Tiles.refl (numResources : Nat) (front : Resource → Tick) :
    Tiles numResources front [] front :=
  fun _ _ => rfl

/-- Only the declared resources of the two fronts matter. -/
lemma Tiles.congr {first' last' : Resource → Tick} (tiles : Tiles numResources first entries last)
    (same : ∀ resource < numResources, first resource = first' resource)
    (same' : ∀ resource < numResources, last resource = last' resource) :
    Tiles numResources first' entries last' := by
  induction entries generalizing first first' with
  | nil => exact fun r declared => by rw [← same r declared, tiles r declared, same' r declared]
  | cons entry entries ih =>
    obtain ⟨placed, rest⟩ := tiles
    refine ⟨fun r used => ?_, ih rest fun r declared => ?_⟩
    · obtain ⟨declared, start⟩ := placed r used
      exact ⟨declared, by rw [← same r declared, start]⟩
    · simp only [Entry.advance, same r declared]

/-- Tilings compose, and a tiling can be cut anywhere.

**Proof sketch.** Induction on the first list, with the front after it as the one in the middle. -/
theorem tiles_append : Tiles numResources first (entries ++ others) last ↔
    ∃ middle, Tiles numResources first entries middle ∧ Tiles numResources middle others last := by
  induction entries generalizing first with
  | nil =>
    refine ⟨fun tiles => ⟨first, .refl _ _, tiles⟩, ?_⟩
    rintro ⟨middle, same, tiles⟩
    exact tiles.congr (fun r declared => (same r declared).symm) fun _ _ => rfl
  | cons entry entries ih =>
    simp only [List.cons_append, Tiles, ih]
    exact ⟨fun ⟨placed, middle, before, after⟩ => ⟨middle, ⟨placed, before⟩, after⟩,
      fun ⟨middle, ⟨placed, before⟩, after⟩ => ⟨placed, middle, before, after⟩⟩

/-- One tiling behind another. -/
lemma Tiles.append (before : Tiles numResources first entries middle)
    (after : Tiles numResources middle others last) :
    Tiles numResources first (entries ++ others) last :=
  tiles_append.mpr ⟨middle, before, after⟩

/-- An entry that starts where its resources have come to, behind a tiling. -/
lemma Tiles.concat (before : Tiles numResources first entries middle) {entry : Entry}
    (placed : ∀ resource ∈ entry.resources,
      resource < numResources ∧ middle resource = entry.start) :
    Tiles numResources first (entries ++ [entry]) (entry.advance middle) :=
  before.append ⟨placed, .refl _ _⟩

/-- Entries lead from one front to one other front only. -/
lemma Tiles.last_unique {last' : Resource → Tick} (tiles : Tiles numResources first entries last)
    (tiles' : Tiles numResources first entries last') {resource : Resource}
    (declared : resource < numResources) : last resource = last' resource := by
  induction entries generalizing first with
  | nil => exact (tiles resource declared).symm.trans (tiles' resource declared)
  | cons entry entries ih => exact ih tiles.2 tiles'.2

/-! ## What a tiling says about single entries -/

/-- A tiling takes no resource back. -/
lemma Tiles.mono (tiles : Tiles numResources first entries last) {resource : Resource}
    (declared : resource < numResources) : first resource ≤ last resource := by
  induction entries generalizing first with
  | nil => exact (tiles resource declared).le
  | cons entry entries ih => exact (entry.le_advance first resource).trans (ih tiles.2)

/-- On each resource it uses, which is declared, an entry of a tiling lies between the two fronts.

**Proof sketch.** Cut in front of the entry, the tiling takes the resource to the start of the entry
first, then to its end, and on to the last front; and no part of a tiling takes a resource back. -/
lemma Tiles.between (tiles : Tiles numResources first entries last) {entry : Entry}
    (member : entry ∈ entries) {resource : Resource} (used : resource ∈ entry.resources) :
    resource < numResources ∧ first resource ≤ entry.start ∧ entry.stop ≤ last resource := by
  obtain ⟨front, back, rfl⟩ := List.append_of_mem member
  obtain ⟨middle, before, placed, behind⟩ := tiles_append.mp tiles
  obtain ⟨declared, start⟩ := placed resource used
  have ends := behind.mono declared
  rw [Entry.advance_of_mem used, start] at ends
  exact ⟨declared, start ▸ before.mono declared, ends⟩

/-- The entries of a tiling use declared resources only. -/
lemma Tiles.declared (tiles : Tiles numResources first entries last) {entry : Entry}
    (member : entry ∈ entries) {resource : Resource} (used : resource ∈ entry.resources) :
    resource < numResources :=
  (tiles.between member used).1

/-- No entry of a tiling starts before the first front. -/
lemma Tiles.le_start (tiles : Tiles numResources first entries last) {entry : Entry}
    (member : entry ∈ entries) {resource : Resource} (used : resource ∈ entry.resources) :
    first resource ≤ entry.start :=
  (tiles.between member used).2.1

/-- No entry of a tiling ends behind the last front. -/
lemma Tiles.stop_le (tiles : Tiles numResources first entries last) {entry : Entry}
    (member : entry ∈ entries) {resource : Resource} (used : resource ∈ entry.resources) :
    entry.stop ≤ last resource :=
  (tiles.between member used).2.2

/-! ## No overlaps, no gaps -/

/-- On every resource the entries of a tiling follow each other in list order without overlaps.

**Proof sketch.** Induction on the entries. The first one starts where the resource is and takes it
to its end, and no later entry on the resource starts before that (`Tiles.le_start`). -/
theorem Tiles.pairwise (tiles : Tiles numResources first entries last) (resource : Resource) :
    (entries.filter fun entry => entry.uses resource).Pairwise
      fun earlier later => earlier.stop ≤ later.start := by
  induction entries generalizing first with
  | nil => exact .nil
  | cons entry entries ih =>
    rw [List.filter_cons]
    split
    · rename_i used
      rw [Entry.uses_iff] at used
      refine List.pairwise_cons.mpr ⟨fun later member => ?_, ih tiles.2⟩
      obtain ⟨member, uses⟩ := List.mem_filter.mp member
      have start := (tiles.1 resource used).2
      have front := tiles.2.le_start member (Entry.uses_iff.mp uses)
      rw [Entry.advance_of_mem used, start] at front
      exact front
    · exact ih tiles.2

/-- On every resource the entries of a tiling cover each tick between the two fronts.

**Proof sketch.** Induction on the entries. The first one covers the tick if it uses the resource
and ends behind the tick; otherwise the front after it has not passed the tick. -/
theorem Tiles.exists_covering (tiles : Tiles numResources first entries last)
    {resource : Resource} (declared : resource < numResources) {tick : Tick}
    (from_first : first resource ≤ tick) (before_last : tick < last resource) :
    ∃ entry ∈ entries, resource ∈ entry.resources ∧ entry.start ≤ tick ∧ tick < entry.stop := by
  induction entries generalizing first with
  | nil =>
    have same := tiles resource declared
    lia
  | cons entry entries ih =>
    by_cases inside : resource ∈ entry.resources ∧ tick < first resource + entry.duration
    · obtain ⟨used, short⟩ := inside
      have start := (tiles.1 resource used).2
      exact ⟨entry, List.mem_cons_self, used, by lia, by unfold Entry.stop; lia⟩
    · have behind : entry.advance first resource ≤ tick := by
        by_cases used : resource ∈ entry.resources
        · rw [Entry.advance_of_mem used]
          exact Nat.le_of_not_lt fun short => inside ⟨used, short⟩
        · rwa [Entry.advance_of_notMem used]
      obtain ⟨found, member, rest⟩ := ih tiles.2 behind
      exact ⟨found, List.mem_cons_of_mem _ member, rest⟩

/-! ## The end of a tiling -/

/-- Entries that each use a resource and lead from tick zero everywhere to one common tick end at
that tick.

**Proof sketch.** No entry ends behind the last front. If the common tick is not zero, the tick
before it on the first resource is covered by some entry, which therefore ends no earlier. -/
theorem Tiles.latestStop_eq {total : Tick}
    (tiles : Tiles numResources (fun _ => 0) entries fun _ => total)
    (touching : ∀ entry ∈ entries, entry.resources ≠ []) (some_resource : 0 < numResources) :
    latestStop entries = total := by
  apply Nat.le_antisymm
  · refine latestStop_le_iff.mpr fun entry member => ?_
    obtain ⟨resource, used⟩ := List.exists_mem_of_ne_nil _ (touching entry member)
    exact tiles.stop_le member used
  · rcases Nat.eq_zero_or_pos total with rfl | positive
    · exact Nat.zero_le _
    · obtain ⟨entry, member, -, -, inside⟩ :=
        tiles.exists_covering some_resource (Nat.zero_le (total - 1))
          (Nat.sub_one_lt_of_lt positive)
      have bound := stop_le_latestStop member
      lia

/-- Without resources there are no entries that use any. -/
lemma Tiles.eq_nil (tiles : Tiles 0 first entries last)
    (touching : ∀ entry ∈ entries, entry.resources ≠ []) : entries = [] :=
  List.eq_nil_iff_forall_not_mem.mpr fun entry member => by
    obtain ⟨resource, used⟩ := List.exists_mem_of_ne_nil _ (touching entry member)
    exact Nat.not_lt_zero resource (tiles.declared member used)

/-- Two tilings that lead from tick zero everywhere to one common tick end at the same tick. -/
lemma Tiles.latestStop_congr {total : Tick}
    (tiles : Tiles numResources (fun _ => 0) entries fun _ => total)
    (tiles' : Tiles numResources (fun _ => 0) others fun _ => total)
    (touching : ∀ entry ∈ entries, entry.resources ≠ [])
    (touching' : ∀ entry ∈ others, entry.resources ≠ []) :
    latestStop entries = latestStop others := by
  rcases Nat.eq_zero_or_pos numResources with rfl | positive
  · rw [tiles.eq_nil touching, tiles'.eq_nil touching']
  · rw [tiles.latestStop_eq touching positive, tiles'.latestStop_eq touching' positive]

/-- The common tick at the end of a tiling can be read off its entries. -/
lemma Tiles.to_latestStop {total : Tick}
    (tiles : Tiles numResources (fun _ => 0) entries fun _ => total)
    (touching : ∀ entry ∈ entries, entry.resources ≠ []) :
    Tiles numResources (fun _ => 0) entries fun _ => latestStop entries := by
  refine tiles.congr (fun _ _ => rfl) ?_
  intro resource declared
  exact (tiles.latestStop_eq touching (Nat.zero_lt_of_lt declared)).symm

/-! ## Time reversal -/

/-- The entry at the opposite place within `total` ticks, with its source translated. -/
def Entry.mirrored (total : Tick) (origin : OpId → Option OpId) (entry : Entry) : Entry :=
  { entry with start := total - entry.stop, source := entry.source.bind origin }

/-- A tiling read backwards in time is a tiling.

**Proof sketch.** Induction on the entries. Read backwards, the first entry comes last. It started
where its resources had come to, so it now ends there, seen from `total`; and the front behind it
is the one the others have to reach first. -/
theorem Tiles.mirrored {total : Tick} (origin : OpId → Option OpId)
    (tiles : Tiles numResources first entries last)
    (bounded : ∀ resource < numResources, last resource ≤ total) :
    Tiles numResources (fun resource => total - last resource)
      (entries.reverse.map (Entry.mirrored total origin))
      fun resource => total - first resource := by
  induction entries generalizing first with
  | nil => exact fun resource declared => congrArg (total - ·) (tiles resource declared).symm
  | cons entry entries ih =>
    rw [List.reverse_cons, List.map_append]
    refine (ih tiles.2).append ⟨fun resource used => ?_, fun resource declared => ?_⟩
    · have used : resource ∈ entry.resources := used
      obtain ⟨declared, start⟩ := tiles.1 resource used
      refine ⟨declared, ?_⟩
      simp only [Entry.advance_of_mem used, start, Entry.mirrored, Entry.stop]
    · have within := (tiles.2.mono declared).trans (bounded resource declared)
      by_cases used : resource ∈ entry.resources
      · have used' : resource ∈ (entry.mirrored total origin).resources := used
        rw [Entry.advance_of_mem used] at within
        rw [Entry.advance_of_mem used', Entry.advance_of_mem used]
        show total - (first resource + entry.duration) + entry.duration = total - first resource
        lia
      · have unused : resource ∉ (entry.mirrored total origin).resources := used
        rw [Entry.advance_of_notMem unused, Entry.advance_of_notMem used]

end

/-! ## Schedules -/

/-- A schedule without gaps: its entries, each of which uses a resource, lead all declared
resources from tick zero to its duration, which is in the cache. -/
structure Schedule.GapFree (schedule : Schedule) : Prop where
  cached : schedule.cached = some schedule.total
  touching : ∀ entry ∈ schedule.entries, entry.resources ≠ []
  tiles : Tiles schedule.numResources (fun _ => 0) schedule.entries fun _ => schedule.total

namespace Schedule

variable {schedule : Schedule}

/-- A schedule whose duration is in the cache has no gaps if its entries lead all resources to any
common tick. -/
lemma gapFree_of_tiles {total : Tick} (cached : schedule.cached = some schedule.total)
    (touching : ∀ entry ∈ schedule.entries, entry.resources ≠ [])
    (tiles : Tiles schedule.numResources (fun _ => 0) schedule.entries fun _ => total) :
    schedule.GapFree :=
  ⟨cached, touching, tiles.to_latestStop touching⟩

/-- If the latest end of the entries is in the cache, it is the duration. -/
lemma duration_of_cached (cached : schedule.cached = some schedule.total) :
    schedule.duration = schedule.total := by
  rw [duration, cached, Option.getD_some]

/-- The duration of a schedule without gaps is the latest end of its entries. -/
lemma GapFree.duration_eq (gapFree : schedule.GapFree) : schedule.duration = schedule.total :=
  duration_of_cached gapFree.cached

end Schedule

end Timetable
