import Mathlib.Algebra.Order.Monoid.Unbundled.Basic
import Mathlib.Data.List.Nodup
import Mathlib.Logic.Function.Basic
import Timetable.Proofs.Parts

/-!
# Idle time is determined by the operations

Idle time that fills a gap bridges it: on its resource it begins where an operation ends, or at the
first tick of all, and it ends where an operation starts, or at the last tick. Since on every
resource no two entries overlap and no tick is left out, this leaves no choice. Two lists of entries
in which the same operations stand at the same places have the same idle time, whatever the order in
which they were written.

## Main definitions

* `Entry.relabeled` — an entry whose operation has another number.
* `Bridged` — entries whose idle time bridges the gaps between operations.
* `Timeline.Bridges` — this is so while entries are placed along a timeline.

## Main results

* `Timeline.Bridges.place`, `Timeline.Bridges.closed` — whatever is placed leaves gaps bridged.
* `Bridged.perm` — the same operations come with the same idle time.
-/

set_option autoImplicit false

namespace Timetable

/-- An entry whose operation has another number. -/
def Entry.relabeled (rename : OpId → OpId) (entry : Entry) : Entry :=
  { entry with source := entry.source.map rename }

/-- An entry that was made from an operation has its edge, which is its start or its end, at a tick
on a resource. -/
def EdgeAt (edge : Entry → Tick) (entries : List Entry) (resource : Resource) (tick : Tick) :
    Prop :=
  ∃ entry ∈ entries, entry.source ≠ none ∧ resource ∈ entry.resources ∧ edge entry = tick

/-- An entry that was made from an operation starts at a tick on a resource. -/
abbrev StartsAt : List Entry → Resource → Tick → Prop := EdgeAt Entry.start

/-- An entry that was made from an operation ends at a tick on a resource. -/
abbrev StopsAt : List Entry → Resource → Tick → Prop := EdgeAt Entry.stop

/-- Entries lead from one tick to another on all resources, and those that were made from no
operation bridge the gaps between the others with idle time of positive length. -/
structure Bridged (numResources : Nat) (first last : Tick) (entries : List Entry) : Prop where
  tiles : Tiles numResources (fun _ => first) entries fun _ => last
  idle : ∀ entry ∈ entries, entry.source = none → ∃ resource start stop, start < stop ∧
    entry = .idle resource start (stop - start) ∧
    (start = first ∨ StopsAt entries resource start) ∧
    (stop = last ∨ StartsAt entries resource stop)

/-- The entries placed along a timeline take every resource to the end of an operation, and those
that were made from no operation bridge gaps. -/
structure Timeline.Bridges (timeline : Timeline) (entries : List Entry) : Prop where
  free : ∀ resource, timeline.free resource = 0 ∨
    StopsAt entries resource (timeline.origin + timeline.free resource)
  idle : ∀ entry ∈ entries, entry.source = none → ∃ resource start stop, start < stop ∧
    entry = .idle resource start (stop - start) ∧
    (start = timeline.origin ∨ StopsAt entries resource start) ∧ StartsAt entries resource stop

/-- Entries that were made from operations stand at the same places in both lists, but for their
numbers. -/
def SameOperations (rename : OpId → OpId) (entries others : List Entry) : Prop :=
  ∀ entry, entry.source ≠ none → (entry.relabeled rename ∈ others ↔ entry ∈ entries)

variable {rename : OpId → OpId} {entries others more : List Entry} {entry other : Entry}
  {edge : Entry → Tick} {resource : Resource} {tick first last : Tick} {numResources : Nat}

/-! ## Entries with other numbers -/

/-- Changing numbers twice leads back. -/
lemma Entry.relabeled_involutive (involutive : rename.Involutive) :
    (Entry.relabeled rename).Involutive := by
  rintro ⟨operation, start, duration, source⟩
  cases source with
  | none => rfl
  | some id => simp [relabeled, involutive id]

/-- An entry that was made from no operation has no number to change. -/
lemma Entry.relabeled_of_unsourced (none : entry.source = none) :
    entry.relabeled rename = entry := by
  obtain ⟨operation, start, duration, source⟩ := entry
  cases none
  rfl

/-- With another number, an entry was still made from an operation. -/
lemma Entry.source_relabeled_ne_none (rename : OpId → OpId) (entry : Entry) :
    (entry.relabeled rename).source ≠ none ↔ entry.source ≠ none := by
  simp [relabeled]

/-- It does not matter which of the two lists has the new numbers. -/
lemma SameOperations.symm (same : SameOperations rename entries others)
    (involutive : rename.Involutive) : SameOperations rename others entries := by
  intro entry sourced
  have sourced' := (Entry.source_relabeled_ne_none rename entry).mpr sourced
  have back := same (entry.relabeled rename) sourced'
  rw [Entry.relabeled_involutive involutive] at back
  exact back.symm

/-- Operations have their edges at the same ticks in both lists. -/
lemma EdgeAt.of_same (at_tick : EdgeAt edge entries resource tick)
    (numberless : ∀ entry : Entry, edge (entry.relabeled rename) = edge entry)
    (same : SameOperations rename entries others) : EdgeAt edge others resource tick := by
  obtain ⟨entry, member, sourced, used, here⟩ := at_tick
  exact ⟨entry.relabeled rename, (same entry sourced).mpr member,
    (Entry.source_relabeled_ne_none rename entry).mpr sourced, used, (numberless entry).trans here⟩

/-- Further entries leave the edges where they are. -/
lemma EdgeAt.append (at_tick : EdgeAt edge entries resource tick) (more : List Entry) :
    EdgeAt edge (entries ++ more) resource tick := by
  obtain ⟨entry, member, here⟩ := at_tick
  exact ⟨entry, List.mem_append_left _ member, here⟩

/-! ## The same operations come with the same idle time -/

/-- Of two entries of a tiling on one resource, one ends before the other starts. -/
lemma Tiles.apart {first last : Resource → Tick} (tiles : Tiles numResources first entries last)
    (member : entry ∈ entries) (member' : other ∈ entries) (distinct : entry ≠ other)
    (used : resource ∈ entry.resources) (used' : resource ∈ other.resources) :
    entry.stop ≤ other.start ∨ other.stop ≤ entry.start := by
  let Apart (entry other : Entry) := entry.stop ≤ other.start ∨ other.stop ≤ entry.start
  have symmetric : Std.Symm Apart := ⟨fun _ _ => Or.symm⟩
  have apart : (entries.filter fun entry => entry.uses resource).Pairwise Apart :=
    (tiles.pairwise resource).imp .inl
  exact apart.forall (List.mem_filter.mpr ⟨member, Entry.uses_iff.mpr used⟩)
    (List.mem_filter.mpr ⟨member', Entry.uses_iff.mpr used'⟩) distinct

namespace Bridged

variable {start stop : Tick}

/-- No operation starts or ends inside of idle time: an edge, which lies between the start and the
end of its entry, lies outside of it, since the entry itself does. -/
lemma not_edge_inside (bridged : Bridged numResources first last entries)
    (member : .idle resource start (stop - start) ∈ entries)
    (between : ∀ entry : Entry, entry.start ≤ edge entry ∧ edge entry ≤ entry.stop)
    (at_tick : EdgeAt edge entries resource tick) : tick ≤ start ∨ stop ≤ tick := by
  obtain ⟨entry, member', sourced, used, rfl⟩ := at_tick
  have distinct : entry ≠ .idle resource start (stop - start) := fun same => sourced (same ▸ rfl)
  have apart := bridged.tiles.apart member' member distinct used (List.mem_singleton_self resource)
  have ⟨le, le'⟩ := between entry
  simp only [Entry.stop, Entry.idle] at apart le'
  lia

/-- No operation starts inside of idle time. -/
lemma not_starts_inside (bridged : Bridged numResources first last entries)
    (member : .idle resource start (stop - start) ∈ entries)
    (starts : StartsAt entries resource tick) : tick ≤ start ∨ stop ≤ tick :=
  bridged.not_edge_inside member (fun _ => ⟨Nat.le_refl _, Nat.le_add_right _ _⟩) starts

/-- No operation ends inside of idle time. -/
lemma not_stops_inside (bridged : Bridged numResources first last entries)
    (member : .idle resource start (stop - start) ∈ entries)
    (stops : StopsAt entries resource tick) : tick ≤ start ∨ stop ≤ tick :=
  bridged.not_edge_inside member (fun _ => ⟨Nat.le_add_right _ _, Nat.le_refl _⟩) stops

/-- Where the same operations stand, the same gaps are bridged.

**Proof sketch.** The first tick of the idle time is covered in the other list, too, and not by an
operation, because this would overlap with the idle time. So it is covered by idle time, and since
no operation starts or ends inside of either, both begin and end together. -/
lemma mem_of_idle (bridged : Bridged numResources first last entries)
    (bridged' : Bridged numResources first last others)
    (same : SameOperations rename entries others) (involutive : rename.Involutive)
    (member : entry ∈ entries) (unsourced : entry.source = none) : entry ∈ others := by
  obtain ⟨resource, start, stop, lt, rfl, begins, ends⟩ := bridged.idle entry member unsourced
  have same' := same.symm involutive
  have used : resource ∈ (Entry.idle resource start (stop - start)).resources :=
    List.mem_singleton_self resource
  have first_le : first ≤ start := bridged.tiles.le_start member used
  have le_last : start + (stop - start) ≤ last := bridged.tiles.stop_le member used
  obtain ⟨cover, among, used', le, before⟩ := bridged'.tiles.exists_covering
    (bridged.tiles.declared member used) first_le (by lia : start < last)
  have idle : cover.source = none := by
    by_contra sourced
    have counterpart := (same' cover sourced).mpr among
    have distinct : cover.relabeled rename ≠ .idle resource start (stop - start) := by
      intro equal
      have sourced' := (Entry.source_relabeled_ne_none rename cover).mpr sourced
      exact sourced' (congrArg Entry.source equal)
    have apart := bridged.tiles.apart counterpart member distinct used' used
    simp only [Entry.stop, Entry.idle, Entry.relabeled] at apart before
    lia
  obtain ⟨resource', start', stop', lt', rfl, begins', ends'⟩ := bridged'.idle cover among idle
  obtain rfl := List.mem_singleton.mp used'
  have before : start < start' + (stop' - start') := before
  have first_le' : first ≤ start' := bridged'.tiles.le_start among used'
  have le_last' : start' + (stop' - start') ≤ last := bridged'.tiles.stop_le among used'
  have le : start' ≤ start := le
  have start_eq : start = start' := by
    rcases begins with rfl | stops
    · lia
    · have outside := bridged'.not_stops_inside among (stops.of_same (fun _ => rfl) same)
      lia
  have stop_le : stop' ≤ stop := by
    rcases ends with rfl | starts
    · lia
    · have outside := bridged'.not_starts_inside among (starts.of_same (fun _ => rfl) same)
      lia
  have le_stop : stop ≤ stop' := by
    rcases ends' with rfl | starts
    · lia
    · have outside := bridged.not_starts_inside member (starts.of_same (fun _ => rfl) same')
      lia
  obtain rfl : stop = stop' := Nat.le_antisymm le_stop stop_le
  exact start_eq ▸ among

/-- Entries from tick zero on are bridged up to their latest end. -/
lemma to_latestStop (bridged : Bridged numResources 0 last entries)
    (touching : ∀ entry ∈ entries, entry.resources ≠ []) :
    Bridged numResources 0 (latestStop entries) entries := by
  refine ⟨bridged.tiles.to_latestStop touching, fun entry member unsourced => ?_⟩
  obtain ⟨resource, start, stop, lt, rfl, begins, ends⟩ := bridged.idle entry member unsourced
  have declared := bridged.tiles.declared member (List.mem_singleton_self resource)
  rw [bridged.tiles.latestStop_eq touching (Nat.zero_lt_of_lt declared)]
  exact ⟨resource, start, stop, lt, rfl, begins, ends⟩

/-- No entry stands twice in a list in which every operation has at most one entry.

**Proof sketch.** An entry of an operation stands in the list once because the operation has at most
one entry. Two equal entries of idle time would overlap on their resource, since idle time has
positive length. -/
lemma nodup (bridged : Bridged numResources first last entries)
    (single : ∀ id, (partsOf id entries).length ≤ 1) : entries.Nodup := by
  refine List.nodup_iff_count_le_one.mpr fun entry => ?_
  by_contra many
  have twice : [entry, entry].Sublist entries :=
    List.replicate_sublist_iff.mpr (Nat.lt_of_not_le many)
  cases source : entry.source with
  | some id =>
    have parts := twice.filter fun entry => entry.source = some id
    have length := (parts.length_le).trans (single id)
    simp [source] at length
  | none =>
    have member : entry ∈ entries := twice.subset List.mem_cons_self
    obtain ⟨resource, start, stop, lt, rfl, -, -⟩ := bridged.idle entry member source
    have uses : (Entry.idle resource start (stop - start)).uses resource = true :=
      Entry.uses_iff.mpr (List.mem_singleton_self resource)
    have order := (bridged.tiles.pairwise resource).sublist
      (twice.filter fun entry => entry.uses resource)
    simp only [List.filter_cons, uses, if_true] at order
    have ends : start + (stop - start) ≤ start :=
      (List.pairwise_cons.mp order).1 _ List.mem_cons_self
    lia

/-- **Idle time is determined by the operations.** If in two lists of bridged entries every
operation has at most one entry, and those of one list are those of the other under new numbers,
then one list is the other in another order, up to these numbers.

**Proof sketch.** Neither list has duplicates, so it is enough that both have the same members. For
entries of operations this is the hypothesis. Idle time reaches from one edge of an operation to the
next on its resource, and these edges are the same in both lists (`mem_of_idle`). -/
theorem perm (bridged : Bridged numResources first last entries)
    (bridged' : Bridged numResources first last others) (involutive : rename.Involutive)
    (single : ∀ id, (partsOf id entries).length ≤ 1)
    (parts : ∀ id, partsOf (rename id) others = (partsOf id entries).map (.relabeled rename)) :
    others.Perm (entries.map (.relabeled rename)) := by
  have same : SameOperations rename entries others := by
    intro entry sourced
    obtain ⟨id, source⟩ := Option.ne_none_iff_exists'.mp sourced
    have source' : (entry.relabeled rename).source = some (rename id) := by
      simp [Entry.relabeled, source]
    calc entry.relabeled rename ∈ others
      _ ↔ entry.relabeled rename ∈ partsOf (rename id) others := by
        rw [mem_partsOf, and_iff_left source']
      _ ↔ entry ∈ partsOf id entries := by
        rw [parts, List.mem_map_of_injective (Entry.relabeled_involutive involutive).injective]
      _ ↔ entry ∈ entries := by rw [mem_partsOf, and_iff_left source]
  have single' : ∀ id, (partsOf id others).length ≤ 1 := by
    intro id
    have known := parts (rename id)
    rw [involutive id] at known
    rw [known, List.length_map]
    exact single (rename id)
  have nodup : (entries.map (Entry.relabeled rename)).Nodup :=
    (bridged.nodup single).map (Entry.relabeled_involutive involutive).injective
  refine (List.perm_ext_iff_of_nodup (bridged'.nodup single') nodup).mpr fun entry => ?_
  rw [List.mem_map_of_involutive (Entry.relabeled_involutive involutive)]
  cases source : entry.source with
  | some id => exact (same.symm involutive entry (by simp [source])).symm
  | none =>
    rw [Entry.relabeled_of_unsourced source]
    have same' := same.symm involutive
    exact ⟨fun member => bridged'.mem_of_idle bridged same' involutive member source,
      fun member => bridged.mem_of_idle bridged' same involutive member source⟩

end Bridged

/-! ## Placing entries along a timeline -/

namespace Timeline

variable {timeline : Timeline}

/-- Nothing was placed. -/
lemma bridges_start (numResources : Nat) (origin : Tick) :
    (start numResources origin).Bridges [] :=
  ⟨fun resource => .inl (free_start numResources origin resource), by simp⟩

/-- Idle time up to a tick begins where an operation ends, or at the origin. -/
lemma Bridges.begins (bridges : timeline.Bridges entries) {resources : List Resource}
    (declared : ∀ resource ∈ resources, resource < timeline.nextFree.size)
    (member : entry ∈ timeline.gaps resources tick) : ∃ resource ∈ resources, ∃ start,
      start < timeline.origin + tick ∧
      entry = .idle resource start (timeline.origin + tick - start) ∧
      (start = timeline.origin ∨ StopsAt entries resource start) := by
  obtain ⟨resource, among, lt, rfl⟩ := eq_of_mem_gaps declared member
  refine ⟨resource, among, timeline.origin + timeline.free resource, by lia, ?_, ?_⟩
  · rw [Nat.add_sub_add_left]
  · rcases bridges.free resource with zero | stops
    · exact .inl (by rw [zero, Nat.add_zero])
    · exact .inr stops

/-- Placing an entry that was made from an operation, behind idle time on its resources, leaves gaps
bridged.

**Proof sketch.** On the resources of the entry, idle time begins where the resource became free,
which is at the origin or where an entry of an operation ends, and it ends where the new entry
starts. On other resources nothing changes. -/
theorem Bridges.place (bridges : timeline.Bridges entries) (entry : Entry) (start : Tick)
    (sourced : entry.source ≠ none)
    (declared : ∀ resource ∈ entry.resources, resource < timeline.nextFree.size)
    (placed : entry.start = timeline.origin + start) :
    ((timeline.pad entry.resources start).occupy entry.resources start entry.duration).Bridges
      (entries ++ timeline.gaps entry.resources start ++ [entry]) := by
  have new : entry ∈ entries ++ timeline.gaps entry.resources start ++ [entry] :=
    List.mem_append_right _ (List.mem_singleton_self entry)
  constructor
  · intro resource
    rw [origin_occupy, origin_pad, free_occupy (by simpa using declared)]
    split
    · rename_i used
      refine .inr ⟨entry, new, sourced, used, ?_⟩
      rw [Entry.stop, placed, Nat.add_assoc]
    · rename_i unused
      rw [free_pad declared, if_neg unused, List.append_assoc]
      exact (bridges.free resource).imp_right fun stops => stops.append _
  · intro other member unsourced
    rw [origin_occupy, origin_pad]
    rcases List.mem_append.mp member with before | here
    · rcases List.mem_append.mp before with old | gap
      · obtain ⟨resource, start, stop, lt, same, begins, ends⟩ :=
          bridges.idle other old unsourced
        rw [List.append_assoc]
        exact ⟨resource, start, stop, lt, same, begins.imp_right fun stops => stops.append _,
          ends.append _⟩
      · obtain ⟨resource, used, start, lt, same, begins⟩ := bridges.begins declared gap
        refine ⟨resource, start, _, lt, same, ?_, entry, new, sourced, used, placed⟩
        rw [List.append_assoc]
        exact begins.imp_right fun stops => stops.append _
    · rw [List.mem_singleton.mp here] at unsourced
      exact absurd unsourced sourced

/-- Covering all resources with idle time up to a common tick leaves gaps bridged.

**Proof sketch.** What is added begins where a resource became free, and ends at the common tick. -/
theorem Bridges.closed (bridges : timeline.Bridges entries)
    (tiles : Tiles numResources (fun _ => timeline.origin)
      (entries ++ timeline.gaps timeline.resources tick) fun _ => timeline.origin + tick) :
    Bridged numResources timeline.origin (timeline.origin + tick)
      (entries ++ timeline.gaps timeline.resources tick) := by
  refine ⟨tiles, fun entry member unsourced => ?_⟩
  rcases List.mem_append.mp member with old | gap
  · obtain ⟨resource, start, stop, lt, same, begins, ends⟩ := bridges.idle entry old unsourced
    exact ⟨resource, start, stop, lt, same, begins.imp_right fun stops => stops.append _,
      .inr (ends.append _)⟩
  · obtain ⟨resource, -, start, lt, same, begins⟩ :=
      bridges.begins (fun _ member => List.mem_range.mp member) gap
    exact ⟨resource, start, _, lt, same, begins.imp_right fun stops => stops.append _, .inl rfl⟩

end Timeline

end Timetable
