import Mathlib.Data.List.Count
import Mathlib.Order.CompletePartialOrder
import Mathlib.Order.Interval.Set.Disjoint
import Timetable.Proofs.Alignment

/-!
# Alignment only rewrites idle time

If no group names a resource twice, aligning a schedule replaces some delays in their places, each
by a shorter delay and a measurement up to the end of the delay, and leaves all other entries as
they are. No delay is replaced twice: measurements are completed by increasing start, so what is
left of a delay ends before the later ones start.

How many entries keep a resource at a tick does not change by this.

## Main definitions

* `Entry.measuredFrom` — what replaces a delay.
* `TradesIdle` — the entries that come of replacing some delays in their places.

## Main results

* `Measured.complete_eq_flatMap` — what completing a measurement makes of each entry.
* `TradesIdle.complete` — a further measurement cannot split what is left of a delay.
* `TradesIdle.countP_covers` — no tick of a resource is covered more or less often.
* `Schedule.align_tradesIdle` — an aligned schedule trades idle time for measurements.
-/

set_option autoImplicit false

namespace Timetable

/-- What replaces a delay on a resource that is measured from a tick to its end: a delay up to that
tick, unless it would take no time, with the same source, and a measurement of its own. -/
def Entry.measuredFrom (entry : Entry) (resource : Resource) (start : Tick) : List Entry :=
  (if entry.start < start then
    [⟨.delay (.ticks (start - entry.start)) resource, entry.start, start - entry.start,
      entry.source⟩]
  else []) ++ [⟨.gate measureName [resource], start, entry.stop - start, none⟩]

/-- Some delays are replaced in their places: each of them ends with one of the intervals, which
starts no earlier and takes time, and is measured over it. All other entries are unchanged. -/
inductive TradesIdle (intervals : Set (Tick × Tick)) : List Entry → List Entry → Prop
  | nil : TradesIdle intervals [] []
  | keep {entries traded : List Entry} (entry : Entry) :
    TradesIdle intervals entries traded → TradesIdle intervals (entry :: entries) (entry :: traded)
  | measure {entries traded : List Entry} {entry : Entry} {span : Span} {resource : Resource}
    {start : Tick} (delay : entry.operation = .delay span resource)
    (measured : (start, entry.stop) ∈ intervals) (fits : entry.start ≤ start)
    (lasts : start < entry.stop) : TradesIdle intervals entries traded →
      TradesIdle intervals (entry :: entries) (entry.measuredFrom resource start ++ traded)

/-- An entry keeps a resource at a tick. -/
def Entry.covers (resource : Resource) (tick : Tick) (entry : Entry) : Bool :=
  !entry.operation.isMarker && entry.uses resource && (entry.start ≤ tick && tick < entry.stop)

variable {entry : Entry} {entries traded completed : List Entry} {start : Tick}
  {resource : Resource} {resources : List Resource} {groups : List (List Resource)}
  {intervals others : Set (Tick × Tick)}

/-! ## What completing a measurement makes of each entry -/

namespace Measured

variable {measured : Measured}

/-- What completing a measurement by some resources makes of an entry. -/
def parts (measured : Measured) (resources : List Resource) (entry : Entry) : List Entry :=
  if resources.any (measured.concerns · entry) then measured.split entry else [entry]

/-- The missing resources are all different if no group names a resource twice. -/
lemma nodup_missing (nodup : ∀ group ∈ groups, group.Nodup) :
    (measured.missing groups).Nodup := by
  unfold missing
  split
  · exact .nil
  · split
    · exact .nil
    · rename_i group covering
      exact (nodup group (List.mem_of_find?_eq_some covering)).filter _

/-- **Completing one measurement.** Each entry that overlaps the measurement on a missing resource
gives up its end once, and the others stay as they are.

**Proof sketch.** An entry that overlaps a missing resource is on this resource alone, and the
resource is missing only once, since groups name nothing twice. So it is split once; and an entry
that overlaps none is not split. -/
theorem complete_eq_flatMap (nodup : ∀ group ∈ groups, group.Nodup)
    (ok : measured.complete groups entries = .ok completed) :
    completed = entries.flatMap (measured.parts (measured.missing groups)) := by
  have completes := completes_of_complete ok
  obtain ⟨-, -, rfl⟩ := complete_eq_ok_iff.mp ok
  refine List.flatMap_congr fun entry member => ?_
  rw [parts]
  split
  · rename_i split
    obtain ⟨resource, missing, concerned⟩ := List.any_eq_true.mp split
    rw [countP_concerns (completes.alone missing member concerned).1 concerned,
      List.count_eq_one_of_mem (nodup_missing nodup) missing]
    obtain ⟨first, others, parts, -⟩ := measured.exists_split entry
    rw [splitTimes_succ parts, parts]
    rfl
  · rename_i apart
    rw [List.countP_eq_zero.mpr (by simpa using apart)]
    rfl

/-- A delay that ends with the measurement is replaced if it is split. -/
lemma split_eq_measuredFrom (alone : entry.resources = [resource])
    (ends : entry.stop = measured.stop) :
    measured.split entry = entry.measuredFrom resource measured.start := by
  rw [split, alone, Entry.measuredFrom, ends]
  rfl

/-- An entry that does not overlap the measurement on any missing resource stays as it is. -/
lemma parts_of_apart (apart : ∀ resource ∈ resources, ¬measured.concerns resource entry) :
    measured.parts resources entry = [entry] :=
  if_neg (by simpa using apart)

/-- A measurement does not split what has replaced a delay if it starts no earlier: the shorter
delay has ended by then, and a measurement is no delay.

**Proof sketch.** Each part stays as it is. The shorter delay ends where the first measurement
starts, which is no later than the second one does, so they do not overlap; and whatever is split is
a delay. -/
lemma flatMap_parts_measuredFrom (early : start ≤ measured.start)
    (delays : ∀ part ∈ entry.measuredFrom resource start, ∀ other ∈ resources,
      measured.concerns other part → part.operation.isDelay = true) :
    (entry.measuredFrom resource start).flatMap (measured.parts resources) =
      entry.measuredFrom resource start := by
  have stays : ∀ part ∈ entry.measuredFrom resource start,
      measured.parts resources part = [part] := by
    intro part among
    refine parts_of_apart fun other missing concerned => ?_
    have delay := delays part among other missing concerned
    obtain ⟨-, -, -, behind⟩ := concerns_iff.mp concerned
    rcases List.mem_append.mp among with shorter | measurement
    · split at shorter
      · rename_i before
        obtain rfl := List.mem_singleton.mp shorter
        simp only [Entry.stop, Nat.add_sub_cancel' before.le] at behind
        exact early.not_gt behind
      · cases shorter
    · obtain rfl := List.mem_singleton.mp measurement
      cases delay
  rw [List.flatMap_congr stays, List.flatMap_singleton']

end Measured

/-! ## Replacing delays for one measurement after the other -/

namespace TradesIdle

/-- Nothing has to be replaced. -/
lemma refl (intervals : Set (Tick × Tick)) : (entries : List Entry) →
    TradesIdle intervals entries entries
  | [] => .nil
  | entry :: entries => .keep entry (refl intervals entries)

/-- There may be more intervals. -/
lemma mono (trades : TradesIdle intervals entries traded) (more : intervals ⊆ others) :
    TradesIdle others entries traded := by
  induction trades with
  | nil => exact .nil
  | keep entry _ ih => exact .keep entry ih
  | measure delay measured fits lasts _ ih => exact .measure delay (more measured) fits lasts ih

/-- Completing a measurement that starts no earlier than those before it does not split what has
replaced a delay: the shorter delay has ended when it starts, and a measurement cannot be split.

**Proof sketch.** By induction on what has been replaced: entries that are unchanged so far may be
replaced now, and what has replaced an entry stays. -/
theorem complete {measured : Measured} (trades : TradesIdle intervals entries traded)
    (early : ∀ interval ∈ intervals, interval.1 ≤ measured.start)
    (completes : ∀ entry ∈ traded, ∀ resource ∈ resources, measured.concerns resource entry →
      entry.operation.isDelay ∧ entry.stop = measured.stop ∧ entry.start ≤ measured.start) :
    TradesIdle (insert measured.interval intervals) entries
      (traded.flatMap (measured.parts resources)) := by
  induction trades with
  | nil => exact .nil
  | @keep entries traded entry trades ih =>
    obtain ⟨here, completes⟩ := List.forall_mem_cons.mp completes
    rw [List.flatMap_cons]
    by_cases split : resources.any (measured.concerns · entry)
    · obtain ⟨resource, missing, concerned⟩ := List.any_eq_true.mp split
      obtain ⟨delay, ends, fits⟩ := here resource missing concerned
      obtain ⟨-, used, before, behind⟩ := Measured.concerns_iff.mp concerned
      obtain ⟨span, other, operation⟩ := Operation.exists_of_isDelay delay
      have alone : entry.resources = [other] := by rw [Entry.resources, operation]; rfl
      rw [Measured.parts, if_pos split, Measured.split_eq_measuredFrom alone ends]
      exact .measure operation (.inl (by rw [ends]; rfl)) fits behind (ih completes)
    · rw [Measured.parts, if_neg split]
      exact .keep entry (ih completes)
  | @measure entries traded entry span resource start delay listed fits lasts trades ih =>
    obtain ⟨here, completes⟩ := List.forall_mem_append.mp completes
    rw [List.flatMap_append, Measured.flatMap_parts_measuredFrom (early _ listed)
      fun part among other missing concerned => (here part among other missing concerned).1]
    exact .measure delay (.inr listed) fits lasts (ih completes)

/-- Completing measurements by increasing start only replaces delays.

**Proof sketch.** Induction on the measurements, with the intervals of those that were completed
already. Completing one only replaces delays over its own interval (`TradesIdle.complete`), which
asks that the intervals so far start no later, and this is the order in which measurements come. -/
lemma foldlM (nodup : ∀ group ∈ groups, group.Nodup) {all : List Measured}
    (order : all.Pairwise fun earlier later => earlier.notAfter later)
    (trades : TradesIdle intervals entries traded)
    (early : ∀ interval ∈ intervals, ∀ measured ∈ all, interval.1 ≤ measured.start)
    (ok : all.foldlM (Measured.complete groups) traded = .ok completed) :
    TradesIdle (intervals ∪ {interval | interval ∈ all.map Measured.interval}) entries
      completed := by
  induction all generalizing traded intervals with
  | nil =>
    cases ok
    exact trades.mono Set.subset_union_left
  | cons measured all ih =>
    rw [List.foldlM_cons] at ok
    obtain ⟨middle, first, rest⟩ := bind_eq_ok.mp ok
    obtain ⟨before, order⟩ := List.pairwise_cons.mp order
    have completes := Measured.completes_of_complete first
    obtain rfl := Measured.complete_eq_flatMap nodup first
    have further := trades.complete (fun interval listed =>
      early interval listed measured List.mem_cons_self)
      fun entry member resource missing => completes.idle resource missing entry member
    refine (ih order further ?_ rest).mono ?_
    · rintro interval (rfl | listed) later member
      · rcases Measured.notAfter_iff.mp (before later member) with first | ⟨same, -⟩
        · exact first.le
        · exact same.le
      · exact early interval listed later (List.mem_cons_of_mem _ member)
    · rintro interval ((rfl | listed) | listed)
      · exact .inr List.mem_cons_self
      · exact .inl listed
      · exact .inr (List.mem_cons_of_mem _ listed)

/-! ## What replacing delays leaves as it was -/

/-- The entries end as late as before.

**Proof sketch.** Induction on the replacement. What replaces a delay ends where the delay ended,
and the piece in front of it ends earlier. -/
lemma latestStop_eq (trades : TradesIdle intervals entries traded) :
    latestStop traded = latestStop entries := by
  induction trades with
  | nil => rfl
  | keep entry _ ih =>
    simp only [latestStop, List.map_cons, latest_cons] at ih ⊢
    rw [ih]
  | @measure entries traded entry _ _ start _ _ fits lasts _ ih =>
    have last : start + (entry.stop - start) = entry.stop := Nat.add_sub_cancel' lasts.le
    simp only [latestStop, List.map_cons, latest_cons, List.map_append, latest_append] at ih ⊢
    rw [ih, Entry.measuredFrom]
    split
    · rename_i before
      simp only [List.map_cons, List.map_nil, List.cons_append, List.nil_append, latest_cons,
        latest_nil, Entry.stop, Nat.add_sub_cancel' before.le] at last ⊢
      rw [last]
      lia
    · simp only [List.nil_append, List.map_cons, List.map_nil, latest_cons, latest_nil,
        Entry.stop] at last ⊢
      rw [last]
      lia

end TradesIdle

/-- What replaces a delay covers each tick as often as the delay.

**Proof sketch.** The delay covers the ticks of its resource between its ends, the shorter delay
those before the start of the measurement, and the measurement those from there on. So a tick is
covered by the pieces exactly as by the delay, and never by both of them. -/
lemma Entry.countP_measuredFrom {span : Span} {other : Resource} {tick : Tick}
    (delay : entry.operation = .delay span resource) (fits : entry.start ≤ start)
    (lasts : start < entry.stop) :
    (entry.measuredFrom resource start).countP (covers other tick) =
      if entry.covers other tick then 1 else 0 := by
  have last : start + (entry.stop - start) = entry.stop := Nat.add_sub_cancel' lasts.le
  have whole : entry.covers other tick = true ↔
      other = resource ∧ entry.start ≤ tick ∧ tick < entry.stop := by
    simp [covers, uses, Entry.resources, delay, Operation.isMarker, Operation.resources]
  have shorter : covers other tick ⟨.delay (.ticks (start - entry.start)) resource, entry.start,
      start - entry.start, entry.source⟩ = true ↔
        other = resource ∧ entry.start ≤ tick ∧ tick < start := by
    simp [covers, uses, Entry.resources, Operation.isMarker, Operation.resources, stop,
      Nat.add_sub_cancel' fits]
  have measurement : covers other tick ⟨.gate measureName [resource], start, entry.stop - start,
      none⟩ = true ↔ other = resource ∧ start ≤ tick ∧ tick < entry.stop := by
    unfold stop at last ⊢
    simp [covers, uses, Entry.resources, Operation.isMarker, Operation.resources, stop, last]
  rw [measuredFrom, List.countP_append, List.countP_singleton]
  simp only [whole, measurement]
  split
  · rw [List.countP_singleton]
    simp only [shorter]
    split_ifs <;> lia
  · rw [List.countP_nil]
    split_ifs <;> lia

namespace TradesIdle

/-- No tick of a resource is covered more or less often than before.

**Proof sketch.** Induction on the replacement; where a delay is replaced,
`Entry.countP_measuredFrom` counts. -/
theorem countP_covers (trades : TradesIdle intervals entries traded)
    (resource : Resource) (tick : Tick) :
    traded.countP (Entry.covers resource tick) = entries.countP (Entry.covers resource tick) := by
  induction trades with
  | nil => rfl
  | keep entry _ ih => rw [List.countP_cons, List.countP_cons, ih]
  | measure delay _ fits lasts _ ih =>
    rw [List.countP_append, Entry.countP_measuredFrom delay fits lasts, ih, List.countP_cons,
      Nat.add_comm]

end TradesIdle

/-! ## Aligned schedules -/

/-- Intervals do not overlap exactly if no tick is in two of them.

**Proof sketch.** Induction on the list. The first interval overlaps none of the others exactly if
no tick inside of it is in one of them, that is, if it adds to the count only where the others count
nothing. -/
lemma pairwise_disjoint_iff {list : List (Tick × Tick)} :
    (list.Pairwise fun a b => Disjoint (Set.Ico a.1 a.2) (Set.Ico b.1 b.2)) ↔
      ∀ tick, list.countP (fun interval => interval.1 ≤ tick && tick < interval.2) ≤ 1 := by
  induction list with
  | nil => simp
  | cons interval list ih =>
    rw [List.pairwise_cons, ih]
    simp only [List.countP_cons, Set.disjoint_left, Set.mem_Ico]
    constructor
    · rintro ⟨apart, once⟩ tick
      split
      · rename_i inside
        have none : list.countP (fun interval => interval.1 ≤ tick && tick < interval.2) = 0 :=
          List.countP_eq_zero.mpr fun other member =>
            by simpa using apart other member (by simpa using inside)
        rw [none]
      · exact once tick
    · intro once
      refine ⟨fun other member tick inside inside' => ?_, fun tick => (Nat.le_add_right _ _).trans
        (once tick)⟩
      have more : 0 < list.countP (fun interval => interval.1 ≤ tick && tick < interval.2) :=
        List.countP_pos_iff.mpr ⟨other, member, by simpa using inside'⟩
      have most := once tick
      rw [if_pos (by simpa using inside)] at most
      lia

namespace Schedule

variable {schedule aligned : Schedule}

/-- The intervals of a resource cover a tick as often as the entries do. -/
lemma countP_intervals (schedule : Schedule) (resource : Resource) (tick : Tick) :
    (schedule.intervals resource).countP (fun interval => interval.1 ≤ tick && tick < interval.2) =
      schedule.entries.countP (Entry.covers resource tick) := by
  rw [intervals, List.countP_map, List.countP_filter]
  exact List.countP_congr fun entry _ => by simp [Entry.covers, and_comm, and_assoc]

/-- An aligned schedule is the given one with other entries, sealed unless there was nothing to
align. -/
lemma aligned_eq (ok : schedule.align groups = .ok aligned) :
    aligned = schedule ∨ aligned = (schedule.withEntries aligned.entries).sealed := by
  unfold align at ok
  split at ok
  · cases ok
    exact .inl rfl
  · obtain ⟨entries, -, rfl⟩ := map_eq_ok.mp ok
    exact .inr rfl

/-- **Alignment only rewrites idle time.** If no group names a resource twice and the schedule can
be aligned, the entries of the result are those of the schedule, but some delays are replaced in
their places: each of them, if it ends with the interval of a measurement of the schedule that takes
time and starts no earlier, may become a delay up to the start of the interval, with the same source
and left out if it takes no time, and a measurement of its resource over the interval, without a
source. The entries end as late as before, so the duration is the same unless that of the schedule
was wrong; and on each resource the intervals cover the same ticks as before, and none of them twice
exactly if this was so before.

**Proof sketch.** Completing the measurements one after the other only replaces delays over their
intervals (`TradesIdle.foldlM`). A replacement keeps the latest end, and it keeps how often each
tick of a resource is covered (`countP_covers`). The union of the intervals and whether they are
disjoint can both be read off these counts. -/
theorem align_tradesIdle (nodup : ∀ group ∈ groups, group.Nodup)
    (ok : schedule.align groups = .ok aligned) :
    TradesIdle {interval | ∃ entry ∈ schedule.entries, entry.operation.name = measureName ∧
        (entry.start, entry.stop) = interval} schedule.entries aligned.entries ∧
      aligned.total = schedule.total ∧
      (schedule.duration = schedule.total → aligned.duration = schedule.duration) ∧
      ∀ resource,
        (∀ tick, (∃ interval ∈ aligned.intervals resource, tick ∈ Set.Ico interval.1 interval.2) ↔
          ∃ interval ∈ schedule.intervals resource, tick ∈ Set.Ico interval.1 interval.2) ∧
        (((aligned.intervals resource).Pairwise fun a b =>
            Disjoint (Set.Ico a.1 a.2) (Set.Ico b.1 b.2)) ↔
          (schedule.intervals resource).Pairwise fun a b =>
            Disjoint (Set.Ico a.1 a.2) (Set.Ico b.1 b.2)) := by
  have sorted : ∀ group ∈ groups.map increasing, group.Nodup :=
    List.forall_mem_map.mpr fun group given => (sortBy_perm _ _).nodup_iff.mpr (nodup group given)
  have trades := ((TradesIdle.refl ∅ schedule.entries).foldlM sorted
    (Measured.pairwise_measuredBy _) (fun _ none => none.elim) (align_eq_ok ok))
  rw [Set.empty_union] at trades
  have total : aligned.total = schedule.total := trades.latestStop_eq
  have same (resource : Resource) (tick : Tick) := by
    have covered := trades.countP_covers resource tick
    rwa [← countP_intervals, ← countP_intervals] at covered
  refine ⟨trades.mono fun interval => Measured.mem_intervals_measuredBy.mp, total,
    fun computed => ?_, fun resource => ⟨fun tick => ?_, ?_⟩⟩
  · rcases aligned_eq ok with rfl | sealed
    · rfl
    · exact (sealed ▸ rfl : aligned.duration = aligned.total).trans (total.trans computed.symm)
  · have covers (list : List (Tick × Tick)) :
        (∃ interval ∈ list, tick ∈ Set.Ico interval.1 interval.2) ↔
          0 < list.countP fun interval => interval.1 ≤ tick && tick < interval.2 := by
      simp [List.countP_pos_iff]
    rw [covers, covers, same]
  · rw [pairwise_disjoint_iff, pairwise_disjoint_iff]
    simp only [same]

end Schedule

/-- The idle time on the second resource becomes shorter, and the last resource is idle as long as
before; still each tick of each resource is covered once. -/
theorem Schedule.align_tradesIdle_readout : ∃ schedule aligned,
    (Program.readout.schedule (.readout 5) {}).result = .ok schedule ∧
      (∀ group ∈ [[1, 0], [2]], group.Nodup) ∧ schedule.align [[1, 0], [2]] = .ok aligned ∧
      schedule.intervals 1 = [(0, 8)] ∧ aligned.intervals 1 = [(0, 3), (3, 8)] ∧
      TradesIdle {interval | ∃ entry ∈ schedule.entries, entry.operation.name = measureName ∧
        (entry.start, entry.stop) = interval} schedule.entries aligned.entries ∧
      aligned.duration = 8 ∧
      ∀ resource, (aligned.intervals resource).Pairwise (fun a b =>
          Disjoint (Set.Ico a.1 a.2) (Set.Ico b.1 b.2)) ↔
        (schedule.intervals resource).Pairwise fun a b =>
          Disjoint (Set.Ico a.1 a.2) (Set.Ico b.1 b.2) := by
  obtain ⟨schedule, aligned, ran, aligns, before, after, duration, total⟩ : ∃ schedule aligned,
      (Program.readout.schedule (.readout 5) {}).result = .ok schedule ∧
        schedule.align [[1, 0], [2]] = .ok aligned ∧ schedule.intervals 1 = [(0, 8)] ∧
        aligned.intervals 1 = [(0, 3), (3, 8)] ∧ schedule.duration = 8 ∧ schedule.total = 8 :=
    ⟨_, _, rfl, rfl, rfl, rfl, rfl, rfl⟩
  have nodup : ∀ group ∈ [[1, 0], [2]], group.Nodup := by decide
  obtain ⟨trades, -, same, covered⟩ := align_tradesIdle nodup aligns
  exact ⟨schedule, aligned, ran, nodup, aligns, before, after, trades,
    (same (duration.trans total.symm)).trans duration, fun resource => (covered resource).2⟩

end Timetable
