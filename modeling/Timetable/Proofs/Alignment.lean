import Mathlib.Data.List.Nodup
import Timetable.Proofs.Alignment.Splitting
import Timetable.Proofs.GapFree

/-!
# Whole groups of measurements

Aligning a schedule is to complete each measurement to a group. A resource that is missing is only
measured as well where some entry keeps it during the measurement: a resource without such an entry
is passed over, and the measurement stays as incomplete as it was. This happens to measurements
that take no time, which nothing overlaps, and to resources that the schedule does not have.

## Main definitions

* `Measures`, `measuredOver` — the resources measured over an interval.
* `Schedule.MeasuresGroups` — every interval of a measurement measures a whole group.

## Main results

* `Measured.Completes.measures_iff` — what is measured after completing a measurement.
* `Measured.Completes.overlapped_iff` — later measurements are overlapped on the same resources as
  before.
* `Schedule.align_measures` — what is measured over an interval of an aligned schedule.
* `Schedule.align_measuresGroups_iff` — an aligned schedule measures whole groups exactly if the
  resources that overlap the measurements make them whole.
* `Program.align_measuresGroups` — measurements that take time are completed to groups of declared
  resources.
* `Program.align_leaves_parts` — other measurements need not be.
-/

set_option autoImplicit false

namespace Timetable

variable {entry : Entry} {entries completed : List Entry} {start stop : Tick}
  {resource : Resource} {resources : List Resource} {groups : List (List Resource)}

/-- A resource is measured over an interval. -/
def Measures (entries : List Entry) (start stop : Tick) (resource : Resource) : Prop :=
  ∃ entry ∈ entries, entry.operation.name = measureName ∧ entry.start = start ∧
    entry.stop = stop ∧ resource ∈ entry.resources

instance (entries : List Entry) (start stop : Tick) (resource : Resource) :
    Decidable (Measures entries start stop resource) :=
  inferInstanceAs (Decidable (∃ entry ∈ entries, _))

/-- The resources that are measured over an interval, in the order of the entries. -/
def measuredOver (entries : List Entry) (interval : Tick × Tick) : List Resource :=
  (entries.filter fun entry => entry.operation.name = measureName ∧
    (entry.start, entry.stop) = interval).flatMap Entry.resources

/-- The resources that are listed as measured over an interval are those on which a measurement has
this interval. -/
lemma mem_measuredOver :
    resource ∈ measuredOver entries (start, stop) ↔ Measures entries start stop resource := by
  simp [measuredOver, Measures, and_assoc]

/-! ## Collecting the measurements -/

namespace Measured

variable {measured later : Measured}

/-- The interval of a measurement. -/
def interval (measured : Measured) : Tick × Tick := (measured.start, measured.stop)

/-- One measurement may stand in front of another if it does not start later, and does not end
later where both start together. -/
lemma notAfter_iff : measured.notAfter later = true ↔ measured.start < later.start ∨
    measured.start = later.start ∧ measured.stop ≤ later.stop := by
  simp [notAfter]

/-- The interval of a further entry is new or there already.

**Proof sketch.** Induction on the measurements found so far. The entry joins the first one with its
interval; if there is none, it comes last. -/
lemma intervals_addMeasured (entry : Entry) (all : List Measured) :
    (addMeasured entry all).map interval =
      if (entry.start, entry.stop) ∈ all.map interval then all.map interval
      else all.map interval ++ [(entry.start, entry.stop)] := by
  induction all with
  | nil => simp [addMeasured, interval]
  | cons measured others ih =>
    unfold addMeasured
    split
    · rename_i same
      simp [interval, same.1, same.2]
    · rename_i differ
      have other : ¬(entry.start, entry.stop) = measured.interval := fun same =>
        differ ⟨(congrArg Prod.fst same).symm, (congrArg Prod.snd same).symm⟩
      simp only [List.map_cons, ih, List.mem_cons, other, false_or]
      split <;> rfl

/-- The resources listed for an interval. -/
def listedFor (interval : Tick × Tick) (all : List Measured) : List Resource :=
  ((all.find? (·.interval = interval)).map Measured.resources).getD []

/-- The resources listed for an interval are those of the first measurement with this interval. -/
lemma listedFor_cons (interval : Tick × Tick) (measured : Measured) (others : List Measured) :
    listedFor interval (measured :: others) =
      if measured.interval = interval then measured.resources else listedFor interval others := by
  by_cases here : measured.interval = interval <;> simp [listedFor, here]

/-- If each interval is listed once, its resources are those of the measurement. -/
lemma listedFor_of_mem {all : List Measured} (nodup : (all.map interval).Nodup)
    (member : measured ∈ all) : listedFor measured.interval all = measured.resources := by
  induction all with
  | nil => exact absurd member List.not_mem_nil
  | cons first others ih =>
    obtain ⟨fresh, nodup⟩ := List.nodup_cons.mp nodup
    rw [listedFor_cons]
    rcases List.mem_cons.mp member with rfl | later
    · rw [if_pos rfl]
    · have apart : ¬first.interval = measured.interval := fun same =>
        fresh (same ▸ List.mem_map_of_mem later)
      rw [if_neg apart, ih nodup later]

/-- A further entry adds its resources to those listed for its interval.

**Proof sketch.** Induction on the measurements collected so far. The entry is added to the first
one of its interval, and becomes a measurement of its own behind the last one if there is none; a
measurement of another interval in front of it is passed over by both sides. -/
lemma listedFor_addMeasured (interval : Tick × Tick) (entry : Entry) (all : List Measured) :
    listedFor interval (addMeasured entry all) = listedFor interval all ++
      if (entry.start, entry.stop) = interval then entry.resources else [] := by
  induction all with
  | nil => rw [addMeasured, listedFor_cons]; rfl
  | cons measured others ih =>
    unfold addMeasured
    split
    · rename_i same
      have same : (entry.start, entry.stop) = measured.interval := Prod.ext same.1.symm same.2.symm
      have kept : Measured.interval { measured with
          resources := measured.resources ++ entry.resources } = measured.interval := rfl
      rw [listedFor_cons, listedFor_cons, kept, same]
      split <;> simp
    · rename_i differ
      rw [listedFor_cons, listedFor_cons, ih]
      split
      · rename_i here
        have other : ¬(entry.start, entry.stop) = interval := fun same =>
          differ (Prod.mk.inj (here.trans same.symm))
        rw [if_neg other, List.append_nil]
      · rfl

/-- The measurements of some entries, by interval. -/
def collect (entries : List Entry) : List Measured :=
  entries.foldl (fun all entry => addMeasured entry all) []

/-- Collecting takes the entries one by one, the last one at the end. -/
lemma collect_append_singleton (entries : List Entry) (entry : Entry) :
    collect (entries ++ [entry]) = addMeasured entry (collect entries) := by
  simp [collect]

/-- The intervals are those of the entries. -/
lemma mem_intervals_collect {interval : Tick × Tick} :
    interval ∈ (collect entries).map Measured.interval ↔
      ∃ entry ∈ entries, (entry.start, entry.stop) = interval := by
  induction entries using List.reverseRecOn with
  | nil => simp [collect]
  | append_singleton entries entry ih =>
    rw [collect_append_singleton, intervals_addMeasured]
    simp only [List.mem_append, List.mem_singleton, or_and_right, exists_or, exists_eq_left, ← ih]
    split
    · rename_i known
      exact ⟨.inl, fun new => new.elim id fun same => same ▸ known⟩
    · rw [List.mem_append, List.mem_singleton, eq_comm (a := interval)]

/-- Each interval is listed once. -/
lemma nodup_intervals_collect (entries : List Entry) :
    ((collect entries).map Measured.interval).Nodup := by
  induction entries using List.reverseRecOn with
  | nil => exact .nil
  | append_singleton entries entry ih =>
    rw [collect_append_singleton, intervals_addMeasured]
    split
    · exact ih
    · rename_i new
      exact List.nodup_append.mpr ⟨ih, List.pairwise_singleton _ _, fun known member other single =>
        (List.mem_singleton.mp single) ▸ fun same => new (same ▸ member)⟩

/-- The resources listed for an interval are those of the entries over it. -/
lemma listedFor_collect (interval : Tick × Tick) (entries : List Entry) :
    listedFor interval (collect entries) =
      (entries.filter fun entry => (entry.start, entry.stop) = interval).flatMap
        Entry.resources := by
  induction entries using List.reverseRecOn with
  | nil => rfl
  | append_singleton entries entry ih =>
    rw [collect_append_singleton, listedFor_addMeasured, ih, List.filter_append,
      List.flatMap_append]
    by_cases here : (entry.start, entry.stop) = interval <;> simp [here]

/-- The measurements by increasing interval. -/
lemma measuredBy_eq (entries : List Entry) : measuredBy entries =
    (sortBy notAfter (collect (entries.filter fun entry => entry.operation.name = measureName))).map
      fun measured => { measured with resources := increasing measured.resources } := rfl

/-- Every interval that a measurement takes is listed. -/
lemma mem_intervals_measuredBy {interval : Tick × Tick} :
    interval ∈ (measuredBy entries).map Measured.interval ↔
      ∃ entry ∈ entries, entry.operation.name = measureName ∧
        (entry.start, entry.stop) = interval := by
  have listed : (measuredBy entries).map Measured.interval =
      (sortBy notAfter (collect (entries.filter fun entry =>
        entry.operation.name = measureName))).map Measured.interval := by
    rw [measuredBy_eq, List.map_map]
    rfl
  rw [listed, ((sortBy_perm _ _).map _).mem_iff, mem_intervals_collect]
  simp only [List.mem_filter, decide_eq_true_eq, and_assoc]

/-- Each interval is listed once. -/
lemma nodup_intervals_measuredBy (entries : List Entry) :
    ((measuredBy entries).map Measured.interval).Nodup := by
  rw [measuredBy_eq, List.map_map]
  exact ((sortBy_perm _ _).map _).nodup_iff.mpr (nodup_intervals_collect _)

/-- The resources of a measurement are those measured over its interval, in increasing order. -/
lemma resources_of_mem_measuredBy (member : measured ∈ measuredBy entries) :
    measured.resources = increasing (measuredOver entries measured.interval) := by
  rw [measuredBy_eq, List.mem_map] at member
  obtain ⟨collected, member, rfl⟩ := member
  have listed := listedFor_of_mem (nodup_intervals_collect _) ((sortBy_perm _ _).mem_iff.mp member)
  rw [listedFor_collect, List.filter_filter] at listed
  simp only [measuredOver, ← listed]
  congr
  funext entry
  simp [and_comm, interval]

/-- The resources listed for an interval are those measured over it.

**Proof sketch.** The resources of a listed measurement are those measured over its interval,
sorted. Conversely an entry that measures has its interval listed. -/
lemma mem_measuredBy :
    (∃ measured ∈ measuredBy entries, measured.interval = (start, stop) ∧
      resource ∈ measured.resources) ↔ Measures entries start stop resource := by
  have listed (measured : Measured) (member : measured ∈ measuredBy entries) :
      resource ∈ measured.resources ↔ resource ∈ measuredOver entries measured.interval := by
    rw [resources_of_mem_measuredBy member]
    exact (sortBy_perm _ _).mem_iff
  constructor
  · rintro ⟨measured, member, same, used⟩
    exact mem_measuredOver.mp (same ▸ (listed measured member).mp used)
  · intro measures
    obtain ⟨entry, among, measuring, starts, stops, -⟩ := id measures
    obtain ⟨measured, member, same⟩ := List.mem_map.mp
      (mem_intervals_measuredBy.mpr ⟨entry, among, measuring, congrArg₂ Prod.mk starts stops⟩)
    exact ⟨measured, member, same,
      (listed measured member).mpr (same ▸ mem_measuredOver.mpr measures)⟩

/-- Of two measurements, one may stand in front of the other. -/
lemma notAfter_total (a b : Measured) : a.notAfter b || b.notAfter a := by
  rw [Bool.or_eq_true, notAfter_iff, notAfter_iff]
  rcases lt_trichotomy a.start b.start with before | same | behind
  · exact .inl (.inl before)
  · exact (le_total a.stop b.stop).imp (fun first => .inr ⟨same, first⟩)
      fun second => .inr ⟨same.symm, second⟩
  · exact .inr (.inl behind)

/-- The order of measurements is transitive. -/
lemma notAfter_trans (a b c : Measured) : a.notAfter b → b.notAfter c → a.notAfter c := by
  simp only [notAfter_iff]
  rintro (first | ⟨first, shorter⟩) (second | ⟨second, longer⟩)
  · exact .inl (first.trans second)
  · exact .inl (first.trans_eq second)
  · exact .inl (first.trans_lt second)
  · exact .inr ⟨first.trans second, shorter.trans longer⟩

/-- The measurements are listed in order. -/
lemma pairwise_measuredBy (entries : List Entry) :
    (measuredBy entries).Pairwise fun earlier later => earlier.notAfter later := by
  rw [measuredBy_eq, List.pairwise_map]
  exact @pairwise_sortBy _ notAfter notAfter_total notAfter_trans _

/-- No measurement ends before its start. -/
lemma start_le_stop_of_mem (member : measured ∈ measuredBy entries) :
    measured.start ≤ measured.stop := by
  obtain ⟨entry, -, -, same⟩ :=
    mem_intervals_measuredBy.mp (List.mem_map_of_mem (f := interval) member)
  obtain ⟨starts, stops⟩ := Prod.mk.inj same
  rw [← starts, ← stops]
  exact Nat.le_add_right _ _

/-! ## Completing one measurement -/

/-- An entry overlaps a measurement if it uses the resource for a part of the interval. -/
lemma concerns_iff : measured.concerns resource entry = true ↔
    entry.operation.isMarker = false ∧ resource ∈ entry.resources ∧
      entry.start < measured.stop ∧ measured.start < entry.stop := by
  simp [concerns, and_assoc]

/-- The entry that measures one more resource over the interval. -/
lemma stop_added (timed : measured.start ≤ measured.stop) (resource : Resource) :
    (measured.added resource).stop = measured.stop :=
  Nat.add_sub_cancel' timed

/-- Idle time that is left measures nothing. -/
lemma name_kept_ne (resource : Resource) (whole : Entry) :
    (measured.kept resource whole).operation.name ≠ measureName := by
  simp [kept, Entry.idle, Operation.idle, Operation.name, measureName]

/-- The parts of idle time: perhaps some idle time in front of the interval, and a
measurement. -/
lemma mem_split {whole : Entry} (used : whole.resources = [resource]) :
    entry ∈ measured.split whole ↔
      whole.start < measured.start ∧ entry = measured.kept resource whole ∨
        entry = measured.added resource := by
  by_cases before : whole.start < measured.start
  · simp [split_of_before used before, before]
  · simp [split_of_not_before used before, before]

namespace Completes

/-- An entry that gives up its end uses one resource only and measures nothing. -/
lemma alone {whole : Entry} (completes : measured.Completes resources entries completed)
    (missing : resource ∈ resources) (member : whole ∈ entries)
    (concerned : measured.concerns resource whole) :
    whole.resources = [resource] ∧ whole.operation.name ≠ measureName := by
  have delay := (completes.idle resource missing whole member concerned).1
  have used := (concerns_iff.mp concerned).2.1
  obtain ⟨span, other, operation⟩ := Operation.exists_of_isDelay delay
  rw [Entry.resources, operation] at used ⊢
  obtain rfl := List.mem_singleton.mp used
  exact ⟨rfl, by simp [Operation.name, measureName]⟩

/-- A measurement that overlaps an entry takes time. -/
lemma timed {whole : Entry} (completes : measured.Completes resources entries completed)
    (missing : resource ∈ resources) (member : whole ∈ entries)
    (concerned : measured.concerns resource whole) : measured.start ≤ measured.stop :=
  (completes.idle resource missing whole member concerned).2.1 ▸
    (concerns_iff.mp concerned).2.2.2.le

/-- Over the interval, the further resources are measured that some entry overlaps; over other
intervals, what was measured before.

**Proof sketch.** An entry of the completed list was there before, in which case it says the same,
or is a piece of an entry that was split. Such a piece is what was kept of a delay, which is no
measurement, or the added measurement of a missing resource over the given interval. Conversely an
entry that measures is never split, and a missing resource that an entry overlaps gets its
measurement. -/
theorem measures_iff (completes : measured.Completes resources entries completed)
    (timed : measured.start ≤ measured.stop) :
    Measures completed start stop resource ↔ Measures entries start stop resource ∨
      measured.interval = (start, stop) ∧ resource ∈ resources ∧
        measured.Overlapped entries resource := by
  constructor
  · rintro ⟨entry, member, measures, starts, stops, used⟩
    rcases (completes.mem_iff entry).mp member with
      ⟨old, -⟩ | ⟨whole, old, ⟨other, missing, concerned⟩, part⟩
    · exact .inl ⟨entry, old, measures, starts, stops, used⟩
    · rcases (mem_split (completes.alone missing old concerned).1).mp part with
        ⟨-, rfl⟩ | rfl
      · exact absurd measures (name_kept_ne other whole)
      · obtain rfl := List.mem_singleton.mp used
        exact .inr ⟨Prod.ext starts ((stop_added timed _).symm.trans stops), missing, whole, old,
          concerned⟩
  · rintro (⟨entry, old, measures, rest⟩ | ⟨interval, missing, whole, old, concerned⟩)
    · refine ⟨entry, (completes.mem_iff entry).mpr (.inl ⟨old, fun other missing concerned => ?_⟩),
        measures, rest⟩
      exact (completes.alone missing old concerned).2 measures
    · obtain ⟨rfl, rfl⟩ := Prod.mk.inj interval
      refine ⟨measured.added resource, (completes.mem_iff _).mpr (.inr ⟨whole, old,
        ⟨resource, missing, concerned⟩, ?_⟩), rfl, rfl, stop_added timed resource,
        List.mem_singleton_self resource⟩
      exact (mem_split (completes.alone missing old concerned).1).mpr (.inr rfl)

/-- The intervals of measurements stay the same if the one that is completed is among them.

**Proof sketch.** A measurement of the completed list is an old one or was added over the interval
of the measurement that is completed, which was known before. An old measurement is not split, so no
interval is lost. -/
lemma mem_intervals_iff (completes : measured.Completes resources entries completed)
    (timed : measured.start ≤ measured.stop)
    (known : measured.interval ∈ (measuredBy entries).map Measured.interval)
    {interval : Tick × Tick} :
    interval ∈ (measuredBy completed).map Measured.interval ↔
      interval ∈ (measuredBy entries).map Measured.interval := by
  constructor
  · rw [mem_intervals_measuredBy]
    rintro ⟨entry, member, measures, rfl⟩
    rcases (completes.mem_iff entry).mp member with
      ⟨old, -⟩ | ⟨whole, old, ⟨other, missing, concerned⟩, part⟩
    · exact mem_intervals_measuredBy.mpr ⟨entry, old, measures, rfl⟩
    · rcases (mem_split (completes.alone missing old concerned).1).mp part with
        ⟨-, rfl⟩ | rfl
      · exact absurd measures (name_kept_ne other whole)
      · rw [stop_added timed]
        exact known
  · simp only [mem_intervals_measuredBy]
    rintro ⟨entry, old, measures, same⟩
    refine ⟨entry, (completes.mem_iff entry).mpr (.inl ⟨old, fun other missing concerned => ?_⟩),
      measures, same⟩
    exact (completes.alone missing old concerned).2 measures

/-- What is left of an entry is no earlier than the entry, and overlaps nothing but what the entry
did.

**Proof sketch.** The entry is old, or what was kept in front of the added measurement, or that
measurement itself. The first piece ends where the given measurement starts and the second one ends
where the split delay ended, so whatever overlaps a piece overlaps the delay. -/
lemma exists_whole (completes : measured.Completes resources entries completed)
    (member : entry ∈ completed) (overlaps : later.concerns resource entry) :
    ∃ whole ∈ entries, later.concerns resource whole ∧ whole.start ≤ entry.start := by
  rcases (completes.mem_iff entry).mp member with
    ⟨old, -⟩ | ⟨whole, old, ⟨other, missing, concerned⟩, part⟩
  · exact ⟨entry, old, overlaps, le_rfl⟩
  · obtain ⟨-, ends, starts⟩ := completes.idle other missing whole old concerned
    obtain ⟨plain, used, -, lasts⟩ := concerns_iff.mp concerned
    obtain ⟨-, same, before, behind⟩ := concerns_iff.mp overlaps
    refine ⟨whole, old, concerns_iff.mpr ⟨plain, ?_⟩, ?_⟩
    · rcases (mem_split (completes.alone missing old concerned).1).mp part with ⟨early, rfl⟩ | rfl
      · obtain rfl := List.mem_singleton.mp same
        have kept : (measured.kept resource whole).stop = measured.start :=
          Nat.add_sub_cancel' early.le
        exact ⟨used, before, (kept ▸ behind).trans lasts⟩
      · obtain rfl := List.mem_singleton.mp same
        rw [stop_added (lasts.trans_eq ends).le, ← ends] at behind
        exact ⟨used, starts.trans_lt before, behind⟩
    · rcases (mem_split (completes.alone missing old concerned).1).mp part with ⟨-, rfl⟩ | rfl
      · exact le_rfl
      · exact starts

/-- Where a measurement that follows overlaps an entry that was split, it overlaps the part that is
measured now: this ends where the entry ended, and a measurement that follows cannot tell how much
earlier the entry started.

**Proof sketch.** An entry that was split uses one resource only, which is the one on which both
measurements overlap it. The part that is measured now begins with the first measurement, which
begins no later than the second, and it ends where the entry ended. -/
lemma concerns_added {whole : Entry} (completes : measured.Completes resources entries completed)
    {other : Resource} (missing : other ∈ resources) (old : whole ∈ entries)
    (concerned : measured.concerns other whole) (order : measured.notAfter later)
    (lasts : later.start ≤ later.stop) (overlaps : later.concerns resource whole) :
    measured.added resource ∈ completed ∧ later.concerns resource (measured.added resource) := by
  have alone := (completes.alone missing old concerned).1
  obtain ⟨-, ends, -⟩ := completes.idle other missing whole old concerned
  obtain ⟨-, -, -, timed⟩ := concerns_iff.mp concerned
  obtain ⟨-, used, -, behind⟩ := concerns_iff.mp overlaps
  obtain rfl : resource = other := List.mem_singleton.mp (alone ▸ used)
  refine ⟨(completes.mem_iff _).mpr (.inr ⟨whole, old, ⟨resource, missing, concerned⟩,
    (mem_split alone).mpr (.inr rfl)⟩), concerns_iff.mpr
      ⟨rfl, List.mem_singleton_self resource, ?_, ?_⟩⟩
  · rcases notAfter_iff.mp order with before | ⟨same, shorter⟩
    · exact before.trans_le lasts
    · exact (same.trans_lt (ends ▸ behind)).trans_le shorter
  · rw [stop_added (timed.trans_eq ends).le, ← ends]
    exact behind

/-- A measurement that follows is overlapped on the same resources as before.

**Proof sketch.** A piece comes from a whole entry that is overlapped as well (`exists_whole`).
Conversely an entry that is not split stays, and if it is split, the measurement that is added at
its end overlaps the later one, because measurements come in the order of their intervals. -/
theorem overlapped_iff (completes : measured.Completes resources entries completed)
    (order : measured.notAfter later) (lasts : later.start ≤ later.stop) :
    later.Overlapped completed resource ↔ later.Overlapped entries resource := by
  constructor
  · rintro ⟨entry, member, overlaps⟩
    obtain ⟨whole, old, overlaps, -⟩ := completes.exists_whole member overlaps
    exact ⟨whole, old, overlaps⟩
  · rintro ⟨entry, old, overlaps⟩
    by_cases apart : ∀ other ∈ resources, ¬measured.concerns other entry
    · exact ⟨entry, (completes.mem_iff entry).mpr (.inl ⟨old, apart⟩), overlaps⟩
    · push Not at apart
      obtain ⟨other, missing, concerned⟩ := apart
      exact ⟨_, completes.concerns_added missing old concerned order lasts overlaps⟩

end Completes

/-- A missing resource is in one of the groups. -/
lemma exists_group_of_mem_missing (missing : resource ∈ measured.missing groups) :
    ∃ group ∈ groups, resource ∈ group := by
  unfold Measured.missing at missing
  split at missing
  · cases missing
  · split at missing
    · cases missing
    · rename_i group covering
      exact ⟨group, List.mem_of_find?_eq_some covering, (List.mem_filter.mp missing).1⟩

/-! ## Completing all measurements -/

variable {all : List Measured}

/-- Each of some measurements finds a group that holds it. -/
lemma exists_group_of_foldlM (ok : all.foldlM (complete groups) entries = .ok completed) :
    ∀ measured ∈ all, ∃ group ∈ groups, ∀ resource,
      resource ∈ group ↔ resource ∈ measured.resources ∨ resource ∈ measured.missing groups := by
  induction all generalizing entries with
  | nil => exact nofun
  | cons measured all ih =>
    rw [List.foldlM_cons] at ok
    obtain ⟨middle, first, rest⟩ := bind_eq_ok.mp ok
    exact List.forall_mem_cons.mpr
      ⟨(complete_eq_ok_iff.mp first).1.exists_group, ih rest⟩

/-- Completing measurements in order adds to each of them the missing resources that are
overlapped in the entries from which they all started, and no interval is added.

**Proof sketch.** By induction on the measurements: completing the first of them adds what it
should, and those that follow are overlapped in its result on the same resources as before. -/
lemma measures_foldlM (ok : all.foldlM (complete groups) entries = .ok completed)
    (timed : ∀ measured ∈ all, measured.start ≤ measured.stop)
    (order : all.Pairwise fun earlier later => earlier.notAfter later)
    (known : ∀ measured ∈ all, measured.interval ∈ (measuredBy entries).map interval) :
    (∀ start stop resource, Measures completed start stop resource ↔
      Measures entries start stop resource ∨
        ∃ measured ∈ all, measured.interval = (start, stop) ∧
          resource ∈ measured.missing groups ∧ measured.Overlapped entries resource) ∧
    ∀ interval, interval ∈ (measuredBy completed).map Measured.interval ↔
      interval ∈ (measuredBy entries).map Measured.interval := by
  induction all generalizing entries with
  | nil =>
    cases ok
    simp
  | cons measured all ih =>
    rw [List.foldlM_cons] at ok
    obtain ⟨middle, first, rest⟩ := bind_eq_ok.mp ok
    obtain ⟨before, order⟩ := List.pairwise_cons.mp order
    obtain ⟨lasts, timed⟩ := List.forall_mem_cons.mp timed
    obtain ⟨listed, known⟩ := List.forall_mem_cons.mp known
    have completes := completes_of_complete first
    have intervals {interval : Tick × Tick} :
        interval ∈ (measuredBy middle).map Measured.interval ↔
          interval ∈ (measuredBy entries).map Measured.interval :=
      completes.mem_intervals_iff lasts listed
    obtain ⟨measures, same⟩ := ih rest timed order fun later member =>
      intervals.mpr (known later member)
    refine ⟨fun start stop resource => ?_, fun interval => (same interval).trans intervals⟩
    rw [measures, completes.measures_iff lasts, or_assoc, List.exists_mem_cons_iff]
    refine or_congr_right (or_congr_right (exists_congr fun later => and_congr_right
      fun member => and_congr_right fun _ => and_congr_right fun _ => ?_))
    exact completes.overlapped_iff (before later member) (timed later member)

end Measured

namespace Schedule

variable {schedule aligned : Schedule}

/-- Every interval over which a schedule measures is that of a whole group. -/
def MeasuresGroups (schedule : Schedule) (groups : List (List Resource)) : Prop :=
  ∀ entry ∈ schedule.entries, entry.operation.name = measureName →
    ∃ group ∈ groups, ∀ resource,
      resource ∈ group ↔ Measures schedule.entries entry.start entry.stop resource

/-- A schedule that can be aligned has its measurements completed one after the other. -/
lemma align_eq_ok (ok : schedule.align groups = .ok aligned) :
    (measuredBy schedule.entries).foldlM (Measured.complete (groups.map increasing))
      schedule.entries = .ok aligned.entries := by
  unfold align at ok
  split at ok
  · rename_i none
    cases ok
    rw [none]
    rfl
  · obtain ⟨entries, folded, rfl⟩ := map_eq_ok.mp ok
    exact folded

/-- Over the interval of a measurement, an aligned schedule measures what was measured before, and
those of the missing resources that some entry keeps during a part of the interval.

**Proof sketch.** Measurements are completed one after the other, and over each interval what is
measured changes only when the one with this interval is completed (`Measured.measures_foldlM`).
Since no interval is listed twice, that one is the given measurement. -/
theorem align_measures (ok : schedule.align groups = .ok aligned) {measured : Measured}
    (member : measured ∈ measuredBy schedule.entries) (resource : Resource) :
    Measures aligned.entries measured.start measured.stop resource ↔
      resource ∈ measured.resources ∨ resource ∈ measured.missing (groups.map increasing) ∧
        measured.Overlapped schedule.entries resource := by
  have only : ∀ other ∈ measuredBy schedule.entries,
      other.interval = (measured.start, measured.stop) → other = measured := fun other among same =>
    List.inj_on_of_nodup_map (Measured.nodup_intervals_measuredBy _) among member same
  rw [(Measured.measures_foldlM (align_eq_ok ok) (fun _ => Measured.start_le_stop_of_mem)
    (Measured.pairwise_measuredBy _) fun _ => List.mem_map_of_mem).1, ← Measured.mem_measuredBy]
  refine or_congr ⟨?_, fun measures => ⟨measured, member, rfl, measures⟩⟩
    ⟨?_, fun added => ⟨measured, member, rfl, added⟩⟩
  · rintro ⟨other, among, same, measures⟩
    exact only other among same ▸ measures
  · rintro ⟨other, among, same, added⟩
    exact only other among same ▸ added

/-- Aligning neither adds nor loses an interval of a measurement. -/
lemma align_intervals (ok : schedule.align groups = .ok aligned) {interval : Tick × Tick} :
    interval ∈ (measuredBy aligned.entries).map Measured.interval ↔
      interval ∈ (measuredBy schedule.entries).map Measured.interval :=
  (Measured.measures_foldlM (align_eq_ok ok) (fun _ => Measured.start_le_stop_of_mem)
    (Measured.pairwise_measuredBy _) fun _ => List.mem_map_of_mem).2 interval

/-- A schedule measures whole groups if all the intervals listed for it do. -/
lemma measuresGroups_iff : schedule.MeasuresGroups groups ↔
    ∀ interval ∈ (measuredBy schedule.entries).map Measured.interval, ∃ group ∈ groups,
      ∀ resource, resource ∈ group ↔
        Measures schedule.entries interval.1 interval.2 resource := by
  constructor
  · intro whole interval listed
    obtain ⟨entry, member, measures, rfl⟩ := Measured.mem_intervals_measuredBy.mp listed
    exact whole entry member measures
  · intro whole entry member measures
    exact whole _ (Measured.mem_intervals_measuredBy.mpr ⟨entry, member, measures, rfl⟩)

/-- **Whole groups of measurements.** Whatever schedule is aligned to whatever groups, if it can be
aligned then the result measures whole groups exactly if, over the interval of each measurement,
the resources measured there and those missing resources that some entry keeps during a part of
the interval make up a group. The resources that are missing are those of the first group that
holds the measurement, and none are if the measurement is a group already.

**Proof sketch.** The result has the same intervals as the schedule (`align_intervals`), so it
suffices to look at each measurement of the schedule, and over its interval `align_measures` says
what is measured. -/
theorem align_measuresGroups_iff (ok : schedule.align groups = .ok aligned) :
    aligned.MeasuresGroups groups ↔ ∀ measured ∈ measuredBy schedule.entries, ∃ group ∈ groups,
      ∀ resource, resource ∈ group ↔
        resource ∈ measured.resources ∨ resource ∈ measured.missing (groups.map increasing) ∧
          measured.Overlapped schedule.entries resource := by
  rw [measuresGroups_iff]
  simp only [align_intervals ok, List.forall_mem_map]
  refine forall₂_congr fun measured member => exists_congr fun group => and_congr_right fun _ =>
    forall_congr' fun resource => ?_
  rw [← align_measures ok member]
  rfl

/-- An aligned schedule measures whole groups if all missing resources are kept by some entry
during a part of the measurement. -/
lemma measuresGroups_of_overlapped (ok : schedule.align groups = .ok aligned)
    (overlapped : ∀ measured ∈ measuredBy schedule.entries,
      ∀ resource ∈ measured.missing (groups.map increasing),
        measured.Overlapped schedule.entries resource) : aligned.MeasuresGroups groups := by
  rw [measuresGroups_iff]
  simp only [align_intervals ok, List.forall_mem_map]
  intro measured member
  obtain ⟨group, sorted, same⟩ := Measured.exists_group_of_foldlM (align_eq_ok ok) measured member
  obtain ⟨given, among, rfl⟩ := List.mem_map.mp sorted
  refine ⟨given, among, fun resource => ?_⟩
  rw [← (sortBy_perm _ given).mem_iff]
  refine (same resource).trans (Iff.trans ?_ (align_measures ok member resource).symm)
  exact or_congr_right ⟨fun missing => ⟨missing, overlapped measured member resource missing⟩,
    And.left⟩

end Schedule

namespace Program

variable {program : Program} {table : DurationTable} {settings : Settings}
  {schedule aligned : Schedule}

/-- Measurements that take time are completed to groups of declared resources: in a schedule
without gaps each declared resource is kept by some entry at any time.

**Proof sketch.** A measurement that takes time begins before the schedule ends, so at its first
tick each declared resource is covered by some entry of the gap-free schedule. This entry takes
time, so it is no marker, and it overlaps the measurement. Hence all missing resources are
overlapped and are added, which completes the group. -/
theorem align_measuresGroups (built : program.Built)
    (plain : settings.method = "alap" →
      ∀ operation ∈ program.operations, operation.isTimestep = false)
    (ok : (program.schedule table settings).result = .ok schedule)
    (timed : ∀ entry ∈ schedule.entries, entry.operation.name = measureName → 0 < entry.duration)
    (timeless : ∀ entry ∈ schedule.entries, entry.operation.isMarker → entry.duration = 0)
    (declared : ∀ group ∈ groups, ∀ resource ∈ group, resource < program.numResources)
    (aligns : schedule.align groups = .ok aligned) : aligned.MeasuresGroups groups := by
  obtain ⟨layout, gapFree⟩ := schedule_gapFree built.wellFormed plain ok
  refine Schedule.measuresGroups_of_overlapped aligns fun measured member resource missing => ?_
  obtain ⟨sorted, among, inside⟩ := Measured.exists_group_of_mem_missing missing
  obtain ⟨group, given, rfl⟩ := List.mem_map.mp among
  have known : resource < schedule.numResources :=
    (declared group given resource ((sortBy_perm _ _).mem_iff.mp inside)).trans_eq
      (congrArg Layout.numResources layout).symm
  -- the measurement takes time and is over before the schedule is
  obtain ⟨measurement, placed, measures, same⟩ :=
    Measured.mem_intervals_measuredBy.mp (List.mem_map_of_mem (f := Measured.interval) member)
  obtain ⟨starts, stops⟩ := Prod.mk.inj same
  have lasts : measured.start < measured.stop := by
    rw [← starts, ← stops]
    exact Nat.lt_add_of_pos_right (timed measurement placed measures)
  have before_end : measured.start < schedule.total := by
    rw [← stops] at lasts
    exact lasts.trans_le (stop_le_latestStop placed)
  obtain ⟨entry, kept, used, first, last⟩ :=
    gapFree.tiles.exists_covering known (Nat.zero_le _) before_end
  refine ⟨entry, kept, Measured.concerns_iff.mpr ⟨?_, used, first.trans_lt lasts, last⟩⟩
  by_contra marker
  have none := timeless entry kept (by simpa using marker)
  rw [Entry.stop, none] at last
  exact absurd last first.not_gt

end Program

/-- A gate and a measurement behind it, and a gate on another resource; one more resource is
idle. -/
def Program.readout : Program where
  name := "readout"
  layout := .physical 3
  tasks := #[⟨.gate "x" [0], none⟩, ⟨.gate measureName [0], none⟩, ⟨.gate "x" [2], none⟩]

/-- A measurement on the first of two resources. -/
def Program.reading : Program where
  name := "reading"
  layout := .physical 2
  tasks := #[⟨.gate measureName [0], none⟩]

/-- The durations of the gates, with the given duration of a measurement. -/
def DurationTable.readout (length : Tick) : DurationTable :=
  .ofList [("x", [0], 3), ("x", [2], 3), (measureName, [0], length)]

/-- The end of the idle time on the second resource is measured as well. -/
theorem Schedule.align_measuresGroups_readout : ∃ schedule aligned,
    (Program.readout.schedule (.readout 5) {}).result = .ok schedule ∧
      schedule.align [[1, 0], [2]] = .ok aligned ∧ aligned.MeasuresGroups [[1, 0], [2]] := by
  obtain ⟨schedule, aligned, ran, aligns, listed, overlapped⟩ : ∃ schedule aligned,
      (Program.readout.schedule (.readout 5) {}).result = .ok schedule ∧
        schedule.align [[1, 0], [2]] = .ok aligned ∧
        measuredBy schedule.entries = [⟨3, 8, [0]⟩] ∧
        (⟨3, 8, [0]⟩ : Measured).Overlapped schedule.entries 1 :=
    ⟨_, _, rfl, rfl, rfl, by decide⟩
  refine ⟨schedule, aligned, ran, aligns, (align_measuresGroups_iff aligns).mpr ?_⟩
  rw [listed]
  intro measured member
  obtain rfl := List.mem_singleton.mp member
  have missing : (⟨3, 8, [0]⟩ : Measured).missing ([[1, 0], [2]].map increasing) = [1] := rfl
  refine ⟨[1, 0], List.mem_cons_self, fun resource => ?_⟩
  rw [missing]
  constructor
  · intro inside
    rcases List.mem_pair.mp inside with rfl | rfl
    · exact .inr ⟨List.mem_cons_self, overlapped⟩
    · exact .inl List.mem_cons_self
  · rintro (inside | ⟨inside, -⟩)
    · exact List.mem_cons_of_mem _ inside
    · exact List.mem_cons.mpr (.inl (List.mem_singleton.mp inside))

/-- Of two resources that are measured together only the first is, if the measurement takes no
time, and so it is with a resource that the schedule does not have; nothing reports this. -/
theorem Program.align_leaves_parts :
    (∃ schedule aligned, (reading.schedule (.readout 0) {}).result = .ok schedule ∧
      schedule.align [[0, 1]] = .ok aligned ∧ (∃ entry ∈ aligned.entries,
        entry.operation.name = measureName) ∧ ¬aligned.MeasuresGroups [[0, 1]]) ∧
    ∃ schedule aligned, (reading.schedule (.readout 3) {}).result = .ok schedule ∧
      schedule.align [[0, 2]] = .ok aligned ∧ (∃ entry ∈ aligned.entries,
        entry.operation.name = measureName) ∧ ¬aligned.MeasuresGroups [[0, 2]] := by
  refine ⟨⟨_, _, rfl, rfl, by decide, fun whole => ?_⟩, _, _, rfl, rfl, by decide, fun whole => ?_⟩
  · obtain ⟨group, given, same⟩ := whole _ List.mem_cons_self rfl
    obtain rfl := List.mem_singleton.mp given
    exact absurd ((same 1).mp (by decide)) (by decide)
  · obtain ⟨group, given, same⟩ := whole _ List.mem_cons_self rfl
    obtain rfl := List.mem_singleton.mp given
    exact absurd ((same 2).mp (by decide)) (by decide)

end Timetable
