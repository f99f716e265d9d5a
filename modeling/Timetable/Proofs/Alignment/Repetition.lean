import Mathlib.Algebra.Order.BigOperators.Group.List
import Mathlib.Algebra.Order.Group.Nat
import Mathlib.Data.List.Forall2
import Mathlib.Data.List.Sort
import Timetable.Proofs.Alignment.Multiplicity

/-!
# Groups that name a resource twice

The order in which a group names its resources does not matter, as groups are sorted. How often it
names them does: a resource is missing as often as the group names it, and each time idle time on
it gives up its end, if any of it is left, for one more measurement. And a measurement is found
among the groups only if it measures each resource as often as a group names it, so that a group may
be passed over for a larger one.

## Main definitions

* `SameGroups` — two lists of groups name the same resources, group by group.
* `Schedule.AlignsAlike` — aligning to either fails, or gives the same entries.
* `Measured.LacksAlike` — as many measurements come of each entry that overlaps a measurement.

## Main results

* `Measured.foldlM_complete_iff` — when completing measurements to other groups gives the same.
* `Schedule.align_sameGroups_iff` — when aligning to either of two lists of groups that name the
  same resources comes out alike.
* `Schedule.align_repeats_measurement` — a resource that is named twice may be measured twice.
-/

set_option autoImplicit false

namespace Timetable

variable {entry whole : Entry} {entries completed completed' : List Entry} {resource : Resource}
  {group other : List Resource} {groups others : List (List Resource)}

/-- Two lists of groups name the same resources, group by group, in any order and any number of
times. -/
def SameGroups (groups others : List (List Resource)) : Prop :=
  List.Forall₂ (fun group other => ∀ resource, resource ∈ group ↔ resource ∈ other) groups others

namespace SameGroups

/-- It does not matter which of the two lists of groups is named first. -/
lemma symm (same : SameGroups groups others) : SameGroups others groups :=
  same.flip.imp fun _ _ same resource => (same resource).symm

/-- Sorting each of the groups does not change what they name. -/
lemma map_increasing (same : SameGroups groups others) :
    SameGroups (groups.map increasing) (others.map increasing) := by
  refine List.forall₂_map_left_iff.mpr (List.forall₂_map_right_iff.mpr (same.imp ?_))
  intro group other same resource
  rw [increasing, increasing, (sortBy_perm _ group).mem_iff, (sortBy_perm _ other).mem_iff,
    same resource]

/-- A measurement that one of the groups holds is held by one of the others. -/
lemma covered {measured : Measured} (same : SameGroups groups others)
    (covered : measured.Covered groups) : measured.Covered others := by
  obtain ⟨group, given, holds⟩ := covered
  induction same with
  | nil => exact absurd given List.not_mem_nil
  | @cons first second _ _ alike _ ih =>
    rcases List.mem_cons.mp given with rfl | later
    · exact ⟨second, List.mem_cons_self, fun resource used =>
        (alike resource).mp (holds resource used)⟩
    · obtain ⟨other, member, holds⟩ := ih later
      exact ⟨other, List.mem_cons_of_mem _ member, holds⟩

/-- Groups that name the same resources, each of them once, differ only in the order. -/
lemma forall₂_perm (same : SameGroups groups others) (nodup : ∀ group ∈ groups, group.Nodup)
    (nodup' : ∀ other ∈ others, other.Nodup) : List.Forall₂ List.Perm groups others := by
  induction same with
  | nil => exact .nil
  | cons alike _ ih =>
    obtain ⟨first, nodup⟩ := List.forall_mem_cons.mp nodup
    obtain ⟨first', nodup'⟩ := List.forall_mem_cons.mp nodup'
    exact .cons ((List.perm_ext_iff_of_nodup first first').mpr alike) (ih nodup nodup')

end SameGroups

namespace Measured

variable {measured later : Measured} {all : List Measured} {times times' : Nat}

/-! ## Giving up an end several times -/

/-- Nothing is measured if an entry does not give up its end. -/
@[simp]
lemma timesMeasured_zero (measured : Measured) (whole : Entry) :
    measured.timesMeasured 0 whole = 0 := by
  simp [timesMeasured]

/-- Something is measured if it does. -/
lemma timesMeasured_eq_zero_iff : measured.timesMeasured times whole = 0 ↔ times = 0 := by
  unfold timesMeasured
  split
  · rfl
  · omega

/-- More measurements come of an entry that gives up its end more often. -/
lemma timesMeasured_mono (more : times ≤ times') (whole : Entry) :
    measured.timesMeasured times whole ≤ measured.timesMeasured times' whole := by
  unfold timesMeasured
  split
  · exact more
  · omega

/-- What tells two numbers of times apart for an entry does so for all that start earlier. -/
lemma timesMeasured_eq_of_le (same : measured.timesMeasured times whole =
    measured.timesMeasured times' whole) (early : whole.start ≤ entry.start) :
    measured.timesMeasured times entry = measured.timesMeasured times' entry := by
  unfold timesMeasured at same ⊢
  by_cases before : whole.start < measured.start
  · rw [if_pos before, if_pos before] at same
    rw [same]
  · have behind : ¬entry.start < measured.start := fun later => before (early.trans_lt later)
    rw [if_neg before, if_neg before] at same
    rw [if_neg behind, if_neg behind, same]

/-- As many measurements come of an entry if it has the same parts. -/
lemma splitTimes_congr (used : whole.resources = [resource])
    (same : measured.timesMeasured times whole = measured.timesMeasured times' whole) :
    measured.splitTimes times whole = measured.splitTimes times' whole := by
  rcases eq_or_ne times 0 with rfl | some
  · rw [timesMeasured_zero, eq_comm, timesMeasured_eq_zero_iff] at same
    rw [same]
  · have some' : times' ≠ 0 := fun none => some (timesMeasured_eq_zero_iff.mp
      (same.trans (timesMeasured_eq_zero_iff.mpr none)))
    rw [splitTimes_eq some used, splitTimes_eq some' used, same]

/-- If as many measurements come of some entries, as many come of each. -/
lemma timesMeasured_eq_of_sum_eq (same : (entries.map (measured.timesMeasured times)).sum =
    (entries.map (measured.timesMeasured times')).sum) (member : entry ∈ entries) :
    measured.timesMeasured times entry = measured.timesMeasured times' entry := by
  have differ {times times' : Nat} (more : times ≤ times')
      (fewer : measured.timesMeasured times entry ≠ measured.timesMeasured times' entry) :
      (entries.map (measured.timesMeasured times)).sum <
        (entries.map (measured.timesMeasured times')).sum :=
    List.sum_lt_sum _ _ (fun entry _ => timesMeasured_mono more entry)
      ⟨entry, member, (timesMeasured_mono more entry).lt_of_ne fewer⟩
  by_contra fewer
  rcases le_total times times' with more | more
  · exact (differ more fewer).ne same
  · exact (differ more (Ne.symm fewer)).ne same.symm

/-! ## One measurement -/

/-- As many measurements come of each entry that overlaps the measurement, whether it is completed
to the ones or to the other groups. -/
def LacksAlike (measured : Measured) (groups others : List (List Resource))
    (entries : List Entry) : Prop :=
  ∀ entry ∈ entries, ∀ resource, measured.concerns resource entry →
    measured.timesMeasured ((measured.missing groups).count resource) entry =
      measured.timesMeasured ((measured.missing others).count resource) entry

/-- Neither does it matter here. -/
lemma LacksAlike.symm (alike : measured.LacksAlike groups others entries) :
    measured.LacksAlike others groups entries :=
  fun entry member resource concerned => (alike entry member resource concerned).symm

/-- A resource on which an entry overlaps the measurement is missing in both cases or in none. -/
lemma LacksAlike.mem_missing (alike : measured.LacksAlike groups others entries)
    (member : entry ∈ entries) (concerned : measured.concerns resource entry)
    (missing : resource ∈ measured.missing groups) : resource ∈ measured.missing others := by
  by_contra absent
  have same := alike entry member resource concerned
  rw [List.count_eq_zero.mpr absent, timesMeasured_zero, timesMeasured_eq_zero_iff] at same
  exact List.count_eq_zero.mp same missing

/-- A measurement that lacks alike is completed alike.

**Proof sketch.** The guards carry over, since an entry that overlaps a resource which is missing
for one list overlaps one that is missing for the other. Each entry then becomes the same parts: one
that overlaps nothing missing stays as it is in both cases, and any other one is split equally
often, or so often that it makes no difference. -/
lemma LacksAlike.complete (alike : measured.LacksAlike groups others entries)
    (covered : measured.Covered others) (ok : measured.complete groups entries = .ok completed) :
    measured.complete others entries = .ok completed := by
  have completes := completes_of_complete ok
  obtain ⟨-, free, rfl⟩ := complete_eq_ok_iff.mp ok
  refine complete_eq_ok_iff.mpr ⟨covered, fun resource missing entry member concerned =>
    free resource (alike.symm.mem_missing member concerned missing) entry member concerned, ?_⟩
  refine List.flatMap_congr fun entry member => ?_
  by_cases apart : ∀ resource ∈ measured.missing groups, ¬measured.concerns resource entry
  · have apart' : ∀ resource ∈ measured.missing others, ¬measured.concerns resource entry :=
      fun resource missing concerned =>
        apart resource (alike.symm.mem_missing member concerned missing) concerned
    rw [List.countP_eq_zero.mpr apart, List.countP_eq_zero.mpr apart']
  · push Not at apart
    obtain ⟨resource, missing, concerned⟩ := apart
    have used := (completes.alone missing member concerned).1
    rw [countP_concerns used concerned, countP_concerns used concerned]
    exact splitTimes_congr used (alike entry member resource concerned)

/-- A measurement that is completed alike lacks alike. -/
lemma lacksAlike_of_complete (ok : measured.complete groups entries = .ok completed)
    (ok' : measured.complete others entries = .ok completed')
    (same : measuredOver completed measured.interval = measuredOver completed' measured.interval) :
    measured.LacksAlike groups others entries := by
  intro entry member resource concerned
  have before := count_measuredOver_complete ok resource
  have after := count_measuredOver_complete ok' resource
  rw [← same, before, Nat.add_left_cancel_iff] at after
  exact timesMeasured_eq_of_sum_eq after (List.mem_filter.mpr ⟨member, concerned⟩)

/-! ## One measurement after the other -/

/-- A measurement that lacks alike still does after another was completed. -/
lemma LacksAlike.of_completes {missing : List Resource}
    (alike : later.LacksAlike groups others entries)
    (completes : measured.Completes missing entries completed) :
    later.LacksAlike groups others completed := by
  intro entry member resource concerned
  obtain ⟨whole, old, concerned, early⟩ := completes.exists_whole member concerned
  exact timesMeasured_eq_of_le (alike whole old resource concerned) early

/-- While measurements are completed, whatever overlaps one that follows on a missing resource is
idle: an entry that is not idle stays.

**Proof sketch.** Induction on the measurements. If the entry were busy, it would stay through the
first one, since only idle entries are split, and then stand in the way of the one that follows. -/
lemma isDelay_of_foldlM (ok : all.foldlM (complete groups) entries = .ok completed)
    (listed : later ∈ all) (missing : resource ∈ later.missing groups) (member : entry ∈ entries)
    (concerned : later.concerns resource entry) : entry.operation.isDelay := by
  induction all generalizing entries with
  | nil => exact absurd listed List.not_mem_nil
  | cons measured all ih =>
    rw [List.foldlM_cons] at ok
    obtain ⟨middle, first, rest⟩ := bind_eq_ok.mp ok
    have completes := completes_of_complete first
    rcases List.mem_cons.mp listed with rfl | listed
    · exact (completes.idle resource missing entry member concerned).1
    · by_contra busy
      refine busy (ih rest listed ((completes.mem_iff entry).mpr (.inl ⟨member, ?_⟩)))
      exact fun other missing concerned =>
        busy (completes.idle other missing entry member concerned).1

/-- A measurement that lacks alike after another was completed did so before, if it can be completed
in its turn.

**Proof sketch.** An entry that was not split is still there. Where an entry was split, what is
measured now overlaps the measurement that follows, and is not idle; so the resource cannot be
missing, for either of the two lists of groups. -/
lemma lacksAlike_of_rest (first : measured.complete groups entries = .ok completed)
    (rest : all.foldlM (complete groups) completed = .ok completed') (listed : later ∈ all)
    (order : measured.notAfter later) (timed : later.start ≤ later.stop)
    (alike : later.LacksAlike groups others completed) :
    later.LacksAlike groups others entries := by
  have completes := completes_of_complete first
  intro entry old resource concerned
  by_cases apart : ∀ other ∈ measured.missing groups, ¬measured.concerns other entry
  · exact alike entry ((completes.mem_iff entry).mpr (.inl ⟨old, apart⟩)) resource concerned
  · push Not at apart
    obtain ⟨other, split, overlaps⟩ := apart
    obtain ⟨member, concerned⟩ :=
      completes.concerns_added split old overlaps order timed concerned
    -- what is measured now stands in the way, so the resource cannot be missing
    have absent : resource ∉ later.missing groups := fun missing =>
      absurd (isDelay_of_foldlM rest listed missing member concerned) Bool.false_ne_true
    have absent' : resource ∉ later.missing others :=
      mt (alike.symm.mem_missing member concerned) absent
    rw [List.count_eq_zero.mpr absent, List.count_eq_zero.mpr absent']

/-- Completing measurements to other groups gives the same exactly if they all lack alike.

**Proof sketch.** By induction on the measurements. If the results are the same, then as much is
measured over the interval of the first of them, since those that follow add nothing to it; so it
lacks alike, and completing it gives the same. -/
theorem foldlM_complete_iff (ok : all.foldlM (complete groups) entries = .ok completed)
    (same : SameGroups groups others) (nodup : (all.map interval).Nodup)
    (timed : ∀ measured ∈ all, measured.start ≤ measured.stop)
    (order : all.Pairwise fun earlier later => earlier.notAfter later) :
    all.foldlM (complete others) entries = .ok completed ↔
      ∀ measured ∈ all, measured.LacksAlike groups others entries := by
  induction all generalizing entries with
  | nil => exact ⟨fun _ => nofun, fun _ => ok⟩
  | cons measured all ih =>
    rw [List.foldlM_cons] at ok
    obtain ⟨middle, first, rest⟩ := bind_eq_ok.mp ok
    obtain ⟨fresh, nodup⟩ := List.nodup_cons.mp nodup
    obtain ⟨-, timed⟩ := List.forall_mem_cons.mp timed
    obtain ⟨before, order⟩ := List.pairwise_cons.mp order
    have covered := same.covered (complete_eq_ok_iff.mp first).1
    rw [List.foldlM_cons, List.forall_mem_cons]
    constructor
    · intro ok'
      obtain ⟨middle', first', rest'⟩ := bind_eq_ok.mp ok'
      have unlisted : ∀ later ∈ all, later.interval = measured.interval →
          later.missing groups = [] ∧ later.missing others = [] := fun later member same =>
        absurd (same ▸ List.mem_map_of_mem member) fresh
      have alike := lacksAlike_of_complete first first' (by
        rw [← measuredOver_foldlM rest fun later member same => (unlisted later member same).1,
          measuredOver_foldlM rest' fun later member same => (unlisted later member same).2])
      obtain rfl : middle = middle' :=
        Except.ok.inj ((alike.complete covered first).symm.trans first')
      refine ⟨alike, fun later member => ?_⟩
      exact lacksAlike_of_rest first rest member (before later member) (timed later member)
        ((ih rest nodup timed order).mp rest' later member)
    · rintro ⟨alike, others_alike⟩
      refine bind_eq_ok.mpr ⟨middle, alike.complete covered first, ?_⟩
      exact (ih rest nodup timed order).mpr fun later member =>
        (others_alike later member).of_completes (completes_of_complete first)

end Measured

/-! ## Aligning a schedule -/

/-- The order in which a list names resources does not matter once it is sorted. -/
lemma increasing_eq_of_perm (perm : group.Perm other) : increasing group = increasing other := by
  have sorted (resources : List Resource) : (increasing resources).Pairwise (· ≤ ·) := by
    simpa [increasing] using @pairwise_sortBy _ (fun a b : Nat => decide (a ≤ b))
      (fun a b => by simp [Nat.le_total]) (fun a b c => by simp; omega) resources
  refine List.Perm.eq_of_pairwise' (sorted group) (sorted other) ?_
  exact (sortBy_perm _ group).trans (perm.trans (sortBy_perm _ other).symm)

namespace Schedule

variable {schedule aligned : Schedule}

/-- A schedule can be aligned exactly if its measurements can be completed one after the other. -/
lemma exists_align_iff : (∃ aligned, schedule.align groups = .ok aligned ∧
      aligned.entries = completed) ↔
    (measuredBy schedule.entries).foldlM (Measured.complete (groups.map increasing))
      schedule.entries = .ok completed := by
  constructor
  · rintro ⟨aligned, ok, rfl⟩
    exact align_eq_ok ok
  · intro folded
    unfold align
    split
    · rename_i none
      rw [none] at folded
      cases folded
      exact ⟨schedule, rfl, rfl⟩
    · exact ⟨_, map_eq_ok.mpr ⟨completed, folded, rfl⟩, rfl⟩

/-- The order in which the groups name their resources does not matter. -/
lemma align_eq_of_perm (perm : List.Forall₂ List.Perm groups others) :
    schedule.align groups = schedule.align others := by
  have sorted : groups.map increasing = others.map increasing := by
    induction perm with
    | nil => rfl
    | cons first _ ih => rw [List.map_cons, List.map_cons, increasing_eq_of_perm first, ih]
  simp only [align, sorted]

/-- Aligning a schedule to either of two lists of groups fails, or gives the same entries. -/
def AlignsAlike (schedule : Schedule) (groups others : List (List Resource)) : Prop :=
  (∃ e e', schedule.align groups = .error e ∧ schedule.align others = .error e') ∨
    ∃ aligned aligned', schedule.align groups = .ok aligned ∧
      schedule.align others = .ok aligned' ∧ aligned.entries = aligned'.entries

/-- Where a schedule can be aligned to some groups, it can be aligned to groups that name the same
resources and has the same entries then exactly if its measurements lack alike. -/
lemma exists_align_sameGroups_iff (same : SameGroups groups others)
    (ok : schedule.align groups = .ok aligned) : (∃ aligned', schedule.align others = .ok aligned' ∧
      aligned'.entries = aligned.entries) ↔
    ∀ measured ∈ measuredBy schedule.entries, measured.LacksAlike (groups.map increasing)
      (others.map increasing) schedule.entries :=
  exists_align_iff.trans (Measured.foldlM_complete_iff (align_eq_ok ok) same.map_increasing
    (Measured.nodup_intervals_measuredBy _) (fun _ => Measured.start_le_stop_of_mem)
    (Measured.pairwise_measuredBy _))

/-- **Groups that name the same resources.** If no group names a resource twice, it does not matter
in which order the groups name them. In general, aligning a schedule to two lists of groups that
name the same resources comes out alike exactly if, provided that it succeeds for either, as many
measurements come of each entry that overlaps a measurement on some resource: the resource is
missing in both cases or in none, and equally often if the entry starts before the measurement.

**Proof sketch.** Without repetitions the sorted groups are the same lists, so the runs are the
same. In general the two runs complete the same measurements one after the other, and each of these
is completed alike exactly if it lacks alike (`exists_align_sameGroups_iff`, which gives the second
result along with the first). It is applied from the side that succeeds; two failures are alike
anyhow. -/
theorem align_sameGroups_iff (same : SameGroups groups others) :
    ((∀ group ∈ groups, group.Nodup) → (∀ other ∈ others, other.Nodup) →
        schedule.align groups = schedule.align others) ∧
      (schedule.AlignsAlike groups others ↔
        ((∃ aligned, schedule.align groups = .ok aligned ∨ schedule.align others = .ok aligned) →
          ∀ measured ∈ measuredBy schedule.entries, measured.LacksAlike (groups.map increasing)
            (others.map increasing) schedule.entries)) := by
  refine ⟨fun nodup nodup' => align_eq_of_perm (same.forall₂_perm nodup nodup'), fun alike => ?_,
    fun alike => ?_⟩
  · rintro ⟨aligned, ok⟩
    rcases alike with ⟨e, e', fails, fails'⟩ | ⟨first, second, ok, ok', entries⟩
    · rw [fails, fails'] at ok
      exact absurd ok (by simp)
    · exact (exists_align_sameGroups_iff same ok).mp ⟨second, ok', entries.symm⟩
  · cases result : schedule.align groups with
    | ok aligned =>
      obtain ⟨aligned', ok', entries⟩ :=
        (exists_align_sameGroups_iff same result).mpr (alike ⟨aligned, .inl result⟩)
      exact .inr ⟨aligned, aligned', result, ok', entries.symm⟩
    | error e =>
      cases result' : schedule.align others with
      | error e' => exact .inl ⟨e, e', result, result'⟩
      | ok aligned' =>
        obtain ⟨aligned, ok, -⟩ := (exists_align_sameGroups_iff same.symm result').mpr
          fun measured member => (alike ⟨aligned', .inr result'⟩ measured member).symm
        exact absurd (result.symm.trans ok) nofun

/-- The idle time on the last resource begins with the measurement, so naming this resource twice
makes no difference. -/
theorem align_sameGroups_readout : ∃ schedule,
    (Program.readout.schedule (.readout 5) {}).result = .ok schedule ∧
      SameGroups [[0, 2]] [[2, 0, 2]] ∧ schedule.AlignsAlike [[0, 2]] [[2, 0, 2]] ∧
      (⟨3, 8, [0]⟩ : Measured).LacksAlike [[0, 2]] [[0, 2, 2]] schedule.entries := by
  obtain ⟨schedule, aligned, aligned', ran, listed, ok, ok', entries⟩ :
      ∃ schedule aligned aligned',
        (Program.readout.schedule (.readout 5) {}).result = .ok schedule ∧
        measuredBy schedule.entries = [⟨3, 8, [0]⟩] ∧ schedule.align [[0, 2]] = .ok aligned ∧
        schedule.align [[2, 0, 2]] = .ok aligned' ∧ aligned.entries = aligned'.entries :=
    ⟨_, _, _, rfl, rfl, rfl, rfl, rfl⟩
  have same : SameGroups [[0, 2]] [[2, 0, 2]] :=
    .cons (fun resource => by simp only [List.mem_cons, List.not_mem_nil]; tauto) .nil
  have alike : schedule.AlignsAlike [[0, 2]] [[2, 0, 2]] :=
    .inr ⟨aligned, aligned', ok, ok', entries⟩
  refine ⟨schedule, ran, same, alike, ?_⟩
  exact (align_sameGroups_iff same).2.mp alike ⟨aligned, .inl ok⟩ _
    (listed ▸ List.mem_singleton_self _)

/-- A resource that a group names twice is measured twice over the same interval, where naming it
once measures it once. And a group that names a measured resource twice is passed over for a larger
one. -/
theorem align_repeats_measurement : ∃ schedule,
    (Program.readout.schedule (.readout 5) {}).result = .ok schedule ∧
      SameGroups [[1, 0], [2]] [[1, 0, 1], [2]] ∧
      ¬schedule.AlignsAlike [[1, 0], [2]] [[1, 0, 1], [2]] ∧
      (∃ aligned, schedule.align [[1, 0, 1], [2]] = .ok aligned ∧
        (measuredOver aligned.entries (3, 8)).count 1 = 2) ∧
      SameGroups [[0, 1], [0]] [[0, 1], [0, 0]] ∧
      ¬schedule.AlignsAlike [[0, 1], [0]] [[0, 1], [0, 0]] := by
  obtain ⟨schedule, once, twice, whole, larger, ran, ok, ok', twofold, differ, found, passed,
      differ'⟩ : ∃ schedule once twice whole larger,
      (Program.readout.schedule (.readout 5) {}).result = .ok schedule ∧
        schedule.align [[1, 0], [2]] = .ok once ∧ schedule.align [[1, 0, 1], [2]] = .ok twice ∧
        (measuredOver twice.entries (3, 8)).count 1 = 2 ∧ once.entries ≠ twice.entries ∧
        schedule.align [[0, 1], [0]] = .ok whole ∧ schedule.align [[0, 1], [0, 0]] = .ok larger ∧
        whole.entries ≠ larger.entries :=
    ⟨_, _, _, _, _, rfl, rfl, rfl, by decide, by decide, rfl, rfl, by decide⟩
  have apart {groups others : List (List Resource)} {aligned aligned' : Schedule}
      (ok : schedule.align groups = .ok aligned) (ok' : schedule.align others = .ok aligned')
      (differ : aligned.entries ≠ aligned'.entries) : ¬schedule.AlignsAlike groups others := by
    rintro (⟨e, e', fails, -⟩ | ⟨first, second, found, found', same⟩)
    · exact absurd (fails.symm.trans ok) nofun
    · cases ok.symm.trans found
      cases ok'.symm.trans found'
      exact differ same
  refine ⟨schedule, ran, ?_, apart ok ok' differ, ⟨twice, ok', twofold⟩, ?_,
    apart found passed differ'⟩
  · refine .cons (fun resource => ?_) (.cons (fun _ => .rfl) .nil)
    simp only [List.mem_cons, List.not_mem_nil]
    tauto
  · exact .cons (fun _ => .rfl) (.cons (fun resource => by simp) .nil)

end Schedule

end Timetable
