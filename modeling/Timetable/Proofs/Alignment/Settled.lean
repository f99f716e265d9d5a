import Timetable.Proofs.Alignment.Multiplicity

/-!
# Aligned schedules stay as they are

A measurement is settled among some entries if a group holds it and no entry keeps a missing
resource during it. Completing it changes nothing then, so a schedule whose measurements are all
settled is aligned to itself.

Aligning settles every measurement: what it adds comes from the first group that holds the
measurement, so this group is still the first one that does, and a resource that is missing even
then is kept by no entry.

## Main definitions

* `Measured.Settled` — completing a measurement changes nothing.

## Main results

* `Measured.of_mem_missing` — what a measurement still lacks when a part of what was missing has
  been added.
* `Schedule.settled_of_align` — the measurements of an aligned schedule are settled.
* `Schedule.align_again` — aligning twice is aligning once.
-/

set_option autoImplicit false

namespace Timetable

variable {entries completed : List Entry} {resource : Resource} {groups : List (List Resource)}

namespace Measured

variable {measured later more : Measured} {all : List Measured}

/-! ## Settled measurements -/

/-- Some group holds the measurement, and no entry keeps a missing resource during it. -/
structure Settled (measured : Measured) (groups : List (List Resource)) (entries : List Entry) :
    Prop where
  covered : measured.Covered groups
  apart : ∀ resource ∈ measured.missing groups, ¬measured.Overlapped entries resource

/-- Completing a settled measurement changes nothing. -/
lemma Settled.complete (settled : measured.Settled groups entries) :
    measured.complete groups entries = .ok entries := by
  have apart : ∀ resource ∈ measured.missing groups, ∀ entry ∈ entries,
      ¬measured.concerns resource entry := fun resource missing entry member concerned =>
    settled.apart resource missing ⟨entry, member, concerned⟩
  refine complete_eq_ok_iff.mpr ⟨settled.covered, ?_, (splitAll_of_apart apart).symm⟩
  intro resource missing entry member concerned
  exact absurd concerned (apart resource missing entry member)

/-- Completing settled measurements one after the other changes nothing. -/
lemma foldlM_of_settled (settled : ∀ measured ∈ all, measured.Settled groups entries) :
    all.foldlM (complete groups) entries = .ok entries := by
  induction all with
  | nil => rfl
  | cons measured all ih =>
    obtain ⟨first, others⟩ := List.forall_mem_cons.mp settled
    rw [List.foldlM_cons, first.complete]
    exact ih others

/-! ## What completing measurements settles -/

/-- Two measurements over the same interval overlap the same entries. -/
lemma Overlapped.congr (overlapped : more.Overlapped entries resource)
    (same : measured.interval = more.interval) : measured.Overlapped entries resource := by
  obtain ⟨starts, stops⟩ := Prod.mk.inj same
  simpa only [Overlapped, concerns, starts, stops] using overlapped

/-- Completing measurements leaves nothing that overlaps an interval on a resource where nothing did
before. -/
lemma overlapped_of_foldlM (ok : all.foldlM (complete groups) entries = .ok completed)
    (overlapped : later.Overlapped completed resource) : later.Overlapped entries resource := by
  induction all generalizing entries with
  | nil =>
    cases ok
    exact overlapped
  | cons measured all ih =>
    rw [List.foldlM_cons] at ok
    obtain ⟨middle, first, rest⟩ := bind_eq_ok.mp ok
    obtain ⟨entry, member, overlaps⟩ := ih rest
    obtain ⟨whole, old, overlaps, -⟩ :=
      (completes_of_complete first).exists_whole member overlaps
    exact ⟨whole, old, overlaps⟩

/-- Nothing is missing from a measurement that is a whole group. -/
lemma missing_of_whole (whole : measured.resources ∈ groups) : measured.missing groups = [] :=
  if_pos (List.contains_iff_mem.mpr whole)

/-- The first group that holds a measurement is still the first when more of its resources are
measured. -/
lemma find?_of_more {group : List Resource}
    (covering : groups.find? (fun group => measured.resources.all group.contains) = some group)
    (kept : ∀ resource ∈ measured.resources, resource ∈ more.resources)
    (inside : ∀ resource ∈ more.resources, resource ∈ group) :
    groups.find? (fun group => more.resources.all group.contains) = some group := by
  obtain ⟨-, before, after, rfl, first⟩ := List.find?_eq_some_iff_append.mp covering
  refine List.find?_eq_some_iff_append.mpr ⟨by simpa using inside, before, after, rfl, ?_⟩
  intro other member
  have lower := first other member
  simp only [Bool.not_eq_true', List.all_eq_false] at lower ⊢
  obtain ⟨resource, used, outside⟩ := lower
  exact ⟨resource, kept resource used, outside⟩

/-- If a part of what a measurement lacks has been added to it, then what it still lacks is what was
missing and has not been added: the first group that holds it is the same as before.

**Proof sketch.** What the measurement lacks is what the first group that holds it has besides. The
larger measurement still lies within this group, so no group in front of it holds the larger one
either (`find?_of_more`), and it lacks what this group has besides the larger measurement. -/
theorem of_mem_missing (partly : measured.resources ∉ groups) (covered : measured.Covered groups)
    (kept : ∀ resource ∈ measured.resources, resource ∈ more.resources)
    (added : ∀ resource ∈ more.resources,
      resource ∈ measured.resources ∨ resource ∈ measured.missing groups)
    (missing : resource ∈ more.missing groups) :
    resource ∈ measured.missing groups ∧ resource ∉ more.resources := by
  obtain ⟨group, covering⟩ : ∃ group, groups.find? (fun group =>
      measured.resources.all group.contains) = some group := by
    refine Option.isSome_iff_exists.mp (List.find?_isSome.mpr ?_)
    obtain ⟨group, given, holds⟩ := covered
    exact ⟨group, given, by simpa using holds⟩
  have holds : ∀ resource ∈ measured.resources, resource ∈ group := by
    simpa using List.find?_some covering
  have lacks : measured.missing groups =
      group.filter fun resource => !measured.resources.contains resource := by
    have partly' : groups.contains measured.resources = false := by simpa using partly
    simp only [Measured.missing, partly', Bool.false_eq_true, if_false, covering]
  have inside : ∀ resource ∈ more.resources, resource ∈ group := fun resource used =>
    (added resource used).elim (holds resource) fun new => List.mem_of_mem_filter (lacks ▸ new)
  unfold Measured.missing at missing
  split at missing
  · exact absurd missing List.not_mem_nil
  · simp only [find?_of_more covering kept inside] at missing
    obtain ⟨member, absent⟩ := List.mem_filter.mp missing
    have absent : resource ∉ more.resources := by simpa using absent
    refine ⟨?_, absent⟩
    rw [lacks]
    exact List.mem_filter.mpr ⟨member, by simpa using mt (kept resource) absent⟩

end Measured

namespace Schedule

variable {schedule aligned : Schedule}

/-- A measurement that is a whole group measures the same resources in the aligned schedule. -/
lemma resources_eq_of_whole (ok : schedule.align groups = .ok aligned) {measured more : Measured}
    (listed : measured ∈ measuredBy schedule.entries) (member : more ∈ measuredBy aligned.entries)
    (same : measured.interval = more.interval)
    (whole : measured.resources ∈ groups.map increasing) :
    more.resources = measured.resources := by
  rw [Measured.resources_of_mem_measuredBy member, Measured.resources_of_mem_measuredBy listed,
    ← same]
  refine congrArg increasing
    (Measured.measuredOver_foldlM (align_eq_ok ok) fun other among here => ?_)
  obtain rfl := List.inj_on_of_nodup_map (Measured.nodup_intervals_measuredBy _) among listed here
  exact Measured.missing_of_whole whole

/-- **Settled measurements.** The measurements of an aligned schedule are settled.

**Proof sketch.** A measurement that was a whole group has not changed. To any other, those missing
resources were added that some entry kept during it, so the resources that are missing now are kept
by none; and aligning does not make any entry keep a resource during an interval in which it was
free. -/
theorem settled_of_align (ok : schedule.align groups = .ok aligned) {more : Measured}
    (member : more ∈ measuredBy aligned.entries) :
    more.Settled (groups.map increasing) aligned.entries := by
  have folded := align_eq_ok ok
  obtain ⟨measured, listed, same⟩ := List.mem_map.mp
    ((align_intervals ok).mp (List.mem_map_of_mem (f := Measured.interval) member))
  obtain ⟨group, given, holds⟩ := Measured.exists_group_of_foldlM folded measured listed
  have resources (resource : Resource) : resource ∈ more.resources ↔
      resource ∈ measured.resources ∨ resource ∈ measured.missing (groups.map increasing) ∧
        measured.Overlapped schedule.entries resource := by
    rw [← align_measures ok listed, Measured.resources_of_mem_measuredBy member, ← same,
      ← mem_measuredOver]
    exact (sortBy_perm _ _).mem_iff
  refine ⟨⟨group, given, fun resource used => ?_⟩, fun resource missing overlapped => ?_⟩
  · exact (holds resource).mpr (((resources resource).mp used).imp_right And.left)
  · by_cases whole : measured.resources ∈ groups.map increasing
    · have unchanged := resources_eq_of_whole ok listed member same whole
      exact absurd (Measured.missing_of_whole (unchanged ▸ whole) ▸ missing) List.not_mem_nil
    · obtain ⟨lacking, absent⟩ := Measured.of_mem_missing whole
        ⟨group, given, fun resource used => (holds resource).mpr (.inl used)⟩
        (fun resource used => (resources resource).mpr (.inl used))
        (fun resource used => ((resources resource).mp used).imp_right And.left) missing
      exact absent ((resources resource).mpr (.inr ⟨lacking,
        (Measured.overlapped_of_foldlM folded overlapped).congr same⟩))

/-- **Aligning twice is aligning once.** Whatever schedule is aligned to whatever groups, aligning
the result to the same groups succeeds and changes nothing.

**Proof sketch.** The measurements of the result are settled (`settled_of_align`), and completing a
settled measurement leaves all entries alone (`Measured.foldlM_of_settled`). If there was nothing to
align in the first place, there is nothing to align now. -/
theorem align_again (ok : schedule.align groups = .ok aligned) :
    aligned.align groups = .ok aligned := by
  have folded := Measured.foldlM_of_settled fun more member => settled_of_align ok member
  unfold align at ok
  split at ok
  · rename_i none
    cases ok
    simp only [align, none]
  · obtain ⟨entries, -, rfl⟩ := map_eq_ok.mp ok
    unfold align
    split
    · rfl
    · rw [folded]
      rfl

/-- The group of the measurement also names a resource that the program does not declare, so it
stays incomplete. -/
theorem align_again_readout : ∃ schedule aligned,
    (Program.readout.schedule (.readout 5) {}).result = .ok schedule ∧
      schedule.align [[1, 0, 7], [2]] = .ok aligned ∧
      measuredBy schedule.entries = [⟨3, 8, [0]⟩] ∧
      measuredBy aligned.entries = [⟨3, 8, [0, 1]⟩] ∧
      aligned.align [[1, 0, 7], [2]] = .ok aligned := by
  obtain ⟨schedule, aligned, ran, ok, before, after⟩ : ∃ schedule aligned,
      (Program.readout.schedule (.readout 5) {}).result = .ok schedule ∧
        schedule.align [[1, 0, 7], [2]] = .ok aligned ∧
        measuredBy schedule.entries = [⟨3, 8, [0]⟩] ∧
        measuredBy aligned.entries = [⟨3, 8, [0, 1]⟩] :=
    ⟨_, _, rfl, rfl, rfl, rfl⟩
  exact ⟨schedule, aligned, ran, ok, before, after, align_again ok⟩

end Schedule

end Timetable
