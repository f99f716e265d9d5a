import Mathlib.Data.List.Basic
import Timetable.Measurement
import Timetable.Proofs.Tiling

/-!
# Splitting idle time for a measurement

Completing a measurement to a group looks for the entries on the missing resources that overlap it,
and each of them gives up its end, as often as its resource is missing. Here the positions that are
looked for and the entries that are left are written without the loops.

## Main definitions

* `Measured.concernedAt` — the positions of the entries that overlap a measurement on a resource.
* `Measured.Unobstructed` — whatever overlaps a measurement on some resources is idle up to its end.
* `Measured.splitTimes`, `Measured.partsAt`, `Measured.splitAll` — the parts of an entry, or of all
  entries, that give up their ends several times.
* `Measured.Covered`, `Measured.missing` — a measurement is held by a group, and the resources by
  which it is completed to the first that does.
* `Measured.Completes` — what completing a measurement by further resources does.

## Main results

* `Measured.foldl_splitAt` — splitting at falling positions is splitting entry by entry.
* `Measured.complete_eq_ok_iff` — when a measurement can be completed, and what is left then.
* `Measured.completes_of_complete` — completing a measurement adds the missing resources of the
  first group that holds it.
-/

set_option autoImplicit false

namespace Timetable

/-- A computation has a result if its first part has one and the rest has one from there. -/
lemma bind_eq_ok {ε α β : Type} {first : Except ε α} {rest : α → Except ε β} {result : β} :
    (first >>= rest) = .ok result ↔ ∃ middle, first = .ok middle ∧ rest middle = .ok result := by
  cases first with
  | error e => exact ⟨nofun, nofun⟩
  | ok middle => exact ⟨fun ok => ⟨middle, rfl, ok⟩, fun ⟨_, rfl, ok⟩ => ok⟩

/-- A changed result comes from a result. -/
lemma map_eq_ok {ε α β : Type} {computed : Except ε α} {f : α → β} {result : β} :
    computed.map f = .ok result ↔ ∃ middle, computed = .ok middle ∧ f middle = result := by
  cases computed with
  | error e => exact ⟨nofun, nofun⟩
  | ok middle => exact ⟨fun ok => ⟨middle, rfl, Except.ok.inj ok⟩, fun ⟨_, rfl, same⟩ => same ▸ rfl⟩

namespace Measured

variable {measured later : Measured} {entry whole : Entry} {entries completed : List Entry}
  {resource : Resource} {resources : List Resource} {positions : List Nat}
  {groups : List (List Resource)}

/-! ## Which entries give up their ends -/

/-- The positions of the entries that overlap a measurement on a resource, counted from
`index`. -/
def concernedAt (measured : Measured) (resource : Resource) (index : Nat) (entries : List Entry) :
    List Nat :=
  ((entries.zipIdx index).filter fun place => measured.concerns resource place.1).map Prod.snd

/-- The positions are those of entries that overlap the measurement. -/
lemma mem_concernedAt {index : Nat} : index ∈ measured.concernedAt resource 0 entries ↔
    ∃ entry, entries[index]? = some entry ∧ measured.concerns resource entry := by
  simp [concernedAt, List.mem_zipIdx_iff_getElem?]

/-- The position of an entry is found once if the entry overlaps the measurement. -/
lemma count_concernedAt {index : Nat} (found : entries[index]? = some entry) :
    (measured.concernedAt resource 0 entries).count index =
      if measured.concerns resource entry then 1 else 0 := by
  have nodup : (measured.concernedAt resource 0 entries).Nodup := by
    refine List.Nodup.sublist (List.filter_sublist.map _) ?_
    rw [List.zipIdx_map_snd]
    exact List.nodup_range'
  have member : index ∈ measured.concernedAt resource 0 entries ↔
      measured.concerns resource entry := by
    simp [mem_concernedAt, found]
  rw [nodup.count]
  simp only [member]

/-- Nothing stands in the way of measuring some resources as well. -/
def Unobstructed (measured : Measured) (resources : List Resource) (entries : List Entry) : Prop :=
  ∀ resource ∈ resources, ∀ entry ∈ entries, measured.concerns resource entry →
    measured.obstructed resource entry = none

/-- If nothing stands in the way, all entries that overlap the measurement are found.

**Proof sketch.** Induction on the entries. An entry that does not overlap the measurement is passed
over. One that does is found at its position, unless it stands in the way, and then the search fails
and the right side does as well. -/
lemma idleAt_eq_ok_iff {index : Nat} : measured.idleAt resource index entries = .ok positions ↔
    positions = measured.concernedAt resource index entries ∧
      measured.Unobstructed [resource] entries := by
  simp only [Unobstructed, List.forall_mem_singleton]
  induction entries generalizing index positions with
  | nil => exact ⟨fun ok => ⟨(Except.ok.inj ok).symm, nofun⟩, fun ⟨found, _⟩ => found ▸ rfl⟩
  | cons entry entries ih =>
    rw [List.forall_mem_cons]
    by_cases concerned : measured.concerns resource entry
    · have here : measured.concernedAt resource index (entry :: entries) =
          index :: measured.concernedAt resource (index + 1) entries := by
        simp [concernedAt, concerned]
      cases obstacle : measured.obstructed resource entry with
      | some => simp [idleAt, concerned, obstacle]
      | none =>
        simp only [idleAt, concerned, obstacle, if_true, map_eq_ok, ih, here, true_implies,
          true_and]
        constructor
        · rintro ⟨others, ⟨rfl, idle⟩, rfl⟩
          exact ⟨rfl, idle⟩
        · rintro ⟨rfl, idle⟩
          exact ⟨_, ⟨rfl, idle⟩, rfl⟩
    · have here : measured.concernedAt resource index (entry :: entries) =
          measured.concernedAt resource (index + 1) entries := by
        simp [concernedAt, concerned]
      simp [idleAt, concerned, ih, here]

/-- For several resources, one after the other, the positions are found exactly if none of the
entries that are concerned stands in the way, and then they are those of all resources.

**Proof sketch.** Induction on the resources, with the bind taken apart. -/
lemma idleAtAll_eq_ok_iff : measured.idleAtAll entries resources = .ok positions ↔
    positions = resources.flatMap (fun resource => measured.concernedAt resource 0 entries) ∧
      measured.Unobstructed resources entries := by
  induction resources generalizing positions with
  | nil => exact ⟨fun ok => ⟨(Except.ok.inj ok).symm, nofun⟩, fun ⟨found, _⟩ => found ▸ rfl⟩
  | cons resource resources ih =>
    have split : measured.Unobstructed (resource :: resources) entries ↔
        measured.Unobstructed [resource] entries ∧ measured.Unobstructed resources entries := by
      simp [Unobstructed]
    unfold idleAtAll
    simp only [bind_eq_ok, idleAt_eq_ok_iff, ih, split, List.flatMap_cons]
    constructor
    · rintro ⟨first, ⟨rfl, free⟩, others, ⟨rfl, more⟩, ok⟩
      cases ok
      exact ⟨rfl, free, more⟩
    · rintro ⟨rfl, free, more⟩
      exact ⟨_, ⟨rfl, free⟩, _, ⟨rfl, more⟩, rfl⟩

/-! ## The entries that are left -/

/-- The measurement of one resource over the interval. -/
def added (measured : Measured) (resource : Resource) : Entry :=
  ⟨.gate measureName [resource], measured.start, measured.stop - measured.start, none⟩

/-- The idle time in front of the interval. -/
def kept (measured : Measured) (resource : Resource) (whole : Entry) : Entry :=
  .idle resource whole.start (measured.start - whole.start) whole.source

/-- An entry that starts before the interval keeps its time up to it. -/
lemma split_of_before {others : List Resource} (used : whole.resources = resource :: others)
    (before : whole.start < measured.start) :
    measured.split whole = [measured.kept resource whole, measured.added resource] := by
  simp [split, used, before, kept, added]

/-- An entry that starts with the interval gives up all of its time. -/
lemma split_of_not_before {others : List Resource} (used : whole.resources = resource :: others)
    (behind : ¬whole.start < measured.start) :
    measured.split whole = [measured.added resource] := by
  simp [split, used, behind, added]

/-- An entry that gives up its end leaves at least one part, and the first part gives up the same
end again. -/
lemma exists_split (measured : Measured) (whole : Entry) : ∃ first others,
    measured.split whole = first :: others ∧ measured.split first = first :: others := by
  cases used : whole.resources with
  | nil =>
    have same : measured.split whole = [whole] := by simp [split, used]
    exact ⟨whole, [], same, same⟩
  | cons resource others =>
    by_cases before : whole.start < measured.start
    · exact ⟨_, _, split_of_before used before, split_of_before rfl before⟩
    · exact ⟨_, _, split_of_not_before used before, split_of_not_before rfl (lt_irrefl _)⟩

/-- The parts of an entry that gives up its end several times, each time in its first part. -/
def splitTimes (measured : Measured) : Nat → Entry → List Entry
  | 0, entry => [entry]
  | times + 1, entry =>
    match measured.split entry with
    | [] => []
    | first :: others => measured.splitTimes times first ++ others

/-- Giving up the end once more, from what the first time left. -/
lemma splitTimes_succ {first : Entry} {others : List Entry}
    (parts : measured.split whole = first :: others) (times : Nat) :
    measured.splitTimes (times + 1) whole = measured.splitTimes times first ++ others := by
  simp only [splitTimes, parts]

/-- Giving up the end repeatedly only repeats parts. -/
lemma mem_splitTimes {times : Nat} (some : times ≠ 0) :
    entry ∈ measured.splitTimes times whole ↔ entry ∈ measured.split whole := by
  induction times generalizing whole with
  | zero => exact absurd rfl some
  | succ times ih =>
    obtain ⟨first, others, parts, again⟩ := measured.exists_split whole
    rw [splitTimes_succ parts, parts]
    cases times with
    | zero => simp [splitTimes]
    | succ times => simp [@ih first times.succ_ne_zero, again]

/-- The parts of some entries, the first of which is at position `index`, each split as often as
its position occurs. -/
def partsAt (measured : Measured) (positions : List Nat) (index : Nat) (entries : List Entry) :
    List Entry :=
  (entries.zipIdx index).flatMap fun place =>
    measured.splitTimes (positions.count place.2) place.1

/-- The first entry is split as often as its position occurs, and the others are looked at from the
next position on. -/
@[simp]
lemma partsAt_cons (positions : List Nat) (index : Nat) (whole : Entry) (entries : List Entry) :
    measured.partsAt positions index (whole :: entries) =
      measured.splitTimes (positions.count index) whole ++
        measured.partsAt positions (index + 1) entries := by
  simp [partsAt]

/-- The entries of a second list are looked at from the position behind those of the first one. -/
lemma partsAt_append (positions : List Nat) (index : Nat) (before after : List Entry) :
    measured.partsAt positions index (before ++ after) =
      measured.partsAt positions index before ++
        measured.partsAt positions (index + before.length) after := by
  simp [partsAt, List.zipIdx_append]

/-- Entries behind all positions stay whole. -/
lemma partsAt_of_lt {index : Nat} (below : ∀ position ∈ positions, position < index)
    (entries : List Entry) : measured.partsAt positions index entries = entries := by
  induction entries generalizing index with
  | nil => rfl
  | cons whole entries ih =>
    have absent : positions.count index = 0 :=
      List.count_eq_zero.mpr fun member => lt_irrefl index (below index member)
    rw [partsAt_cons, absent, ih fun position member => (below position member).trans_le
      index.le_succ]
    rfl

/-- Positions behind the entries do not matter. -/
lemma partsAt_cons_of_le {index position : Nat} (behind : index + entries.length ≤ position) :
    measured.partsAt (position :: positions) index entries =
      measured.partsAt positions index entries := by
  induction entries generalizing index with
  | nil => rfl
  | cons whole entries ih =>
    simp only [List.length_cons] at behind
    rw [partsAt_cons, partsAt_cons, ih (by omega), List.count_cons_of_ne (by omega)]

/-- Splitting at falling positions splits each entry as often as its position occurs.

**Proof sketch.** By induction on the positions: the first of them is not below any other, so what
is behind the entry at it stays as it is, and the others find the first of its parts in its
place. -/
theorem foldl_splitAt (falling : positions.Pairwise fun a b => b ≤ a) (entries : List Entry) :
    positions.foldl measured.splitAt entries = measured.partsAt positions 0 entries := by
  induction positions generalizing entries with
  | nil => exact (partsAt_of_lt (fun _ none => absurd none List.not_mem_nil) entries).symm
  | cons position positions ih =>
    obtain ⟨below, falling⟩ := List.pairwise_cons.mp falling
    rw [List.foldl_cons, ih falling]
    rcases Nat.lt_or_ge position entries.length with inside | outside
    · obtain ⟨before, whole, after, rfl, rfl⟩ : ∃ before whole after,
          entries = before ++ whole :: after ∧ before.length = position :=
        ⟨entries.take position, entries[position], entries.drop (position + 1), by simp,
          by simp [inside.le]⟩
      obtain ⟨first, others, parts, -⟩ := measured.exists_split whole
      have behind : ∀ place ∈ before.length :: positions, place < before.length + 1 :=
        fun place member => by
          rcases List.mem_cons.mp member with rfl | member
          · exact Nat.lt_succ_self _
          · exact Nat.lt_succ_of_le (below place member)
      have unsplit : measured.splitAt (before ++ whole :: after) before.length =
          before ++ first :: (others ++ after) := by
        simp [splitAt, parts]
      rw [unsplit, partsAt_append, partsAt_append, partsAt_cons, partsAt_cons,
        partsAt_cons_of_le (Nat.zero_add _).le, Nat.zero_add, List.count_cons_self,
        splitTimes_succ parts, partsAt_of_lt behind,
        partsAt_of_lt fun place member => behind place (List.mem_cons_of_mem _ member),
        List.append_assoc]
    · have same : measured.splitAt entries position = entries := by
        simp [splitAt, outside, List.take_of_length_le, List.drop_eq_nil_of_le,
          Nat.le_succ_of_le outside]
      rw [same, partsAt_cons_of_le (by omega)]

/-- Splitting at positions in falling order splits each entry as often as its position occurs. -/
lemma splitAtAll_eq_partsAt (measured : Measured) (entries : List Entry) (positions : List Nat) :
    measured.splitAtAll entries positions = measured.partsAt positions 0 entries := by
  have falling : (sortBy (fun a b : Nat => b ≤ a) positions).Pairwise fun a b => b ≤ a := by
    simpa using @pairwise_sortBy _ (fun a b : Nat => decide (b ≤ a))
      (fun a b => by simp [Nat.le_total]) (fun a b c => by simp; omega) positions
  rw [splitAtAll, foldl_splitAt falling]
  simp only [partsAt, (sortBy_perm _ positions).count_eq]

/-- The entries that are left when each gives up its end as often as it overlaps the measurement on
one of some resources. -/
def splitAll (measured : Measured) (resources : List Resource) (entries : List Entry) :
    List Entry :=
  entries.flatMap fun entry =>
    measured.splitTimes (resources.countP (measured.concerns · entry)) entry

/-- An entry on a single resource gives up its end as often as this is among the resources. -/
lemma countP_concerns (alone : entry.resources = [resource])
    (concerned : measured.concerns resource entry) (resources : List Resource) :
    resources.countP (measured.concerns · entry) = resources.count resource := by
  refine List.countP_congr fun other _ => ?_
  constructor
  · intro overlaps
    simp only [concerns, Entry.uses, alone, Bool.and_eq_true] at overlaps
    simpa using overlaps.1.2
  · intro same
    rwa [eq_of_beq same]

/-- Splitting at the positions that are found splits all entries.

**Proof sketch.** Both go through the entries from left to right. The position of an entry is listed
as often as there are resources on which the entry is concerned. -/
lemma splitAtAll_eq_splitAll (measured : Measured) (resources : List Resource)
    (entries : List Entry) : measured.splitAtAll entries
      (resources.flatMap fun resource => measured.concernedAt resource 0 entries) =
        measured.splitAll resources entries := by
  have often {index : Nat} {entry : Entry} (found : entries[index]? = some entry) :
      (resources.flatMap fun resource => measured.concernedAt resource 0 entries).count index =
        resources.countP (measured.concerns · entry) := by
    induction resources with
    | nil => rfl
    | cons resource resources ih =>
      rw [List.flatMap_cons, List.count_append, ih, count_concernedAt found, List.countP_cons,
        Nat.add_comm]
  rw [splitAtAll_eq_partsAt, partsAt, splitAll]
  conv_rhs => rw [← List.zipIdx_map_fst 0 entries, List.flatMap_map]
  refine List.flatMap_congr fun place here => ?_
  rw [often (List.mem_zipIdx_iff_getElem?.mp here)]

/-- Where no entry overlaps the measurement, nothing is split. -/
lemma splitAll_of_apart (apart : ∀ resource ∈ resources, ∀ entry ∈ entries,
    ¬measured.concerns resource entry) : measured.splitAll resources entries = entries := by
  have whole : ∀ entry ∈ entries,
      measured.splitTimes (resources.countP (measured.concerns · entry)) entry = [entry] := by
    intro entry member
    rw [List.countP_eq_zero.mpr fun resource missing => apart resource missing entry member]
    rfl
  rw [splitAll, List.flatMap_congr whole, List.flatMap_singleton']

/-- If nothing is missing, nothing is split. -/
@[simp]
lemma splitAll_nil (measured : Measured) (entries : List Entry) :
    measured.splitAll [] entries = entries :=
  splitAll_of_apart (by simp)

/-- An entry that is left is an entry that does not overlap the measurement, or a part of one that
does.

**Proof sketch.** Look at the parts of each entry. If it overlaps the measurement on none of the
resources it is split zero times, which leaves it as it is; otherwise it is split at least once, and
then its parts are those of a single split, only that some occur more often. -/
lemma mem_splitAll : entry ∈ measured.splitAll resources entries ↔
    (entry ∈ entries ∧ ∀ resource ∈ resources, ¬measured.concerns resource entry) ∨
      ∃ whole ∈ entries, (∃ resource ∈ resources, measured.concerns resource whole) ∧
        entry ∈ measured.split whole := by
  have parts (whole : Entry) :
      entry ∈ measured.splitTimes (resources.countP (measured.concerns · whole)) whole ↔
        (∀ resource ∈ resources, ¬measured.concerns resource whole) ∧ whole = entry ∨
          (∃ resource ∈ resources, measured.concerns resource whole) ∧
            entry ∈ measured.split whole := by
    by_cases apart : ∀ resource ∈ resources, ¬measured.concerns resource whole
    · rw [List.countP_eq_zero.mpr apart, splitTimes, List.mem_singleton, eq_comm]
      exact ⟨fun same => .inl ⟨apart, same⟩, fun parts => parts.elim And.right
        fun ⟨⟨resource, missing, concerned⟩, _⟩ => absurd concerned (apart resource missing)⟩
    · have some : ∃ resource ∈ resources, measured.concerns resource whole := by
        simpa using apart
      simp only [mem_splitTimes (mt List.countP_eq_zero.mp apart), apart, some, false_and, true_and,
        false_or]
  simp only [splitAll, List.mem_flatMap, parts, and_or_left, exists_or]
  refine or_congr_left ⟨?_, fun ⟨member, apart⟩ => ⟨entry, member, apart, rfl⟩⟩
  rintro ⟨whole, member, apart, rfl⟩
  exact ⟨member, apart⟩

/-! ## Completing a measurement -/

/-- The resources by which a measurement is completed: those of the first group that holds all of
its resources; none if it is a group already. -/
def missing (measured : Measured) (groups : List (List Resource)) : List Resource :=
  if groups.contains measured.resources then []
  else
    match groups.find? fun group => measured.resources.all group.contains with
    | none => []
    | some group => group.filter fun resource => !measured.resources.contains resource

/-- Some entry keeps a resource during a part of the measurement. -/
def Overlapped (measured : Measured) (entries : List Entry) (resource : Resource) : Prop :=
  ∃ entry ∈ entries, measured.concerns resource entry

instance (measured : Measured) (entries : List Entry) (resource : Resource) :
    Decidable (measured.Overlapped entries resource) :=
  inferInstanceAs (Decidable (∃ entry ∈ entries, measured.concerns resource entry))

/-- A measurement is completed by some resources: all entries that overlap it on one of them are
idle up to its end and no less, and exactly these are split. -/
structure Completes (measured : Measured) (resources : List Resource)
    (entries completed : List Entry) : Prop where
  idle : ∀ resource ∈ resources, ∀ entry ∈ entries, measured.concerns resource entry →
    entry.operation.isDelay ∧ entry.stop = measured.stop ∧ entry.start ≤ measured.start
  mem_iff : ∀ entry, entry ∈ completed ↔
    (entry ∈ entries ∧ ∀ resource ∈ resources, ¬measured.concerns resource entry) ∨
      ∃ whole ∈ entries, (∃ resource ∈ resources, measured.concerns resource whole) ∧
        entry ∈ measured.split whole

/-- An entry can give up its end if it is idle up to the end of the measurement, and no less.

**Proof sketch.** The two checks of the definition: the entry is a delay, and it fits the end of the
measurement. -/
lemma obstructed_eq_none_iff : measured.obstructed resource entry = none ↔
    entry.operation.isDelay ∧ entry.stop = measured.stop ∧ entry.start ≤ measured.start := by
  unfold obstructed
  split
  · rename_i busy
    simp only [reduceCtorEq, false_iff, not_and]
    exact fun delay => absurd delay (by simpa using busy)
  · rename_i delay
    have delay : entry.operation.isDelay = true := by simpa using delay
    split
    · rename_i misfit
      simp only [reduceCtorEq, false_iff, not_and, not_le, delay, true_implies]
      exact misfit.resolve_left ∘ not_not_intro
    · rename_i fits
      simp only [not_or, not_not, not_lt] at fits
      simp only [delay, fits, and_self]

/-- Some group holds all resources of a measurement. -/
def Covered (measured : Measured) (groups : List (List Resource)) : Prop :=
  ∃ group ∈ groups, ∀ resource ∈ measured.resources, resource ∈ group

/-- A group that holds a measurement is found, and the resources that it lacks are missing.

**Proof sketch.** If the measurement is a group, that group has nothing besides. Otherwise
some group holds the measurement, so a first one is found, and its other resources are the
missing ones. -/
lemma Covered.exists_group (covered : measured.Covered groups) :
    ∃ group ∈ groups, ∀ resource,
      resource ∈ group ↔ resource ∈ measured.resources ∨ resource ∈ measured.missing groups := by
  unfold missing
  split
  · rename_i whole
    exact ⟨measured.resources, by simpa using whole, fun resource => by simp⟩
  · obtain ⟨group, given, holds⟩ := covered
    split
    · rename_i none
      refine absurd ?_ (List.find?_eq_none.mp none group given)
      simpa using holds
    · rename_i group covering
      have holds : ∀ resource ∈ measured.resources, resource ∈ group := by
        simpa using List.find?_some covering
      refine ⟨group, List.mem_of_find?_eq_some covering, fun resource => ?_⟩
      by_cases known : resource ∈ measured.resources
      · simp [known, holds resource known]
      · simp [known]

/-- **Completing one measurement.** A measurement can be completed if some group holds it and
nothing stands in the way of the missing resources; then the entries that overlap it on one of them
are split.

**Proof sketch.** A measurement that is a group is completed without a change, and nothing is
missing then. Otherwise a first group that holds it is looked up, which fails if there is none. The
search for entries that overlap the measurement on a missing resource succeeds exactly if nothing
stands in the way (`idleAtAll_eq_ok_iff`), and splitting at the positions that were found is
splitting all of them (`splitAtAll_eq_splitAll`). -/
theorem complete_eq_ok_iff : measured.complete groups entries = .ok completed ↔
    measured.Covered groups ∧ measured.Unobstructed (measured.missing groups) entries ∧
      completed = measured.splitAll (measured.missing groups) entries := by
  unfold complete missing
  split
  · rename_i whole
    have covered : measured.Covered groups :=
      ⟨measured.resources, by simpa using whole, fun _ => id⟩
    rw [splitAll_nil, Except.ok.injEq, eq_comm]
    exact ⟨fun same => ⟨covered, nofun, same⟩, fun ⟨_, _, same⟩ => same⟩
  · cases covering : groups.find? fun group => measured.resources.all group.contains with
    | none =>
      have uncovered : ¬measured.Covered groups := by
        rintro ⟨group, given, holds⟩
        exact List.find?_eq_none.mp covering group given (by simpa using holds)
      simp only [uncovered, false_and, reduceCtorEq]
    | some group =>
      have covered : measured.Covered groups :=
        ⟨group, List.mem_of_find?_eq_some covering, by simpa using List.find?_some covering⟩
      simp only [covered, true_and]
      split
      · rename_i obstacle found
        simp only [reduceCtorEq, false_iff, not_and]
        intro free
        exact absurd (found.symm.trans (idleAtAll_eq_ok_iff.mpr ⟨rfl, free⟩)) nofun
      · rename_i positions found
        obtain ⟨rfl, free⟩ := idleAtAll_eq_ok_iff.mp found
        rw [splitAtAll_eq_splitAll, Except.ok.injEq, eq_comm]
        exact ⟨fun same => ⟨free, same⟩, And.right⟩

/-- A measurement is completed to the first group that holds it.

**Proof sketch.** Read off `complete_eq_ok_iff`: nothing stands in the way, and what is left are the
parts of `mem_splitAll`. -/
theorem completes_of_complete (ok : measured.complete groups entries = .ok completed) :
    measured.Completes (measured.missing groups) entries completed := by
  obtain ⟨-, free, rfl⟩ := complete_eq_ok_iff.mp ok
  exact ⟨fun resource missing entry member concerned =>
    obstructed_eq_none_iff.mp (free resource missing entry member concerned), fun _ => mem_splitAll⟩

end Measured

end Timetable
