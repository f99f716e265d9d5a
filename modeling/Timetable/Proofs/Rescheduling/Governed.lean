import Timetable.Proofs.LockStep.Structure
import Timetable.Proofs.Rescheduling.Step

/-!
# What the entries of a group say about its length

When the entries of a group are operations of their own, the ones that lead the group are ready when
its step is made again, and nothing else is: what waited for a predecessor on other resources is
told apart from the rest by nothing. The step is as long as the group if the rule takes the length
of the group from those that lead.

## Main definitions

* `Group.Governed` — if operations that are no delays lead a group, one of them is as long as it.
* `Group.GovernedBy` — by a rule, the entries that lead a group make a step as long as it.
* `Group.DecidedBy` — of the entries that lead a group, one decides how long the step is.

## Main results

* `Group.DecidedBy.duration_eq_iff` — a group is governed if the one that decides is as long as it.
* `Group.Steady.governedBy` — a steady group is governed by both rules.
* `Group.governedBy_longest_iff` — the groups that are governed if the longest delay decides.
-/

set_option autoImplicit false

namespace Timetable

/-- If some entries that lead a group are no delays, one of these is as long as the group. -/
def Group.Governed (group : Group) : Prop :=
  (∃ entry, group.LedBy entry ∧ entry.operation.isDelay = false) →
    ∃ entry, group.LedBy entry ∧ entry.operation.isDelay = false ∧ entry.duration = group.length

/-- By a rule, the entries that lead a group are what makes a step as long as the group: the longest
that is no delay, or, if all of them are delays, the shortest or the longest, whichever the rule
says. -/
structure Group.GovernedBy (rule : DelayRule) (group : Group) : Prop where
  governed : group.Governed
  delays : (∀ entry, group.LedBy entry → entry.operation.isDelay = true) →
    match rule with
    | .shortest => ∀ entry, group.LedBy entry → entry.duration = group.length
    | .longest => ∃ entry, group.LedBy entry ∧ entry.duration = group.length

/-- Of the entries that lead a group, one decides by a rule how long the step is that is made of
them. -/
structure Group.DecidedBy (rule : DelayRule) (group : Group) (entry : Entry) : Prop where
  leads : group.LedBy entry
  operation : ∀ other, group.LedBy other → other.operation.isDelay = false →
    entry.operation.isDelay = false ∧ other.duration ≤ entry.duration
  delay : entry.operation.isDelay = true → ∀ other, group.LedBy other →
    match rule with
    | .shortest => entry.duration ≤ other.duration
    | .longest => other.duration ≤ entry.duration

namespace Group

variable {numResources : Nat} {first middle : Tick} {group : Group} {entry : Entry}

/-- The first entry of a group leads it. -/
lemma exists_ledBy (some_entry : group.entries ≠ []) : ∃ entry, group.LedBy entry := by
  obtain ⟨entry, back, entries⟩ := List.exists_cons_of_ne_nil some_entry
  exact ⟨entry, [], back, entries, by simp⟩

/-- An entry that leads a group belongs to it. -/
lemma LedBy.mem (leads : group.LedBy entry) : entry ∈ group.entries := by
  obtain ⟨front, back, entries, -⟩ := leads
  rw [entries]
  exact List.mem_append_right _ List.mem_cons_self

/-- An entry that leads a group starts with it. -/
lemma Spans.start_eq (spans : group.Spans numResources first middle)
    (leads : group.LedBy entry) : entry.start = first := by
  have member := leads.mem
  obtain ⟨front, back, entries, apart⟩ := leads
  obtain ⟨resource, used⟩ := List.exists_mem_of_ne_nil _ (spans.plain entry member).2
  have tiles := spans.tiles
  rw [entries] at tiles
  exact ((tiles.pull apart).1 resource used).2.symm

/-- An entry that leads a group is not longer than the group. -/
lemma Spans.duration_le (spans : group.Spans numResources first middle)
    (leads : group.LedBy entry) : entry.duration ≤ group.length := by
  obtain ⟨resource, used⟩ := List.exists_mem_of_ne_nil _ (spans.plain entry leads.mem).2
  have start := spans.start_eq leads
  have stop := spans.tiles.stop_le leads.mem used
  have ends := spans.length_eq
  rw [Entry.stop] at stop
  lia

/-- A group is governed exactly if the entry that decides is as long as the group.

**Proof sketch.** If the entry that decides is no delay, it is the longest of those that are not, so
a longest one of full length exists exactly if it is one. If it is a delay, all entries that lead
are delays, and it is the shortest or the longest of them as the rule says. -/
theorem DecidedBy.duration_eq_iff {rule : DelayRule} (decided : group.DecidedBy rule entry)
    (spans : group.Spans numResources first middle) :
    entry.duration = group.length ↔ group.GovernedBy rule := by
  obtain ⟨leads, operation, delay⟩ := decided
  cases kind : entry.operation.isDelay with
  | false =>
    -- the entry is the longest of those that are no delays, so it is the one that has to be as long
    constructor
    · refine fun as_long => ⟨fun _ => ⟨entry, leads, kind, as_long⟩, fun delays => ?_⟩
      rw [delays entry leads] at kind
      cases kind
    · intro by_rule
      obtain ⟨longest, leads', no_delay, as_long⟩ := by_rule.governed ⟨entry, leads, kind⟩
      exact le_antisymm (spans.duration_le leads) (as_long ▸ (operation longest leads' no_delay).2)
  | true =>
    -- only delays lead the group, and the entry is the one among them that the rule picks
    have delay := delay kind
    have delays : ∀ other, group.LedBy other → other.operation.isDelay = true := by
      intro other leads'
      by_contra no_delay
      have kind' := (operation other leads' (Bool.eq_false_iff.mpr no_delay)).1
      exact absurd (kind.symm.trans kind') Bool.noConfusion
    have governed : group.Governed := by
      rintro ⟨other, leads', no_delay⟩
      rw [delays other leads'] at no_delay
      cases no_delay
    constructor
    · refine fun as_long => ⟨governed, fun _ => ?_⟩
      cases rule with
      | shortest =>
        exact fun other leads' =>
          le_antisymm (spans.duration_le leads') (as_long ▸ delay other leads')
      | longest => exact ⟨entry, leads, as_long⟩
    · intro by_rule
      have as_long := by_rule.delays delays
      cases rule with
      | shortest => exact as_long entry leads
      | longest =>
        obtain ⟨longest, leads', as_long⟩ := as_long
        exact le_antisymm (spans.duration_le leads) (as_long ▸ delay longest leads')

/-- A steady group is governed by both rules, if it is not empty.

**Proof sketch.** In the first case a longest entry that is no delay leads the group. In the second
all entries reach from the beginning of the group to its end, so all that lead are as long as the
group. -/
theorem Steady.governedBy (steady : group.Steady) (spans : group.Spans numResources first middle)
    (some_entry : group.entries ≠ []) (rule : DelayRule) : group.GovernedBy rule := by
  rcases steady with ⟨front, longest, back, entries, no_delay, as_long, apart⟩ | all
  · have leads : group.LedBy longest := ⟨front, back, entries, apart⟩
    refine ⟨fun _ => ⟨longest, leads, no_delay, as_long⟩, fun delays => ?_⟩
    rw [delays longest leads] at no_delay
    cases no_delay
  · have as_long : ∀ entry, group.LedBy entry → entry.duration = group.length := by
      intro entry leads
      obtain ⟨source, boundary⟩ := spans.boundary
      have ends := spans.length_eq
      refine all entry leads.mem ?_
      rw [spans.start_eq leads, ends, boundary]
      rfl
    refine ⟨fun ⟨entry, leads, no_delay⟩ => ⟨entry, leads, no_delay, as_long entry leads⟩,
      fun _ => ?_⟩
    cases rule with
    | shortest => exact as_long
    | longest =>
      obtain ⟨entry, leads⟩ := exists_ledBy some_entry
      exact ⟨entry, leads, as_long entry leads⟩

/-- If the longest delay decides, and some entry that leads a group is as long as the group, only an
operation that is no delay can be in the way.

**Proof sketch.** The entry that is given is as long as the group, which is what the rule asks of
delays. -/
theorem governedBy_longest_iff
    (as_long : ∃ entry, group.LedBy entry ∧ entry.duration = group.length) :
    group.GovernedBy .longest ↔ group.Governed :=
  ⟨GovernedBy.governed, fun governed => ⟨governed, fun _ => as_long⟩⟩

end Group

end Timetable
