import Mathlib.Data.List.Nodup
import Timetable.Duration.Table

/-!
# Merging duration tables

Of two tables that are merged, the second overrides the first, exact entries and defaults each on
their own, although a lookup prefers any exact entry to any default. Only the quanta can be in
conflict. Tables are finite maps, so nothing depends on the order in which their entries are listed
or written, and merging is associative.

## Main definitions

* `DurationTable.Rearranged` — the same table with its entries in another order.
* `DurationTable.Conflicts` — two tables with different quanta.
* `DurationTable.overriddenBy` — the content of a merge.

## Main results

* `Dictionary.perm_iff` — dictionaries with the same values have the same entries.
* `DurationTable.lookup_overriddenBy` — where a merged table finds a duration.
* `DurationTable.overriddenBy_assoc`, `DurationTable.conflicts_assoc` — merging is associative.
* `DurationTable.absorb_merges` — what merging does.
-/

set_option autoImplicit false

namespace Timetable

/-! ## Dictionaries up to order -/

namespace Dictionary

variable {κ α : Type} [DecidableEq κ] {d d' other other' : Dictionary κ α}

/-- The value at a key is the one it is entered with.

**Proof sketch.** Looking up finds the first entry with the key, and as keys are distinct there is
no other one. -/
lemma lookup_eq_some_iff {key : κ} {value : α} :
    d.lookup key = some value ↔ (key, value) ∈ d.entries := by
  unfold lookup
  rw [Option.map_eq_some_iff]
  constructor
  · rintro ⟨⟨found, value⟩, first, rfl⟩
    obtain rfl : found = key := by simpa using List.find?_some first
    exact List.mem_of_find?_eq_some first
  · intro member
    obtain ⟨entry, first⟩ := Option.isSome_iff_exists.mp
      (List.find?_isSome.mpr ⟨_, member, decide_eq_true rfl⟩ :
        (d.entries.find? fun entry => entry.1 = key).isSome)
    refine ⟨entry, first, ?_⟩
    have same : entry = (key, value) := List.inj_on_of_nodup_map d.distinct
      (List.mem_of_find?_eq_some first) member (by simpa using List.find?_some first)
    rw [same]

/-- Dictionaries have the same entries, in whatever order, exactly if they have the same values.

**Proof sketch.** The keys of a dictionary are distinct, so neither list has duplicates, and they
are permutations of each other if they have the same members. An entry is a member exactly if its
key is looked up to its value. -/
theorem perm_iff : d.entries.Perm other.entries ↔ ∀ key, d.lookup key = other.lookup key := by
  rw [List.perm_ext_iff_of_nodup (.of_map _ d.distinct) (.of_map _ other.distinct)]
  simp only [Prod.forall, ← lookup_eq_some_iff]
  exact forall_congr' fun key => ⟨Option.ext, fun same value => by rw [same]⟩

/-- The order of their entries does not matter when dictionaries are merged. -/
lemma perm_overriddenBy (perm : d.entries.Perm d'.entries)
    (perm' : other.entries.Perm other'.entries) :
    (d.overriddenBy other).entries.Perm (d'.overriddenBy other').entries := by
  refine perm_iff.mpr fun key => ?_
  rw [lookup_overriddenBy, lookup_overriddenBy, perm_iff.mp perm key, perm_iff.mp perm' key]

/-- Merging dictionaries is associative. -/
lemma overriddenBy_assoc (d other third : Dictionary κ α) :
    ((d.overriddenBy other).overriddenBy third).entries.Perm
      (d.overriddenBy (other.overriddenBy third)).entries := by
  refine perm_iff.mpr fun key => ?_
  simp only [lookup_overriddenBy, Option.or_assoc]

end Dictionary

/-! ## Merging tables -/

namespace DurationTable

/-- Two tables hold the same, but may list it in different orders. -/
structure Rearranged (table other : DurationTable) : Prop where
  exact : table.exact.entries.Perm other.exact.entries
  defaults : table.defaults.entries.Perm other.defaults.entries
  quantum : table.quantum = other.quantum

/-- Two tables know the length of a tick, and disagree on it. -/
def Conflicts (table other : DurationTable) : Prop :=
  ∃ existing incoming, table.quantum = some existing ∧ other.quantum = some incoming ∧
    existing ≠ incoming

/-- What a table holds once it is overridden by another one. -/
def overriddenBy (table other : DurationTable) : DurationTable where
  exact := table.exact.overriddenBy other.exact
  defaults := table.defaults.overriddenBy other.defaults
  quantum := other.quantum.or table.quantum

variable {table table' other other' third : DurationTable}

/-- Tables in conflict are left alone. -/
lemma absorb_of_conflict {existing incoming : Quantum} (known : table.quantum = some existing)
    (known' : other.quantum = some incoming) (differ : existing ≠ incoming) :
    table.absorb other = (.error (.conflictingUnit existing.seconds incoming.seconds), table) := by
  simp only [absorb, update, known, known', if_neg differ]

/-- Two tables that are not in conflict are merged. -/
lemma update_of_not_conflicts (agree : ¬ table.Conflicts other) :
    table.update other = .ok (table.overriddenBy other) := by
  unfold update
  dsimp only
  split
  · rename_i existing incoming known known'
    have same : existing = incoming := not_not.mp fun differ =>
      agree ⟨existing, incoming, known, known', differ⟩
    rw [if_pos same]
    rfl
  · rfl

/-- Tables that are not in conflict are merged in place. -/
lemma absorb_of_not_conflicts (agree : ¬ table.Conflicts other) :
    table.absorb other = (.ok (), table.overriddenBy other) := by
  simp only [absorb, update_of_not_conflicts agree]

/-- Merging succeeds with the content of the merge, unless the tables are in conflict. -/
lemma update_eq_ok_iff {merged : DurationTable} : table.update other = .ok merged ↔
    ¬ table.Conflicts other ∧ table.overriddenBy other = merged := by
  constructor
  · intro ok
    have agree : ¬ table.Conflicts other := by
      rintro ⟨existing, incoming, known, known', differ⟩
      simp only [update, known, known', if_neg differ, reduceCtorEq] at ok
    rw [update_of_not_conflicts agree, Except.ok.injEq] at ok
    exact ⟨agree, ok⟩
  · rintro ⟨agree, rfl⟩
    exact update_of_not_conflicts agree

/-- A merged table looks for a duration among the exact entries of both tables before it looks at
their defaults, and each time asks the overriding table first.

**Proof sketch.** Each of the two dictionaries of the merged table asks the overriding one first.
Brought into one chain of alternatives, the two lookups are the four of the statement. -/
theorem lookup_overriddenBy (name : String) (resources : List Resource) :
    (table.overriddenBy other).lookup name resources =
      if name = "barrier" ∨ name = "timestep" then .ok 0
      else
        match (other.exact.lookup (name, resources)).or <|
          (table.exact.lookup (name, resources)).or <|
            (other.defaults.lookup name).or (table.defaults.lookup name) with
        | some ticks => .ok ticks
        | none => .error (.missingDuration name resources) := by
  have found : ((table.overriddenBy other).exact.lookup (name, resources)).or
      ((table.overriddenBy other).defaults.lookup name) =
        (other.exact.lookup (name, resources)).or ((table.exact.lookup (name, resources)).or
          ((other.defaults.lookup name).or (table.defaults.lookup name))) := by
    simp only [overriddenBy, Dictionary.lookup_overriddenBy, Option.or_assoc]
  rw [lookup, found]
  exact if_congr (by simp [isInstant]) rfl rfl

/-! ## The order of entries -/

namespace Rearranged

/-- The order of the entries of a table makes no difference to a lookup. -/
lemma lookup_eq (same : table.Rearranged other) : table.lookup = other.lookup := by
  funext name resources
  unfold lookup
  rw [Dictionary.perm_iff.mp same.exact, Dictionary.perm_iff.mp same.defaults]

/-- Nor does it make a difference to a conflict. -/
lemma conflicts_iff (same : table'.Rearranged table) (same' : other'.Rearranged other) :
    table'.Conflicts other' ↔ table.Conflicts other := by
  unfold Conflicts
  rw [same.quantum, same'.quantum]

/-- Nor to what a merged table holds. -/
lemma overriddenBy (same : table'.Rearranged table) (same' : other'.Rearranged other) :
    (table'.overriddenBy other').Rearranged (table.overriddenBy other) :=
  ⟨Dictionary.perm_overriddenBy same.exact same'.exact,
    Dictionary.perm_overriddenBy same.defaults same'.defaults,
    congrArg₂ Option.or same'.quantum same.quantum⟩

/-- Merging has the same result whatever the order of the entries. -/
lemma absorb (same : table'.Rearranged table) (same' : other'.Rearranged other) :
    (table'.absorb other').1 = (table.absorb other).1 ∧
      (table'.absorb other').2.Rearranged (table.absorb other).2 := by
  by_cases conflict : table.Conflicts other
  · obtain ⟨existing, incoming, known, known', differ⟩ := conflict
    rw [absorb_of_conflict known known' differ, absorb_of_conflict (same.quantum.trans known)
      (same'.quantum.trans known') differ]
    exact ⟨rfl, same⟩
  · rw [absorb_of_not_conflicts conflict,
      absorb_of_not_conflicts (mt (same.conflicts_iff same').mp conflict)]
    exact ⟨rfl, same.overriddenBy same'⟩

end Rearranged

/-! ## Several merges -/

/-- Merging the contents of tables is associative.

**Proof sketch.** Both sides prefer the third table to the second one, and this to the first, in
each of their parts; for dictionaries this is `Dictionary.overriddenBy_assoc`. -/
theorem overriddenBy_assoc : ((table.overriddenBy other).overriddenBy third).Rearranged
    (table.overriddenBy (other.overriddenBy third)) :=
  ⟨Dictionary.overriddenBy_assoc _ _ _, Dictionary.overriddenBy_assoc _ _ _,
    (Option.or_assoc ..).symm⟩

/-- Three tables can be merged from the left exactly if they can be merged from the right.

**Proof sketch.** If the table in the middle has no quantum, the two others are compared with each
other on either side. If it has one, then both of them are compared with it. -/
theorem conflicts_assoc : ¬ table.Conflicts other ∧ ¬ (table.overriddenBy other).Conflicts third ↔
    ¬ other.Conflicts third ∧ ¬ table.Conflicts (other.overriddenBy third) := by
  unfold Conflicts overriddenBy
  cases other.quantum with
  -- Without a quantum in the middle, the two others are compared with each other.
  | none => simp
  -- A quantum in the middle is compared with both of them, in either case.
  | some quantum => cases third.quantum <;> grind

/-- **Merging tables.** If both tables know the length of a tick and disagree on it, the merge fails
and leaves the table alone. Otherwise it succeeds. A merged table has the overriding quantum, if
there is one. Barriers and timesteps take no time in it; for anything else it finds the overriding
exact entry, the overridden one, the overriding default or the overridden one, whichever is there
first. None of this depends on the order in which the entries of the tables are listed. Three tables
can be merged from the left exactly if they can be merged from the right, and what comes of it has
the same quantum and finds the same durations.

**Proof sketch.** A merge fails exactly if the quanta conflict, and otherwise gives the table
overridden by the other one (`update_eq_ok_iff`), in which durations are found as
`lookup_overriddenBy` says. Rearranging the entries of the tables rearranges those of the result
(`Rearranged.absorb`), and lookups do not depend on the order of the entries. For three tables,
`conflicts_assoc` says when both merges succeed and `overriddenBy_assoc` that they agree. -/
theorem absorb_merges (table other third : DurationTable) :
    (∀ existing incoming, table.quantum = some existing → other.quantum = some incoming →
      existing ≠ incoming →
      table.absorb other = (.error (.conflictingUnit existing.seconds incoming.seconds), table)) ∧
    (¬ table.Conflicts other → ∃ merged, table.update other = .ok merged ∧
      table.absorb other = (.ok (), merged) ∧ merged.quantum = other.quantum.or table.quantum ∧
      ∀ name resources, merged.lookup name resources =
        if name = "barrier" ∨ name = "timestep" then .ok 0
        else
          match (other.exact.lookup (name, resources)).or <|
            (table.exact.lookup (name, resources)).or <|
              (other.defaults.lookup name).or (table.defaults.lookup name) with
          | some ticks => .ok ticks
          | none => .error (.missingDuration name resources)) ∧
    (∀ table' other' : DurationTable, table'.Rearranged table → other'.Rearranged other →
      (table'.absorb other').1 = (table.absorb other).1 ∧
        (table'.absorb other').2.quantum = (table.absorb other).2.quantum ∧
        (table'.absorb other').2.lookup = (table.absorb other).2.lookup) ∧
    ((∃ merged last, table.update other = .ok merged ∧ merged.update third = .ok last) ↔
      ∃ merged last, other.update third = .ok merged ∧ table.update merged = .ok last) ∧
    ∀ merged last merged' last', table.update other = .ok merged → merged.update third = .ok last →
      other.update third = .ok merged' → table.update merged' = .ok last' →
      last.quantum = last'.quantum ∧ last.lookup = last'.lookup := by
  refine ⟨fun _ _ => absorb_of_conflict, fun agree => ?_, fun _ _ same same' => ?_, ?_, ?_⟩
  · exact ⟨_, update_of_not_conflicts agree, absorb_of_not_conflicts agree, rfl,
      lookup_overriddenBy⟩
  · obtain ⟨result, alike⟩ := same.absorb same'
    exact ⟨result, alike.quantum, alike.lookup_eq⟩
  · simpa [update_eq_ok_iff, and_assoc] using conflicts_assoc
  · intro merged last merged' last' first second first' second'
    obtain ⟨-, rfl⟩ := update_eq_ok_iff.mp first
    obtain ⟨-, rfl⟩ := update_eq_ok_iff.mp second
    obtain ⟨-, rfl⟩ := update_eq_ok_iff.mp first'
    obtain ⟨-, rfl⟩ := update_eq_ok_iff.mp second'
    exact ⟨overriddenBy_assoc.quantum, overriddenBy_assoc.lookup_eq⟩

/-- Durations as a device reports them, in the shortest possible ticks. -/
def reported : DurationTable :=
  { (ofList [("cx", [0, 1], 1000)]).registerDefault "measure" 4000 with
    quantum := some ⟨1, by decide, by decide⟩ }

/-- A correction of these durations. -/
def corrected : DurationTable :=
  (ofList [("measure", [3], 3000)]).registerDefault "cx" 900

/-- The new default of one gate leaves its exact entry alone, and the new exact entry of the other
leaves its default alone. Longer ticks are refused. -/
theorem absorb_merges_corrected :
    (∃ merged, reported.absorb corrected = (.ok (), merged) ∧ merged.quantum = reported.quantum ∧
      merged.lookup "cx" [0, 1] = .ok 1000 ∧ merged.lookup "cx" [1, 0] = .ok 900 ∧
      merged.lookup "measure" [3] = .ok 3000 ∧ merged.lookup "measure" [4] = .ok 4000) ∧
    (reported.absorb { quantum := some ⟨2, by decide, by decide⟩ }).2 = reported := by
  constructor
  · obtain ⟨-, merges, -⟩ := absorb_merges reported corrected {}
    have agree : ¬ reported.Conflicts corrected := by
      rintro ⟨existing, incoming, -, unknown, -⟩
      cases unknown
    obtain ⟨merged, -, ok, quantum, finds⟩ := merges agree
    exact ⟨merged, ok, quantum, finds _ _, finds _ _, finds _ _, finds _ _⟩
  · obtain ⟨refuses, -⟩ := absorb_merges reported { quantum := some ⟨2, by decide, by decide⟩ } {}
    exact congrArg Prod.snd (refuses _ _ rfl rfl (by decide))

end DurationTable

end Timetable
