/-!
# Dictionaries

A dictionary is a finite list of keys with a value each, in which no key occurs twice.

## Main definitions

* `Dictionary.insert`, `Dictionary.lookup`, `Dictionary.overriddenBy` — writing, reading and
  merging.

## Main results

* `Dictionary.lookup_insert` — an insertion changes the value at its own key only.
* `Dictionary.lookup_overriddenBy` — in a merge the overriding dictionary is asked first.
-/

set_option autoImplicit false

namespace Timetable

/-- A list of keys with their values in which every key occurs once. -/
structure Dictionary (κ α : Type) where
  /-- The keys with their values. -/
  entries : List (κ × α)
  /-- No key occurs twice. -/
  distinct : (entries.map Prod.fst).Nodup

namespace Dictionary

variable {κ α : Type}

/-- The dictionary without keys. -/
def empty : Dictionary κ α := ⟨[], List.nodup_nil⟩

instance : EmptyCollection (Dictionary κ α) := ⟨empty⟩

instance : Inhabited (Dictionary κ α) := ⟨empty⟩

/-- The number of keys. -/
def size (d : Dictionary κ α) : Nat := d.entries.length

/-- Whether there are no keys. -/
def isEmpty (d : Dictionary κ α) : Bool := d.entries.isEmpty

variable [DecidableEq κ]

/-- The value at a key. -/
def lookup (d : Dictionary κ α) (key : κ) : Option α :=
  (d.entries.find? fun entry => entry.1 = key).map Prod.snd

/-- The dictionary with a new value at a key; the old one, if any, is forgotten. -/
def insert (d : Dictionary κ α) (key : κ) (value : α) : Dictionary κ α where
  entries := (key, value) :: d.entries.filter fun entry => entry.1 ≠ key
  distinct := by
    have sublist : ((d.entries.filter fun entry => entry.1 ≠ key).map Prod.fst).Sublist
        (d.entries.map Prod.fst) := List.Sublist.map _ List.filter_sublist
    simp only [List.map_cons, List.nodup_cons]
    exact ⟨by simp, d.distinct.sublist sublist⟩

/-- The entries of one dictionary over those of another: where both have a key, the value of
`other` is kept. -/
def overriddenBy (d other : Dictionary κ α) : Dictionary κ α :=
  other.entries.foldr (fun entry merged => merged.insert entry.1 entry.2) d

/-- An empty dictionary says nothing about any key. -/
@[simp]
theorem lookup_empty (key : κ) : (empty : Dictionary κ α).lookup key = none := rfl

/-- An insertion changes the value at its own key only. -/
@[simp]
theorem lookup_insert (d : Dictionary κ α) (key other : κ) (value : α) :
    (d.insert key value).lookup other = if key = other then some value else d.lookup other := by
  by_cases same : key = other
  · simp [lookup, insert, same]
  · simp only [lookup, insert, if_neg same]
    rw [List.find?_cons_of_neg (by simpa using same), List.find?_filter]
    congr 2
    funext entry
    by_cases hit : entry.1 = other
    · simp [hit, Ne.symm same]
    · simp [hit]

/-- In a merge the overriding dictionary is asked first. -/
theorem lookup_overriddenBy (d other : Dictionary κ α) (key : κ) :
    (d.overriddenBy other).lookup key = (other.lookup key).or (d.lookup key) := by
  simp only [overriddenBy, lookup.eq_def other]
  induction other.entries with
  | nil => rfl
  | cons entry entries ih =>
    by_cases found : entry.1 = key
    · simp [found]
    · simp [found, ih]

end Dictionary

end Timetable
