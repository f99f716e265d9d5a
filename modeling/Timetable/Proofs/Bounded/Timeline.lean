import Timetable.Proofs.Timeline

/-!
# Arithmetic within a limit

A machine can only hold ticks up to some limit. Here an addition beyond the limit has no result, and
neither has a subtraction below zero. The functions on timelines and schedules are repeated with
this arithmetic wherever they compute a tick. If the ticks that they work on are within the limit,
they have the result that they have without one.

## Main definitions

* `Tick.add?`, `Tick.sub?` — arithmetic within a limit.
* `Timeline.gapsWithin`, `Timeline.occupyWithin` — timelines with this arithmetic.
* `latestStopWithin`, `Schedule.sealedForWithin` — ends of schedules with this arithmetic.
* `Schedule.Within` — sealed schedules that end within a limit.

## Main results

* `foldlM_eq_some` — a fold all of whose steps have a result.
* `Timeline.gapsWithin_eq`, `Timeline.occupyWithin_eq`, `latestStopWithin_eq` — when there is a
  result.
-/

set_option autoImplicit false

namespace Timetable

/-- The sum of two ticks, unless it is beyond the limit. -/
def Tick.add? (limit a b : Tick) : Option Tick := if a + b ≤ limit then some (a + b) else none

/-- The difference of two ticks, unless it is below zero. -/
def Tick.sub? (a b : Tick) : Option Tick := if b ≤ a then some (a - b) else none

variable {limit : Tick}

/-- A sum within the limit. -/
lemma Tick.add?_eq {a b : Tick} (fits : a + b ≤ limit) : add? limit a b = some (a + b) :=
  if_pos fits

/-- A difference that is not negative. -/
lemma Tick.sub?_eq {a b : Tick} (le : b ≤ a) : sub? a b = some (a - b) :=
  if_pos le

/-- If every step of a fold has a result as long as some property of the elements to come and of the
state holds, and keeps it, then the fold has a result.

**Proof sketch.** Induction on the list, with the property stated for the elements that are still to
come. -/
theorem foldlM_eq_some {σ α : Type} {f : σ → α → σ} {partly : σ → α → Option σ}
    (holds : List α → σ → Prop)
    (step : ∀ {a : α} {list : List α} {s : σ}, holds (a :: list) s →
      partly s a = some (f s a) ∧ holds list (f s a))
    {list : List α} {s : σ} (first : holds list s) :
    list.foldlM partly s = some (list.foldl f s) ∧ holds [] (list.foldl f s) := by
  induction list generalizing s with
  | nil => exact ⟨rfl, first⟩
  | cons a list ih =>
    obtain ⟨result, next⟩ := step first
    rw [List.foldlM_cons, result, Option.bind_eq_bind, Option.bind_some, List.foldl_cons]
    exact ih next

/-- If a function has a result for each element, there is a list of results. -/
lemma mapM_eq_some {α β : Type} {partly : α → Option β} {f : α → β} {list : List α}
    (all : ∀ a ∈ list, partly a = some (f a)) : list.mapM partly = some (list.map f) := by
  induction list with
  | nil => rfl
  | cons a list ih =>
    rw [List.mapM_cons, all a List.mem_cons_self, ih fun b member =>
      all b (List.mem_cons_of_mem _ member)]
    rfl

/-- If there is a list of results, the function has a result for each element. -/
lemma exists_eq_some_of_mapM {α β : Type} {partly : α → Option β} {list : List α}
    {results : List β} (all : list.mapM partly = some results) :
    ∀ a ∈ list, ∃ b, partly a = some b := by
  induction list generalizing results with
  | nil => exact fun _ member => (List.not_mem_nil member).elim
  | cons a list ih =>
    rw [List.mapM_cons] at all
    obtain ⟨first, result, rest⟩ := Option.bind_eq_some_iff.mp all
    obtain ⟨others, later, -⟩ := Option.bind_eq_some_iff.mp rest
    exact List.forall_mem_cons.mpr ⟨⟨first, result⟩, ih later⟩

/-- Writing a tick within a bound keeps all ticks within it. -/
lemma getD_setIfInBounds_le {ticks : Array Tick} {bound tick : Tick}
    (all : ∀ id : Nat, ticks[id]?.getD 0 ≤ bound) (le : tick ≤ bound) (place id : Nat) :
    (ticks.setIfInBounds place tick)[id]?.getD 0 ≤ bound := by
  rw [Array.getElem?_setIfInBounds]
  split
  · split
    · exact le
    · exact Nat.zero_le _
  · exact all id

/-! ## Timelines -/

namespace Timeline

variable {timeline : Timeline} {resources : List Resource} {tick start duration : Tick}

/-- The idle time that covers resources up to a tick, with arithmetic within a limit. -/
def gapsWithin (limit : Tick) (timeline : Timeline) (resources : List Resource) (tick : Tick) :
    Option (List Entry) :=
  match resources with
  | [] => some []
  | resource :: resources => do
    let free := timeline.free resource
    let others ← (timeline.pad [resource] tick).gapsWithin limit resources tick
    if free < tick then
      let start ← Tick.add? limit timeline.origin free
      let duration ← Tick.sub? tick free
      return .idle resource start duration :: others
    else return others

/-- Covers resources with an operation of the given duration, with arithmetic within a limit. -/
def occupyWithin (limit : Tick) (timeline : Timeline) (resources : List Resource)
    (start duration : Tick) : Option Timeline := do
  let stop ← Tick.add? limit start duration
  return resources.foldl (fun timeline resource => timeline.set resource stop) timeline

/-- Covering resources up to a tick takes none of them further than that. -/
lemma free_pad_le {bound : Tick} (all : ∀ resource, timeline.free resource ≤ bound)
    (le : tick ≤ bound) (resource : Resource) :
    (timeline.pad resources tick).free resource ≤ bound := by
  induction resources generalizing timeline with
  | nil => exact all resource
  | cons first resources ih =>
    rw [pad_cons]
    exact ih (getD_setIfInBounds_le all (Nat.max_le.mpr ⟨all first, le⟩) first)

/-- An operation takes no resource further than it ends. -/
lemma free_occupy_le {bound : Tick} (all : ∀ resource, timeline.free resource ≤ bound)
    (le : start + duration ≤ bound) (resource : Resource) :
    (timeline.occupy resources start duration).free resource ≤ bound := by
  induction resources generalizing timeline with
  | nil => exact all resource
  | cons first resources ih => exact ih (getD_setIfInBounds_le all le first)

/-- Resources can be covered up to a tick within the limit.

**Proof sketch.** Induction on the resources. A resource that lags behind has come to a tick before
the one asked for, so where its idle time starts is within the limit and how long it takes is a
difference above zero. -/
theorem gapsWithin_eq (fits : timeline.origin + tick ≤ limit) :
    timeline.gapsWithin limit resources tick = some (timeline.gaps resources tick) := by
  induction resources generalizing timeline with
  | nil => rfl
  | cons resource resources ih =>
    have others := @ih (timeline.pad [resource] tick) (by rwa [origin_pad])
    unfold gapsWithin gaps
    rw [others]
    by_cases lags : timeline.free resource < tick
    · have start : timeline.origin + timeline.free resource ≤ limit := by lia
      simp [lags, Tick.add?_eq start, Tick.sub?_eq lags.le]
    · simp [lags]

/-- Resources can be occupied up to a tick within the limit.

**Proof sketch.** The only sum is the end of the operation, which is the same for all resources. -/
theorem occupyWithin_eq (fits : start + duration ≤ limit) :
    timeline.occupyWithin limit resources start duration =
      some (timeline.occupy resources start duration) := by
  rw [occupyWithin, Tick.add?_eq fits]
  rfl

end Timeline

/-! ## Ends of schedules -/

/-- The tick at which an entry ends, with arithmetic within a limit. -/
def Entry.stopWithin (limit : Tick) (entry : Entry) : Option Tick :=
  Tick.add? limit entry.start entry.duration

/-- The latest end of some entries, with arithmetic within a limit. -/
def latestStopWithin (limit : Tick) (entries : List Entry) : Option Tick := do
  let stops ← entries.mapM (Entry.stopWithin limit)
  return latest stops

/-- The sealed schedule for a program, with arithmetic within a limit. -/
def Schedule.sealedForWithin (limit : Tick) (program : Program) (entries : List Entry)
    (anomalies : List Anomaly) : Option Schedule := do
  let total ← latestStopWithin limit entries
  return ⟨program.name, program.layout, entries, some total, anomalies⟩

/-- A sealed schedule that ends within a limit. -/
structure Schedule.Within (limit : Tick) (schedule : Schedule) : Prop where
  cached : schedule.cached = some schedule.total
  total_le : schedule.total ≤ limit

/-- The latest end of entries can be computed if it is within the limit.

**Proof sketch.** Each entry ends by the latest end, so each of the ends can be computed. -/
theorem latestStopWithin_eq {entries : List Entry} (fits : latestStop entries ≤ limit) :
    latestStopWithin limit entries = some (latestStop entries) := by
  have stops : entries.mapM (Entry.stopWithin limit) = some (entries.map Entry.stop) :=
    mapM_eq_some fun entry member =>
      Tick.add?_eq (latestStop_le_iff.mp fits entry member)
  rw [latestStopWithin, stops]
  rfl

/-- If the latest end of entries can be computed, it is within the limit. -/
lemma latestStop_le_of_latestStopWithin {entries : List Entry} {total : Tick}
    (computed : latestStopWithin limit entries = some total) : latestStop entries ≤ limit := by
  obtain ⟨stops, all, -⟩ := Option.bind_eq_some_iff.mp computed
  refine latestStop_le_iff.mpr fun entry member => ?_
  obtain ⟨stop, within⟩ := exists_eq_some_of_mapM all entry member
  by_contra beyond
  cases within.symm.trans (if_neg beyond)

/-- A schedule can be sealed if it ends within the limit. -/
lemma Schedule.sealedForWithin_eq {entries : List Entry} (fits : latestStop entries ≤ limit)
    (program : Program) (anomalies : List Anomaly) :
    sealedForWithin limit program entries anomalies =
      some (.sealedFor program entries anomalies) := by
  rw [sealedForWithin, latestStopWithin_eq fits]
  rfl

end Timetable
