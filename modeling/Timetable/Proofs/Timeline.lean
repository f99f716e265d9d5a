import Timetable.Proofs.Tiling

/-!
# Timelines and tilings

A timeline stands for a front: the tick, counted from zero, up to which each resource is covered.
Padding and occupying resources moves that front, and the idle time and the operation written out
on the way tile the time between the two fronts. This is all that the scheduling passes need to
know about their timelines.

## Main definitions

* `Timeline.front` — the front of a timeline.

## Main results

* `Timeline.tiles_gaps` — idle time leads to the front after padding.
* `Timeline.tiles_place` — idle time and an operation behind it lead to the front after placing it.
* `Timeline.mem_gaps` — idle time without a source and of positive length is all that fills gaps.
-/

set_option autoImplicit false

namespace Timetable

namespace Timeline

variable {timeline : Timeline} {resources : List Resource}

/-- Up to which tick, counted from zero, each resource is covered. -/
def front (timeline : Timeline) : Resource → Tick := fun resource =>
  timeline.origin + timeline.free resource

/-! ## Reading a timeline after a change -/

/-- Setting a resource leaves the origin alone. -/
@[simp]
lemma origin_set (timeline : Timeline) (resource : Resource) (tick : Tick) :
    (timeline.set resource tick).origin = timeline.origin := rfl

/-- What does not change when one resource is set does not change when several are set one after the
other, whatever they are set to. -/
lemma apply_foldl_set {α : Type} (read : Timeline → α)
    (kept : ∀ timeline resource tick, read (timeline.set resource tick) = read timeline)
    (target : Timeline → Resource → Tick) (timeline : Timeline) (resources : List Resource) :
    read (resources.foldl (fun timeline resource =>
      timeline.set resource (target timeline resource)) timeline) = read timeline := by
  induction resources generalizing timeline with
  | nil => rfl
  | cons resource resources ih => exact (ih _).trans (kept _ _ _)

/-- Several declared resources are set one after the other, each to what becomes of the tick up to
which it is covered. If nothing more becomes of it the second time, it does not matter how often a
resource is listed.

**Proof sketch.** Induction on the resources. The first one is set on the timeline at hand, and the
others on what this leads to, where only the first one reads differently; should it be listed among
the others as well, then setting it again has no effect. -/
lemma free_foldl_set (target : Tick → Tick)
    (idempotent : ∀ tick, target (target tick) = target tick)
    (declared : ∀ resource ∈ resources, resource < timeline.nextFree.size) (resource : Resource) :
    (resources.foldl (fun timeline resource =>
      timeline.set resource (target (timeline.free resource))) timeline).free resource =
      if resource ∈ resources then target (timeline.free resource) else timeline.free resource := by
  induction resources generalizing timeline with
  | nil => simp
  | cons other resources ih =>
    have here : other < timeline.nextFree.size := declared other List.mem_cons_self
    have there : ∀ r ∈ resources,
        r < (timeline.set other (target (timeline.free other))).nextFree.size := by
      intro r member
      rw [size_set]
      exact declared r (List.mem_cons_of_mem _ member)
    rw [List.foldl_cons, ih there, free_set _ _ _ _ here]
    by_cases same : other = resource
    · subst same
      simp [idempotent]
    · simp [same, Ne.symm same]

/-- Without resources there is nothing to pad. -/
@[simp]
lemma pad_nil (timeline : Timeline) (tick : Tick) : timeline.pad [] tick = timeline := rfl

/-- Resources are padded one after the other. -/
lemma pad_cons (timeline : Timeline) (resource : Resource) (resources : List Resource)
    (tick : Tick) :
    timeline.pad (resource :: resources) tick = (timeline.pad [resource] tick).pad resources tick :=
  rfl

/-- Padding a single resource sets it. -/
lemma pad_singleton (timeline : Timeline) (resource : Resource) (tick : Tick) :
    timeline.pad [resource] tick = timeline.set resource (max (timeline.free resource) tick) := rfl

/-- Padding leaves the origin alone. -/
@[simp]
lemma origin_pad (timeline : Timeline) (resources : List Resource) (tick : Tick) :
    (timeline.pad resources tick).origin = timeline.origin :=
  apply_foldl_set origin origin_set _ timeline resources

/-- Padding leaves the number of resources alone. -/
@[simp]
lemma size_pad (timeline : Timeline) (resources : List Resource) (tick : Tick) :
    (timeline.pad resources tick).nextFree.size = timeline.nextFree.size :=
  apply_foldl_set (fun timeline => timeline.nextFree.size) size_set _ timeline resources

/-- Occupying resources leaves the origin alone. -/
@[simp]
lemma origin_occupy (timeline : Timeline) (resources : List Resource) (start duration : Tick) :
    (timeline.occupy resources start duration).origin = timeline.origin :=
  apply_foldl_set origin origin_set _ timeline resources

/-- Occupying resources leaves their number alone. -/
@[simp]
lemma size_occupy (timeline : Timeline) (resources : List Resource) (start duration : Tick) :
    (timeline.occupy resources start duration).nextFree.size = timeline.nextFree.size :=
  apply_foldl_set (fun timeline => timeline.nextFree.size) size_set _ timeline resources

/-- Padding takes its resources at least as far as asked for. -/
lemma free_pad (declared : ∀ resource ∈ resources, resource < timeline.nextFree.size)
    (tick : Tick) (resource : Resource) :
    (timeline.pad resources tick).free resource =
      if resource ∈ resources then max (timeline.free resource) tick
      else timeline.free resource :=
  free_foldl_set (fun free => max free tick) (fun free => by lia) declared resource

/-- Occupying takes its resources to the end of the operation. -/
lemma free_occupy (declared : ∀ resource ∈ resources, resource < timeline.nextFree.size)
    (start duration : Tick) (resource : Resource) :
    (timeline.occupy resources start duration).free resource =
      if resource ∈ resources then start + duration else timeline.free resource :=
  free_foldl_set (fun _ => start + duration) (fun _ => rfl) declared resource

/-- Resources are all free from the first tick on at which each of them is. -/
lemma earliest_le_iff {tick : Tick} :
    timeline.earliest resources ≤ tick ↔ ∀ resource ∈ resources, timeline.free resource ≤ tick := by
  simp [earliest, latest_le_iff]

/-- A timeline starts out with every resource free at its origin. -/
@[simp]
lemma free_start (numResources : Nat) (origin : Tick) (resource : Resource) :
    (Timeline.start numResources origin).free resource = 0 := by
  by_cases declared : resource < numResources <;> simp [start, free, declared]

/-- A timeline begins with a place for each resource. -/
@[simp]
lemma size_start (numResources : Nat) (origin : Tick) :
    (Timeline.start numResources origin).nextFree.size = numResources := by
  simp [start]

/-- The front of a timeline that starts out is its origin. -/
@[simp]
lemma front_start (numResources : Nat) (origin : Tick) :
    (Timeline.start numResources origin).front = fun _ => origin := by
  funext resource
  unfold front
  rw [free_start]
  rfl

/-! ## What is written out leads from front to front -/

/-- Padding a resource that lags behind a tick takes it to the end of its idle time.

**Proof sketch.** The resource itself is set to the tick, which is the end of its idle time, and the
others keep their fronts. -/
lemma front_pad_of_lt {resource : Resource} (here : resource < timeline.nextFree.size) {tick : Tick}
    (lags : timeline.free resource < tick) (r : Resource) :
    (timeline.pad [resource] tick).front r =
      (Entry.idle resource (timeline.origin + timeline.free resource)
        (tick - timeline.free resource)).advance timeline.front r := by
  rw [pad_singleton]
  unfold front
  rw [free_set _ _ _ _ here]
  by_cases same : resource = r
  · subst same
    rw [Entry.advance_of_mem (List.mem_singleton_self _), if_pos rfl]
    simp only [origin_set, Entry.idle]
    lia
  · have unused : r ∉ (Entry.idle resource (timeline.origin + timeline.free resource)
        (tick - timeline.free resource)).resources := fun used =>
      same (List.mem_singleton.mp used).symm
    rw [Entry.advance_of_notMem unused, if_neg same, origin_set]

/-- Padding a resource that has come to a tick already leaves it where it is. -/
lemma front_pad_of_le {resource : Resource} (here : resource < timeline.nextFree.size) {tick : Tick}
    (reached : tick ≤ timeline.free resource) (r : Resource) :
    (timeline.pad [resource] tick).front r = timeline.front r := by
  rw [pad_singleton]
  unfold front
  rw [free_set _ _ _ _ here, origin_set]
  split
  · subst resource
    lia
  · rfl

/-- The idle time that pads resources leads to the front after padding.

**Proof sketch.** Induction on the resources. A resource that lags behind gets idle time from where
it is to the tick asked for; the others are padded on a timeline that already knows of it. -/
theorem tiles_gaps (declared : ∀ resource ∈ resources, resource < timeline.nextFree.size)
    (tick : Tick) :
    Tiles timeline.nextFree.size timeline.front (timeline.gaps resources tick)
      (timeline.pad resources tick).front := by
  induction resources generalizing timeline with
  | nil => exact .refl _ _
  | cons resource resources ih =>
    have here : resource < timeline.nextFree.size := declared resource List.mem_cons_self
    have there : ∀ r ∈ resources, r < (timeline.pad [resource] tick).nextFree.size := by
      intro r member
      rw [size_pad]
      exact declared r (List.mem_cons_of_mem _ member)
    have others := ih there
    rw [size_pad] at others
    rw [pad_cons]
    by_cases lags : timeline.free resource < tick
    · simp only [gaps, lags, if_true]
      refine ⟨fun r used => ?_,
        others.congr (fun r _ => front_pad_of_lt here lags r) fun _ _ => rfl⟩
      obtain rfl : r = resource := List.mem_singleton.mp used
      exact ⟨here, rfl⟩
    · simp only [gaps, lags, if_false]
      exact others.congr (fun r _ => front_pad_of_le here (Nat.le_of_not_lt lags) r) fun _ _ => rfl

/-- An operation on distinct declared resources, placed no earlier than they are free: the idle
time in front of it and the operation itself lead to the front after placing it.

**Proof sketch.** Idle time takes the resources of the entry to its start and leaves the others
where they are (`tiles_gaps`). The entry then takes them to its end. -/
theorem tiles_place (timeline : Timeline) (entry : Entry) (start : Tick)
    (declared : ∀ resource ∈ entry.resources, resource < timeline.nextFree.size)
    (free : timeline.earliest entry.resources ≤ start)
    (placed : entry.start = timeline.origin + start) :
    Tiles timeline.nextFree.size timeline.front (timeline.gaps entry.resources start ++ [entry])
      ((timeline.pad entry.resources start).occupy entry.resources start entry.duration).front := by
  have reached : ∀ resource ∈ entry.resources,
      (timeline.pad entry.resources start).front resource = entry.start := by
    intro r used
    have bound := earliest_le_iff.mp free r used
    unfold front
    rw [free_pad declared, if_pos used, origin_pad, placed]
    lia
  refine ((tiles_gaps declared start).concat fun r used => ⟨declared r used, reached r used⟩).congr
    (fun _ _ => rfl) fun r _ => ?_
  have declared' : ∀ resource ∈ entry.resources,
      resource < (timeline.pad entry.resources start).nextFree.size := by
    intro r used
    rw [size_pad]
    exact declared r used
  by_cases used : r ∈ entry.resources
  · rw [Entry.advance_of_mem used, reached r used, placed]
    unfold front
    rw [free_occupy declared', if_pos used, origin_occupy, origin_pad]
    lia
  · rw [Entry.advance_of_notMem used]
    unfold front
    rw [free_occupy declared', if_neg used, origin_occupy]

/-! ## What fills gaps -/

/-- Setting a resource to the tick up to which it is covered changes nothing.

**Proof sketch.** Compared place by place: only the place of the resource is set, to what it holds
already. -/
lemma set_free (timeline : Timeline) (resource : Resource) :
    timeline.set resource (timeline.free resource) = timeline := by
  have same : timeline.nextFree.setIfInBounds resource (timeline.free resource) =
      timeline.nextFree := by
    refine Array.ext_getElem? fun place => ?_
    rw [Array.getElem?_setIfInBounds]
    split
    · subst place
      split
      · rename_i inside
        simp [free, inside]
      · rename_i outside
        exact (Array.getElem?_eq_none (Nat.le_of_not_lt outside)).symm
    · rfl
  rw [set, same]

/-- Resources that have come to a tick need no idle time up to it. -/
lemma gaps_eq_nil {tick : Tick}
    (reached : ∀ resource ∈ resources, tick ≤ timeline.free resource) :
    timeline.gaps resources tick = [] := by
  induction resources with
  | nil => rfl
  | cons resource resources ih =>
    have here := reached resource List.mem_cons_self
    rw [gaps, if_neg (Nat.not_lt_of_le here), pad_singleton, Nat.max_eq_left here, set_free]
    exact ih fun other member => reached other (List.mem_cons_of_mem _ member)

/-- Gaps are filled with idle time of positive length that has no source.

**Proof sketch.** Induction on the resources. Padding a resource moves its front up to the tick,
which changes nothing about the form of the gaps behind it. -/
theorem mem_gaps {tick : Tick} {entry : Entry}
    (member : entry ∈ timeline.gaps resources tick) :
    ∃ resource ∈ resources, ∃ start duration, 0 < duration ∧
      start + duration ≤ timeline.origin + tick ∧ entry = .idle resource start duration := by
  induction resources generalizing timeline with
  | nil => simp [gaps] at member
  | cons resource resources ih =>
    have split_first : (timeline.free resource < tick ∧ entry =
        .idle resource (timeline.origin + timeline.free resource) (tick - timeline.free resource)) ∨
        entry ∈ (timeline.pad [resource] tick).gaps resources tick := by
      simp only [gaps] at member
      split at member
      · rename_i lags
        exact (List.mem_cons.mp member).imp (fun same => ⟨lags, same⟩) id
      · exact .inr member
    rcases split_first with ⟨lags, rfl⟩ | member
    · exact ⟨resource, List.mem_cons_self, _, _, Nat.sub_pos_of_lt lags, by lia, rfl⟩
    · obtain ⟨r, among, start, duration, positive, within, rfl⟩ := ih member
      rw [origin_pad] at within
      exact ⟨r, List.mem_cons_of_mem _ among, start, duration, positive, within, rfl⟩

/-- A gap is filled with idle time from where its resource has come to.

**Proof sketch.** Induction on the resources. A resource that was padded no longer lags behind the
tick, so a later gap is on another resource, whose front has not moved. -/
lemma eq_of_mem_gaps (declared : ∀ resource ∈ resources, resource < timeline.nextFree.size)
    {tick : Tick} {entry : Entry} (member : entry ∈ timeline.gaps resources tick) :
    ∃ resource ∈ resources, timeline.free resource < tick ∧
      entry = .idle resource (timeline.origin + timeline.free resource)
        (tick - timeline.free resource) := by
  induction resources generalizing timeline with
  | nil => simp [gaps] at member
  | cons resource resources ih =>
    have here := declared resource List.mem_cons_self
    have there : ∀ r ∈ resources, r < (timeline.pad [resource] tick).nextFree.size := by
      intro r among
      rw [size_pad]
      exact declared r (List.mem_cons_of_mem _ among)
    have later : entry ∈ (timeline.pad [resource] tick).gaps resources tick →
        ∃ r ∈ resource :: resources, timeline.free r < tick ∧ entry =
          .idle r (timeline.origin + timeline.free r) (tick - timeline.free r) := by
      intro member
      obtain ⟨r, among, lags, same⟩ := ih there member
      have before : (timeline.pad [resource] tick).free r = timeline.free r := by
        rw [pad_singleton, free_set _ _ _ _ here] at lags ⊢
        refine if_neg fun distinct => ?_
        rw [if_pos distinct] at lags
        exact Nat.not_lt_of_le (Nat.le_max_right _ _) lags
      rw [before] at lags same
      exact ⟨r, List.mem_cons_of_mem _ among, lags, same⟩
    rw [gaps] at member
    split at member
    · rename_i lags
      rcases List.mem_cons.mp member with rfl | member
      · exact ⟨resource, List.mem_cons_self, lags, rfl⟩
      · exact later member
    · exact later member

end Timeline

end Timetable
