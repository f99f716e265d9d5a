import Mathlib.Data.List.Induction
import Timetable.Proofs.Optimal.Forward
import Timetable.Proofs.Rescheduling.Flattening

/-!
# Tight schedules stay as they are

The forward pass places the entries of a tight schedule where they stand: the operations come in the
order of the entries, the resources of each of them have all come to its start, and its predecessors
have finished by then, so there is nothing to pad.

## Main definitions

* `Front.Retraces` — the pass has placed some entries where they stand.

## Main results

* `Front.Retraces.place` — placing one more entry.
* `Schedule.Tight.exists_forward` — the forward pass repeats a tight schedule.
-/

set_option autoImplicit false

namespace Timetable

/-! ## The forward pass -/

/-- The pass has placed some entries where they stand, and nothing else. -/
structure Front.Retraces (numResources size : Nat) (done : List Entry) (front : Front) : Prop where
  origin : front.timeline.origin = 0
  covered : front.timeline.nextFree.size = numResources
  finishes : front.finish.size = size
  entries : front.entries = numbered done
  tiles : Tiles numResources (fun _ => 0) done front.timeline.front
  finish : ∀ id entry, done[id]? = some entry → front.finishOf id = entry.stop

namespace Front.Retraces

variable {numResources size : Nat} {done : List Entry} {front : Front} {entry : Entry}

/-- Nothing is placed at the start. -/
lemma start (program : Program) :
    Retraces program.numResources program.size [] (Front.start program) where
  origin := rfl
  covered := Timeline.size_start _ _
  finishes := Array.size_replicate
  entries := rfl
  tiles := by
    rw [Front.start, Timeline.front_start]
    exact .refl _ _
  finish := by simp

/-- An entry that starts where its resources have come to is due there, if its predecessors are
entries that share a resource with it. -/
lemma due_eq (retraces : Retraces numResources size done front) (precedence : Precedence)
    (placed : ∀ resource ∈ entry.resources,
      resource < numResources ∧ front.timeline.front resource = entry.start)
    (touching : entry.resources ≠ [])
    (shares : ∀ before, precedence.Edge before done.length →
      ∃ earlier, done[before]? = some earlier ∧
        ∃ resource ∈ entry.resources, resource ∈ earlier.resources) :
    front.due precedence (entry.job done.length) = entry.start := by
  have free : ∀ resource ∈ entry.resources, front.timeline.free resource = entry.start := by
    intro resource used
    rw [← (placed resource used).2, Timeline.front, retraces.origin, Nat.zero_add]
  apply Nat.le_antisymm
  · refine due_le_iff.mpr ⟨fun resource used => (free resource used).le, fun before edge => ?_⟩
    obtain ⟨earlier, found, resource, used, used'⟩ := shares before edge
    rw [retraces.finish before earlier found, ← (placed resource used).2]
    exact retraces.tiles.stop_le (List.mem_of_getElem? found) used'
  · obtain ⟨resource, used⟩ := List.exists_mem_of_ne_nil _ touching
    rw [← free resource used]
    exact (due_le_iff.mp (le_refl _)).1 resource used

/-- Placing an entry when it starts takes its resources to its end, and leaves the others where they
are.

**Proof sketch.** The operation is due when its entry starts, so its resources become free where the
entry ends. -/
lemma front_place (retraces : Retraces numResources size done front) (precedence : Precedence)
    (placed : ∀ resource ∈ entry.resources,
      resource < numResources ∧ front.timeline.front resource = entry.start)
    (due : front.due precedence (entry.job done.length) = entry.start) (resource : Resource) :
    (front.place precedence (entry.job done.length)).timeline.front resource =
      entry.advance front.timeline.front resource := by
  have declared : ∀ resource ∈ (entry.job done.length).operation.resources,
      resource < front.timeline.nextFree.size := fun resource used =>
    retraces.covered ▸ (placed resource used).1
  have origin : (front.place precedence (entry.job done.length)).timeline.origin = 0 := by
    simp [Front.place, retraces.origin]
  have next := free_place precedence declared resource
  rw [due] at next
  rw [Timeline.front, origin, Nat.zero_add, next]
  by_cases used : resource ∈ entry.resources
  · rw [Entry.advance_of_mem used, (placed resource used).2]
    exact if_pos used
  · rw [Entry.advance_of_notMem used, Timeline.front, retraces.origin, Nat.zero_add]
    exact if_neg used

/-- Placing an entry that starts where its resources have come to, as soon as all of its
predecessors were placed.

**Proof sketch.** The resources of the entry are free exactly when it starts, and its predecessors
share resources with it, so it is due then (`due_eq`). No idle time is needed in front of it, and
the resources come to its end (`front_place`). -/
theorem place (retraces : Retraces numResources size done front) (precedence : Precedence)
    (placed : ∀ resource ∈ entry.resources,
      resource < numResources ∧ front.timeline.front resource = entry.start)
    (touching : entry.resources ≠ []) (inside : done.length < size)
    (shares : ∀ before, precedence.Edge before done.length →
      ∃ earlier, done[before]? = some earlier ∧
        ∃ resource ∈ entry.resources, resource ∈ earlier.resources) :
    Retraces numResources size (done ++ [entry])
      (front.place precedence (entry.job done.length)) := by
  have due := retraces.due_eq precedence placed touching shares
  have finishes : done.length < front.finish.size := retraces.finishes ▸ inside
  have reached : ∀ resource ∈ (entry.job done.length).operation.resources,
      entry.start ≤ front.timeline.free resource := by
    intro resource used
    have same := (placed resource used).2
    rw [Timeline.front, retraces.origin, Nat.zero_add] at same
    exact same.ge
  refine
    { origin := by simp [Front.place, retraces.origin]
      covered := by simp [Front.place, retraces.covered]
      finishes := by simp [Front.place, retraces.finishes]
      entries := ?entries
      tiles := (retraces.tiles.concat placed).congr (fun _ _ => rfl) fun resource _ =>
        (retraces.front_place precedence placed due resource).symm
      finish := fun id other found => ?finish }
  case entries =>
    rw [entries_place, due, Timeline.gaps_eq_nil reached, List.append_nil, retraces.entries,
      numbered_concat]
    rfl
  case finish =>
    rw [finishOf_place precedence finishes, due]
    rw [List.getElem?_append] at found
    split at found
    · rename_i before
      have distinct : id ≠ (entry.job done.length).id := Nat.ne_of_lt before
      rw [if_neg distinct]
      exact retraces.finish id other found
    · rename_i behind
      obtain ⟨last, here⟩ := List.getElem?_eq_some_iff.mp found
      obtain rfl : entry = other := by simpa using here
      have same : id = (entry.job done.length).id := by
        show id = done.length
        simp only [List.length_singleton] at last
        lia
      rw [if_pos same]
      rfl

/-- Resources that have all come to one tick need no idle time at the end.

**Proof sketch.** All resources have come to the same tick, which is the horizon, so nothing lags
behind it. -/
lemma closed_eq (retraces : Retraces numResources size done front) {total : Tick}
    (through : Tiles numResources (fun _ => 0) done fun _ => total) :
    front.closed = numbered done := by
  have free : ∀ resource < numResources, front.timeline.free resource = total := by
    intro resource declared
    have same := retraces.tiles.last_unique through declared
    rwa [Timeline.front, retraces.origin, Nat.zero_add] at same
  have horizon : front.timeline.horizon ≤ total := by
    refine latest_le_iff.mpr fun tick found => ?_
    obtain ⟨place, inside, rfl⟩ := List.getElem_of_mem found
    have inside : place < front.timeline.nextFree.size := by simpa using inside
    have same := free place (retraces.covered ▸ inside)
    simp only [Timeline.free, Array.getElem?_eq_getElem inside, Option.getD_some] at same
    simpa using same.le
  have covered : ∀ resource ∈ front.timeline.resources,
      front.timeline.horizon ≤ front.timeline.free resource := by
    intro resource member
    rw [free resource (retraces.covered ▸ List.mem_range.mp member)]
    exact horizon
  rw [closed, Timeline.gaps_eq_nil covered, List.append_nil, retraces.entries]

end Front.Retraces

namespace Schedule.Tight

variable {schedule : Schedule}

/-- The forward pass places the entries of a tight schedule one after the other.

**Proof sketch.** Induction on the entries from the front. The next entry of the tiling starts where
its resources have come to, and its predecessors were placed because precedence agrees with program
order. -/
lemma retraces (tight : schedule.Tight) (done rest : List Entry)
    (split : schedule.entries = done ++ rest) :
    Front.Retraces schedule.numResources schedule.toProgram.size done
      (Front.after schedule.toProgram (jobsOf done)) := by
  induction done using List.reverseRecOn generalizing rest with
  | nil => exact .start schedule.toProgram
  | append_singleton done entry ih =>
    have before := ih (entry :: rest) (by rw [split, List.append_assoc]; rfl)
    have at_place : schedule.entries[done.length]? = some entry := by
      rw [split, List.append_assoc, List.getElem?_append_right (le_refl _), Nat.sub_self]
      rfl
    obtain ⟨inside, -⟩ := List.getElem?_eq_some_iff.mp at_place
    have placed : ∀ resource ∈ entry.resources, resource < schedule.numResources ∧
        (Front.after schedule.toProgram (jobsOf done)).timeline.front resource = entry.start := by
      have tiles := tight.tiles
      rw [split, List.append_assoc] at tiles
      obtain ⟨middle, front, placed, -⟩ := tiles_append.mp tiles
      intro resource used
      obtain ⟨declared, start⟩ := placed resource used
      exact ⟨declared, (before.tiles.last_unique front declared).trans start⟩
    rw [Front.after, jobsOf_concat, List.foldl_concat]
    refine before.place _ placed (tight.touching entry (List.mem_of_getElem? at_place))
      (by rwa [size_toProgram]) fun earlier edge => ?_
    obtain ⟨-, shared | known⟩ := Program.edge_iff.mp edge
    · obtain ⟨resource, used, last⟩ :=
        (Program.mem_resourcePreds fun _ => Program.nodup_of_physical tight.physical).mp shared
      obtain ⟨smaller, used', -⟩ := Program.lastUser_eq_some last
      obtain ⟨other, found, uses⟩ := uses_toProgram.mp used'
      obtain ⟨same, found', uses'⟩ := uses_toProgram.mp used
      cases at_place.symm.trans found'
      rw [split, List.append_assoc, List.getElem?_append_left smaller] at found
      exact ⟨other, found, resource, uses', uses⟩
    · cases known

/-- **Tight schedules stay as they are.** Scheduling the program of a tight schedule as soon as
possible repeats it, whatever durations are used.

**Proof sketch.** The operations are placed in program order (`Tight.order`), each where its entry
was (`Tight.retraces`), and nothing is added at the end (`Retraces.closed_eq`). -/
theorem exists_forward (tight : schedule.Tight) (table : DurationTable) :
    ∃ again, (schedule.toProgram.forward table).result = .ok again ∧
      again.layout = schedule.layout ∧ schedule.RepeatedBy again := by
  obtain ⟨resolves, jobs⟩ := schedule.resolve_toProgram table
  have ok :=
    Program.forward_of_ordered tight.wellFormed.toClosed tight.physical tight.order resolves
  have retraces := tight.retraces schedule.entries [] (List.append_nil _).symm
  rw [jobs, retraces.closed_eq tight.tiles] at ok
  exact ⟨_, ok, rfl, rfl, congrArg some (latestStop_numbered _)⟩

end Schedule.Tight

end Timetable
