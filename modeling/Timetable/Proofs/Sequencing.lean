import Timetable.Proofs.Precedence.Residual
import Timetable.Proofs.Tiling
import Timetable.Sequencing

/-!
# Tilings can be sequenced

Sequencing walks the entries of a schedule with one cursor for every resource, and reports the first
entry that does not start where all of its resources have come to. In a tiling there is none, so if
all entries can be carried out the walk gets to the end.

## Main definitions

* `Walk.emitted` — the instructions of an entry.

## Main results

* `Walk.run_of_tiles` — the walk reports no entry of a tiling.
* `Walk.exists_run_of_tiles` — where the walk comes to if all entries can be carried out.
* `Schedule.sequence_ne_defective` — sequencing reports no entry of a tiling.
-/

set_option autoImplicit false

namespace Timetable

namespace Walk

variable {walk : Walk} {entry : Entry} {entries : List Entry} {last : Resource → Tick}

/-- The walk starts at tick zero on every resource. -/
lemma cursor_start (numResources : Nat) : (start numResources).cursor = fun _ => 0 := by
  funext resource
  by_cases declared : resource < numResources <;> simp [cursor, start, declared]

/-- Walking an entry that names no resource twice takes its resources for its duration. -/
lemma cursor_advance (nodup : entry.resources.Nodup)
    (declared : ∀ resource ∈ entry.resources, resource < walk.cursors.size) (index : Nat) :
    (walk.advance index entry).cursor = entry.advance walk.cursor := by
  funext resource
  unfold cursor advance
  rw [Residual.getElem?_foldl_modify nodup]
  by_cases used : resource ∈ entry.resources
  · rw [if_pos used, Entry.advance_of_mem used]
    simp [declared resource used]
  · rw [if_neg used, Entry.advance_of_notMem used]

/-- Walking an entry forgets no resource. -/
lemma size_advance (walk : Walk) (index : Nat) (entry : Entry) :
    (walk.advance index entry).cursors.size = walk.cursors.size := by
  unfold advance
  exact List.foldlRecOn (motive := fun cursors : Array Tick => cursors.size = walk.cursors.size)
    entry.resources _ rfl fun cursors same resource _ => (Array.size_modify).trans same

/-- An entry has no defect if its resources have come to its start.

**Proof sketch.** The checks go one after the other: some resource is used, all are declared, all
cursors agree, and they agree with the start. -/
lemma defect?_eq_none (touching : entry.resources ≠ [])
    (placed : ∀ resource ∈ entry.resources,
      resource < walk.cursors.size ∧ walk.cursor resource = entry.start) :
    walk.defect? entry = none := by
  unfold defect?
  cases resources : entry.resources with
  | nil => exact absurd resources touching
  | cons first others =>
    rw [resources] at placed
    have start := (placed first List.mem_cons_self).2
    have undeclared : (first :: others).find? (walk.cursors.size ≤ ·) = none :=
      List.find?_eq_none.mpr fun resource used => by simpa using (placed resource used).1
    have disagree : (first :: others).find? (walk.cursor · ≠ walk.cursor first) = none :=
      List.find?_eq_none.mpr fun resource used => by simp [(placed resource used).2, start]
    dsimp only
    rw [undeclared]
    dsimp only
    rw [disagree]
    dsimp only
    rw [if_pos start]

/-- The walk finds every entry of a tiling where its resources have come to.

**Proof sketch.** Induction on the entries, with a tiling from the cursors as invariant. The first
entry starts where its resources have come to, so it has no defect, and advancing the cursors leaves
a tiling of the rest. -/
theorem run_of_tiles (tiles : Tiles walk.cursors.size walk.cursor entries last)
    (touching : ∀ entry ∈ entries, entry.resources ≠ [])
    (nodup : ∀ entry ∈ entries, entry.resources.Nodup) (lookup : ImplementationLookup)
    (first index : Nat) (name : String) (defect : Defect) :
    (run lookup first entries walk).2 ≠ some (.defective index name defect) := by
  induction entries generalizing walk first with
  | nil => simp [run]
  | cons entry entries ih =>
    obtain ⟨placed, rest⟩ := tiles
    have sound := defect?_eq_none (touching entry List.mem_cons_self) placed
    unfold run
    rw [sound]
    dsimp only
    cases instructionsOf lookup entry with
    | none => simp
    | some more =>
      refine ih ?_ (fun other member => touching other (List.mem_cons_of_mem _ member))
        (fun other member => nodup other (List.mem_cons_of_mem _ member)) (first + 1)
      have next := cursor_advance (nodup entry List.mem_cons_self)
        (fun resource used => (placed resource used).1) first
      have size := walk.size_advance first entry
      show Tiles (walk.advance first entry).cursors.size (walk.advance first entry).cursor entries
        last
      rw [next, size]
      exact rest

/-- The instructions of an entry; none if it cannot be carried out. -/
def emitted (lookup : ImplementationLookup) (entry : Entry) : List TimedInstruction :=
  (instructionsOf lookup entry).getD []

/-- The walk takes all resources to the end of a tiling whose entries can all be carried out, and
collects the instructions of one entry after the other.

**Proof sketch.** The same induction, now with instructions for every entry, so that the walk goes
on to the end. Each entry adds its own instructions behind the earlier ones. -/
theorem exists_run_of_tiles {lookup : ImplementationLookup}
    (tiles : Tiles walk.cursors.size walk.cursor entries last)
    (touching : ∀ entry ∈ entries, entry.resources ≠ [])
    (nodup : ∀ entry ∈ entries, entry.resources.Nodup)
    (carried : ∀ entry ∈ entries, (instructionsOf lookup entry).isSome) (first : Nat) :
    ∃ walked, run lookup first entries walk = (walked, none) ∧
      walked.cursors.size = walk.cursors.size ∧
      (∀ resource < walk.cursors.size, walked.cursor resource = last resource) ∧
      walked.instructions = walk.instructions ++ entries.flatMap (emitted lookup) := by
  induction entries generalizing walk first with
  | nil => exact ⟨walk, rfl, rfl, tiles, (List.append_nil _).symm⟩
  | cons entry entries ih =>
    obtain ⟨placed, rest⟩ := tiles
    obtain ⟨more, found⟩ := Option.isSome_iff_exists.mp (carried entry List.mem_cons_self)
    have sound := defect?_eq_none (touching entry List.mem_cons_self) placed
    have size := walk.size_advance first entry
    have next := cursor_advance (nodup entry List.mem_cons_self)
      (fun resource used => (placed resource used).1) first
    let advanced : Walk :=
      { walk.advance first entry with instructions := walk.instructions ++ more }
    have tiles : Tiles advanced.cursors.size advanced.cursor entries last := by
      show Tiles (walk.advance first entry).cursors.size (walk.advance first entry).cursor entries
        last
      rw [next, size]
      exact rest
    obtain ⟨walked, ran, same, cursor, instructions⟩ := ih tiles
      (fun other member => touching other (List.mem_cons_of_mem _ member))
      (fun other member => nodup other (List.mem_cons_of_mem _ member))
      (fun other member => carried other (List.mem_cons_of_mem _ member)) (first + 1)
    refine ⟨walked, ?_, same.trans size, fun resource declared => ?_, ?_⟩
    · unfold run
      rw [sound]
      dsimp only
      rw [found]
      exact ran
    · exact cursor resource (size.symm ▸ declared)
    · have here : emitted lookup entry = more := by rw [emitted, found, Option.getD_some]
      rw [instructions, List.flatMap_cons, here, ← List.append_assoc]

end Walk

/-- No entry of a schedule is reported if its entries, each of which uses a resource and none of
them twice, tile the time from tick zero on.

**Proof sketch.** The cursors begin at zero, so the walk reports no defect (`run_of_tiles`), and
behind the walk none can be reported. -/
theorem Schedule.sequence_ne_defective {schedule : Schedule} {last : Resource → Tick}
    (tiles : Tiles schedule.numResources (fun _ => 0) schedule.entries last)
    (touching : ∀ entry ∈ schedule.entries, entry.resources ≠ [])
    (nodup : ∀ entry ∈ schedule.entries, entry.resources.Nodup) (implementations : Implementations)
    (index : Nat) (name : String) (defect : Defect) :
    (schedule.sequence implementations).2 ≠ .error (.defective index name defect) := by
  have walked : Tiles (Walk.start schedule.numResources).cursors.size
      (Walk.start schedule.numResources).cursor schedule.entries last := by
    rw [Walk.cursor_start]
    simpa [Walk.start] using tiles
  have clean := Walk.run_of_tiles walked touching nodup implementations.toLookup 0 index name defect
  intro reported
  unfold sequence sequenceWith at reported
  dsimp only at reported
  split at reported
  · rename_i failure
    cases reported
    exact clean failure
  · split at reported <;> cases reported

end Timetable
