import Timetable.Proofs.GapFree.Shifting
import Timetable.Proofs.Optimal
import Timetable.Proofs.Sequencing

/-!
# Carried timesteps as late as possible

A program that has timesteps is scheduled as late as possible by a pass that does not make them and
takes them for operations like all others. The entries that this pass gives have no gaps, but the
timesteps among them are then shifted as if each of them opened the step behind it. Only if they
happen to fit there does the schedule take as long as it should and have no gaps.

## Main definitions

* `Program.oneStep`, `Program.twoSteps` — lock-step schedules taken for programs.

## Main results

* `Program.alap_fits_iff` — the schedule has no gaps exactly if all timesteps fit.
* `Program.alap_misplaced` — in a lock-step schedule taken for a program they do not.
-/

set_option autoImplicit false

namespace Timetable

namespace Program

variable {program : Program} {table : DurationTable} {settings : Settings} {duration : OpId → Tick}

/-- In a physical program no entry names a resource twice, with its boundaries shifted or not. -/
lemma nodup_of_mem_shiftEntries {entries : List Entry} {entry : Entry}
    (physical : program.violation? = none) (unshifted : program.unshifted? table = some entries)
    (member : entry ∈ shiftEntries none 0 entries) : entry.resources.Nodup := by
  obtain ⟨before, among, same⟩ := operation_of_mem_shiftEntries member
  rw [Entry.resources, same]
  rcases operation_of_unshifted? unshifted among with ⟨length, resource, idle⟩ | known
  · simp [idle]
  · exact nodup_of_physical physical known

/-- **Carried timesteps as late as possible.** A physical program without circular dependencies
whose durations are known is scheduled as late as possible by shifting the timesteps among entries
without gaps. If all of them fit, the schedule takes as long as it does as soon as possible, each
entry starts where all of its resources have come to, and sequencing reports none of them. If some
timestep does not fit, the schedule takes longer or has an entry in the wrong place.

**Proof sketch.** The forward pass on the reversed program succeeds and is as short as possible, and
turned around its entries have no gaps and end with the makespan
(`Policy.exists_run_forward_reversed`); what comes out has the timesteps among them shifted. If they
fit, shifting keeps the tiling (`tiles_shiftEntries`), so that the latest end is the makespan again
and sequencing finds each entry where its resources have come to. Conversely, a tiling by the
shifted entries tells that every timestep fitted (`shiftFits_of_tiles`). -/
theorem alap_fits_iff (built : program.Built) (physical : program.violation? = none)
    (acyclic : program.Acyclic) (lasts : program.Lasts table duration) :
    ∃ asap alap entries,
      (program.schedule table { settings with method := "asap" }).result = .ok asap ∧
      (program.schedule table { settings with method := "alap" }).result = .ok alap ∧
      program.unshifted? table = some entries ∧
      (alap.duration = asap.duration ∧
          (∃ last, Tiles program.numResources (fun _ => 0) alap.entries last) ↔
        ShiftFits (fun _ => 0) 0 entries) ∧
      (ShiftFits (fun _ => 0) 0 entries → ∀ implementations index name defect,
        (alap.sequence implementations).2 ≠ .error (.defective index name defect)) := by
  have wellFormed := built.wellFormed
  obtain ⟨asap, early, asap_ok, -, earliest, asap_total⟩ :=
    exists_forward wellFormed physical acyclic lasts
  have asap_duration : asap.duration = program.makespan duration early := by
    rw [(forward_gapFree wellFormed asap_ok).duration_eq, asap_total]
  obtain ⟨alap, entries, start, alap_ok, layout, cached, unshifted, shifted, late⟩ :=
    Policy.exists_run_forward_reversed wellFormed physical acyclic lasts earliest
  have touching : ∀ entry ∈ alap.entries, entry.resources ≠ [] := by
    intro entry member
    obtain ⟨before, among, same⟩ := operation_of_mem_shiftEntries (shifted ▸ member)
    rw [Entry.resources, same]
    exact late.touching before among
  have nodup : ∀ entry ∈ alap.entries, entry.resources.Nodup := fun entry member =>
    nodup_of_mem_shiftEntries physical unshifted (shifted ▸ member)
  have fits_tiles : ShiftFits (fun _ => 0) 0 entries → Tiles program.numResources (fun _ => 0)
      alap.entries fun _ => program.makespan duration early := fun fits =>
    shifted ▸ tiles_shiftEntries late.tiles fits
  refine ⟨asap, alap, entries, schedule_of_run (Policy.ofSettings_asap rfl) asap_ok,
    schedule_of_run (Policy.ofSettings_alap rfl) alap_ok, unshifted, ⟨?_, fun fits => ⟨?_, ?_⟩⟩, ?_⟩
  · rintro ⟨-, last, tiles⟩
    exact shiftFits_of_tiles late.tiles (shifted ▸ tiles)
  · have total : alap.total = program.makespan duration early :=
      ((fits_tiles fits).latestStop_congr late.tiles touching late.touching).trans
        late.latestStop_eq
    rw [asap_duration, Schedule.duration, cached, Option.getD_some, total]
  · exact ⟨_, fits_tiles fits⟩
  · intro fits
    have tiles := fits_tiles fits
    rw [numResources, ← layout] at tiles
    exact Schedule.sequence_ne_defective tiles touching nodup

/-- One step of lock-step time with two gates in it. -/
def oneStep : Program where
  name := "step"
  layout := .physical 2
  tasks := #[.known (.gate "a" [0]) 2, .known (.gate "b" [1]) 3, .known (.timestep 3 [0, 1]) 0]

/-- Two steps of lock-step time with a gate in each. -/
def twoSteps : Program where
  name := "steps"
  layout := .physical 1
  tasks := #[.known (.gate "a" [0]) 2, .known (.timestep 2 [0]) 0, .known (.gate "b" [0]) 3,
    .known (.timestep 3 [0]) 0]

/-- The program of one step is built with its durations. -/
lemma built_oneStep : oneStep.Built := by
  have first := @Built.push _ _ (.gate "a" [0]) (.empty "step" (.physical 2)) rfl
  have second := @Built.push _ _ (.gate "b" [1]) (first.fill 0 ⟨2, none⟩) rfl
  have third := @Built.push _ _ (.timestep 3 [0, 1]) (second.fill 1 ⟨3, none⟩) rfl
  exact third.fill 2 ⟨0, none⟩

/-- The program of two steps is built with its durations. -/
lemma built_twoSteps : twoSteps.Built := by
  have first := @Built.push _ _ (.gate "a" [0]) (.empty "steps" (.physical 1)) rfl
  have second := @Built.push _ _ (.timestep 2 [0]) (first.fill 0 ⟨2, none⟩) rfl
  have third := @Built.push _ _ (.gate "b" [0]) (second.fill 1 ⟨0, none⟩) rfl
  have fourth := @Built.push _ _ (.timestep 3 [0]) (third.fill 2 ⟨3, none⟩) rfl
  exact fourth.fill 3 ⟨0, none⟩

/-- A single timestep at the end fits. -/
theorem alap_fits_oneStep : ∃ alap,
    (oneStep.schedule .empty { method := "alap" }).result = .ok alap ∧ alap.duration = 3 ∧
      (∃ last, Tiles 2 (fun _ => 0) alap.entries last) ∧
        ∀ implementations index name defect,
          (alap.sequence implementations).2 ≠ .error (.defective index name defect) := by
  have acyclic := acyclic_of_order built_oneStep.wellFormed.toClosed rfl
    (rfl : oneStep.precedence.order = .ok _)
  have lasts : oneStep.Lasts .empty fun id => [2, 3, 0].getD id 0 := by
    unfold Lasts
    decide
  obtain ⟨asap, alap, entries, asap_ok, ok, unshifted, iff_fits, clean⟩ :=
    @alap_fits_iff _ _ {} _ built_oneStep rfl acyclic lasts
  cases unshifted
  obtain ⟨duration, tight⟩ := iff_fits.mpr (by decide)
  have clean := clean (by decide)
  cases asap_ok
  cases ok
  exact ⟨_, rfl, duration, tight, clean⟩

/-- The instructions of the two gates: none. -/
def noInstructions : Implementations :=
  ((∅ : Implementations).insert ("a", [0]) ⟨[]⟩).insert ("b", [0]) ⟨[]⟩

/-- In a lock-step schedule of two steps that is taken for a program, the first timestep is moved
behind the second gate, but to the tick at which that starts. -/
theorem alap_misplaced : twoSteps.Built ∧ twoSteps.violation? = none ∧ twoSteps.Acyclic ∧
    twoSteps.Lasts .empty (fun id => [2, 0, 3, 0].getD id 0) ∧
    (∃ operation ∈ twoSteps.operations, operation.isTimestep = true) ∧
    ∃ asap alap, (twoSteps.schedule .empty { method := "asap" }).result = .ok asap ∧
      (twoSteps.schedule .empty { method := "alap" }).result = .ok alap ∧
      ¬ (alap.duration = asap.duration ∧
        ∃ last, Tiles twoSteps.numResources (fun _ => 0) alap.entries last) ∧
      (alap.sequence noInstructions).2 = .error (.defective 2 "timestep" (.misplaced 2 5)) := by
  have acyclic := acyclic_of_order built_twoSteps.wellFormed.toClosed rfl
    (rfl : twoSteps.precedence.order = .ok _)
  have lasts : twoSteps.Lasts .empty fun id => [2, 0, 3, 0].getD id 0 := by
    unfold Lasts
    decide
  refine ⟨built_twoSteps, rfl, acyclic, lasts, by decide, _, _, rfl, rfl, ?_, rfl⟩
  rintro ⟨-, last, -, -, misplaced, -⟩
  exact absurd (misplaced 0 (by decide)).2 (by decide)

end Program

end Timetable
