import Timetable.Proofs.LockStep.Run

/-!
# A lock-step run looks up what there is

All numbers of operations that a run comes across are numbers of jobs, all resources are declared,
and its arrays have a place for each of them, in every state that it can reach. In none of these
states does a loop go on forever.

## Main definitions

* `Residual.Reached`, `Grouping.Reached`, `Step.Reached` — the states of a run.
* `Residual.InRange`, `Grouping.InRange`, `Step.InRange` — what a state can look up is there.
* `Workload.Safe` — a run ends as it should, and looks up only what there is.

## Main results

* `Workload.Sound.safe` — sound workloads are safe.
-/

set_option autoImplicit false

namespace Timetable

/-! ## The states of a run -/

/-- What can be left when operations of a precedence are completed in some order. -/
inductive Residual.Reached (precedence : Precedence) : Residual → Prop
  | start : Reached precedence (start precedence)
  | complete {residual : Residual} (reached : Reached precedence residual) (id : OpId) :
      Reached precedence (residual.complete id)

/-- How far a run comes step by step. -/
inductive Grouping.Reached (work : Workload) : Grouping → Prop
  | start : Reached work (start work)
  | advance {grouping next : Grouping} (reached : Reached work grouping)
      (advanced : grouping.advance work = (next, none)) : Reached work next

/-- What steps look like while they are filled and while delays are cut, whatever operations are
offered to them or cut in which order. A step begins when carried timesteps were completed. -/
inductive Step.Reached (work : Workload) : Step → Prop
  | start {grouping : Grouping} (reached : Grouping.Reached work grouping) (length : Tick) :
      Reached work (.start work (grouping.residual.drain work).2 grouping.remaining grouping.elapsed
        length)
  | offer {step : Step} (reached : Reached work step) (id : OpId) :
      Reached work (step.offer work id)
  | cutDelay {step : Step} (reached : Reached work step) (id : OpId) :
      Reached work (step.cutDelay work id)

/-- There are counts and lists for each of `size` operations, and no others are pending or
listed. -/
structure Residual.InRange (size : Nat) (residual : Residual) : Prop where
  pending : ∀ id ∈ residual.pending, id < size
  waiting : size ≤ residual.waiting.size
  predLists : size ≤ residual.precedence.predLists.size
  succLists : size ≤ residual.precedence.succLists.size
  preds : ∀ id, ∀ before ∈ residual.precedence.preds id, before < size
  succs : ∀ id, ∀ after ∈ residual.precedence.succs id, after < size

/-- There are ticks for each operation. -/
structure Grouping.InRange (work : Workload) (grouping : Grouping) : Prop where
  residual : grouping.residual.InRange work.jobs.size
  remaining : work.jobs.size ≤ grouping.remaining.size

/-- There are ticks and a finish for each operation, and a place on the timeline for each resource
that one of them uses. -/
structure Step.InRange (work : Workload) (step : Step) : Prop where
  residual : step.residual.InRange work.jobs.size
  remaining : work.jobs.size ≤ step.remaining.size
  finish : work.jobs.size ≤ step.finish.size
  resources : ∀ job ∈ work.jobs, ∀ resource ∈ job.operation.resources,
    resource < step.timeline.nextFree.size

/-- A run ends without an error when everything is completed. In every state it can reach,
completing carried timesteps and filling a step end when nothing is left for them to do, not because
a number of rounds is used up, and everything that can be looked up is there. -/
structure Workload.Safe (work : Workload) : Prop where
  runs : ∃ last, work.grouping = (last, none) ∧ Grouping.Runs work (.start work) last
  drains : ∀ grouping, Grouping.Reached work grouping → grouping.residual.Drains work
    (grouping.residual.drain work).1 (grouping.residual.drain work).2
  settles : ∀ step, Step.Reached work step → step.Settles work (step.fill work)
  residual : ∀ residual, Residual.Reached work.precedence residual →
    residual.InRange work.jobs.size
  grouping : ∀ grouping, Grouping.Reached work grouping → grouping.InRange work
  step : ∀ step, Step.Reached work step → step.InRange work

variable {work : Workload} {precedence : Precedence} {residual : Residual} {grouping : Grouping}
  {step : Step} {id : OpId} {size : Nat}

/-! ## What is left -/

/-- Consistent counts are counts of all operations, and sound lists name no others.

**Proof sketch.** If there were fewer counts than operations, the one behind the last count would
have none, although consistency says what it is. -/
lemma Residual.Consistent.inRange (consistent : residual.Consistent)
    (predLists : residual.precedence.predLists.size = size)
    (succLists : residual.precedence.succLists.size = size) : residual.InRange size where
  pending := predLists ▸ consistent.inside
  waiting := by
    by_contra short
    have inside : residual.waiting.size < residual.precedence.size := by
      rw [Precedence.size, predLists]
      exact Nat.lt_of_not_le short
    have missing := consistent.waiting residual.waiting.size inside
    rw [Array.getElem?_eq_none le_rfl] at missing
    cases missing
  predLists := predLists.ge
  succLists := succLists.ge
  preds := fun _ _ edge => predLists ▸ (consistent.sound.lt_size edge).1
  succs := fun _ _ listed =>
    predLists ▸ (consistent.sound.lt_size (consistent.sound.mem_succs.mp listed)).2

/-- Whatever is completed in whatever order, the counts stay right. -/
lemma Residual.Reached.consistent (reached : Reached precedence residual)
    (sound : precedence.Sound) : residual.Consistent ∧ residual.precedence = precedence := by
  induction reached with
  | start => exact ⟨consistent_start sound, rfl⟩
  | complete _ id ih => exact ⟨ih.1.complete id, (precedence_complete _ id).trans ih.2⟩

/-- Whatever is completed in whatever order, nothing out of range is looked up. -/
lemma Residual.Reached.inRange (reached : Reached precedence residual) (sound : precedence.Sound)
    (predLists : precedence.predLists.size = size) (succLists : precedence.succLists.size = size) :
    residual.InRange size := by
  obtain ⟨consistent, same⟩ := reached.consistent sound
  exact consistent.inRange (same ▸ predLists) (same ▸ succLists)

/-! ## Groupings and steps -/

/-- All groupings that a run comes to are in order. -/
lemma Grouping.Reached.inOrder (reached : Reached work grouping) (sound : work.Sound) :
    InOrder work grouping := by
  induction reached with
  | start => exact sound.inOrder_start
  | advance _ advanced ih =>
    obtain ⟨next, advanced', advances⟩ := ih.exists_advance sound
    cases advanced'.symm.trans advanced
    exact ih.of_advances advances

/-- Nothing out of range is looked up in a grouping that is in order. -/
lemma Grouping.InOrder.inRange (inOrder : InOrder work grouping) (sound : work.Sound)
    (succLists : work.precedence.succLists.size = work.jobs.size) : grouping.InRange work where
  residual := inOrder.ongoing.toConsistent.inRange (inOrder.precedence ▸ sound.size)
    (inOrder.precedence ▸ succLists)
  remaining := inOrder.size.ge

namespace Step

/-- The counts of a step are right, and its arrays are as large as they have to be. -/
structure Sized (work : Workload) (step : Step) : Prop where
  consistent : step.residual.Consistent
  precedence : step.residual.precedence = work.precedence
  remaining : step.remaining.size = work.jobs.size
  finish : step.finish.size = work.jobs.size
  timeline : step.timeline.nextFree.size = work.numResources

/-- A step that begins is sized. -/
lemma Sized.start (inOrder : Grouping.InOrder work grouping) (length : Tick) :
    Sized work (.start work (grouping.residual.drain work).2 grouping.remaining grouping.elapsed
      length) := by
  have drains := Residual.drains_drain inOrder.ongoing.toConsistent work
  obtain ⟨ongoing, same⟩ := inOrder.of_drained (drains.drained inOrder.ongoing.toConsistent)
  exact ⟨ongoing.toConsistent, same, inOrder.size, Array.size_replicate, Timeline.size_start _ _⟩

/-- Whatever is offered to a step, it stays sized.

**Proof sketch.** Nothing but notes changes unless the operation is accepted, and then arrays are
written in place. -/
lemma Sized.offer (sized : Sized work step) (id : OpId) : Sized work (step.offer work id) := by
  obtain ⟨consistent, precedence, remaining, finish, timeline⟩ := sized
  unfold Step.offer
  split
  · exact ⟨consistent, precedence, remaining, finish, timeline⟩
  · rename_i job found
    split
    · exact ⟨consistent, precedence, remaining, finish, timeline⟩
    · dsimp only
      split
      · exact ⟨consistent, precedence, remaining, finish, timeline⟩
      · refine ⟨consistent.complete _, (Residual.precedence_complete _ _).trans precedence,
          remaining, ?_, ?_⟩
        · exact Array.size_setIfInBounds.trans finish
        · simp only [accept, Timeline.size_occupy, Timeline.size_pad, timeline]

/-- Whatever is cut in a step, it stays sized. -/
lemma Sized.cutDelay (sized : Sized work step) (id : OpId) :
    Sized work (step.cutDelay work id) := by
  obtain ⟨consistent, precedence, remaining, finish, timeline⟩ := sized
  unfold Step.cutDelay
  split
  · dsimp only
    split
    · exact ⟨consistent, precedence, remaining, finish, timeline⟩
    · refine ⟨consistent, precedence, Array.size_setIfInBounds.trans remaining, finish, ?_⟩
      simp only [Timeline.size_occupy, Timeline.size_pad, timeline]
  · exact ⟨consistent, precedence, remaining, finish, timeline⟩

/-- All steps that a run can reach are sized. -/
lemma Reached.sized (reached : Reached work step) (sound : work.Sound) : Sized work step := by
  induction reached with
  | start reached length => exact .start (reached.inOrder sound) length
  | offer _ id ih => exact ih.offer id
  | cutDelay _ id ih => exact ih.cutDelay id

/-- Nothing out of range is looked up in a step that is sized. -/
lemma Sized.inRange (sized : Sized work step) (sound : work.Sound)
    (succLists : work.precedence.succLists.size = work.jobs.size) : step.InRange work where
  residual := sized.consistent.inRange (sized.precedence ▸ sound.size)
    (sized.precedence ▸ succLists)
  remaining := sized.remaining.ge
  finish := sized.finish.ge
  resources := by
    intro job member resource used
    obtain ⟨id, inside, found⟩ := Array.mem_iff_getElem.mp member
    rw [sized.timeline]
    exact sound.declared (Array.getElem?_eq_some_iff.mpr ⟨inside, found⟩) resource used

end Step

/-- Sound workloads are safe.

**Proof sketch.** The run is that of `Sound.exists_grouping`. In each state that can be reached
everything is in order (`Reached.inOrder`, `Reached.sized`), so that draining and filling come to an
end on their own, and all arrays are as long as there are operations. -/
theorem Workload.Sound.safe (sound : work.Sound)
    (succLists : work.precedence.succLists.size = work.jobs.size) : work.Safe where
  runs := by
    obtain ⟨last, ran, -, -, runs⟩ := sound.exists_grouping
    exact ⟨last, ran, runs⟩
  drains := fun _ reached =>
    Residual.drains_drain (reached.inOrder sound).ongoing.toConsistent work
  settles := fun _ reached => Step.settles_fill sound (reached.sized sound).consistent
  residual := fun _ reached => reached.inRange sound.precedence sound.size succLists
  grouping := fun _ reached => (reached.inOrder sound).inRange sound succLists
  step := fun _ reached => (reached.sized sound).inRange sound succLists

end Timetable
