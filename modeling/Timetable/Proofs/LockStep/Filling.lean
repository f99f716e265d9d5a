import Timetable.Proofs.LockStep.Step

/-!
# Filling a timestep

Filling a step and cutting delays behind it come down to single moves: each round offers operations
that were ready when it began, and these stay ready until they are taken themselves. Every round but
the last takes an operation, so there are never more rounds than operations, and the first round
already takes whatever was ready when the step began and is not longer than the step.

## Main definitions

* `Step.Settles` — rounds are repeated until one takes nothing, however many it needs.

## Main results

* `Step.reflTransGen_fill`, `Step.reflTransGen_cutDelays` — filling and cutting are made of moves.
* `Step.settles_fill` — the number of rounds is never exhausted.
* `Step.Filling.not_pending_fill` — what is ready and short enough is taken.
-/

set_option autoImplicit false

namespace Timetable

open Relation

namespace Step

/-- Repeating rounds until one of them takes nothing ends with a step, whatever number of rounds
that takes. -/
inductive Settles (work : Workload) : Step → Step → Prop
  | last {step : Step} (nothing : (step.round work).admitted = step.admitted) :
      Settles work step (step.round work)
  | again {step last : Step} (taken : (step.round work).admitted ≠ step.admitted)
      (rest : Settles work (step.round work) last) : Settles work step last

variable {work : Workload} {begun : Residual} {step next : Step} {job : Job} {id other : OpId}
  {ids : List OpId}

/-! ## What moves leave as it is -/

/-- Taking operations leaves the place of the step and the rest of all operations as they are. -/
lemma Takes.keeps (takes : Takes work step next) : next.origin = step.origin ∧
    next.length = step.length ∧ next.remaining = step.remaining := by
  cases takes with
  | refuse => exact ⟨rfl, rfl, rfl⟩
  | accept => exact ⟨rfl, rfl, rfl⟩

/-- The operations taken and those pending are always the same in number. -/
lemma Takes.admitted_le (takes : Takes work step next) : step.admitted ≤ next.admitted ∧
    next.admitted + next.residual.pending.length =
      step.admitted + step.residual.pending.length := by
  cases takes with
  | refuse => exact ⟨le_rfl, rfl⟩
  | accept _ ready _ _ =>
    have fewer := Residual.length_pending_complete ready
    refine ⟨Nat.le_succ _, ?_⟩
    show step.admitted + 1 + (step.residual.complete _).pending.length = _
    omega

/-- What is pending after taking operations was pending before. -/
lemma Takes.mem_pending (takes : Takes work step next) (left : id ∈ next.residual.pending) :
    id ∈ step.residual.pending := by
  cases takes with
  | refuse => exact left
  | accept => exact Residual.mem_pending_of_mem_complete left

/-- Cutting delays leaves the place of the step and the operations to be done as they are. -/
lemma Cuts.keeps (cuts : Cuts work step next) : next.origin = step.origin ∧
    next.length = step.length ∧ next.residual = step.residual ∧ next.admitted = step.admitted := by
  cases cuts with
  | cut => exact ⟨rfl, rfl, rfl, rfl⟩

/-! ## Offers and rounds are made of moves -/

/-- Offering a ready operation is at most one move.

**Proof sketch.** The cases of the definition: an offer that changes nothing, a refusal, or an
acceptance. -/
lemma reflTransGen_offer (sound : work.Sound) (ready : id ∈ step.residual.frontier) :
    ReflTransGen (Takes work) step (step.offer work id) := by
  unfold offer
  split
  · exact .refl
  · rename_i job found
    obtain rfl := sound.numbered found
    split
    · exact .refl
    · rename_i plain
      dsimp only
      split
      · exact .single (.refuse _ _)
      · rename_i fits
        exact .single (.accept found ready (by simpa using plain) (Nat.le_of_not_lt fits))

/-- An offer completes nothing but the operation that is offered. -/
lemma residual_offer (sound : work.Sound) (step : Step) (id : OpId) :
    (step.offer work id).residual = step.residual ∨
      (step.offer work id).residual = step.residual.complete id := by
  unfold offer
  split
  · exact .inl rfl
  · rename_i job found
    obtain rfl := sound.numbered found
    split
    · exact .inl rfl
    · dsimp only
      split
      · exact .inl rfl
      · exact .inr rfl

/-- After an offer the counts are still right, and the other ready operations are still ready. -/
lemma ready_offer (sound : work.Sound) (consistent : step.residual.Consistent) (id : OpId) :
    (step.offer work id).residual.Consistent ∧ ∀ other ∈ step.residual.frontier, other ≠ id →
      other ∈ (step.offer work id).residual.frontier := by
  rcases residual_offer sound step id with same | completed
  · rw [same]
    exact ⟨consistent, fun other ready _ => ready⟩
  · rw [completed]
    exact ⟨consistent.complete id, fun other ready distinct =>
      consistent.mem_frontier_complete ready distinct⟩

/-- Offering ready operations one after the other is made of moves. -/
lemma reflTransGen_foldl_offer (sound : work.Sound) (consistent : step.residual.Consistent)
    (nodup : ids.Nodup) (ready : ∀ id ∈ ids, id ∈ step.residual.frontier) :
    ReflTransGen (Takes work) step (ids.foldl (offer work) step) := by
  induction ids generalizing step with
  | nil => exact .refl
  | cons id ids ih =>
    obtain ⟨fresh, nodup⟩ := List.nodup_cons.mp nodup
    obtain ⟨consistent', still⟩ := ready_offer sound consistent id
    refine (reflTransGen_offer sound (ready id List.mem_cons_self)).trans
      (ih consistent' nodup ?_)
    intro other member
    exact still other (ready other (List.mem_cons_of_mem _ member))
      (ne_of_mem_of_not_mem member fresh)

/-- A round is made of moves. -/
lemma reflTransGen_round (sound : work.Sound) (consistent : step.residual.Consistent) :
    ReflTransGen (Takes work) step (step.round work) :=
  reflTransGen_foldl_offer sound consistent consistent.nodup_frontier fun _ ready => ready

/-- Moves keep the counts right. -/
lemma consistent_of_takes (consistent : step.residual.Consistent)
    (moves : ReflTransGen (Takes work) step next) : next.residual.Consistent := by
  induction moves with
  | refl => exact consistent
  | tail _ takes ih =>
    cases takes with
    | refuse => exact ih
    | accept => exact ih.complete _

/-- Rounds are made of moves. -/
lemma reflTransGen_rounds (sound : work.Sound) (consistent : step.residual.Consistent)
    (times : Nat) : ReflTransGen (Takes work) step (step.rounds work times) := by
  induction times generalizing step with
  | zero => exact .refl
  | succ times ih =>
    have moves := reflTransGen_round sound consistent
    unfold rounds
    dsimp only
    split
    · exact moves
    · exact moves.trans (ih (consistent_of_takes consistent moves))

/-- Filling a step is made of moves.

**Proof sketch.** Filling is a bounded number of rounds, and each of them offers ready operations
one by one. -/
theorem reflTransGen_fill (sound : work.Sound) (consistent : step.residual.Consistent) :
    ReflTransGen (Takes work) step (step.fill work) :=
  reflTransGen_rounds sound consistent _

/-! ## There are rounds enough -/

/-- Moves never give back an operation, and the operations taken and those pending stay the same in
number. -/
lemma admitted_le_of_takes (moves : ReflTransGen (Takes work) step next) :
    step.admitted ≤ next.admitted ∧ next.admitted + next.residual.pending.length =
      step.admitted + step.residual.pending.length := by
  induction moves with
  | refl => exact ⟨le_rfl, rfl⟩
  | tail _ takes ih =>
    obtain ⟨more, same⟩ := takes.admitted_le
    exact ⟨ih.1.trans more, same.trans ih.2⟩

/-- As many rounds as there are pending operations are enough to end with one that takes nothing.

**Proof sketch.** Induction on the number of rounds. A round that takes nothing is the last one. Any
other round completes an operation, so that fewer are pending, and when nothing is pending a round
takes nothing. -/
lemma settles_rounds (sound : work.Sound) (consistent : step.residual.Consistent) {times : Nat}
    (enough : step.residual.pending.length ≤ times) :
    Settles work step (step.rounds work times) := by
  induction times generalizing step with
  | zero =>
    have none : step.residual.pending = [] := List.length_eq_zero_iff.mp (Nat.le_zero.mp enough)
    have same : step.round work = step := by
      simp [round, Residual.frontier, none]
    have settles := Settles.last (congrArg admitted same)
    rw [same] at settles
    exact settles
  | succ times ih =>
    have moves := reflTransGen_round sound consistent
    obtain ⟨more, same⟩ := admitted_le_of_takes moves
    unfold rounds
    dsimp only
    split
    · rename_i nothing
      exact .last nothing
    · rename_i taken
      refine .again taken (ih (consistent_of_takes consistent moves) ?_)
      omega

/-- Filling a step goes on until a round takes nothing.

**Proof sketch.** Filling makes as many rounds as operations are pending (`settles_rounds`). -/
theorem settles_fill (sound : work.Sound) (consistent : step.residual.Consistent) :
    Settles work step (step.fill work) :=
  settles_rounds sound consistent le_rfl

/-! ## What the first round takes -/

/-- Moves leave the place of the step and the rest of all operations as they are. -/
lemma keeps_of_takes (moves : ReflTransGen (Takes work) step next) : next.origin = step.origin ∧
    next.length = step.length ∧ next.remaining = step.remaining := by
  induction moves with
  | refl => exact ⟨rfl, rfl, rfl⟩
  | tail _ takes ih =>
    obtain ⟨origin, length, remaining⟩ := takes.keeps
    exact ⟨origin.trans ih.1, length.trans ih.2.1, remaining.trans ih.2.2⟩

/-- What was completed stays so. -/
lemma not_pending_of_takes (moves : ReflTransGen (Takes work) step next)
    (done : id ∉ step.residual.pending) : id ∉ next.residual.pending := by
  induction moves with
  | refl => exact done
  | tail _ takes ih => exact fun left => ih (takes.mem_pending left)

namespace Filling

/-- Moves keep operations with entries completed. -/
lemma of_takes (filling : Filling work begun step) (sound : work.Sound)
    (moves : ReflTransGen (Takes work) step next) : Filling work begun next := by
  induction moves with
  | refl => exact filling
  | tail _ takes ih => exact ih.takes sound takes

/-- An operation that was ready when the step began, is still pending, and is not longer than the
step is taken when it is offered.

**Proof sketch.** As the operation was ready when the step began it could start at tick zero of the
step, and then it fits. So the offer is accepted, which completes the operation. -/
lemma not_pending_offer (filling : Filling work begun step) (sound : work.Sound)
    (found : work.jobs[id]? = some job) (plain : job.operation.isTimestep = false)
    (begun_ready : id ∈ begun.frontier) (ready : id ∈ step.residual.frontier)
    (short : step.left id ≤ step.length) : id ∉ (step.offer work id).residual.pending := by
  obtain rfl := sound.numbered found
  have pending := Residual.mem_pending_of_mem_frontier ready
  have origin :=
    filling.earliest_eq_zero sound found begun_ready pending (filling.untouched pending)
  have fits : ¬ step.length < step.earliest work job + step.left job.id := by
    rw [origin, Nat.zero_add]
    exact Nat.not_lt.mpr short
  have taken : step.offer work job.id = step.accept job (step.earliest work job) := by
    unfold offer
    simp only [found, plain, Bool.false_eq_true, if_false, if_neg fits]
  rw [taken]
  show job.id ∉ (step.residual.complete job.id).pending
  rw [filling.ongoing.mem_pending_complete ready]
  exact fun left => left.1 rfl

/-- Offering ready operations takes all of them that were ready when the step began and are not
longer than the step.

**Proof sketch.** Induction on the operations that are offered. When the turn of the operation
comes, it is taken, since it starts at tick zero (`not_pending_offer`), and it stays completed.
Offers before that change neither the length of the step nor what is left of the operation, and
leave it ready. -/
lemma not_pending_foldl_offer (filling : Filling work begun step) (sound : work.Sound)
    (nodup : ids.Nodup) (ready : ∀ id ∈ ids, id ∈ step.residual.frontier) (among : id ∈ ids)
    (found : work.jobs[id]? = some job) (plain : job.operation.isTimestep = false)
    (begun_ready : id ∈ begun.frontier) (short : step.left id ≤ step.length) :
    id ∉ (ids.foldl (offer work) step).residual.pending := by
  induction ids generalizing step with
  | nil => cases among
  | cons first ids ih =>
    obtain ⟨fresh, others_nodup⟩ := List.nodup_cons.mp nodup
    have first_ready := ready first List.mem_cons_self
    obtain ⟨consistent, still⟩ := ready_offer sound filling.ongoing.toConsistent first
    have later : ∀ other ∈ ids, other ∈ (step.offer work first).residual.frontier :=
      fun other member => still other (ready other (List.mem_cons_of_mem _ member))
        (ne_of_mem_of_not_mem member fresh)
    rw [List.foldl_cons]
    rcases List.mem_cons.mp among with same | among
    · subst same
      have done := filling.not_pending_offer sound found plain begun_ready first_ready short
      exact not_pending_of_takes (reflTransGen_foldl_offer sound consistent others_nodup later) done
    · have moves := reflTransGen_offer sound first_ready
      obtain ⟨-, length, remaining⟩ := keeps_of_takes moves
      refine ih (filling.of_takes sound moves) others_nodup later among ?_
      rw [length, left, remaining]
      exact short

/-- Filling a step takes whatever was ready when it began and is not longer than the step.

**Proof sketch.** The first round offers everything that is ready (`not_pending_foldl_offer`), and
further rounds leave completed what is completed. -/
theorem not_pending_fill (filling : Filling work step.residual step) (sound : work.Sound)
    (found : work.jobs[id]? = some job) (plain : job.operation.isTimestep = false)
    (ready : id ∈ step.residual.frontier) (short : step.left id ≤ step.length) :
    id ∉ (step.fill work).residual.pending := by
  have consistent := filling.ongoing.toConsistent
  have done : id ∉ (step.round work).residual.pending :=
    filling.not_pending_foldl_offer sound consistent.nodup_frontier (fun _ ready => ready) ready
      found plain ready short
  have pending := List.length_pos_of_mem (Residual.mem_pending_of_mem_frontier ready)
  obtain ⟨times, rounds⟩ := Nat.exists_eq_add_one_of_ne_zero pending.ne'
  rw [fill, rounds, Step.rounds]
  split
  · exact done
  · have moves := reflTransGen_round sound consistent
    exact not_pending_of_takes
      (reflTransGen_rounds sound (consistent_of_takes consistent moves) times) done

end Filling

/-! ## Cutting delays -/

/-- Trying to cut a ready delay is at most one move. -/
lemma reflTransGen_cutDelay (sound : work.Sound) (ready : id ∈ step.residual.frontier) :
    ReflTransGen (Cuts work) step (step.cutDelay work id) := by
  unfold cutDelay
  split
  · rename_i number span resource ticks found
    obtain rfl : number = id := sound.numbered found
    dsimp only
    split
    · exact .refl
    · rename_i long
      obtain ⟨room, long⟩ := not_or.mp long
      exact .single (.cut found rfl ready (Nat.lt_of_not_le room) (Nat.lt_of_not_le long))
  · exact .refl

/-- Cutting delays moves nothing in the frontier. -/
lemma residual_of_cuts (moves : ReflTransGen (Cuts work) step next) :
    next.residual = step.residual := by
  induction moves with
  | refl => rfl
  | tail _ cuts ih => exact cuts.keeps.2.2.1.trans ih

/-- Cutting ready delays one after the other is made of moves. -/
lemma reflTransGen_foldl_cutDelay (sound : work.Sound)
    (ready : ∀ id ∈ ids, id ∈ step.residual.frontier) :
    ReflTransGen (Cuts work) step (ids.foldl (cutDelay work) step) := by
  induction ids generalizing step with
  | nil => exact .refl
  | cons id ids ih =>
    have moves := reflTransGen_cutDelay sound (ready id List.mem_cons_self)
    refine moves.trans (ih ?_)
    intro other member
    rw [residual_of_cuts moves]
    exact ready other (List.mem_cons_of_mem _ member)

/-- Cutting delays is made of moves.

**Proof sketch.** Every delay that is offered was ready, and cutting leaves the frontier alone. -/
theorem reflTransGen_cutDelays (sound : work.Sound) (step : Step) :
    ReflTransGen (Cuts work) step (step.cutDelays work) :=
  reflTransGen_foldl_cutDelay sound fun _ ready => ready

end Step

end Timetable
