import Timetable.Proofs.LockStep.Dominance
import Timetable.Proofs.LockStep.Ledger

/-!
# A lock-step run comes to its end

Each step begins with completing the timesteps that are ready. If operations are left then, some of
them are ready, as nothing waits for itself, and the dominant one among them is completed in the
step. So the steps never outnumber the operations, and a run within the bound completes all of them.

## Main definitions

* `Residual.Drains` — timesteps of the frontier are completed until none is in it.
* `Grouping.InOrder` — what a step needs to find.
* `Grouping.Makes` — what a step of a certain length makes of it.
* `Grouping.Bounded`, `Grouping.Advances` — what any step makes of it.
* `Grouping.Runs` — steps are made until everything is completed.

## Main results

* `Residual.drains_drain` — the number of rounds is never exhausted.
* `Grouping.InOrder.exists_advance` — a step always succeeds.
* `Grouping.Advances.length_pending_lt` — and leaves less to be done.
* `Workload.Sound.exists_grouping` — a run ends with everything completed.
-/

set_option autoImplicit false

namespace Timetable

open Relation

variable {work : Workload} {residual rest : Residual} {ids markers : List OpId} {id : OpId}

/-! ## Completing carried timesteps -/

namespace Residual

/-- Completing the timesteps of the frontier again and again, until none is in it, however many
rounds that takes. -/
inductive Drains (work : Workload) : Residual → List OpId → Residual → Prop
  | last {residual : Residual} (none : residual.frontier.filter work.isTimestep = []) :
      Drains work residual [] residual
  | again {residual rest : Residual} {ids : List OpId}
      (ready : residual.frontier.filter work.isTimestep ≠ [])
      (more : Drains work ((residual.frontier.filter work.isTimestep).foldl complete residual) ids
        rest) : Drains work residual (residual.frontier.filter work.isTimestep ++ ids) rest

/-- Some timesteps were completed one after the other, and none is ready any more. -/
structure Drained (work : Workload) (residual : Residual) (markers : List OpId) (rest : Residual) :
    Prop where
  completes : Completes residual markers rest
  timestep : ∀ id ∈ markers, work.isTimestep id = true
  plain : ∀ id ∈ rest.frontier, work.isTimestep id = false

/-- The timesteps of a frontier can be completed one after the other. -/
lemma Consistent.completes_timesteps (consistent : residual.Consistent) (work : Workload) :
    Completes residual (residual.frontier.filter work.isTimestep)
      ((residual.frontier.filter work.isTimestep).foldl Residual.complete residual) :=
  consistent.completes_foldl (consistent.nodup_frontier.filter _) fun _ member =>
    (List.mem_filter.mp member).1

/-- As many rounds as there are pending operations are enough.

**Proof sketch.** Induction on the number of rounds. A round in which no timestep is ready is the
last one, and any other round completes some, so that fewer are pending. -/
lemma drains_drainRounds (consistent : residual.Consistent) {times : Nat}
    (enough : residual.pending.length ≤ times) :
    Drains work residual (residual.drainRounds work times).1
      (residual.drainRounds work times).2 := by
  induction times generalizing residual with
  | zero =>
    have none : residual.pending = [] := List.length_eq_zero_iff.mp (Nat.le_zero.mp enough)
    exact .last (by simp [frontier, none])
  | succ times ih =>
    unfold drainRounds
    split
    · rename_i none
      exact .last none
    · rename_i ready
      have completes := consistent.completes_timesteps work
      have fewer := completes.perm.length_eq
      have some_ready := List.length_pos_iff.mpr ready
      rw [List.length_append] at fewer
      exact .again ready (ih (completes.consistent consistent) (by omega))

/-- Draining goes on until no timestep is ready.

**Proof sketch.** Draining makes as many rounds as operations are pending (`drains_drainRounds`). -/
theorem drains_drain (consistent : residual.Consistent) (work : Workload) :
    Drains work residual (residual.drain work).1 (residual.drain work).2 :=
  drains_drainRounds consistent le_rfl

/-- Draining completes timesteps, and leaves none of them ready.

**Proof sketch.** Induction on draining. Each round completes the timesteps that are ready, and the
last one found none. -/
lemma Drains.drained (drains : Drains work residual markers rest)
    (consistent : residual.Consistent) : Drained work residual markers rest := by
  induction drains with
  | last none =>
    refine ⟨.nil _, by simp, ?_⟩
    intro id ready
    simpa using List.filter_eq_nil_iff.mp none id ready
  | again _ _ ih =>
    have completes := consistent.completes_timesteps work
    obtain ⟨later, timestep, plain⟩ := ih (completes.consistent consistent)
    refine ⟨completes.append later, ?_, plain⟩
    intro id member
    rcases List.mem_append.mp member with here | there
    · exact (List.mem_filter.mp here).2
    · exact timestep id there

end Residual

/-- The loose ones and the one that opens a step are among the timesteps that are ready. -/
lemma Workload.mem_markers (work : Workload)
    (member : id ∈ work.loose markers ++ (work.opening? markers).toList) : id ∈ markers := by
  cases side : work.side with
  | closing => simpa [loose, opening?, side] using member
  | opening =>
    simp only [loose, opening?, side, List.mem_append, Option.mem_toList] at member
    exact member.elim List.mem_of_mem_tail List.mem_of_mem_head?

namespace Grouping

variable {grouping next last : Grouping} {length : Tick}

/-! ## Empty steps -/

/-- The group of an empty step, which a timestep closes. -/
def emptyGroup (work : Workload) (elapsed : Tick) (id : OpId) : Group :=
  ⟨[], .boundary 0 work.resources elapsed (some id)⟩

/-- Closing empty steps adds their groups, and changes nothing else but notes. -/
lemma foldl_emptyStep (work : Workload) (ids : List OpId) (grouping : Grouping) :
    (ids.foldl (emptyStep work) grouping).residual = grouping.residual ∧
      (ids.foldl (emptyStep work) grouping).remaining = grouping.remaining ∧
      (ids.foldl (emptyStep work) grouping).elapsed = grouping.elapsed ∧
      (ids.foldl (emptyStep work) grouping).groups =
        grouping.groups ++ ids.map (emptyGroup work grouping.elapsed) := by
  induction ids generalizing grouping with
  | nil => simp
  | cons id ids ih =>
    obtain ⟨residual, remaining, elapsed, groups⟩ := ih (grouping.emptyStep work id)
    refine ⟨residual, remaining, elapsed, groups.trans ?_⟩
    simp [emptyStep, emptyGroup]

/-- Closing a step adds its group. -/
lemma groups_close (work : Workload) (opening : Option OpId) (grouping : Grouping)
    (dominant : OpId) (filled : Step) :
    (grouping.close work opening dominant filled).groups = grouping.groups ++
      [⟨(filled.cutDelays work).padded.entries,
        .boundary (filled.cutDelays work).length work.resources
          (grouping.elapsed + (filled.cutDelays work).length)
          (work.boundary? opening (filled.cutDelays work).residual)⟩] :=
  rfl

/-- What a step begins with: what was left when timesteps were completed, and empty steps closed by
the loose ones of them. -/
lemma begun_eq (work : Workload) (grouping : Grouping) (markers : List OpId) (rest : Residual) :
    (grouping.begun work markers rest).residual = rest ∧
      (grouping.begun work markers rest).remaining = grouping.remaining ∧
      (grouping.begun work markers rest).elapsed = grouping.elapsed ∧
      (grouping.begun work markers rest).groups = grouping.groups ++
        (work.loose markers).map (emptyGroup work grouping.elapsed) :=
  foldl_emptyStep work (work.loose markers) _

/-- Taking a note of what is ready leaves what a step begins with as it is. -/
lemma exists_noted (work : Workload) (grouping : Grouping) (markers : List OpId)
    (rest : Residual) : let begun := grouping.begun work markers rest
    ∃ noted, begun.note (.frontier begun.steps begun.residual.frontier) = noted ∧
      noted.residual = rest ∧ noted.remaining = grouping.remaining ∧
      noted.elapsed = grouping.elapsed ∧ noted.groups = grouping.groups ++
        (work.loose markers).map (emptyGroup work grouping.elapsed) :=
  ⟨_, rfl, begun_eq work grouping markers rest⟩

/-! ## One step -/

/-- What a step finds: the counts are right, and every operation knows how much of it is left. -/
structure InOrder (work : Workload) (grouping : Grouping) : Prop where
  ongoing : grouping.residual.Ongoing
  precedence : grouping.residual.precedence = work.precedence
  size : grouping.remaining.size = work.jobs.size

/-- How timesteps bound a step that begins with `markers` and ends with `residual` to be done. If
they close steps, the boundary may be made from one that is ready at the end, and completes it. If
they open steps, it is made from the first of the markers, which is completed already. -/
inductive Bounded (work : Workload) (markers : List OpId) (residual : Residual)
    (source : Option OpId) (last : Residual) : Prop
  | unnamed (side : work.side = .closing) (source_eq : source = none) (last_eq : last = residual)
  | closed {id : OpId} (side : work.side = .closing) (source_eq : source = some id)
      (ready : id ∈ residual.frontier) (timestep : work.isTimestep id = true)
      (last_eq : last = residual.complete id)
  | opened (side : work.side = .opening) (source_eq : source = markers.head?)
      (last_eq : last = residual)

/-- What a step makes of a grouping. The timesteps that are ready are completed first. If that was
all, they close empty steps. Otherwise a step is made for an operation that is ready then; behind
the empty steps of the loose timesteps comes its group, closed by a boundary that may be made from a
timestep, which is completed too. No ready delay is passed over unless the step is empty. -/
inductive Advances (work : Workload) (grouping next : Grouping) : Prop
  | finish {markers : List OpId} {rest : Residual}
      (drained : grouping.residual.Drained work markers rest) (done : rest.pending = [])
      (residual : next.residual = rest) (remaining : next.remaining = grouping.remaining)
      (elapsed : next.elapsed = grouping.elapsed)
      (groups : next.groups = grouping.groups ++
        (work.loose markers ++ (work.opening? markers).toList).map
          (emptyGroup work grouping.elapsed))
  | step {markers : List OpId} {rest : Residual} {id : OpId} {length : Tick} {step : Step}
      {source : Option OpId}
      (drained : grouping.residual.Drained work markers rest) (ready : id ∈ rest.frontier)
      (length_eq : length = grouping.remaining[id]?.getD 0)
      (recorded : Step.Recorded work rest grouping.remaining grouping.elapsed length step)
      (done : id ∉ step.residual.pending)
      (progress : ∀ id ∈ rest.frontier, work.isDelay id = true → 0 < length →
        partsOf id step.entries ≠ [])
      (bounded : Bounded work markers step.residual source next.residual)
      (remaining : next.remaining = step.remaining)
      (elapsed : next.elapsed = grouping.elapsed + length)
      (groups : next.groups = grouping.groups ++
        (work.loose markers).map (emptyGroup work grouping.elapsed) ++
          [⟨step.padded.entries,
            .boundary length work.resources (grouping.elapsed + length) source⟩])

/-- A step of `length` ticks is made when the timesteps `markers` were completed and `rest` was left
to be done: behind the empty steps of the loose timesteps comes its group, closed by a boundary that
may be made from a timestep, which is completed too. -/
structure Makes (work : Workload) (grouping : Grouping) (markers : List OpId) (rest : Residual)
    (length : Tick) (next : Grouping) : Prop where
  residual : next.residual = (work.boundary? (work.opening? markers)
    (Step.made work rest grouping.remaining grouping.elapsed length).residual).toList.foldl
      Residual.complete (Step.made work rest grouping.remaining grouping.elapsed length).residual
  remaining : next.remaining =
    (Step.made work rest grouping.remaining grouping.elapsed length).remaining
  elapsed : next.elapsed = grouping.elapsed + length
  groups : next.groups = grouping.groups ++
    (work.loose markers).map (emptyGroup work grouping.elapsed) ++
      [⟨(Step.made work rest grouping.remaining grouping.elapsed length).padded.entries,
        .boundary length work.resources (grouping.elapsed + length)
          (work.boundary? (work.opening? markers)
            (Step.made work rest grouping.remaining grouping.elapsed length).residual)⟩]

/-- Making steps until everything is completed, however many that takes. -/
inductive Runs (work : Workload) : Grouping → Grouping → Prop
  | done {grouping : Grouping} (done : grouping.residual.isDone = true) :
      Runs work grouping grouping
  | step {grouping next last : Grouping} (left : grouping.residual.isDone = false)
      (advanced : grouping.advance work = (next, none)) (rest : Runs work next last) :
      Runs work grouping last

/-- The boundary of a step bounds it. Timesteps that were completed when it began are not pending
any more.

**Proof sketch.** If timesteps close steps, the boundary is the first one that is ready behind the
step, or has no name. If they open steps, it is the first one that was completed when the step
began, and completing it once more does nothing. -/
lemma bounded_boundary (completed : ∀ id ∈ markers, id ∉ residual.pending) :
    Bounded work markers residual (work.boundary? (work.opening? markers) residual)
      ((work.boundary? (work.opening? markers) residual).toList.foldl Residual.complete
        residual) := by
  cases side : work.side with
  | closing =>
    simp only [Workload.boundary?, side]
    cases found : residual.frontier.find? work.isTimestep with
    | none => exact .unnamed side rfl rfl
    | some id =>
      exact .closed side rfl (List.mem_of_find?_eq_some found) (List.find?_some found) rfl
  | opening =>
    simp only [Workload.boundary?, Workload.opening?, side]
    refine .opened side rfl ?_
    cases markers with
    | nil => rfl
    | cons id markers =>
      have done := completed id List.mem_cons_self
      exact Residual.complete_of_notMem fun ready =>
        done (Residual.mem_pending_of_mem_frontier ready)

/-- Bounding a step keeps the counts right, and gives no operation back. -/
lemma Bounded.ongoing {source : Option OpId} {last : Residual}
    (bounded : Bounded work markers residual source last) (ongoing : residual.Ongoing) :
    last.Ongoing ∧ last.precedence = residual.precedence ∧
      ∀ id ∈ last.pending, id ∈ residual.pending := by
  cases bounded with
  | unnamed _ _ same | opened _ _ same =>
    subst same
    exact ⟨ongoing, rfl, fun _ left => left⟩
  | closed _ _ _ _ same =>
    subst same
    exact ⟨ongoing.complete _, Residual.precedence_complete _ _,
      fun _ => Residual.mem_pending_of_mem_complete⟩

/-- A boundary is made from a timestep that was completed when the step began, or from one that is
pending when it ends. -/
lemma Bounded.source_mem {source : Option OpId} {last : Residual}
    (bounded : Bounded work markers residual source last) (made : source = some id) :
    id ∈ markers ∨ id ∈ residual.pending := by
  subst made
  cases bounded with
  | unnamed _ none _ => cases none
  | closed _ same ready _ _ =>
    cases same
    exact .inr (Residual.mem_pending_of_mem_frontier ready)
  | opened _ first _ => exact .inl (List.mem_of_mem_head? first.symm)

/-- A step leaves less to be done.

**Proof sketch.** A step at the end leaves nothing. Any other step completes the operation it was
made for, and whatever is pending behind the step was pending before. -/
theorem Advances.length_pending_lt (advances : Advances work grouping next)
    (left : grouping.residual.pending ≠ []) :
    next.residual.pending.length < grouping.residual.pending.length := by
  cases advances with
  | finish _ done residual _ _ _ =>
    rw [residual, done]
    exact List.length_pos_iff.mpr left
  | @step markers rest id _ _ _ drained ready _ recorded done _ bounded _ _ _ =>
    obtain ⟨ongoing, -, fewer⟩ := bounded.ongoing recorded.ongoing
    have pending := drained.completes.mem_pending (Residual.mem_pending_of_mem_frontier ready)
    have distinct : ∀ other ∈ next.residual.pending,
        other ∈ grouping.residual.pending.erase id := by
      intro other left
      have kept := fewer other left
      refine (List.mem_erase_of_ne ?_).mpr
        (drained.completes.mem_pending (recorded.pending other kept))
      rintro rfl
      exact done kept
    have less := (List.subperm_of_subset ongoing.nodup distinct).length_le
    have positive := List.length_pos_of_mem pending
    rw [List.length_erase_of_mem pending] at less
    omega

namespace InOrder

/-- Completing the timesteps that are ready leaves none of them. -/
lemma drained (inOrder : InOrder work grouping) : grouping.residual.Drained work
    (grouping.residual.drain work).1 (grouping.residual.drain work).2 :=
  (Residual.drains_drain inOrder.ongoing.toConsistent work).drained inOrder.ongoing.toConsistent

/-- Completing timesteps keeps a grouping in order. -/
lemma of_drained (inOrder : InOrder work grouping)
    (drained : grouping.residual.Drained work markers rest) :
    rest.Ongoing ∧ rest.precedence = work.precedence :=
  ⟨drained.completes.ongoing inOrder.ongoing,
    drained.completes.precedence_eq.trans inOrder.precedence⟩

/-- An operation that is ready when a step is made is no timestep. -/
lemma exists_plain_job (inOrder : InOrder work grouping) (sound : work.Sound)
    (drained : grouping.residual.Drained work markers rest) (ready : id ∈ rest.frontier) :
    ∃ job, work.jobs[id]? = some job ∧ job.operation.isTimestep = false := by
  obtain ⟨ongoing, same⟩ := inOrder.of_drained drained
  obtain ⟨job, found, -⟩ :=
    sound.exists_job ongoing same (Residual.mem_pending_of_mem_frontier ready)
  refine ⟨job, found, ?_⟩
  simpa [Workload.isTimestep, found] using drained.plain id ready

/-- The record of a step. -/
lemma recorded (inOrder : InOrder work grouping) (sound : work.Sound)
    (drained : grouping.residual.Drained work markers rest) (length : Tick) :
    Step.Recorded work rest grouping.remaining grouping.elapsed length
      (Step.made work rest grouping.remaining grouping.elapsed length) := by
  obtain ⟨ongoing, same⟩ := inOrder.of_drained drained
  exact Step.recorded_made sound ongoing same inOrder.size _ _

/-- If the timesteps that are ready are all that is left, they close empty steps. -/
lemma advance_of_done (drain : grouping.residual.drain work = (markers, rest))
    (done : rest.pending = []) : ∃ next, grouping.advance work = (next, none) ∧
      next.residual = rest ∧ next.remaining = grouping.remaining ∧
      next.elapsed = grouping.elapsed ∧ next.groups = grouping.groups ++
        (work.loose markers ++ (work.opening? markers).toList).map
          (emptyGroup work grouping.elapsed) := by
  obtain ⟨residual, remaining, elapsed, groups⟩ := begun_eq work grouping markers rest
  have finished : (grouping.begun work markers rest).residual.isDone = true := by
    rw [residual, Residual.isDone, List.isEmpty_iff, done]
  unfold advance
  rw [drain]
  simp only [finished, if_true]
  obtain ⟨residual', remaining', elapsed', groups'⟩ := foldl_emptyStep work
    (work.opening? markers).toList (grouping.begun work markers rest)
  refine ⟨_, rfl, residual'.trans residual, remaining'.trans remaining, elapsed'.trans elapsed, ?_⟩
  rw [groups', groups, elapsed, List.map_append, List.append_assoc]

/-- Otherwise a step succeeds, and is made for a dominant operation.

**Proof sketch.** Something is left and nothing waits in a circle, so operations are ready, and one
of them is dominant (`exists_dominant`). It is taken by the step, so that the step does not fail for
having taken none. The rest is read off the definition. -/
lemma advance_of_left (inOrder : InOrder work grouping) (sound : work.Sound)
    (drain : grouping.residual.drain work = (markers, rest)) (left : rest.pending ≠ []) :
    ∃ id length next, work.Dominant rest.frontier grouping.remaining id length ∧
      grouping.advance work = (next, none) ∧ Makes work grouping markers rest length next := by
  have drained := inOrder.drained
  simp only [drain] at drained
  obtain ⟨ongoing, same⟩ := inOrder.of_drained drained
  have unfinished : ¬ (grouping.begun work markers rest).residual.isDone = true := by
    rwa [(begun_eq work grouping markers rest).1, Residual.isDone, List.isEmpty_iff]
  unfold advance
  rw [drain]
  dsimp only
  rw [if_neg unfinished]
  have acyclic := sound.acyclic
  rw [← same] at acyclic
  have some_ready := ongoing.frontier_ne_nil acyclic left
  obtain ⟨noted, note, rfl, remaining, elapsed, groups⟩ := exists_noted work grouping markers rest
  rw [note]
  obtain ⟨key, found⟩ := exists_dominant work some_ready
  have dominant := dominant_of_dominant? found
  rw [remaining] at dominant
  obtain ⟨job, found_job, plain⟩ := inOrder.exists_plain_job sound drained dominant.among
  have filled : noted.filled work key = (Step.start work noted.residual grouping.remaining
      grouping.elapsed key.duration).fill work := by
    rw [Grouping.filled, remaining, elapsed]
  have admitted := (Step.dominant_fill sound ongoing same inOrder.size grouping.elapsed found_job
    plain dominant.among).2
  rw [← dominant.length_eq] at admitted
  have length := (inOrder.recorded sound drained key.duration).length_eq
  simp only [found, filled, if_neg admitted]
  refine ⟨key.id, key.duration, _, dominant, rfl, rfl, rfl, ?_, ?_⟩
  · exact congrArg₂ (· + ·) elapsed length
  · rw [groups_close, ← Step.made, length, groups, elapsed]

/-- A step succeeds, whatever is left.

**Proof sketch.** If draining leaves nothing, the step is the last one. Otherwise it is made for a
dominant operation (`advance_of_left`), which it completes; every ready delay has a part in it
(`Step.parts_made_ne_nil`), and its boundary is one that `bounded_boundary` allows. -/
theorem exists_advance (inOrder : InOrder work grouping) (sound : work.Sound) :
    ∃ next, grouping.advance work = (next, none) ∧ Advances work grouping next := by
  obtain ⟨markers, rest, drain⟩ : ∃ markers rest, grouping.residual.drain work = (markers, rest) :=
    ⟨_, _, rfl⟩
  have drained := inOrder.drained
  simp only [drain] at drained
  obtain ⟨ongoing, same⟩ := inOrder.of_drained drained
  rcases eq_or_ne rest.pending [] with done | left
  · obtain ⟨next, advanced, residual, remaining, elapsed, groups⟩ := advance_of_done drain done
    exact ⟨next, advanced, .finish drained done residual remaining elapsed groups⟩
  · obtain ⟨id, length, next, dominant, advanced, makes⟩ := inOrder.advance_of_left sound drain left
    obtain ⟨job, found, plain⟩ := inOrder.exists_plain_job sound drained dominant.among
    have recorded := inOrder.recorded sound drained length
    refine ⟨next, advanced, .step drained dominant.among dominant.length_eq recorded ?_ ?_ ?_
      makes.remaining makes.elapsed makes.groups⟩
    · rw [Step.made, Step.residual_of_cuts (Step.reflTransGen_cutDelays sound _),
        dominant.length_eq]
      exact (Step.dominant_fill sound ongoing same inOrder.size grouping.elapsed found plain
        dominant.among).1
    · intro id ready delay positive
      exact Step.parts_made_ne_nil sound ongoing same inOrder.size _ delay ready positive
    · rw [makes.residual]
      refine bounded_boundary fun id member pending => ?_
      exact (List.nodup_append.mp (drained.completes.perm.nodup_iff.mp inOrder.ongoing.nodup)).2.2
        id member id (recorded.pending id pending) rfl

/-- A step leaves a grouping in order. -/
lemma of_advances (inOrder : InOrder work grouping)
    (advances : Advances work grouping next) : InOrder work next := by
  cases advances with
  | finish drained _ residual remaining _ _ =>
    obtain ⟨ongoing, same⟩ := inOrder.of_drained drained
    exact ⟨residual ▸ ongoing, residual ▸ same, remaining ▸ inOrder.size⟩
  | step _ _ _ recorded _ _ bounded remaining _ _ =>
    obtain ⟨ongoing, same, -⟩ := bounded.ongoing recorded.ongoing
    exact ⟨ongoing, same.trans recorded.precedence, remaining ▸ recorded.remaining_size⟩

/-- Steps leave a grouping in order. -/
lemma of_run (inOrder : InOrder work grouping)
    (advances : ReflTransGen (Advances work) grouping next) : InOrder work next := by
  induction advances with
  | refl => exact inOrder
  | tail _ advances ih => exact ih.of_advances advances

/-- As many steps as there are pending operations complete all of them, so the bound on their number
is not what ends a run.

**Proof sketch.** Induction on the budget. A run that is not done makes a step (`exists_advance`),
which leaves fewer operations pending. -/
lemma exists_run (inOrder : InOrder work grouping) (sound : work.Sound) (bound : Nat)
    {budget : Nat} (enough : grouping.residual.pending.length ≤ budget) :
    ∃ last, grouping.run work bound budget = (last, none) ∧ last.residual.pending = [] ∧
      ReflTransGen (Advances work) grouping last ∧ Runs work grouping last := by
  induction budget generalizing grouping with
  | zero =>
    have none : grouping.residual.pending = [] :=
      List.length_eq_zero_iff.mp (Nat.le_zero.mp enough)
    have done : grouping.residual.isDone = true := List.isEmpty_iff.mpr none
    exact ⟨grouping, by simp [run, done], none, .refl, .done done⟩
  | succ budget ih =>
    unfold run
    split
    · rename_i done
      exact ⟨grouping, rfl, List.isEmpty_iff.mp done, .refl, .done done⟩
    · rename_i left
      have some_left : grouping.residual.pending ≠ [] := fun none =>
        left (List.isEmpty_iff.mpr none)
      obtain ⟨next, advanced, advances⟩ := inOrder.exists_advance sound
      have fewer := advances.length_pending_lt some_left
      obtain ⟨last, ran, done, later, runs⟩ := ih (inOrder.of_advances advances) (by omega)
      simp only [advanced]
      exact ⟨last, ran, done, later.head advances,
        .step (Bool.eq_false_iff.mpr left) advanced runs⟩

end InOrder

/-- Groups are only ever added to a run. -/
lemma Runs.exists_groups (runs : Runs work grouping last)
    (inOrder : InOrder work grouping) (sound : work.Sound) :
    ∃ more, last.groups = grouping.groups ++ more := by
  induction runs with
  | done => exact ⟨[], (List.append_nil _).symm⟩
  | step _ advanced _ ih =>
    obtain ⟨_, advanced', advances⟩ := inOrder.exists_advance sound
    cases advanced.symm.trans advanced'
    obtain ⟨more, later⟩ := ih (inOrder.of_advances advances)
    cases advances with
    | finish _ _ _ _ _ groups | step _ _ _ _ _ _ _ _ _ groups =>
      rw [later, groups]
      simp only [List.append_assoc]
      exact ⟨_, rfl⟩

end Grouping

/-- Nothing was done at the start, so it is in order. -/
lemma Workload.Sound.inOrder_start (sound : work.Sound) :
    Grouping.InOrder work (Grouping.start work) :=
  ⟨Residual.ongoing_start sound.precedence, rfl, by simp [Grouping.start]⟩

/-- A run ends with everything completed.

**Proof sketch.** At the start all operations are pending, and there are no more of them than the
bound on the number of steps. -/
theorem Workload.Sound.exists_grouping (sound : work.Sound) :
    ∃ last, work.grouping = (last, none) ∧ last.residual.pending = [] ∧
      ReflTransGen (Grouping.Advances work) (Grouping.start work) last ∧
      Grouping.Runs work (Grouping.start work) last := by
  refine sound.inOrder_start.exists_run sound _ ?_
  show (List.range work.precedence.size).length ≤ work.jobs.size * max work.numResources 1
  rw [List.length_range, sound.size]
  exact Nat.le_mul_of_pos_right _ (Nat.lt_of_lt_of_le Nat.one_pos (Nat.le_max_right _ _))

end Timetable
