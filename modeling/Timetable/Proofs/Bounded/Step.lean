import Timetable.Proofs.Bounded.Timeline
import Timetable.Proofs.LockStep.Filling

/-!
# A timestep within a limit

Whether an operation fits is tested by adding what is left of it to the tick at which it could
start, and that sum may lie far behind the end of the step. No start lies behind it, however, so
the sum is within the limit if the step and the operation together are. Only the dominant operation
must not be counted twice: it is taken when it is tested for the first time, and starts at the
origin then.

## Main definitions

* `Step.fillWithin`, `Step.cutDelaysWithin`, `Step.paddedWithin` — what happens in a step, with
  arithmetic within a limit.
* `Step.Confined` — nothing in a step reaches behind its end.
* `Step.Affordable` — there is room for every test while the step is filled.

## Main results

* `Step.Confined.takes`, `Step.Confined.cuts` — no move reaches behind the end.
* `Step.Affordable.offerWithin_eq` — the test of one operation.
* `Step.Affordable.fillWithin_eq`, `Step.Confined.cutDelaysWithin_eq` — filling and cutting within
  the limit.
-/

set_option autoImplicit false

namespace Timetable

open Relation

namespace Step

/-! ## Arithmetic within a limit -/

/-- Takes an operation, which starts at a tick of the step and completes in it, with arithmetic
within a limit. -/
def acceptWithin (limit : Tick) (step : Step) (job : Job) (start : Tick) : Option Step := do
  let resources := job.operation.resources
  let duration := step.left job.id
  let gaps ← step.timeline.gapsWithin limit resources start
  let placed := job.operation.rest duration job.ticks
  let begins ← Tick.add? limit step.origin start
  let entry : Entry := ⟨placed, begins, duration, some job.id⟩
  let timeline ← (step.timeline.pad resources start).occupyWithin limit resources start duration
  let finish ← Tick.add? limit start duration
  return {
    step with
    residual := step.residual.complete job.id
    timeline
    finish := step.finish.setIfInBounds job.id finish
    entries := step.entries ++ gaps ++ [entry]
    admitted := step.admitted + 1 }

/-- Offers an operation to the step, which takes it if it fits, with arithmetic within a limit. -/
def offerWithin (limit : Tick) (work : Workload) (step : Step) (id : OpId) : Option Step :=
  match work.jobs[id]? with
  | none => some step
  | some job =>
    if job.operation.isTimestep then some step
    else do
      let start := step.earliest work job
      let duration := step.left id
      let finish ← Tick.add? limit start duration
      if step.length < finish then
        let refusal := Note.refused id job.operation.name duration start step.length
        return { step with notes := step.notes.push refusal }
      else step.acceptWithin limit job start

/-- Offers every operation that is ready now, with arithmetic within a limit. -/
def roundWithin (limit : Tick) (work : Workload) (step : Step) : Option Step :=
  step.residual.frontier.foldlM (offerWithin limit work) step

/-- Repeats rounds until one of them takes nothing, at most a number of times, with arithmetic
within a limit. -/
def roundsWithin (limit : Tick) (work : Workload) : (times : Nat) → Step → Option Step
  | 0, step => some step
  | times + 1, step => do
    let next ← step.roundWithin limit work
    if next.admitted = step.admitted then return next else roundsWithin limit work times next

/-- Takes operations until nothing more fits, with arithmetic within a limit. -/
def fillWithin (limit : Tick) (work : Workload) (step : Step) : Option Step :=
  step.roundsWithin limit work step.residual.pending.length

/-- Takes the front part of a delay that is too long for the rest of the step, with arithmetic
within a limit. -/
def cutDelayWithin (limit : Tick) (work : Workload) (step : Step) (id : OpId) : Option Step :=
  match work.jobs[id]? with
  | some ⟨_, .delay span resource, ticks⟩ =>
    let start := step.earliest work ⟨id, .delay span resource, ticks⟩
    if step.length ≤ start then some step
    else do
      let part ← Tick.sub? step.length start
      if step.left id ≤ part then return step
      else
        let gaps ← step.timeline.gapsWithin limit [resource] start
        let begins ← Tick.add? limit step.origin start
        let timeline ←
          (step.timeline.pad [resource] start).occupyWithin limit [resource] start part
        let left ← Tick.sub? (step.left id) part
        return {
          step with
          remaining := step.remaining.setIfInBounds id left
          timeline
          entries := step.entries ++ gaps ++ [.idle resource begins part (some id)]
          notes := step.notes.push (.cut id resource part left) }
  | _ => some step

/-- Takes the front part of every ready delay that is too long for the rest of the step, with
arithmetic within a limit. -/
def cutDelaysWithin (limit : Tick) (work : Workload) (step : Step) : Option Step :=
  step.residual.frontier.foldlM (cutDelayWithin limit work) step

/-- Covers all resources with idle time up to the end of the step, with arithmetic within a
limit. -/
def paddedWithin (limit : Tick) (step : Step) : Option Step := do
  let gaps ← step.timeline.gapsWithin limit step.timeline.resources step.length
  return {
    step with
    timeline := step.timeline.pad step.timeline.resources step.length
    entries := step.entries ++ gaps }

variable {limit : Tick} {work : Workload} {begun : Residual} {step next : Step} {job : Job}
  {dominant id : OpId}

/-! ## Nothing reaches behind the end of a step -/

/-- The step ends within the limit, and neither its timeline nor any operation reaches behind its
end. -/
structure Confined (limit : Tick) (step : Step) : Prop where
  timeline_origin : step.timeline.origin = step.origin
  stop : step.origin + step.length ≤ limit
  free_le : ∀ resource, step.timeline.free resource ≤ step.length
  finish_le : ∀ id, step.finishOf id ≤ step.length

namespace Confined

/-- Nothing was placed in a step that begins. -/
lemma start {origin length : Tick} (stop : origin + length ≤ limit) (work : Workload)
    (begun : Residual) (remaining : Array Tick) :
    Confined limit (Step.start work begun remaining origin length) where
  timeline_origin := rfl
  stop := stop
  free_le := fun resource => by
    have none : (Step.start work begun remaining origin length).timeline.free resource = 0 :=
      Timeline.free_start _ _ _
    exact none ▸ Nat.zero_le _
  finish_le := fun id => by
    by_cases inside : id < work.jobs.size <;> simp [finishOf, Step.start, inside]

/-- No operation starts behind the end of the step. -/
lemma earliest_le (confined : Confined limit step) (work : Workload) (job : Job) :
    step.earliest work job ≤ step.length := by
  refine Nat.max_le.mpr
    ⟨Timeline.earliest_le_iff.mpr fun resource _ => confined.free_le resource, ?_⟩
  refine latest_le_iff.mpr (List.forall_mem_map.mpr ?_)
  exact fun before _ => confined.finish_le before

/-- What is placed before the end takes no resource behind it. -/
lemma free_place_le (confined : Confined limit step) {start duration : Tick}
    (fits : start + duration ≤ step.length) (resources : List Resource) (resource : Resource) :
    ((step.timeline.pad resources start).occupy resources start duration).free resource ≤
      step.length :=
  Timeline.free_occupy_le
    (Timeline.free_pad_le confined.free_le ((Nat.le_add_right _ _).trans fits)) fits resource

/-- Placing something leaves the origin of the timeline where it is. -/
lemma origin_place (confined : Confined limit step) (resources : List Resource)
    (start duration : Tick) :
    ((step.timeline.pad resources start).occupy resources start duration).origin =
      step.origin := by
  rw [Timeline.origin_occupy, Timeline.origin_pad, confined.timeline_origin]

/-- Taking or refusing an operation reaches no further than the end.

**Proof sketch.** An operation is accepted only if it ends within the step, so neither its resources
nor its own end are beyond the end of the step; if it is refused, only notes are added. -/
theorem takes (confined : Confined limit step) (takes : Takes work step next) :
    Confined limit next := by
  cases takes with
  | refuse =>
    obtain ⟨_, _, _, _⟩ := confined
    constructor <;> assumption
  | @accept job _ _ _ fits =>
    exact ⟨confined.origin_place _ _ _, confined.stop, confined.free_place_le fits _,
      getD_setIfInBounds_le confined.finish_le fits job.id⟩

/-- Cutting a delay reaches no further than the end.

**Proof sketch.** The part that is taken ends with the step, and so do its resources. -/
theorem cuts (confined : Confined limit step) (cuts : Cuts work step next) :
    Confined limit next := by
  cases cuts with
  | cut _ _ _ room _ =>
    exact ⟨confined.origin_place _ _ _, confined.stop,
      confined.free_place_le (Nat.add_sub_of_le room.le).le _, confined.finish_le⟩

/-- Cutting delays reaches no further than the end. -/
lemma of_cuts (confined : Confined limit step) (moves : ReflTransGen (Cuts work) step next) :
    Confined limit next := by
  induction moves with
  | refl => exact confined
  | tail _ cuts ih => exact ih.cuts cuts

/-- An operation that fits can be taken. -/
lemma acceptWithin_eq (confined : Confined limit step) {start : Tick}
    (fits : start + step.left job.id ≤ step.length) :
    step.acceptWithin limit job start = some (step.accept job start) := by
  have stop := confined.stop
  have begins : step.origin + start ≤ limit := by lia
  have ends : start + step.left job.id ≤ limit := by lia
  simp only [acceptWithin, Timeline.gapsWithin_eq (confined.timeline_origin ▸ begins),
    Timeline.occupyWithin_eq ends, Tick.add?_eq begins, Tick.add?_eq ends]
  rfl

end Confined

/-! ## Filling a step -/

/-- Behind the end of the step there is room for every operation that was pending when it began,
except for the dominant one, which was ready then and is not longer than the step. -/
structure Affordable (limit : Tick) (work : Workload) (begun : Residual) (dominant : OpId)
    (step : Step) : Prop extends Filling work begun step, Confined limit step where
  ready : dominant ∈ begun.frontier
  short : step.left dominant ≤ step.length
  test : ∀ id ∈ begun.pending, id ≠ dominant → step.length + step.left id ≤ limit

namespace Affordable

/-- Moves leave room. -/
lemma of_takes (affordable : Affordable limit work begun dominant step) (sound : work.Sound)
    (moves : ReflTransGen (Takes work) step next) : Affordable limit work begun dominant next := by
  induction moves with
  | refl => exact affordable
  | tail _ takes ih =>
    obtain ⟨-, length, remaining⟩ := takes.keeps
    refine ⟨ih.toFilling.takes sound takes, ih.toConfined.takes takes, ih.ready, ?_, ?_⟩
    · rw [left, remaining, length]
      exact ih.short
    · rw [length]
      simp only [left, remaining]
      exact ih.test

/-- The sum that tests whether a ready operation fits is within the limit: while the dominant one is
ready, it can start at the origin. -/
lemma fits (affordable : Affordable limit work begun dominant step) (sound : work.Sound)
    (found : work.jobs[job.id]? = some job) (ready : job.id ∈ step.residual.frontier) :
    step.earliest work job + step.left job.id ≤ limit := by
  have pending := Residual.mem_pending_of_mem_frontier ready
  have starts := affordable.toConfined.earliest_le work job
  have stop := affordable.stop
  by_cases same : job.id = dominant
  · have origin := affordable.toFilling.earliest_eq_zero sound found (same ▸ affordable.ready)
      pending (affordable.toFilling.untouched pending)
    have short := affordable.short
    rw [← same] at short
    lia
  · have test := affordable.test job.id (affordable.pending job.id pending) same
    lia

/-- A ready operation can be offered.

**Proof sketch.** The only sum is the end of the operation, and an affordable step has room for
whatever is ready. If the operation is accepted it ends within the step, so that it can be
placed. -/
theorem offerWithin_eq (affordable : Affordable limit work begun dominant step)
    (sound : work.Sound) (ready : id ∈ step.residual.frontier) :
    step.offerWithin limit work id = some (step.offer work id) := by
  unfold offerWithin offer
  cases found : work.jobs[id]? with
  | none => rfl
  | some job =>
    obtain rfl := sound.numbered found
    by_cases timestep : job.operation.isTimestep = true
    · simp only [if_pos timestep]
    · simp only [if_neg timestep, Tick.add?_eq (affordable.fits sound found ready),
        Option.bind_eq_bind, Option.bind_some]
      split
      · rfl
      · rename_i short
        exact affordable.toConfined.acceptWithin_eq (Nat.le_of_not_lt short)

/-- All operations that are ready can be offered one after the other. -/
lemma roundWithin_eq (affordable : Affordable limit work begun dominant step)
    (sound : work.Sound) : step.roundWithin limit work = some (step.round work) := by
  have consistent := affordable.ongoing.toConsistent
  refine (foldlM_eq_some (fun ids step => Affordable limit work begun dominant step ∧ ids.Nodup ∧
    ∀ id ∈ ids, id ∈ step.residual.frontier) (fun {id ids step} holds => ?_)
      ⟨affordable, consistent.nodup_frontier, fun _ ready => ready⟩).1
  obtain ⟨affordable, nodup, ready⟩ := holds
  obtain ⟨fresh, nodup⟩ := List.nodup_cons.mp nodup
  have first := ready id List.mem_cons_self
  obtain ⟨-, still⟩ := ready_offer sound affordable.ongoing.toConsistent id
  exact ⟨affordable.offerWithin_eq sound first,
    affordable.of_takes sound (reflTransGen_offer sound first), nodup, fun other member =>
      still other (ready other (List.mem_cons_of_mem _ member)) (ne_of_mem_of_not_mem member fresh)⟩

/-- Rounds can be repeated. -/
lemma roundsWithin_eq (affordable : Affordable limit work begun dominant step)
    (sound : work.Sound) (times : Nat) :
    step.roundsWithin limit work times = some (step.rounds work times) := by
  induction times generalizing step with
  | zero => rfl
  | succ times ih =>
    have moves := reflTransGen_round sound affordable.ongoing.toConsistent
    unfold roundsWithin rounds
    simp only [affordable.roundWithin_eq sound, Option.bind_eq_bind, Option.bind_some]
    split
    · rfl
    · exact ih (affordable.of_takes sound moves)

/-- A step can be filled, and nothing in it reaches behind its end then.

**Proof sketch.** Each offer can be computed (`offerWithin_eq`), and the moves it makes keep the
step affordable, so the rounds can be computed one after the other. -/
theorem fillWithin_eq (affordable : Affordable limit work begun dominant step)
    (sound : work.Sound) :
    step.fillWithin limit work = some (step.fill work) ∧ Confined limit (step.fill work) := by
  have moves := reflTransGen_fill sound affordable.ongoing.toConsistent
  exact ⟨affordable.roundsWithin_eq sound _, (affordable.of_takes sound moves).toConfined⟩

end Affordable

/-! ## Cutting delays and closing a step -/

namespace Confined

/-- A delay can be cut.

**Proof sketch.** A resource never comes further than the end of the step, so the room behind the
start is a difference that can be computed. The part that is taken starts within the limit and ends
with the step, and it is shorter than what is left of the delay. -/
lemma cutDelayWithin_eq (confined : Confined limit step) (work : Workload) (id : OpId) :
    step.cutDelayWithin limit work id = some (step.cutDelay work id) := by
  have stop := confined.stop
  unfold cutDelayWithin cutDelay
  cases found : work.jobs[id]? with
  | none => rfl
  | some job =>
    obtain ⟨number, operation, ticks⟩ := job
    cases operation with
    | gate | barrier | timestep => rfl
    | delay span resource =>
      dsimp only
      have within := confined.earliest_le work ⟨id, .delay span resource, ticks⟩
      generalize step.earliest work ⟨id, .delay span resource, ticks⟩ = start at within
      by_cases room : step.length ≤ start
      · rw [if_pos room, if_pos (.inl room)]
      · rw [if_neg room, Tick.sub?_eq within, Option.bind_eq_bind, Option.bind_some]
        by_cases short : step.left id ≤ step.length - start
        · rw [if_pos short, if_pos (.inr short)]
          rfl
        · have long : step.length - start ≤ step.left id := Nat.le_of_not_le short
          have begins : step.origin + start ≤ limit := by lia
          have ends : start + (step.length - start) ≤ limit := by lia
          rw [if_neg short, if_neg (not_or.mpr ⟨room, short⟩),
            Timeline.gapsWithin_eq (confined.timeline_origin ▸ begins),
            Timeline.occupyWithin_eq ends, Tick.add?_eq begins, Tick.sub?_eq long]
          rfl

/-- All ready delays can be cut one after the other, and nothing reaches behind the end of the step
then.

**Proof sketch.** Fold over the delays that are ready. Each can be cut (`cutDelayWithin_eq`), which
keeps the step confined and leaves the others ready. -/
theorem cutDelaysWithin_eq (confined : Confined limit step) (sound : work.Sound) :
    step.cutDelaysWithin limit work = some (step.cutDelays work) ∧
      Confined limit (step.cutDelays work) := by
  refine ⟨(foldlM_eq_some (fun ids step => Confined limit step ∧
    ∀ id ∈ ids, id ∈ step.residual.frontier) (fun {id ids step} holds => ?_)
      ⟨confined, fun _ ready => ready⟩).1,
    confined.of_cuts (reflTransGen_cutDelays sound step)⟩
  obtain ⟨confined, ready⟩ := holds
  have moves := reflTransGen_cutDelay sound (ready id List.mem_cons_self)
  refine ⟨confined.cutDelayWithin_eq work id, confined.of_cuts moves, fun other member => ?_⟩
  rw [residual_of_cuts moves]
  exact ready other (List.mem_cons_of_mem _ member)

/-- The rest of a step can be covered with idle time. -/
lemma paddedWithin_eq (confined : Confined limit step) :
    step.paddedWithin limit = some step.padded := by
  rw [paddedWithin, Timeline.gapsWithin_eq (confined.timeline_origin ▸ confined.stop)]
  rfl

end Confined

end Step

end Timetable
