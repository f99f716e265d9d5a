import Timetable.Proofs.GapFree.LockStep
import Timetable.Proofs.Precedence.Order
import Timetable.Proofs.Program.Slots
import Timetable.Proofs.Reversal
import Timetable.Proofs.Policy

/-!
# Scheduling does not depend on what was scheduled before

A run writes durations into the slots of its program, some of them even if it fails. It writes only
what the operations resolve to, and reads of a program nothing but its operations, its dependencies
and what its operations resolve to. So whatever was scheduled before, the next run has the result
that it would have had at first, and every schedule reports every rounded duration once.

## Main definitions

* `Program.after` — a program after some runs.

## Main results

* `Policy.Offered.fillsTo_run`, `Policy.Offered.result_run` — a run writes what is resolved, and
  reads nothing else.
* `Policy.Offered.anomalies_perm` — the anomalies that a schedule reports.
* `Program.schedule_after` — all of it for any number of runs.
-/

set_option autoImplicit false

namespace Timetable

/-- A program after it was scheduled with each of some settings, one after the other, whether or not
that succeeded. -/
def Program.after (program : Program) (table : DurationTable) (history : List Settings) : Program :=
  history.foldl (fun program settings => (program.schedule table settings).program) program

variable {program other : Program} {table : DurationTable} {settings : Settings}
  {schedule : Schedule} {rule : DelayRule} {side : CarriedSide} {policy : Policy}
  {method : String}

/-! ## What does not depend on slots -/

namespace Program.SameButSlots

/-- Slots do not tell how many resources are declared. -/
lemma numResources (same : SameButSlots program other) :
    program.numResources = other.numResources :=
  congrArg Layout.numResources same.layout

/-- Slots do not tell which operations there are. -/
lemma ids (same : SameButSlots program other) : program.ids = other.ids :=
  congrArg List.range same.size

/-- Slots do not tell which resources an operation uses. -/
lemma uses (same : SameButSlots program other) : program.uses = other.uses := by
  funext id resource
  rw [Program.uses, Program.uses, same.operation?]

/-- Slots do not tell who the last user of a resource is. -/
lemma lastUser (same : SameButSlots program other) : program.lastUser = other.lastUser := by
  funext resource bound
  induction bound with
  | zero => rfl
  | succ bound ih => rw [Program.lastUser, Program.lastUser, same.uses, ih]

/-- Slots do not tell which operations hand resources over. -/
lemma handovers (same : SameButSlots program other) : program.handovers = other.handovers := by
  funext id seen resources
  induction resources generalizing seen with
  | nil => rfl
  | cons resource resources ih => rw [Program.handovers, Program.handovers, same.lastUser, ih]

/-- The precedence does not depend on slots. -/
lemma precedence (same : SameButSlots program other) :
    program.precedence = other.precedence := by
  have shared : program.resourcePreds = other.resourcePreds := by
    funext id
    rw [resourcePreds, resourcePreds, same.operation?, same.handovers]
  have size := same.size
  unfold Program.precedence
  rw [shared, same.dependencies]
  dsimp only
  generalize program.size = count at size
  subst size
  rfl

/-- Neither does whether a program is physical. -/
lemma violation? (same : SameButSlots program other) :
    program.violation? = other.violation? := by
  rw [Program.violation?, Program.violation?, same.name, same.layout, same.ids]
  simp only [same.operation?]

/-- Nor does whether it can be ordered. -/
lemma ordered (same : SameButSlots program other) : program.ordered = other.ordered := by
  have undeclared : program.undeclared? = other.undeclared? := by
    rw [undeclared?, undeclared?, same.operations, same.numResources]
  rw [Program.ordered, Program.ordered, same.violation?, undeclared, same.precedence]

/-- A schedule for a program does not name its slots. -/
lemma sealedFor (same : SameButSlots program other) :
    Schedule.sealedFor program = Schedule.sealedFor other := by
  funext entries anomalies
  rw [Schedule.sealedFor, Schedule.sealedFor, same.name, same.layout]

end Program.SameButSlots

/-! ## The passes read what is resolved -/

namespace Program.ResolvesLike

/-- The forward pass gives programs that resolve alike the same schedule or the same error. -/
lemma result_forward (like : ResolvesLike table program other) :
    (program.forward table).result = (other.forward table).result := by
  have same := like.toSameButSlots
  have start : Front.start program = Front.start other := by
    rw [Front.start, Front.start, same.numResources, same.size]
  unfold forward
  rw [same.ordered]
  split
  · rfl
  · rename_i order _
    obtain ⟨jobs, anomalies, failure⟩ := like.resolve order
    dsimp only
    rw [jobs, anomalies, failure, start, same.sealedFor]

/-- The lock-step pass has the same result on programs that resolve alike.

**Proof sketch.** Both programs are ordered alike and have the same jobs, anomalies and failures,
and nothing else is read. -/
lemma result_lockStep (like : ResolvesLike table program other) (rule : DelayRule)
    (side : CarriedSide) :
    (program.lockStep table rule side).result = (other.lockStep table rule side).result := by
  have same := like.toSameButSlots
  obtain ⟨jobs, anomalies, failure⟩ := like.resolve program.ids
  unfold lockStep
  rw [← same.ordered, ← same.ids]
  split
  · rfl
  · dsimp only
    rw [← failure]
    split
    · rfl
    · dsimp only
      rw [jobs, anomalies, same.name, same.numResources, same.sealedFor]

/-- The reversals of programs that resolve alike are the same. -/
lemma reversal_eq (like : ResolvesLike table program other) (ids : List OpId) :
    (program.resolve table ids).reversal = (other.resolve table ids).reversal := by
  have same := (sameButSlots_resolve program table ids).trans
    (like.toSameButSlots.trans (fillsTo_resolve other table ids).toResolvesLike.symm.toSameButSlots)
  obtain ⟨jobs, -, -⟩ := like.resolve ids
  simp only [Resolution.reversal, jobs, same.name, same.layout, same.size, same.dependencies]

end Program.ResolvesLike

/-- Entries come back to a program or do not whatever its slots hold.

**Proof sketch.** Induction on the entries, for all pairs of programs that differ in their slots at
most. Recording a duration fails exactly if the operation does not exist, which is the same for both
of them, and otherwise it changes slots only. -/
lemma Reversal.bringBackEntries_congr (same : program.SameButSlots other) (reversal : Reversal)
    (total : Tick) (entries : List Entry) :
    (reversal.bringBackEntries total entries program).2 =
      (reversal.bringBackEntries total entries other).2 := by
  induction entries generalizing program other with
  | nil => rfl
  | cons entry entries ih =>
    unfold bringBackEntries
    cases entry.source with
    | none =>
      dsimp only
      rw [ih same]
    | some id =>
      dsimp only
      cases reversal.origin? id with
      | none => rfl
      | some origin =>
        dsimp only
        unfold Program.record?
        by_cases inside : origin < program.size
        · have inside' : origin < other.size := same.size ▸ inside
          have filled := (Program.sameButSlots_fill program origin ⟨entry.duration, none⟩).trans
            (same.trans (Program.sameButSlots_fill other origin ⟨entry.duration, none⟩).symm)
          simp only [Array.getElem?_eq_getElem (show origin < program.tasks.size from inside),
            Array.getElem?_eq_getElem (show origin < other.tasks.size from inside'),
            Option.map_some, ih filled]
        · have outside : ¬ origin < other.size := same.size ▸ inside
          rw [Array.getElem?_eq_none (Nat.le_of_not_lt inside),
            Array.getElem?_eq_none (Nat.le_of_not_lt outside)]
          rfl

namespace Policy

/-- With time running backwards, a policy runs on the reversal if all operations resolve. -/
lemma run_reversed_eq (physical : program.violation? = none) (inner : Policy)
    (table : DurationTable) : (reversed inner table).run program =
      let resolution := program.resolve table program.ids.reverse
      match resolution.failure with
      | some e => .failed resolution.program (.duration e)
      | none =>
        conclude resolution.reversal resolution (inner.run resolution.reversal.program) := by
  conv_lhs => unfold run Program.reverse
  rw [physical]
  dsimp only
  cases (program.resolve table program.ids.reverse).failure <;> rfl

/-- What is concluded from a run on the reversal does not depend on slots. -/
lemma result_conclude_congr {resolution resolution' : Resolution}
    (same : resolution.program.SameButSlots resolution'.program)
    (anomalies : resolution.anomalies = resolution'.anomalies) (reversal : Reversal)
    (inner : Run) :
    (conclude reversal resolution inner).result = (conclude reversal resolution' inner).result := by
  unfold conclude
  split
  · rfl
  · rename_i schedule _
    have entries := reversal.bringBackEntries_congr same schedule.duration schedule.entries.reverse
    have kept := (reversal.sameButSlots_bringBackEntries schedule.duration
      schedule.entries.reverse resolution.program).trans (same.trans
        (reversal.sameButSlots_bringBackEntries schedule.duration schedule.entries.reverse
          resolution'.program).symm)
    simp only [Reversal.bringBack, entries, kept.sealedFor, anomalies]

/-- With time running backwards a policy gives programs that resolve alike the same schedule or the
same error, because their reversals are the same.

**Proof sketch.** Both programs are physical or none is. If they are, resolving them gives the same
anomalies and the same failure (`ResolvesLike.resolve`), and their reversals are equal, so the
inner policy runs on the same program. What comes back does not depend on slots
(`result_conclude_congr`). -/
lemma result_reversed (like : program.ResolvesLike table other) (inner : Policy) :
    ((reversed inner table).run program).result = ((reversed inner table).run other).result := by
  have same := like.toSameButSlots
  cases violation : program.violation? with
  | some violation' =>
    have violation' := same.violation?.symm.trans violation
    simp only [run, violation, violation', Run.failed]
  | none =>
    obtain ⟨-, anomalies, failure⟩ := like.resolve program.ids.reverse
    have filled := (Program.sameButSlots_resolve program table program.ids.reverse).trans
      (same.trans (Program.sameButSlots_resolve other table program.ids.reverse).symm)
    rw [run_reversed_eq violation, run_reversed_eq (same.violation?.symm.trans violation),
      ← same.ids]
    dsimp only
    rw [← failure, ← like.reversal_eq]
    split
    · rfl
    · exact result_conclude_congr filled anomalies _ _

/-- Every policy on offer gives programs that resolve alike the same schedule or the same error.

**Proof sketch.** One case for each method; the forward passes read slots when they resolve
operations only, and the others are covered by `result_reversed`. -/
theorem Offered.result_run (offered : Offered table method policy)
    (like : program.ResolvesLike table other) :
    (policy.run program).result = (policy.run other).result := by
  cases offered with
  | asap => exact like.result_forward
  | alap => exact result_reversed like _
  | asapTimestep rule => exact like.result_lockStep rule .closing
  | alapTimestep rule => exact result_reversed like _

end Policy

/-! ## The passes write what is resolved -/

/-- Bringing entries back writes nothing to a program in which all slots are written.

**Proof sketch.** Induction on the entries. A slot that is written is not written again
(`Program.fill_of_resolved`). -/
lemma Reversal.program_bringBackEntries (written : ∀ id < program.size,
    (program.resolved? id).isSome) (reversal : Reversal) (total : Tick) (entries : List Entry) :
    (reversal.bringBackEntries total entries program).1 = program := by
  induction entries with
  | nil => rfl
  | cons entry entries ih =>
    unfold bringBackEntries
    cases entry.source with
    | none => exact ih
    | some id =>
      dsimp only
      cases reversal.origin? id with
      | none => rfl
      | some origin =>
        dsimp only
        unfold Program.record?
        cases found : program.tasks[origin]? with
        | none => rfl
        | some task =>
          have inside : origin < program.size := (Array.getElem?_eq_some_iff.mp found).1
          simp only [Option.map_some, Program.fill_of_resolved (written origin inside)]
          exact ih

/-- The forward pass fills slots. -/
lemma Program.fillsTo_forward (program : Program) (table : DurationTable) :
    program.FillsTo table (program.forward table).program := by
  unfold forward
  split
  · exact .refl table program
  · exact fillsTo_resolve program table _

/-- The lock-step pass fills slots. -/
lemma Program.fillsTo_lockStep (program : Program) (table : DurationTable) (rule : DelayRule)
    (side : CarriedSide) : program.FillsTo table (program.lockStep table rule side).program := by
  unfold lockStep
  split
  · exact .refl table program
  · dsimp only
    split <;> exact fillsTo_resolve program table _

namespace Policy

/-- With time running backwards slots are filled, too: when a schedule is brought back, all of them
are written.

**Proof sketch.** Resolving the operations in front of the inner pass fills slots
(`Program.fillsTo_resolve`). If it succeeds all slots are written, so bringing the schedule back
writes none. -/
lemma fillsTo_reversed (program : Program) (inner : Policy) (table : DurationTable) :
    program.FillsTo table ((reversed inner table).run program).program := by
  cases physical : program.violation? with
  | some violation =>
    simp only [run, physical, Run.failed]
    exact .refl table program
  | none =>
    have filled := Program.fillsTo_resolve program table program.ids.reverse
    rw [run_reversed_eq physical]
    dsimp only
    split
    · exact filled
    · rename_i resolves
      have written : ∀ id < (program.resolve table program.ids.reverse).program.size,
          ((program.resolve table program.ids.reverse).program.resolved? id).isSome := by
        intro id inside
        rw [filled.size] at inside
        exact Program.resolved?_resolve resolves
          (List.mem_reverse.mpr (List.mem_range.mpr inside)) inside
      unfold conclude
      split
      · exact filled
      · simp only [Reversal.bringBack, Reversal.program_bringBackEntries written]
        exact filled

/-- Every policy on offer fills slots, whether or not it succeeds.

**Proof sketch.** One case for each method. -/
theorem Offered.fillsTo_run (offered : Offered table method policy) (program : Program) :
    program.FillsTo table (policy.run program).program := by
  cases offered with
  | asap => exact program.fillsTo_forward table
  | alap => exact fillsTo_reversed program _ table
  | asapTimestep rule => exact program.fillsTo_lockStep table rule .closing
  | alapTimestep rule => exact fillsTo_reversed program _ table

/-! ## The passes report what was rounded -/

/-- The forward pass reports every anomaly once. -/
lemma anomalies_forward (closed : program.Closed)
    (ok : (program.forward table).result = .ok schedule) :
    schedule.anomalies.Perm (program.anomalies table) := by
  obtain ⟨order, physical, ordered, resolves, rfl⟩ := Program.forward_eq_ok ok
  change (program.resolve table order).anomalies.Perm _
  rw [Program.anomalies_resolve resolves]
  exact (closed.perm_of_order ordered).filterMap _

/-- The lock-step pass reports every anomaly once, in program order. -/
lemma anomalies_lockStep (ok : (program.lockStep table rule side).result = .ok schedule) :
    schedule.anomalies = program.anomalies table := by
  obtain ⟨-, resolves, rfl⟩ := Program.lockStep_eq_ok ok
  exact Program.anomalies_resolve resolves

/-- A schedule that was brought back has the anomalies of the inner pass and of the resolution.

**Proof sketch.** The cases of the definition. Bringing entries back and shifting boundaries do not
touch anomalies. -/
lemma anomalies_conclude {reversal : Reversal} {resolution : Resolution} {inner : Run}
    (ok : (conclude reversal resolution inner).result = .ok schedule) :
    ∃ reversed, inner.result = .ok reversed ∧
      schedule.anomalies = reversed.anomalies ++ resolution.anomalies := by
  unfold conclude at ok
  split at ok
  · cases ok
  · rename_i reversed result
    refine ⟨reversed, result, ?_⟩
    dsimp only [Reversal.bringBack] at ok
    split at ok
    · cases ok
    · rename_i back
      obtain ⟨moved, -, rfl⟩ := Option.map_eq_some_iff.mp back
      cases ok
      split <;> rfl

/-- With time running backwards every anomaly is reported once, by the resolution: the inner pass
reports none, because it finds all durations in the reversal.

**Proof sketch.** All slots of the reversal are written, without anomalies
(`Program.anomaly?_reversal`), so the inner pass reports none. The anomalies that remain are those
of resolving the program, last operation first. -/
lemma anomalies_reversed {inner : Policy}
    (silent : ∀ {reversal : Reversal} {reversed : Schedule}, program.ReversedBy table reversal →
      (inner.run reversal.program).result = .ok reversed →
      reversed.anomalies.Perm (reversal.program.anomalies table))
    (ok : ((reversed inner table).run program).result = .ok schedule) :
    schedule.anomalies.Perm (program.anomalies table) := by
  cases physical : program.violation? with
  | some violation => simp [run, physical, Run.failed] at ok
  | none =>
    rw [run_reversed_eq physical] at ok
    dsimp only at ok
    split at ok
    · cases ok
    · rename_i resolves
      obtain ⟨reversed, result, anomalies⟩ := anomalies_conclude ok
      have quiet : (program.resolve table program.ids.reverse).reversal.program.anomalies table =
          [] := List.filterMap_eq_nil_iff.mpr fun id _ => Program.anomaly?_reversal _ table id
      have none := silent (Program.reversedBy resolves) result
      rw [quiet] at none
      rw [anomalies, none.eq_nil, List.nil_append, Program.anomalies_resolve resolves]
      exact (List.reverse_perm _).filterMap _

/-- A schedule by any policy on offer reports the anomaly of every rounded duration once.

**Proof sketch.** One case for each method; as late as possible, `anomalies_reversed` with the
anomalies of the inner pass. -/
theorem Offered.anomalies_perm (offered : Offered table method policy) (closed : program.Closed)
    (ok : (policy.run program).result = .ok schedule) :
    schedule.anomalies.Perm (program.anomalies table) := by
  cases offered with
  | asap => exact anomalies_forward closed ok
  | alap =>
    refine anomalies_reversed ?_ ok
    exact fun reversedBy ok => anomalies_forward (reversedBy.closed closed) ok
  | asapTimestep rule => exact .of_eq (anomalies_lockStep ok)
  | alapTimestep rule =>
    refine anomalies_reversed ?_ ok
    exact fun _ ok => .of_eq (anomalies_lockStep ok)

end Policy

/-! ## Any number of runs -/

namespace Program

variable (program table) (settings : Settings) (history : List Settings)

/-- A run fills slots, whether or not it succeeds. -/
lemma fillsTo_schedule : program.FillsTo table (program.schedule table settings).program := by
  unfold schedule
  split
  · exact .refl table program
  · rename_i policy named
    have filled := (Policy.ofSettings_eq_ok named).fillsTo_run program
    dsimp only
    split <;> exact filled

/-- Any number of runs fill slots. -/
lemma fillsTo_after : program.FillsTo table (program.after table history) := by
  induction history generalizing program with
  | nil => exact .refl table program
  | cons settings history ih => exact (program.fillsTo_schedule table settings).trans (ih _)

/-- Runs after some runs are further runs. -/
lemma after_append (more : List Settings) : program.after table (history ++ more) =
    (program.after table history).after table more :=
  List.foldl_append

variable {program table settings}

/-- Programs that resolve alike have the same results. -/
lemma ResolvesLike.result_schedule (like : ResolvesLike table program other)
    (settings : Settings) :
    (program.schedule table settings).result = (other.schedule table settings).result := by
  cases named : Policy.ofSettings settings table with
  | error e =>
    unfold schedule
    rw [named]
    rfl
  | ok policy =>
    rw [Program.result_schedule named, Program.result_schedule named]
    exact (Policy.ofSettings_eq_ok named).result_run like

/-- Whatever was scheduled before, successfully or not, a run has the result that it would have had
at first; a slot that is written keeps its duration and its anomaly; and a schedule by any method
reports the anomaly of every operation whose duration was rounded, once.

**Proof sketch.** Whatever runs were made, they filled slots with what the table says
(`fillsTo_after`), and so the program resolves as it did at first. A run reads slots by resolving
only (`ResolvesLike.result_schedule`), filling keeps what is written, and the anomalies are those of
the program. -/
theorem schedule_after (built : program.Built) (table : DurationTable) (history : List Settings) :
    (∀ settings, ((program.after table history).schedule table settings).result =
      (program.schedule table settings).result) ∧
    (∀ more id resolved, (program.after table history).resolved? id = some resolved →
      (program.after table (history ++ more)).resolved? id = some resolved) ∧
    ∀ settings schedule,
      ((program.after table history).schedule table settings).result = .ok schedule →
        schedule.anomalies.Perm (program.anomalies table) := by
  have like := (program.fillsTo_after table history).toResolvesLike
  refine ⟨like.result_schedule, ?_, ?_⟩
  · intro more id resolved written
    rw [after_append]
    exact ((program.after table history).fillsTo_after table more).kept id resolved written
  · intro settings schedule ok
    rw [like.result_schedule] at ok
    obtain ⟨policy, offered, ok⟩ := schedule_eq_ok ok
    exact offered.anomalies_perm built.wellFormed.toClosed ok

/-- The relay after its delay was rounded from five and a quarter ticks. -/
def roundedRelay : Program := relay.fill 1 ⟨5, some ⟨"delay", 5.25, 5, 1⟩⟩

/-- After a run with time running backwards and one by a method that does not exist. -/
theorem schedule_after_roundedRelay : ∃ schedule : Schedule,
    ((roundedRelay.after .relay [{ method := "alap_timestep" }, { method := "lazy" }]).schedule
      .relay {}).result = .ok schedule ∧
      schedule.cached = some 9 ∧ schedule.anomalies.Perm [⟨"delay", 5.25, 5, 1⟩] := by
  have built : roundedRelay.Built := .fill 1 _ built_relay
  obtain ⟨same, -, reported⟩ :=
    schedule_after built .relay [{ method := "alap_timestep" }, { method := "lazy" }]
  have ok : (roundedRelay.schedule .relay {}).result = .ok _ := rfl
  have later := (same {}).trans ok
  exact ⟨_, later, rfl, reported {} _ later⟩

end Program

end Timetable
