import Timetable.Proofs.LockStep.Conservation
import Timetable.Proofs.Optimal.Reversal
import Timetable.Proofs.Policy

/-!
# Lock step respects precedence

Whatever is written for an operation is written after everything that it waits for was completed,
and between the tick that the run has come to and the next one. So the parts of its predecessors
were written before and have ended by then, or they are written in the same step, whose entries are
in order themselves. Turned around, what ended first begins last.

## Main definitions

* `Journal.Respects` — the parts that are written down are in the order of precedence.

## Main results

* `Journal.Respects.writes` — whatever is written keeps them in order.
* `Program.lockStep_respects` — both lock-step schedules respect precedence.
-/

set_option autoImplicit false

namespace Timetable

open Relation

/-- No part ends behind the last boundary. An operation that has parts waits for nothing, and its
parts start when those of its immediate predecessors have ended. -/
structure Journal.Respects (work : Workload) (journal : Journal) : Prop where
  stop_le : ∀ id, ∀ part ∈ journal.parts id, part.stop ≤ journal.elapsed
  free : ∀ {before after : OpId}, work.precedence.Edge before after → journal.parts after ≠ [] →
    before ∉ journal.residual.pending
  ordered : ∀ {before after : OpId}, work.precedence.Edge before after →
    ∀ part ∈ journal.parts before, ∀ other ∈ journal.parts after, part.stop ≤ other.start

variable {work : Workload} {residual rest : Residual} {remaining : Array Tick}
  {elapsed next length : Tick} {parts added : OpId → List Entry} {begun : Residual} {step : Step}
  {id before after : OpId} {entry part other : Entry}

/-! ## What a step adds -/

/-- What a step makes of operations lies inside of it.

**Proof sketch.** What is taken fits into the step, and a part that is cut ends with it. -/
lemma Step.Recorded.inside (recorded : Recorded work begun remaining elapsed length step)
    (member : part ∈ partsOf id step.entries) :
    elapsed ≤ part.start ∧ part.stop ≤ elapsed + length := by
  cases recorded.handles id with
  | untouched none =>
    rw [none] at member
    cases member
  | taken _ _ _ _ fits _ single =>
    rw [single, recorded.origin_eq] at member
    rw [recorded.length_eq] at fits
    obtain rfl := List.mem_singleton.mp member
    refine ⟨Nat.le_add_right _ _, ?_⟩
    rw [Entry.stop, Nat.add_assoc]
    exact Nat.add_le_add_left fits _
  | cut _ _ _ _ room _ _ _ _ single =>
    rw [single, recorded.origin_eq] at member
    rw [recorded.length_eq] at room member
    obtain rfl := List.mem_singleton.mp member
    refine ⟨Nat.le_add_right _ _, ?_⟩
    rw [Entry.stop, Entry.idle, Nat.add_assoc, Nat.add_sub_of_le room.le]

namespace Journal.Respects

/-! ## What is written -/

/-- Nothing was written at the start. -/
lemma start (work : Workload) : Respects work ((Grouping.start work).journal work) where
  stop_le := by simp [Grouping.journal, Grouping.start, stampedEntries]
  free := fun _ some_part => absurd rfl some_part
  ordered := by simp [Grouping.journal, Grouping.start, stampedEntries]

/-- Adding parts between two boundaries keeps parts in order, if they belong to operations that were
pending and that wait for nothing any more, and are in order themselves.

**Proof sketch.** Two old parts are in order, and so are two new ones. An old part ends by the
boundary at which new parts may start. The fourth case does not occur: the parts of an operation
that waits for others are only placed when these are completed, so that nothing is added to them. -/
lemma add (respects : Respects work ⟨residual, remaining, elapsed, parts⟩)
    (le : elapsed ≤ next)
    (fewer : ∀ id ∈ rest.pending, id ∈ residual.pending)
    (inside : ∀ id, ∀ part ∈ added id, elapsed ≤ part.start ∧ part.stop ≤ next)
    (pending : ∀ id, added id ≠ [] → id ∈ residual.pending)
    (free : ∀ {before after}, work.precedence.Edge before after → added after ≠ [] →
      before ∉ rest.pending)
    (ordered : ∀ {before after}, work.precedence.Edge before after →
      ∀ part ∈ added before, ∀ other ∈ added after, part.stop ≤ other.start)
    (later : Array Tick) :
    Respects work ⟨rest, later, next, fun id => parts id ++ added id⟩ where
  stop_le := by
    intro id part member
    rcases List.mem_append.mp member with old | new
    · exact (respects.stop_le id part old).trans le
    · exact (inside id part new).2
  free := by
    intro before after edge some_part left
    by_cases old : parts after = []
    · exact free edge (fun none => some_part (by simp [old, none])) left
    · exact respects.free edge old (fewer before left)
  ordered := by
    intro before after edge part member other member'
    rcases List.mem_append.mp member with old | new <;>
      rcases List.mem_append.mp member' with old' | new'
    · exact respects.ordered edge part old other old'
    · exact (respects.stop_le before part old).trans (inside after other new').1
    · -- an operation that has parts already does not wait for one that is pending
      exact absurd (pending before (List.ne_nil_of_mem new))
        (respects.free edge (List.ne_nil_of_mem old'))
    · exact ordered edge part new other new'

/-- A boundary that is made from a timestep keeps parts in order.

**Proof sketch.** The boundary is the only part that is added. It takes no time, and the timestep
was ready, so nothing that it waits for is pending. -/
lemma add_marker {marker : OpId} (respects : Respects work ⟨residual, remaining, elapsed, parts⟩)
    (length : Tick) (ongoing : residual.Ongoing)
    (precedence : residual.precedence = work.precedence) (ready : marker ∈ residual.frontier) :
    Respects work ⟨residual.complete marker, remaining, elapsed, fun id =>
      parts id ++ partsOf id [.boundary length work.resources elapsed (some marker)]⟩ := by
  have only : ∀ {id part}, part ∈ partsOf id
      [.boundary length work.resources elapsed (some marker)] →
        id = marker ∧ part = .boundary length work.resources elapsed (some marker) := by
    intro id part member
    obtain ⟨member, source⟩ := mem_partsOf.mp member
    obtain rfl := List.mem_singleton.mp member
    exact ⟨(Option.some.inj source).symm, rfl⟩
  have only_marker : ∀ {id}, partsOf id
      [.boundary length work.resources elapsed (some marker)] ≠ [] → id = marker := by
    intro id some_part
    obtain ⟨part, member⟩ := List.exists_mem_of_ne_nil _ some_part
    exact (only member).1
  refine respects.add le_rfl (fun id => Residual.mem_pending_of_mem_complete) ?inside ?pending
    ?free ?ordered remaining
  case inside =>
    intro id part member
    obtain ⟨-, rfl⟩ := only member
    exact ⟨le_rfl, le_rfl⟩
  case pending =>
    intro id some_part
    obtain rfl := only_marker some_part
    exact Residual.mem_pending_of_mem_frontier ready
  case free =>
    intro before after edge some_part left
    obtain rfl := only_marker some_part
    rw [← precedence] at edge
    exact (ongoing.mem_frontier_iff.mp ready).2 before edge
      (Residual.mem_pending_of_mem_complete left)
  case ordered =>
    intro before after _ part member other member'
    obtain ⟨-, rfl⟩ := only member
    obtain ⟨-, rfl⟩ := only member'
    exact le_rfl

/-- The parts that a step makes keep parts in order.

**Proof sketch.** They lie between the two boundaries of the step. They are parts of operations
whose predecessors the step completes at the latest, and they are in order (`Recorded.ordered`). -/
lemma add_made (respects : Respects work ⟨residual, remaining, elapsed, parts⟩)
    (recorded : Step.Recorded work residual remaining elapsed length step) :
    Respects work ⟨step.residual, step.remaining, elapsed + length, fun id =>
      parts id ++ partsOf id step.entries⟩ := by
  have source : ∀ {id}, partsOf id step.entries ≠ [] → id ∈ residual.pending ∧
      ∀ before, work.precedence.Edge before id → before ∉ step.residual.pending := by
    intro id some_part
    obtain ⟨part, member⟩ := List.exists_mem_of_ne_nil _ some_part
    obtain ⟨member, source⟩ := mem_partsOf.mp member
    obtain ⟨pending, -, free⟩ := recorded.source part member id source
    exact ⟨pending, free⟩
  refine respects.add (Nat.le_add_right _ _) recorded.pending (fun _ _ => recorded.inside)
    (fun _ some_part => (source some_part).1)
    (fun edge some_part => (source some_part).2 _ edge) ?_ step.remaining
  intro before after edge part member other member'
  obtain ⟨member, source⟩ := mem_partsOf.mp member
  obtain ⟨member', source'⟩ := mem_partsOf.mp member'
  exact recorded.ordered part member other member' before after source source' edge

/-- Whatever is written keeps parts in order.

**Proof sketch.** A journal grows in two ways, which are `Respects.add_marker` and
`Respects.add_made`. -/
theorem writes {journal next : Journal} (respects : Respects work journal)
    (writes : Writes work journal next) : Respects work next := by
  cases writes with
  | mark length ongoing precedence ready =>
    exact respects.add_marker length ongoing precedence ready
  | step recorded _ => exact respects.add_made recorded

/-- Whatever is written keeps parts in order, however much it is. -/
lemma of_writes {journal next : Journal} (respects : Respects work journal)
    (writes : ReflTransGen (Writes work) journal next) : Respects work next := by
  induction writes with
  | refl => exact respects
  | tail _ writes ih => exact ih.writes writes

end Journal.Respects

/-! ## Whole runs -/

/-- In the end all parts are in order. -/
lemma Workload.Grouped.respects {last : Grouping} (grouped : work.Grouped last) :
    Journal.Respects work (last.journal work) :=
  (Journal.Respects.start work).of_writes grouped.writes

variable {program : Program} {table : DurationTable} {rule : DelayRule} {side : CarriedSide}
  {last : Grouping} {schedule : Schedule} {settings : Settings}

namespace Program

/-- No part of an operation ends behind the end of a run. -/
lemma LockStepRun.stop_le (run : program.LockStepRun table rule side last)
    (member : part ∈ partsOf id (stampedEntries side last.groups)) : part.stop ≤ last.elapsed :=
  run.grouped.respects.stop_le id part member

/-- In a run, the parts of an operation start when those of everything that comes before it have
ended.

**Proof sketch.** Along a chain of immediate predecessors every operation has a part, which ends no
earlier than it starts. -/
lemma LockStepRun.ordered (run : program.LockStepRun table rule side last)
    (chain : TransGen program.precedence.Edge before after)
    (member : part ∈ partsOf before (stampedEntries side last.groups))
    (member' : other ∈ partsOf after (stampedEntries side last.groups)) :
    part.stop ≤ other.start := by
  have respects := run.grouped.respects
  induction chain generalizing other with
  | single edge => exact respects.ordered edge part member other member'
  | @tail middle after _ edge ih =>
    have inside := (run.sound.precedence.lt_size edge).1
    rw [run.sound.size, size_workload run.resolves] at inside
    obtain ⟨_, _, -, -, kept⟩ := run.kept inside
    obtain ⟨between, member_between⟩ := List.exists_mem_of_ne_nil _ kept.ne_nil
    calc part.stop ≤ between.start := ih member_between
      _ ≤ between.stop := Nat.le_add_right _ _
      _ ≤ other.start := respects.ordered edge between member_between other member'

/-- **Precedence.** Whatever program was built, in a schedule in lock step every part of an
operation starts when all parts of everything that the operation requires have ended.

**Proof sketch.** What a program requires is a chain of its precedence, along which the parts of a
run are in order (`LockStepRun.ordered`). As late as possible the run is one of the reversed
program, where the opposite operations require each other the other way around, and turning the
parts around turns their order. -/
theorem lockStep_respects (built : program.Built)
    (method : settings.method = "asap_timestep" ∨ settings.method = "alap_timestep")
    (ok : (program.schedule table settings).result = .ok schedule)
    (required : program.Requires before after) :
    ∀ entry ∈ schedule.entries, ∀ other ∈ schedule.entries, entry.source = some before →
      other.source = some after → entry.stop ≤ other.start := by
  intro entry member other member' source source'
  have parts := mem_partsOf.mpr ⟨member, source⟩
  have parts' := mem_partsOf.mpr ⟨member', source'⟩
  have closed := built.wellFormed.toClosed
  obtain ⟨policy, offered, ok⟩ := schedule_eq_ok ok
  generalize settings.method = name at offered method
  cases offered with
  | asap | alap => simp at method
  | asapTimestep rule =>
    obtain ⟨last, anomalies, run, rfl⟩ := lockStep_run built.wellFormed ok
    exact run.ordered (transGen_edge closed required) parts parts'
  | alapTimestep rule =>
    obtain ⟨reversal, last, -, reversedBy, run, -, entries, stepped, -⟩ :=
      Policy.lockStep_reversed_run built.wellFormed ok
    obtain ⟨inside, inside'⟩ := closed.lt_size_of_requires required
    rw [entries, run.partsOf_turned reversedBy stepped inside] at parts
    rw [entries, run.partsOf_turned reversedBy stepped inside'] at parts'
    obtain ⟨first, found, rfl⟩ := List.mem_map.mp parts
    obtain ⟨second, found', rfl⟩ := List.mem_map.mp parts'
    have opposite := (reversedBy.requires_flip closed inside inside').mpr required
    have chain := transGen_edge (reversedBy.closed closed) opposite
    have order := run.ordered chain (List.mem_reverse.mp found') (List.mem_reverse.mp found)
    have within := run.stop_le (List.mem_reverse.mp found)
    show last.elapsed - first.stop + first.duration ≤ last.elapsed - second.stop
    unfold Entry.stop at *
    lia

/-- With time running backwards, both parts of the delay have ended when the gate behind it
starts. -/
theorem lockStep_respects_relay : ∃ schedule : Schedule,
    (relay.schedule .relay { method := "alap_timestep" }).result = .ok schedule ∧
      ⟨.gate "cx" [0, 1], 5, 4, some 2⟩ ∈ schedule.entries ∧
      ∀ entry ∈ schedule.entries, entry.source = some 1 → entry.stop ≤ 5 := by
  obtain ⟨schedule, ok, tenth⟩ : ∃ schedule : Schedule,
      (relay.schedule .relay { method := "alap_timestep" }).result = .ok schedule ∧
        schedule.entries[9]? = some ⟨.gate "cx" [0, 1], 5, 4, some 2⟩ := ⟨_, rfl, rfl⟩
  have gate := List.mem_of_getElem? tenth
  have required : relay.Requires 1 2 := .inr ⟨by decide, 1, rfl, rfl⟩
  refine ⟨schedule, ok, gate, fun entry member source => ?_⟩
  exact lockStep_respects built_relay (.inr rfl) ok required entry member _ gate source rfl

end Program

end Timetable
