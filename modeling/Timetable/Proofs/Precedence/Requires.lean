import Mathlib.Data.Nat.Basic
import Mathlib.Logic.Relation
import Mathlib.Order.Basic
import Timetable.Precedence
import Timetable.Proofs.Program.WellFormed

/-!
# What an operation requires

An operation requires all operations that it depends on, and all operations before it that use a
resource of its own. The precedence of a program only records the immediate ones among them, and
this is enough: whatever is required comes first along some chain of immediate predecessors.

## Main definitions

* `Precedence.Edge` — being an immediate predecessor.
* `Precedence.Sound` — both lists of a precedence agree.
* `Program.HandsOver` — an operation uses a resource right before another one.
* `Program.Requires` — everything that has to come before an operation.
* `Program.Acyclic` — no operation requires itself along a chain of requirements.

## Main results

* `Program.mem_resourcePreds_iff` — the immediate predecessors of an operation through resources.
* `Program.Closed.precedence_sound` — the lists of a closed program agree.
* `Program.requires_of_edge` — immediate predecessors are required.
* `Program.transGen_edge_eq` — chains of immediate predecessors are chains of requirements.
* `Program.precedence_reaches` — what the precedence of a program means.
-/

set_option autoImplicit false

namespace Timetable

open Relation

/-- An operation is an immediate predecessor of another. -/
def Precedence.Edge (precedence : Precedence) (before after : OpId) : Prop :=
  before ∈ precedence.preds after

instance (precedence : Precedence) (before after : OpId) :
    Decidable (precedence.Edge before after) :=
  inferInstanceAs (Decidable (before ∈ precedence.preds after))

/-- The lists of predecessors and of successors agree, name operations that exist, and name each of
them once. -/
structure Precedence.Sound (precedence : Precedence) : Prop where
  mem_succs : ∀ {before after : OpId},
    after ∈ precedence.succs before ↔ precedence.Edge before after
  lt_size : ∀ {before after : OpId}, precedence.Edge before after →
    before < precedence.size ∧ after < precedence.size
  nodup_preds : ∀ id, (precedence.preds id).Nodup
  nodup_succs : ∀ id, (precedence.succs id).Nodup

/-- Without its later copies, every element of a list stands in it once. -/
lemma nodup_eraseDups {α : Type} [BEq α] [LawfulBEq α] (elements : List α) :
    elements.eraseDups.Nodup := by
  match elements with
  | [] => simp
  | element :: elements =>
    rw [List.eraseDups_cons, List.nodup_cons]
    refine ⟨?_, nodup_eraseDups _⟩
    intro member
    simpa using List.mem_eraseDups.mp member
termination_by elements.length
decreasing_by exact Nat.lt_succ_of_le (List.length_filter_le _ _)

namespace Program

/-- What has to come before an operation: the operations it depends on, and the earlier ones that
use a resource of its own. -/
def Requires (program : Program) (before after : OpId) : Prop :=
  (before, after) ∈ program.dependencies ∨
    before < after ∧ ∃ resource, program.uses before resource ∧ program.uses after resource

/-- An operation uses a resource that another one used before, and nothing in between uses it. -/
def HandsOver (program : Program) (resource : Resource) (before after : OpId) : Prop :=
  before < after ∧ program.uses before resource ∧ program.uses after resource ∧
    ∀ between, before < between → between < after → ¬ program.uses between resource

/-- No operation requires itself along a chain of requirements. -/
def Acyclic (program : Program) : Prop := ∀ id, ¬ TransGen program.Requires id id

variable {program : Program} {before after id : OpId} {resource : Resource}

/-- An operation that uses a resource exists. -/
lemma lt_size_of_uses (uses : program.uses id resource) : id < program.size := by
  obtain ⟨operation, found, -⟩ := uses_iff.mp uses
  exact lt_size_of_operation? found

/-- Whatever is required or requires something is an operation of the program. -/
lemma Closed.lt_size_of_requires (closed : program.Closed)
    (required : program.Requires before after) : before < program.size ∧ after < program.size := by
  rcases required with known | ⟨-, resource, uses, uses'⟩
  · exact closed.known _ known
  · exact ⟨lt_size_of_uses uses, lt_size_of_uses uses'⟩

/-! ## Immediate predecessors through resources -/

/-- The last user of a resource is the last operation before a given one that uses it.

**Proof sketch.** Induction on the bound. Either the operation just below it uses the resource, and
there is none after it, or the search goes on below. -/
lemma lastUser_eq_some {bound : OpId} (found : program.lastUser resource bound = some id) :
    id < bound ∧ program.uses id resource ∧
      ∀ other < bound, program.uses other resource → other ≤ id := by
  induction bound with
  | zero => cases found
  | succ bound ih =>
    unfold lastUser at found
    split at found
    · rename_i uses
      cases found
      exact ⟨Nat.lt_succ_self _, uses, fun other smaller _ => Nat.le_of_lt_succ smaller⟩
    · rename_i unused
      obtain ⟨smaller, uses, last⟩ := ih found
      refine ⟨Nat.lt_succ_of_lt smaller, uses, ?_⟩
      intro other below uses'
      rcases Nat.lt_succ_iff_lt_or_eq.mp below with below | rfl
      · exact last other below uses'
      · exact absurd uses' unused

/-- If some earlier operation uses a resource, one of them is the last. -/
lemma exists_lastUser {bound : OpId} (smaller : before < bound)
    (uses : program.uses before resource) :
    ∃ user, program.lastUser resource bound = some user := by
  induction bound with
  | zero => exact absurd smaller (Nat.not_lt_zero _)
  | succ bound ih =>
    unfold lastUser
    split
    · exact ⟨bound, rfl⟩
    · rename_i unused
      rcases Nat.lt_succ_iff_lt_or_eq.mp smaller with below | rfl
      · exact ih below
      · exact absurd uses unused

/-- The last user of a resource, characterized. -/
lemma lastUser_eq_some_iff {bound : OpId} : program.lastUser resource bound = some id ↔
    id < bound ∧ program.uses id resource ∧
      ∀ other < bound, program.uses other resource → other ≤ id := by
  refine ⟨lastUser_eq_some, fun ⟨smaller, uses, last⟩ => ?_⟩
  obtain ⟨user, found⟩ := exists_lastUser smaller uses
  obtain ⟨smaller', uses', last'⟩ := lastUser_eq_some found
  rw [found, Nat.le_antisymm (last user smaller' uses') (last' id smaller uses)]

/-- An operation that uses a resource is handed it by its last user. -/
lemma lastUser_eq_some_iff_handsOver (uses : program.uses after resource) :
    program.lastUser resource after = some before ↔ program.HandsOver resource before after := by
  rw [lastUser_eq_some_iff]
  refine and_congr_right fun _ => and_congr_right fun _ => ⟨fun last => ⟨uses, ?_⟩, fun hands => ?_⟩
  · exact fun between behind smaller used => Nat.not_lt_of_le (last between smaller used) behind
  · exact fun other smaller used => Nat.le_of_not_lt fun behind => hands.2 other behind smaller used

/-- Every resource that was not named before is handed over by its last user, and every other one
by the operation itself.

**Proof sketch.** Induction on the resources. A resource that was named before is handed over by the
operation itself, and any other one by its last user. -/
lemma mem_handovers {seen resources : List Resource} :
    before ∈ program.handovers id seen resources ↔
      (∃ resource ∈ resources, resource ∉ seen ∧ program.lastUser resource id = some before) ∨
        before = id ∧ (¬ resources.Nodup ∨ ∃ resource ∈ resources, resource ∈ seen) := by
  induction resources generalizing seen with
  | nil => simp [handovers]
  | cons resource resources ih =>
    -- What is named here counts as named before for all resources behind it.
    have later := @ih (resource :: seen)
    by_cases again : resource ∈ seen
    · simp only [handovers, List.contains_iff_mem.mpr again, if_true, List.mem_append,
        Option.mem_toList, later]
      grind
    · have unseen : seen.contains resource = false := by simpa using again
      simp only [handovers, unseen, Bool.false_eq_true, if_false, List.mem_append,
        Option.mem_toList, later]
      grind

/-- Whoever hands a resource to an operation is the last user of it. -/
lemma exists_handsOver_iff : (∃ resource, program.HandsOver resource before after) ↔
    ∃ resource, program.uses after resource ∧ program.lastUser resource after = some before := by
  refine exists_congr fun resource => ⟨fun hands => ⟨hands.2.2.1, ?_⟩, fun ⟨uses, last⟩ => ?_⟩
  · exact (lastUser_eq_some_iff_handsOver hands.2.2.1).mpr hands
  · exact (lastUser_eq_some_iff_handsOver uses).mp last

/-- The immediate predecessors of an operation through its resources are those that hand it one of
them, and the operation itself if it names a resource twice.

**Proof sketch.** For each resource the operation names, its last user is recorded, and while the
operation names its resources it becomes the last user itself. So it is listed only if it names a
resource again. -/
theorem mem_resourcePreds_iff : before ∈ program.resourcePreds after ↔
    (∃ resource, program.HandsOver resource before after) ∨
      before = after ∧ (program.operation? after).any Operation.hasRepeatedResource := by
  rw [exists_handsOver_iff]
  unfold resourcePreds
  cases found : program.operation? after with
  | none => simp [uses, found]
  | some operation => simp [mem_handovers, uses, found, Operation.hasRepeatedResource]

/-- Where no operation names a resource twice, the immediate predecessors of an operation through
its resources are the last users of these. -/
lemma mem_resourcePreds
    (nodup : ∀ operation ∈ program.operations, operation.resources.Nodup) :
    before ∈ program.resourcePreds after ↔
      ∃ resource, program.uses after resource ∧ program.lastUser resource after = some before := by
  rw [mem_resourcePreds_iff, exists_handsOver_iff, or_iff_left]
  rintro ⟨-, repeats⟩
  obtain ⟨operation, found, twice⟩ := (Option.any_eq_true ..).mp repeats
  have once := nodup operation (mem_operations_of_operation? found)
  simp [Operation.hasRepeatedResource, once] at twice

/-- Where no operation names a resource twice, none is handed a resource by itself. -/
lemma lt_of_mem_resourcePreds
    (nodup : ∀ operation ∈ program.operations, operation.resources.Nodup)
    (member : before ∈ program.resourcePreds after) : before < after := by
  obtain ⟨resource, -, last⟩ := (mem_resourcePreds nodup).mp member
  exact (lastUser_eq_some last).1

/-- No operation is handed a resource by a later one. -/
lemma le_of_mem_resourcePreds (member : before ∈ program.resourcePreds after) :
    before ≤ after := by
  rcases mem_resourcePreds_iff.mp member with ⟨_, smaller, -⟩ | ⟨rfl, -⟩
  · exact smaller.le
  · exact le_rfl

/-! ## The lists of a precedence -/

/-- The precedence of a program has a place for each of its operations. -/
@[simp]
lemma size_precedence (program : Program) : program.precedence.size = program.size := by
  simp [precedence, Precedence.size]

/-- The immediate predecessors of an operation are those through its resources and those that it
depends on. -/
lemma edge_iff : program.precedence.Edge before after ↔ after < program.size ∧
    (before ∈ program.resourcePreds after ∨ (before, after) ∈ program.dependencies) := by
  unfold Precedence.Edge Precedence.preds precedence
  by_cases inside : after < program.size
  · simp [inside, List.mem_eraseDups]
  · simp [inside]

/-- The immediate successors of an operation are those through its resources and those that depend
on it. -/
lemma mem_succs_iff : after ∈ program.precedence.succs before ↔ before < program.size ∧
    (after < program.size ∧ before ∈ program.resourcePreds after ∨
      (before, after) ∈ program.dependencies) := by
  unfold Precedence.succs precedence
  by_cases inside : before < program.size
  · simp only [inside, Array.getElem?_ofFn, dite_true, Option.getD_some, List.mem_eraseDups,
      List.mem_append, List.mem_filter, List.mem_range, List.contains_iff_mem, true_and,
      List.mem_map, decide_eq_true_eq]
    refine or_congr (and_congr_right fun inside' => by simp [inside']) ⟨?_, fun known => ?_⟩
    · rintro ⟨⟨_, _⟩, ⟨known, rfl⟩, rfl⟩
      exact known
    · exact ⟨_, ⟨known, rfl⟩, rfl⟩
  · simp [inside]

/-- The lists of the precedence of a closed program agree.

**Proof sketch.** Predecessors and successors are read off the same pairs (`edge_iff`,
`mem_succs_iff`). Pairs through resources are inside by construction and explicit dependencies
because the program is closed. Duplicates are erased from the lists. -/
theorem Closed.precedence_sound (closed : program.Closed) : program.precedence.Sound := by
  have lt_size : ∀ {before after : OpId}, program.precedence.Edge before after →
      before < program.size ∧ after < program.size := by
    intro before after edge
    obtain ⟨inside, member | known⟩ := edge_iff.mp edge
    · exact ⟨(le_of_mem_resourcePreds member).trans_lt inside, inside⟩
    · exact closed.known _ known
  refine ⟨fun {before after} => ⟨fun member => ?_, fun edge => ?_⟩, ?_, fun id => ?_, fun id => ?_⟩
  · obtain ⟨-, ⟨inside, shared⟩ | known⟩ := mem_succs_iff.mp member
    · exact edge_iff.mpr ⟨inside, .inl shared⟩
    · exact edge_iff.mpr ⟨(closed.known _ known).2, .inr known⟩
  · obtain ⟨inside, inside'⟩ := lt_size edge
    exact mem_succs_iff.mpr ⟨inside, (edge_iff.mp edge).2.imp_left fun shared => ⟨inside', shared⟩⟩
  · rw [size_precedence]
    exact lt_size
  · unfold Precedence.preds precedence
    by_cases inside : id < program.size <;> simp [inside, nodup_eraseDups]
  · unfold Precedence.succs precedence
    by_cases inside : id < program.size <;> simp [inside, nodup_eraseDups]

/-! ## Requirements are chains of immediate predecessors -/

/-- Where no operation names a resource twice, immediate predecessors are required. -/
lemma requires_of_edge_of_nodup
    (nodup : ∀ operation ∈ program.operations, operation.resources.Nodup)
    (edge : program.precedence.Edge before after) : program.Requires before after := by
  obtain ⟨-, shared | known⟩ := edge_iff.mp edge
  · obtain ⟨resource, uses, last⟩ := (mem_resourcePreds nodup).mp shared
    obtain ⟨smaller, uses', -⟩ := lastUser_eq_some last
    exact .inr ⟨smaller, resource, uses', uses⟩
  · exact .inl known

/-- In a physical program immediate predecessors are required.

**Proof sketch.** In a physical program no operation names a resource twice (`nodup_of_physical`),
and that is all `requires_of_edge_of_nodup` asks for. -/
theorem requires_of_edge (physical : program.violation? = none)
    (edge : program.precedence.Edge before after) : program.Requires before after :=
  requires_of_edge_of_nodup (fun _ => nodup_of_physical physical) edge

/-- An earlier operation on the same resource comes first along immediate predecessors.

**Proof sketch.** Strong induction on the later operation. The last user of the resource before it
is an immediate predecessor; if that is not yet the earlier operation, it is in between. -/
lemma transGen_edge_of_uses (smaller : before < after) (uses : program.uses before resource)
    (uses' : program.uses after resource) : TransGen program.precedence.Edge before after := by
  induction after using Nat.strong_induction_on with
  | _ after ih =>
    obtain ⟨user, last⟩ := exists_lastUser smaller uses
    obtain ⟨below, uses_user, latest⟩ := lastUser_eq_some last
    have hands := (lastUser_eq_some_iff_handsOver uses').mp last
    have edge : program.precedence.Edge user after := edge_iff.mpr
      ⟨lt_size_of_uses uses', .inl (mem_resourcePreds_iff.mpr (.inl ⟨resource, hands⟩))⟩
    rcases Nat.lt_or_eq_of_le (latest before smaller uses) with between | rfl
    · exact (ih user below between uses_user).tail edge
    · exact .single edge

/-- What is required comes first along immediate predecessors. -/
lemma transGen_edge (closed : program.Closed) (required : program.Requires before after) :
    TransGen program.precedence.Edge before after := by
  rcases required with known | ⟨smaller, resource, uses, uses'⟩
  · exact .single (edge_iff.mpr ⟨(closed.known _ known).2, .inr known⟩)
  · exact transGen_edge_of_uses smaller uses uses'

/-- Chains of immediate predecessors are as good as chains of requirements where no operation names
a resource twice. -/
lemma transGen_edge_eq_of_nodup (closed : program.Closed)
    (nodup : ∀ operation ∈ program.operations, operation.resources.Nodup) :
    TransGen program.precedence.Edge = TransGen program.Requires :=
  le_antisymm (TransGen.mono fun _ _ => requires_of_edge_of_nodup nodup)
    (TransGen.closed fun _ _ => transGen_edge closed)

/-- Chains of immediate predecessors are as good as chains of requirements.

**Proof sketch.** Again only that no operation names a resource twice is needed
(`transGen_edge_eq_of_nodup`). -/
theorem transGen_edge_eq (closed : program.Closed) (physical : program.violation? = none) :
    TransGen program.precedence.Edge = TransGen program.Requires :=
  transGen_edge_eq_of_nodup closed fun _ => nodup_of_physical physical

/-- **The meaning of the precedence.** If no operation of a program names a resource twice, one
operation comes before another along immediate predecessors exactly if it does along requirements:
dependencies, and pairs of operations in program order that share a resource. The lists of
predecessors and of successors say the same, and name no operation twice.

**Proof sketch.** The closures agree by `transGen_edge_eq_of_nodup`: an immediate predecessor is
required, and two users of a resource are joined by the chain of its users between them. The rest is
that the lists are sound (`Closed.precedence_sound`). -/
theorem precedence_reaches (closed : program.Closed)
    (nodup : ∀ operation ∈ program.operations, operation.resources.Nodup) :
    (∀ before after, TransGen program.precedence.Edge before after ↔
        TransGen program.Requires before after) ∧
      (∀ before after, after ∈ program.precedence.succs before ↔
        before ∈ program.precedence.preds after) ∧
      (∀ id, (program.precedence.preds id).Nodup) ∧
      ∀ id, (program.precedence.succs id).Nodup := by
  have sound := closed.precedence_sound
  refine ⟨fun before after => ?_, fun _ _ => sound.mem_succs, sound.nodup_preds, sound.nodup_succs⟩
  rw [transGen_edge_eq_of_nodup closed nodup]

/-- Three gates in turn on one resource, two of them on another one as well, and a gate that depends
on the last of them. -/
def lineup : Program where
  name := "lineup"
  layout := .physical 3
  tasks := #[⟨.gate "a" [0], none⟩, ⟨.gate "b" [0, 1], none⟩, ⟨.gate "c" [1, 0], none⟩,
    ⟨.gate "d" [2], none⟩]
  dependencies := [(2, 3)]

/-- The first gate comes before the last one, although it is an immediate predecessor of neither the
last one nor the one in front of it. -/
theorem precedence_reaches_lineup : lineup.Closed ∧
    (∀ operation ∈ lineup.operations, operation.resources.Nodup) ∧
    TransGen lineup.precedence.Edge 0 3 ∧ 0 ∉ lineup.precedence.preds 2 ∧
    0 ∉ lineup.precedence.preds 3 := by
  have closed : lineup.Closed := ⟨by decide, by decide⟩
  have nodup : ∀ operation ∈ lineup.operations, operation.resources.Nodup := by decide
  have shared : lineup.Requires 0 2 := .inr ⟨by decide, 0, rfl, rfl⟩
  have known : lineup.Requires 2 3 := .inl (by decide)
  refine ⟨closed, nodup, ?_, by decide, by decide⟩
  exact ((precedence_reaches closed nodup).1 0 3).mpr (.tail (.single shared) known)

end Program

end Timetable
