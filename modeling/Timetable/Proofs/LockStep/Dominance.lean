import Mathlib.Data.Nat.Basic
import Mathlib.Order.Basic
import Timetable.Scheduling.LockStep

/-!
# The dominant operation

The operation that a step is made for leads over all others that are ready: it is no delay if one
of the others is none, among these none is longer, and among delays the rule decides. The numbers of
the operations only break ties, so how long the step is does not depend on them.

## Main definitions

* `DominanceKey.Leads` — a key comes first or ties, whatever the numbers of the operations.
* `Workload.Dominant` — an operation leads over all that are ready.

## Main results

* `DominanceKey.leads_of_least?` — the least key leads over all others.
* `Grouping.exists_dominant` — if operations are ready, one of them is dominant.
-/

set_option autoImplicit false

namespace Timetable

namespace DominanceKey

/-! ## The order of keys -/

/-- The key of a delay follows a rule. -/
def Follows (rule : DelayRule) : DominanceKey → Prop
  | operation .. => True
  | delay _ _ own => own = rule

/-- A key comes before another one or ties with it, whatever the numbers of the operations. -/
def Leads : DominanceKey → DominanceKey → Prop
  | operation d _, operation e _ => e ≤ d
  | operation .., delay .. => True
  | delay .., operation .. => False
  | delay d _ .shortest, delay e _ _ => d ≤ e
  | delay d _ .longest, delay e _ _ => e ≤ d

variable {rule : DelayRule} {key other third : DominanceKey} {keys : List DominanceKey}

/-- A key leads over itself. -/
lemma Leads.refl (key : DominanceKey) : key.Leads key := by
  cases key with
  | operation d i => exact le_refl d
  | delay d i rule => cases rule <;> exact le_refl d

/-- A key that leads over a second one, which leads over a third one, leads over the third one, if
all of them follow one rule.

**Proof sketch.** By the kinds of the keys. Operations lead over delays, so a delay is never
followed by an operation; among the same kind, durations are compared, in the direction that the
rule says. -/
lemma Leads.trans (follows : key.Follows rule) (follows' : other.Follows rule)
    (first : key.Leads other) (second : other.Leads third) : key.Leads third := by
  cases key with
  | operation d i =>
    cases other with
    | operation e j =>
      cases third with
      | operation f k => exact Nat.le_trans second first
      | delay => trivial
    | delay e j own =>
      cases third with
      | operation => cases second
      | delay => trivial
  | delay d i own =>
    cases other with
    | operation => cases own <;> cases first
    | delay e j own' =>
      obtain rfl : own = rule := follows
      obtain rfl : own' = own := follows'
      cases third with
      | operation => cases own' <;> cases second
      | delay f k =>
        cases own' with
        | shortest => exact Nat.le_trans first second
        | longest => exact Nat.le_trans second first

/-- Numbers are only compared if everything else ties. -/
lemma le_of_then_ne_gt {a b : Nat} {tie : Ordering}
    (before : (Ord.compare a b).then tie ≠ .gt) : a ≤ b := by
  by_contra greater
  have gt : Ord.compare a b = .gt := Nat.compare_eq_gt.mpr (Nat.lt_of_not_le greater)
  exact before (by rw [gt]; rfl)

/-- If a comparison with ties says that the second number comes first, then it is not greater. -/
lemma le_of_then_eq_gt {a b : Nat} {tie : Ordering}
    (behind : (Ord.compare a b).then tie = .gt) : b ≤ a := by
  by_contra greater
  have lt : Ord.compare a b = .lt := Nat.compare_eq_lt.mpr (Nat.lt_of_not_le greater)
  rw [lt] at behind
  cases behind

/-- A key that does not come behind another one leads over it. -/
lemma leads_of_compare_ne_gt (before : key.compare other ≠ .gt) : key.Leads other := by
  cases key with
  | operation d i =>
    cases other with
    | operation e j => exact le_of_then_ne_gt before
    | delay => trivial
  | delay d i own =>
    cases other with
    | operation => cases own <;> exact absurd rfl before
    | delay e j own' => cases own <;> exact le_of_then_ne_gt before

/-- A key that another one comes behind leads over it.

**Proof sketch.** Split on both keys. Operations come in front of delays, and two keys of one kind
are compared by duration first, in the order of the rule that both follow. -/
lemma leads_of_compare_eq_gt (follows : key.Follows rule) (follows' : other.Follows rule)
    (behind : key.compare other = .gt) : other.Leads key := by
  cases key with
  | operation d i =>
    cases other with
    | operation e j => exact le_of_then_eq_gt behind
    | delay => cases behind
  | delay d i own =>
    cases other with
    | operation => trivial
    | delay e j own' =>
      obtain rfl : own = rule := follows
      obtain rfl : own' = own := follows'
      cases own' <;> exact le_of_then_eq_gt behind

/-! ## The least key -/

/-- The least of some keys is one of them. -/
lemma mem_of_least? (least : least? keys = some key) : key ∈ keys := by
  cases keys with
  | nil => cases least
  | cons first others =>
    obtain rfl := Option.some.inj least
    refine List.foldlRecOn (motive := fun best => best ∈ first :: others) others _
      List.mem_cons_self ?_
    intro best member other among
    split
    · exact List.mem_cons_of_mem _ among
    · exact member

/-- Some keys have a least one. -/
lemma exists_least? (some_key : keys ≠ []) : ∃ key, least? keys = some key := by
  cases keys with
  | nil => exact absurd rfl some_key
  | cons first others => exact ⟨_, rfl⟩

/-- The key of an operation has its number. -/
@[simp]
lemma id_of (id : OpId) (duration : Tick) (isDelay : Bool) (rule : DelayRule) :
    (of id duration isDelay rule).id = id := by
  cases isDelay <;> rfl

/-- The key of an operation has its duration. -/
@[simp]
lemma duration_of (id : OpId) (duration : Tick) (isDelay : Bool) (rule : DelayRule) :
    (of id duration isDelay rule).duration = duration := by
  cases isDelay <;> rfl

/-- The least key leads over all others.

**Proof sketch.** Walk along the list with the best key so far. It leads over those that it
replaced, because leading is transitive among keys that follow one rule. -/
theorem leads_of_least? (follows : ∀ key ∈ keys, key.Follows rule)
    (least : least? keys = some key) : ∀ other ∈ keys, key.Leads other := by
  cases keys with
  | nil => cases least
  | cons first others =>
    obtain rfl := Option.some.inj least
    have first_follows := follows first List.mem_cons_self
    have others_follow : ∀ key ∈ others, key.Follows rule := fun key member =>
      follows key (List.mem_cons_of_mem _ member)
    suffices all : ∀ best : DominanceKey, best.Follows rule →
        let last := others.foldl
          (fun best other => if best.compare other = .gt then other else best) best
        last.Follows rule ∧ last.Leads best ∧ ∀ other ∈ others, last.Leads other from
      List.forall_mem_cons.mpr (all first first_follows).2
    clear least follows first_follows
    induction others with
    | nil => exact fun best follows => ⟨follows, .refl best, by simp⟩
    | cons next others ih =>
      intro best follows
      have next_follows := others_follow next List.mem_cons_self
      have ih := ih fun key member => others_follow key (List.mem_cons_of_mem _ member)
      rw [List.foldl_cons]
      split
      · rename_i behind
        obtain ⟨last_follows, leads, rest⟩ := ih next next_follows
        have ahead := leads_of_compare_eq_gt follows next_follows behind
        exact ⟨last_follows, leads.trans last_follows next_follows ahead,
          List.forall_mem_cons.mpr ⟨leads, rest⟩⟩
      · rename_i before
        obtain ⟨last_follows, leads, rest⟩ := ih best follows
        have ahead := leads_of_compare_ne_gt before
        exact ⟨last_follows, leads,
          List.forall_mem_cons.mpr ⟨leads.trans last_follows follows ahead, rest⟩⟩

end DominanceKey

/-- Operation `id`, of which `length` ticks are left, leads over all that are ready. If some of
these are no delays, it is the longest of them; otherwise it is the shortest or the longest delay,
whichever the rule says. -/
structure Workload.Dominant (work : Workload) (ready : List OpId) (remaining : Array Tick)
    (id : OpId) (length : Tick) : Prop where
  among : id ∈ ready
  length_eq : length = remaining[id]?.getD 0
  operation : ∀ other ∈ ready, work.isDelay other = false →
    work.isDelay id = false ∧ remaining[other]?.getD 0 ≤ length
  delay : work.isDelay id = true → ∀ other ∈ ready, match work.rule with
    | .shortest => length ≤ remaining[other]?.getD 0
    | .longest => remaining[other]?.getD 0 ≤ length

namespace Grouping

variable {work : Workload} {grouping : Grouping} {dominant : DominanceKey}

/-- If operations are ready, one of them is dominant.

**Proof sketch.** There is a least key as soon as there are any keys. -/
theorem exists_dominant (work : Workload) (ready : grouping.residual.frontier ≠ []) :
    ∃ dominant, grouping.dominant? work = some dominant :=
  DominanceKey.exists_least? (by simpa using ready)

/-- The dominant operation leads over all that are ready, and what is left of it gives the length of
the step.

**Proof sketch.** The key that is found is that of a ready operation, and it leads over the keys of
all others. What this says about durations follows from the kinds of the two operations and the
rule. -/
lemma dominant_of_dominant? (found : grouping.dominant? work = some dominant) :
    work.Dominant grouping.residual.frontier grouping.remaining dominant.id dominant.duration := by
  obtain ⟨id, ready, rfl⟩ := List.mem_map.mp (DominanceKey.mem_of_least? found)
  have follows : ∀ key ∈ grouping.residual.frontier.map fun id =>
      DominanceKey.of id (grouping.remaining[id]?.getD 0) (work.isDelay id) work.rule,
      key.Follows work.rule := by
    intro key member
    obtain ⟨other, -, rfl⟩ := List.mem_map.mp member
    cases delay : work.isDelay other <;> simp [DominanceKey.of, DominanceKey.Follows]
  have leads : ∀ other ∈ grouping.residual.frontier,
      (DominanceKey.of id (grouping.remaining[id]?.getD 0) (work.isDelay id) work.rule).Leads
        (.of other (grouping.remaining[other]?.getD 0) (work.isDelay other) work.rule) :=
    fun other member => DominanceKey.leads_of_least? follows found _ (List.mem_map_of_mem member)
  simp only [DominanceKey.id_of, DominanceKey.duration_of]
  refine ⟨ready, rfl, fun other member plain => ?_, fun delay other member => ?_⟩
  · have leads := leads other member
    cases kind : work.isDelay id with
    | true => simp [DominanceKey.of, kind, plain, DominanceKey.Leads] at leads
    | false => simpa [DominanceKey.of, kind, plain, DominanceKey.Leads] using leads
  · have leads := leads other member
    cases kind : work.isDelay other with
    | false => simp [DominanceKey.of, kind, delay, DominanceKey.Leads] at leads
    | true =>
      cases rule : work.rule <;>
        simpa [DominanceKey.of, kind, delay, rule, DominanceKey.Leads] using leads

end Grouping

end Timetable
