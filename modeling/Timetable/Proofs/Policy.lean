import Timetable.Proofs.Program.WellFormed
import Timetable.Scheduling.Policy

/-!
# The policies that callers can choose

The settings of a caller name a policy, and scheduling is the run of that policy. Names that stand
for none are refused.

## Main definitions

* `Policy.Offered` — the policies with the names of their methods.
* `Program.relay` — a small program to try the policies on.

## Main results

* `Program.schedule_eq_ok`, `Program.result_schedule` — scheduling succeeds as the policy does.
-/

set_option autoImplicit false

namespace Timetable

variable {program : Program} {table : DurationTable} {settings : Settings} {schedule : Schedule}

/-- The policies that a caller can choose, with the names of their methods. -/
inductive Policy.Offered (table : DurationTable) : (method : String) → Policy → Prop
  | asap : Offered table "asap" (forward table)
  | alap : Offered table "alap" (reversed (forward table) table)
  | asapTimestep (rule : DelayRule) :
    Offered table "asap_timestep" (lockStep table rule .closing)
  | alapTimestep (rule : DelayRule) :
    Offered table "alap_timestep" (reversed (lockStep table rule .opening) table)

/-- The settings of a caller name one of the policies on offer.

**Proof sketch.** The cases of the definition, one for each method. Only the methods in lock step
read the rule for delays. -/
lemma Policy.ofSettings_eq_ok {policy : Policy} (ok : ofSettings settings table = .ok policy) :
    Offered table settings.method policy := by
  obtain ⟨method, rule, verbosity⟩ := settings
  unfold ofSettings Method.parse at ok
  dsimp only at ok ⊢
  split at ok
  · subst method
    cases ok
    exact .asap
  split at ok
  · subst method
    cases ok
    exact .alap
  split at ok
  · subst method
    cases parsed : DelayRule.parse rule with
    | error e => simp [bind, Except.bind, ofMethod, parsed, Except.map] at ok
    | ok rule =>
      simp only [bind, Except.bind, ofMethod, parsed, Except.map] at ok
      cases ok
      exact .asapTimestep rule
  split at ok
  · subst method
    cases parsed : DelayRule.parse rule with
    | error e => simp [bind, Except.bind, ofMethod, parsed, Except.map] at ok
    | ok rule =>
      simp only [bind, Except.bind, ofMethod, parsed, Except.map] at ok
      cases ok
      exact .alapTimestep rule
  · cases ok

/-- Every operation as soon as possible. -/
lemma Policy.ofSettings_asap (method : settings.method = "asap") :
    ofSettings settings table = .ok (forward table) := by
  simp [ofSettings, Method.parse, method, bind, Except.bind, ofMethod]

/-- Every operation as late as possible. -/
lemma Policy.ofSettings_alap (method : settings.method = "alap") :
    ofSettings settings table = .ok (reversed (forward table) table) := by
  simp [ofSettings, Method.parse, method, bind, Except.bind, ofMethod, latest, forReversal]

/-- In lock step as soon as possible. -/
lemma Policy.ofSettings_asapTimestep {rule : DelayRule}
    (method : settings.method = "asap_timestep")
    (parsed : DelayRule.parse settings.rule = .ok rule) :
    ofSettings settings table = .ok (lockStep table rule .closing) := by
  simp [ofSettings, Method.parse, method, bind, Except.bind, ofMethod, parsed, Except.map]

/-- In lock step as late as possible. -/
lemma Policy.ofSettings_alapTimestep {rule : DelayRule}
    (method : settings.method = "alap_timestep")
    (parsed : DelayRule.parse settings.rule = .ok rule) :
    ofSettings settings table = .ok (reversed (lockStep table rule .opening) table) := by
  simp [ofSettings, Method.parse, method, bind, Except.bind, ofMethod, parsed, Except.map, latest,
    forReversal]

/-- The names of the two rules are understood. -/
lemma DelayRule.exists_parse {text : String} (known : text ∈ ["shortest", "longest"]) :
    ∃ rule, parse text = .ok rule := by
  simp only [List.mem_cons, List.not_mem_nil, or_false] at known
  rcases known with rfl | rfl
  · exact ⟨.shortest, rfl⟩
  · exact ⟨.longest, rfl⟩

/-- The names of the methods and of the rules all name policies. -/
lemma Policy.exists_ofSettings (table : DurationTable)
    (method : settings.method ∈ ["asap", "alap", "asap_timestep", "alap_timestep"])
    (rule : settings.rule ∈ ["shortest", "longest"]) :
    ∃ policy, ofSettings settings table = .ok policy := by
  obtain ⟨method, rule, verbosity⟩ := settings
  simp only [List.mem_cons, List.not_mem_nil, or_false] at method rule
  rcases rule with rfl | rfl <;> rcases method with rfl | rfl | rfl | rfl <;> exact ⟨_, rfl⟩

/-- A successful run is that of the policy that its settings name. -/
lemma Program.exists_policy (ok : (program.schedule table settings).result = .ok schedule) :
    ∃ policy, Policy.ofSettings settings table = .ok policy ∧
      (policy.run program).result = .ok schedule := by
  unfold Program.schedule at ok
  split at ok
  · cases ok
  · rename_i policy named
    refine ⟨policy, named, ?_⟩
    dsimp only at ok
    split at ok
    · assumption
    · exact ok

/-- A successful run is that of a policy on offer.

**Proof sketch.** The settings were accepted, so they name a policy (`exists_policy`), and this
policy is on offer. -/
theorem Program.schedule_eq_ok (ok : (program.schedule table settings).result = .ok schedule) :
    ∃ policy, Policy.Offered table settings.method policy ∧
      (policy.run program).result = .ok schedule := by
  obtain ⟨policy, named, ok⟩ := exists_policy ok
  exact ⟨policy, Policy.ofSettings_eq_ok named, ok⟩

/-- A run has the result of the policy that its settings name.

**Proof sketch.** The verbosity of the settings decides on notes only. -/
theorem Program.result_schedule {policy : Policy}
    (named : Policy.ofSettings settings table = .ok policy) :
    (program.schedule table settings).result = (policy.run program).result := by
  unfold Program.schedule
  rw [named]
  dsimp only
  split <;> rfl

/-- A run succeeds with the schedule of the policy that its settings name. -/
lemma Program.schedule_of_run {policy : Policy}
    (named : Policy.ofSettings settings table = .ok policy)
    (ok : (policy.run program).result = .ok schedule) :
    (program.schedule table settings).result = .ok schedule :=
  (result_schedule named).trans ok

/-- A gate and a longer delay, a gate behind both, and another gate that depends on the first. -/
def Program.relay : Program where
  name := "relay"
  layout := .physical 3
  tasks := #[⟨.gate "h" [0], none⟩, ⟨.delay (.ticks 5) 1, none⟩, ⟨.gate "cx" [0, 1], none⟩,
    ⟨.gate "x" [2], none⟩]
  dependencies := [(0, 3)]

/-- The durations of the gates. -/
def DurationTable.relay : DurationTable :=
  .ofList [("h", [0], 3), ("cx", [0, 1], 4), ("x", [2], 2)]

/-- The program is built operation by operation. -/
lemma Program.built_relay : relay.Built := by
  have first := @Built.push _ _ (.gate "h" [0]) (.empty "relay" (.physical 3)) rfl
  have second := @Built.push _ _ (.delay (.ticks 5) 1) first rfl
  have third := @Built.push _ _ (.gate "cx" [0, 1]) second rfl
  have fourth := @Built.push _ _ (.gate "x" [2]) third rfl
  exact @Built.depend _ _ 0 3 fourth rfl

end Timetable
