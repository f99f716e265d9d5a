import Timetable.Scheduling.Note
import Timetable.Sequencing.Implementation

/-!
# Sequencing

A schedule is lowered to instructions at absolute ticks. On the way every resource is walked from
tick zero, to confirm that each entry starts exactly when all of its resources are free.

## Main definitions

* `TimedInstruction`, `Sequence` — instructions at absolute ticks.
* `Walk` — how far every resource has been walked; `Walk.defect?`, `Walk.advance`, `Walk.run`.
* `Schedule.sequenceWith`, `Schedule.sequence` — the instructions of a schedule.
-/

set_option autoImplicit false

namespace Timetable

/-- An instruction at an absolute tick. -/
structure TimedInstruction where
  start : Tick
  name : String
  channel : Channel
  duration : Tick
  deriving DecidableEq, Repr

/-- The tick at which an instruction ends. -/
def TimedInstruction.stop (instruction : TimedInstruction) : Tick :=
  instruction.start + instruction.duration

/-- An instruction of an operation that starts at a tick. -/
def Instruction.placedAt (instruction : Instruction) (tick : Tick) : TimedInstruction where
  start := tick + instruction.offset
  name := instruction.name
  channel := instruction.channel
  duration := instruction.duration

/-- The instructions of a schedule, by increasing start. -/
structure Sequence where
  name : String
  duration : Tick
  instructions : List TimedInstruction
  deriving DecidableEq, Repr

/-- The instructions on a channel. -/
def Sequence.onChannel (sequence : Sequence) (channel : Channel) : List TimedInstruction :=
  sequence.instructions.filter fun instruction => instruction.channel = channel

/-- What is wrong with an entry of a schedule. -/
inductive Defect where
  | noResources
  | undeclared (resource : Resource)
  | disagree (first : Resource) (firstFree : Tick) (resource : Resource) (free : Tick)
  | misplaced (recorded free : Tick)
  deriving DecidableEq, Repr

/-- The wording of a defect. -/
def Defect.message : Defect → String
  | noResources => "touches no resources"
  | undeclared resource => s!"uses undeclared resource {resource}"
  | disagree first firstFree resource free =>
    s!"resources disagree on start: {first} is free at {firstFree}, {resource} at {free}"
  | misplaced recorded free => s!"recorded at {recorded} but resources are free at {free}"

/-- Why a schedule cannot be lowered. -/
inductive SequencingError where
  /-- An entry does not fit behind the earlier ones. -/
  | defective (index : Nat) (name : String) (defect : Defect)
  /-- There are no instructions for an operation. -/
  | missingImplementation (name : String) (resources : List Resource)
  /-- The instructions do not take as long as the schedule. -/
  | durationMismatch (expected actual : Tick)
  deriving DecidableEq, Repr

/-- The wording of an error. -/
def SequencingError.message : SequencingError → String
  | defective index name defect =>
    s!"Bug in scheduler: entry {index} ('{name}') " ++ defect.message
  | missingImplementation name resources =>
    s!"No implementation for operation '{name}' on resources " ++ Text.listed resources
  | durationMismatch expected actual =>
    s!"Sequenced duration {actual} does not match scheduled duration {expected}"

/-- How far the resources have been walked. -/
structure Walk where
  /-- When each resource is free. -/
  cursors : Array Tick
  /-- The instructions so far, in the order of the entries. -/
  instructions : List TimedInstruction := []
  notes : Array Note := #[]
  deriving Repr

namespace Walk

/-- Every resource free from tick zero on. -/
def start (numResources : Nat) : Walk where
  cursors := Array.replicate numResources 0

/-- When a resource is free. -/
def cursor (walk : Walk) (resource : Resource) : Tick := walk.cursors[resource]?.getD 0

/-- The first defect of an entry, if it has any. -/
def defect? (walk : Walk) (entry : Entry) : Option Defect :=
  match entry.resources with
  | [] => some .noResources
  | first :: others =>
    match (first :: others).find? (walk.cursors.size ≤ ·) with
    | some resource => some (.undeclared resource)
    | none =>
      let start := walk.cursor first
      match (first :: others).find? (walk.cursor · ≠ start) with
      | some resource => some (.disagree first start resource (walk.cursor resource))
      | none => if start = entry.start then none else some (.misplaced entry.start start)

/-- Keeps the resources of an entry for its duration. -/
def advance (walk : Walk) (index : Nat) (entry : Entry) : Walk :=
  { walk with
    cursors := entry.resources.foldl
      (fun cursors resource => cursors.modify resource (· + entry.duration)) walk.cursors
    notes := walk.notes.push (.sequenced index entry.operation.name entry.start) }

/-- The idle instructions of a resource: one on each of its channels. -/
def idle (resource : Resource) (start duration : Tick) : List TimedInstruction :=
  (Channel.ofResource resource).map fun channel => { start, name := "delay", channel, duration }

/-- The instructions of an entry, if it can be carried out. -/
def instructionsOf (lookup : ImplementationLookup) (entry : Entry) :
    Option (List TimedInstruction) :=
  match entry.operation with
  | .barrier _ => some []
  | .timestep _ _ => some []
  | .delay _ resource => some (idle resource entry.start entry.duration)
  | .gate name resources =>
    (lookup name resources).map fun implementation =>
      implementation.instructions.map (·.placedAt entry.start)

/-- Walks the entries, the first of which has number `index`, up to the first that is defective or
cannot be carried out. -/
def run (lookup : ImplementationLookup) :
    (index : Nat) → List Entry → Walk → Walk × Option SequencingError
  | _, [], walk => (walk, none)
  | index, entry :: entries, walk =>
    match walk.defect? entry with
    | some defect => (walk, some (.defective index entry.operation.name defect))
    | none =>
      let advanced := walk.advance index entry
      match instructionsOf lookup entry with
      | none => (advanced, some (.missingImplementation entry.operation.name entry.resources))
      | some more =>
        run lookup (index + 1) entries
          { advanced with instructions := walk.instructions ++ more }

/-- The latest tick that a resource or an instruction reaches. -/
def reach (walk : Walk) : Tick :=
  max (latest walk.cursors.toList) (latest (walk.instructions.map TimedInstruction.stop))

end Walk

/-- The instructions of a schedule by increasing start; those that start together keep the order
of the entries. Also gives the notes of the walk. -/
def Schedule.sequenceWith (schedule : Schedule) (lookup : ImplementationLookup) :
    Array Note × Except SequencingError Sequence :=
  let (walk, failure) := Walk.run lookup 0 schedule.entries (Walk.start schedule.numResources)
  (walk.notes,
    match failure with
    | some e => .error e
    | none =>
      if walk.reach = schedule.duration then
        .ok
          { name := schedule.name
            duration := schedule.duration
            instructions := sortBy (fun a b => a.start ≤ b.start) walk.instructions }
      else .error (.durationMismatch schedule.duration walk.reach))

/-- The instructions of a schedule whose implementations are listed. -/
def Schedule.sequence (schedule : Schedule) (implementations : Implementations) :
    Array Note × Except SequencingError Sequence :=
  schedule.sequenceWith implementations.toLookup

end Timetable
