import Timetable.Dictionary
import Timetable.Sorting
import Timetable.Tick

/-!
# Implementations

An operation is carried out by instructions that play on hardware channels. The implementation of
an operation lists them with offsets from the start of the operation.

## Main definitions

* `Channel` — the hardware channels, with their labels and their order.
* `Instruction`, `Implementation` — what an operation amounts to.
* `ImplementationLookup` — where implementations come from.
* `Implementations` — the implementations of operations by name and resources.
-/

set_option autoImplicit false

namespace Timetable

/-- A hardware channel. -/
inductive Channel where
  | drive (index : Nat)
  | measure (index : Nat)
  | acquire (index : Nat)
  | control (index : Nat)
  deriving DecidableEq, Repr

namespace Channel

/-- The channels of a resource. -/
def ofResource (resource : Resource) : List Channel :=
  [drive resource, measure resource, acquire resource]

/-- The place of the kind of a channel in the order. -/
def rank : Channel → Nat
  | drive _ => 0
  | measure _ => 1
  | acquire _ => 2
  | control _ => 3

/-- The number of a channel among those of its kind. -/
def index : Channel → Nat
  | drive index => index
  | measure index => index
  | acquire index => index
  | control index => index

/-- The label of a channel. -/
def label : Channel → String
  | drive index => s!"d{index}"
  | measure index => s!"m{index}"
  | acquire index => s!"a{index}"
  | control index => s!"u{index}"

/-- The order of channels: by kind, then by number. -/
def le (a b : Channel) : Bool :=
  a.rank < b.rank || a.rank = b.rank && a.index ≤ b.index

/-- Channels in their order. -/
def sort (channels : List Channel) : List Channel := sortBy le channels

end Channel

/-- An instruction, relative to the start of its operation. -/
structure Instruction where
  name : String
  channel : Channel
  offset : Tick
  duration : Tick
  deriving DecidableEq, Repr

/-- The instructions that carry out an operation. -/
structure Implementation where
  instructions : List Instruction
  deriving DecidableEq, Repr

/-- The latest end of an instruction. -/
def Implementation.duration (implementation : Implementation) : Tick :=
  latest (implementation.instructions.map fun i => i.offset + i.duration)

/-- A source of implementations: asked for the name and the resources of an operation, it may know
how the operation is carried out. -/
abbrev ImplementationLookup := (name : String) → (resources : List Resource) → Option Implementation

/-- The implementations of operations, by name and resources. -/
abbrev Implementations := Dictionary (String × List Resource) Implementation

/-- Looking for an implementation in a list of them. -/
def Implementations.toLookup (implementations : Implementations) : ImplementationLookup :=
  fun name resources => implementations.lookup (name, resources)

end Timetable
