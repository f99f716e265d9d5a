/-!
# Units of time

The units in which the length of a delay can be given: the tick itself, written `dt`, and the
second with its decimal fractions.

## Main definitions

* `TimeUnit` — the units; `TimeUnit.symbol` and `TimeUnit.ofSymbol?` — their spellings.
* `TimeUnit.seconds?` — the length of a unit in seconds.

## Main results

* `TimeUnit.ofSymbol?_symbol` — every unit is read back from its symbol.
-/

set_option autoImplicit false

namespace Timetable

/-- A unit of time. -/
inductive TimeUnit where
  /-- One tick; its length in seconds depends on the target. -/
  | dt
  | s
  | ms
  | us
  | ns
  | ps
  deriving DecidableEq, Repr

namespace TimeUnit

/-- The length of a unit in seconds, unless it depends on the target. -/
def seconds? : TimeUnit → Option Float
  | dt => none
  | s => some 1.0
  | ms => some 1e-3
  | us => some 1e-6
  | ns => some 1e-9
  | ps => some 1e-12

/-- The symbol a unit is written with. -/
def symbol : TimeUnit → String
  | dt => "dt"
  | s => "s"
  | ms => "ms"
  | us => "us"
  | ns => "ns"
  | ps => "ps"

/-- The unit that a symbol stands for. The microsecond may also be spelled with the micro
sign. -/
def ofSymbol? (text : String) : Option TimeUnit :=
  if text = "dt" then some dt
  else if text = "s" then some s
  else if text = "ms" then some ms
  else if text = "us" ∨ text = "µs" then some us
  else if text = "ns" then some ns
  else if text = "ps" then some ps
  else none

/-- Every unit is read back from its symbol. -/
@[simp]
theorem ofSymbol?_symbol (unit : TimeUnit) : ofSymbol? unit.symbol = some unit := by
  cases unit <;> decide

end TimeUnit

end Timetable
