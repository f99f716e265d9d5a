import Timetable.Tick

/-!
# The exact value of a binary64 number

A finite binary64 number is `± m · 2 ^ q` for natural `m` and integral `q`. This module reads
sign, `m` and `q` off the word that stores the number, and converts numbers to ticks exactly.

## Main definitions

* `Binary` — a binary64 number taken apart: not a number, infinite, zero, or `± m · 2 ^ q`.
* `Binary.ofFloat` — the reading of a machine number.
* `Binary.wholeTicks?` — the ticks that a number without a fraction stands for.
* `Binary.nearestTick` — the tick nearest to a number, halves going up.
-/

set_option autoImplicit false

namespace Timetable

/-- A positive value `significand · 2 ^ exponent` of the binary64 grid. -/
structure GridPoint where
  /-- The integral factor; positive. -/
  significand : Nat
  /-- The power of two it is scaled by. -/
  exponent : Int
  /-- Whether the value opens a binade, so that the next value below it is only half as far
  away as the next value above it. -/
  opensBinade : Bool
  deriving DecidableEq, Repr

/-- A binary64 number taken apart. -/
inductive Binary where
  | notANumber
  | infinite (negative : Bool)
  | zero (negative : Bool)
  | nonzero (negative : Bool) (magnitude : GridPoint)
  deriving DecidableEq, Repr

/-- The integer nearest to a value; a value halfway between two goes up. -/
def GridPoint.nearest (x : GridPoint) : Nat :=
  let unit := Nat.pow 2 (-x.exponent).toNat
  (2 * x.significand * Nat.pow 2 x.exponent.toNat + unit) / (2 * unit)

/-- Whether a value is an integer. -/
def GridPoint.isWhole (x : GridPoint) : Bool :=
  x.significand % Nat.pow 2 (-x.exponent).toNat = 0

namespace Binary

/-- The number that a 64-bit word stores: one sign bit, eleven exponent bits, and fifty-two
fraction bits. -/
def ofWord (word : Nat) : Binary :=
  let negative := word / Nat.pow 2 63 % 2 == 1
  let biased := word / Nat.pow 2 52 % Nat.pow 2 11
  let fraction := word % Nat.pow 2 52
  if biased = Nat.pow 2 11 - 1 then
    if fraction = 0 then .infinite negative else .notANumber
  else if biased = 0 then
    if fraction = 0 then .zero negative else .nonzero negative ⟨fraction, -1074, false⟩
  else
    .nonzero negative ⟨Nat.pow 2 52 + fraction, (biased : Int) - 1075, fraction = 0 ∧ 1 < biased⟩

/-- The reading of a machine number. -/
def ofFloat (x : Float) : Binary :=
  .ofWord x.toBits.toNat

/-- The ticks that a number stands for, if it is neither negative nor infinite and has no
fraction. Negative zero is zero, and a number that is too large counts as `tickLimit`. -/
def wholeTicks? : Binary → Option Tick
  | notANumber => none
  | infinite _ => none
  | zero _ => some 0
  | nonzero true _ => none
  | nonzero false x => if x.isWhole then some (min x.nearest tickLimit) else none

/-- The tick nearest to a number; a number halfway between two goes up, one that is too large
counts as `tickLimit`, and one below zero as zero. -/
def nearestTick : Binary → Tick
  | notANumber => 0
  | infinite negative => if negative then 0 else tickLimit
  | zero _ => 0
  | nonzero true _ => 0
  | nonzero false x => min x.nearest tickLimit

end Binary

end Timetable
