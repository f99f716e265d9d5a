import Timetable.Binary

/-!
# The shortest decimal of a binary64 number

Among the decimals that round to a given binary64 number, the shortest one has the fewest
significant digits; of two decimals of that length the nearer one is taken, and of two equally
near ones the larger.

The decimals that round to `m · 2 ^ q` form an interval: half a step of the binary grid to either
side, a quarter of a step below when the number opens a binade, with the ends included exactly
when `m` is even. For each number of digits only the two neighbours of the value on the decimal
grid of that many digits can be nearest, so those two are tested.

A number is written with its shortest digits in one of two forms. The scientific form has one
digit before the point and always an exponent, `3.55e-8`; the positional form never has an
exponent, `0.0000000355`. Neither writes a point without digits behind it, a plus sign, or a
padded exponent.

## Main definitions

* `Scientific` — a decimal `d₁.d₂d₃… · 10 ^ e` without trailing zeros.
* `shortest` — the shortest decimal of a point of the binary grid.
* `scientific` — a number with one digit before the point, then the exponent.
* `positional` — a number with all digits in place.
-/

set_option autoImplicit false

namespace Timetable.Decimal

/-- The decimal `d₁.d₂d₃… · 10 ^ exponent`, given by its digits. -/
structure Scientific where
  /-- The significant digits, leading digit first. -/
  digits : List Char
  /-- The power of ten that the leading digit counts. -/
  exponent : Int
  deriving DecidableEq, Repr

/-- The largest `k` with `10 ^ k ≤ n`, for positive `n`. -/
def floorLog10 (n : Nat) : Nat :=
  (Nat.toDigits 10 n).length - 1

/-- The power of ten that the leading digit of `num / den` counts, for positive `num` and
`den`. -/
def decade (num den : Nat) : Int :=
  if den ≤ num then
    floorLog10 (num / den)
  else
    -((floorLog10 ((den + num - 1) / num - 1) + 1 : Nat) : Int)

/-- The decimals that round to one number: the fractions over `den` between `low` and `high`,
around `value`. -/
structure Rounding where
  /-- Numerator of the lower end. -/
  low : Nat
  /-- Numerator of the value itself. -/
  value : Nat
  /-- Numerator of the upper end. -/
  high : Nat
  /-- The common denominator. -/
  den : Nat
  /-- Whether the ends themselves round to the number. -/
  closed : Bool

/-- The interval of reals that round to a grid point. Numerators count quarters of the grid's
step. -/
def rounding (x : GridPoint) : Rounding :=
  let quarter := x.exponent - 2
  let up := Nat.pow 2 quarter.toNat
  { low := (4 * x.significand - if x.opensBinade then 1 else 2) * up
    value := 4 * x.significand * up
    high := (4 * x.significand + 2) * up
    den := Nat.pow 2 (-quarter).toNat
    closed := x.significand % 2 = 0 }

/-- Whether `candidate / den`, for a candidate over the denominator of `r`, lies in the
interval. -/
def Rounding.holds (r : Rounding) (candidate : Nat) : Bool :=
  if r.closed then r.low ≤ candidate && candidate ≤ r.high
  else r.low < candidate && candidate < r.high

/-- The multiple of `10 ^ unit` that rounds to the number and is nearest to it, if one of the
value's two neighbours among the multiples rounds to it; a tie goes up. -/
def Rounding.onGrid? (r : Rounding) (unit : Int) : Option Nat :=
  let scale := Nat.pow 10 (-unit).toNat
  let scaled : Rounding :=
    { r with low := r.low * scale, value := r.value * scale, high := r.high * scale }
  let step := r.den * Nat.pow 10 unit.toNat
  let below := scaled.value / step
  let above := below + 1
  match scaled.holds (below * step), scaled.holds (above * step) with
  | true, true => some (if (below + above) * step ≤ 2 * scaled.value then above else below)
  | true, false => some below
  | false, true => some above
  | false, false => none

/-- The digits of a positive number without its trailing zeros. -/
def significantDigits (n : Nat) : List Char :=
  ((Nat.toDigits 10 n).reverse.dropWhile (· == '0')).reverse

/-- The shortest decimal with at least `digits` digits, looked for at most `tries` times. -/
def Rounding.search (r : Rounding) (top : Int) : (tries digits : Nat) → Option Scientific
  | 0, _ => none
  | tries + 1, digits =>
    let unit := top + 1 - digits
    match r.onGrid? unit with
    | some n => some ⟨significantDigits n, unit + floorLog10 n⟩
    | none => r.search top tries (digits + 1)

/-- The shortest decimal of a point of the binary grid. Seventeen digits always suffice. -/
def shortest (x : GridPoint) : Scientific :=
  let r := rounding x
  (r.search (decade r.value r.den) 17 1).getD ⟨['0'], 0⟩

/-! ## Written forms -/

/-- A sign in front of a text, for the negative numbers and for negative zero. -/
def signed (negative : Bool) (text : String) : String :=
  if negative then "-" ++ text else text

/-- A fraction behind its point, or nothing if there are no digits. -/
def fraction : List Char → String
  | [] => ""
  | digits => "." ++ String.ofList digits

/-- The form `d.ddde±x` of a decimal. -/
def Scientific.written (d : Scientific) : String :=
  String.ofList (d.digits.take 1) ++ fraction (d.digits.drop 1) ++ "e" ++ toString d.exponent

/-- The form of a decimal with every digit in its place. -/
def Scientific.inPlace (d : Scientific) : String :=
  if d.exponent < 0 then
    "0" ++ fraction (List.replicate (-d.exponent - 1).toNat '0' ++ d.digits)
  else
    let whole := d.exponent.toNat + 1
    String.ofList (d.digits.take whole ++ List.replicate (whole - d.digits.length) '0') ++
      fraction (d.digits.drop whole)

/-- The scientific form of a number. -/
def scientific (x : Float) : String :=
  match Binary.ofFloat x with
  | .notANumber => "NaN"
  | .infinite negative => signed negative "inf"
  | .zero negative => signed negative "0e0"
  | .nonzero negative magnitude => signed negative (shortest magnitude).written

/-- The positional form of a number. -/
def positional (x : Float) : String :=
  match Binary.ofFloat x with
  | .notANumber => "NaN"
  | .infinite negative => signed negative "inf"
  | .zero negative => signed negative "0"
  | .nonzero negative magnitude => signed negative (shortest magnitude).inPlace

end Timetable.Decimal
