import Timetable.Decimal.Shortest
import Timetable.Text.Printable

/-!
# Converting seconds to ticks

A time quantum is the length of one tick in seconds: a positive finite binary64 number. It is kept
as the word that stores the number, so two quanta are equal exactly when they are the same number.

A physical duration is rounded to the nearest number of ticks. The conversion goes through even
if it loses more than the tolerance, but then it leaves an anomaly behind for the caller to show.

## Main definitions

* `Quantum` — a time quantum; `Quantum.seconds` — its length.
* `Quantum.ofSeconds?` — the quantum of a given length.
* `Anomaly` — a conversion that lost more than the tolerance.
* `DurationError` — why a duration cannot be found or converted.
* `ticksOfSeconds` — the conversion.
-/

set_option autoImplicit false

namespace Timetable

/-! ## Time quanta -/

/-- The length of one tick. The words of the positive finite binary64 numbers are those between
the word of zero and the word of infinity. -/
structure Quantum where
  /-- The word that stores the length in seconds. -/
  word : UInt64
  /-- The length is positive. -/
  positive : 0 < word
  /-- The length is finite. -/
  finite : word < 0x7ff0000000000000
  deriving DecidableEq, Repr

namespace Quantum

/-- The length of one tick in seconds. -/
def seconds (quantum : Quantum) : Float := Float.ofBits quantum.word

/-- The quantum of a given length in seconds, which has to be positive and finite. -/
def ofSeconds? (seconds : Float) : Option Quantum :=
  if h : 0 < seconds.toBits ∧ seconds.toBits < 0x7ff0000000000000 then
    some ⟨seconds.toBits, h.1, h.2⟩
  else none

end Quantum

/-! ## Rounding -/

/-- The largest loss, in seconds, that a conversion to ticks may have without an anomaly. -/
def roundingTolerance : Float := 1e-15

/-- A physical duration that lost more than the tolerance when it was rounded to ticks. -/
structure Anomaly where
  /-- The operation whose duration was rounded. -/
  name : String
  /-- The requested duration in seconds. -/
  requested : Float
  /-- The ticks it was rounded to. -/
  ticks : Tick
  /-- The length of one tick in seconds. -/
  dt : Float
  deriving DecidableEq, Repr

namespace Anomaly

/-- The duration in seconds that the ticks amount to. -/
def rounded (anomaly : Anomaly) : Float := anomaly.ticks.toFloat * anomaly.dt

/-- The loss in seconds. -/
def error (anomaly : Anomaly) : Float := (anomaly.requested - anomaly.rounded).abs

/-- The wording of the warning. -/
def message (anomaly : Anomaly) : String :=
  s!"Duration of {anomaly.name} is rounded to {anomaly.ticks} dt = " ++
    Decimal.scientific anomaly.rounded ++ " s from " ++ Decimal.scientific anomaly.requested

end Anomaly

/-- Why a duration cannot be found or converted. -/
inductive DurationError where
  /-- Nothing is registered for the operation. -/
  | missingDuration (name : String) (resources : List Resource)
  /-- Two tables measure time in different quanta. -/
  | conflictingUnit (existing incoming : Float)
  /-- A physical duration meets a table without a quantum. -/
  | missingTimeQuantum (name : String)
  /-- A quantum is not a positive finite number. -/
  | invalidTimeQuantum (dt : Float)
  /-- A duration is negative or not finite. -/
  | negativeDuration (name : String) (seconds : Float)
  deriving DecidableEq, Repr

/-- The wording of an error. -/
def DurationError.message : DurationError → String
  | missingDuration name resources =>
    s!"No duration registered for operation '{name}' on resources " ++ Text.listed resources
  | conflictingUnit existing incoming =>
    "Cannot merge duration tables: dt=" ++ Decimal.scientific existing ++ " s vs dt=" ++
      Decimal.scientific incoming ++ " s"
  | missingTimeQuantum name =>
    s!"Operation '{name}' has a physical duration but no dt is known"
  | invalidTimeQuantum dt => "Invalid time quantum dt=" ++ Decimal.positional dt
  | negativeDuration name seconds =>
    "Negative duration " ++ Decimal.scientific seconds ++ s!" s for operation '{name}'"

/-- A duration in ticks, with the anomaly that its conversion left behind. -/
structure Resolved where
  /-- The duration. -/
  ticks : Tick
  /-- What its conversion lost, if that was more than the tolerance. -/
  anomaly : Option Anomaly
  deriving DecidableEq, Repr

/-- The quantum of a given length in seconds, or the error that there is none. -/
def requireQuantum (dt : Float) : Except DurationError Quantum :=
  match Quantum.ofSeconds? dt with
  | some quantum => .ok quantum
  | none => .error (.invalidTimeQuantum dt)

/-- The nearest number of ticks for a duration in seconds. -/
def Quantum.round (quantum : Quantum) (name : String) (seconds : Float) :
    Except DurationError Resolved :=
  if seconds < 0 || !seconds.isFinite then
    .error (.negativeDuration name seconds)
  else
    let ticks := (Binary.ofFloat (seconds / quantum.seconds)).nearestTick
    let anomaly : Anomaly := ⟨name, seconds, ticks, quantum.seconds⟩
    .ok ⟨ticks, if anomaly.error > roundingTolerance then some anomaly else none⟩

/-- The nearest number of ticks of `dt` seconds each for a duration in seconds. The length of a
tick is checked before the duration. -/
def ticksOfSeconds (name : String) (seconds dt : Float) : Except DurationError Resolved := do
  let quantum ← requireQuantum dt
  quantum.round name seconds

end Timetable
