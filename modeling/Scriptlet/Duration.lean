import Scriptlet.Number.Integer
import Scriptlet.Text.Quoted

/-!
# Durations

A duration is an optional sign and amounts with their units, such as `1h30m` or
`1.5s`; a bare zero needs no unit. It is counted in nanoseconds, of which 64
bits hold about 292 years. A unit is what stands between a number and the next
digit or point.
-/

namespace Scriptlet

inductive DurationError where
  | invalid
  | missingUnit
  | unknownUnit (unit : Text)
deriving DecidableEq, Repr

/-- The error in reading `s` as a duration. -/
def DurationError.message (s : Text) : DurationError → Text
  | .invalid => text "time: invalid duration " ++ Text.quotedAscii s
  | .missingUnit => text "time: missing unit in duration " ++ Text.quotedAscii s
  | .unknownUnit unit =>
      text "time: unknown unit " ++ Text.quotedAscii unit ++ text " in duration "
        ++ Text.quotedAscii s

namespace Duration

/-- Units with their lengths in nanoseconds; microseconds have three
spellings. -/
def units : List (Text × Nat) :=
  [(text "ns", 1), (text "us", 1000), (text "µs", 1000), (text "μs", 1000),
   (text "ms", 1000000), (text "s", 1000000000), (text "m", 60000000000),
   (text "h", 3600000000000)]

/-- The largest magnitude of a negative duration. -/
def magnitudeLimit : Nat := Nat.pow 2 63

/-- The digits behind a point that count, when those before them spell `n`: as
many as keep the number they spell within the limit. Later digits do not change
a nanosecond. -/
def significant (n : Nat) : Text → Text
  | [] => []
  | c :: s =>
      let longer := 10 * n + Byte.digitValue c
      if n ≤ (magnitudeLimit - 1) / 10 && longer ≤ magnitudeLimit
        then c :: significant longer s else []

/-- Ten times ten and so on in floating point, which is no longer a power of
ten after the twenty-second step. -/
def tenfold : Nat → Float
  | 0 => 1
  | n + 1 => tenfold n * 10

/-- Nanoseconds in a fraction of a unit, rounded down, in floating point. -/
def fractionOf (unit : Nat) (fraction : Text) : Nat :=
  let digits := significant 0 fraction
  let scaled := Float.ofNat unit / tenfold digits.length
  (Float.ofNat (Text.digitsValue digits) * scaled).toUInt64.toNat

/-- A number at the head of a text: the digits before its point, those behind
it, and the rest. -/
def takeAmount (s : Text) : Text × Text × Text :=
  let (whole, rest) := s.span Byte.isDigit
  match rest with
  | [] => (whole, [], [])
  | c :: tail =>
      if c = Byte.dot then
        let (fraction, rest) := tail.span Byte.isDigit
        (whole, fraction, rest)
      else (whole, [], c :: tail)

/-- One amount with its unit, and what follows it. -/
def readPart (s : Text) : Except DurationError (Nat × Text) :=
  let (whole, fraction, rest) := takeAmount s
  let (unit, tail) := rest.span fun c => !(c = Byte.dot || Byte.isDigit c)
  if whole.isEmpty && fraction.isEmpty then .error .invalid
  else if magnitudeLimit < Text.digitsValue whole then .error .invalid
  else if unit.isEmpty then .error .missingUnit
  else
    match units.lookup unit with
    | none => .error (.unknownUnit unit)
    | some length =>
        if magnitudeLimit / length < Text.digitsValue whole then .error .invalid
        else
          let n := Text.digitsValue whole * length + fractionOf length fraction
          if magnitudeLimit < n then .error .invalid else .ok (n, tail)

/-- Amounts are summed in 64 bits without a sign, and a sum over the limit is
refused. Two amounts at the limit wrap around to nothing. -/
def wrapped (n : Nat) : Nat := n % Nat.pow 2 64

/-- The sum of the amounts in a text, each of which takes a byte at least. -/
def readParts : Nat → Nat → Text → Except DurationError Nat
  | 0, sum, _ => .ok sum
  | fuel + 1, sum, s =>
      if s.isEmpty then .ok sum
      else
        match readPart s with
        | .error e => .error e
        | .ok (n, rest) =>
            if magnitudeLimit < wrapped (sum + n) then .error .invalid
            else readParts fuel (wrapped (sum + n)) rest

/-- A duration in nanoseconds. -/
def read (s : Text) : Except DurationError Int :=
  let (negative, unsigned) := Number.takeSign s
  if unsigned = text "0" then .ok 0
  else if unsigned.isEmpty then .error .invalid
  else
    match readParts unsigned.length 0 unsigned with
    | .error e => .error e
    | .ok n =>
        if negative then .ok (-(n : Int))
        else if n < magnitudeLimit then .ok n
        else .error .invalid

end Duration

end Scriptlet
