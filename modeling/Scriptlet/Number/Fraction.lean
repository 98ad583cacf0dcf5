import Scriptlet.Number.Integer
import Scriptlet.Text.Escape

/-!
# Reading fractions

A fraction is digits with an optional point among them, and an exponent. Behind
`0x` the digits are hexadecimal, the exponent counts powers of two and must be
there; otherwise it counts powers of ten and may be left out. The double of a
fraction is the nearest one, ties to even. A magnitude too small for any double
but zero reads as zero; one too large has no double. Infinity and what is not a
number are spelled as words.
-/

namespace Scriptlet

namespace Number

/-- How fractions are written: digits of `base`, and behind the letter `mark` an
exponent that counts powers of `power`. A digit is worth `perDigit` of them.
From `power ^ reach` on every number exceeds the largest double, and up to the
inverse of it every number is nearer to zero than to the smallest one. -/
structure Radix where
  base : Nat
  power : Nat
  perDigit : Nat
  mark : UInt8
  needsExponent : Bool
  reach : Nat

/-- The magnitude `digits * power ^ exponent`. -/
structure Fraction where
  digits : Nat
  exponent : Int
deriving DecidableEq, Repr

def infinity : Float := 1.0 / 0.0

def notANumber : Float := 0.0 / 0.0

namespace Radix

def decimal : Radix := ⟨10, 10, 1, 0x65, false, 400⟩

def hexadecimal : Radix := ⟨16, 2, 4, 0x70, true, 1200⟩

/-- How the fraction at the head of a text is written, and where it begins. -/
def ofHead : Text → Radix × Text
  | zero :: letter :: s =>
      if zero = Byte.zero && Byte.toLower letter = 0x78 then (hexadecimal, s)
      else (decimal, zero :: letter :: s)
  | s => (decimal, s)

def isDigit (r : Radix) (c : UInt8) : Bool := (Text.digitIn? r.base c).isSome

def digitsValue (r : Radix) (ds : Text) : Nat :=
  (ds.filterMap (Text.digitIn? r.base)).foldl (fun n d => r.base * n + d) 0

/-- The digits behind a point, and what follows them. -/
def takeFraction (r : Radix) : Text → Text × Text
  | [] => ([], [])
  | c :: s => if c = Byte.dot then s.span r.isDigit else ([], c :: s)

/-- Once an exponent has come to this size, further digits of it are passed over. -/
def exponentLimit : Nat := 10000

def exponentValue (ds : Text) : Nat :=
  ds.foldl (fun e c => if e < exponentLimit then 10 * e + Byte.digitValue c else e) 0

/-- The exponent behind its mark. -/
def readExponent? (r : Radix) : Text → Option Int
  | [] => if r.needsExponent then none else some 0
  | c :: s =>
      let (negative, digits) := takeSign s
      if Byte.toLower c != r.mark || digits.isEmpty || !digits.all Byte.isDigit then none
      else some (signed negative (exponentValue digits))

/-- The fraction a text spells, without a sign. -/
def read? (r : Radix) (s : Text) : Option Fraction :=
  let (whole, rest) := s.span r.isDigit
  let (fraction, tail) := r.takeFraction rest
  if whole.isEmpty && fraction.isEmpty then none
  else
    (r.readExponent? tail).map fun e =>
      ⟨r.digitsValue (whole ++ fraction), e - r.perDigit * fraction.length⟩

/-- The nearest double. Numbers far out of range are settled by their exponent
alone, without writing out the power. -/
def toFloat (r : Radix) (f : Fraction) : Float :=
  let leading : Int := f.exponent + (Nat.toDigits r.power f.digits).length
  if f.digits = 0 || leading < -r.reach then 0.0
  else if r.reach < leading then infinity
  else
    match f.exponent with
    | .ofNat n => Float.ofScientific (f.digits * Nat.pow r.power n) false 0
    -- dividing by a power of two is multiplying by one of five and moving the point
    | .negSucc n => Float.ofScientific (f.digits * Nat.pow (10 / r.power) (n + 1)) true (n + 1)

end Radix

/-- The double a text without a sign spells, if it is not too large. -/
def readMagnitude? (s : Text) : Option Float :=
  if Text.lower s = text "inf" || Text.lower s = text "infinity" then some infinity
  else
    let (r, digits) := Radix.ofHead s
    ((r.read? digits).map r.toFloat).filter (!·.isInf)

/-- The double a text spells, if it spells a number that is not too large. -/
def readFloat? (s : Text) : Option Float :=
  if Text.lower s = text "nan" then some notANumber
  else
    let (negative, unsigned) := takeSign s
    (readMagnitude? unsigned).map fun x => if negative then -x else x

end Number

end Scriptlet
