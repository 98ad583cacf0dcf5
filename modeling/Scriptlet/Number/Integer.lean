import Scriptlet.Text.Basic

/-!
# Reading integers

A decimal integer is an optional sign and one digit or more. It has a 64-bit
value when it lies between -2^63 and 2^63 - 1.
-/

namespace Scriptlet

namespace Number

/-- A sign at the head of a text, and the text behind it. -/
def takeSign : Text → Bool × Text
  | [] => (false, [])
  | c :: s =>
      if c = Byte.minus then (true, s)
      else if c = Byte.plus then (false, s)
      else (false, c :: s)

def signed (negative : Bool) (n : Nat) : Int := if negative then -(n : Int) else n

/-- The integer a text spells. -/
def readInt? (s : Text) : Option Int :=
  let (negative, digits) := takeSign s
  if digits.isEmpty || !digits.all Byte.isDigit then none
  else some (signed negative (Text.digitsValue digits))

def fitsInt64 (n : Int) : Bool := Int64.minValue.toInt ≤ n && n ≤ Int64.maxValue.toInt

/-- The 64-bit integer a text spells, if it spells one in range. -/
def readInt64? (s : Text) : Option Int64 :=
  (readInt? s).bind fun n => if fitsInt64 n then some (Int64.ofInt n) else none

end Number

end Scriptlet
