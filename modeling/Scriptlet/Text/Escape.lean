import Scriptlet.Text.Utf8

/-!
# Escapes

Digits of bases up to sixteen, reading numbers in hexadecimal out of escapes, and
writing the characters they stand for.
-/

namespace Scriptlet

/-- The bytes of a code point, unless it is no character. -/
def Utf8.encode? (code : Nat) : Option Text :=
  if code.isValidChar then some (String.utf8EncodeChar (Char.ofNat code)) else none

namespace Text

def hexDigit? (c : UInt8) : Option Nat :=
  if Byte.isDigit c then some (Byte.digitValue c)
  else if 0x61 ≤ Byte.toLower c && Byte.toLower c ≤ 0x66 then some ((Byte.toLower c).toNat - 0x57)
  else none

/-- The value of a digit in a base up to sixteen. -/
def digitIn? (base : Nat) (c : UInt8) : Option Nat := (hexDigit? c).filter (· < base)

/-- The number in the first `count` digits of a text, and what follows them. -/
def takeHex? : Nat → Nat → Text → Option (Nat × Text)
  | 0, n, s => some (n, s)
  | _ + 1, _, [] => none
  | count + 1, n, c :: s => (hexDigit? c).bind fun d => takeHex? count (16 * n + d) s

/-- The character whose code is in the first `count` digits of a text, and what
follows them. -/
def takeCharacter? (count : Nat) (s : Text) : Option (Text × Text) :=
  (takeHex? count 0 s).bind fun (code, rest) => (Utf8.encode? code).map fun bytes => (bytes, rest)

/-- Every byte belongs to a character. -/
def isWellFormed (s : Text) : Bool :=
  (Utf8.pieces s).all fun piece =>
    match piece with
    | .character _ _ => true
    | .stray _ => false

end Text

end Scriptlet
