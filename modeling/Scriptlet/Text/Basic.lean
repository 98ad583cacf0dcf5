/-!
# Byte text

Scripts, lexemes and messages are byte strings: a script may hold bytes that
form no character, and every column and offset counts bytes. `Text` is the
list of those bytes, `text` writes a literal, and the byte classes the lexer
and the readers of numbers need are predicates on single bytes.
-/

namespace Scriptlet

abbrev Text := List UInt8

/-- The bytes of a string in UTF-8. -/
def text (s : String) : Text := s.toList.flatMap String.utf8EncodeChar

/-! ## Single bytes -/

namespace Byte

abbrev tab : UInt8 := 0x09
abbrev newline : UInt8 := 0x0a
abbrev carriageReturn : UInt8 := 0x0d
abbrev space : UInt8 := 0x20
abbrev quote : UInt8 := 0x22
abbrev hash : UInt8 := 0x23
abbrev apostrophe : UInt8 := 0x27
abbrev plus : UInt8 := 0x2b
abbrev minus : UInt8 := 0x2d
abbrev dot : UInt8 := 0x2e
abbrev slash : UInt8 := 0x2f
abbrev zero : UInt8 := 0x30
abbrev colon : UInt8 := 0x3a
abbrev equals : UInt8 := 0x3d
abbrev backslash : UInt8 := 0x5c
abbrev underscore : UInt8 := 0x5f
abbrev tilde : UInt8 := 0x7e

def isDigit (c : UInt8) : Bool := 0x30 ≤ c && c ≤ 0x39

def isUpper (c : UInt8) : Bool := 0x41 ≤ c && c ≤ 0x5a

def isLower (c : UInt8) : Bool := 0x61 ≤ c && c ≤ 0x7a

/-- Letters and the underscore: what a word starts with. -/
def isLetter (c : UInt8) : Bool := isLower c || isUpper c || c == underscore

/-- The layout between tokens: space, tab, newline, carriage return. -/
def isLayout (c : UInt8) : Bool :=
  c == space || c == tab || c == newline || c == carriageReturn

def toLower (c : UInt8) : UInt8 := if isUpper c then c + 0x20 else c

/-- The value of a decimal digit. -/
def digitValue (c : UInt8) : Nat := c.toNat - 0x30

end Byte

/-! ## Whole texts -/

namespace Text

def joinLines (parts : List Text) : Text := [Byte.newline].intercalate parts

/-- What follows `p` in `s`, when `s` starts with `p`. -/
def after? (p s : Text) : Option Text :=
  if p.isPrefixOf s then some (s.drop p.length) else none

/-- The part before the first `c` and, when there is a `c`, the part after it. -/
def cut (c : UInt8) : Text → Text × Option Text
  | [] => ([], none)
  | b :: s =>
      if b = c then ([], some s)
      else ((cut c s).map (b :: ·) id)

def lower (s : Text) : Text := s.map Byte.toLower

def blanks (n : Nat) : Text := List.replicate n Byte.space

/-- Fills up with blanks on the left to at least `width` bytes. -/
def padLeft (width : Nat) (s : Text) : Text := blanks (width - s.length) ++ s

/-- Fills up with blanks on the right to at least `width` bytes. -/
def padRight (width : Nat) (s : Text) : Text := s ++ blanks (width - s.length)

/-- A number in hexadecimal, filled up with zeros to at least `width` digits. -/
def hex (width n : Nat) : Text :=
  let digits := (Nat.toDigits 16 n).map fun c => UInt8.ofNat c.toNat
  List.replicate (width - digits.length) Byte.zero ++ digits

/-- A natural number in decimal. -/
def ofNat (n : Nat) : Text := (Nat.toDigits 10 n).map fun c => UInt8.ofNat c.toNat

/-- An integer in decimal, with a minus sign when it is negative. -/
def ofInt : Int → Text
  | .ofNat n => ofNat n
  | .negSucc n => Byte.minus :: ofNat (n + 1)

/-- The number a run of decimal digits stands for. -/
def digitsValue (ds : Text) : Nat := ds.foldl (fun n c => 10 * n + Byte.digitValue c) 0

end Text

end Scriptlet
