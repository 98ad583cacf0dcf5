import Scriptlet.Text.Utf8
import Scriptlet.Token.Kind

/-!
# Lexemes

`Lexeme.read` takes the token at the head of a text: a word, a number, a string
literal or a symbol, each as long as its class allows. What starts no token is
taken as one illegal character, and a string literal without its closing quote
takes the rest of the text; both carry a `Fault`.
-/

namespace Scriptlet

/-- What is wrong with an illegal token. `stated` is a complaint in the words
of a caller. -/
inductive Fault where
  | unterminatedString
  | illegalCharacter (bytes : Text)
  | stated (message : Text)
deriving DecidableEq, Repr

def Fault.message : Fault → Text
  | .unterminatedString => text "unterminated string literal"
  | .illegalCharacter bytes => text "illegal character '" ++ bytes ++ text "'"
  | .stated message => message

/-- The token at the head of a text, without its position: `width` counts the
bytes it takes from the source, `content` is the text it stands for. -/
structure Lexeme where
  kind : Kind
  content : Text
  width : Nat
  fault? : Option Fault
deriving DecidableEq, Repr

namespace Lexeme

/-- A lexeme that stands for exactly the bytes it takes. -/
def plain (kind : Kind) (taken : Text) : Lexeme := ⟨kind, taken, taken.length, none⟩

def startsWithDigit : Text → Bool
  | [] => false
  | c :: _ => Byte.isDigit c

/-- The run of digits at the head of a text. An underscore belongs to the run
when a digit follows it. -/
def digitRun : Text → Text
  | [] => []
  | c :: s =>
      if Byte.isDigit c || (c == Byte.underscore && startsWithDigit s) then c :: digitRun s
      else []

/-- The bytes of a string literal up to its closing quote, read from behind the
opening one. A backslash keeps the byte after it from closing the literal. -/
def stringBody? : Text → Option Text
  | [] => none
  | c :: s =>
      if c = Byte.quote then some []
      else if c = Byte.backslash then
        match s with
        | [] => none
        | d :: r => (stringBody? r).map fun body => c :: d :: body
      else (stringBody? s).map fun body => c :: body

def word (s : Text) : Lexeme :=
  let taken := s.takeWhile fun c => Byte.isLetter c || Byte.isDigit c
  plain (Kind.ofWord taken) taken

/-- The sign and the whole digits of a number. -/
def wholePart : Text → Text
  | [] => []
  | c :: s => if c = Byte.minus then c :: digitRun s else digitRun (c :: s)

/-- The decimal point and the digits after it, where a digit follows the
point. -/
def fractionPart : Text → Text
  | [] => []
  | c :: s => if c = Byte.dot && startsWithDigit s then c :: digitRun s else []

def number (s : Text) : Lexeme :=
  let whole := wholePart s
  let fraction := fractionPart (s.drop whole.length)
  if fraction.isEmpty then plain .integer whole else plain .float (whole ++ fraction)

/-- A string literal, read from behind its opening quote. -/
def quoted (s : Text) : Lexeme :=
  match stringBody? s with
  | some body => ⟨.string, body, body.length + 2, none⟩
  | none => ⟨.illegal, s, s.length + 1, some .unterminatedString⟩

def symbol (s : Text) : Lexeme :=
  match Kind.symbolAt? s with
  | some kind => plain kind kind.name
  | none =>
      let taken := s.take (Utf8.headWidth s)
      ⟨.illegal, taken, taken.length, some (.illegalCharacter taken)⟩

/-- The lexeme at the head of a text that starts with no layout. A minus
directly before a digit belongs to the number. -/
def read : Text → Lexeme
  | [] => plain .eof []
  | c :: s =>
      if Byte.isLetter c then word (c :: s)
      else if Byte.isDigit c || (c == Byte.minus && startsWithDigit s) then number (c :: s)
      else if c = Byte.quote then quoted s
      else symbol (c :: s)

end Lexeme

end Scriptlet
