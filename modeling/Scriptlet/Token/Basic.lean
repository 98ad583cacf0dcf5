import Scriptlet.Source.Position
import Scriptlet.Token.Kind

/-!
# Tokens

A token carries its kind, the text it stands for and where it stands. For a
string literal `lexeme` is the text between the quotes, while `length` counts
the quotes too. `isEof` marks the end of input and `isInvalid` a token the
source should not have held; in scanned tokens these agree with the kinds
`eof` and `illegal`.
-/

namespace Scriptlet

structure Token where
  kind : Kind
  lexeme : Text
  start : Position
  stop : Position
  length : Nat
  isEof : Bool
  isInvalid : Bool
deriving DecidableEq, Repr

namespace Token

/-- A token of one kind, wherever it stands. -/
abbrev Of (kind : Kind) := { t : Token // t.kind = kind }

/-- The token that ends the input at a position. -/
def endOfInput (p : Position) : Token :=
  { kind := .eof, lexeme := [], start := p, stop := p, length := 0,
    isEof := true, isInvalid := false }

instance : Inhabited Token := ⟨endOfInput .start⟩

def span (t : Token) : Span := ⟨t.start, t.stop⟩

/-- One-line form for listings of tokens. -/
def render (t : Token) : Text :=
  text "\x7b" ++ t.kind.name ++ text " '" ++ t.lexeme ++ text "' c:" ++ Text.ofNat t.start.col
    ++ text " r:" ++ Text.ofNat t.start.row ++ text "\x7d"

/-- How a message speaks of a token it did not want. -/
def describe (t : Token) : Text :=
  match t.kind with
  | .eof => text "end of input"
  | .string => text "STRING \"" ++ t.lexeme ++ text "\""
  | .ident | .integer | .float | .illegal => t.kind.name ++ text " '" ++ t.lexeme ++ text "'"
  | _ => text "'" ++ t.lexeme ++ text "'"

end Token

end Scriptlet
