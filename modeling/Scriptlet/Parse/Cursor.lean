import Scriptlet.Token.Basic

/-!
# Cursors

The parser looks at one token of a list that ends with an end token, and moves
forward only. It never moves off a token marked as the end of input. A signed
number can be split into a minus and an unsigned number in front of the cursor.
-/

namespace Scriptlet

/-- The token looked at, and those after it. -/
structure Cursor where
  current : Token
  later : List Token
deriving DecidableEq, Repr

namespace Cursor

/-- A cursor on the first token of a list. A list whose last token is not
marked as the end of input is closed with an end token behind it. -/
def ofTokens (tokens : List Token) : Cursor :=
  let closed :=
    match tokens.getLast? with
    | none => [Token.endOfInput .start]
    | some t => if t.isEof then tokens else tokens ++ [Token.endOfInput t.stop]
  match closed with
  | [] => ⟨Token.endOfInput .start, []⟩
  | t :: rest => ⟨t, rest⟩

def kind (c : Cursor) : Kind := c.current.kind

def atEnd (c : Cursor) : Bool := c.current.isEof

/-- Moves to the next token, unless the input ends here. -/
def next (c : Cursor) : Cursor :=
  if c.current.isEof then c
  else
    match c.later with
    | [] => c
    | t :: rest => ⟨t, rest⟩

/-- A number written with a minus in front of its digits. -/
def isSignedNumber (t : Token) : Bool :=
  (t.kind == .integer || t.kind == .float) && t.lexeme.head? == some Byte.minus

/-- The minus of a signed number. -/
def minusOf (t : Token) : Token :=
  { kind := .minus, lexeme := text "-", start := t.start, stop := t.start.right, length := 1,
    isEof := false, isInvalid := false }

/-- What a signed number is without its minus. -/
def unsignedOf (t : Token) : Token :=
  { t with start := t.start.right, lexeme := t.lexeme.tail, length := t.length - 1 }

/-- Splits a signed number under the cursor, so that its minus stands as an
operator between what came before and the unsigned number. -/
def splitSigned (c : Cursor) : Cursor :=
  if isSignedNumber c.current then
    ⟨minusOf c.current, unsignedOf c.current :: c.later⟩
  else c

end Cursor

end Scriptlet
