import Scriptlet.Token.Basic

/-!
# Parse errors

What the parser complains about, the token it blames and where.
-/

namespace Scriptlet

/-- `stated` is a complaint in the words of a caller. -/
inductive Complaint where
  | expected (what : Text)
  | unexpected
  | integerOutOfRange
  | invalidFloat
  | stated (message : Text)
deriving DecidableEq, Repr

structure ParseError where
  start : Position
  complaint : Complaint
  got : Token
deriving DecidableEq, Repr

namespace ParseError

/-- A complaint about a token at its own position. -/
def blame (t : Token) (complaint : Complaint) : ParseError := ⟨t.start, complaint, t⟩

/-- What the parser wanted, where it wanted something in particular. -/
def expectation (e : ParseError) : Text :=
  match e.complaint with
  | .expected what => what
  | _ => []

/-- The complaint in words, where it is not about something wanted. -/
def remark (e : ParseError) : Text :=
  match e.complaint with
  | .expected _ => []
  | .unexpected => text "unexpected " ++ e.got.describe
  | .integerOutOfRange => text "integer literal out of range: " ++ e.got.lexeme
  | .invalidFloat => text "invalid float literal: " ++ e.got.lexeme
  | .stated message => message

def explanation (e : ParseError) : Text :=
  match e.complaint with
  | .expected what => text "expected " ++ what ++ text ", got " ++ e.got.describe
  | _ => e.remark

def message (e : ParseError) : Text := e.start.render ++ text ": " ++ e.explanation

end ParseError

end Scriptlet
