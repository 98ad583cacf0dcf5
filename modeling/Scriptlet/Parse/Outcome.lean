import Scriptlet.Parse.Cursor
import Scriptlet.Parse.Error

/-!
# Outcomes of parsing

A parser moves a cursor. It is `done` with a value, or `broken` off in the
middle of a statement; either way it tells the errors it reported on its way,
in order, and where a parser broke off the last of them is the reason. A parser
that needs more steps than it was given is `exhausted`.
-/

namespace Scriptlet

inductive Outcome (α : Type) where
  | done (value : α) (rest : Cursor) (errors : List ParseError)
  | broken (rest : Cursor) (errors : List ParseError)
  | exhausted

/-- Puts errors that were reported before in front. -/
def Outcome.after {α : Type} (earlier : List ParseError) : Outcome α → Outcome α
  | .done value rest errors => .done value rest (earlier ++ errors)
  | .broken rest errors => .broken rest (earlier ++ errors)
  | .exhausted => .exhausted

@[simp] theorem Outcome.after_nil {α : Type} (o : Outcome α) : o.after [] = o := by
  cases o <;> rfl

@[simp] theorem Outcome.after_after {α : Type} (es fs : List ParseError) (o : Outcome α) :
    (o.after fs).after es = o.after (es ++ fs) := by
  cases o <;> simp [Outcome.after]

def Parser (α : Type) : Type := Cursor → Outcome α

namespace Parser

def done {α : Type} (value : α) : Parser α := fun c => .done value c []

/-- Runs the second parser where the first one stopped. -/
def andThen {α β : Type} (p : Parser α) (f : α → Parser β) : Parser β := fun c =>
  match p c with
  | .done value rest errors => (f value rest).after errors
  | .broken rest errors => .broken rest errors
  | .exhausted => .exhausted

instance : Monad Parser where
  pure := done
  bind := andThen

/-- The steps ran out. -/
def exhausted {α : Type} : Parser α := fun _ => .exhausted

def current : Parser Token := fun c => .done c.current c []

def kind : Parser Kind := fun c => .done c.kind c []

def atEnd : Parser Bool := fun c => .done c.atEnd c []

def advance : Parser Unit := fun c => .done () c.next []

/-- The current token, moving past it. -/
def consume : Parser Token := fun c => .done c.current c.next []

def splitSigned : Parser Unit := fun c => .done () c.splitSigned []

/-- Breaks off with a complaint about the current token. -/
def complain {α : Type} (complaint : Complaint) : Parser α := fun c =>
  .broken c [.blame c.current complaint]

/-- Takes a token of the kind asked for, or breaks off. -/
def expect (k : Kind) : Parser Token := fun c =>
  if c.kind = k then .done c.current c.next []
  else .broken c [.blame c.current (.expected k.described)]

end Parser

/-! ## Recovery -/

namespace Cursor

/-- Skips at most `n` tokens to the next statement boundary: behind a
semicolon, in front of a closing brace, or at the end of input. -/
def skipStatement : Nat → Cursor → Cursor
  | 0, c => c
  | n + 1, c =>
      if c.atEnd || c.kind == .closeBrace then c
      else if c.kind == .semicolon then c.next
      else skipStatement n c.next

/-- The next statement boundary. -/
def boundary (c : Cursor) : Cursor := c.skipStatement (c.later.length + 1)

end Cursor

end Scriptlet
