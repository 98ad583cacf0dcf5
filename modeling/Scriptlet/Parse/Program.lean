import Scriptlet.Parse.Grammar
import Scriptlet.Token.Scanner

/-!
# Programs

A program is the statements up to the end of input. A statement that breaks off
is left out, with everything up to the next statement boundary, and so is the
closing brace of a block whose head broke off; a closing brace anywhere else is
an error. `parse` gives the statements that remain and all errors, in order.
-/

namespace Scriptlet

/-- What is left of a program, and the errors of the rest. -/
structure Parsed where
  program : Program
  errors : List ParseError

namespace Parser

/-- Steps over a closing brace, if there is one. -/
def dropBrace (c : Cursor) : Cursor := if c.kind = .closeBrace then c.next else c

/-- The statements up to the end of input, within `fuel` steps. -/
def statements : Nat → Parser Program
  | 0 => exhausted
  | fuel + 1 => fun c =>
      if c.atEnd then .done [] c []
      else if c.kind = .semicolon then statements fuel c.next
      else if c.kind = .closeBrace then
        (statements fuel c.next).after [.blame c.current .unexpected]
      else
        match statement fuel c with
        | .done s rest errors =>
            match statements fuel rest with
            | .done ss last more => .done (s :: ss) last (errors ++ more)
            | .broken last more => .broken last (errors ++ more)
            | .exhausted => .exhausted
        | .broken rest errors => (statements fuel (dropBrace rest.boundary)).after errors
        | .exhausted => .exhausted

end Parser

/-- The steps a cursor has tokens for. A token counts once for itself and once
for each byte of its lexeme, since a number may be split at its minus signs. -/
def Cursor.weight (c : Cursor) : Nat :=
  ((c.current :: c.later).map fun t => t.lexeme.length + 1).foldr (· + ·) 0

/-- Steps enough for every list of tokens that ends with its end token: between
two moves of the cursor no more than a few parsers nest. -/
def Cursor.budget (c : Cursor) : Nat := 8 * c.weight + 8

/-- Parses within the given number of steps. -/
def parseWithin (fuel : Nat) (c : Cursor) : Option Parsed :=
  match Parser.statements fuel c with
  | .done program _ errors => some ⟨program, errors⟩
  | _ => none

/-- The program a list of tokens spells, and the errors in it. -/
def parse (tokens : List Token) : Parsed :=
  let c := Cursor.ofTokens tokens
  (parseWithin c.budget c).getD ⟨[], []⟩

end Scriptlet
