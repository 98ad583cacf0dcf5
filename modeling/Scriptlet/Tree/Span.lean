import Scriptlet.Tree.Basic

/-!
# Where a tree stands

A tree runs from the first byte of its first token to behind the last byte of
its last one. The position is missing where it would have to come from a part
that is missing.
-/

namespace Scriptlet

def Expr.start? : Expr → Option Position
  | .missing => none
  | .name token _ | .integer token _ | .float token _ | .boolean token _ | .string token _ =>
      some token.start
  | .unary op _ => some op.start
  | .binary left _ _ => left.start?
  | .conditional (.mk keyword _ _ _) => some keyword.start
  | .call callee _ _ _ => callee.start?

def Block.start? : Block → Option Position
  | .missing => none
  | .braces opening _ _ _ => some opening.start

def Block.stop? : Block → Option Position
  | .missing => none
  | .braces _ _ closing _ => some closing.stop

/-- A conditional without its first block stops behind its keyword. -/
def Conditional.stop? : Conditional → Option Position
  | .mk _ _ _ (.chained next) => next.stop?
  | .mk _ _ _ (.block body) => body.stop?
  | .mk keyword _ .missing .absent => some keyword.stop
  | .mk _ _ body .absent => body.stop?

def Expr.stop? : Expr → Option Position
  | .missing => none
  | .name token _ | .integer token _ | .float token _ | .boolean token _ | .string token _ =>
      some token.stop
  | .unary _ right => right.stop?
  | .binary _ _ right => right.stop?
  | .conditional choice => choice.stop?
  | .call _ _ _ closing => some closing.stop

def Stmt.start? : Stmt → Option Position
  | .missing => none
  | .binding keyword _ _ _ => some keyword.start
  | .returning keyword _ => some keyword.start
  | .block body => body.start?
  | .expr value => value.start?

def Stmt.stop? : Stmt → Option Position
  | .missing => none
  | .binding _ _ _ value => value.stop?
  | .returning keyword .missing => some keyword.stop
  | .returning _ value => value.stop?
  | .block body => body.stop?
  | .expr value => value.stop?

def Expr.span? (e : Expr) : Option Span := do return ⟨← e.start?, ← e.stop?⟩

def Block.span? (b : Block) : Option Span := do return ⟨← b.start?, ← b.stop?⟩

def Stmt.span? (s : Stmt) : Option Span := do return ⟨← s.start?, ← s.stop?⟩

def Node.start? : Node → Option Position
  | .expr value => value.start?
  | .stmt body => body.start?

def Node.span? : Node → Option Span
  | .expr value => value.span?
  | .stmt body => body.span?

end Scriptlet
