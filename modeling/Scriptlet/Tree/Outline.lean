import Scriptlet.Tree.Basic

/-!
# Outline of a tree

One line for each node, two blanks deeper than its parent.
-/

namespace Scriptlet

/-- A line of an outline at a depth. -/
def outlineLine (depth : Nat) (s : Text) : Text := Text.blanks (2 * depth) ++ s ++ text "\n"

mutual

def Expr.outline (depth : Nat) : Expr → Text
  | .missing => []
  | .name _ word => outlineLine depth (text "ident: " ++ word)
  | .integer token _ => outlineLine depth (text "integer: " ++ token.lexeme)
  | .float token _ => outlineLine depth (text "float: " ++ token.lexeme)
  | .boolean token _ => outlineLine depth (text "bool: " ++ token.lexeme)
  | .string _ value => outlineLine depth (text "string: \"" ++ value ++ text "\"")
  | .unary op right =>
      outlineLine depth (text "prefix: " ++ op.lexeme) ++ right.outline (depth + 1)
  | .binary left op right =>
      outlineLine depth (text "infix: " ++ op.lexeme) ++ left.outline (depth + 1)
        ++ right.outline (depth + 1)
  | .conditional choice => choice.outline depth
  | .call callee _ args _ =>
      outlineLine depth (text "call:") ++ callee.outline (depth + 1)
        ++ Expr.outlineAll (depth + 1) args

def Expr.outlineAll (depth : Nat) : List Expr → Text
  | [] => []
  | e :: es => e.outline depth ++ Expr.outlineAll depth es

def Conditional.outline (depth : Nat) : Conditional → Text
  | .mk _ condition body otherwise =>
      outlineLine depth (text "if:") ++ condition.outline (depth + 1) ++ body.outline (depth + 1)
        ++ otherwise.outline depth

def Alternative.outline (depth : Nat) : Alternative → Text
  | .absent => []
  | .block body => outlineLine depth (text "else:") ++ body.outline (depth + 1)
  | .chained next => outlineLine depth (text "else:") ++ next.outline (depth + 1)

def Block.outline (depth : Nat) : Block → Text
  | .missing => []
  | .braces _ body _ _ => outlineLine depth (text "block:") ++ Stmt.outlineAll (depth + 1) body

def Stmt.outline (depth : Nat) : Stmt → Text
  | .missing => []
  | .binding _ _ word value =>
      outlineLine depth (text "let: " ++ word) ++ value.outline (depth + 1)
  | .returning _ value => outlineLine depth (text "return:") ++ value.outline (depth + 1)
  | .block body => body.outline depth
  | .expr value => outlineLine depth (text "expr:") ++ value.outline (depth + 1)

def Stmt.outlineAll (depth : Nat) : List Stmt → Text
  | [] => []
  | s :: ss => s.outline depth ++ Stmt.outlineAll depth ss

end

def Program.outline (p : Program) : Text := Stmt.outlineAll 0 p

def Node.outline : Node → Text
  | .expr value => value.outline 0
  | .stmt body => body.outline 0

end Scriptlet
