import Scriptlet.Tree.Basic

/-!
# Canonical form

A tree written back as source: every unary and binary expression in
parentheses, one blank between words, a statement to a line at the top level.
Numbers and booleans are written as in their token, strings as their value in
quotes.
-/

namespace Scriptlet

/-- A statement that is a conditional ends at its brace, any other expression
with a semicolon. -/
def Expr.terminator : Expr → Text
  | .conditional _ => []
  | _ => text ";"

mutual

def Expr.canonical : Expr → Text
  | .missing => []
  | .name _ word => word
  | .integer token _ | .float token _ | .boolean token _ => token.lexeme
  | .string _ value => text "\"" ++ value ++ text "\""
  | .unary op right => text "(" ++ op.lexeme ++ right.canonical ++ text ")"
  | .binary left op right =>
      text "(" ++ left.canonical ++ text " " ++ op.lexeme ++ text " " ++ right.canonical ++ text ")"
  | .conditional choice => choice.canonical
  | .call callee _ args _ => callee.canonical ++ text "(" ++ Expr.canonicalArgs args ++ text ")"

/-- Arguments with commas between them. -/
def Expr.canonicalArgs : List Expr → Text
  | [] => []
  | [e] => e.canonical
  | e :: e' :: es => e.canonical ++ text ", " ++ Expr.canonicalArgs (e' :: es)

def Conditional.canonical : Conditional → Text
  | .mk _ condition body otherwise =>
      text "if (" ++ condition.canonical ++ text ") " ++ body.canonical ++ otherwise.canonical

def Alternative.canonical : Alternative → Text
  | .absent => []
  | .block body => text " else " ++ body.canonical
  | .chained next => text " else " ++ next.canonical

def Block.canonical : Block → Text
  | .missing => []
  | .braces _ body _ empty =>
      if empty then text "\x7b\x7d"
      else text "\x7b " ++ Stmt.canonicalBody body ++ text "\x7d"

def Stmt.canonical : Stmt → Text
  | .missing => []
  | .binding _ _ word value => text "let " ++ word ++ text " = " ++ value.canonical ++ text ";"
  | .returning _ .missing => text "return;"
  | .returning _ value => text "return " ++ value.canonical ++ text ";"
  | .block body => body.canonical
  | .expr value => value.canonical ++ value.terminator

/-- The statements of a block, each with a blank behind it. -/
def Stmt.canonicalBody : List Stmt → Text
  | [] => []
  | s :: ss => s.canonical ++ text " " ++ Stmt.canonicalBody ss

end

def Program.canonical (p : Program) : Text := Text.joinLines (p.map Stmt.canonical)

theorem Program.canonical_singleton (s : Stmt) : Program.canonical [s] = s.canonical := by
  rw [Program.canonical, Text.joinLines]
  exact List.intercalate_singleton

theorem Program.canonical_cons_cons (s s' : Stmt) (p : Program) :
    Program.canonical (s :: s' :: p)
      = s.canonical ++ (text "\n" ++ Program.canonical (s' :: p)) :=
  List.intercalate_cons_cons.trans (List.append_assoc _ _ _)

def Node.canonical : Node → Text
  | .expr value => value.canonical
  | .stmt body => body.canonical

end Scriptlet
