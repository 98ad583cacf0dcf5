import Scriptlet.Tree.Span
import Scriptlet.Value.Basic

/-!
# Runtime errors

An operator that does not take its operands, a division by zero, and trees that
cannot be evaluated.
-/

namespace Scriptlet

/-- `typeMismatch` names no left operand where the operator stands in front of
its only one; `unsupported` names no tree where one is missing. -/
inductive RuntimeError where
  | typeMismatch (start : Position) (op : Text) (left : Option ValueKind) (right : ValueKind)
  | divisionByZero (start : Position)
  | unsupported (node : Option Node)

/-- What a message calls a tree that cannot be evaluated. -/
def Node.title : Node → Text
  | .expr (.name _ word) => text "identifier '" ++ word ++ text "'"
  | .expr (.call _ _ _ _) => text "call expression"
  | .expr (.integer _ _) => text "node *ast.IntegerLit"
  | .expr (.float _ _) => text "node *ast.FloatLit"
  | .expr (.boolean _ _) => text "node *ast.BoolLit"
  | .expr (.string _ _) => text "node *ast.StringLit"
  | .expr (.unary _ _) => text "node *ast.Prefix"
  | .expr (.binary _ _ _) => text "node *ast.Infix"
  | .expr (.conditional _) => text "node *ast.If"
  | .expr .missing => text "nil node"
  | .stmt (.binding _ _ _ _) => text "node *ast.Let"
  | .stmt (.returning _ _) => text "node *ast.Return"
  | .stmt (.block _) => text "node *ast.Block"
  | .stmt (.expr _) => text "node *ast.ExprStmt"
  | .stmt .missing => text "nil node"

namespace RuntimeError

/-- The stretch of source an error is about. -/
def span? : RuntimeError → Option Span
  | typeMismatch start op _ _ =>
      some ⟨start, { start with col := start.col + op.length, offset := start.offset + op.length }⟩
  | divisionByZero start => some ⟨start, start.right⟩
  | unsupported node => node.bind Node.span?

def explanation : RuntimeError → Text
  | typeMismatch _ op none right => text "invalid operation: " ++ op ++ right.name
  | typeMismatch _ op (some left) right =>
      text "invalid operation: " ++ left.name ++ text " " ++ op ++ text " " ++ right.name
  | divisionByZero _ => text "integer division by zero"
  | unsupported none => text "cannot evaluate nil node"
  | unsupported (some node) => text "cannot evaluate " ++ node.title

/-- Where an error stands, if anywhere. -/
def start? : RuntimeError → Option Position
  | typeMismatch start _ _ _ => some start
  | divisionByZero start => some start
  | unsupported node => node.bind Node.start?

def message (e : RuntimeError) : Text :=
  match e.start? with
  | some start => start.render ++ text ": " ++ e.explanation
  | none => e.explanation

end RuntimeError

end Scriptlet
