import Scriptlet.Eval.Error

/-!
# Operators on values

What the operators other than `&&` and `||` do with plain operands. Two
integers stay integers and wrap around, division goes toward zero, and numbers
of two kinds meet as floats. Everything compares for equality; any other mix
is a type mismatch.
-/

namespace Scriptlet

abbrev Result := Except RuntimeError Value

namespace Operator

/-- The operator in front of its only operand. -/
def unary (op : Token) (right : Value) : Result :=
  match op.kind, right with
  | .not, v => .ok (.boolean !v.isTruthy)
  | .minus, .integer n => .ok (.integer (-n))
  | .minus, .float x => .ok (.float (-x))
  | _, v => .error (.typeMismatch op.start op.lexeme none v.kind)

def mismatch (op : Token) (left right : Value) : RuntimeError :=
  .typeMismatch op.start op.lexeme (some left.kind) right.kind

/-- An operator between two integers. -/
def integers (op : Token) (a b : Int64) : Result :=
  match op.kind with
  | .plus => .ok (.integer (a + b))
  | .minus => .ok (.integer (a - b))
  | .star => .ok (.integer (a * b))
  | .slash => if b = 0 then .error (.divisionByZero op.start) else .ok (.integer (a / b))
  | .and => .ok (.integer (a &&& b))
  | .or => .ok (.integer (a ||| b))
  | .less => .ok (.boolean (a < b))
  | .greater => .ok (.boolean (b < a))
  | .lessEqual => .ok (.boolean (a ≤ b))
  | .greaterEqual => .ok (.boolean (b ≤ a))
  | _ => .error (mismatch op (.integer a) (.integer b))

/-- An operator between two floats, if there is one of that kind. -/
def floats? (kind : Kind) (a b : Float) : Option Value :=
  match kind with
  | .plus => some (.float (a + b))
  | .minus => some (.float (a - b))
  | .star => some (.float (a * b))
  | .slash => some (.float (a / b))
  | .less => some (.boolean (a < b))
  | .greater => some (.boolean (a > b))
  | .lessEqual => some (.boolean (a ≤ b))
  | .greaterEqual => some (.boolean (a ≥ b))
  | _ => none

/-- An operator of arithmetic or order. -/
def numbers (op : Token) (left right : Value) : Result :=
  match left, right with
  | .integer a, .integer b => integers op a b
  | _, _ =>
      match left.toFloat?, right.toFloat? with
      | some a, some b =>
          match floats? op.kind a b with
          | some v => .ok v
          | none => .error (mismatch op left right)
      | _, _ => .error (mismatch op left right)

/-- The operator between two operands that are both evaluated. -/
def binary (op : Token) (left right : Value) : Result :=
  match op.kind with
  | .equal => .ok (.boolean (Value.equal left right))
  | .notEqual => .ok (.boolean !(Value.equal left right))
  | _ => numbers op left right

end Operator

end Scriptlet
