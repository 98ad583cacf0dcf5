import Scriptlet.Tree.Basic

/-!
# Trees without missing parts

A tree is complete when no part of it is missing. The value of a `return` and
what a conditional does otherwise may be absent. Complete trees can be printed;
for the canonical form it is enough that the parts it shows are there, and of a
block marked empty it shows none.
-/

namespace Scriptlet

mutual

def Expr.isComplete : Expr → Bool
  | .missing => false
  | .name _ _ | .integer _ _ | .float _ _ | .boolean _ _ | .string _ _ => true
  | .unary _ right => right.isComplete
  | .binary left _ right => left.isComplete && right.isComplete
  | .conditional choice => choice.isComplete
  | .call callee _ args _ => callee.isComplete && Expr.allComplete args

def Expr.allComplete : List Expr → Bool
  | [] => true
  | e :: es => e.isComplete && Expr.allComplete es

def Conditional.isComplete : Conditional → Bool
  | .mk _ condition body otherwise =>
      condition.isComplete && body.isComplete && otherwise.isComplete

def Alternative.isComplete : Alternative → Bool
  | .absent => true
  | .block body => body.isComplete
  | .chained next => next.isComplete

def Block.isComplete : Block → Bool
  | .missing => false
  | .braces _ body _ _ => Stmt.allComplete body

def Stmt.isComplete : Stmt → Bool
  | .missing => false
  | .binding _ _ _ value => value.isComplete
  | .returning _ .missing => true
  | .returning _ value => value.isComplete
  | .block body => body.isComplete
  | .expr value => value.isComplete

def Stmt.allComplete : List Stmt → Bool
  | [] => true
  | s :: ss => s.isComplete && Stmt.allComplete ss

end

mutual

/-- All the parts that the canonical form shows are there. -/
def Expr.isPrintable : Expr → Bool
  | .missing => false
  | .name _ _ | .integer _ _ | .float _ _ | .boolean _ _ | .string _ _ => true
  | .unary _ right => right.isPrintable
  | .binary left _ right => left.isPrintable && right.isPrintable
  | .conditional choice => choice.isPrintable
  | .call callee _ args _ => callee.isPrintable && Expr.allPrintable args

def Expr.allPrintable : List Expr → Bool
  | [] => true
  | e :: es => e.isPrintable && Expr.allPrintable es

def Conditional.isPrintable : Conditional → Bool
  | .mk _ condition body otherwise =>
      condition.isPrintable && body.isPrintable && otherwise.isPrintable

def Alternative.isPrintable : Alternative → Bool
  | .absent => true
  | .block body => body.isPrintable
  | .chained next => next.isPrintable

def Block.isPrintable : Block → Bool
  | .missing => false
  | .braces _ body _ empty => empty || Stmt.allPrintable body

def Stmt.isPrintable : Stmt → Bool
  | .missing => false
  | .binding _ _ _ value => value.isPrintable
  | .returning _ .missing => true
  | .returning _ value => value.isPrintable
  | .block body => body.isPrintable
  | .expr value => value.isPrintable

def Stmt.allPrintable : List Stmt → Bool
  | [] => true
  | s :: ss => s.isPrintable && Stmt.allPrintable ss

end

def Node.isComplete : Node → Bool
  | .expr value => value.isComplete
  | .stmt body => body.isComplete

def Node.isPrintable : Node → Bool
  | .expr value => value.isPrintable
  | .stmt body => body.isPrintable

end Scriptlet
