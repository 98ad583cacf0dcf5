import Scriptlet.Token.Basic

/-!
# Syntax trees

Expressions, conditionals, blocks and statements, with the tokens they were
read from. Trees built by hand may lack parts: `Expr.missing`, `Stmt.missing`
and `Block.missing` stand where a part should be. The value of a bare `return`
is the one place where `Expr.missing` is in order.

Numbers, booleans and strings carry both their token and their value, and names
both their token and their text, since only the parser makes the two agree.
-/

namespace Scriptlet

mutual

inductive Expr where
  | missing
  | name (token : Token) (word : Text)
  | integer (token : Token) (value : Int64)
  | float (token : Token) (value : Float)
  | boolean (token : Token) (value : Bool)
  | string (token : Token) (value : Text)
  | unary (op : Token) (right : Expr)
  | binary (left : Expr) (op : Token) (right : Expr)
  | conditional (choice : Conditional)
  | call (callee : Expr) (opening : Token) (args : List Expr) (closing : Token)

/-- `if`, its condition, the block to run and what to do otherwise. -/
inductive Conditional where
  | mk (keyword : Token) (condition : Expr) (body : Block) (otherwise : Alternative)

/-- What follows the first block of a conditional. -/
inductive Alternative where
  | absent
  | block (body : Block)
  | chained (next : Conditional)

/-- Statements in braces. `empty` is what the canonical form goes by. -/
inductive Block where
  | missing
  | braces (opening : Token) (body : List Stmt) (closing : Token) (empty : Bool)

inductive Stmt where
  | missing
  | binding (keyword : Token) (nameToken : Token) (word : Text) (value : Expr)
  | returning (keyword : Token) (value : Expr)
  | block (body : Block)
  | expr (value : Expr)

end

instance : Inhabited Expr := ⟨.missing⟩
instance : Inhabited Stmt := ⟨.missing⟩
instance : Inhabited Block := ⟨.missing⟩
instance : Inhabited Conditional := ⟨.mk default .missing .missing .absent⟩

abbrev Program := List Stmt

/-- A tree that can be evaluated or printed by itself. -/
inductive Node where
  | expr (value : Expr)
  | stmt (body : Stmt)

end Scriptlet
