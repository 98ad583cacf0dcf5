import Scriptlet.Eval.Basic

/-!
# Logical operators and conditionals as branchings

`!`, `&&`, `||` and conditionals look at the truth of one value and go on in one
of two ways. `Evaluation.branch` is that step, and each of the four is told with
it (`Expr.eval_negated` and its siblings).

Two laws of branchings are enough for the usual rewritings of such expressions
(`Expr.eval_rewritten`): a branching on a branching moves into both ways of it
(`branch_branch`), and a branching on a known truth takes its way
(`branch_truth`). They hold with bindings, errors and values on their way out, so
what the operands do never has to be looked at.
-/

namespace Scriptlet

/-! ## Branchings -/

namespace Evaluation

/-- Goes on in one of two ways, by the truth of a plain value. -/
def branch (e yes no : Evaluation) : Evaluation :=
  e.andThen fun v => if v.isTruthy then yes else no

def truth (b : Bool) : Evaluation := value (.boolean b)

variable (e p q yes no : Evaluation)

@[simp] theorem branch_truth (b : Bool) : (truth b).branch yes no = if b then yes else no :=
  value_andThen rfl _

@[simp] theorem branch_branch :
    (e.branch p q).branch yes no = e.branch (p.branch yes no) (q.branch yes no) := by
  unfold branch
  rw [andThen_assoc]
  refine andThen_ext e fun v _ => ?_
  split <;> rfl

end Evaluation

open Evaluation (branch truth)

/-! ## What branches -/

namespace Expr

def negated (op : Token.Of .not) (a : Expr) : Expr := .unary op a

def both (a : Expr) (op : Token.Of .andAnd) (b : Expr) : Expr := .binary a op b

def either (a : Expr) (op : Token.Of .orOr) (b : Expr) : Expr := .binary a op b

@[simp] theorem eval_negated (op : Token.Of .not) (a : Expr) :
    (negated op a).eval = a.eval.branch (truth false) (truth true) := by
  rw [negated, Expr.eval]
  refine Evaluation.andThen_ext _ fun v _ => ?_
  have hnot : Operator.unary op v = .ok (.boolean !v.isTruthy) := by
    rw [Operator.unary]
    exact op.property
  rw [hnot]
  cases v.isTruthy <;> rfl

@[simp] theorem eval_both (a : Expr) (op : Token.Of .andAnd) (b : Expr) :
    (both a op b).eval
      = a.eval.branch (b.eval.branch (truth true) (truth false)) (truth false) := by
  rw [both, Expr.eval, op.property]
  refine Evaluation.andThen_ext _ fun v _ => ?_
  cases v.isTruthy with
  | false => rfl
  | true =>
      refine Evaluation.andThen_ext _ fun w _ => ?_
      cases w.isTruthy <;> rfl

@[simp] theorem eval_either (a : Expr) (op : Token.Of .orOr) (b : Expr) :
    (either a op b).eval
      = a.eval.branch (truth true) (b.eval.branch (truth true) (truth false)) := by
  rw [either, Expr.eval, op.property]
  refine Evaluation.andThen_ext _ fun v _ => ?_
  cases v.isTruthy with
  | true => rfl
  | false =>
      refine Evaluation.andThen_ext _ fun w _ => ?_
      cases w.isTruthy <;> rfl

end Expr

/-- A conditional with a block to run is a branching. -/
theorem Conditional.eval_eq_branch (keyword : Token) (condition : Expr) {body : Block}
    (hbody : body ≠ .missing) (otherwise : Alternative) :
    (Conditional.mk keyword condition body otherwise).eval
      = condition.eval.branch body.eval otherwise.eval := by
  cases body with
  | missing => exact absurd rfl hbody
  | braces opening stmts closing empty => rw [Conditional.eval, branch]

/-- Braces around one expression do nothing. -/
theorem Block.eval_single (opening : Token) (e : Expr) (closing : Token) (empty : Bool) :
    (Block.braces opening [.expr e] closing empty).eval = e.eval := by
  simp only [Block.eval, Stmt.evalAll, Stmt.eval]
  exact Evaluation.andThen_value e.eval

/-! ## Rewritings -/

/-- Expressions that do the same, whatever their operands do: the laws of De
Morgan, the association of `&&` and of `||`, the exchange of two blocks under a
negated condition, and braces around a conditional behind `else`. The two sides
may have different tokens, since these operators raise no errors of their own.
Behind the chained conditional anything may follow, or nothing. -/
theorem Expr.eval_rewritten (a b c : Expr) {A B : Block} (hA : A ≠ .missing) (hB : B ≠ .missing)
    (last : Alternative) (n n₁ n₂ : Token.Of .not) (o o₁ o₂ o₃ : Token.Of .andAnd)
    (r r₁ r₂ r₃ : Token.Of .orOr) (k k₁ k₂ k₃ opening closing : Token) (empty : Bool) :
    (negated n (both a o b)).eval = (either (negated n₁ a) r (negated n₂ b)).eval ∧
    (negated n (either a r b)).eval = (both (negated n₁ a) o (negated n₂ b)).eval ∧
    (both (both a o b) o₁ c).eval = (both a o₂ (both b o₃ c)).eval ∧
    (either (either a r b) r₁ c).eval = (either a r₂ (either b r₃ c)).eval ∧
    (Expr.conditional (.mk k (negated n c) A (.block B))).eval
      = (Expr.conditional (.mk k₁ c B (.block A))).eval ∧
    (Expr.conditional (.mk k a A (.chained (.mk k₁ b B last)))).eval
      = (Expr.conditional (.mk k₂ a A (.block
          (.braces opening [.expr (.conditional (.mk k₃ b B last))] closing empty)))).eval := by
  refine ⟨by simp, by simp, by simp, by simp, ?_, ?_⟩
  · rw [Expr.eval, Expr.eval, Conditional.eval_eq_branch _ _ hA, Conditional.eval_eq_branch _ _ hB]
    simp [Alternative.eval]
  · rw [Expr.eval, Expr.eval, Conditional.eval_eq_branch _ _ hA, Conditional.eval_eq_branch _ _ hA,
      Alternative.eval, Alternative.eval, Block.eval_single, Expr.eval,
      Conditional.eval_eq_branch _ _ hB, Conditional.eval_eq_branch _ _ hB]

/-- The first operand announces a binding and is true, and the second one returns
out of both sides. As a condition it runs neither of the blocks. -/
theorem Expr.eval_rewritten_returning :
    let t := Token.endOfInput .start
    let n : Token.Of .not := ⟨{ t with kind := .not }, rfl⟩
    let o : Token.Of .andAnd := ⟨{ t with kind := .andAnd }, rfl⟩
    let r : Token.Of .orOr := ⟨{ t with kind := .orOr }, rfl⟩
    let block (ss : List Stmt) : Block := .braces t ss t false
    let doing (ss : List Stmt) : Expr :=
      .conditional (.mk t (.boolean t true) (block ss) .absent)
    let a := doing [.binding t t (text "x") (.integer t 1), .expr (.integer t 2)]
    let b := doing [.returning t (.integer t 3)]
    let A := block [.expr a]
    let B := block []
    let right := either (negated n a) r (negated n b)
    (A ≠ .missing ∧ B ≠ .missing ∧ right.eval.binds = [⟨text "x", .integer 1⟩] ∧
      right.eval.result.toOption = some (.returned (.integer 3))) ∧
    (negated n (both a o b)).eval = right.eval ∧
    (Expr.conditional (.mk t (negated n b) A (.block B))).eval
      = (Expr.conditional (.mk t b B (.block A))).eval := by
  intro t n o r block doing a b A B right
  have hA : A ≠ .missing := Block.noConfusion
  have hB : B ≠ .missing := Block.noConfusion
  obtain ⟨hnot, -, -, -, hexchange, -⟩ :=
    Expr.eval_rewritten a b b hA hB .absent n n n o o o o r r r r t t t t t t false
  exact ⟨⟨hA, hB, by decide +kernel, by decide +kernel⟩, hnot, hexchange⟩

end Scriptlet
