import Mathlib.Data.Int.Bitwise
import Scriptlet.Eval.Basic

/-!
# Integer arithmetic

Expressions of integer literals, minus signs and `+`, `-`, `*`, `/`, `&` and `|`
compute in 64 bits (`IntExpr.eval_expr`). The reference is in the integers: each
operation is exact there, division goes toward zero, `&` and `|` see infinitely many
bits, and every step is wrapped to 64 bits.

Wrapping is a homomorphism for all operations but division (`ofInt_exact_congr`). So
without division it is enough to wrap once, at the end. With division the steps in
between matter, since the divisor that is tested for zero is a wrapped one.
-/

namespace Scriptlet

/-! ## The reference -/

/-- The integer of 64 bits, in two's complement, that agrees with `n` modulo 2^64. -/
def wrap (n : Int) : Int := n.bmod Int64.size

/-- Operations between two integers. -/
inductive Operation where
  | add | subtract | multiply | divide | and | or
deriving DecidableEq, Repr

namespace Operation

def kind : Operation → Kind
  | add => .plus
  | subtract => .minus
  | multiply => .star
  | divide => .slash
  | and => .and
  | or => .or

/-- The operation in the integers, where the divisor is not zero. -/
def exact : Operation → Int → Int → Int
  | add, m, n => m + n
  | subtract, m, n => m - n
  | multiply, m, n => m * n
  | divide, m, n => m.tdiv n
  | and, m, n => m.land n
  | or, m, n => m.lor n

end Operation

/-- Expressions of integers. -/
inductive IntExpr where
  | literal (token : Token) (value : Int64)
  | negated (op : Token.Of .minus) (right : IntExpr)
  | applied (left : IntExpr) (f : Operation) (op : Token.Of f.kind) (right : IntExpr)

/-- A division, by its operator and its right operand. -/
structure Division where
  op : Token
  right : IntExpr

namespace IntExpr

def expr : IntExpr → Expr
  | literal token value => .integer token value
  | negated op right => .unary op right.expr
  | applied left _ op right => .binary left.expr op right.expr

/-- The value in the integers. -/
def exact : IntExpr → Int
  | literal _ value => value.toInt
  | negated _ right => -right.exact
  | applied left f _ right => f.exact left.exact right.exact

/-- The value with each step wrapped. It says something only where no divisor on the
way is zero. -/
def wrapped : IntExpr → Int
  | literal _ value => value.toInt
  | negated _ right => wrap (-right.wrapped)
  | applied left f _ right => wrap (f.exact left.wrapped right.wrapped)

/-- All divisions, in the order of evaluation. -/
def divisions : IntExpr → List Division
  | literal _ _ => []
  | negated _ right => right.divisions
  | applied left f op right =>
      left.divisions ++ (right.divisions ++ if f = .divide then [⟨op, right⟩] else [])

/-- The first division whose divisor is zero when it is wrapped. -/
def zeroDivision? (a : IntExpr) : Option Division :=
  a.divisions.find? fun d => d.right.wrapped = 0

end IntExpr

/-! ## Wrapping -/

theorem toInt_ofInt_eq_wrap (n : Int) : (Int64.ofInt n).toInt = wrap n := Int64.toInt_ofInt

@[simp] theorem ofInt_wrap (n : Int) : Int64.ofInt (wrap n) = Int64.ofInt n := by
  rw [← toInt_ofInt_eq_wrap, Int64.ofInt_toInt]

/-- The bits of an integer of 64 bits are the last ones of the integer it wraps. -/
theorem getLsbD_ofInt (n : Int) {i : Nat} (hi : i < 64) :
    (Int64.ofInt n).toBitVec.getLsbD i = n.testBit i := by
  rw [Int64.toBitVec_ofInt]
  cases n with
  | ofNat n =>
      rw [Int.ofNat_eq_natCast, BitVec.ofInt_natCast, BitVec.getLsbD_ofNat, decide_eq_true hi]
      rfl
  | negSucc n =>
      rw [BitVec.ofInt_negSucc_eq_not_ofNat, BitVec.getLsbD_not, BitVec.getLsbD_ofNat,
        decide_eq_true hi]
      rfl

theorem ofInt_land (m n : Int) : Int64.ofInt (m.land n) = Int64.ofInt m &&& Int64.ofInt n := by
  refine Int64.toBitVec_inj.mp (BitVec.eq_of_getLsbD_eq fun i hi => ?_)
  rw [Int64.toBitVec_and, BitVec.getLsbD_and, getLsbD_ofInt _ hi, getLsbD_ofInt _ hi,
    getLsbD_ofInt _ hi, Int.testBit_land]

theorem ofInt_lor (m n : Int) : Int64.ofInt (m.lor n) = Int64.ofInt m ||| Int64.ofInt n := by
  refine Int64.toBitVec_inj.mp (BitVec.eq_of_getLsbD_eq fun i hi => ?_)
  rw [Int64.toBitVec_or, BitVec.getLsbD_or, getLsbD_ofInt _ hi, getLsbD_ofInt _ hi,
    getLsbD_ofInt _ hi, Int.testBit_lor]

namespace Operation

variable {f : Operation}

/-- Apart from division, the last 64 bits of the operands give those of the result. -/
theorem ofInt_exact_congr (hf : f ≠ .divide) {m m' n n' : Int}
    (hm : Int64.ofInt m = Int64.ofInt m') (hn : Int64.ofInt n = Int64.ofInt n') :
    Int64.ofInt (f.exact m n) = Int64.ofInt (f.exact m' n') := by
  cases f with
  | add => rw [exact, exact, Int64.ofInt_add, Int64.ofInt_add, hm, hn]
  | subtract => rw [exact, exact, Int64.ofInt_sub, Int64.ofInt_sub, hm, hn]
  | multiply => rw [exact, exact, Int64.ofInt_mul, Int64.ofInt_mul, hm, hn]
  | divide => exact absurd rfl hf
  | and => rw [exact, exact, ofInt_land, ofInt_land, hm, hn]
  | or => rw [exact, exact, ofInt_lor, ofInt_lor, hm, hn]

/-- The operator between two integers is the exact operation, wrapped. -/
theorem integers_eq (op : Token.Of f.kind) (m n : Int64) :
    Operator.integers op m n =
      if f = .divide ∧ n.toInt = 0 then .error (.divisionByZero op.val.start)
      else .ok (.integer (Int64.ofInt (f.exact m.toInt n.toInt))) := by
  obtain ⟨op, hop⟩ := op
  rw [Operator.integers, hop]
  cases f with
  | add => simp [kind, exact, Int64.ofInt_add]
  | subtract => simp [kind, exact, Int64.ofInt_sub]
  | multiply => simp [kind, exact, Int64.ofInt_mul]
  | divide =>
      have hdiv : Int64.ofInt (m.toInt.tdiv n.toInt) = m / n := by
        rw [Int64.ofInt_tdiv m.minValue_le_toInt m.toInt_le n.minValue_le_toInt n.toInt_le,
          Int64.ofInt_toInt, Int64.ofInt_toInt]
      have hzero : n = 0 ↔ n.toInt = 0 := by rw [← Int64.toInt_inj, Int64.toInt_zero]
      simp [kind, exact, hdiv, hzero]
  | and => simp [kind, exact, ofInt_land]
  | or => simp [kind, exact, ofInt_lor]

/-- Operations between integers look at both operands. -/
theorem eval_binary (op : Token.Of f.kind) (left right : Expr) :
    (Expr.binary left op right).eval =
      left.eval.andThen fun a => right.eval.andThen fun b => ⟨[], Operator.numbers op a b⟩ := by
  obtain ⟨op, hop⟩ := op
  rw [Expr.eval]
  simp only [Operator.binary, hop]
  cases f <;> rfl

end Operation

/-! ## Expressions -/

namespace IntExpr

/-- Each step is wrapped, so the last one is. -/
theorem toInt_ofInt_wrapped (a : IntExpr) : (Int64.ofInt a.wrapped).toInt = a.wrapped := by
  cases a with
  | literal _ value => rw [wrapped, Int64.ofInt_toInt]
  | negated _ right => rw [wrapped, ofInt_wrap, toInt_ofInt_eq_wrap]
  | applied left f _ right => rw [wrapped, ofInt_wrap, toInt_ofInt_eq_wrap]

theorem unary_integer (op : Token.Of .minus) (n : Int64) :
    Operator.unary op (.integer n) = .ok (.integer (-n)) := by
  unfold Operator.unary
  rw [op.property]

theorem zeroDivision?_negated (op : Token.Of .minus) (right : IntExpr) :
    (negated op right).zeroDivision? = right.zeroDivision? := rfl

/-- The operands are evaluated before their division. -/
theorem zeroDivision?_applied (left : IntExpr) (f : Operation) (op : Token.Of f.kind)
    (right : IntExpr) :
    (applied left f op right).zeroDivision? = left.zeroDivision?.or (right.zeroDivision?.or
      (if f = .divide ∧ right.wrapped = 0 then some ⟨op, right⟩ else none)) := by
  rw [zeroDivision?, divisions, List.find?_append, List.find?_append]
  congr 2
  by_cases hf : f = .divide <;> by_cases hzero : right.wrapped = 0 <;> simp [hf, hzero]

/-- What an expression comes to goes by its first division by zero. -/
theorem eval_eq_elim (a : IntExpr) :
    a.expr.eval = a.zeroDivision?.elim (.value (.integer (Int64.ofInt a.wrapped)))
      fun d => .error (.divisionByZero d.op.start) := by
  induction a with
  | literal token value =>
      rw [expr, Expr.eval, wrapped, Int64.ofInt_toInt]
      rfl
  | negated op right ih =>
      rw [expr, Expr.eval, ih, zeroDivision?_negated]
      cases right.zeroDivision? with
      | some d => exact Evaluation.andThen_of_error rfl _
      | none =>
          rw [Option.elim_none, Option.elim_none, Evaluation.value_andThen rfl,
            unary_integer, wrapped, ofInt_wrap, Int64.ofInt_neg]
          rfl
  | applied left f op right ihleft ihright =>
      rw [expr, Operation.eval_binary, ihleft, ihright, zeroDivision?_applied]
      -- an operand that fails does so ahead of the operation, and the left one first
      cases left.zeroDivision? with
      | some d => exact Evaluation.andThen_of_error rfl _
      | none =>
          rw [Option.elim_none, Evaluation.value_andThen rfl, Option.none_or]
          cases right.zeroDivision? with
          | some d => exact Evaluation.andThen_of_error rfl _
          | none =>
              rw [Option.elim_none, Evaluation.value_andThen rfl, Option.none_or, Operator.numbers,
                Operation.integers_eq, toInt_ofInt_wrapped, toInt_ofInt_wrapped, wrapped,
                ofInt_wrap]
              split <;> rfl

/-- Without division the steps in between may as well be exact. -/
theorem ofInt_wrapped_eq_exact {a : IntExpr} (h : a.divisions = []) :
    Int64.ofInt a.wrapped = Int64.ofInt a.exact := by
  induction a with
  | literal token value => rfl
  | negated op right ih =>
      rw [divisions] at h
      rw [wrapped, exact, ofInt_wrap, Int64.ofInt_neg, Int64.ofInt_neg, ih h]
  | applied left f op right ihleft ihright =>
      simp only [divisions, List.append_eq_nil_iff] at h
      obtain ⟨hleft, hright, hf⟩ := h
      have hdivide : f ≠ .divide := by
        rintro rfl
        cases hf
      rw [wrapped, exact, ofInt_wrap]
      exact Operation.ofInt_exact_congr hdivide (ihleft hleft) (ihright hright)

/-- An expression of integers fails at its first division by zero, in the order of
evaluation and with wrapped divisors. Without one it comes to its value with each
step wrapped, and without any division to its exact value wrapped once. -/
theorem eval_expr (a : IntExpr) :
    (∀ d, a.zeroDivision? = some d → a.expr.eval = .error (.divisionByZero d.op.start)) ∧
    (a.zeroDivision? = none →
      ∃ n : Int64, n.toInt = a.wrapped ∧ a.expr.eval = .value (.integer n)) ∧
    (a.divisions = [] →
      ∃ n : Int64, n.toInt = wrap a.exact ∧ a.expr.eval = .value (.integer n)) := by
  have hvalue : a.zeroDivision? = none → a.expr.eval = .value (.integer (.ofInt a.wrapped)) := by
    intro hnone
    rw [eval_eq_elim, hnone, Option.elim_none]
  refine ⟨fun d hd => ?_, fun hnone => ?_, fun hdivisions => ?_⟩
  · rw [eval_eq_elim, hd, Option.elim_some]
  · exact ⟨_, toInt_ofInt_wrapped a, hvalue hnone⟩
  · have hnone : a.zeroDivision? = none := by rw [zeroDivision?, hdivisions, List.find?_nil]
    refine ⟨_, ?_, hvalue hnone⟩
    rw [ofInt_wrapped_eq_exact hdivisions, toInt_ofInt_eq_wrap]

/-- The least integer divided by -1, and negated, is itself. The divisor
2^32 * 2^32 is zero when it is wrapped, though not in the integers; the division by
zero to the right of it comes later. -/
theorem eval_expr_limits :
    let t := Token.endOfInput .start
    let minus : Token.Of .minus := ⟨{ t with kind := .minus }, rfl⟩
    let op (f : Operation) (col : Nat) : Token.Of f.kind :=
      ⟨{ t with kind := f.kind, start := { t.start with col } }, rfl⟩
    let number (n : Int64) : IntExpr := .literal t n
    let least := number .minValue
    let quotient : IntExpr := .applied least .divide (op .divide 0) (number (-1))
    let square : IntExpr :=
      .applied (number 4294967296) .multiply (op .multiply 0) (number 4294967296)
    let failing : IntExpr := .applied (.applied (number 1) .divide (op .divide 3) square) .add
      (op .add 4) (.applied (number 1) .divide (op .divide 5) (number 0))
    (quotient.zeroDivision? = none ∧ (negated minus least).divisions = [] ∧
      square.divisions = [] ∧ square.exact ≠ 0 ∧
      failing.zeroDivision? = some ⟨op .divide 3, square⟩) ∧
    quotient.expr.eval = .value (.integer .minValue) ∧
    (negated minus least).expr.eval = .value (.integer .minValue) ∧
    square.expr.eval = .value (.integer 0) ∧
    failing.expr.eval = .error (.divisionByZero (op .divide 3).val.start) := by
  intro t minus op number least quotient square failing
  have hquotient : quotient.zeroDivision? = none := by rfl
  have hfailing : failing.zeroDivision? = some ⟨op .divide 3, square⟩ := by rfl
  have hnegated : (negated minus least).divisions = [] := rfl
  have hsquare : square.divisions = [] := rfl
  refine ⟨⟨hquotient, hnegated, hsquare, by decide, hfailing⟩, ?_, ?_, ?_, ?_⟩
  · obtain ⟨n, hn, heval⟩ := (eval_expr quotient).2.1 hquotient
    have hleast : quotient.wrapped = Int64.minValue.toInt := by decide
    rw [heval, Int64.toInt_inj.mp (hn.trans hleast)]
  · obtain ⟨n, hn, heval⟩ := (eval_expr (negated minus least)).2.2 hnegated
    have hleast : wrap (negated minus least).exact = Int64.minValue.toInt := by decide
    rw [heval, Int64.toInt_inj.mp (hn.trans hleast)]
  · obtain ⟨n, hn, heval⟩ := (eval_expr square).2.2 hsquare
    have hzero : wrap square.exact = Int64.toInt 0 := by decide
    rw [heval, Int64.toInt_inj.mp (hn.trans hzero)]
  · exact (eval_expr failing).1 _ hfailing

end IntExpr

end Scriptlet
