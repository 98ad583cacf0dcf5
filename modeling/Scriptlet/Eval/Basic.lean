import Scriptlet.Eval.Operators

/-!
# Evaluation

Evaluating a tree gives a value or an error, and the bindings that `let`
statements announce on the way, in order. There are no variables to look up: a
name or a call cannot be evaluated. A wrapped value, on its way out of a
`return`, passes through everything around it like an error does.

Evaluation follows the tree and always ends.
-/

namespace Scriptlet

/-- What a `let` statement announces. -/
structure Binding where
  name : Text
  value : Value
deriving DecidableEq

structure Evaluation where
  binds : List Binding
  result : Result

namespace Evaluation

def value (v : Value) : Evaluation := ⟨[], .ok v⟩

def error (e : RuntimeError) : Evaluation := ⟨[], .error e⟩

/-- Announces a binding and gives null. -/
def bind (name : Text) (v : Value) : Evaluation := ⟨[⟨name, v⟩], .ok .null⟩

/-- Goes on with a plain value. Errors and wrapped values pass. -/
def andThen (e : Evaluation) (f : Value → Evaluation) : Evaluation :=
  match e.result with
  | .error _ => e
  | .ok v =>
      if v.isPlain then
        let next := f v
        ⟨e.binds ++ next.binds, next.result⟩
      else e

theorem andThen_of_error {e : Evaluation} {err : RuntimeError} (h : e.result = .error err)
    (f : Value → Evaluation) : e.andThen f = e := by
  simp [andThen, h]

theorem andThen_of_plain {e : Evaluation} {v : Value} (h : e.result = .ok v)
    (hv : v.isPlain = true) (f : Value → Evaluation) :
    e.andThen f = ⟨e.binds ++ (f v).binds, (f v).result⟩ := by
  simp [andThen, h, hv]

/-- A value on its way out passes over what would come next. -/
theorem andThen_of_wrapped {e : Evaluation} {v : Value} (h : e.result = .ok v)
    (hv : v.isPlain = false) (f : Value → Evaluation) : e.andThen f = e := by
  simp [andThen, h, hv]

theorem value_andThen {v : Value} (hv : v.isPlain = true) (f : Value → Evaluation) :
    (value v).andThen f = f v :=
  andThen_of_plain rfl hv f

theorem andThen_value (e : Evaluation) : e.andThen value = e := by
  cases h : e.result with
  | error err => exact andThen_of_error h _
  | ok v =>
      cases hv : v.isPlain with
      | false => exact andThen_of_wrapped h hv _
      | true =>
          rw [andThen_of_plain h hv]
          simp [value, ← h]

/-- What comes next sees plain values only. -/
theorem andThen_ext {f g : Value → Evaluation} (e : Evaluation)
    (h : ∀ v, v.isPlain = true → f v = g v) : e.andThen f = e.andThen g := by
  unfold andThen
  split
  · rfl
  · split
    · rename_i hv
      rw [h _ hv]
    · rfl

theorem andThen_assoc (e : Evaluation) (f g : Value → Evaluation) :
    (e.andThen f).andThen g = e.andThen fun v => (f v).andThen g := by
  cases h : e.result with
  | error err => rw [andThen_of_error h, andThen_of_error h, andThen_of_error h]
  | ok v =>
      cases hv : v.isPlain with
      | false => rw [andThen_of_wrapped h hv, andThen_of_wrapped h hv, andThen_of_wrapped h hv]
      | true =>
          rw [andThen_of_plain h hv, andThen_of_plain h hv]
          -- the bindings of the first part stand in front, whatever becomes of the second
          cases hf : (f v).result with
          | error err => rw [andThen_of_error rfl, andThen_of_error hf, hf]
          | ok w =>
              cases hw : w.isPlain with
              | false => rw [andThen_of_wrapped rfl hw, andThen_of_wrapped hf hw, hf]
              | true =>
                  rw [andThen_of_plain rfl hw, andThen_of_plain hf hw]
                  simp only [List.append_assoc]

/-- Wraps the value for its way out. -/
def returning (e : Evaluation) : Evaluation :=
  ⟨e.binds, e.result.map fun v => Value.wrap (some v)⟩

end Evaluation

mutual

def Expr.eval : Expr → Evaluation
  | .missing => .error (.unsupported none)
  | .name token word => .error (.unsupported (some (.expr (.name token word))))
  | .integer _ n => .value (.integer n)
  | .float _ x => .value (.float x)
  | .boolean _ b => .value (.boolean b)
  | .string _ s => .value (.string s)
  | .unary op right => right.eval.andThen fun v => ⟨[], Operator.unary op v⟩
  | .binary left op right =>
      left.eval.andThen fun a =>
        if op.kind = .andAnd && !a.isTruthy then .value (.boolean false)
        else if op.kind = .orOr && a.isTruthy then .value (.boolean true)
        else
          right.eval.andThen fun b =>
            if op.kind = .andAnd || op.kind = .orOr then .value (.boolean b.isTruthy)
            else ⟨[], Operator.binary op a b⟩
  | .conditional choice => choice.eval
  | .call callee opening args closing =>
      .error (.unsupported (some (.expr (.call callee opening args closing))))

/-- A conditional without its first block is refused before its condition is
looked at. -/
def Conditional.eval : Conditional → Evaluation
  | .mk keyword condition body otherwise =>
      match body with
      | .missing =>
          .error (.unsupported
            (some (.expr (.conditional (.mk keyword condition .missing otherwise)))))
      | .braces opening stmts closing empty =>
          condition.eval.andThen fun v =>
            if v.isTruthy then (Block.braces opening stmts closing empty).eval else otherwise.eval

def Alternative.eval : Alternative → Evaluation
  | .absent => .value .null
  | .block body => body.eval
  | .chained next => next.eval

def Block.eval : Block → Evaluation
  | .missing => .error (.unsupported none)
  | .braces _ body _ _ => Stmt.evalAll .null body

def Stmt.eval : Stmt → Evaluation
  | .missing => .error (.unsupported none)
  | .binding _ _ word value => value.eval.andThen fun v => .bind word v
  | .returning _ .missing => .value (.returned .null)
  | .returning _ value => value.eval.returning
  | .block body => body.eval
  | .expr value => value.eval

/-- Statements one after the other; the value is that of the last one, or
`last` when there is none. -/
def Stmt.evalAll (last : Value) : List Stmt → Evaluation
  | [] => .value last
  | s :: ss => s.eval.andThen fun v => Stmt.evalAll v ss

end

def Node.eval : Node → Evaluation
  | .expr value => value.eval
  | .stmt body => body.eval

end Scriptlet
