import Scriptlet.Eval.Basic

/-!
# Type mismatches go by kinds

Whether an operator takes its operands, and what kind of value it gives, is a matter
of their kinds alone. So two expressions that differ only in the content of their
literals come to values of one kind, or to the same type mismatch
(`Expr.eval_alike`); no number is too large, too small or not a number for that.

Three operators go by more than kinds. Division of integers looks for a zero, and
`&&` and `||` may pass over their right operand. All others are covered, also in
trees that no source is read as.
-/

namespace Scriptlet

/-- Operators between two operands whose outcome is no matter of kinds alone. -/
def Kind.heedsValues : Kind → Bool
  | slash | andAnd | orOr => true
  | _ => false

/-- Literals and operators in one shape. The operators are the same tokens, and the
literals are of the same kinds. -/
inductive Expr.Alike : Expr → Expr → Prop where
  | integer (t t' : Token) (m n : Int64) : Alike (.integer t m) (.integer t' n)
  | float (t t' : Token) (x y : Float) : Alike (.float t x) (.float t' y)
  | boolean (t t' : Token) (b c : Bool) : Alike (.boolean t b) (.boolean t' c)
  | string (t t' : Token) (r s : Text) : Alike (.string t r) (.string t' s)
  | unary (op : Token) {right right' : Expr} : Alike right right' →
      Alike (.unary op right) (.unary op right')
  | binary {op : Token} {left left' right right' : Expr} : op.kind.heedsValues = false →
      Alike left left' → Alike right right' →
      Alike (.binary left op right) (.binary left' op right')

/-- Two evaluations that announce nothing and come to plain values of one kind, or to
the same type mismatch. -/
inductive Evaluation.Alike : Evaluation → Evaluation → Prop where
  | value {v w : Value} : v.isPlain = true → v.kind = w.kind → Alike (.value v) (.value w)
  | mismatch (start : Position) (op : Text) (left : Option ValueKind) (right : ValueKind) :
      Alike (.error (.typeMismatch start op left right))
        (.error (.typeMismatch start op left right))

namespace Value

variable {v w : Value}

theorem isPlain_congr (h : v.kind = w.kind) : v.isPlain = w.isPlain := by
  cases v <;> cases w <;> first | rfl | cases h

theorem eq_integer (h : v.kind = .integer) : ∃ n, v = .integer n := by
  cases v <;> first | exact ⟨_, rfl⟩ | cases h

/-- A value is a number or not by its kind. -/
theorem toFloat?_congr (h : v.kind = w.kind) :
    (∃ x y, v.toFloat? = some x ∧ w.toFloat? = some y) ∨ v.toFloat? = none ∧ w.toFloat? = none := by
  cases v <;> cases w <;>
    first | exact Or.inl ⟨_, _, rfl, rfl⟩ | exact Or.inr ⟨rfl, rfl⟩ | cases h

end Value

/-! ## Operators -/

namespace Operator

open Evaluation (Alike)

variable {op : Token} {v w left left' right right' : Value}

-- stated for any content, since a check at the place of use would compute it

theorem alike_integer (m n : Int64) : Alike ⟨[], .ok (.integer m)⟩ ⟨[], .ok (.integer n)⟩ :=
  .value rfl rfl

theorem alike_float (x y : Float) : Alike ⟨[], .ok (.float x)⟩ ⟨[], .ok (.float y)⟩ :=
  .value rfl rfl

theorem alike_boolean (b c : Bool) : Alike ⟨[], .ok (.boolean b)⟩ ⟨[], .ok (.boolean c)⟩ :=
  .value rfl rfl

theorem alike_unary (op : Token) (h : v.kind = w.kind) :
    Alike ⟨[], unary op v⟩ ⟨[], unary op w⟩ := by
  have hmismatch : Alike (.error (.typeMismatch op.start op.lexeme none v.kind))
      (.error (.typeMismatch op.start op.lexeme none w.kind)) := h ▸ .mismatch ..
  unfold unary
  generalize op.kind = kind
  cases kind
  case not => exact alike_boolean _ _
  case minus =>
      cases v <;> cases w <;>
        first | exact alike_integer _ _ | exact alike_float _ _ | exact hmismatch | cases h
  all_goals exact hmismatch

theorem alike_integers (hop : op.kind.heedsValues = false) (m n m' n' : Int64) :
    Alike ⟨[], integers op m n⟩ ⟨[], integers op m' n'⟩ := by
  unfold integers
  generalize op.kind = kind at hop ⊢
  cases kind
  case slash => cases hop
  case plus | minus | star | and | or => exact alike_integer _ _
  case less | greater | lessEqual | greaterEqual => exact alike_boolean _ _
  all_goals exact .mismatch ..

/-- Whether there is such an operator between floats does not depend on them. -/
theorem alike_floats (kind : Kind) (x y x' y' : Float) {err err' : RuntimeError}
    (h : Alike ⟨[], .error err⟩ ⟨[], .error err'⟩) :
    Alike ⟨[], (floats? kind x y).elim (.error err) .ok⟩
      ⟨[], (floats? kind x' y').elim (.error err') .ok⟩ := by
  unfold floats?
  cases kind
  case plus | minus | star | slash => exact alike_float _ _
  case less | greater | lessEqual | greaterEqual => exact alike_boolean _ _
  all_goals exact h

theorem numbers_of_not_integers (op : Token)
    (h : ¬(left.kind = .integer ∧ right.kind = .integer)) :
    numbers op left right =
      ((left.toFloat?.bind fun x => right.toFloat?.bind fun y => floats? op.kind x y).elim
        (.error (mismatch op left right)) .ok) := by
  unfold numbers
  split
  · exact absurd ⟨rfl, rfl⟩ h
  · cases left.toFloat? with
    | none => rfl
    | some x =>
        cases right.toFloat? with
        | none => rfl
        | some y =>
            simp only [Option.bind_some]
            cases floats? op.kind x y <;> rfl

theorem alike_numbers (hop : op.kind.heedsValues = false) (hleft : left.kind = left'.kind)
    (hright : right.kind = right'.kind) :
    Alike ⟨[], numbers op left right⟩ ⟨[], numbers op left' right'⟩ := by
  by_cases hints : left.kind = .integer ∧ right.kind = .integer
  · obtain ⟨m, rfl⟩ := Value.eq_integer hints.1
    obtain ⟨n, rfl⟩ := Value.eq_integer hints.2
    obtain ⟨m', rfl⟩ := Value.eq_integer hleft.symm
    obtain ⟨n', rfl⟩ := Value.eq_integer hright.symm
    exact alike_integers hop m n m' n'
  · have hmismatch : Alike ⟨[], .error (mismatch op left right)⟩
        ⟨[], .error (mismatch op left' right')⟩ := by
      rw [mismatch, mismatch, hleft, hright]
      exact .mismatch ..
    rw [numbers_of_not_integers op hints,
      numbers_of_not_integers op (by rwa [← hleft, ← hright])]
    -- all four operands are numbers, or the two sides lack the same ones
    rcases Value.toFloat?_congr hleft with ⟨x, x', hx, hx'⟩ | ⟨hx, hx'⟩
    · rcases Value.toFloat?_congr hright with ⟨y, y', hy, hy'⟩ | ⟨hy, hy'⟩
      · simp only [hx, hx', hy, hy', Option.bind_some]
        exact alike_floats op.kind x y x' y' hmismatch
      · simp only [hx, hx', hy, hy', Option.bind_some, Option.bind_none, Option.elim_none]
        exact hmismatch
    · simp only [hx, hx', Option.bind_none, Option.elim_none]
      exact hmismatch

theorem alike_binary (hop : op.kind.heedsValues = false) (hleft : left.kind = left'.kind)
    (hright : right.kind = right'.kind) :
    Alike ⟨[], binary op left right⟩ ⟨[], binary op left' right'⟩ := by
  unfold binary
  split
  · exact alike_boolean _ _
  · exact alike_boolean _ _
  · exact alike_numbers hop hleft hright

end Operator

/-! ## Trees -/

theorem Evaluation.Alike.andThen {a b : Evaluation} {f g : Value → Evaluation} (h : Alike a b)
    (hfg : ∀ v w, v.kind = w.kind → Alike (f v) (g w)) : Alike (a.andThen f) (b.andThen g) := by
  cases h with
  | value hv hkind =>
      rw [value_andThen hv, value_andThen (Value.isPlain_congr hkind ▸ hv)]
      exact hfg _ _ hkind
  | mismatch start op left right =>
      rw [andThen_of_error rfl, andThen_of_error rfl]
      exact .mismatch ..

theorem Expr.Alike.evaluation {e e' : Expr} (h : Alike e e') : e.eval.Alike e'.eval := by
  induction h with
  | integer | float | boolean | string =>
      rw [Expr.eval, Expr.eval]
      exact .value rfl rfl
  | unary op _ ih =>
      rw [Expr.eval, Expr.eval]
      exact ih.andThen fun v w hkind => Operator.alike_unary op hkind
  | @binary op _ _ _ _ hop _ _ ihleft ihright =>
      have hand : op.kind ≠ .andAnd := fun hk => by rw [hk] at hop; cases hop
      have hor : op.kind ≠ .orOr := fun hk => by rw [hk] at hop; cases hop
      rw [Expr.eval, Expr.eval]
      simp only [hand, hor, decide_false, Bool.false_and, Bool.or_self, Bool.false_eq_true,
        if_false]
      refine ihleft.andThen fun a a' hleft => ihright.andThen fun b b' hright => ?_
      exact Operator.alike_binary hop hleft hright

/-- Two expressions of one shape, with the same operators and literals of the same
kinds, both come to a value, of one kind, or both to one type mismatch. -/
theorem Expr.eval_alike {e e' : Expr} (h : Alike e e') :
    (∃ v w, e.eval = .value v ∧ e'.eval = .value w ∧ v.kind = w.kind) ∨
    ∃ start op left right,
      e.eval = .error (.typeMismatch start op left right) ∧
      e'.eval = .error (.typeMismatch start op left right) := by
  have hevaluation := h.evaluation
  generalize e.eval = a, e'.eval = b at hevaluation ⊢
  cases hevaluation with
  | value _ hkind => exact Or.inl ⟨_, _, rfl, rfl, hkind⟩
  | mismatch start op left right => exact Or.inr ⟨start, op, left, right, rfl, rfl⟩

/-- A float and an integer do not go together with `&`, whether the sum that gave the
float is not a number or a large one. A sum of integers that wraps around is an
integer like any other. -/
theorem Expr.eval_alike_mixed :
    let t := Token.endOfInput .start
    let plus : Token := { t with kind := .plus }
    let and : Token := { t with kind := .and }
    let mixed (n : Int64) (x : Float) : Expr :=
      .binary (.binary (.integer t n) plus (.float t x)) and (.integer t n)
    let sum (n : Int64) : Expr := .binary (.integer t n) plus (.integer t 1)
    (Alike (mixed 0 (0.0 / 0.0)) (mixed .maxValue 1.5) ∧ Alike (sum 0) (sum .maxValue)) ∧
    (mixed .maxValue 1.5).eval
      = .error (.typeMismatch and.start and.lexeme (some .float) .integer) ∧
    ∃ v, (sum .maxValue).eval = .value v ∧ v.kind = .integer := by
  intro t plus and mixed sum
  have hmixed : Alike (mixed 0 (0.0 / 0.0)) (mixed .maxValue 1.5) :=
    .binary rfl (.binary rfl (.integer ..) (.float ..)) (.integer ..)
  have hsum : Alike (sum 0) (sum .maxValue) := .binary rfl (.integer ..) (.integer ..)
  have herror : (mixed 0 (0.0 / 0.0)).eval
      = .error (.typeMismatch and.start and.lexeme (some .float) .integer) := rfl
  have hvalue : (sum 0).eval = .value (.integer 1) := rfl
  refine ⟨⟨hmixed, hsum⟩, ?_, ?_⟩
  · rcases Expr.eval_alike hmixed with ⟨v, w, hv, -, -⟩ | ⟨start, op, left, right, h, h'⟩
    · rw [herror] at hv
      cases congrArg Evaluation.result hv
    · rw [h', ← h, herror]
  · rcases Expr.eval_alike hsum with ⟨v, w, hv, hw, hkind⟩ | ⟨start, op, left, right, h, -⟩
    · refine ⟨w, hw, ?_⟩
      obtain rfl := Except.ok.inj (congrArg Evaluation.result (hvalue.symm.trans hv))
      exact hkind.symm
    · rw [hvalue] at h
      cases congrArg Evaluation.result h

end Scriptlet
