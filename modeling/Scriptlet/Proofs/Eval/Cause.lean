import Scriptlet.Proofs.Tree.Folding
import Scriptlet.Proofs.Tree.Relabel
import Scriptlet.Script

/-!
# What runs come to, wherever their source stands

A run depends on the positions in its tree in one way only: its errors name
them. `Problem.cause` is a problem without its position, and `unplaced` an
evaluation or a run with the causes of its errors in their place.

Up to causes, evaluation is compositional (the `_congr` lemmas). So a program
runs the same with its positions erased (`Program.run_erase`) and with its
signs folded (`Program.run_foldSigns`).
-/

namespace Scriptlet

/-! ## Causes -/

inductive ProblemKind where
  | lexical
  | grammatical
  | typeMismatch
  | divisionByZero
  | unsupported
  | other
deriving DecidableEq, Repr

def Problem.kind : Problem → ProblemKind
  | .lexical _ => .lexical
  | .grammatical _ => .grammatical
  | .runtime (.typeMismatch _ _ _ _) => .typeMismatch
  | .runtime (.divisionByZero _) => .divisionByZero
  | .runtime (.unsupported _) => .unsupported
  | .other _ => .other

/-- What is wrong, but not where. -/
structure Cause where
  kind : ProblemKind
  explanation : Text
deriving DecidableEq, Repr

def Problem.cause (p : Problem) : Cause := ⟨p.kind, p.explanation⟩

def Failure.cause : Failure → List Cause ⊕ Interruption
  | .problems ps => .inl (ps.map Problem.cause)
  | .interrupted why => .inr why

namespace Evaluation

def causes : Result → Except Cause Value
  | .ok v => .ok v
  | .error e => .error (Problem.runtime e).cause

def unplaced (e : Evaluation) : List Binding × Except Cause Value := (e.binds, causes e.result)

variable {a b : Evaluation}

theorem unplaced_eq_iff : a.unplaced = b.unplaced ↔ a.binds = b.binds ∧
    ((∃ v, a.result = .ok v ∧ b.result = .ok v) ∨
      ∃ d e, a.result = .error d ∧ b.result = .error e ∧
        (Problem.runtime d).cause = (Problem.runtime e).cause) := by
  simp only [unplaced, causes, Prod.mk.injEq]
  cases a.result <;> cases b.result <;> simp [eq_comm]

theorem andThen_congr {f g : Value → Evaluation} (h : a.unplaced = b.unplaced)
    (hfg : ∀ v, (f v).unplaced = (g v).unplaced) :
    (a.andThen f).unplaced = (b.andThen g).unplaced := by
  obtain ⟨hbinds, ⟨v, ha, hb⟩ | ⟨d, e, ha, hb, -⟩⟩ := unplaced_eq_iff.mp h
  · cases hv : v.isPlain with
    | false => rw [andThen_of_wrapped ha hv, andThen_of_wrapped hb hv, h]
    | true =>
        obtain ⟨hnext, hresult⟩ := Prod.mk.inj (hfg v)
        rw [andThen_of_plain ha hv, andThen_of_plain hb hv]
        simp only [unplaced, hbinds, hnext, hresult]
  · rw [andThen_of_error ha, andThen_of_error hb, h]

theorem returning_congr (h : a.unplaced = b.unplaced) :
    a.returning.unplaced = b.returning.unplaced := by
  obtain ⟨hbinds, ⟨v, ha, hb⟩ | ⟨d, e, ha, hb, hcause⟩⟩ := unplaced_eq_iff.mp h
  · simp only [unplaced, returning, hbinds, ha, hb]
  · simp only [unplaced, returning, hbinds, ha, hb, causes, Except.map, hcause]

theorem unsupported_congr {m n : Node} (h : m.title = n.title) :
    (Evaluation.error (.unsupported (some m))).unplaced
      = (Evaluation.error (.unsupported (some n))).unplaced := by
  simp only [unplaced, error, causes, Problem.cause, Problem.kind,
    Problem.explanation, RuntimeError.explanation, h]

end Evaluation

/-! ## Operators -/

namespace Operator

variable {op op' : Token} (hk : op.kind = op'.kind) (hl : op.lexeme = op'.lexeme)

include hl in
theorem mismatch_congr (left right : Value) : (Problem.runtime (mismatch op left right)).cause
    = (Problem.runtime (mismatch op' left right)).cause := by
  simp only [mismatch, Problem.cause, Problem.kind, Problem.explanation, RuntimeError.explanation,
    hl]

include hk hl

theorem unary_congr (v : Value) :
    Evaluation.causes (unary op v) = Evaluation.causes (unary op' v) := by
  unfold unary
  rw [hk]
  split
  · rfl
  · rfl
  · rfl
  · simp only [Evaluation.causes, Problem.cause, Problem.kind,
      Problem.explanation, RuntimeError.explanation, hl]

theorem integers_congr (m n : Int64) :
    Evaluation.causes (integers op m n) = Evaluation.causes (integers op' m n) := by
  rw [integers, integers, hk]
  split
  case h_4 => split <;> rfl
  case h_11 => exact congrArg Except.error (mismatch_congr hl _ _)
  all_goals rfl

theorem numbers_congr (left right : Value) :
    Evaluation.causes (numbers op left right) = Evaluation.causes (numbers op' left right) := by
  unfold numbers
  rw [hk]
  split
  · exact integers_congr hk hl _ _
  · split
    · split
      · rfl
      · exact congrArg Except.error (mismatch_congr hl _ _)
    · exact congrArg Except.error (mismatch_congr hl _ _)

theorem binary_congr (left right : Value) :
    Evaluation.causes (binary op left right) = Evaluation.causes (binary op' left right) := by
  rw [binary, binary, hk]
  split
  · rfl
  · rfl
  · exact numbers_congr hk hl left right

end Operator

/-! ## Trees -/

section Trees

variable {left left' right right' condition condition' value value' : Expr}
  {op op' keyword keyword' : Token} {otherwise otherwise' : Alternative}
  {body body' : List Stmt}

theorem Expr.unary_congr (hk : op.kind = op'.kind) (hl : op.lexeme = op'.lexeme)
    (h : right.eval.unplaced = right'.eval.unplaced) :
    (Expr.unary op right).eval.unplaced = (Expr.unary op' right').eval.unplaced := by
  rw [Expr.eval, Expr.eval]
  exact Evaluation.andThen_congr h fun v => congrArg (Prod.mk []) (Operator.unary_congr hk hl v)

theorem Expr.binary_congr (hk : op.kind = op'.kind) (hl : op.lexeme = op'.lexeme)
    (hleft : left.eval.unplaced = left'.eval.unplaced)
    (hright : right.eval.unplaced = right'.eval.unplaced) :
    (Expr.binary left op right).eval.unplaced = (Expr.binary left' op' right').eval.unplaced := by
  rw [Expr.eval, Expr.eval, hk]
  refine Evaluation.andThen_congr hleft fun a => ?_
  split
  · rfl
  · split
    · rfl
    · refine Evaluation.andThen_congr hright fun b => ?_
      split
      · rfl
      · exact congrArg (Prod.mk []) (Operator.binary_congr hk hl a b)

theorem Conditional.eval_congr {opening opening' closing closing' : Token} {empty empty' : Bool}
    (hcondition : condition.eval.unplaced = condition'.eval.unplaced)
    (hbody : (Stmt.evalAll .null body).unplaced = (Stmt.evalAll .null body').unplaced)
    (hotherwise : otherwise.eval.unplaced = otherwise'.eval.unplaced) :
    (Conditional.mk keyword condition (.braces opening body closing empty) otherwise).eval.unplaced
      = (Conditional.mk keyword' condition' (.braces opening' body' closing' empty')
          otherwise').eval.unplaced := by
  rw [Conditional.eval, Conditional.eval]
  refine Evaluation.andThen_congr hcondition fun v => ?_
  split
  · rw [Block.eval, Block.eval]
    exact hbody
  · exact hotherwise

theorem Stmt.eval_returning (h : value ≠ .missing) :
    (Stmt.returning keyword value).eval = value.eval.returning := by
  rw [Stmt.eval]
  exact h

theorem Stmt.returning_congr (hmissing : value = .missing ↔ value' = .missing)
    (h : value.eval.unplaced = value'.eval.unplaced) :
    (Stmt.returning keyword value).eval.unplaced
      = (Stmt.returning keyword' value').eval.unplaced := by
  by_cases hvalue : value = .missing
  · rw [hvalue, hmissing.mp hvalue, Stmt.eval, Stmt.eval]
  · rw [Stmt.eval_returning hvalue, Stmt.eval_returning (mt hmissing.mpr hvalue)]
    exact Evaluation.returning_congr h

end Trees

/-! ## Erasing positions -/

theorem Expr.relabel_eq_missing {f : Token → Token} {e : Expr} :
    e.relabel f = .missing ↔ e = .missing := by
  cases e <;> simp [Expr.relabel]

mutual

theorem Expr.eval_erase : ∀ e : Expr, (e.relabel Token.erase).eval.unplaced = e.eval.unplaced
  | .missing => by rw [Expr.relabel]
  | .name token word => by
      rw [Expr.relabel, Expr.eval, Expr.eval]
      exact Evaluation.unsupported_congr rfl
  | .integer _ _ => by rw [Expr.relabel, Expr.eval, Expr.eval]
  | .float _ _ => by rw [Expr.relabel, Expr.eval, Expr.eval]
  | .boolean _ _ => by rw [Expr.relabel, Expr.eval, Expr.eval]
  | .string _ _ => by rw [Expr.relabel, Expr.eval, Expr.eval]
  | .unary op right => by
      rw [Expr.relabel]
      exact Expr.unary_congr rfl rfl (Expr.eval_erase right)
  | .binary left op right => by
      rw [Expr.relabel]
      exact Expr.binary_congr rfl rfl (Expr.eval_erase left) (Expr.eval_erase right)
  | .conditional choice => by
      rw [Expr.relabel, Expr.eval, Expr.eval, Conditional.eval_erase choice]
  | .call callee opening args closing => by
      rw [Expr.relabel, Expr.eval, Expr.eval]
      exact Evaluation.unsupported_congr rfl

theorem Conditional.eval_erase :
    ∀ c : Conditional, (c.relabel Token.erase).eval.unplaced = c.eval.unplaced
  | .mk keyword condition .missing otherwise => by
      rw [Conditional.relabel, Block.relabel, Conditional.eval, Conditional.eval]
      exact Evaluation.unsupported_congr rfl
  | .mk keyword condition (.braces opening body closing empty) otherwise => by
      rw [Conditional.relabel, Block.relabel]
      exact Conditional.eval_congr (Expr.eval_erase condition) (Stmt.evalAll_erase .null body)
        (Alternative.eval_erase otherwise)

theorem Alternative.eval_erase :
    ∀ a : Alternative, (a.relabel Token.erase).eval.unplaced = a.eval.unplaced
  | .absent => by rw [Alternative.relabel]
  | .block body => by
      rw [Alternative.relabel, Alternative.eval, Alternative.eval, Block.eval_erase body]
  | .chained next => by
      rw [Alternative.relabel, Alternative.eval, Alternative.eval, Conditional.eval_erase next]

theorem Block.eval_erase : ∀ b : Block, (b.relabel Token.erase).eval.unplaced = b.eval.unplaced
  | .missing => by rw [Block.relabel]
  | .braces opening body closing empty => by
      rw [Block.relabel, Block.eval, Block.eval, Stmt.evalAll_erase .null body]

theorem Stmt.eval_erase : ∀ s : Stmt, (s.relabel Token.erase).eval.unplaced = s.eval.unplaced
  | .missing => by rw [Stmt.relabel]
  | .binding keyword nameToken word value => by
      rw [Stmt.relabel, Stmt.eval, Stmt.eval]
      exact Evaluation.andThen_congr (Expr.eval_erase value) fun _ => rfl
  | .returning keyword value => by
      rw [Stmt.relabel]
      exact Stmt.returning_congr Expr.relabel_eq_missing (Expr.eval_erase value)
  | .block body => by rw [Stmt.relabel, Stmt.eval, Stmt.eval, Block.eval_erase body]
  | .expr value => by rw [Stmt.relabel, Stmt.eval, Stmt.eval, Expr.eval_erase value]

theorem Stmt.evalAll_erase : ∀ (last : Value) (ss : List Stmt),
    (Stmt.evalAll last (Stmt.relabelAll Token.erase ss)).unplaced = (Stmt.evalAll last ss).unplaced
  | last, [] => by rw [Stmt.relabelAll]
  | last, s :: ss => by
      rw [Stmt.relabelAll, Stmt.evalAll, Stmt.evalAll]
      exact Evaluation.andThen_congr (Stmt.eval_erase s) fun v => Stmt.evalAll_erase v ss

end

/-! ## Folding signs -/

/-- A number with a minus in it is what the minus makes of the number. -/
theorem Expr.eval_negatedBy {op : Token} (hop : op.kind = .minus) (e : Expr) :
    (e.negatedBy op).eval.unplaced = (Expr.unary op e).eval.unplaced := by
  cases e
  case integer token n =>
    simp [Expr.negatedBy, Expr.eval, Evaluation.andThen, Evaluation.value, Value.isPlain,
      Operator.unary, hop]
  case float token x =>
    simp [Expr.negatedBy, Expr.eval, Evaluation.andThen, Evaluation.value, Value.isPlain,
      Operator.unary, hop]
  case call callee opening args closing =>
    rw [Expr.negatedBy, Expr.eval, Expr.eval, Expr.eval, Evaluation.andThen_of_error rfl]
    exact Evaluation.unsupported_congr rfl
  all_goals rfl

theorem Expr.foldSigns_eq_missing {e : Expr} : e.foldSigns = .missing ↔ e = .missing := by
  cases e
  case unary op right =>
    simp only [Expr.foldSigns, reduceCtorEq, iff_false]
    split
    · cases right.foldSigns <;> simp [Expr.negatedBy]
    · simp
  all_goals simp [Expr.foldSigns]

mutual

theorem Expr.eval_foldSigns : ∀ e : Expr, e.foldSigns.eval.unplaced = e.eval.unplaced
  | .unary op right => by
      have hright : (Expr.unary op right.foldSigns).eval.unplaced
          = (Expr.unary op right).eval.unplaced :=
        Expr.unary_congr rfl rfl (Expr.eval_foldSigns right)
      rw [Expr.foldSigns]
      split
      · rename_i hfold
        have hop : op.kind = .minus := by simpa using ((Bool.and_eq_true _ _).mp hfold).1
        exact (Expr.eval_negatedBy hop _).trans hright
      · exact hright
  | .binary left op right => by
      rw [Expr.foldSigns]
      exact Expr.binary_congr rfl rfl (Expr.eval_foldSigns left) (Expr.eval_foldSigns right)
  | .conditional choice => by
      rw [Expr.foldSigns, Expr.eval, Expr.eval, Conditional.eval_foldSigns choice]
  | .call callee opening args closing => by
      rw [Expr.foldSigns, Expr.eval, Expr.eval]
      exact Evaluation.unsupported_congr rfl
  | .missing => by simp only [Expr.foldSigns]
  | .name _ _ => by simp only [Expr.foldSigns]
  | .integer _ _ => by simp only [Expr.foldSigns]
  | .float _ _ => by simp only [Expr.foldSigns]
  | .boolean _ _ => by simp only [Expr.foldSigns]
  | .string _ _ => by simp only [Expr.foldSigns]

theorem Conditional.eval_foldSigns : ∀ c : Conditional, c.foldSigns.eval.unplaced = c.eval.unplaced
  | .mk keyword condition .missing otherwise => by
      rw [Conditional.foldSigns, Block.foldSigns, Conditional.eval, Conditional.eval]
      exact Evaluation.unsupported_congr rfl
  | .mk keyword condition (.braces opening body closing empty) otherwise => by
      rw [Conditional.foldSigns, Block.foldSigns]
      exact Conditional.eval_congr (Expr.eval_foldSigns condition)
        (Stmt.evalAll_foldSigns .null body) (Alternative.eval_foldSigns otherwise)

theorem Alternative.eval_foldSigns : ∀ a : Alternative, a.foldSigns.eval.unplaced = a.eval.unplaced
  | .absent => by rw [Alternative.foldSigns]
  | .block body => by
      rw [Alternative.foldSigns, Alternative.eval, Alternative.eval, Block.eval_foldSigns body]
  | .chained next => by
      rw [Alternative.foldSigns, Alternative.eval, Alternative.eval,
        Conditional.eval_foldSigns next]

theorem Block.eval_foldSigns : ∀ b : Block, b.foldSigns.eval.unplaced = b.eval.unplaced
  | .missing => by rw [Block.foldSigns]
  | .braces opening body closing empty => by
      rw [Block.foldSigns, Block.eval, Block.eval, Stmt.evalAll_foldSigns .null body]

theorem Stmt.eval_foldSigns : ∀ s : Stmt, s.foldSigns.eval.unplaced = s.eval.unplaced
  | .missing => by rw [Stmt.foldSigns]
  | .binding keyword nameToken word value => by
      rw [Stmt.foldSigns, Stmt.eval, Stmt.eval]
      exact Evaluation.andThen_congr (Expr.eval_foldSigns value) fun _ => rfl
  | .returning keyword value => by
      rw [Stmt.foldSigns]
      exact Stmt.returning_congr Expr.foldSigns_eq_missing (Expr.eval_foldSigns value)
  | .block body => by rw [Stmt.foldSigns, Stmt.eval, Stmt.eval, Block.eval_foldSigns body]
  | .expr value => by rw [Stmt.foldSigns, Stmt.eval, Stmt.eval, Expr.eval_foldSigns value]

theorem Stmt.evalAll_foldSigns : ∀ (last : Value) (ss : List Stmt),
    (Stmt.evalAll last (Stmt.foldSignsAll ss)).unplaced = (Stmt.evalAll last ss).unplaced
  | last, [] => by rw [Stmt.foldSignsAll]
  | last, s :: ss => by
      rw [Stmt.foldSignsAll, Stmt.evalAll, Stmt.evalAll]
      exact Evaluation.andThen_congr (Stmt.eval_foldSigns s) fun v => Stmt.evalAll_foldSigns v ss

end

/-! ## Runs -/

def Run.unplaced (r : Run) : Option Value × List Binding × Option (List Cause ⊕ Interruption) :=
  (r.value, r.binds, (r.stop.map Failure.ofStop).map Failure.cause)

/-- A step of a run depends on what its statement evaluates to, up to causes. -/
theorem Program.runFrom_map {g : Stmt → Stmt} (hg : ∀ s, (g s).eval.unplaced = s.eval.unplaced)
    (watch : Watch) (bound : Nat) (last : Value) (p : Program) :
    (Program.runFrom watch bound last (p.map g)).unplaced
      = (Program.runFrom watch bound last p).unplaced := by
  induction p generalizing bound last with
  | nil => rfl
  | cons s ss ih =>
      rw [List.map_cons, Program.runFrom, Program.runFrom]
      cases watch.check bound with
      | some why => rfl
      | none =>
          obtain ⟨hbinds, ⟨v, hgs, hs⟩ | ⟨d, e, hgs, hs, hcause⟩⟩ :=
            Evaluation.unplaced_eq_iff.mp (hg s)
          · have hrest := ih (bound + s.eval.binds.length) v
            simp only [Run.unplaced, Prod.mk.injEq] at hrest
            simp only [hgs, hs, hbinds]
            split
            · simp only [Run.unplaced, hrest]
            · rfl
          · simp only [hgs, hs, hbinds, Run.unplaced, Option.map_some, Failure.ofStop,
              Failure.cause, List.map_cons, List.map_nil, hcause]

theorem Stmt.relabelAll_eq_map (f : Token → Token) (ss : List Stmt) :
    Stmt.relabelAll f ss = ss.map (Stmt.relabel f) := by
  induction ss with
  | nil => rw [Stmt.relabelAll, List.map_nil]
  | cons s ss ih => rw [Stmt.relabelAll, List.map_cons, ih]

theorem Stmt.foldSignsAll_eq_map (ss : List Stmt) :
    Stmt.foldSignsAll ss = ss.map Stmt.foldSigns := by
  induction ss with
  | nil => rw [Stmt.foldSignsAll, List.map_nil]
  | cons s ss ih => rw [Stmt.foldSignsAll, List.map_cons, ih]

theorem Program.run_erase (watch : Watch) (p : Program) :
    ((p.relabel Token.erase).run watch).unplaced = (p.run watch).unplaced := by
  rw [Program.relabel, Stmt.relabelAll_eq_map]
  exact Program.runFrom_map Stmt.eval_erase watch 0 .null p

theorem Program.run_foldSigns (watch : Watch) (p : Program) :
    (p.foldSigns.run watch).unplaced = (p.run watch).unplaced := by
  rw [Program.foldSigns, Stmt.foldSignsAll_eq_map]
  exact Program.runFrom_map Stmt.eval_foldSigns watch 0 .null p

end Scriptlet
