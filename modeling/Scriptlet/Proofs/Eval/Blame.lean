import Scriptlet.Proofs.Eval.Cause
import Scriptlet.Proofs.Tree.Placement

/-!
# The node an error comes from

Every error of an evaluation is raised by one node of the tree. A node raises an
error of its own (`Node.Raises`), at its operator or for the kind of tree it is, or
it passes on the error of a node directly below it (`Node.raises_or_child`). So by
induction on the tree there is a node in it that raises the error
(`Node.exists_raises`), and an error that ends a run is raised in a statement of the
program (`Program.exists_raises`).
-/

namespace Scriptlet

/-- The errors that a node does not get from the nodes below it. -/
inductive Node.Raises : Node → RuntimeError → Prop where
  | unary (op : Token) (right : Expr) (operand : ValueKind) :
      Raises (.expr (.unary op right)) (.typeMismatch op.start op.lexeme none operand)
  | binary (left : Expr) (op : Token) (right : Expr) (first second : ValueKind) :
      Raises (.expr (.binary left op right))
        (.typeMismatch op.start op.lexeme (some first) second)
  | division (left : Expr) {op : Token} (right : Expr) : op.kind = .slash →
      Raises (.expr (.binary left op right)) (.divisionByZero op.start)
  | name (token : Token) (word : Text) :
      Raises (.expr (.name token word)) (.unsupported (some (.expr (.name token word))))
  | call (callee : Expr) (opening : Token) (args : List Expr) (closing : Token) :
      Raises (.expr (.call callee opening args closing))
        (.unsupported (some (.expr (.call callee opening args closing))))
  | bodiless (keyword : Token) (condition : Expr) (otherwise : Alternative) :
      Raises (.expr (.conditional (.mk keyword condition .missing otherwise)))
        (.unsupported (some (.expr (.conditional (.mk keyword condition .missing otherwise)))))
  | absent {n : Node} : n.span? = none → Raises n (.unsupported none)

/-! ## One node -/

theorem Evaluation.error_of_andThen {e : Evaluation} {f : Value → Evaluation} {err : RuntimeError}
    (h : (e.andThen f).result = .error err) :
    e.result = .error err ∨ ∃ v, (f v).result = .error err := by
  cases hr : e.result with
  | error d =>
      rw [andThen_of_error hr, hr] at h
      exact Or.inl h
  | ok v =>
      by_cases hv : v.isPlain = true
      · rw [andThen_of_plain hr hv] at h
        exact Or.inr ⟨v, h⟩
      · rw [andThen_of_wrapped hr (Bool.eq_false_iff.mpr hv), hr] at h
        cases h

theorem Evaluation.error_of_returning {e : Evaluation} {err : RuntimeError}
    (h : e.returning.result = .error err) : e.result = .error err := by
  obtain ⟨binds, result⟩ := e
  cases result with
  | error d => exact h
  | ok v => cases h

namespace Operator

variable {op : Token} {err : RuntimeError}

theorem error_of_unary {v : Value} (h : unary op v = .error err) :
    err = .typeMismatch op.start op.lexeme none v.kind := by
  unfold unary at h
  split at h <;> cases h
  rfl

theorem error_of_integers {m n : Int64} (h : integers op m n = .error err) :
    err = mismatch op (.integer m) (.integer n) ∨
      op.kind = .slash ∧ err = .divisionByZero op.start := by
  unfold integers at h
  split at h
  case h_4 hk =>
      split at h <;> cases h
      exact Or.inr ⟨hk, rfl⟩
  case h_11 =>
      cases h
      exact Or.inl rfl
  all_goals cases h

theorem error_of_binary {a b : Value} (h : binary op a b = .error err) :
    err = mismatch op a b ∨ op.kind = .slash ∧ err = .divisionByZero op.start := by
  unfold binary at h
  split at h
  · cases h
  · cases h
  · unfold numbers at h
    split at h
    · exact error_of_integers h
    · split at h
      · split at h <;> cases h
        exact Or.inl rfl
      · cases h
        exact Or.inl rfl

end Operator

theorem Stmt.error_of_evalAll {err : RuntimeError} {ss : List Stmt} {last : Value}
    (h : (Stmt.evalAll last ss).result = .error err) : ∃ s ∈ ss, s.eval.result = .error err := by
  induction ss generalizing last with
  | nil =>
      rw [Stmt.evalAll] at h
      cases h
  | cons s ss ih =>
      rw [Stmt.evalAll] at h
      rcases Evaluation.error_of_andThen h with hs | ⟨v, hss⟩
      · exact ⟨s, List.mem_cons_self, hs⟩
      · obtain ⟨s', hmem, hs'⟩ := ih hss
        exact ⟨s', List.mem_cons_of_mem _ hmem, hs'⟩

theorem Expr.raises_or_child {e : Expr} {err : RuntimeError} (h : e.eval.result = .error err) :
    (Node.expr e).Raises err ∨ ∃ m ∈ (Node.expr e).children, m.eval.result = .error err := by
  cases e with
  | missing =>
      rw [Expr.eval] at h
      cases h
      exact Or.inl (.absent rfl)
  | name token word =>
      rw [Expr.eval] at h
      cases h
      exact Or.inl (.name token word)
  | integer | float | boolean | string =>
      rw [Expr.eval] at h
      cases h
  | unary op right =>
      rw [Expr.eval] at h
      rcases Evaluation.error_of_andThen h with hright | ⟨v, hop⟩
      · exact Or.inr ⟨.expr right, List.mem_cons_self, hright⟩
      · rw [Operator.error_of_unary hop]
        exact Or.inl (.unary op right v.kind)
  | binary left op right =>
      rw [Expr.eval] at h
      rcases Evaluation.error_of_andThen h with hleft | ⟨a, h⟩
      · exact Or.inr ⟨.expr left, List.mem_cons_self, hleft⟩
      · split at h
        · cases h
        · split at h
          · cases h
          · rcases Evaluation.error_of_andThen h with hright | ⟨b, h⟩
            · exact Or.inr ⟨.expr right, List.mem_cons_of_mem _ List.mem_cons_self, hright⟩
            · split at h
              · cases h
              · rcases Operator.error_of_binary h with rfl | ⟨hslash, rfl⟩
                · exact Or.inl (.binary left op right a.kind b.kind)
                · exact Or.inl (.division left right hslash)
  | conditional choice =>
      obtain ⟨keyword, condition, body, otherwise⟩ := choice
      rw [Expr.eval] at h
      cases body with
      | missing =>
          rw [Conditional.eval] at h
          cases h
          exact Or.inl (.bodiless keyword condition otherwise)
      | braces opening stmts closing empty =>
          rw [Conditional.eval] at h
          right
          rcases Evaluation.error_of_andThen h with hcondition | ⟨v, h⟩
          · exact ⟨.expr condition, List.mem_cons_self, hcondition⟩
          · split at h
            · refine ⟨_, List.mem_cons_of_mem _ List.mem_cons_self, ?_⟩
              rw [Node.eval, Stmt.eval]
              exact h
            · cases otherwise with
              | absent =>
                  rw [Alternative.eval] at h
                  cases h
              | block other =>
                  rw [Alternative.eval] at h
                  refine ⟨.stmt (.block other), by simp [Node.children, Alternative.children], ?_⟩
                  rw [Node.eval, Stmt.eval]
                  exact h
              | chained next =>
                  rw [Alternative.eval] at h
                  refine ⟨.expr (.conditional next),
                    by simp [Node.children, Alternative.children], ?_⟩
                  rw [Node.eval, Expr.eval]
                  exact h
  | call callee opening args closing =>
      rw [Expr.eval] at h
      cases h
      exact Or.inl (.call callee opening args closing)

theorem Stmt.raises_or_child {s : Stmt} {err : RuntimeError} (h : s.eval.result = .error err) :
    (Node.stmt s).Raises err ∨ ∃ m ∈ (Node.stmt s).children, m.eval.result = .error err := by
  cases s with
  | missing =>
      rw [Stmt.eval] at h
      cases h
      exact Or.inl (.absent rfl)
  | binding keyword nameToken word value =>
      rw [Stmt.eval] at h
      rcases Evaluation.error_of_andThen h with hvalue | ⟨v, h⟩
      · exact Or.inr ⟨.expr value, List.mem_cons_of_mem _ List.mem_cons_self, hvalue⟩
      · cases h
  | returning keyword value =>
      by_cases hm : value = .missing
      · subst hm
        rw [Stmt.eval] at h
        cases h
      · rw [Stmt.eval_returning hm] at h
        rw [Node.children_returning hm]
        exact Or.inr ⟨.expr value, List.mem_cons_self, Evaluation.error_of_returning h⟩
  | block body =>
      rw [Stmt.eval] at h
      cases body with
      | missing =>
          rw [Block.eval] at h
          cases h
          exact Or.inl (.absent rfl)
      | braces opening body closing empty =>
          rw [Block.eval] at h
          obtain ⟨s, hs, herr⟩ := Stmt.error_of_evalAll h
          exact Or.inr ⟨.stmt s, List.mem_map_of_mem hs, herr⟩
  | expr value =>
      rw [Stmt.eval] at h
      exact Or.inr ⟨.expr value, List.mem_cons_self, h⟩

namespace Node

variable {n m : Node} {err : RuntimeError}

theorem raises_or_child (h : n.eval.result = .error err) :
    n.Raises err ∨ ∃ m ∈ n.children, m.eval.result = .error err := by
  cases n with
  | expr e => exact Expr.raises_or_child h
  | stmt s => exact Stmt.raises_or_child h

/-! ## Trees -/

theorem sizeOf_child (h : m ∈ n.children) : sizeOf m < sizeOf n := by
  rcases n with e | s
  · cases e with
    | unary | binary =>
        simp only [children, List.mem_cons, List.not_mem_nil, or_false] at h
        rcases h with rfl | rfl <;>
          simp only [Node.expr.sizeOf_spec, Expr.unary.sizeOf_spec, Expr.binary.sizeOf_spec] <;>
          omega
    | conditional choice =>
        obtain ⟨keyword, condition, body, otherwise⟩ := choice
        cases otherwise <;>
          simp only [children, Alternative.children, List.mem_cons, List.not_mem_nil, or_false] at h
          <;> rcases h with rfl | rfl | rfl <;>
          simp only [Node.expr.sizeOf_spec, Node.stmt.sizeOf_spec, Expr.conditional.sizeOf_spec,
            Conditional.mk.sizeOf_spec, Stmt.block.sizeOf_spec, Alternative.absent.sizeOf_spec,
            Alternative.block.sizeOf_spec, Alternative.chained.sizeOf_spec] <;>
          omega
    | call callee opening args closing =>
        simp only [Node.expr.sizeOf_spec, Expr.call.sizeOf_spec]
        rcases List.mem_cons.mp h with rfl | h
        · rw [Node.expr.sizeOf_spec]
          omega
        · obtain ⟨e, he, rfl⟩ := List.mem_map.mp h
          have hlt := List.sizeOf_lt_of_mem he
          rw [Node.expr.sizeOf_spec]
          omega
    | _ => cases h
  · cases s with
    | missing => cases h
    | binding keyword nameToken word value =>
        have hpos : 0 < sizeOf keyword := by
          cases keyword
          rw [Token.mk.sizeOf_spec]
          omega
        simp only [children, List.mem_cons, List.not_mem_nil, or_false] at h
        rcases h with rfl | rfl <;>
          simp only [Node.expr.sizeOf_spec, Node.stmt.sizeOf_spec, Expr.name.sizeOf_spec,
            Stmt.binding.sizeOf_spec] <;>
          omega
    | returning keyword value =>
        by_cases hm : value = .missing
        · subst hm
          cases h
        · rw [children_returning hm, List.mem_singleton] at h
          rw [h, Node.expr.sizeOf_spec, Node.stmt.sizeOf_spec, Stmt.returning.sizeOf_spec]
          omega
    | block body =>
        cases body with
        | missing => cases h
        | braces opening body closing empty =>
            obtain ⟨s, hs, rfl⟩ := List.mem_map.mp h
            have hlt := List.sizeOf_lt_of_mem hs
            simp only [Node.stmt.sizeOf_spec, Stmt.block.sizeOf_spec, Block.braces.sizeOf_spec]
            omega
    | expr value =>
        obtain rfl := List.mem_singleton.mp h
        rw [Node.expr.sizeOf_spec, Node.stmt.sizeOf_spec, Stmt.expr.sizeOf_spec]
        omega

theorem exists_raises (n : Node) (h : n.eval.result = .error err) :
    ∃ m, n.Holds m ∧ m.Raises err := by
  rcases raises_or_child h with hn | ⟨m, hm, herr⟩
  · exact ⟨n, .self n, hn⟩
  · obtain ⟨k, hk, hraises⟩ := exists_raises m herr
    exact ⟨k, .child hm hk, hraises⟩
termination_by sizeOf n
decreasing_by exact sizeOf_child hm

end Node

/-! ## Runs -/

theorem Program.failed_runFrom {watch : Watch} {bound : Nat} {last : Value} {p : Program}
    {err : RuntimeError} (h : (Program.runFrom watch bound last p).stop = some (.failed err)) :
    ∃ s ∈ p, s.eval.result = .error err := by
  induction p generalizing bound last with
  | nil => cases h
  | cons s ss ih =>
      rw [Program.runFrom] at h
      split at h
      · cases h
      · dsimp only at h
        split at h
        · rename_i err' hs
          obtain rfl : err' = err := by simpa using h
          exact ⟨s, List.mem_cons_self, hs⟩
        · split at h
          · obtain ⟨s', hmem, hs'⟩ := ih h
            exact ⟨s', List.mem_cons_of_mem _ hmem, hs'⟩
          · cases h

theorem Program.exists_raises {watch : Watch} {p : Program} {err : RuntimeError}
    (h : (p.run watch).stop = some (.failed err)) :
    ∃ s ∈ p, ∃ n, (Node.stmt s).Holds n ∧ n.Raises err := by
  obtain ⟨s, hs, herr⟩ := Program.failed_runFrom h
  exact ⟨s, hs, (Node.stmt s).exists_raises herr⟩

end Scriptlet
