import Scriptlet.Proofs.Eval.Cause
import Scriptlet.Proofs.Parse.Phrase

/-!
# Trees with all their parts

`Expr.nodes` and its siblings list a tree and all trees in it, and
`Node.HasParts` says of one node that nothing about it is amiss. A missing tree
is listed too, as a node without parts; only the value of a bare `return` is
not, since it is in order that it is missing.

A node whose nodes all have their parts is evaluated to a value, or fails in
an operation, at a name or at a call (`Ordinary`, `Stmt.eval_ordinary`).
-/

namespace Scriptlet

/-! ## The nodes of a tree -/

mutual

def Expr.nodes : Expr → List Node
  | .unary op right => .expr (.unary op right) :: right.nodes
  | .binary left op right => .expr (.binary left op right) :: (left.nodes ++ right.nodes)
  | .conditional choice => choice.nodes
  | .call callee opening args closing =>
      .expr (.call callee opening args closing) :: (callee.nodes ++ Expr.nodesAll args)
  | e => [.expr e]

def Expr.nodesAll : List Expr → List Node
  | [] => []
  | e :: es => e.nodes ++ Expr.nodesAll es

def Conditional.nodes : Conditional → List Node
  | .mk keyword condition body otherwise =>
      .expr (.conditional (.mk keyword condition body otherwise)) ::
        (condition.nodes ++ body.nodes ++ otherwise.nodes)

def Alternative.nodes : Alternative → List Node
  | .absent => []
  | .block body => body.nodes
  | .chained next => next.nodes

def Block.nodes : Block → List Node
  | .missing => [.stmt (.block .missing)]
  | .braces opening body closing empty =>
      .stmt (.block (.braces opening body closing empty)) :: Stmt.nodesAll body

def Stmt.nodes : Stmt → List Node
  | .missing => [.stmt .missing]
  | .binding keyword nameToken word value =>
      .stmt (.binding keyword nameToken word value) :: value.nodes
  | .returning keyword .missing => [.stmt (.returning keyword .missing)]
  | .returning keyword value => .stmt (.returning keyword value) :: value.nodes
  | .block body => body.nodes
  | .expr value => .stmt (.expr value) :: value.nodes

def Stmt.nodesAll : List Stmt → List Node
  | [] => []
  | s :: ss => s.nodes ++ Stmt.nodesAll ss

end

def Node.nodes : Node → List Node
  | .expr value => value.nodes
  | .stmt body => body.nodes

def Program.nodes (p : Program) : List Node := Stmt.nodesAll p

theorem Stmt.nodes_returning {keyword : Token} {value : Expr} (h : value ≠ .missing) :
    (Stmt.returning keyword value).nodes = .stmt (.returning keyword value) :: value.nodes := by
  cases value <;> first | contradiction | rfl

/-- What a node is made of, apart from the nodes below it. -/
def Node.HasParts : Node → Prop
  | .expr .missing => False
  | .expr (.name token word) => token.kind = .ident ∧ word = token.lexeme
  | .expr (.integer token n) =>
      token.kind = .integer ∧ Number.readInt? (Parser.numeral token) = some n.toInt
  | .expr (.float token x) =>
      token.kind = .float ∧ Number.readFloat? (Parser.numeral token) = some x
  | .expr (.boolean token b) => token.kind.name = text (if b then "true" else "false")
  | .expr (.string token s) => token.kind = .string ∧ s = token.lexeme
  | .expr (.unary op _) => op.kind = .not ∨ op.kind = .minus
  | .expr (.binary _ op _) => ∃ level, op.kind ∈ Phrase.operatorsAt level
  | .expr (.conditional (.mk _ _ body _)) => body ≠ .missing
  | .expr (.call _ _ _ _) => True
  | .stmt .missing => False
  | .stmt (.binding _ nameToken word _) => nameToken.kind = .ident ∧ word = nameToken.lexeme
  | .stmt (.returning _ _) => True
  | .stmt (.block .missing) => False
  | .stmt (.block (.braces _ body _ empty)) => empty = true ↔ body = []
  | .stmt (.expr _) => True

/-- All of these nodes have their parts. -/
def Whole (ns : List Node) : Prop := ∀ n ∈ ns, n.HasParts

@[simp] theorem whole_nil : Whole [] := nofun

@[simp] theorem whole_cons {n : Node} {ns : List Node} :
    Whole (n :: ns) ↔ n.HasParts ∧ Whole ns := List.forall_mem_cons

@[simp] theorem whole_append {ns ms : List Node} :
    Whole (ns ++ ms) ↔ Whole ns ∧ Whole ms := List.forall_mem_append

/-! ## Nodes of nodes -/

/-- The nodes of a tree are closed under taking nodes. -/
def Downward (ns : List Node) : Prop := ∀ n ∈ ns, n.nodes ⊆ ns

theorem downward_nil : Downward [] := nofun

theorem Downward.append {ns ms : List Node} (hn : Downward ns) (hm : Downward ms) :
    Downward (ns ++ ms) := by
  intro n hmem
  rcases List.mem_append.mp hmem with h | h
  · exact List.Subset.trans (hn n h) (List.subset_append_left ns ms)
  · exact List.Subset.trans (hm n h) (List.subset_append_right ns ms)

/-- A node in front of the nodes of its parts. -/
theorem Downward.cons {n : Node} {ns : List Node} (h : Downward ns) (hn : n.nodes = n :: ns) :
    Downward (n :: ns) := by
  intro m hmem
  rcases List.mem_cons.mp hmem with rfl | hm
  · rw [hn]
    exact List.Subset.refl _
  · exact List.Subset.trans (h m hm) (List.subset_cons_self n ns)

theorem downward_leaf {n : Node} (hn : n.nodes = [n]) : Downward [n] := downward_nil.cons hn

mutual

theorem Expr.downward_nodes : ∀ e : Expr, Downward e.nodes
  | .missing | .name _ _ | .integer _ _ | .float _ _ | .boolean _ _ | .string _ _ =>
      downward_leaf rfl
  | .unary _ right => right.downward_nodes.cons rfl
  | .binary left _ right => (left.downward_nodes.append right.downward_nodes).cons rfl
  | .conditional choice => choice.downward_nodes
  | .call callee _ args _ =>
      (callee.downward_nodes.append (Expr.downward_nodesAll args)).cons rfl

theorem Expr.downward_nodesAll : ∀ es : List Expr, Downward (Expr.nodesAll es)
  | [] => downward_nil
  | e :: es => e.downward_nodes.append (Expr.downward_nodesAll es)

theorem Conditional.downward_nodes : ∀ c : Conditional, Downward c.nodes
  | .mk _ condition body otherwise =>
      ((condition.downward_nodes.append body.downward_nodes).append
        otherwise.downward_nodes).cons rfl

theorem Alternative.downward_nodes : ∀ a : Alternative, Downward a.nodes
  | .absent => downward_nil
  | .block body => body.downward_nodes
  | .chained next => next.downward_nodes

theorem Block.downward_nodes : ∀ b : Block, Downward b.nodes
  | .missing => downward_leaf rfl
  | .braces _ body _ _ => (Stmt.downward_nodesAll body).cons rfl

theorem Stmt.downward_nodes : ∀ s : Stmt, Downward s.nodes
  | .missing => downward_leaf rfl
  | .binding _ _ _ value => value.downward_nodes.cons rfl
  | .returning _ value => by
      by_cases h : value = .missing
      · subst h
        exact downward_leaf rfl
      · rw [Stmt.nodes_returning h]
        exact value.downward_nodes.cons (Stmt.nodes_returning h)
  | .block body => body.downward_nodes
  | .expr value => value.downward_nodes.cons rfl

theorem Stmt.downward_nodesAll : ∀ ss : List Stmt, Downward (Stmt.nodesAll ss)
  | [] => downward_nil
  | s :: ss => s.downward_nodes.append (Stmt.downward_nodesAll ss)

end

/-! ## Evaluation of whole trees -/

/-- How the evaluation of a tree with these nodes ends when no part is missing:
with a value, or because of an operation, a name or a call. -/
inductive Ordinary (ns : List Node) : Result → Prop where
  | value (v : Value) : Ordinary ns (.ok v)
  | typeMismatch (start : Position) (op : Text) (left : Option ValueKind) (right : ValueKind) :
      Ordinary ns (.error (.typeMismatch start op left right))
  | divisionByZero (start : Position) : Ordinary ns (.error (.divisionByZero start))
  | name {token : Token} {word : Text} : .expr (.name token word) ∈ ns →
      Ordinary ns (.error (.unsupported (some (.expr (.name token word)))))
  | call {callee : Expr} {opening closing : Token} {args : List Expr} :
      .expr (.call callee opening args closing) ∈ ns →
      Ordinary ns (.error (.unsupported (some (.expr (.call callee opening args closing)))))

namespace Ordinary

variable {ns ms : List Node}

theorem mono {r : Result} (h : Ordinary ns r) (hsub : ns ⊆ ms) : Ordinary ms r := by
  cases h with
  | value v => exact .value v
  | typeMismatch start op left right => exact .typeMismatch start op left right
  | divisionByZero start => exact .divisionByZero start
  | name hmem => exact .name (hsub hmem)
  | call hmem => exact .call (hsub hmem)

theorem left {r : Result} (h : Ordinary ns r) : Ordinary (ns ++ ms) r :=
  h.mono (List.subset_append_left ns ms)

theorem right {r : Result} (h : Ordinary ms r) : Ordinary (ns ++ ms) r :=
  h.mono (List.subset_append_right ns ms)

theorem below {n : Node} {r : Result} (h : Ordinary ns r) : Ordinary (n :: ns) r :=
  h.mono (List.subset_cons_self n ns)

theorem andThen {e : Evaluation} {f : Value → Evaluation} (he : Ordinary ns e.result)
    (hf : ∀ v, Ordinary ns (f v).result) : Ordinary ns (e.andThen f).result := by
  cases hr : e.result with
  | error err =>
      rw [Evaluation.andThen_of_error hr]
      exact he
  | ok v =>
      by_cases hv : v.isPlain = true
      · rw [Evaluation.andThen_of_plain hr hv]
        exact hf v
      · rw [Evaluation.andThen_of_wrapped hr (Bool.eq_false_iff.mpr hv)]
        exact he

theorem returning {e : Evaluation} (he : Ordinary ns e.result) :
    Ordinary ns e.returning.result := by
  obtain ⟨binds, result⟩ := e
  cases result with
  | error err => exact he
  | ok v => exact .value _

/-! ### Operators -/

theorem unary (op : Token) (v : Value) : Ordinary ns (Operator.unary op v) := by
  unfold Operator.unary
  split
  · exact .value _
  · exact .value _
  · exact .value _
  · exact .typeMismatch _ _ _ _

theorem mismatch (op : Token) (a b : Value) : Ordinary ns (.error (Operator.mismatch op a b)) :=
  .typeMismatch _ _ _ _

theorem integers (op : Token) (m n : Int64) : Ordinary ns (Operator.integers op m n) := by
  unfold Operator.integers
  split
  case h_4 =>
      split
      · exact .divisionByZero _
      · exact .value _
  case h_11 => exact mismatch _ _ _
  all_goals exact .value _

theorem binary (op : Token) (a b : Value) : Ordinary ns (Operator.binary op a b) := by
  unfold Operator.binary
  split
  · exact .value _
  · exact .value _
  · unfold Operator.numbers
    split
    · exact integers op _ _
    · split
      · split
        · exact .value _
        · exact mismatch op _ _
      · exact mismatch op _ _

end Ordinary

mutual

theorem Expr.eval_ordinary : ∀ e : Expr, Whole e.nodes → Ordinary e.nodes e.eval.result
  | .missing, h => (h _ (List.mem_singleton.mpr rfl)).elim
  | .name _ _, _ => .name (List.mem_singleton.mpr rfl)
  | .integer _ _, _ | .float _ _, _ | .boolean _ _, _ | .string _ _, _ => .value _
  | .unary op right, h => by
      have hr := right.eval_ordinary (whole_cons.mp h).2
      exact (hr.andThen fun v => .unary op v).below
  | .binary left op right, h => by
      obtain ⟨hl, hr⟩ := whole_append.mp (whole_cons.mp h).2
      have hleft := left.eval_ordinary hl
      have hright := right.eval_ordinary hr
      refine (hleft.left.andThen fun a => ?_).below
      split
      · exact .value _
      · split
        · exact .value _
        · refine hright.right.andThen fun b => ?_
          split
          · exact .value _
          · exact .binary op a b
  | .conditional choice, h => choice.eval_ordinary h
  | .call _ _ _ _, _ => .call List.mem_cons_self

theorem Conditional.eval_ordinary :
    ∀ c : Conditional, Whole c.nodes → Ordinary c.nodes c.eval.result
  | .mk _ _ .missing _, h => absurd rfl (whole_cons.mp h).1
  | .mk _ condition (.braces _ _ _ _) otherwise, h => by
      obtain ⟨hcb, ho⟩ := whole_append.mp (whole_cons.mp h).2
      obtain ⟨hc, hb⟩ := whole_append.mp hcb
      have hbody := Block.eval_ordinary _ hb
      refine ((condition.eval_ordinary hc).left.left.andThen fun v => ?_).below
      split
      · exact hbody.right.left
      · exact (otherwise.eval_ordinary ho).right

theorem Alternative.eval_ordinary :
    ∀ a : Alternative, Whole a.nodes → Ordinary a.nodes a.eval.result
  | .absent, _ => .value _
  | .block body, h => body.eval_ordinary h
  | .chained next, h => next.eval_ordinary h

theorem Block.eval_ordinary : ∀ b : Block, Whole b.nodes → Ordinary b.nodes b.eval.result
  | .missing, h => (h _ (List.mem_singleton.mpr rfl)).elim
  | .braces _ body _ _, h => (Stmt.evalAll_ordinary .null body (whole_cons.mp h).2).below

theorem Stmt.eval_ordinary : ∀ s : Stmt, Whole s.nodes → Ordinary s.nodes s.eval.result
  | .missing, h => (h _ (List.mem_singleton.mpr rfl)).elim
  | .binding _ _ _ value, h =>
      ((value.eval_ordinary (whole_cons.mp h).2).andThen fun _ => .value _).below
  | .returning _ value, h => by
      by_cases hm : value = .missing
      · subst hm
        exact .value _
      · rw [Stmt.nodes_returning hm] at h ⊢
        rw [Stmt.eval_returning hm]
        exact (value.eval_ordinary (whole_cons.mp h).2).returning.below
  | .block body, h => body.eval_ordinary h
  | .expr value, h => (value.eval_ordinary (whole_cons.mp h).2).below

theorem Stmt.evalAll_ordinary : ∀ (last : Value) (ss : List Stmt), Whole (Stmt.nodesAll ss) →
    Ordinary (Stmt.nodesAll ss) (Stmt.evalAll last ss).result
  | last, [], _ => .value last
  | _, s :: ss, h => by
      obtain ⟨hs, hss⟩ := whole_append.mp h
      exact (s.eval_ordinary hs).left.andThen fun v => (Stmt.evalAll_ordinary v ss hss).right

end

end Scriptlet
