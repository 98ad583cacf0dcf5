import Scriptlet.Proofs.Script.Canonical
import Scriptlet.Proofs.Tree.Whole

/-!
# Parsed trees have all their parts

A parser that breaks off gives no tree, and one that is done, with whatever
errors on its way, gives a tree whose nodes have all their parts. So what is
left of a program next to its errors is whole as well.

`Outcome.Gives P o` says that the tree of an outcome satisfies `P`, if there is
one. One lemma per parser shows that its trees are whole when those of the
parsers it calls are; `wholeWithin` closes the circle by induction on the steps.
-/

namespace Scriptlet

/-- If there is a tree, it satisfies `P`. -/
def Outcome.Gives {α : Type} (P : α → Prop) : Outcome α → Prop
  | .done a _ _ => P a
  | .broken _ _ => True
  | .exhausted => True

@[simp] theorem Outcome.gives_after {α : Type} {P : α → Prop} {errors : List ParseError}
    {o : Outcome α} : (o.after errors).Gives P ↔ o.Gives P := by
  cases o <;> rfl

/-- An operator that is no parenthesis stands on one of the binary levels. -/
theorem Phrase.exists_mem_operatorsAt {k : Kind} (h : 0 < k.strength) (hk : k ≠ .openParen) :
    ∃ level, k ∈ operatorsAt level := by
  refine ⟨k.strength - 1, mem_operatorsAt.mpr ⟨?_, by omega⟩⟩
  cases k <;> first | decide | contradiction

/-- A number read as a 64-bit integer is the number that is spelled. -/
theorem Number.readInt?_of_readInt64? {s : Text} {n : Int64} (h : readInt64? s = some n) :
    readInt? s = some n.toInt := by
  obtain ⟨i, hi, hn⟩ := Option.bind_eq_some_iff.mp h
  split at hn
  · rename_i hfits
    obtain ⟨hlow, hhigh⟩ : Int64.minValue.toInt ≤ i ∧ i ≤ Int64.maxValue.toInt := by
      simpa [fitsInt64] using hfits
    have hmin : Int64.minValue.toInt = -9223372036854775808 := by decide
    have hmax : Int64.maxValue.toInt = 9223372036854775807 := by decide
    have hsame : (Int64.ofInt i).toInt = i := Int64.toInt_ofInt_of_le (by omega) (by omega)
    rw [hi, ← Option.some.inj hn, hsame]
  · cases hn

namespace Parser

variable {α β : Type} {n : Nat} {c : Cursor}

theorem gives_bind {P : α → Prop} {Q : β → Prop} {p : Parser α} {f : α → Parser β}
    (hp : (p c).Gives P) (hf : ∀ a rest, P a → (f a rest).Gives Q) : ((p >>= f) c).Gives Q := by
  rw [bind_apply]
  cases h : p c with
  | done a rest errors =>
      rw [h] at hp
      exact Outcome.gives_after.mpr (hf a rest hp)
  | broken rest errors => trivial
  | exhausted => trivial

theorem gives_any (o : Outcome α) : o.Gives fun _ => True := by
  cases o <;> trivial

theorem gives_expect (k : Kind) (c : Cursor) : (expect k c).Gives fun t => t.kind = k := by
  by_cases h : c.kind = k
  · rw [expect_of_kind h]
    exact h
  · rw [expect_of_ne h]
    trivial

/-- A token that is required adds nothing to a tree. -/
theorem gives_expect_bind {k : Kind} {Q : β → Prop} {f : Token → Parser β}
    (hf : ∀ t rest, t.kind = k → (f t rest).Gives Q) : ((expect k >>= f) c).Gives Q :=
  gives_bind (gives_expect k c) hf

theorem gives_integer (hk : c.kind = .integer) : (integer c).Gives fun e => Whole e.nodes := by
  unfold integer
  split
  · rename_i n hn
    exact whole_cons.mpr ⟨⟨hk, Number.readInt?_of_readInt64? hn⟩, whole_nil⟩
  · trivial

theorem gives_float (hk : c.kind = .float) : (float c).Gives fun e => Whole e.nodes := by
  unfold float
  split
  · rename_i x hx
    exact whole_cons.mpr ⟨⟨hk, hx⟩, whole_nil⟩
  · trivial

/-- Within `n` steps all parsers give whole trees. -/
structure WholeWithin (n : Nat) : Prop where
  expression : ∀ s c, (expression n s c).Gives fun e => Whole e.nodes
  operators : ∀ s left c, Whole left.nodes →
    (operators n s left c).Gives fun e => Whole e.nodes
  arguments : ∀ c, (arguments n c).Gives fun es => Whole (Expr.nodesAll es)
  operand : ∀ c, (operand n c).Gives fun e => Whole e.nodes
  conditional : ∀ c, (conditional n c).Gives fun choice => Whole choice.nodes
  alternative : ∀ c, (alternative n c).Gives fun otherwise => Whole otherwise.nodes
  block : ∀ c, (block n c).Gives fun b => Whole b.nodes
  blockBody : ∀ c, (blockBody n c).Gives fun ss => Whole (Stmt.nodesAll ss)
  statement : ∀ c, (statement n c).Gives fun s => Whole s.nodes

section Steps

variable (ih : WholeWithin n)
include ih

theorem gives_operators_succ (s : Nat) (left : Expr) (c : Cursor) (h : Whole left.nodes) :
    (operators (n + 1) s left c).Gives fun e => Whole e.nodes := by
  rw [operators_succ]
  split
  · exact h
  · rename_i hs
    split
    · refine gives_bind (ih.arguments _) fun args rest hargs =>
        gives_expect_bind fun t rest' _ => ?_
      exact ih.operators _ _ _ (whole_cons.mpr ⟨trivial, whole_append.mpr ⟨h, hargs⟩⟩)
    · rename_i hk
      refine gives_bind (ih.expression _ _) fun right rest hright => ?_
      have hop := Phrase.exists_mem_operatorsAt (by omega) hk
      exact ih.operators _ _ _ (whole_cons.mpr ⟨hop, whole_append.mpr ⟨h, hright⟩⟩)

theorem gives_arguments_succ (c : Cursor) :
    (arguments (n + 1) c).Gives fun es => Whole (Expr.nodesAll es) := by
  rw [arguments_succ]
  split
  · exact whole_nil
  · refine gives_bind (ih.expression 0 c) fun e rest he => ?_
    rw [kind_bind, ite_apply]
    split
    · rw [advance_bind]
      exact gives_bind (ih.arguments _) fun es rest' hes => whole_append.mpr ⟨he, hes⟩
    · exact whole_append.mpr ⟨he, whole_nil⟩

theorem gives_operand_succ (c : Cursor) :
    (operand (n + 1) c).Gives fun e => Whole e.nodes := by
  have leaf : ∀ {e : Expr}, e.nodes = [.expr e] → (Node.expr e).HasParts → Whole e.nodes := by
    intro e he hparts
    rw [he]
    exact whole_cons.mpr ⟨hparts, whole_nil⟩
  have unary : ∀ op : Token, op.kind = .not ∨ op.kind = .minus →
      ((expression n unaryStrength >>= fun right => pure (Expr.unary op right)) c.next).Gives
        fun e => Whole e.nodes := fun op hop =>
    gives_bind (ih.expression _ _) fun right rest hright => whole_cons.mpr ⟨hop, hright⟩
  rw [operand_succ]
  cases hk : c.kind
  case ident => exact leaf rfl ⟨hk, rfl⟩
  case integer => exact gives_integer hk
  case float => exact gives_float hk
  case string => exact leaf rfl ⟨hk, rfl⟩
  case true_ => exact leaf rfl (congrArg Kind.name hk)
  case false_ => exact leaf rfl (congrArg Kind.name hk)
  case openParen =>
      exact gives_bind (ih.expression _ _) fun e rest he => gives_expect_bind fun _ _ _ => he
  case not => exact unary _ (Or.inl hk)
  case minus => exact unary _ (Or.inr hk)
  case if_ => exact gives_bind (ih.conditional _) fun choice rest hchoice => hchoice
  all_goals trivial

theorem gives_conditional_succ (c : Cursor) :
    (conditional (n + 1) c).Gives fun choice => Whole choice.nodes := by
  rw [conditional_succ]
  refine gives_expect_bind fun _ _ _ => gives_bind (ih.expression _ _) fun condition _ hc => ?_
  refine gives_expect_bind fun _ _ _ => gives_bind (ih.block _) fun body _ hb => ?_
  refine gives_bind (ih.alternative _) fun otherwise _ ho => ?_
  refine whole_cons.mpr ⟨?_, whole_append.mpr ⟨whole_append.mpr ⟨hc, hb⟩, ho⟩⟩
  rintro rfl
  exact (whole_cons.mp hb).1

theorem gives_alternative_succ (c : Cursor) :
    (alternative (n + 1) c).Gives fun otherwise => Whole otherwise.nodes := by
  rw [alternative_succ]
  split
  · split
    · exact gives_bind (ih.conditional _) fun _ _ hnext => hnext
    · exact gives_bind (ih.block _) fun _ _ hbody => hbody
  · exact whole_nil

theorem gives_block_succ (c : Cursor) : (block (n + 1) c).Gives fun b => Whole b.nodes := by
  rw [block_succ]
  refine gives_expect_bind fun _ _ _ => gives_bind (ih.blockBody _) fun body _ hbody => ?_
  exact gives_expect_bind fun _ _ _ => whole_cons.mpr ⟨List.isEmpty_iff, hbody⟩

/-- An expression up to the end of its statement. -/
theorem gives_closing {finish : Expr → Stmt} (c : Cursor)
    (hfinish : ∀ e, Whole e.nodes → Whole (finish e).nodes) :
    ((expression n 0 >>= fun e => endOfStatement >>= fun _ => pure (finish e)) c).Gives
      fun s => Whole s.nodes :=
  gives_bind (ih.expression 0 c) fun e rest he =>
    gives_bind (gives_any (endOfStatement rest)) fun _ _ _ => hfinish e he

theorem gives_statement_succ (c : Cursor) :
    (statement (n + 1) c).Gives fun s => Whole s.nodes := by
  have plain :
      ((expression n 0 >>= fun e => endOfStatement >>= fun _ => pure (Stmt.expr e)) c).Gives
        fun s => Whole s.nodes := gives_closing ih c fun e he => whole_cons.mpr ⟨trivial, he⟩
  rw [statement_succ]
  cases hk : c.kind
  case let_ =>
      refine gives_expect_bind fun name _ hname => gives_expect_bind fun _ rest _ => ?_
      exact gives_closing ih rest fun e he => whole_cons.mpr ⟨⟨hname, rfl⟩, he⟩
  case return_ =>
      dsimp only
      split
      · exact gives_bind (gives_any _) fun _ _ _ => whole_cons.mpr ⟨trivial, whole_nil⟩
      · refine gives_closing ih c.next fun e he => ?_
        -- a value that was read is not missing, so it is listed
        have hvalue : e ≠ .missing := by
          rintro rfl
          exact (whole_cons.mp he).1
        rw [Stmt.nodes_returning hvalue]
        exact whole_cons.mpr ⟨trivial, he⟩
  case openBrace => exact gives_bind (ih.block c) fun _ _ hbody => hbody
  case if_ =>
      refine gives_bind (ih.conditional c) fun choice rest hchoice => ?_
      exact gives_bind (gives_any _) fun _ _ _ => whole_cons.mpr ⟨trivial, hchoice⟩
  all_goals exact plain

end Steps

/-- Statements after one that is done or broken off. -/
theorem gives_followedBy {o : Outcome Stmt} {more : Parser (List Stmt)} (resume : Cursor → Cursor)
    (ho : o.Gives fun s => Whole s.nodes)
    (hmore : ∀ c, (more c).Gives fun ss => Whole (Stmt.nodesAll ss)) :
    (followedBy o more resume).Gives fun ss => Whole (Stmt.nodesAll ss) := by
  cases o with
  | done s rest errors =>
      refine Outcome.gives_after.mpr (gives_bind (hmore rest) fun ss _ hss => ?_)
      exact whole_append.mpr ⟨ho, hss⟩
  | broken rest errors => exact Outcome.gives_after.mpr (hmore _)
  | exhausted => trivial

theorem gives_blockBody_succ (ih : WholeWithin n) (c : Cursor) :
    (blockBody (n + 1) c).Gives fun ss => Whole (Stmt.nodesAll ss) := by
  rw [blockBody_succ]
  split
  · exact whole_nil
  · split
    · exact ih.blockBody _
    · exact gives_followedBy _ (ih.statement c) ih.blockBody

theorem wholeWithin_zero : WholeWithin 0 where
  expression _ _ := by rw [expression]; trivial
  operators _ _ _ _ := by rw [operators]; trivial
  arguments _ := by rw [arguments]; trivial
  operand _ := by rw [operand]; trivial
  conditional _ := by rw [conditional]; trivial
  alternative _ := by rw [alternative]; trivial
  block _ := by rw [block]; trivial
  blockBody _ := by rw [blockBody]; trivial
  statement _ := by rw [statement]; trivial

theorem wholeWithin : ∀ n, WholeWithin n
  | 0 => wholeWithin_zero
  | n + 1 =>
      have ih := wholeWithin n
      { expression := fun s c => by
          rw [expression_succ]
          exact gives_bind (ih.operand c) fun left rest hleft => ih.operators s left rest hleft
        operators := gives_operators_succ ih
        arguments := gives_arguments_succ ih
        operand := gives_operand_succ ih
        conditional := gives_conditional_succ ih
        alternative := gives_alternative_succ ih
        block := gives_block_succ ih
        blockBody := gives_blockBody_succ ih
        statement := gives_statement_succ ih }

/-- Whatever breaks off, the statements that are left are whole. -/
theorem gives_statements : ∀ n c,
    (statements n c).Gives fun ss => Whole (Stmt.nodesAll ss)
  | 0, _ => trivial
  | n + 1, c => by
      rw [statements_succ]
      split
      · exact whole_nil
      · split
        · exact gives_statements n _
        · split
          · exact Outcome.gives_after.mpr (gives_statements n _)
          · exact gives_followedBy _ ((wholeWithin n).statement c) (gives_statements n)

end Parser

/-! ## Programs -/

theorem parse_whole (tokens : List Token) : Whole (parse tokens).program.nodes := by
  have hgives := Parser.gives_statements (Cursor.ofTokens tokens).budget (Cursor.ofTokens tokens)
  rw [parse, parseWithin]
  cases hrun : Parser.statements (Cursor.ofTokens tokens).budget (Cursor.ofTokens tokens) with
  | done p rest errors =>
      rw [hrun] at hgives
      exact hgives
  | broken rest errors => exact whole_nil
  | exhausted => exact whole_nil

/-- A statement anywhere in a whole program ends in an ordinary way. -/
theorem Program.eval_ordinary {p : Program} (h : Whole p.nodes) {s : Stmt}
    (hs : .stmt s ∈ p.nodes) : Ordinary s.nodes s.eval.result :=
  s.eval_ordinary fun n hn => h n (Stmt.downward_nodesAll p _ hs hn)

end Scriptlet
