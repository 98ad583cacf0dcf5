import Scriptlet.Proofs.Parse.Budget
import Scriptlet.Proofs.Tree.Relabel

/-!
# The parser is blind to places

The parsers look at the kinds, the lexemes and the end marks of tokens and at
nothing else. So lists of tokens that two relabellings `f` and `g` make equal,
where these keep what the parsers look at (`Token.Alike`), are parsed to
programs and errors that `f` and `g` make equal (`parse_relabel`).

Two parsers match (`Matches`) when they take matching cursors to matching
outcomes. Sequencing keeps this (`Matches.bind`), so each parser needs one
line per branch, and `matched` is the induction on the steps.
-/

namespace Scriptlet

/-- Tokens that `f` and `g` make equal look the same to the parsers, also when
they are split. -/
structure Token.Alike (f g : Token → Token) : Prop where
  kind : ∀ {t u}, f t = g u → t.kind = u.kind
  lexeme : ∀ {t u}, f t = g u → t.lexeme = u.lexeme
  isEof : ∀ {t u}, f t = g u → t.isEof = u.isEof
  minusOf : ∀ {t u}, f t = g u → Cursor.isSignedNumber u = true →
    f (Cursor.minusOf t) = g (Cursor.minusOf u)
  unsignedOf : ∀ {t u}, f t = g u → Cursor.isSignedNumber u = true →
    f (Cursor.unsignedOf t) = g (Cursor.unsignedOf u)

def ParseError.relabel (f : Token → Token) (e : ParseError) : ParseError :=
  .blame (f e.got) e.complaint

/-- Tokens ahead that `f` and `g` make equal. -/
structure Cursor.Match (f g : Token → Token) (c d : Cursor) : Prop where
  current : f c.current = g d.current
  later : c.later.map f = d.later.map g

inductive Outcome.Match {α : Type} (f g : Token → Token) (R : α → α → Prop) :
    Outcome α → Outcome α → Prop where
  | done {a b : α} {c d : Cursor} {es es' : List ParseError} : R a b → Cursor.Match f g c d →
      es.map (ParseError.relabel f) = es'.map (ParseError.relabel g) →
      Match f g R (.done a c es) (.done b d es')
  | broken {c d : Cursor} {es es' : List ParseError} : Cursor.Match f g c d →
      es.map (ParseError.relabel f) = es'.map (ParseError.relabel g) →
      Match f g R (.broken c es) (.broken d es')
  | exhausted : Match f g R .exhausted .exhausted

theorem Outcome.Match.after {α : Type} {f g : Token → Token} {R : α → α → Prop}
    {o o' : Outcome α} {es es' : List ParseError} (h : Outcome.Match f g R o o')
    (hes : es.map (ParseError.relabel f) = es'.map (ParseError.relabel g)) :
    Outcome.Match f g R (o.after es) (o'.after es') := by
  cases h with
  | done hr hc herr =>
      exact .done hr hc (by rw [List.map_append, List.map_append, hes, herr])
  | broken hc herr => exact .broken hc (by rw [List.map_append, List.map_append, hes, herr])
  | exhausted => exact .exhausted

section

variable {f g : Token → Token} (hfg : Token.Alike f g) {c d : Cursor}

/-! ## Cursors -/

namespace Cursor

include hfg

theorem Match.kind (h : Cursor.Match f g c d) : c.kind = d.kind := hfg.kind h.current

theorem Match.atEnd (h : Cursor.Match f g c d) : c.atEnd = d.atEnd := hfg.isEof h.current

theorem Match.next (h : Cursor.Match f g c d) : Cursor.Match f g c.next d.next := by
  have hend : c.current.isEof = d.current.isEof := hfg.isEof h.current
  unfold Cursor.next
  rw [hend]
  split
  · exact h
  · have hlater := h.later
    cases hc : c.later with
    | nil =>
        rw [hc, List.map_nil] at hlater
        rw [List.map_eq_nil_iff.mp hlater.symm]
        exact h
    | cons t rest =>
        rw [hc, List.map_cons] at hlater
        obtain ⟨u, rest', hd, ht, hrest⟩ := List.map_eq_cons_iff.mp hlater.symm
        rw [hd]
        exact ⟨ht.symm, hrest.symm⟩

theorem Match.splitSigned (h : Cursor.Match f g c d) :
    Cursor.Match f g c.splitSigned d.splitSigned := by
  have hsigned : isSignedNumber c.current = isSignedNumber d.current := by
    rw [isSignedNumber, isSignedNumber, hfg.kind h.current, hfg.lexeme h.current]
  unfold Cursor.splitSigned
  rw [hsigned]
  split
  · rename_i hs
    exact ⟨hfg.minusOf h.current hs, by
      rw [List.map_cons, List.map_cons, hfg.unsignedOf h.current hs, h.later]⟩
  · exact h

theorem Match.skipStatement (h : Cursor.Match f g c d) (n : Nat) :
    Cursor.Match f g (c.skipStatement n) (d.skipStatement n) := by
  induction n generalizing c d with
  | zero => exact h
  | succ n ih =>
      rw [Cursor.skipStatement, Cursor.skipStatement, h.atEnd hfg, h.kind hfg]
      split
      · exact h
      · split
        · exact h.next hfg
        · exact ih (h.next hfg)

theorem Match.boundary (h : Cursor.Match f g c d) : Cursor.Match f g c.boundary d.boundary := by
  have hlength : c.later.length = d.later.length := by
    have := congrArg List.length h.later
    rwa [List.length_map, List.length_map] at this
  rw [Cursor.boundary, Cursor.boundary, hlength]
  exact h.skipStatement hfg _

end Cursor

/-! ## Parsers -/

namespace Parser

variable {α β : Type}

/-- Matching cursors are taken to matching outcomes. -/
def Matches (f g : Token → Token) (R : α → α → Prop) (p q : Parser α) : Prop :=
  ∀ c d : Cursor, Cursor.Match f g c d → Outcome.Match f g R (p c) (q d)

theorem Matches.bind {R : α → α → Prop} {S : β → β → Prop} {p q : Parser α}
    {k k' : α → Parser β} (hp : Matches f g R p q)
    (hk : ∀ a b, R a b → Matches f g S (k a) (k' b)) : Matches f g S (p >>= k) (q >>= k') := by
  intro c d h
  rw [bind_apply, bind_apply]
  have ho := hp c d h
  generalize p c = o at ho ⊢
  generalize q d = o' at ho ⊢
  cases ho with
  | done hr hc herr => exact (hk _ _ hr _ _ hc).after herr
  | broken hc herr => exact .broken hc herr
  | exhausted => exact .exhausted

theorem matches_pure {R : α → α → Prop} {a b : α} (h : R a b) :
    Matches f g R (pure a) (pure b) := fun _ _ hc => .done h hc rfl

theorem matches_exhausted {R : α → α → Prop} :
    Matches f g R (exhausted : Parser α) exhausted := fun _ _ _ => .exhausted

include hfg

theorem matches_advance : Matches f g Eq advance advance :=
  fun _ _ hc => .done rfl (hc.next hfg) rfl

theorem matches_kind : Matches f g Eq kind kind := fun _ _ hc => .done (hc.kind hfg) hc rfl

omit hfg in
theorem match_complain {R : α → α → Prop} (complaint : Complaint) (hc : Cursor.Match f g c d) :
    Outcome.Match f g R (.broken c [.blame c.current complaint])
      (.broken d [.blame d.current complaint]) :=
  .broken hc (by simp [ParseError.relabel, ParseError.blame, hc.current])

theorem matches_expect (k : Kind) :
    Matches f g (fun t u => f t = g u) (expect k) (expect k) := by
  intro c d hc
  unfold expect
  rw [hc.kind hfg]
  split
  · exact .done hc.current (hc.next hfg) rfl
  · exact match_complain _ hc

theorem matches_endOfStatement : Matches f g Eq endOfStatement endOfStatement := by
  intro c d hc
  rw [endOfStatement_apply, endOfStatement_apply, hc.kind hfg]
  split
  · exact .done rfl (hc.next hfg) rfl
  · split
    · exact .done rfl hc rfl
    · exact match_complain _ hc

theorem matches_optionalSemicolon : Matches f g Eq optionalSemicolon optionalSemicolon := by
  intro c d hc
  rw [optionalSemicolon_apply, optionalSemicolon_apply, hc.kind hfg]
  refine .done rfl ?_ rfl
  split
  · exact hc.next hfg
  · exact hc

/-! ## The parsers of the grammar -/

omit hfg in
/-- Within `n` steps, matching tokens give matching trees. -/
structure Matched (f g : Token → Token) (n : Nat) : Prop where
  expression : ∀ s, Matches f g (fun a b => a.relabel f = b.relabel g)
    (expression n s) (expression n s)
  operators : ∀ s {left left' : Expr}, left.relabel f = left'.relabel g →
    Matches f g (fun a b => a.relabel f = b.relabel g) (operators n s left) (operators n s left')
  arguments : Matches f g (fun a b => Expr.relabelAll f a = Expr.relabelAll g b)
    (arguments n) (arguments n)
  operand : Matches f g (fun a b => a.relabel f = b.relabel g) (operand n) (operand n)
  conditional : Matches f g (fun a b => a.relabel f = b.relabel g) (conditional n) (conditional n)
  alternative : Matches f g (fun a b => a.relabel f = b.relabel g) (alternative n) (alternative n)
  block : Matches f g (fun a b => a.relabel f = b.relabel g) (block n) (block n)
  blockBody : Matches f g (fun a b => Stmt.relabelAll f a = Stmt.relabelAll g b)
    (blockBody n) (blockBody n)
  statement : Matches f g (fun a b => a.relabel f = b.relabel g) (statement n) (statement n)

omit hfg in
theorem matched_zero : Matched f g 0 where
  expression s := by rw [expression]; exact matches_exhausted
  operators s left left' _ := by rw [operators, operators]; exact matches_exhausted
  arguments := by rw [arguments]; exact matches_exhausted
  operand := by rw [operand]; exact matches_exhausted
  conditional := by rw [conditional]; exact matches_exhausted
  alternative := by rw [alternative]; exact matches_exhausted
  block := by rw [block]; exact matches_exhausted
  blockBody := by rw [blockBody]; exact matches_exhausted
  statement := by rw [statement]; exact matches_exhausted

section MatchedSucc

variable {n : Nat} (ih : Matched f g n)
include ih

theorem matches_operators_succ (s : Nat) {left left' : Expr}
    (hleft : left.relabel f = left'.relabel g) :
    Matches f g (fun a b => a.relabel f = b.relabel g) (operators (n + 1) s left)
      (operators (n + 1) s left') := by
  intro c d hc
  have hsplit := hc.splitSigned hfg
  rw [operators_succ, operators_succ, hsplit.kind hfg]
  split
  · exact .done hleft hsplit rfl
  · split
    · refine ih.arguments.bind (fun args args' hargs => ?_) _ _ (hsplit.next hfg)
      refine (matches_expect hfg _).bind fun closing closing' hclosing => ih.operators s ?_
      simp only [Expr.relabel, hleft, hsplit.current, hargs, hclosing]
    · refine (ih.expression _).bind (fun right right' hright => ?_) _ _ (hsplit.next hfg)
      refine ih.operators s ?_
      simp only [Expr.relabel, hleft, hsplit.current, hright]

theorem matches_arguments_succ :
    Matches f g (fun a b => Expr.relabelAll f a = Expr.relabelAll g b)
      (arguments (n + 1)) (arguments (n + 1)) := by
  intro c d hc
  rw [arguments_succ, arguments_succ, hc.atEnd hfg, hc.kind hfg]
  split
  · exact .done rfl hc rfl
  · refine (ih.expression 0).bind (fun e e' he => ?_) _ _ hc
    refine (matches_kind hfg).bind fun k k' hk => ?_
    subst hk
    split
    · refine (matches_advance hfg).bind fun _ _ _ => ih.arguments.bind fun es es' hes => ?_
      exact matches_pure (by simp only [Expr.relabelAll, he, hes])
    · exact matches_pure (by simp only [Expr.relabelAll, he])

theorem matches_operand_succ :
    Matches f g (fun a b => a.relabel f = b.relabel g) (operand (n + 1)) (operand (n + 1)) := by
  intro c d hc
  have hlexeme := hfg.lexeme hc.current
  have hnext := hc.next hfg
  rw [operand_succ, operand_succ, hc.kind hfg]
  cases d.kind
  case integer =>
      dsimp only [integer, numeral]
      rw [hlexeme]
      split
      · exact .done (by simp only [Expr.relabel, hc.current]) hnext rfl
      · exact match_complain _ hc
  case float =>
      dsimp only [float, numeral]
      rw [hlexeme]
      split
      · exact .done (by simp only [Expr.relabel, hc.current]) hnext rfl
      · exact match_complain _ hc
  case ident => exact .done (by simp only [Expr.relabel, hc.current, hlexeme]) hnext rfl
  case string => exact .done (by simp only [Expr.relabel, hc.current, hlexeme]) hnext rfl
  case true_ => exact .done (by simp only [Expr.relabel, hc.current]) hnext rfl
  case false_ => exact .done (by simp only [Expr.relabel, hc.current]) hnext rfl
  case openParen =>
      refine (ih.expression 0).bind (fun e e' he => ?_) _ _ hnext
      exact (matches_expect hfg _).bind fun _ _ _ => matches_pure he
  case not | minus =>
      exact (ih.expression _).bind (fun right right' hright => matches_pure (by
        simp only [Expr.relabel, hc.current, hright])) _ _ hnext
  case if_ =>
      exact ih.conditional.bind (fun choice choice' hchoice => matches_pure (by
        simp only [Expr.relabel, hchoice])) _ _ hc
  all_goals exact match_complain _ hc

theorem matches_conditional_succ :
    Matches f g (fun a b => a.relabel f = b.relabel g)
      (conditional (n + 1)) (conditional (n + 1)) := by
  intro c d hc
  rw [conditional_succ, conditional_succ]
  refine (matches_expect hfg _).bind (fun _ _ _ => ?_) _ _ (hc.next hfg)
  refine (ih.expression 0).bind fun condition condition' hcondition => ?_
  refine (matches_expect hfg _).bind fun _ _ _ => ih.block.bind fun body body' hbody => ?_
  refine ih.alternative.bind fun otherwise otherwise' hotherwise => matches_pure ?_
  simp only [Conditional.relabel, hc.current, hcondition, hbody, hotherwise]

theorem matches_alternative_succ :
    Matches f g (fun a b => a.relabel f = b.relabel g)
      (alternative (n + 1)) (alternative (n + 1)) := by
  intro c d hc
  have hnext := hc.next hfg
  rw [alternative_succ, alternative_succ, hc.kind hfg, hnext.kind hfg]
  split
  · split
    · exact ih.conditional.bind (fun next next' h => matches_pure (by
        simp only [Alternative.relabel, h])) _ _ hnext
    · exact ih.block.bind (fun body body' h => matches_pure (by
        simp only [Alternative.relabel, h])) _ _ hnext
  · exact .done rfl hc rfl

theorem matches_block_succ :
    Matches f g (fun a b => a.relabel f = b.relabel g) (block (n + 1)) (block (n + 1)) := by
  intro c d hc
  rw [block_succ, block_succ]
  refine (matches_expect hfg _).bind (fun opening opening' hopening => ?_) _ _ hc
  refine ih.blockBody.bind fun body body' hbody => ?_
  refine (matches_expect hfg _).bind fun closing closing' hclosing => matches_pure ?_
  have hempty : body.isEmpty = body'.isEmpty := by
    rw [← Stmt.isEmpty_relabelAll f, hbody, Stmt.isEmpty_relabelAll]
  simp only [Block.relabel, hopening, hbody, hclosing, hempty]

omit hfg ih in
/-- A statement and those behind it, or those after a statement that broke
off. -/
theorem match_followedBy {o o' : Outcome Stmt} {more : Parser (List Stmt)}
    {resume : Cursor → Cursor}
    (ho : Outcome.Match f g (fun a b => a.relabel f = b.relabel g) o o')
    (hmore : Matches f g (fun a b => Stmt.relabelAll f a = Stmt.relabelAll g b) more more)
    (hresume : ∀ {c d}, Cursor.Match f g c d → Cursor.Match f g (resume c) (resume d)) :
    Outcome.Match f g (fun a b => Stmt.relabelAll f a = Stmt.relabelAll g b)
      (followedBy o more resume) (followedBy o' more resume) := by
  cases ho with
  | done hs hc herr =>
      refine (hmore.bind (fun ss ss' hss => matches_pure ?_) _ _ hc).after herr
      simp only [Stmt.relabelAll, hs, hss]
  | broken hc herr => exact (hmore _ _ (hresume hc)).after herr
  | exhausted => exact .exhausted

theorem matches_blockBody_succ :
    Matches f g (fun a b => Stmt.relabelAll f a = Stmt.relabelAll g b)
      (blockBody (n + 1)) (blockBody (n + 1)) := by
  intro c d hc
  rw [blockBody_succ, blockBody_succ, hc.atEnd hfg, hc.kind hfg]
  split
  · exact .done rfl hc rfl
  · split
    · exact ih.blockBody _ _ (hc.next hfg)
    · exact match_followedBy (ih.statement _ _ hc) ih.blockBody fun h => h.boundary hfg

theorem matches_statement_succ :
    Matches f g (fun a b => a.relabel f = b.relabel g)
      (statement (n + 1)) (statement (n + 1)) := by
  have hclosing : ∀ finish finish' : Expr → Stmt,
      (∀ e e' : Expr, e.relabel f = e'.relabel g → (finish e).relabel f = (finish' e').relabel g) →
      Matches f g (fun a b => a.relabel f = b.relabel g)
        (expression n 0 >>= fun value => endOfStatement >>= fun _ => pure (finish value))
        (expression n 0 >>= fun value => endOfStatement >>= fun _ => pure (finish' value)) :=
    fun finish finish' hfinish => (ih.expression 0).bind fun e e' he =>
      (matches_endOfStatement hfg).bind fun _ _ _ => matches_pure (hfinish e e' he)
  intro c d hc
  have hnext := hc.next hfg
  have hcur := hc.current
  rw [statement_succ, statement_succ, hc.kind hfg]
  cases d.kind
  case let_ =>
      refine (matches_expect hfg _).bind (fun name name' hname => ?_) _ _ hnext
      refine (matches_expect hfg _).bind fun _ _ _ => hclosing _ _ fun e e' he => ?_
      simp only [Stmt.relabel, hcur, hname, hfg.lexeme hname, he]
  case return_ =>
      dsimp only
      rw [hnext.kind hfg]
      split
      · refine (matches_endOfStatement hfg).bind (fun _ _ _ => matches_pure ?_) _ _ hnext
        simp only [Stmt.relabel, hcur, Expr.relabel]
      · exact hclosing _ _ (fun e e' he => by simp only [Stmt.relabel, hcur, he]) _ _ hnext
  case openBrace =>
      exact ih.block.bind (fun body body' h => matches_pure (by simp only [Stmt.relabel, h])) _ _ hc
  case if_ =>
      refine ih.conditional.bind (fun choice choice' h => ?_) _ _ hc
      refine (matches_optionalSemicolon hfg).bind fun _ _ _ => matches_pure ?_
      simp only [Stmt.relabel, Expr.relabel, h]
  all_goals exact hclosing _ _ (fun e e' he => by simp only [Stmt.relabel, he]) _ _ hc

end MatchedSucc

theorem matched : ∀ n, Matched f g n
  | 0 => matched_zero
  | n + 1 => by
      have ih := matched n
      exact {
        expression := fun s c d hc => by
          rw [expression_succ, expression_succ]
          exact ih.operand.bind (fun a b h => ih.operators s h) c d hc
        operators := matches_operators_succ hfg ih
        arguments := matches_arguments_succ hfg ih
        operand := matches_operand_succ hfg ih
        conditional := matches_conditional_succ hfg ih
        alternative := matches_alternative_succ hfg ih
        block := matches_block_succ hfg ih
        blockBody := matches_blockBody_succ hfg ih
        statement := matches_statement_succ hfg ih }

theorem matches_statements : ∀ n,
    Matches f g (fun a b => Stmt.relabelAll f a = Stmt.relabelAll g b) (statements n) (statements n)
  | 0 => matches_exhausted
  | n + 1 => by
      have ih := matches_statements n
      intro c d hc
      rw [statements_succ, statements_succ, hc.atEnd hfg, hc.kind hfg]
      split
      · exact .done rfl hc rfl
      · split
        · exact ih _ _ (hc.next hfg)
        · split
          · refine (ih _ _ (hc.next hfg)).after ?_
            simp [ParseError.relabel, ParseError.blame, hc.current]
          · refine match_followedBy ((matched hfg n).statement _ _ hc) ih fun h => ?_
            have hb := h.boundary hfg
            unfold dropBrace
            rw [hb.kind hfg]
            split
            · exact hb.next hfg
            · exact hb

end Parser

/-! ## Programs -/

include hfg

theorem Cursor.Match.budget (h : Cursor.Match f g c d) : c.budget = d.budget := by
  have hlength : ∀ {ts us : List Token}, ts.map f = us.map g →
      ts.map (fun t => t.lexeme.length + 1) = us.map fun t => t.lexeme.length + 1 := by
    intro ts us hmap
    induction ts generalizing us with
    | nil => rw [List.map_eq_nil_iff.mp hmap.symm]
    | cons t ts ih =>
        obtain ⟨u, us, rfl, ht, hts⟩ := List.map_eq_cons_iff.mp hmap.symm
        rw [List.map_cons, List.map_cons, hfg.lexeme ht.symm, ih hts.symm]
  have hmap : (c.current :: c.later).map f = (d.current :: d.later).map g := by
    rw [List.map_cons, List.map_cons, h.current, h.later]
  rw [Cursor.budget, Cursor.budget, Cursor.weight, Cursor.weight, hlength hmap]

/-- Tokens that are made equal give programs and errors that are made
equal. -/
theorem parse_relabel {ts us : List Token} (hts : Token.EndsOnce ts) (hus : Token.EndsOnce us)
    (h : ts.map f = us.map g) :
    Program.relabel f (parse ts).program = Program.relabel g (parse us).program ∧
      (parse ts).errors.map (ParseError.relabel f)
        = (parse us).errors.map (ParseError.relabel g) := by
  obtain ⟨htok, hclosed⟩ := Cursor.ofTokens_spec hts
  obtain ⟨htok', hclosed'⟩ := Cursor.ofTokens_spec hus
  have hmatch : Cursor.Match f g (Cursor.ofTokens ts) (Cursor.ofTokens us) := by
    rw [← htok, ← htok', Cursor.tokens, Cursor.tokens, List.map_cons, List.map_cons] at h
    obtain ⟨hcur, hlater⟩ := List.cons.inj h
    exact ⟨hcur, hlater⟩
  have hrun := Parser.matches_statements hfg (Cursor.ofTokens ts).budget _ _ hmatch
  obtain ⟨p, rest, errors, hp, -⟩ := Parser.statements_budget hclosed
  rw [hp, hmatch.budget hfg] at hrun
  cases hq : Parser.statements (Cursor.ofTokens us).budget (Cursor.ofTokens us) with
  | done q rest' errors' =>
      rw [hq] at hrun
      cases hrun with
      | done hprogram _ herrors =>
          simp only [parse, parseWithin, hp, hq, Option.getD_some]
          exact ⟨hprogram, herrors⟩
  | broken rest' errors' =>
      rw [hq] at hrun
      cases hrun
  | exhausted =>
      rw [hq] at hrun
      cases hrun

end

end Scriptlet
