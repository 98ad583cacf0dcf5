import Scriptlet.Proofs.Parse.Complete
import Scriptlet.Proofs.Parse.Relabel

/-!
# Signed numbers in two tokens

Behind an operand the parser takes a signed number apart, so it makes no
difference there whether the minus and the digits are one token or two. Lists of
tokens that differ in nothing else are parsed without errors together, and to the
same program (`parse_loosened`).

`Loosened` relates such lists. The parsers go along both of them in step, and
`Outcome.Agree` says that they fail together or are done together. The lists may
differ at their heads only where an operand has just ended, which is what the flag
of `Loosened` is for: an operand is read with the flag down and leaves it up, and
the operators behind it take the number apart and leave it down.
-/

namespace Scriptlet

/-- Kinds behind which a minus stands between two operands. -/
def Kind.endsOperand : Kind → Bool
  | .ident | .integer | .float | .string | .true_ | .false_ | .closeParen => true
  | _ => false

/-- What ends an operand is no operator. -/
theorem Kind.strength_of_endsOperand {k : Kind} (h : k.endsOperand = true) : k.strength = 0 := by
  cases k <;> first | rfl | cases h

/-- `us` are the tokens `ts`, but signed numbers behind an operand may be in two
parts. The flag says whether an operand has ended in front of them. -/
inductive Loosened (f g : Token → Token) : Bool → List Token → List Token → Prop where
  | nil {behind : Bool} : Loosened f g behind [] []
  | same {behind : Bool} {t u : Token} {ts us : List Token} : f t = g u →
      Loosened f g t.kind.endsOperand ts us → Loosened f g behind (t :: ts) (u :: us)
  | split {t minus number : Token} {ts us : List Token} : Cursor.isSignedNumber t = true →
      f (Cursor.minusOf t) = g minus → f (Cursor.unsignedOf t) = g number →
      Loosened f g true ts us → Loosened f g true (t :: ts) (minus :: number :: us)

theorem Cursor.kind_of_isSignedNumber {t : Token} (h : isSignedNumber t = true) :
    t.kind = .integer ∨ t.kind = .float := by
  rw [isSignedNumber, Bool.and_eq_true, Bool.or_eq_true, beq_iff_eq, beq_iff_eq] at h
  exact h.1

theorem Cursor.endsOperand_of_isSignedNumber {t : Token} (h : isSignedNumber t = true) :
    t.kind.endsOperand = true := by
  rcases kind_of_isSignedNumber h with hk | hk <;> rw [hk] <;> rfl

section

variable {f g : Token → Token}

/-! ## Cursors -/

namespace Loosened

variable {behind : Bool} {ts us : List Token} {c d : Cursor}

theorem weaken (h : Loosened f g false ts us) : Loosened f g behind ts us := by
  cases h with
  | nil => exact .nil
  | same htu h => exact .same htu h

theorem raise (h : Loosened f g behind ts us) : Loosened f g true ts us := by
  cases behind with
  | false => exact h.weaken
  | true => exact h

theorem eq_nil_iff (h : Loosened f g behind ts us) : ts = [] ↔ us = [] := by
  cases h <;> simp

/-- Where no operand has ended the first tokens are the same. -/
theorem head (h : Loosened f g false c.tokens d.tokens) :
    f c.current = g d.current ∧ Loosened f g c.kind.endsOperand c.later d.later := by
  obtain ⟨t, ts⟩ := c
  obtain ⟨u, us⟩ := d
  cases h with
  | same htu h => exact ⟨htu, h⟩

theorem head_cases (h : Loosened f g true c.tokens d.tokens) :
    Loosened f g false c.tokens d.tokens ∨
      Cursor.isSignedNumber c.current = true ∧ f (Cursor.minusOf c.current) = g d.current ∧
        ∃ number us, d.later = number :: us ∧ f (Cursor.unsignedOf c.current) = g number ∧
          Loosened f g true c.later us := by
  obtain ⟨t, ts⟩ := c
  obtain ⟨u, us⟩ := d
  cases h with
  | same htu h => exact Or.inl (.same htu h)
  | split hs hminus hnumber h => exact Or.inr ⟨hs, hminus, _, _, rfl, hnumber, h⟩

variable (hfg : Token.Alike f g)
include hfg

theorem kind (h : Loosened f g false c.tokens d.tokens) : c.kind = d.kind := hfg.kind h.head.1

theorem atEnd (h : Loosened f g false c.tokens d.tokens) : c.atEnd = d.atEnd :=
  hfg.isEof h.head.1

theorem next (h : Loosened f g false c.tokens d.tokens) :
    Loosened f g c.kind.endsOperand c.next.tokens d.next.tokens := by
  obtain ⟨hcurrent, hlater⟩ := h.head
  unfold Cursor.next
  rw [hfg.isEof hcurrent]
  split
  · exact h.weaken
  · cases hc : c.later with
    | nil =>
        rw [hlater.eq_nil_iff.mp hc]
        exact h.weaken
    | cons t ts =>
        rw [hc] at hlater
        cases hd : d.later with
        | nil => exact absurd (hlater.eq_nil_iff.mpr hd) (List.cons_ne_nil t ts)
        | cons u us =>
            rw [hd] at hlater
            exact hlater

/-- Behind an operand the split makes the first tokens the same. -/
theorem splitSigned (h : Loosened f g true c.tokens d.tokens) :
    Loosened f g false c.splitSigned.tokens d.splitSigned.tokens := by
  rcases h.head_cases with h | ⟨hs, hminus, number, us, hd, hnumber, h⟩
  · obtain ⟨hcurrent, hlater⟩ := h.head
    have hsigned : Cursor.isSignedNumber c.current = Cursor.isSignedNumber d.current := by
      rw [Cursor.isSignedNumber, Cursor.isSignedNumber, hfg.kind hcurrent, hfg.lexeme hcurrent]
    unfold Cursor.splitSigned
    rw [hsigned]
    split
    · rename_i hs
      exact .same (hfg.minusOf hcurrent hs) (.same (hfg.unsignedOf hcurrent hs) hlater)
    · exact h
  · have hkind : d.kind = .minus := (hfg.kind hminus).symm
    have hraised : (Cursor.unsignedOf c.current).kind.endsOperand = true :=
      Cursor.endsOperand_of_isSignedNumber (t := c.current) hs
    have hstay : d.splitSigned = d :=
      Cursor.splitSigned_of_kind (by simp [hkind]) (by simp [hkind])
    rw [Cursor.splitSigned_of_signed hs, hstay, Cursor.tokens, hd]
    refine .same hminus (.same hnumber ?_)
    rw [hraised]
    exact h

end Loosened

/-! ## Outcomes -/

namespace Outcome

variable {α : Type}

/-- Not done without errors. -/
def Fails (o : Outcome α) : Prop := ∀ a rest, o ≠ .done a rest []

/-- Both are done without errors, or neither is. -/
inductive Agree (f g : Token → Token) (behind : Bool) (R : α → α → Prop) :
    Outcome α → Outcome α → Prop where
  | done {a b : α} {c d : Cursor} : R a b → Loosened f g behind c.tokens d.tokens →
      Agree f g behind R (.done a c []) (.done b d [])
  | fail {o o' : Outcome α} : o.Fails → o'.Fails → Agree f g behind R o o'

theorem fails_broken (c : Cursor) (es : List ParseError) : (broken c es : Outcome α).Fails := by
  intro a rest h
  cases h

theorem fails_after {o : Outcome α} {e : ParseError} {es : List ParseError} :
    (o.after (e :: es)).Fails := by
  intro a rest
  cases o <;> simp [after]

end Outcome

/-! ## Parsers -/

namespace Parser

open Outcome (Agree Fails fails_broken fails_after)

variable {α β : Type} {behind behind' : Bool}

/-- Loosened tokens are taken to outcomes that agree. -/
def Agrees (f g : Token → Token) (before behind : Bool) (R : α → α → Prop) (p q : Parser α) :
    Prop :=
  ∀ c d : Cursor, Loosened f g before c.tokens d.tokens → Agree f g behind R (p c) (q d)

theorem agree_bind {R : α → α → Prop} {S : β → β → Prop} {p q : Parser α} {k k' : α → Parser β}
    {c d : Cursor} (hp : Agree f g behind R (p c) (q d))
    (hk : ∀ a b, R a b → Agrees f g behind behind' S (k a) (k' b)) :
    Agree f g behind' S ((p >>= k) c) ((q >>= k') d) := by
  generalize hpc : p c = o at hp
  generalize hqd : q d = o' at hp
  cases hp with
  | done hr h =>
      rw [bind_of_done hpc, bind_of_done hqd]
      exact hk _ _ hr _ _ h
  | fail h h' =>
      refine .fail (fun b rest hdone => ?_) fun b rest hdone => ?_
      · obtain ⟨a, mid, ha, -⟩ := bind_eq_done.mp hdone
        exact h a mid (hpc.symm.trans ha)
      · obtain ⟨a, mid, ha, -⟩ := bind_eq_done.mp hdone
        exact h' a mid (hqd.symm.trans ha)

theorem agrees_pure {R : α → α → Prop} {a b : α} (h : R a b) :
    Agrees f g false behind R (pure a) (pure b) := fun _ _ hc => .done h hc.weaken

theorem agree_broken {R : α → α → Prop} {c d : Cursor} {es es' : List ParseError} :
    Agree f g behind R (.broken c es) (.broken d es') :=
  .fail (fails_broken c es) (fails_broken d es')

theorem agrees_exhausted {before : Bool} {R : α → α → Prop} :
    Agrees f g before behind R (exhausted : Parser α) exhausted := by
  intro c d _
  exact .fail (fun a rest h => by cases h) fun a rest h => by cases h

variable (hfg : Token.Alike f g)
include hfg

theorem agrees_expect {k : Kind} (hk : k ≠ .integer ∧ k ≠ .float ∧ k ≠ .minus) :
    Agrees f g true k.endsOperand (fun t u => f t = g u) (expect k) (expect k) := by
  intro c d hc
  rcases hc.head_cases with hc | ⟨hs, hminus, -⟩
  · unfold expect
    rw [← hc.kind hfg]
    split
    · rename_i hkind
      have hnext := hc.next hfg
      rw [hkind] at hnext
      exact .done hc.head.1 hnext
    · exact agree_broken
  · have hck : c.kind ≠ k := by
      rcases Cursor.kind_of_isSignedNumber hs with h | h
      · exact fun hkind => hk.1 (hkind.symm.trans h)
      · exact fun hkind => hk.2.1 (hkind.symm.trans h)
    have hdk : d.kind ≠ k := fun hkind => hk.2.2 (hkind.symm.trans (hfg.kind hminus).symm)
    rw [expect_of_ne hck, expect_of_ne hdk]
    exact agree_broken

theorem agrees_endOfStatement : Agrees f g false false Eq endOfStatement endOfStatement := by
  intro c d hc
  have hnext := hc.next hfg
  rw [endOfStatement_apply, endOfStatement_apply, ← hc.kind hfg]
  split
  · rename_i hk
    rw [hk] at hnext
    exact .done rfl hnext
  · split
    · exact .done rfl hc
    · exact agree_broken

theorem agrees_optionalSemicolon :
    Agrees f g false false Eq optionalSemicolon optionalSemicolon := by
  intro c d hc
  have hnext := hc.next hfg
  rw [optionalSemicolon_apply, optionalSemicolon_apply, ← hc.kind hfg]
  refine .done rfl ?_
  split
  · rename_i hk
    rw [hk] at hnext
    exact hnext
  · exact hc

/-! ## The parsers of the grammar -/

omit hfg in
/-- Within `n` steps, loosened tokens give the same trees or none. -/
structure Agreed (f g : Token → Token) (n : Nat) : Prop where
  expression : ∀ s, Agrees f g false false (fun a b => a.relabel f = b.relabel g)
    (expression n s) (expression n s)
  operators : ∀ s {left left' : Expr}, left.relabel f = left'.relabel g →
    Agrees f g true false (fun a b => a.relabel f = b.relabel g) (operators n s left)
      (operators n s left')
  arguments : Agrees f g false false (fun a b => Expr.relabelAll f a = Expr.relabelAll g b)
    (arguments n) (arguments n)
  operand : Agrees f g false true (fun a b => a.relabel f = b.relabel g) (operand n) (operand n)
  conditional : Agrees f g false false (fun a b => a.relabel f = b.relabel g)
    (conditional n) (conditional n)
  alternative : Agrees f g false false (fun a b => a.relabel f = b.relabel g)
    (alternative n) (alternative n)
  block : Agrees f g true false (fun a b => a.relabel f = b.relabel g) (block n) (block n)
  blockBody : Agrees f g false false (fun a b => Stmt.relabelAll f a = Stmt.relabelAll g b)
    (blockBody n) (blockBody n)
  statement : Agrees f g false false (fun a b => a.relabel f = b.relabel g)
    (statement n) (statement n)

omit hfg in
theorem agreed_zero : Agreed f g 0 where
  expression s := by rw [expression]; exact agrees_exhausted
  operators s left left' _ := by rw [operators, operators]; exact agrees_exhausted
  arguments := by rw [arguments]; exact agrees_exhausted
  operand := by rw [operand]; exact agrees_exhausted
  conditional := by rw [conditional]; exact agrees_exhausted
  alternative := by rw [alternative]; exact agrees_exhausted
  block := by rw [block]; exact agrees_exhausted
  blockBody := by rw [blockBody]; exact agrees_exhausted
  statement := by rw [statement]; exact agrees_exhausted

section AgreedSucc

variable {n : Nat} (ih : Agreed f g n)
include ih

theorem agrees_operators_succ (s : Nat) {left left' : Expr}
    (hleft : left.relabel f = left'.relabel g) :
    Agrees f g true false (fun a b => a.relabel f = b.relabel g) (operators (n + 1) s left)
      (operators (n + 1) s left') := by
  intro c d hc
  have hsplit := hc.splitSigned hfg
  have hnext := hsplit.next hfg
  have hcurrent := hsplit.head.1
  rw [operators_succ, operators_succ, ← hsplit.kind hfg]
  split
  · exact .done hleft hsplit
  · rename_i hstrong
    have hdown : c.splitSigned.kind.endsOperand = false := by
      refine eq_false_of_ne_true fun hup => hstrong ?_
      rw [Kind.strength_of_endsOperand hup]
      exact Nat.zero_le s
    rw [hdown] at hnext
    split
    · refine agree_bind (ih.arguments _ _ hnext) fun args args' hargs c' d' hc' => ?_
      refine agree_bind (agrees_expect hfg (by decide) _ _ hc'.raise)
        fun closing closing' hclosing => ih.operators s ?_
      simp only [Expr.relabel, hleft, hcurrent, hargs, hclosing]
    · refine agree_bind (ih.expression _ _ _ hnext) fun right right' hright c' d' hc' => ?_
      refine ih.operators s ?_ _ _ hc'.raise
      simp only [Expr.relabel, hleft, hcurrent, hright]

theorem agrees_arguments_succ :
    Agrees f g false false (fun a b => Expr.relabelAll f a = Expr.relabelAll g b)
      (arguments (n + 1)) (arguments (n + 1)) := by
  intro c d hc
  rw [arguments_succ, arguments_succ, ← hc.atEnd hfg, ← hc.kind hfg]
  split
  · exact .done rfl hc
  · refine agree_bind (ih.expression 0 _ _ hc) fun e e' he c' d' hc' => ?_
    have hnext := hc'.next hfg
    rw [kind_bind, kind_bind, ite_apply, ite_apply, ← hc'.kind hfg]
    split
    · rename_i hk
      rw [hk] at hnext
      rw [advance_bind, advance_bind]
      refine agree_bind (ih.arguments _ _ hnext) fun es es' hes => agrees_pure ?_
      simp only [Expr.relabelAll, he, hes]
    · exact agrees_pure (by simp only [Expr.relabelAll, he]) _ _ hc'

theorem agrees_operand_succ :
    Agrees f g false true (fun a b => a.relabel f = b.relabel g)
      (operand (n + 1)) (operand (n + 1)) := by
  intro c d hc
  have hcurrent := hc.head.1
  have hlexeme := hfg.lexeme hcurrent
  have hnext := hc.next hfg
  rw [operand_succ, operand_succ, ← hc.kind hfg]
  cases hk : c.kind
  all_goals rw [hk] at hnext
  case integer =>
      dsimp only [integer, numeral]
      rw [hlexeme]
      split
      · exact .done (by simp only [Expr.relabel, hcurrent]) hnext
      · exact agree_broken
  case float =>
      dsimp only [float, numeral]
      rw [hlexeme]
      split
      · exact .done (by simp only [Expr.relabel, hcurrent]) hnext
      · exact agree_broken
  case ident => exact .done (by simp only [Expr.relabel, hcurrent, hlexeme]) hnext
  case string => exact .done (by simp only [Expr.relabel, hcurrent, hlexeme]) hnext
  case true_ => exact .done (by simp only [Expr.relabel, hcurrent]) hnext
  case false_ => exact .done (by simp only [Expr.relabel, hcurrent]) hnext
  case openParen =>
      refine agree_bind (ih.expression 0 _ _ hnext) fun e e' he c' d' hc' => ?_
      exact agree_bind (agrees_expect hfg (by decide) _ _ hc'.raise)
        fun _ _ _ c' d' hc' => .done he hc'
  case not | minus =>
      refine agree_bind (ih.expression _ _ _ hnext) fun right right' hright => agrees_pure ?_
      simp only [Expr.relabel, hcurrent, hright]
  case if_ =>
      refine agree_bind (ih.conditional _ _ hc) fun choice choice' hchoice => agrees_pure ?_
      simp only [Expr.relabel, hchoice]
  all_goals exact agree_broken

theorem agrees_conditional_succ :
    Agrees f g false false (fun a b => a.relabel f = b.relabel g)
      (conditional (n + 1)) (conditional (n + 1)) := by
  intro c d hc
  rw [conditional_succ, conditional_succ]
  refine agree_bind (agrees_expect hfg (by decide) _ _ (hc.next hfg).raise)
    fun _ _ _ c' d' hc' => ?_
  refine agree_bind (ih.expression 0 _ _ hc') fun condition condition' hcondition c' d' hc' => ?_
  refine agree_bind (agrees_expect hfg (by decide) _ _ hc'.raise) fun _ _ _ c' d' hc' => ?_
  refine agree_bind (ih.block _ _ hc') fun body body' hbody c' d' hc' => ?_
  refine agree_bind (ih.alternative _ _ hc') fun otherwise otherwise' hotherwise => agrees_pure ?_
  simp only [Conditional.relabel, hc.head.1, hcondition, hbody, hotherwise]

theorem agrees_alternative_succ :
    Agrees f g false false (fun a b => a.relabel f = b.relabel g)
      (alternative (n + 1)) (alternative (n + 1)) := by
  intro c d hc
  have hnext := hc.next hfg
  rw [alternative_succ, alternative_succ, ← hc.kind hfg]
  split
  · rename_i hk
    rw [hk] at hnext
    rw [← Loosened.kind hfg hnext]
    split
    · refine agree_bind (ih.conditional _ _ hnext) fun next next' h => agrees_pure ?_
      simp only [Alternative.relabel, h]
    · refine agree_bind (ih.block _ _ hnext.raise) fun body body' h => agrees_pure ?_
      simp only [Alternative.relabel, h]
  · exact .done rfl hc

theorem agrees_block_succ :
    Agrees f g true false (fun a b => a.relabel f = b.relabel g)
      (block (n + 1)) (block (n + 1)) := by
  intro c d hc
  rw [block_succ, block_succ]
  refine agree_bind (agrees_expect hfg (by decide) _ _ hc)
    fun opening opening' hopening c' d' hc' => ?_
  refine agree_bind (ih.blockBody _ _ hc') fun body body' hbody c' d' hc' => ?_
  refine agree_bind (agrees_expect hfg (by decide) _ _ hc'.raise)
    fun closing closing' hclosing => agrees_pure ?_
  have hempty : body.isEmpty = body'.isEmpty := by
    rw [← Stmt.isEmpty_relabelAll f, hbody, Stmt.isEmpty_relabelAll]
  simp only [Block.relabel, hopening, hbody, hclosing, hempty]

/-- An expression that ends a statement. -/
theorem agrees_closing {finish finish' : Expr → Stmt}
    (hfinish : ∀ e e' : Expr, e.relabel f = e'.relabel g →
      (finish e).relabel f = (finish' e').relabel g) :
    Agrees f g false false (fun a b => a.relabel f = b.relabel g)
      (expression n 0 >>= fun value => endOfStatement >>= fun _ => pure (finish value))
      (expression n 0 >>= fun value => endOfStatement >>= fun _ => pure (finish' value)) := by
  intro c d hc
  refine agree_bind (ih.expression 0 _ _ hc) fun e e' he c' d' hc' => ?_
  exact agree_bind (agrees_endOfStatement hfg _ _ hc') fun _ _ _ => agrees_pure (hfinish e e' he)

theorem agrees_statement_succ :
    Agrees f g false false (fun a b => a.relabel f = b.relabel g)
      (statement (n + 1)) (statement (n + 1)) := by
  intro c d hc
  have hcurrent := hc.head.1
  have hnext := hc.next hfg
  rw [statement_succ, statement_succ, ← hc.kind hfg]
  cases hk : c.kind
  all_goals rw [hk] at hnext
  case let_ =>
      refine agree_bind (agrees_expect hfg (by decide) _ _ hnext.raise)
        fun name name' hname c' d' hc' => ?_
      refine agree_bind (agrees_expect hfg (by decide) _ _ hc') fun _ _ _ =>
        agrees_closing hfg ih fun e e' he => ?_
      simp only [Stmt.relabel, hcurrent, hname, hfg.lexeme hname, he]
  case return_ =>
      dsimp only
      rw [← Loosened.kind hfg hnext]
      split
      · refine agree_bind (agrees_endOfStatement hfg _ _ hnext) fun _ _ _ => agrees_pure ?_
        simp only [Stmt.relabel, hcurrent, Expr.relabel]
      · refine agrees_closing hfg ih (fun e e' he => ?_) _ _ hnext
        simp only [Stmt.relabel, hcurrent, he]
  case openBrace =>
      refine agree_bind (ih.block _ _ hc.raise) fun body body' h => agrees_pure ?_
      simp only [Stmt.relabel, h]
  case if_ =>
      refine agree_bind (ih.conditional _ _ hc) fun choice choice' h c' d' hc' => ?_
      refine agree_bind (agrees_optionalSemicolon hfg _ _ hc') fun _ _ _ => agrees_pure ?_
      simp only [Stmt.relabel, Expr.relabel, h]
  all_goals exact agrees_closing hfg ih (fun e e' he => by simp only [Stmt.relabel, he]) _ _ hc

omit hfg in
/-- A statement that fails, fails the list it stands in. -/
theorem agrees_followedBy {more : Parser (List Stmt)} {resume : Cursor → Cursor}
    (hmore : Agrees f g false false (fun a b => Stmt.relabelAll f a = Stmt.relabelAll g b)
      more more)
    {c d : Cursor} (hc : Loosened f g false c.tokens d.tokens) :
    Agree f g false (fun a b => Stmt.relabelAll f a = Stmt.relabelAll g b)
      (followedBy (statement n c) more resume) (followedBy (statement n d) more resume) := by
  have hstatement := ih.statement c d hc
  generalize hs : statement n c = o at hstatement
  generalize hs' : statement n d = o' at hstatement
  cases hstatement with
  | done hst hrest =>
      rw [followedBy, followedBy, Outcome.after_nil, Outcome.after_nil]
      refine agree_bind (hmore _ _ hrest) fun ss ss' hss => agrees_pure ?_
      simp only [Stmt.relabelAll, hst, hss]
  | fail h h' =>
      refine .fail (fun ss rest hdone => ?_) fun ss rest hdone => ?_
      · rw [← hs] at hdone
        obtain ⟨s, -, mid, hdone, -⟩ := followedBy_eq_done hdone
        exact h s mid (hs.symm.trans hdone)
      · rw [← hs'] at hdone
        obtain ⟨s, -, mid, hdone, -⟩ := followedBy_eq_done hdone
        exact h' s mid (hs'.symm.trans hdone)

theorem agrees_blockBody_succ :
    Agrees f g false false (fun a b => Stmt.relabelAll f a = Stmt.relabelAll g b)
      (blockBody (n + 1)) (blockBody (n + 1)) := by
  intro c d hc
  have hnext := hc.next hfg
  rw [blockBody_succ, blockBody_succ, ← hc.atEnd hfg, ← hc.kind hfg]
  split
  · exact .done rfl hc
  · split
    · rename_i hk
      rw [hk] at hnext
      exact ih.blockBody _ _ hnext
    · exact agrees_followedBy ih ih.blockBody hc

end AgreedSucc

theorem agreed : ∀ n, Agreed f g n
  | 0 => agreed_zero
  | n + 1 =>
      have ih := agreed n
      { expression := fun s c d hc => by
          rw [expression_succ, expression_succ]
          exact agree_bind (ih.operand c d hc) fun a b h => ih.operators s h
        operators := agrees_operators_succ hfg ih
        arguments := agrees_arguments_succ hfg ih
        operand := agrees_operand_succ hfg ih
        conditional := agrees_conditional_succ hfg ih
        alternative := agrees_alternative_succ hfg ih
        block := agrees_block_succ hfg ih
        blockBody := agrees_blockBody_succ hfg ih
        statement := agrees_statement_succ hfg ih }

theorem agrees_statements : ∀ n, Agrees f g false false
    (fun a b => Stmt.relabelAll f a = Stmt.relabelAll g b) (statements n) (statements n)
  | 0 => agrees_exhausted
  | n + 1 => by
      have ih := agrees_statements n
      intro c d hc
      have hnext := hc.next hfg
      rw [statements_succ, statements_succ, ← hc.atEnd hfg, ← hc.kind hfg]
      split
      · exact .done rfl hc
      · split
        · rename_i hk
          rw [hk] at hnext
          exact ih _ _ hnext
        · split
          · exact .fail fails_after fails_after
          · exact agrees_followedBy (agreed hfg n) ih hc

end Parser

/-! ## Programs -/

/-- Tokens and loosened ones are parsed without errors together, and to the same
program. -/
theorem parse_loosened (hfg : Token.Alike f g) {ts us : List Token} (hts : Token.EndsOnce ts)
    (hus : Token.EndsOnce us) (h : Loosened f g false ts us) :
    ((parse ts).errors = [] ↔ (parse us).errors = []) ∧
      ((parse ts).errors = [] →
        Program.relabel f (parse ts).program = Program.relabel g (parse us).program) := by
  obtain ⟨htok, hclosed⟩ := Cursor.ofTokens_spec hts
  obtain ⟨htok', hclosed'⟩ := Cursor.ofTokens_spec hus
  obtain ⟨rest, hreach⟩ := reaches_parse hclosed
  obtain ⟨rest', hreach'⟩ := reaches_parse hclosed'
  obtain ⟨n, hn, hn'⟩ := (hreach.and hreach').exists
  rw [← htok, ← htok'] at h
  have hagree := Parser.agrees_statements hfg n _ _ h
  rw [hn, hn'] at hagree
  generalize (parse ts).errors = es at hagree ⊢
  generalize (parse us).errors = es' at hagree ⊢
  cases hagree with
  | done hprogram _ => exact ⟨Iff.rfl, fun _ => hprogram⟩
  | fail hfail hfail' =>
      have hes : es ≠ [] := fun hes => hfail _ _ (by rw [hes])
      have hes' : es' ≠ [] := fun hes => hfail' _ _ (by rw [hes])
      exact ⟨⟨fun hnil => absurd hnil hes, fun hnil => absurd hnil hes'⟩,
        fun hnil => absurd hnil hes⟩

end

end Scriptlet
