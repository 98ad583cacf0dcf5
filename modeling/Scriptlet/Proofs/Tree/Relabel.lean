import Scriptlet.Tree.Canonical

/-!
# Trees with other tokens

`relabel f` puts `f t` in the place of every token `t` of a tree and leaves
values, names and shapes as they are. Of the tokens in a tree the canonical form
shows the lexemes only, so it does not change when these stay as they are
(`Program.canonical_relabel`).
-/

namespace Scriptlet

mutual

def Expr.relabel (f : Token → Token) : Expr → Expr
  | .missing => .missing
  | .name token word => .name (f token) word
  | .integer token value => .integer (f token) value
  | .float token value => .float (f token) value
  | .boolean token value => .boolean (f token) value
  | .string token value => .string (f token) value
  | .unary op right => .unary (f op) (right.relabel f)
  | .binary left op right => .binary (left.relabel f) (f op) (right.relabel f)
  | .conditional choice => .conditional (choice.relabel f)
  | .call callee opening args closing =>
      .call (callee.relabel f) (f opening) (Expr.relabelAll f args) (f closing)

def Expr.relabelAll (f : Token → Token) : List Expr → List Expr
  | [] => []
  | e :: es => e.relabel f :: Expr.relabelAll f es

def Conditional.relabel (f : Token → Token) : Conditional → Conditional
  | .mk keyword condition body otherwise =>
      .mk (f keyword) (condition.relabel f) (body.relabel f) (otherwise.relabel f)

def Alternative.relabel (f : Token → Token) : Alternative → Alternative
  | .absent => .absent
  | .block body => .block (body.relabel f)
  | .chained next => .chained (next.relabel f)

def Block.relabel (f : Token → Token) : Block → Block
  | .missing => .missing
  | .braces opening body closing empty =>
      .braces (f opening) (Stmt.relabelAll f body) (f closing) empty

def Stmt.relabel (f : Token → Token) : Stmt → Stmt
  | .missing => .missing
  | .binding keyword nameToken word value =>
      .binding (f keyword) (f nameToken) word (value.relabel f)
  | .returning keyword value => .returning (f keyword) (value.relabel f)
  | .block body => .block (body.relabel f)
  | .expr value => .expr (value.relabel f)

def Stmt.relabelAll (f : Token → Token) : List Stmt → List Stmt
  | [] => []
  | s :: ss => s.relabel f :: Stmt.relabelAll f ss

end

def Program.relabel (f : Token → Token) (p : Program) : Program := Stmt.relabelAll f p

theorem Stmt.isEmpty_relabelAll (f : Token → Token) (ss : List Stmt) :
    (Stmt.relabelAll f ss).isEmpty = ss.isEmpty := by
  cases ss <;> simp [Stmt.relabelAll]

/-! ## The same tokens -/

mutual

theorem Expr.relabel_id : ∀ e : Expr, e.relabel id = e
  | .missing | .name _ _ | .integer _ _ | .float _ _ | .boolean _ _ | .string _ _ => rfl
  | .unary op right => by rw [Expr.relabel, Expr.relabel_id right, id]
  | .binary left op right => by
      rw [Expr.relabel, Expr.relabel_id left, Expr.relabel_id right, id]
  | .conditional choice => by rw [Expr.relabel, Conditional.relabel_id choice]
  | .call callee opening args closing => by
      rw [Expr.relabel, Expr.relabel_id callee, Expr.relabelAll_id args, id, id]

theorem Expr.relabelAll_id : ∀ es : List Expr, Expr.relabelAll id es = es
  | [] => rfl
  | e :: es => by rw [Expr.relabelAll, Expr.relabel_id e, Expr.relabelAll_id es]

theorem Conditional.relabel_id : ∀ c : Conditional, c.relabel id = c
  | .mk keyword condition body otherwise => by
      rw [Conditional.relabel, Expr.relabel_id condition, Block.relabel_id body,
        Alternative.relabel_id otherwise, id]

theorem Alternative.relabel_id : ∀ a : Alternative, a.relabel id = a
  | .absent => rfl
  | .block body => by rw [Alternative.relabel, Block.relabel_id body]
  | .chained next => by rw [Alternative.relabel, Conditional.relabel_id next]

theorem Block.relabel_id : ∀ b : Block, b.relabel id = b
  | .missing => rfl
  | .braces opening body closing empty => by
      rw [Block.relabel, Stmt.relabelAll_id body, id, id]

theorem Stmt.relabel_id : ∀ s : Stmt, s.relabel id = s
  | .missing => rfl
  | .binding keyword nameToken word value => by
      rw [Stmt.relabel, Expr.relabel_id value, id, id]
  | .returning keyword value => by rw [Stmt.relabel, Expr.relabel_id value, id]
  | .block body => by rw [Stmt.relabel, Block.relabel_id body]
  | .expr value => by rw [Stmt.relabel, Expr.relabel_id value]

theorem Stmt.relabelAll_id : ∀ ss : List Stmt, Stmt.relabelAll id ss = ss
  | [] => rfl
  | s :: ss => by rw [Stmt.relabelAll, Stmt.relabel_id s, Stmt.relabelAll_id ss]

end

/-! ## Canonical form -/

section

variable {f : Token → Token}

theorem Expr.terminator_relabel (f : Token → Token) (e : Expr) :
    (e.relabel f).terminator = e.terminator := by
  cases e <;> rfl

mutual

theorem Expr.canonical_relabel (hf : ∀ t, (f t).lexeme = t.lexeme) :
    ∀ e : Expr, (e.relabel f).canonical = e.canonical
  | .missing | .name _ _ | .string _ _ => rfl
  | .integer t _ | .float t _ | .boolean t _ => hf t
  | .unary op right => by
      rw [Expr.relabel, Expr.canonical, Expr.canonical, hf, Expr.canonical_relabel hf right]
  | .binary left op right => by
      rw [Expr.relabel, Expr.canonical, Expr.canonical, hf, Expr.canonical_relabel hf left,
        Expr.canonical_relabel hf right]
  | .conditional choice => by
      rw [Expr.relabel, Expr.canonical, Expr.canonical, Conditional.canonical_relabel hf choice]
  | .call callee _ args _ => by
      rw [Expr.relabel, Expr.canonical, Expr.canonical, Expr.canonical_relabel hf callee,
        Expr.canonicalArgs_relabel hf args]

theorem Expr.canonicalArgs_relabel (hf : ∀ t, (f t).lexeme = t.lexeme) :
    ∀ es : List Expr, Expr.canonicalArgs (Expr.relabelAll f es) = Expr.canonicalArgs es
  | [] => rfl
  | [e] => Expr.canonical_relabel hf e
  | e :: e' :: es => by
      have hrest := Expr.canonicalArgs_relabel hf (e' :: es)
      rw [Expr.relabelAll] at hrest
      rw [Expr.relabelAll, Expr.relabelAll, Expr.canonicalArgs, Expr.canonicalArgs,
        Expr.canonical_relabel hf e, hrest]

theorem Conditional.canonical_relabel (hf : ∀ t, (f t).lexeme = t.lexeme) :
    ∀ c : Conditional, (c.relabel f).canonical = c.canonical
  | .mk _ condition body otherwise => by
      rw [Conditional.relabel, Conditional.canonical, Conditional.canonical,
        Expr.canonical_relabel hf condition, Block.canonical_relabel hf body,
        Alternative.canonical_relabel hf otherwise]

theorem Alternative.canonical_relabel (hf : ∀ t, (f t).lexeme = t.lexeme) :
    ∀ a : Alternative, (a.relabel f).canonical = a.canonical
  | .absent => rfl
  | .block body => by
      rw [Alternative.relabel, Alternative.canonical, Alternative.canonical,
        Block.canonical_relabel hf body]
  | .chained next => by
      rw [Alternative.relabel, Alternative.canonical, Alternative.canonical,
        Conditional.canonical_relabel hf next]

theorem Block.canonical_relabel (hf : ∀ t, (f t).lexeme = t.lexeme) :
    ∀ b : Block, (b.relabel f).canonical = b.canonical
  | .missing => rfl
  | .braces _ body _ empty => by
      rw [Block.relabel, Block.canonical, Block.canonical, Stmt.canonicalBody_relabel hf body]

theorem Stmt.canonical_relabel (hf : ∀ t, (f t).lexeme = t.lexeme) :
    ∀ s : Stmt, (s.relabel f).canonical = s.canonical
  | .missing => rfl
  | .binding _ _ word value => by
      rw [Stmt.relabel, Stmt.canonical, Stmt.canonical, Expr.canonical_relabel hf value]
  | .returning _ value => by
      -- a bare return is told by the shape of its value, which stays
      have hvalue := Expr.canonical_relabel hf value
      cases value <;> simp_all [Stmt.relabel, Stmt.canonical, Expr.relabel]
  | .block body => by
      rw [Stmt.relabel, Stmt.canonical, Stmt.canonical, Block.canonical_relabel hf body]
  | .expr value => by
      rw [Stmt.relabel, Stmt.canonical, Stmt.canonical, Expr.canonical_relabel hf value,
        Expr.terminator_relabel]

theorem Stmt.canonicalBody_relabel (hf : ∀ t, (f t).lexeme = t.lexeme) :
    ∀ ss : List Stmt, Stmt.canonicalBody (Stmt.relabelAll f ss) = Stmt.canonicalBody ss
  | [] => rfl
  | s :: ss => by
      rw [Stmt.relabelAll, Stmt.canonicalBody, Stmt.canonicalBody, Stmt.canonical_relabel hf s,
        Stmt.canonicalBody_relabel hf ss]

end

theorem Program.canonical_relabel (hf : ∀ t, (f t).lexeme = t.lexeme) (p : Program) :
    (p.relabel f).canonical = p.canonical := by
  have hmap : (p.relabel f).map Stmt.canonical = p.map Stmt.canonical := by
    induction p with
    | nil => rfl
    | cons s ss ih =>
        rw [Program.relabel, Stmt.relabelAll, List.map_cons, List.map_cons,
          Stmt.canonical_relabel hf s]
        exact congrArg _ ih
  rw [Program.canonical, Program.canonical, hmap]

end

end Scriptlet
