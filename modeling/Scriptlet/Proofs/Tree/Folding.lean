import Scriptlet.Proofs.Token.Lexing
import Scriptlet.Tree.Canonical

/-!
# Minus signs that become part of a number

The canonical form of a minus in front of an operand that starts with a digit
is the text of a signed number. `foldSigns` is the tree with those signs put
into their numbers; where no operand of a minus starts with a digit it changes
nothing (`foldSigns_eq_self`).

`all` checks every expression and every statement of a tree. The two checks
that matter for reading canonical forms back are `Expr.keepsMinus` and
`Stmt.opensPlainly`.
-/

namespace Scriptlet

open Lexeme

/-! ## Checks -/

mutual

def Expr.all (pe : Expr → Bool) (ps : Stmt → Bool) : Expr → Bool
  | .unary op right => pe (.unary op right) && right.all pe ps
  | .binary left op right => pe (.binary left op right) && left.all pe ps && right.all pe ps
  | .conditional choice => pe (.conditional choice) && choice.all pe ps
  | .call callee opening args closing =>
      pe (.call callee opening args closing) && callee.all pe ps && Expr.allOf pe ps args
  | e => pe e

def Expr.allOf (pe : Expr → Bool) (ps : Stmt → Bool) : List Expr → Bool
  | [] => true
  | e :: es => e.all pe ps && Expr.allOf pe ps es

def Conditional.all (pe : Expr → Bool) (ps : Stmt → Bool) : Conditional → Bool
  | .mk _ condition body otherwise =>
      condition.all pe ps && body.all pe ps && otherwise.all pe ps

def Alternative.all (pe : Expr → Bool) (ps : Stmt → Bool) : Alternative → Bool
  | .absent => true
  | .block body => body.all pe ps
  | .chained next => next.all pe ps

def Block.all (pe : Expr → Bool) (ps : Stmt → Bool) : Block → Bool
  | .missing => true
  | .braces _ body _ _ => Stmt.allOf pe ps body

def Stmt.all (pe : Expr → Bool) (ps : Stmt → Bool) : Stmt → Bool
  | .missing => ps .missing
  | .binding keyword nameToken word value =>
      ps (.binding keyword nameToken word value) && value.all pe ps
  | .returning keyword value => ps (.returning keyword value) && value.all pe ps
  | .block body => ps (.block body) && body.all pe ps
  | .expr value => ps (.expr value) && value.all pe ps

def Stmt.allOf (pe : Expr → Bool) (ps : Stmt → Bool) : List Stmt → Bool
  | [] => true
  | s :: ss => s.all pe ps && Stmt.allOf pe ps ss

end

/-- Every expression and every statement of a program passes its check. -/
def Program.all (pe : Expr → Bool) (ps : Stmt → Bool) (p : Program) : Bool := Stmt.allOf pe ps p

/-- A minus whose operand's canonical form starts with a digit would become
part of a number. -/
def Expr.keepsMinus : Expr → Bool
  | .unary op right => !(op.kind = .minus && startsWithDigit right.canonical)
  | _ => true

/-- A conditional, or calls of one. -/
def Expr.opensWithIf : Expr → Bool
  | .conditional _ => true
  | .call callee _ _ _ => callee.opensWithIf
  | _ => false

/-- At the start of a statement the canonical form of a call of a conditional
would be taken for the conditional alone. -/
def Stmt.opensPlainly : Stmt → Bool
  | .expr (.call callee _ _ _) => !callee.opensWithIf
  | _ => true

/-! ## Folding -/

/-- A minus put into the number that its operand starts with. -/
def Expr.negatedBy (op : Token) : Expr → Expr
  | .integer token n => .integer token.negated (-n)
  | .float token x => .float token.negated (-x)
  | .call callee opening args closing => .call (callee.negatedBy op) opening args closing
  | e => .unary op e

mutual

def Expr.foldSigns : Expr → Expr
  | .unary op right =>
      if op.kind = .minus && startsWithDigit right.canonical then right.foldSigns.negatedBy op
      else .unary op right.foldSigns
  | .binary left op right => .binary left.foldSigns op right.foldSigns
  | .conditional choice => .conditional choice.foldSigns
  | .call callee opening args closing =>
      .call callee.foldSigns opening (Expr.foldSignsAll args) closing
  | e => e

def Expr.foldSignsAll : List Expr → List Expr
  | [] => []
  | e :: es => e.foldSigns :: Expr.foldSignsAll es

def Conditional.foldSigns : Conditional → Conditional
  | .mk keyword condition body otherwise =>
      .mk keyword condition.foldSigns body.foldSigns otherwise.foldSigns

def Alternative.foldSigns : Alternative → Alternative
  | .absent => .absent
  | .block body => .block body.foldSigns
  | .chained next => .chained next.foldSigns

def Block.foldSigns : Block → Block
  | .missing => .missing
  | .braces opening body closing empty => .braces opening (Stmt.foldSignsAll body) closing empty

def Stmt.foldSigns : Stmt → Stmt
  | .missing => .missing
  | .binding keyword nameToken word value => .binding keyword nameToken word value.foldSigns
  | .returning keyword value => .returning keyword value.foldSigns
  | .block body => .block body.foldSigns
  | .expr value => .expr value.foldSigns

def Stmt.foldSignsAll : List Stmt → List Stmt
  | [] => []
  | s :: ss => s.foldSigns :: Stmt.foldSignsAll ss

end

def Program.foldSigns (p : Program) : Program := Stmt.foldSignsAll p

theorem Stmt.isEmpty_foldSignsAll (ss : List Stmt) :
    (Stmt.foldSignsAll ss).isEmpty = ss.isEmpty := by
  cases ss <;> simp [Stmt.foldSignsAll]

/-! ## Nothing to fold -/

mutual

theorem Expr.foldSigns_eq_self {ps : Stmt → Bool} :
    ∀ {e : Expr}, e.all Expr.keepsMinus ps = true → e.foldSigns = e
  | .unary op right, h => by
      rw [Expr.all, Bool.and_eq_true] at h
      have hkeeps : (op.kind = .minus && startsWithDigit right.canonical) = false := by
        simpa only [Expr.keepsMinus, Bool.not_eq_true'] using h.1
      rw [Expr.foldSigns, hkeeps, Expr.foldSigns_eq_self h.2]
      rfl
  | .binary left op right, h => by
      rw [Expr.all, Bool.and_eq_true, Bool.and_eq_true] at h
      rw [Expr.foldSigns, Expr.foldSigns_eq_self h.1.2, Expr.foldSigns_eq_self h.2]
  | .conditional choice, h => by
      rw [Expr.all, Bool.and_eq_true] at h
      rw [Expr.foldSigns, Conditional.foldSigns_eq_self h.2]
  | .call callee opening args closing, h => by
      rw [Expr.all, Bool.and_eq_true, Bool.and_eq_true] at h
      rw [Expr.foldSigns, Expr.foldSigns_eq_self h.1.2, Expr.foldSignsAll_eq_self h.2]
  | .missing, _ => by simp only [Expr.foldSigns]
  | .name _ _, _ => by simp only [Expr.foldSigns]
  | .integer _ _, _ => by simp only [Expr.foldSigns]
  | .float _ _, _ => by simp only [Expr.foldSigns]
  | .boolean _ _, _ => by simp only [Expr.foldSigns]
  | .string _ _, _ => by simp only [Expr.foldSigns]

theorem Expr.foldSignsAll_eq_self {ps : Stmt → Bool} :
    ∀ {es : List Expr}, Expr.allOf Expr.keepsMinus ps es = true → Expr.foldSignsAll es = es
  | [], _ => by rw [Expr.foldSignsAll]
  | e :: es, h => by
      rw [Expr.allOf, Bool.and_eq_true] at h
      rw [Expr.foldSignsAll, Expr.foldSigns_eq_self h.1, Expr.foldSignsAll_eq_self h.2]

theorem Conditional.foldSigns_eq_self {ps : Stmt → Bool} :
    ∀ {c : Conditional}, c.all Expr.keepsMinus ps = true → c.foldSigns = c
  | .mk keyword condition body otherwise, h => by
      rw [Conditional.all, Bool.and_eq_true, Bool.and_eq_true] at h
      rw [Conditional.foldSigns, Expr.foldSigns_eq_self h.1.1, Block.foldSigns_eq_self h.1.2,
        Alternative.foldSigns_eq_self h.2]

theorem Alternative.foldSigns_eq_self {ps : Stmt → Bool} :
    ∀ {a : Alternative}, a.all Expr.keepsMinus ps = true → a.foldSigns = a
  | .absent, _ => by rw [Alternative.foldSigns]
  | .block body, h => by
      rw [Alternative.all] at h
      rw [Alternative.foldSigns, Block.foldSigns_eq_self h]
  | .chained next, h => by
      rw [Alternative.all] at h
      rw [Alternative.foldSigns, Conditional.foldSigns_eq_self h]

theorem Block.foldSigns_eq_self {ps : Stmt → Bool} :
    ∀ {b : Block}, b.all Expr.keepsMinus ps = true → b.foldSigns = b
  | .missing, _ => by rw [Block.foldSigns]
  | .braces opening body closing empty, h => by
      rw [Block.all] at h
      rw [Block.foldSigns, Stmt.foldSignsAll_eq_self h]

theorem Stmt.foldSigns_eq_self {ps : Stmt → Bool} :
    ∀ {s : Stmt}, s.all Expr.keepsMinus ps = true → s.foldSigns = s
  | .missing, _ => by rw [Stmt.foldSigns]
  | .binding keyword nameToken word value, h => by
      rw [Stmt.all, Bool.and_eq_true] at h
      rw [Stmt.foldSigns, Expr.foldSigns_eq_self h.2]
  | .returning keyword value, h => by
      rw [Stmt.all, Bool.and_eq_true] at h
      rw [Stmt.foldSigns, Expr.foldSigns_eq_self h.2]
  | .block body, h => by
      rw [Stmt.all, Bool.and_eq_true] at h
      rw [Stmt.foldSigns, Block.foldSigns_eq_self h.2]
  | .expr value, h => by
      rw [Stmt.all, Bool.and_eq_true] at h
      rw [Stmt.foldSigns, Expr.foldSigns_eq_self h.2]

theorem Stmt.foldSignsAll_eq_self {ps : Stmt → Bool} :
    ∀ {ss : List Stmt}, Stmt.allOf Expr.keepsMinus ps ss = true → Stmt.foldSignsAll ss = ss
  | [], _ => by rw [Stmt.foldSignsAll]
  | s :: ss, h => by
      rw [Stmt.allOf, Bool.and_eq_true] at h
      rw [Stmt.foldSignsAll, Stmt.foldSigns_eq_self h.1, Stmt.foldSignsAll_eq_self h.2]

end

end Scriptlet
