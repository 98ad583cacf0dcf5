import Scriptlet.Proofs.Tree.Legible

/-!
# Canonical forms are unambiguous

Two legible programs with the same canonical form are the same but for the
places of their tokens (`Program.eq_of_canonical`). Each part of a tree can be
read off the text it stands at the head of, and the text behind it is then known
too; the induction is on the length of the canonical form (`UniqueBelow`).

Three things in the text need more than its next token. Calls are written
behind what they call, so an expression is compared as what is called in the
end and the arguments of each call (`Expr.head`, `Expr.argLists`). An opening
parenthesis starts a unary or a binary expression, and a minus behind it may be
the operator of the one or belong to the first number of the other: what comes
behind the operand tells (`not_unary_binary`). And whether a conditional goes
on with an alternative is told by the keyword, which nothing else that may
follow begins with (`Borders`).
-/

namespace Scriptlet

open Phrase (operatorsAt)

/-! ## What follows -/

/-- In front of such a text a conditional ends. -/
structure Borders (r : Text) : Prop where
  delimits : Delimits r
  noElse : ¬ text " else " <+: r

/-- In front of such a text an expression ends: nothing is called. -/
structure Follows (r : Text) : Prop extends Borders r where
  noCall : ¬ text "(" <+: r

theorem follows_nil : Follows [] := ⟨⟨delimits_nil, by decide⟩, by decide⟩

theorem follows_append {w : Text} (hw : ∃ c ∈ text "),;\n", w.head? = some c) (rest : Text) :
    Follows (w ++ rest) := by
  have hdelimiters : ∀ c ∈ text "),;\n",
      (delimiters.contains c && (c != 0x20 && c != 0x28)) = true := List.all_eq_true.mp rfl
  obtain ⟨c, hc, hhead⟩ := hw
  obtain ⟨s, rfl⟩ := List.head?_eq_some_iff.mp hhead
  obtain ⟨hmem, hblank, hparen⟩ : c ∈ delimiters ∧ c ≠ 0x20 ∧ c ≠ 0x28 := by
    simpa using hdelimiters c hc
  refine ⟨⟨delimits_append ⟨c, hmem, rfl⟩ rest, ?_⟩, ?_⟩
  · intro hprefix
    exact hblank (List.cons_prefix_cons.mp hprefix).1.symm
  · intro hprefix
    exact hparen (List.cons_prefix_cons.mp hprefix).1.symm

theorem not_else_of_opens {s : Text} {t : Token} (h : Opens s t) (hk : t.kind ≠ .else_) :
    ¬ text "else " <+: s := by
  rintro ⟨r, rfl⟩
  have helse : Opens (text "else " ++ r) (.ofKind .else_) :=
    opens_spelt (r := text " " ++ r) ⟨Token.legible_ofKind rfl, rfl⟩ rfl
      (Delimits.leaves (delimits_append (by decide) r) _)
  exact hk (Token.erase_eq_iff.mp (h.erase_eq helse)).1

/-- A blank and a token that is no `else`. -/
theorem follows_blank {s : Text} {t : Token} (h : Opens s t) (hk : t.kind ≠ .else_) :
    Follows (text " " ++ s) := by
  refine ⟨⟨delimits_append (by decide) s, ?_⟩, ?_⟩
  · intro hprefix
    exact not_else_of_opens h hk (List.cons_prefix_cons.mp hprefix).2
  · intro hprefix
    exact absurd (List.cons_prefix_cons.mp hprefix).1 (by decide)

/-! ## What is to be shown -/

/-- The expression can be read off any text that its canonical form is at the
head of. -/
def Expr.Unique : Expr → Prop :=
  ReadsOff Expr.canonical (Expr.relabel .erase) Expr.Legible Follows

def Conditional.Unique : Conditional → Prop :=
  ReadsOff Conditional.canonical (Conditional.relabel .erase) Conditional.Legible Borders

def Block.Unique : Block → Prop :=
  ReadsOff Block.canonical (Block.relabel .erase) Block.Legible fun _ => True

def Stmt.Unique : Stmt → Prop :=
  ReadsOff Stmt.canonical (Stmt.relabel .erase) Stmt.Legible Follows

structure UniqueBelow (n : Nat) : Prop where
  expr : ∀ {e : Expr}, e.canonical.length < n → e.Legible → e.Unique
  conditional : ∀ {c : Conditional}, c.canonical.length < n → c.Legible → c.Unique
  block : ∀ {b : Block}, b.canonical.length < n → b.Legible → b.Unique
  stmt : ∀ {s : Stmt}, s.canonical.length < n → s.Legible → s.Unique

/-! ## Arguments -/

/-- What is written behind an argument, in front of the others. -/
def Expr.canonicalMore : List Expr → Text
  | [] => []
  | e :: es => text ", " ++ Expr.canonicalArgs (e :: es)

theorem Expr.canonicalArgs_cons (e : Expr) (es : List Expr) :
    Expr.canonicalArgs (e :: es) = e.canonical ++ Expr.canonicalMore es := by
  cases es with
  | nil => exact (List.append_nil _).symm
  | cons e' es => rw [Expr.canonicalArgs, Expr.canonicalMore, List.append_assoc]

/-- Something closed by a parenthesis. -/
abbrev AtParen (r : Text) : Prop := text ")" <+: r

theorem follows_more (es : List Expr) {r : Text} (hr : AtParen r) :
    Follows (Expr.canonicalMore es ++ r) := by
  cases es with
  | nil =>
      obtain ⟨s, rfl⟩ := hr
      exact follows_append (by decide) s
  | cons e es =>
      rw [Expr.canonicalMore, List.append_assoc]
      exact follows_append (by decide) _

theorem Expr.args_ne_paren {e : Expr} (he : e.Legible) (es : List Expr) {r r' : Text}
    (hr : AtParen r) : r ≠ Expr.canonicalArgs (e :: es) ++ r' := by
  obtain ⟨s, rfl⟩ := hr
  obtain ⟨c, s', hcanonical, hc⟩ := he.canonical_cons
  rw [Expr.canonicalArgs_cons, hcanonical]
  intro h
  obtain rfl : 0x29 = c := (List.cons.inj h).1
  cases hc

def Expr.UniqueArgs : List Expr → Prop :=
  ReadsOff Expr.canonicalArgs (Expr.relabelAll .erase) Expr.LegibleAll AtParen

theorem Expr.uniqueArgs : ∀ {es : List Expr}, Expr.LegibleAll es → (∀ e ∈ es, e.Unique) →
    Expr.UniqueArgs es
  | [], _, _, [], r, r', _, _, _, h => ⟨rfl, h⟩
  | [], _, _, e' :: es', r, r', hes', hr, _, h => by
      rw [Expr.LegibleAll] at hes'
      exact absurd h (Expr.args_ne_paren hes'.1 es' hr)
  | e :: es, hes, _, [], r, r', _, _, hr', h => by
      rw [Expr.LegibleAll] at hes
      exact absurd h.symm (Expr.args_ne_paren hes.1 es hr')
  | e :: es, hes, hunique, e' :: es', r, r', hes', hr, hr', h => by
      rw [Expr.LegibleAll] at hes hes'
      obtain ⟨he, hrest⟩ := List.forall_mem_cons.mp hunique
      rw [Expr.canonicalArgs_cons, Expr.canonicalArgs_cons, List.append_assoc,
        List.append_assoc] at h
      obtain ⟨hsame, hmore⟩ := he hes'.1 (follows_more es hr) (follows_more es' hr') h
      rw [Expr.relabelAll, Expr.relabelAll, hsame]
      cases es with
      | nil =>
          cases es' with
          | nil => exact ⟨rfl, hmore⟩
          | cons =>
              obtain ⟨s, rfl⟩ := hr
              exact absurd (List.cons.inj hmore).1 (by decide)
      | cons e₁ es =>
          cases es' with
          | nil =>
              obtain ⟨s, rfl⟩ := hr'
              exact absurd (List.cons.inj hmore).1 (by decide)
          | cons e₁' es' =>
              rw [Expr.canonicalMore, Expr.canonicalMore, List.append_assoc,
                List.append_assoc] at hmore
              obtain ⟨hargs, hr⟩ := Expr.uniqueArgs hes.2 hrest hes'.2 hr hr'
                (List.append_cancel_left hmore)
              exact ⟨congrArg _ hargs, hr⟩

/-! ## Calls -/

def Expr.isCall : Expr → Bool
  | .call _ _ _ _ => true
  | _ => false

/-- What is called in the end, past the calls of calls. -/
def Expr.head : Expr → Expr
  | .call callee _ _ _ => callee.head
  | e => e

/-- The arguments of each call, those of the first call first. -/
def Expr.argLists : Expr → List (List Expr)
  | .call callee _ args _ => callee.argLists ++ [args]
  | _ => []

def Expr.canonicalCalls : List (List Expr) → Text
  | [] => []
  | args :: calls =>
      text "(" ++ (Expr.canonicalArgs args ++ (text ")" ++ Expr.canonicalCalls calls))

/-- A call that stands nowhere. -/
def Expr.called (callee : Expr) (args : List Expr) : Expr :=
  .call callee (.ofKind .openParen) args (.ofKind .closeParen)

theorem Expr.canonicalCalls_append (calls calls' : List (List Expr)) :
    Expr.canonicalCalls (calls ++ calls') =
      Expr.canonicalCalls calls ++ Expr.canonicalCalls calls' := by
  induction calls with
  | nil => rfl
  | cons args calls ih =>
      rw [List.cons_append, Expr.canonicalCalls, Expr.canonicalCalls, ih]
      simp only [List.append_assoc]

theorem Expr.canonical_eq_calls : ∀ e : Expr,
    e.canonical = e.head.canonical ++ Expr.canonicalCalls e.argLists
  | .call callee opening args closing => by
      rw [Expr.canonical, Expr.head, Expr.argLists, Expr.canonicalCalls_append,
        Expr.canonical_eq_calls callee]
      simp only [Expr.canonicalCalls, List.append_assoc, List.append_nil]
  | .missing | .name _ _ | .integer _ _ | .float _ _ | .boolean _ _ | .string _ _ | .unary _ _
  | .binary _ _ _ | .conditional _ => (List.append_nil _).symm

theorem Expr.isCall_head : ∀ e : Expr, e.head.isCall = false
  | .call callee _ _ _ => Expr.isCall_head callee
  | .missing | .name _ _ | .integer _ _ | .float _ _ | .boolean _ _ | .string _ _ | .unary _ _
  | .binary _ _ _ | .conditional _ => rfl

theorem Expr.Legible.head : ∀ {e : Expr}, e.Legible → e.head.Legible
  | .call _ _ _ _, h => by
      rw [Expr.Legible] at h
      exact h.1.head
  | .missing, h | .name _ _, h | .integer _ _, h | .float _ _, h | .boolean _ _, h
  | .string _ _, h | .unary _ _, h | .binary _ _ _, h | .conditional _, h => h

theorem Expr.Legible.argLists : ∀ {e : Expr}, e.Legible → ∀ args ∈ e.argLists,
    Expr.LegibleAll args
  | .call callee _ args _, h => by
      rw [Expr.Legible] at h
      rw [Expr.argLists, List.forall_mem_append, List.forall_mem_singleton]
      exact ⟨h.1.argLists, h.2.2.1⟩
  | .missing, _ | .name _ _, _ | .integer _ _, _ | .float _ _, _ | .boolean _ _, _
  | .string _ _, _ | .unary _ _, _ | .binary _ _ _, _ | .conditional _, _ =>
      List.forall_mem_nil _

theorem Expr.Legible.relabel_eq_calls : ∀ {e : Expr}, e.Legible →
    e.relabel .erase
      = (e.argLists.map (Expr.relabelAll .erase)).foldl Expr.called (e.head.relabel .erase)
  | .call callee opening args closing, h => by
      rw [Expr.Legible] at h
      rw [Expr.relabel, Expr.argLists, List.map_append, List.foldl_append, Expr.head,
        ← h.1.relabel_eq_calls, h.2.1.erase_eq rfl, h.2.2.2.erase_eq rfl]
      rfl
  | .missing, _ | .name _ _, _ | .integer _ _, _ | .float _ _, _ | .boolean _ _, _
  | .string _ _, _ | .unary _ _, _ | .binary _ _ _, _ | .conditional _, _ => rfl

theorem uniqueCalls : ∀ {calls : List (List Expr)}, (∀ args ∈ calls, Expr.UniqueArgs args) →
    ReadsOff Expr.canonicalCalls (List.map (Expr.relabelAll .erase))
      (fun calls => ∀ args ∈ calls, Expr.LegibleAll args) (fun r => ¬ text "(" <+: r) calls
  | [], _, [], _, _, _, _, _, h => ⟨rfl, h⟩
  | [], _, _ :: _, r, _, _, hr, _, h => by
      refine absurd ?_ hr
      rw [show r = _ from h, Expr.canonicalCalls, List.append_assoc]
      exact List.prefix_append _ _
  | _ :: _, _, [], _, r', _, _, hr', h => by
      refine absurd ?_ hr'
      rw [show r' = _ from h.symm, Expr.canonicalCalls, List.append_assoc]
      exact List.prefix_append _ _
  | args :: calls, hunique, args' :: calls', r, r', hlegible, hr, hr', h => by
      rw [List.forall_mem_cons] at hunique hlegible
      simp only [Expr.canonicalCalls, List.append_assoc] at h
      obtain ⟨hargs, hrest⟩ := hunique.1 hlegible.1 (List.prefix_append _ _)
        (List.prefix_append _ _) (List.append_cancel_left h)
      obtain ⟨hcalls, hr⟩ := uniqueCalls hunique.2 hlegible.2 hr hr' (List.append_cancel_left hrest)
      exact ⟨by rw [List.map_cons, List.map_cons, hargs, hcalls], hr⟩

theorem Borders.calls {r : Text} (h : Borders r) (calls : List (List Expr)) :
    Borders (Expr.canonicalCalls calls ++ r) := by
  cases calls with
  | nil => exact h
  | cons args calls =>
      rw [Expr.canonicalCalls, List.append_assoc]
      refine ⟨delimits_append (by decide) _, fun hprefix => ?_⟩
      exact absurd (List.cons_prefix_cons.mp hprefix).1 (by decide)

/-- Arguments are shorter than what they belong to. -/
theorem Expr.length_canonicalArgs_lt : ∀ {e : Expr} {args : List Expr}, args ∈ e.argLists →
    (Expr.canonicalArgs args).length < e.canonical.length := by
  intro e args hargs
  have hcalls : ∀ {calls : List (List Expr)}, args ∈ calls →
      (Expr.canonicalArgs args).length < (Expr.canonicalCalls calls).length := by
    intro calls hmem
    obtain ⟨before, behind, rfl⟩ := List.append_of_mem hmem
    rw [Expr.canonicalCalls_append, Expr.canonicalCalls]
    simp only [List.length_append, show (text "(").length = 1 from rfl]
    omega
  rw [Expr.canonical_eq_calls e, List.length_append]
  exact Nat.lt_of_lt_of_le (hcalls hargs) (Nat.le_add_left _ _)

theorem Expr.length_canonical_le {e : Expr} {es : List Expr} (he : e ∈ es) :
    e.canonical.length ≤ (Expr.canonicalArgs es).length := by
  induction es with
  | nil => cases he
  | cons e' es ih =>
      rw [Expr.canonicalArgs_cons, List.length_append]
      rcases List.mem_cons.mp he with rfl | he
      · exact Nat.le_add_right _ _
      · refine Nat.le_trans (ih he) (Nat.le_trans ?_ (Nat.le_add_left _ _))
        cases es with
        | nil => cases he
        | cons =>
            rw [Expr.canonicalMore, List.length_append]
            exact Nat.le_add_left _ _

/-! ## What is called in the end -/

/-- An operand of one token that starts with a minus is a number. -/
theorem Token.Legible.isNumber_of_minus {t : Token} (ht : t.Legible) (hk : t.kind ∈ operandKinds)
    {s : Text} (h : t.written = Byte.minus :: s) : t.isNumber = true := by
  have hread := ht.reads [] (leaves_nil _)
  rw [List.append_nil, h] at hread
  have hkind : (Lexeme.read (Byte.minus :: s)).kind = t.kind := by rw [hread]
  cases hdigit : Lexeme.startsWithDigit s with
  | true =>
      rw [Lexeme.read_minus hdigit, Lexeme.number_eq] at hkind
      rw [isNumber, ← hkind]
      dsimp only [Lexeme.plain]
      split <;> rfl
  | false =>
      rw [Lexeme.read, if_neg (by decide), if_neg (by simp [hdigit]; decide),
        if_neg (by decide)] at hkind
      rw [← hkind] at hk
      exact absurd hk (symbol_not_operand _)

/-- A minus that the canonical form starts with can be left out. -/
theorem Expr.Legible.unsigned : ∀ {e : Expr}, e.Legible → ∀ {s : Text},
    e.canonical = Byte.minus :: s → ∃ u : Expr, u.Legible ∧ u.canonical = s
  | .call callee opening args closing, h, s, hs => by
      rw [Expr.Legible] at h
      obtain ⟨c, w, hcallee, -⟩ := h.1.canonical_cons
      simp only [Expr.canonical, hcallee, List.cons_append, List.cons.injEq] at hs
      obtain ⟨rfl, rfl⟩ := hs
      obtain ⟨u, hu, rfl⟩ := h.1.unsigned hcallee
      exact ⟨.call u opening args closing, ⟨hu, h.2⟩, by rw [Expr.canonical]⟩
  | .unary _ _, _, _, hs | .binary _ _ _, _, _, hs | .conditional (.mk _ _ _ _), _, _, hs => by
      simp only [Expr.canonical, Conditional.canonical, List.append_assoc] at hs
      exact absurd (List.cons.inj hs).1 (by decide)
  | .missing, h, _, _ => h.elim
  | .name t _, h, s, hs | .integer t _, h, s, hs | .float t _, h, s, hs | .boolean t _, h, s, hs
  | .string t _, h, s, hs => by
      rw [Expr.Legible] at h
      have hk : t.kind ∈ operandKinds := Expr.mem_operandKinds h.2 (by simp)
      rw [← h.2, Expr.canonical_ofToken hk] at hs
      have hnumber := h.1.isNumber_of_minus hk hs
      have hlexeme : t.lexeme = Byte.minus :: s := (Token.written_of_isNumber hnumber).symm.trans hs
      have hsigned : Cursor.isSignedNumber t = true := by
        simpa [Cursor.isSignedNumber, Token.isNumber, hlexeme] using hnumber
      refine ⟨Expr.ofToken (Cursor.unsignedOf t),
        Expr.legible_ofToken (Token.legible_unsignedOf hsigned h.1) hk, ?_⟩
      rw [Expr.canonical_ofToken (t := Cursor.unsignedOf t) hk,
        Token.written_of_isNumber (t := Cursor.unsignedOf t) hnumber, Cursor.unsignedOf, hlexeme,
        List.tail_cons]

/-- Between parentheses stands a unary or a binary expression, never both. -/
theorem not_unary_binary {op : Token} {left right : Expr} {r s : Text}
    (hop : op.LegibleAs .not ∨ op.LegibleAs .minus) (hright : right.Legible) (hleft : left.Legible)
    (hs : Follows (text " " ++ s)) (hunique : right.Unique ∨
      ∀ u : Expr, u.Legible → u.canonical.length < left.canonical.length → u.Unique) :
    op.lexeme ++ (right.canonical ++ (text ")" ++ r)) ≠ left.canonical ++ (text " " ++ s) := by
  intro h
  obtain ⟨c, w, hcanonical, hc⟩ := hleft.canonical_cons
  have hclose : Follows (text ")" ++ r) := follows_append (by decide) r
  rcases hop with hop | hop
  · rw [hop.1.spelt (by rw [hop.2]; rfl), hop.2, hcanonical] at h
    obtain rfl : 0x21 = c := (List.cons.inj h).1
    cases hc
  · -- the minus belongs to a number; without it the two operands start the same
    rw [hop.1.spelt (by rw [hop.2]; rfl), hop.2, hcanonical] at h
    obtain ⟨rfl, htail⟩ : Byte.minus = c ∧
        right.canonical ++ (text ")" ++ r) = w ++ (text " " ++ s) :=
      List.cons.inj h
    obtain ⟨u, hu, rfl⟩ := hleft.unsigned hcanonical
    have hrest : text ")" ++ r = text " " ++ s := by
      rcases hunique with hunique | hunique
      · exact (hunique hu hclose hs htail).2
      · have hlength : u.canonical.length < left.canonical.length := by
          rw [hcanonical]
          exact Nat.lt_succ_self _
        exact (hunique u hu hlength hright hs hclose htail.symm).2.symm
    exact absurd (List.cons.inj hrest).1 (by decide)

/-- The opener tells the operands of one token, ... -/
theorem Expr.Legible.eq_ofToken {e : Expr} (h : e.Legible) (hcall : e.isCall = false)
    (hk : e.opener.kind ∈ operandKinds) : e = Expr.ofToken e.opener := by
  rcases h.shape with ⟨t, -, ht, rfl⟩ | ⟨op, right, rfl⟩ | ⟨left, op, right, rfl⟩ |
    ⟨⟨keyword, condition, body, otherwise⟩, rfl⟩ | ⟨callee, opening, args, closing, rfl⟩
  · rw [Expr.opener_ofToken ht]
  · simp [Expr.opener, Token.ofKind, operandKinds] at hk
  · simp [Expr.opener, Token.ofKind, operandKinds] at hk
  · rw [Expr.Legible, Conditional.Legible] at h
    simp [Expr.opener, h.1.2, operandKinds] at hk
  · cases hcall

/-- ... the expressions in parentheses ... -/
theorem Expr.Legible.grouped {e : Expr} (h : e.Legible) (hcall : e.isCall = false)
    (hk : e.opener.kind = .openParen) :
    (∃ op right, e = .unary op right) ∨ ∃ left op right, e = .binary left op right := by
  rcases h.shape with ⟨t, -, ht, rfl⟩ | hunary | hbinary |
    ⟨⟨keyword, condition, body, otherwise⟩, rfl⟩ | ⟨callee, opening, args, closing, rfl⟩
  · rw [Expr.opener_ofToken ht] at hk
    simp [hk, operandKinds] at ht
  · exact .inl hunary
  · exact .inr hbinary
  · rw [Expr.Legible, Conditional.Legible] at h
    simp [Expr.opener, h.1.2] at hk
  · cases hcall

/-- ... and the conditionals. -/
theorem Expr.Legible.eq_conditional {e : Expr} (h : e.Legible) (hcall : e.isCall = false)
    (hk : e.opener.kind = .if_) : ∃ choice, e = .conditional choice := by
  rcases h.shape with ⟨t, -, ht, rfl⟩ | ⟨op, right, rfl⟩ | ⟨left, op, right, rfl⟩ | hchoice |
    ⟨callee, opening, args, closing, rfl⟩
  · rw [Expr.opener_ofToken ht] at hk
    simp [hk, operandKinds] at ht
  · cases hk
  · cases hk
  · exact hchoice
  · cases hcall

def Expr.UniqueHead : Expr → Prop :=
  ReadsOff Expr.canonical (Expr.relabel .erase) (fun e => e.Legible ∧ e.isCall = false) Borders

theorem isSpelt_operator {k : Kind} {level : Nat} (h : k ∈ operatorsAt level) :
    k.isSpelt = true ∧ k ≠ .else_ := by
  have hstrength := (mem_operatorsAt.mp h).2
  cases k <;> first | exact ⟨rfl, by decide⟩ | simp [Kind.strength] at hstrength

theorem opens_operator {op : Token} (ht : op.Legible) {level : Nat}
    (hop : op.kind ∈ operatorsAt level) (s : Text) :
    Opens (op.lexeme ++ (text " " ++ s)) op := by
  have hspelt := (isSpelt_operator hop).1
  rw [ht.spelt hspelt]
  exact opens_spelt ⟨ht, rfl⟩ hspelt (Delimits.leaves (delimits_append (by decide) s) _)

/-- The operator in front of an operand is told by its only byte. -/
theorem unaryOperator_eq {op op' : Token} (hop : op.LegibleAs .not ∨ op.LegibleAs .minus)
    (hop' : op'.LegibleAs .not ∨ op'.LegibleAs .minus) {s s' : Text}
    (h : op.lexeme ++ s = op'.lexeme ++ s') : op.erase = op'.erase := by
  have hlexeme : ∀ {t : Token} {k : Kind},
      t.LegibleAs k → k.isSpelt = true → t.lexeme = k.name := by
    rintro t _ ⟨ht, rfl⟩ hk
    exact ht.spelt hk
  rcases hop with hop | hop <;> rcases hop' with hop' | hop'
  · rw [hop.erase_eq rfl, hop'.erase_eq rfl]
  · rw [hlexeme hop rfl, hlexeme hop' rfl] at h
    exact absurd (List.cons.inj h).1 (by decide)
  · rw [hlexeme hop rfl, hlexeme hop' rfl] at h
    exact absurd (List.cons.inj h).1 (by decide)
  · rw [hop.erase_eq rfl, hop'.erase_eq rfl]

section

variable {n : Nat} (ih : UniqueBelow n) {y : Expr} {r r' : Text}
include ih

theorem unique_unary {op : Token} {right : Expr}
    (hn : (Expr.unary op right).canonical.length < n + 1) (h : (Expr.unary op right).Legible)
    (hy : y.Legible)
    (hshape : (∃ op right, y = .unary op right) ∨ ∃ left op right, y = .binary left op right)
    (heq : (Expr.unary op right).canonical ++ r = y.canonical ++ r') :
    (Expr.unary op right).relabel .erase = y.relabel .erase ∧ r = r' := by
  rw [Expr.Legible] at h
  have hlength : right.canonical.length < n := by
    simp only [Expr.canonical, List.length_append, show (text "(").length = 1 from rfl] at hn
    omega
  have hunique := ih.expr hlength h.2
  rcases hshape with ⟨op', right', rfl⟩ | ⟨left', op', right', rfl⟩
  · rw [Expr.Legible] at hy
    simp only [Expr.canonical, List.append_assoc] at heq
    have hinner := List.append_cancel_left heq
    have hops := unaryOperator_eq h.1 hy.1 hinner
    rw [(Token.erase_eq_iff.mp hops).2.1] at hinner
    obtain ⟨hright, hclose⟩ := hunique hy.2 (follows_append (by decide) r)
      (follows_append (by decide) r') (List.append_cancel_left hinner)
    rw [Expr.relabel, Expr.relabel, hops, hright]
    exact ⟨rfl, List.append_cancel_left hclose⟩
  · rw [Expr.Legible] at hy
    obtain ⟨hleft, ⟨hop', level, hlevel⟩, -⟩ := hy
    simp only [Expr.canonical, List.append_assoc] at heq
    have hblank := follows_blank (opens_operator hop' hlevel (right'.canonical ++ (text ")" ++ r')))
      (isSpelt_operator hlevel).2
    exact absurd (List.append_cancel_left heq)
      (not_unary_binary h.1 h.2 hleft hblank (.inl hunique))

theorem unique_binary {left right : Expr} {op : Token}
    (hn : (Expr.binary left op right).canonical.length < n + 1)
    (h : (Expr.binary left op right).Legible) (hy : y.Legible)
    (hshape : (∃ op right, y = .unary op right) ∨ ∃ left op right, y = .binary left op right)
    (heq : (Expr.binary left op right).canonical ++ r = y.canonical ++ r') :
    (Expr.binary left op right).relabel .erase = y.relabel .erase ∧ r = r' := by
  rw [Expr.Legible] at h
  obtain ⟨hleft, ⟨hop, level, hlevel⟩, hright⟩ := h
  have hlengths : left.canonical.length < n ∧ right.canonical.length < n := by
    simp only [Expr.canonical, List.length_append, show (text "(").length = 1 from rfl] at hn
    omega
  have hblank : ∀ s, Follows (text " " ++ (op.lexeme ++ (text " " ++ s))) := fun s =>
    follows_blank (opens_operator hop hlevel s) (isSpelt_operator hlevel).2
  rcases hshape with ⟨op', right', rfl⟩ | ⟨left', op', right', rfl⟩
  · rw [Expr.Legible] at hy
    simp only [Expr.canonical, List.append_assoc] at heq
    refine absurd (List.append_cancel_left heq).symm
      (not_unary_binary hy.1 hy.2 hleft (hblank _) (.inr fun u hu hlength => ?_))
    exact ih.expr (Nat.lt_trans hlength hlengths.1) hu
  · rw [Expr.Legible] at hy
    obtain ⟨hleft', ⟨hop', level', hlevel'⟩, hright'⟩ := hy
    simp only [Expr.canonical, List.append_assoc] at heq
    have hblank' := follows_blank
      (opens_operator hop' hlevel' (right'.canonical ++ (text ")" ++ r')))
      (isSpelt_operator hlevel').2
    obtain ⟨hlefts, hrest⟩ := ih.expr hlengths.1 hleft hleft' (hblank _) hblank'
      (List.append_cancel_left heq)
    have hbehind := List.append_cancel_left hrest
    have hops : op.erase = op'.erase :=
      (opens_operator hop hlevel _).erase_eq (hbehind ▸ opens_operator hop' hlevel' _)
    rw [(Token.erase_eq_iff.mp hops).2.1] at hbehind
    obtain ⟨hrights, hclose⟩ := ih.expr hlengths.2 hright hright' (follows_append (by decide) r)
      (follows_append (by decide) r') (List.append_cancel_left (List.append_cancel_left hbehind))
    rw [Expr.relabel, Expr.relabel, hlefts, hops, hrights]
    exact ⟨rfl, List.append_cancel_left hclose⟩

end

/-! ## Conditionals and blocks -/

theorem Block.Legible.canonical_cons {b : Block} (h : b.Legible) :
    ∃ s, b.canonical = 0x7b :: s := by
  cases b with
  | missing => exact h.elim
  | braces opening body closing empty =>
      rw [Block.canonical]
      split
      · exact ⟨_, rfl⟩
      · exact ⟨_, by rw [List.append_assoc]; rfl⟩

theorem Conditional.canonical_cons (c : Conditional) : ∃ s, c.canonical = 0x69 :: s := by
  cases c
  rw [Conditional.canonical]
  simp only [List.append_assoc]
  exact ⟨_, rfl⟩

/-- Something closed by a brace. -/
abbrev AtBrace (r : Text) : Prop := text "\x7d" <+: r

theorem opens_brace {r : Text} (hr : AtBrace r) : Opens r (.ofKind .closeBrace) := by
  obtain ⟨s, rfl⟩ := hr
  exact opens_spelt ⟨Token.legible_ofKind rfl, rfl⟩ rfl (leaves_solitary (by decide) s)

theorem Stmt.Legible.opens_body {s : Stmt} (hs : s.Legible) (ss : List Stmt) (r : Text) :
    Opens (Stmt.canonicalBody (s :: ss) ++ r) s.opener := by
  rw [Stmt.canonicalBody, List.append_assoc, List.append_assoc]
  exact hs.opens (delimits_append (by decide) _)

/-- Behind a statement of a block stands no `else`. -/
theorem follows_body {ss : List Stmt} (hss : Stmt.LegibleAll ss) {r : Text} (hr : AtBrace r) :
    Follows (text " " ++ (Stmt.canonicalBody ss ++ r)) := by
  cases ss with
  | nil => exact follows_blank (opens_brace hr) (by decide)
  | cons s ss =>
      rw [Stmt.LegibleAll] at hss
      refine follows_blank (hss.1.opens_body ss r) fun hk => ?_
      have hkind := hss.1.opener_kind
      rw [hk] at hkind
      exact absurd hkind (by decide)

theorem Stmt.body_ne_brace {s : Stmt} (hs : s.Legible) (ss : List Stmt) {r r' : Text}
    (hr : AtBrace r) : r ≠ Stmt.canonicalBody (s :: ss) ++ r' := by
  rintro rfl
  have hkind := hs.opener_kind
  rw [(Token.erase_eq_iff.mp ((hs.opens_body ss r').erase_eq (opens_brace hr))).1] at hkind
  exact absurd hkind (by decide)

theorem Stmt.uniqueBody : ∀ {ss : List Stmt}, Stmt.LegibleAll ss → (∀ s ∈ ss, s.Unique) →
    ReadsOff Stmt.canonicalBody (Stmt.relabelAll .erase) Stmt.LegibleAll AtBrace ss
  | [], _, _, [], _, _, _, _, _, h => ⟨rfl, h⟩
  | [], _, _, s' :: ss', _, _, hss', hr, _, h => by
      rw [Stmt.LegibleAll] at hss'
      exact absurd h (Stmt.body_ne_brace hss'.1 ss' hr)
  | s :: ss, hss, _, [], _, _, _, _, hr', h => by
      rw [Stmt.LegibleAll] at hss
      exact absurd h.symm (Stmt.body_ne_brace hss.1 ss hr')
  | s :: ss, hss, hunique, s' :: ss', r, r', hss', hr, hr', h => by
      rw [Stmt.LegibleAll] at hss hss'
      obtain ⟨hs, hrest⟩ := List.forall_mem_cons.mp hunique
      simp only [Stmt.canonicalBody, List.append_assoc] at h
      obtain ⟨hsame, hbody⟩ := hs hss'.1 (follows_body hss.2 hr) (follows_body hss'.2 hr') h
      obtain ⟨hsames, hr⟩ := Stmt.uniqueBody hss.2 hrest hss'.2 hr hr'
        (List.append_cancel_left hbody)
      rw [Stmt.relabelAll, Stmt.relabelAll, hsame, hsames]
      exact ⟨rfl, hr⟩

theorem Stmt.length_canonical_le {s : Stmt} {ss : List Stmt} (hs : s ∈ ss) :
    s.canonical.length ≤ (Stmt.canonicalBody ss).length := by
  induction ss with
  | nil => cases hs
  | cons s' ss ih =>
      simp only [Stmt.canonicalBody, List.length_append]
      rcases List.mem_cons.mp hs with rfl | hs
      · omega
      · have := ih hs
        omega

theorem Stmt.LegibleAll.legible {ss : List Stmt} (h : Stmt.LegibleAll ss) :
    ∀ s ∈ ss, s.Legible := by
  induction ss with
  | nil => exact List.forall_mem_nil _
  | cons s ss ih =>
      rw [Stmt.LegibleAll] at h
      exact List.forall_mem_cons.mpr ⟨h.1, ih h.2⟩

theorem Expr.LegibleAll.legible {es : List Expr} (h : Expr.LegibleAll es) :
    ∀ e ∈ es, e.Legible := by
  induction es with
  | nil => exact List.forall_mem_nil _
  | cons e es ih =>
      rw [Expr.LegibleAll] at h
      exact List.forall_mem_cons.mpr ⟨h.1, ih h.2⟩

section

variable {n : Nat} (ih : UniqueBelow n)
include ih

theorem unique_block {b : Block} (hn : b.canonical.length < n + 1) (h : b.Legible) : b.Unique := by
  intro y r r' hy _ _ heq
  cases b with
  | missing => exact h.elim
  | braces opening body closing empty =>
  cases y with
  | missing => exact hy.elim
  | braces opening' body' closing' empty' =>
  rw [Block.Legible] at h hy
  obtain ⟨hopening, hbody, hclosing, rfl⟩ := h
  obtain ⟨hopening', hbody', hclosing', rfl⟩ := hy
  simp only [Block.relabel, hopening.erase_eq rfl, hopening'.erase_eq rfl, hclosing.erase_eq rfl,
    hclosing'.erase_eq rfl]
  cases body with
  | nil =>
      cases body' with
      | nil => exact ⟨rfl, List.append_cancel_left heq⟩
      | cons s' ss' =>
          have hbehind := (List.cons.inj heq).2
          exact absurd (List.cons.inj hbehind).1 (by decide)
  | cons s ss =>
      cases body' with
      | nil =>
          have hbehind := (List.cons.inj heq).2
          exact absurd (List.cons.inj hbehind).1 (by decide)
      | cons s' ss' =>
          simp only [Block.canonical, List.isEmpty_cons, Bool.false_eq_true, if_false,
            List.append_assoc] at heq hn
          have hunique : ∀ u ∈ s :: ss, u.Unique := by
            intro u hu
            refine ih.stmt ?_ (hbody.legible u hu)
            have hle := Stmt.length_canonical_le hu
            rw [List.length_append, List.length_append,
              show (text "\x7b ").length = 2 from rfl] at hn
            omega
          obtain ⟨hsame, hclose⟩ := Stmt.uniqueBody hbody hunique hbody' (List.prefix_append _ r)
            (List.prefix_append _ r') (List.append_cancel_left heq)
          rw [hsame]
          exact ⟨rfl, List.append_cancel_left hclose⟩

theorem unique_alternative {a : Alternative} (hn : a.canonical.length < n + 1) (h : a.Legible) :
    ReadsOff Alternative.canonical (Alternative.relabel .erase) Alternative.Legible Borders a := by
  intro y r r' hy hr hr' heq
  -- an alternative that is there shows in front of what follows
  have hthere : ∀ {a : Alternative} {s s' : Text}, Borders s → a ≠ .absent →
      s ≠ a.canonical ++ s' := by
    rintro a s s' hs ha rfl
    cases a
    case absent => exact ha rfl
    all_goals
      apply hs.noElse
      rw [Alternative.canonical, List.append_assoc]
      exact List.prefix_append _ _
  cases a with
  | absent =>
      by_cases habsent : y = .absent
      · subst habsent
        exact ⟨rfl, heq⟩
      · exact absurd heq (hthere hr habsent)
  | block body =>
      rw [Alternative.Legible] at h
      have hlength : body.canonical.length < n := by
        rw [Alternative.canonical, List.length_append,
            show (text " else ").length = 6 from rfl] at hn
        omega
      cases y with
      | absent => exact absurd heq.symm (hthere hr' (by simp))
      | block body' =>
          rw [Alternative.Legible] at hy
          simp only [Alternative.canonical, List.append_assoc] at heq
          obtain ⟨hsame, hrest⟩ := ih.block hlength h hy
              trivial trivial (List.append_cancel_left heq)
          rw [Alternative.relabel, Alternative.relabel, hsame]
          exact ⟨rfl, hrest⟩
      | chained next' =>
          simp only [Alternative.canonical, List.append_assoc] at heq
          obtain ⟨s, hs⟩ := h.canonical_cons
          obtain ⟨s', hs'⟩ := next'.canonical_cons
          rw [hs, hs'] at heq
          exact absurd (List.cons.inj (List.append_cancel_left heq)).1 (by decide)
  | chained next =>
      rw [Alternative.Legible] at h
      have hlength : next.canonical.length < n := by
        rw [Alternative.canonical, List.length_append,
            show (text " else ").length = 6 from rfl] at hn
        omega
      cases y with
      | absent => exact absurd heq.symm (hthere hr' (by simp))
      | block body' =>
          rw [Alternative.Legible] at hy
          simp only [Alternative.canonical, List.append_assoc] at heq
          obtain ⟨s, hs⟩ := next.canonical_cons
          obtain ⟨s', hs'⟩ := hy.canonical_cons
          rw [hs, hs'] at heq
          exact absurd (List.cons.inj (List.append_cancel_left heq)).1 (by decide)
      | chained next' =>
          rw [Alternative.Legible] at hy
          simp only [Alternative.canonical, List.append_assoc] at heq
          obtain ⟨hsame, hrest⟩ := ih.conditional hlength h hy hr hr' (List.append_cancel_left heq)
          rw [Alternative.relabel, Alternative.relabel, hsame]
          exact ⟨rfl, hrest⟩

theorem unique_conditional {c : Conditional} (hn : c.canonical.length < n + 1) (h : c.Legible) :
    c.Unique := by
  intro y r r' hy hr hr' heq
  obtain ⟨keyword, condition, body, otherwise⟩ := c
  obtain ⟨keyword', condition', body', otherwise'⟩ := y
  rw [Conditional.Legible] at h hy
  obtain ⟨hkeyword, hcondition, hbody, hotherwise⟩ := h
  obtain ⟨hkeyword', hcondition', hbody', hotherwise'⟩ := hy
  simp only [Conditional.canonical, List.append_assoc] at heq
  simp only [Conditional.canonical, List.length_append,
    show (text "if (").length = 4 from rfl] at hn
  obtain ⟨hconditions, hrest⟩ := ih.expr (by omega) hcondition hcondition'
    (follows_append (by decide) _) (follows_append (by decide) _) (List.append_cancel_left heq)
  obtain ⟨hbodies, hrest⟩ := ih.block (by omega) hbody hbody' trivial trivial
    (List.append_cancel_left hrest)
  obtain ⟨hothers, hrest⟩ := unique_alternative ih (by omega) hotherwise hotherwise' hr hr' hrest
  rw [Conditional.relabel, Conditional.relabel, hkeyword.erase_eq rfl, hkeyword'.erase_eq rfl,
    hconditions, hbodies, hothers]
  exact ⟨rfl, hrest⟩

/-! ## Expressions and statements -/

theorem uniqueHead {e : Expr} (hn : e.canonical.length < n + 1) (h : e.Legible)
    (hcall : e.isCall = false) : e.UniqueHead := by
  rintro y r r' ⟨hy, hycall⟩ hr hr' heq
  have hopeners : e.opener.erase = y.opener.erase :=
    (h.opens hr.delimits).erase_eq (heq ▸ hy.opens hr'.delimits)
  have hkind : e.opener.kind = y.opener.kind := (Token.erase_eq_iff.mp hopeners).1
  rcases h.shape with ⟨t, ht, hk, rfl⟩ | ⟨op, right, rfl⟩ | ⟨left, op, right, rfl⟩ |
    ⟨choice, rfl⟩ | ⟨callee, opening, args, closing, rfl⟩
  · rw [Expr.opener_ofToken hk] at hopeners hkind
    rw [hkind] at hk
    have hyleaf := hy.eq_ofToken hycall hk
    rw [hyleaf, Expr.relabel_ofToken, Expr.relabel_ofToken, hopeners]
    rw [hyleaf, Expr.canonical_ofToken (hkind ▸ hk), Expr.canonical_ofToken hk,
      Token.written_congr hopeners] at heq
    exact ⟨rfl, List.append_cancel_left heq⟩
  · exact unique_unary ih hn h hy (hy.grouped hycall hkind.symm) heq
  · exact unique_binary ih hn h hy (hy.grouped hycall hkind.symm) heq
  · have hif : (Expr.conditional choice).opener.kind = .if_ := by
      cases choice
      rw [Expr.Legible, Conditional.Legible] at h
      exact h.1.2
    obtain ⟨choice', rfl⟩ := hy.eq_conditional hycall (hkind.symm.trans hif)
    rw [Expr.Legible] at h hy
    rw [Expr.canonical] at hn
    simp only [Expr.canonical] at heq
    obtain ⟨hsame, hrest⟩ := unique_conditional ih hn h hy hr hr' heq
    rw [Expr.relabel, Expr.relabel, hsame]
    exact ⟨rfl, hrest⟩
  · cases hcall

theorem unique_expr {e : Expr} (hn : e.canonical.length < n + 1) (h : e.Legible) : e.Unique := by
  intro y r r' hy hr hr' heq
  have hhead : e.head.canonical.length < n + 1 := by
    rw [e.canonical_eq_calls, List.length_append] at hn
    omega
  have hargs : ∀ args ∈ e.argLists, Expr.UniqueArgs args := by
    intro args hmem
    have hlegible := h.argLists args hmem
    refine Expr.uniqueArgs hlegible fun arg harg => ih.expr ?_ (hlegible.legible arg harg)
    have hle := Expr.length_canonical_le harg
    have hlt := Expr.length_canonicalArgs_lt hmem
    omega
  rw [e.canonical_eq_calls, y.canonical_eq_calls, List.append_assoc, List.append_assoc] at heq
  obtain ⟨hheads, hrest⟩ := uniqueHead ih hhead h.head e.isCall_head ⟨hy.head, y.isCall_head⟩
    (hr.toBorders.calls _) (hr'.toBorders.calls _) heq
  obtain ⟨hcalls, hrest⟩ := uniqueCalls hargs hy.argLists hr.noCall hr'.noCall hrest
  rw [h.relabel_eq_calls, hy.relabel_eq_calls, hheads, hcalls]
  exact ⟨rfl, hrest⟩

theorem unique_binding {keyword name : Token} {word : Text} {value : Expr}
    (hn : (Stmt.binding keyword name word value).canonical.length < n + 1)
    (h : (Stmt.binding keyword name word value).Legible) {keyword' name' : Token} {word' : Text}
    {value' : Expr} (hy : (Stmt.binding keyword' name' word' value').Legible) {r r' : Text}
    (heq : (Stmt.binding keyword name word value).canonical ++ r
      = (Stmt.binding keyword' name' word' value').canonical ++ r') :
    (Stmt.binding keyword name word value).relabel .erase
      = (Stmt.binding keyword' name' word' value').relabel .erase ∧ r = r' := by
  rw [Stmt.Legible] at h hy
  obtain ⟨hkeyword, hname, rfl, hvalue⟩ := h
  obtain ⟨hkeyword', hname', rfl, hvalue'⟩ := hy
  simp only [Stmt.canonical, List.append_assoc] at heq
  simp only [Stmt.canonical, List.length_append, show (text "let ").length = 4 from rfl] at hn
  have hwritten : ∀ {t : Token}, t.LegibleAs .ident → t.lexeme = t.written := fun ht =>
    (Token.written_of_ne (by rw [ht.2]; decide)).symm
  have hnames := List.append_cancel_left heq
  rw [hwritten hname, hwritten hname'] at hnames
  obtain ⟨hsame, hrest⟩ := hname.1.eq_of_append hname'.1
    (Delimits.leaves (delimits_append (by decide) _) _)
    (Delimits.leaves (delimits_append (by decide) _) _) hnames
  obtain ⟨hvalues, hrest⟩ := ih.expr (by omega) hvalue hvalue' (follows_append (by decide) r)
    (follows_append (by decide) r') (List.append_cancel_left hrest)
  rw [Stmt.relabel, Stmt.relabel, hkeyword.erase_eq rfl, hkeyword'.erase_eq rfl, hsame, hvalues,
    (Token.erase_eq_iff.mp hsame).2.1]
  exact ⟨rfl, List.append_cancel_left hrest⟩

theorem unique_returning {keyword : Token} {value : Expr}
    (hn : (Stmt.returning keyword value).canonical.length < n + 1)
    (h : (Stmt.returning keyword value).Legible) {keyword' : Token} {value' : Expr}
    (hy : (Stmt.returning keyword' value').Legible) {r r' : Text}
    (heq : (Stmt.returning keyword value).canonical ++ r
      = (Stmt.returning keyword' value').canonical ++ r') :
    (Stmt.returning keyword value).relabel .erase
      = (Stmt.returning keyword' value').relabel .erase ∧ r = r' := by
  rw [Stmt.Legible] at h hy
  rw [Stmt.relabel, Stmt.relabel, h.1.erase_eq rfl, hy.1.erase_eq rfl]
  have hmissing : ∀ {e : Expr}, e.Legible → e ≠ .missing := by
    rintro _ he rfl
    exact he
  rcases h.2 with rfl | hvalue
  · rcases hy.2 with rfl | hvalue'
    · exact ⟨rfl, List.append_cancel_left heq⟩
    · rw [canonical_returning (hmissing hvalue')] at heq
      simp only [List.append_assoc] at heq
      have hbehind : text ";" ++ r = text " " ++ (value'.canonical ++ (text ";" ++ r')) :=
        List.append_cancel_left (show text "return" ++ _ = text "return" ++ _ from heq)
      exact absurd (List.cons.inj hbehind).1 (by decide)
  · rw [canonical_returning (hmissing hvalue)] at heq hn
    rcases hy.2 with rfl | hvalue'
    · simp only [List.append_assoc] at heq
      have hbehind : text " " ++ (value.canonical ++ (text ";" ++ r)) = text ";" ++ r' :=
        List.append_cancel_left (show text "return" ++ _ = text "return" ++ _ from heq)
      exact absurd (List.cons.inj hbehind).1 (by decide)
    · rw [canonical_returning (hmissing hvalue')] at heq
      simp only [List.append_assoc] at heq
      simp only [List.length_append, show (text "return ").length = 7 from rfl] at hn
      obtain ⟨hvalues, hrest⟩ := ih.expr (by omega) hvalue hvalue' (follows_append (by decide) r)
        (follows_append (by decide) r') (List.append_cancel_left heq)
      rw [hvalues]
      exact ⟨rfl, List.append_cancel_left hrest⟩

theorem unique_exprStmt {e : Expr} (hn : (Stmt.expr e).canonical.length < n + 1) (h : e.Legible)
    {e' : Expr} (hy : e'.Legible) {r r' : Text} (hr : Follows r) (hr' : Follows r')
    (heq : (Stmt.expr e).canonical ++ r = (Stmt.expr e').canonical ++ r') :
    (Stmt.expr e).relabel .erase = (Stmt.expr e').relabel .erase ∧ r = r' := by
  have hfollows : ∀ {e : Expr} {s : Text}, Follows s → Follows (e.terminator ++ s) := by
    intro e s hs
    rcases e.terminator_cases with ⟨choice, rfl⟩ | hend
    · exact hs
    · rw [hend]
      exact follows_append (by decide) s
  rw [Stmt.canonical, Stmt.canonical, List.append_assoc, List.append_assoc] at heq
  rw [Stmt.canonical, List.length_append] at hn
  obtain ⟨hsame, hrest⟩ := unique_expr ih (by omega) h hy (hfollows hr) (hfollows hr') heq
  have hend : e.terminator = e'.terminator := by
    rw [← Expr.terminator_relabel .erase e, hsame, Expr.terminator_relabel]
  rw [hend] at hrest
  rw [Stmt.relabel, Stmt.relabel, hsame]
  exact ⟨rfl, List.append_cancel_left hrest⟩

end

/-- The keyword or brace that marks a statement other than an expression. -/
def Stmt.mark : Stmt → Option Kind
  | .binding _ _ _ _ => some .let_
  | .returning _ _ => some .return_
  | .block _ => some .openBrace
  | .missing | .expr _ => none

theorem Stmt.Legible.mark_eq {s : Stmt} (h : s.Legible) :
    s.mark = [.let_, .return_, .openBrace].find? (· == s.opener.kind) := by
  have hexpr : ∀ k ∈ openerKinds, [Kind.let_, .return_, .openBrace].find? (· == k) = none := by
    decide
  cases s with
  | missing => exact h.elim
  | binding keyword name word value =>
      rw [Stmt.Legible] at h
      rw [Stmt.opener, h.1.2]
      rfl
  | returning keyword value =>
      rw [Stmt.Legible] at h
      rw [Stmt.opener, h.1.2]
      rfl
  | block body =>
      rw [Stmt.Legible] at h
      cases body with
      | missing => exact h.elim
      | braces opening body closing empty =>
          rw [Block.Legible] at h
          rw [Stmt.opener, h.1.2]
          rfl
  | expr value =>
      rw [Stmt.Legible] at h
      exact (hexpr _ h.opener_kind).symm

theorem unique_stmt {n : Nat} (ih : UniqueBelow n) {s : Stmt} (hn : s.canonical.length < n + 1)
    (h : s.Legible) : s.Unique := by
  intro y r r' hy hr hr' heq
  have hmark : s.mark = y.mark := by
    have hopeners := (h.opens hr.delimits).erase_eq (heq ▸ hy.opens hr'.delimits)
    rw [h.mark_eq, hy.mark_eq, (Token.erase_eq_iff.mp hopeners).1]
  cases s with
  | missing => exact h.elim
  | binding keyword name word value =>
      cases y with
      | binding => exact unique_binding ih hn h hy heq
      | _ => cases hmark
  | returning keyword value =>
      cases y with
      | returning => exact unique_returning ih hn h hy heq
      | _ => cases hmark
  | block body =>
      cases y with
      | block body' =>
          rw [Stmt.Legible] at h hy
          rw [Stmt.canonical] at hn
          simp only [Stmt.canonical] at heq
          obtain ⟨hsame, hrest⟩ := unique_block ih hn h hy trivial trivial heq
          rw [Stmt.relabel, Stmt.relabel, hsame]
          exact ⟨rfl, hrest⟩
      | _ => cases hmark
  | expr value =>
      cases y with
      | missing => exact hy.elim
      | expr value' =>
          rw [Stmt.Legible] at h hy
          exact unique_exprStmt ih hn h hy hr hr' heq
      | _ => cases hmark

theorem uniqueBelow : ∀ n : Nat, UniqueBelow n
  | 0 => ⟨fun h => absurd h (Nat.not_lt_zero _), fun h => absurd h (Nat.not_lt_zero _),
      fun h => absurd h (Nat.not_lt_zero _), fun h => absurd h (Nat.not_lt_zero _)⟩
  | n + 1 =>
      have ih := uniqueBelow n
      ⟨unique_expr ih, unique_conditional ih, unique_block ih, unique_stmt ih⟩

/-! ## Programs -/

/-- The lines behind a statement. -/
def Program.canonicalMore : Program → Text
  | [] => []
  | s :: ss => text "\n" ++ Program.canonical (s :: ss)

theorem Program.canonical_cons (s : Stmt) (p : Program) :
    Program.canonical (s :: p) = s.canonical ++ p.canonicalMore := by
  cases p with
  | nil => exact (Program.canonical_singleton s).trans (List.append_nil _).symm
  | cons s' p => exact Program.canonical_cons_cons s s' p

theorem Program.follows_more (p : Program) : Follows p.canonicalMore := by
  cases p with
  | nil => exact follows_nil
  | cons s p => exact follows_append (by decide) _

theorem Stmt.Legible.canonical_ne_nil {s : Stmt} (h : s.Legible) : s.canonical ≠ [] := by
  obtain ⟨ht, r, hcanonical, -⟩ := h.opens delimits_nil
  obtain ⟨c, w, hwritten, -⟩ := ht.first
  rw [List.append_nil, hwritten] at hcanonical
  rw [hcanonical]
  simp

/-- Programs with the same canonical form are the same but for the places of
their tokens. -/
theorem Program.eq_of_canonical : ∀ {p q : Program}, Stmt.LegibleAll p → Stmt.LegibleAll q →
    p.canonical = q.canonical → p.relabel .erase = q.relabel .erase
  | [], [], _, _, _ => rfl
  | [], s' :: q, _, hq, h => by
      rw [Stmt.LegibleAll] at hq
      rw [Program.canonical_cons] at h
      exact absurd (List.append_eq_nil_iff.mp h.symm).1 hq.1.canonical_ne_nil
  | s :: p, [], hp, _, h => by
      rw [Stmt.LegibleAll] at hp
      rw [Program.canonical_cons] at h
      exact absurd (List.append_eq_nil_iff.mp h).1 hp.1.canonical_ne_nil
  | s :: p, s' :: q, hp, hq, h => by
      rw [Stmt.LegibleAll] at hp hq
      rw [Program.canonical_cons, Program.canonical_cons] at h
      have hunique : s.Unique := (uniqueBelow _).stmt (Nat.lt_succ_self _) hp.1
      obtain ⟨hsame, hmore⟩ := hunique hq.1 (Program.follows_more p) (Program.follows_more q) h
      have hrest : Program.relabel .erase p = Program.relabel .erase q := by
        refine Program.eq_of_canonical hp.2 hq.2 ?_
        cases p with
        | nil =>
            cases q with
            | nil => rfl
            | cons => cases hmore
        | cons =>
            cases q with
            | nil => cases hmore
            | cons => exact List.append_cancel_left hmore
      rw [Program.relabel, Program.relabel, Stmt.relabelAll, Stmt.relabelAll, hsame]
      exact congrArg _ hrest

end Scriptlet
