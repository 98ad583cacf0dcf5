import Scriptlet.Proofs.Tree.ReadBack

/-!
# Legible trees

A tree is legible (`Expr.Legible`, `Stmt.Legible` and so on) when its tokens
are, and when names, values and operators are what the tokens next to them say.
What legible tokens spell is a legible tree (`legible_of_spells`), so the tree
of every accepted source is one.

A legible tree begins, in canonical form, with a legible token: its opener. Two
legible tokens that one text begins with are the same
(`Token.Legible.eq_of_append`), so the text tells how a tree opens.

`ReadsOff` is what it takes to read a tree off a text: nothing else that is
printed, with anything else behind it, gives the same text.
-/

namespace Scriptlet

open Phrase (operatorsAt sumLevel)

/-- Whatever `y` is printed in front of `r'`, if `x` in front of `r` gives the
same text then `x` and `y` are the same to `view`, and so are the rests. Of `y`
only that `ok` holds is known, and of the rests that they may follow. -/
def ReadsOff {α β : Type} (print : α → Text) (view : α → β) (ok : α → Prop)
    (follows : Text → Prop) (x : α) : Prop :=
  ∀ ⦃y : α⦄ ⦃r r' : Text⦄, ok y → follows r → follows r' →
    print x ++ r = print y ++ r' → view x = view y ∧ r = r'

/-! ## Tokens at the head of a text -/

namespace Token

variable {t u : Token} {k : Kind} {r r' : Text}

theorem written_congr (h : t.erase = u.erase) : t.written = u.written := by
  obtain ⟨hkind, hlexeme, -⟩ := erase_eq_iff.mp h
  rw [written, written, hkind, hlexeme]

theorem Legible.eq_of_append (ht : t.Legible) (hu : u.Legible) (hr : t.kind.Leaves r)
    (hr' : u.kind.Leaves r') (h : t.written ++ r = u.written ++ r') :
    t.erase = u.erase ∧ r = r' := by
  have hread := (ht.reads r hr).symm.trans ((congrArg Lexeme.read h).trans (hu.reads r' hr'))
  obtain ⟨hkind, hlexeme, hlength, -⟩ := Lexeme.mk.inj hread
  have herase : t.erase = u.erase := by
    refine erase_eq_iff.mpr ⟨hkind, hlexeme, hlength, ?_, ?_⟩
    · rw [ht.not_end.2, hu.not_end.2]
    · rw [ht.not_invalid, hu.not_invalid]
  rw [written_congr herase] at h
  exact ⟨herase, List.append_cancel_left h⟩

/-- A legible token of a given kind. -/
def LegibleAs (k : Kind) (t : Token) : Prop := t.Legible ∧ t.kind = k

/-- Of a kind with one spelling there is one token, up to its place. -/
theorem LegibleAs.erase_eq (h : LegibleAs k t) (hk : k.isSpelt = true) : t.erase = ofKind k := by
  obtain ⟨ht, rfl⟩ := h
  have hlexeme := ht.spelt hk
  have hlength : t.length = t.kind.name.length := by
    rw [ht.length_eq, written_of_isSpelt hk rfl, hlexeme]
  simp only [erase, ofKind, hlexeme, hlength, ht.not_end.2, ht.not_invalid]

theorem LegibleAs.written_eq (h : LegibleAs k t) (hk : k.isSpelt = true) : t.written = k.name := by
  rw [written_of_isSpelt hk h.2, h.1.spelt (h.2 ▸ hk), h.2]

end Token

/-! ## Trees -/

/-- The operand that a single token stands for. A number out of range is taken
for zero here. -/
def Expr.ofToken (t : Token) : Expr :=
  match t.kind with
  | .ident => .name t t.lexeme
  | .integer => .integer t ((Number.readInt64? (Parser.numeral t)).getD 0)
  | .float => .float t ((Number.readFloat? (Parser.numeral t)).getD 0)
  | .string => .string t t.lexeme
  | .true_ => .boolean t true
  | .false_ => .boolean t false
  | _ => .missing

mutual

def Expr.Legible : Expr → Prop
  | .missing => False
  | .name t word => t.Legible ∧ Expr.ofToken t = .name t word
  | .integer t n => t.Legible ∧ Expr.ofToken t = .integer t n
  | .float t x => t.Legible ∧ Expr.ofToken t = .float t x
  | .boolean t b => t.Legible ∧ Expr.ofToken t = .boolean t b
  | .string t value => t.Legible ∧ Expr.ofToken t = .string t value
  | .unary op right => (op.LegibleAs .not ∨ op.LegibleAs .minus) ∧ right.Legible
  | .binary left op right =>
      left.Legible ∧ (op.Legible ∧ ∃ level, op.kind ∈ operatorsAt level) ∧ right.Legible
  | .conditional choice => choice.Legible
  | .call callee opening args closing => callee.Legible ∧ opening.LegibleAs .openParen ∧
      Expr.LegibleAll args ∧ closing.LegibleAs .closeParen

def Expr.LegibleAll : List Expr → Prop
  | [] => True
  | e :: es => e.Legible ∧ Expr.LegibleAll es

def Conditional.Legible : Conditional → Prop
  | .mk keyword condition body otherwise =>
      keyword.LegibleAs .if_ ∧ condition.Legible ∧ body.Legible ∧ otherwise.Legible

def Alternative.Legible : Alternative → Prop
  | .absent => True
  | .block body => body.Legible
  | .chained next => next.Legible

def Block.Legible : Block → Prop
  | .missing => False
  | .braces opening body closing empty => opening.LegibleAs .openBrace ∧
      Stmt.LegibleAll body ∧ closing.LegibleAs .closeBrace ∧ empty = body.isEmpty

def Stmt.Legible : Stmt → Prop
  | .missing => False
  | .binding keyword nameToken word value => keyword.LegibleAs .let_ ∧
      nameToken.LegibleAs .ident ∧ word = nameToken.lexeme ∧ value.Legible
  | .returning keyword value => keyword.LegibleAs .return_ ∧ (value = .missing ∨ value.Legible)
  | .block body => body.Legible
  | .expr value => value.Legible

def Stmt.LegibleAll : List Stmt → Prop
  | [] => True
  | s :: ss => s.Legible ∧ Stmt.LegibleAll ss

end

/-! ## Operands of one token -/

section

variable {t u : Token}

theorem Expr.mem_operandKinds {e : Expr} (h : Expr.ofToken t = e) (he : e ≠ .missing) :
    t.kind ∈ operandKinds := by
  subst h
  revert he
  cases hk : t.kind <;> simp [Expr.ofToken, hk, operandKinds]

theorem Expr.legible_ofToken (ht : t.Legible) (hk : t.kind ∈ operandKinds) :
    (Expr.ofToken t).Legible := by
  simp only [operandKinds, List.mem_cons, List.not_mem_nil, or_false] at hk
  rcases hk with hk | hk | hk | hk | hk | hk <;> simp [Expr.ofToken, hk, Expr.Legible, ht]

theorem Expr.canonical_ofToken (hk : t.kind ∈ operandKinds) :
    (Expr.ofToken t).canonical = t.written := by
  simp only [operandKinds, List.mem_cons, List.not_mem_nil, or_false] at hk
  rcases hk with hk | hk | hk | hk | hk | hk <;>
    simp [Expr.ofToken, Expr.canonical, Token.written, hk]
  rfl

/-- What an operand of one token is does not depend on the token's place. -/
theorem Expr.relabel_ofToken (t : Token) :
    (Expr.ofToken t).relabel .erase = Expr.ofToken t.erase := by
  have hkind : t.erase.kind = t.kind := rfl
  cases hk : t.kind <;> simp only [Expr.ofToken, hkind, hk, Expr.relabel] <;> rfl

/-- How a legible expression can be made. -/
theorem Expr.Legible.shape {e : Expr} (h : e.Legible) :
    (∃ t, t.Legible ∧ t.kind ∈ operandKinds ∧ e = Expr.ofToken t) ∨
    (∃ op right, e = .unary op right) ∨ (∃ left op right, e = .binary left op right) ∨
    (∃ choice, e = .conditional choice) ∨
    ∃ callee opening args closing, e = .call callee opening args closing := by
  cases e with
  | missing => exact h.elim
  | name t _ | integer t _ | float t _ | boolean t _ | string t _ =>
      rw [Expr.Legible] at h
      exact .inl ⟨t, h.1, Expr.mem_operandKinds h.2 (by simp), h.2.symm⟩
  | unary op right => exact .inr (.inl ⟨op, right, rfl⟩)
  | binary left op right => exact .inr (.inr (.inl ⟨left, op, right, rfl⟩))
  | conditional choice => exact .inr (.inr (.inr (.inl ⟨choice, rfl⟩)))
  | call callee opening args closing =>
      exact .inr (.inr (.inr (.inr ⟨callee, opening, args, closing, rfl⟩)))

end

/-! ## What legible tokens spell -/

def Phrase.Legible : Phrase → Prop
  | .expr _ e => e.Legible
  | .args es => Expr.LegibleAll es
  | .conditional choice => choice.Legible
  | .alternative otherwise => otherwise.Legible
  | .block b => b.Legible
  | .stmt s _ => s.Legible
  | .body ss _ => Stmt.LegibleAll ss

theorem legible_of_spells {φ : Phrase} {ts : List Token} (h : Spells φ ts)
    (hts : ∀ t ∈ ts, t.Legible) : φ.Legible := by
  induction h with
  | name hk | string hk | yes hk | no hk =>
      exact ⟨hts _ (List.mem_singleton.mpr rfl), by simp [Expr.ofToken, hk]⟩
  | integer hk hread | float hk hread =>
      exact ⟨hts _ (List.mem_singleton.mpr rfl), by simp [Expr.ofToken, hk, hread]⟩
  | group _ _ _ ih =>
      simp only [List.forall_mem_append, List.forall_mem_cons] at hts
      exact ih hts.2.1
  | choice _ ih => exact ih hts
  | call _ hopen _ hclose ihf iha =>
      simp only [List.forall_mem_append, List.forall_mem_cons] at hts
      exact ⟨ihf hts.1, ⟨hts.2.1, hopen⟩, iha hts.2.2.1, hts.2.2.2.1, hclose⟩
  | unary hop _ ih =>
      rw [List.forall_mem_cons] at hts
      exact ⟨hop.imp (⟨hts.1, ·⟩) (⟨hts.1, ·⟩), ih hts.2⟩
  | binary hop _ _ ihl ihr =>
      simp only [List.forall_mem_append, List.forall_mem_cons] at hts
      exact ⟨ihl hts.1, ⟨hts.2.1, _, hop⟩, ihr hts.2.2⟩
  | fused hsigned _ _ ihl ihr =>
      simp only [List.forall_mem_append, List.forall_mem_cons] at hts ihr
      exact ⟨ihl hts.1, ⟨Token.legible_minusOf _, sumLevel,
        List.mem_cons_of_mem _ List.mem_cons_self⟩,
        ihr ⟨Token.legible_unsignedOf hsigned hts.2.1, hts.2.2⟩⟩
  | tighter _ _ ih => exact ih hts
  | noArgs | absent | done => trivial
  | lastArg _ ih => exact ⟨ih hts, trivial⟩
  | moreArgs _ _ _ ihe ihs =>
      simp only [List.forall_mem_append, List.forall_mem_cons] at hts
      exact ⟨ihe hts.1, ihs hts.2.2⟩
  | conditional hk _ _ _ _ _ ihe ihb iha =>
      simp only [List.forall_mem_append, List.forall_mem_cons] at hts
      exact ⟨⟨hts.1, hk⟩, ihe hts.2.2.1, ihb hts.2.2.2.2.1, iha hts.2.2.2.2.2⟩
  | otherwise _ _ ih | chained _ _ ih =>
      rw [List.forall_mem_cons] at hts
      exact ih hts.2
  | block hopen _ hclose ih =>
      simp only [List.forall_mem_append, List.forall_mem_cons] at hts
      exact ⟨⟨hts.1, hopen⟩, ih hts.2.1, ⟨hts.2.2.1, hclose⟩, rfl⟩
  | gap _ _ ih =>
      rw [List.forall_mem_cons] at hts
      exact ih hts.2
  | more _ _ ihs ihss =>
      rw [List.forall_mem_append] at hts
      exact ⟨ihs hts.1, ihss hts.2⟩
  | binding hk hname _ _ _ ih =>
      simp only [List.forall_mem_append, List.forall_mem_cons] at hts
      exact ⟨⟨hts.1, hk⟩, ⟨hts.2.1, hname⟩, rfl, ih hts.2.2.2.1⟩
  | bareReturn hk _ =>
      rw [List.forall_mem_cons] at hts
      exact ⟨⟨hts.1, hk⟩, .inl rfl⟩
  | returning hk _ _ ih =>
      simp only [List.forall_mem_append, List.forall_mem_cons] at hts
      exact ⟨⟨hts.1, hk⟩, .inr (ih hts.2.1)⟩
  | blockStmt _ ih => exact ih hts
  | choiceStmt _ _ ih | exprStmt _ _ _ ih =>
      rw [List.forall_mem_append] at hts
      exact ih hts.1

/-! ## How a tree opens -/

/-- A token at the head of a text, which does not run into what follows. -/
def Opens (s : Text) (t : Token) : Prop :=
  t.Legible ∧ ∃ r, s = t.written ++ r ∧ t.kind.Leaves r

theorem Opens.erase_eq {s : Text} {t u : Token} (h : Opens s t) (h' : Opens s u) :
    t.erase = u.erase := by
  obtain ⟨ht, r, hs, hr⟩ := h
  obtain ⟨hu, r', hs', hr'⟩ := h'
  exact (ht.eq_of_append hu hr hr' (hs.symm.trans hs')).1

theorem opens_spelt {t : Token} {k : Kind} {r : Text} (h : t.LegibleAs k) (hk : k.isSpelt = true)
    (hr : k.Leaves r) : Opens (k.name ++ r) t :=
  ⟨h.1, r, by rw [h.written_eq hk], h.2 ▸ hr⟩

theorem opens_paren (r : Text) : Opens (text "(" ++ r) (.ofKind .openParen) :=
  opens_spelt ⟨Token.legible_ofKind rfl, rfl⟩ rfl (leaves_solitary (by decide) r)

/-- The first token of the canonical form. -/
def Expr.opener : Expr → Token
  | .missing => .endOfInput .start
  | .name t _ | .integer t _ | .float t _ | .boolean t _ | .string t _ => t
  | .unary _ _ | .binary _ _ _ => .ofKind .openParen
  | .conditional (.mk keyword _ _ _) => keyword
  | .call callee _ _ _ => callee.opener

def Stmt.opener : Stmt → Token
  | .missing => .endOfInput .start
  | .binding keyword _ _ _ | .returning keyword _ => keyword
  | .block .missing => .endOfInput .start
  | .block (.braces opening _ _ _) => opening
  | .expr value => value.opener

/-- The kinds that expressions open with. -/
def openerKinds : List Kind := .openParen :: .if_ :: operandKinds

theorem Expr.opener_ofToken {t : Token} (hk : t.kind ∈ operandKinds) :
    (Expr.ofToken t).opener = t := by
  simp only [operandKinds, List.mem_cons, List.not_mem_nil, or_false] at hk
  rcases hk with hk | hk | hk | hk | hk | hk <;> simp [Expr.ofToken, hk, Expr.opener]

theorem Expr.Legible.opener_kind : ∀ {e : Expr}, e.Legible → e.opener.kind ∈ openerKinds
  | .missing, h => h.elim
  | .name _ _, h | .integer _ _, h | .float _ _, h | .boolean _ _, h | .string _ _, h => by
      rw [Expr.Legible] at h
      exact List.mem_cons_of_mem _ (List.mem_cons_of_mem _ (Expr.mem_operandKinds h.2 (by simp)))
  | .unary _ _, _ | .binary _ _ _, _ => List.mem_cons_self
  | .conditional (.mk _ _ _ _), h => by
      rw [Expr.Legible, Conditional.Legible] at h
      rw [Expr.opener, h.1.2]
      decide
  | .call _ _ _ _, h => by
      rw [Expr.Legible] at h
      exact h.1.opener_kind

theorem Expr.Legible.opens : ∀ {e : Expr}, e.Legible → ∀ {r : Text}, Delimits r →
    Opens (e.canonical ++ r) e.opener
  | .call callee opening args closing, h, r, _ => by
      rw [Expr.Legible] at h
      have hcallee := h.1.opens
        (delimits_append (w := text "(") (by decide) (Expr.canonicalArgs args ++ text ")" ++ r))
      simpa only [Expr.canonical, Expr.opener, List.append_assoc] using hcallee
  | .unary op right, _, r, _ => by
      rw [Expr.canonical]
      simp only [List.append_assoc]
      exact opens_paren _
  | .binary left op right, _, r, _ => by
      rw [Expr.canonical]
      simp only [List.append_assoc]
      exact opens_paren _
  | .conditional (.mk keyword condition body otherwise), h, r, _ => by
      rw [Expr.Legible, Conditional.Legible] at h
      rw [Expr.canonical, Conditional.canonical]
      simp only [List.append_assoc]
      exact opens_spelt h.1 rfl (Delimits.leaves (delimits_append (w := text " (") (by decide) _) _)
  | .missing, h, _, _ => h.elim
  | .name t _, h, r, hr | .integer t _, h, r, hr | .float t _, h, r, hr | .boolean t _, h, r, hr
  | .string t _, h, r, hr => by
      rw [Expr.Legible] at h
      have hk : t.kind ∈ operandKinds := Expr.mem_operandKinds h.2 (by simp)
      refine ⟨h.1, r, ?_, hr.leaves _⟩
      rw [← h.2, Expr.canonical_ofToken hk, Expr.opener_ofToken hk]

theorem Expr.terminator_cases (e : Expr) :
    (∃ choice, e = .conditional choice) ∨ e.terminator = text ";" := by
  cases e
  case conditional choice => exact .inl ⟨choice, rfl⟩
  all_goals exact .inr rfl

theorem Stmt.Legible.opens : ∀ {s : Stmt}, s.Legible → ∀ {r : Text}, Delimits r →
    Opens (s.canonical ++ r) s.opener
  | .binding _ _ _ _, h, r, _ => by
      rw [Stmt.Legible] at h
      rw [Stmt.canonical]
      simp only [List.append_assoc]
      exact opens_spelt h.1 rfl (Delimits.leaves (delimits_append (w := text " ") (by decide) _) _)
  | .returning _ value, h, r, _ => by
      rw [Stmt.Legible] at h
      by_cases hvalue : value = .missing
      · subst hvalue
        exact opens_spelt h.1 rfl
          (Delimits.leaves (delimits_append (w := text ";") (by decide) r) _)
      · rw [canonical_returning hvalue]
        simp only [List.append_assoc]
        exact opens_spelt h.1 rfl
          (Delimits.leaves (delimits_append (w := text " ") (by decide) _) _)
  | .block (.braces opening _ _ _), h, r, _ => by
      rw [Stmt.Legible, Block.Legible] at h
      have hopen : ∀ s, Opens (text "\x7b" ++ s) opening :=
        fun s => opens_spelt h.1 rfl (leaves_solitary (by decide) s)
      rw [Stmt.canonical, Block.canonical]
      split
      · exact hopen _
      · simp only [List.append_assoc]
        exact hopen _
  | .expr value, h, r, hr => by
      rw [Stmt.Legible] at h
      have hend : Delimits (value.terminator ++ r) := by
        rcases value.terminator_cases with ⟨choice, rfl⟩ | hend
        · exact hr
        · rw [hend]
          exact delimits_append (by decide) r
      rw [Stmt.canonical, List.append_assoc]
      exact Expr.Legible.opens h hend
  | .missing, h, _, _ | .block .missing, h, _, _ => by
      rw [Stmt.Legible] at h
      exact h.elim

theorem Stmt.Legible.opener_kind : ∀ {s : Stmt}, s.Legible →
    s.opener.kind ∈ .let_ :: .return_ :: .openBrace :: openerKinds
  | .binding _ _ _ _, h | .returning _ _, h | .block (.braces _ _ _ _), h => by
      simp only [Stmt.Legible, Block.Legible] at h
      rw [Stmt.opener, h.1.2]
      decide
  | .expr _, h => by
      rw [Stmt.Legible] at h
      exact List.mem_append_right [.let_, .return_, .openBrace] h.opener_kind
  | .missing, h | .block .missing, h => by
      rw [Stmt.Legible] at h
      exact h.elim

/-- The canonical form starts the way its opener does. -/
theorem Expr.Legible.canonical_cons {e : Expr} (h : e.Legible) :
    ∃ c s, e.canonical = c :: s ∧ startsOperand c = true := by
  obtain ⟨ht, r, hcanonical, -⟩ := h.opens delimits_nil
  rw [List.append_nil] at hcanonical
  have hfirst : ∃ c s, e.opener.written = c :: s ∧ startsOperand c = true := by
    rcases List.mem_cons.mp h.opener_kind with hk | hk
    · exact ⟨_, _, Token.LegibleAs.written_eq ⟨ht, hk⟩ rfl, by decide⟩
    · rcases List.mem_cons.mp hk with hk | hk
      · exact ⟨_, _, Token.LegibleAs.written_eq ⟨ht, hk⟩ rfl, by decide⟩
      · exact ht.first_operand hk
  obtain ⟨c, s, hwritten, hc⟩ := hfirst
  exact ⟨c, s ++ r, by rw [hcanonical, hwritten, List.cons_append], hc⟩

end Scriptlet
