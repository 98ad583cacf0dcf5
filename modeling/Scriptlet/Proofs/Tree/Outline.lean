import Scriptlet.Proofs.Tree.Legible
import Scriptlet.Tree.Outline

/-!
# Outlines are unambiguous

Two legible programs with the same outline are the same but for the places of
their tokens (`Program.eq_of_outline`), and the outline shows nothing of these
places (`Program.outline_relabel`).

Every part of a tree starts with a line that carries a heading, at the depth of
the part (`Headed`). Its children follow one step deeper, so where the lines
come back to its own depth or to a smaller one it has ended (`Shallow`). Only an
alternative stands at the depth of the conditional it belongs to, and its
heading is its own (`Rises`).
-/

namespace Scriptlet

open Phrase (operatorsAt)

/-! ## Other places -/

section

variable {f : Token → Token}

mutual

theorem Expr.outline_relabel (hf : ∀ t, (f t).lexeme = t.lexeme) :
    ∀ (e : Expr) (depth : Nat), (e.relabel f).outline depth = e.outline depth
  | .missing, _ | .name _ _, _ | .string _ _, _ => rfl
  | .integer t _, _ | .float t _, _ | .boolean t _, _ => by
      simp only [Expr.relabel, Expr.outline, hf]
  | .unary op right, depth => by
      simp only [Expr.relabel, Expr.outline, hf, Expr.outline_relabel hf right]
  | .binary left op right, depth => by
      simp only [Expr.relabel, Expr.outline, hf, Expr.outline_relabel hf left,
        Expr.outline_relabel hf right]
  | .conditional choice, depth => by
      simp only [Expr.relabel, Expr.outline, Conditional.outline_relabel hf choice]
  | .call callee _ args _, depth => by
      simp only [Expr.relabel, Expr.outline, Expr.outline_relabel hf callee,
        Expr.outlineAll_relabel hf args]

theorem Expr.outlineAll_relabel (hf : ∀ t, (f t).lexeme = t.lexeme) : ∀ (es : List Expr)
    (depth : Nat), Expr.outlineAll depth (Expr.relabelAll f es) = Expr.outlineAll depth es
  | [], _ => rfl
  | e :: es, depth => by
      simp only [Expr.relabelAll, Expr.outlineAll, Expr.outline_relabel hf e,
        Expr.outlineAll_relabel hf es]

theorem Conditional.outline_relabel (hf : ∀ t, (f t).lexeme = t.lexeme) :
    ∀ (c : Conditional) (depth : Nat), (c.relabel f).outline depth = c.outline depth
  | .mk _ condition body otherwise, depth => by
      simp only [Conditional.relabel, Conditional.outline, Expr.outline_relabel hf condition,
        Block.outline_relabel hf body, Alternative.outline_relabel hf otherwise]

theorem Alternative.outline_relabel (hf : ∀ t, (f t).lexeme = t.lexeme) :
    ∀ (a : Alternative) (depth : Nat), (a.relabel f).outline depth = a.outline depth
  | .absent, _ => rfl
  | .block body, depth => by
      simp only [Alternative.relabel, Alternative.outline, Block.outline_relabel hf body]
  | .chained next, depth => by
      simp only [Alternative.relabel, Alternative.outline, Conditional.outline_relabel hf next]

theorem Block.outline_relabel (hf : ∀ t, (f t).lexeme = t.lexeme) :
    ∀ (b : Block) (depth : Nat), (b.relabel f).outline depth = b.outline depth
  | .missing, _ => rfl
  | .braces _ body _ _, depth => by
      simp only [Block.relabel, Block.outline, Stmt.outlineAll_relabel hf body]

theorem Stmt.outline_relabel (hf : ∀ t, (f t).lexeme = t.lexeme) :
    ∀ (s : Stmt) (depth : Nat), (s.relabel f).outline depth = s.outline depth
  | .missing, _ => rfl
  | .binding _ _ word value, depth | .returning _ value, depth | .expr value, depth => by
      simp only [Stmt.relabel, Stmt.outline, Expr.outline_relabel hf value]
  | .block body, depth => by
      simp only [Stmt.relabel, Stmt.outline, Block.outline_relabel hf body]

theorem Stmt.outlineAll_relabel (hf : ∀ t, (f t).lexeme = t.lexeme) : ∀ (ss : List Stmt)
    (depth : Nat), Stmt.outlineAll depth (Stmt.relabelAll f ss) = Stmt.outlineAll depth ss
  | [], _ => rfl
  | s :: ss, depth => by
      simp only [Stmt.relabelAll, Stmt.outlineAll, Stmt.outline_relabel hf s,
        Stmt.outlineAll_relabel hf ss]

end

theorem Program.outline_relabel (hf : ∀ t, (f t).lexeme = t.lexeme) (p : Program) :
    (p.relabel f).outline = p.outline := Stmt.outlineAll_relabel hf p 0

end

/-! ## Headings -/

/-- What the first line of a part says it is. -/
inductive Heading where
  | ident | integer | float | bool | string | unary | binary | call
  | conditional | otherwise | block | binding | returning | expr
deriving DecidableEq

namespace Heading

def word : Heading → Text
  | ident => text "ident"
  | integer => text "integer"
  | float => text "float"
  | bool => text "bool"
  | string => text "string"
  | unary => text "prefix"
  | binary => text "infix"
  | call => text "call"
  | conditional => text "if"
  | otherwise => text "else"
  | block => text "block"
  | binding => text "let"
  | returning => text "return"
  | expr => text "expr"

def all : List Heading :=
  [ident, integer, float, bool, string, unary, binary, call, conditional, otherwise, block,
   binding, returning, expr]

theorem word_inj {a b : Heading} (h : a.word = b.word) : a = b := by
  have hfind : ∀ w : Heading, all.find? (·.word == w.word) = some w := by
    intro w
    cases w <;> rfl
  have hsame := hfind a
  rw [h, hfind b] at hsame
  exact (Option.some.inj hsame).symm

theorem word_cons (w : Heading) : ∃ c s, w.word = c :: s ∧ c ≠ Byte.space := by
  cases w <;> exact ⟨_, _, rfl, by decide⟩

/-- The heading ends at its colon. -/
theorem eq_of_append {a b : Heading} {s s' : Text}
    (h : a.word ++ (text ":" ++ s) = b.word ++ (text ":" ++ s')) : a = b := by
  have hword : ∀ (w : Heading) (s : Text),
      (w.word ++ (text ":" ++ s)).takeWhile (· != 0x3a) = w.word := by
    intro w s
    have hall : ∀ c ∈ w.word, (c != 0x3a) = true := by
      cases w <;> exact List.all_eq_true.mp rfl
    rw [List.takeWhile_append_of_pos hall]
    exact List.append_nil _
  refine word_inj ?_
  rw [← hword a s, ← hword b s', h]

end Heading

/-- A text whose first line is at a depth and has a heading. -/
def Headed (depth : Nat) (w : Heading) (s : Text) : Prop :=
  ∃ r, s = Text.blanks (2 * depth) ++ (w.word ++ (text ":" ++ r))

theorem Headed.heading_eq {depth : Nat} {w w' : Heading} {s : Text} (h : Headed depth w s)
    (h' : Headed depth w' s) : w = w' := by
  obtain ⟨r, rfl⟩ := h
  obtain ⟨r', h'⟩ := h'
  exact Heading.eq_of_append (List.append_cancel_left h')

theorem headed_line (depth : Nat) (w : Heading) (s r : Text) :
    Headed depth w (outlineLine depth (w.word ++ (text ":" ++ s)) ++ r) :=
  ⟨s ++ (text "\n" ++ r), by simp only [outlineLine, List.append_assoc]⟩

/-- The next line, if there is one, is less deep. -/
def Shallow (depth : Nat) (r : Text) : Prop := r = [] ∨ ¬ Text.blanks (2 * depth) <+: r

/-- What may follow a part at a depth: nothing deeper, and no alternative. -/
structure Rises (depth : Nat) (r : Text) : Prop where
  shallow : Shallow (depth + 1) r
  noElse : ¬ Headed depth .otherwise r

theorem Headed.ne_nil {depth : Nat} {w : Heading} {s : Text} (h : Headed depth w s) : s ≠ [] := by
  obtain ⟨r, rfl⟩ := h
  obtain ⟨c, s, hword, -⟩ := w.word_cons
  simp [hword]

theorem Headed.not_shallow {depth : Nat} {w : Heading} {s : Text} (h : Headed depth w s) :
    ¬ Shallow depth s := by
  rintro (hnil | hblanks)
  · exact h.ne_nil hnil
  · obtain ⟨r, rfl⟩ := h
    exact hblanks (List.prefix_append _ _)

theorem blanks_succ (depth : Nat) :
    Text.blanks (2 * (depth + 1)) = Text.blanks (2 * depth) ++ text "  " := by
  rw [Text.blanks, Text.blanks, show text "  " = List.replicate 2 Byte.space from rfl,
    List.replicate_append_replicate, Nat.mul_succ]

/-- A line is not deeper than it is. -/
theorem Headed.shallow {depth : Nat} {w : Heading} {s : Text} (h : Headed depth w s) :
    Shallow (depth + 1) s := by
  obtain ⟨r, rfl⟩ := h
  obtain ⟨c, s, hword, hc⟩ := w.word_cons
  refine .inr fun hprefix => ?_
  rw [blanks_succ, List.prefix_append_right_inj, hword] at hprefix
  exact hc (List.cons_prefix_cons.mp hprefix).1.symm

theorem Shallow.succ {depth : Nat} {r : Text} (h : Shallow depth r) : Shallow (depth + 1) r := by
  rcases h with hnil | hblanks
  · exact .inl hnil
  · refine .inr fun hprefix => hblanks (List.IsPrefix.trans ?_ hprefix)
    rw [blanks_succ]
    exact List.prefix_append _ _

theorem Shallow.rises {depth : Nat} {r : Text} (h : Shallow depth r) : Rises depth r :=
  ⟨h.succ, fun helse => helse.not_shallow h⟩

theorem Headed.rises {depth : Nat} {w : Heading} {s : Text} (h : Headed depth w s)
    (hw : w ≠ .otherwise) : Rises depth s :=
  ⟨h.shallow, fun helse => hw (h.heading_eq helse)⟩

/-- Two lines with the same beginning go on the same. -/
theorem line_cancel {depth : Nat} {w s s' r r' : Text}
    (h : outlineLine depth (w ++ s) ++ r = outlineLine depth (w ++ s') ++ r') :
    s ++ (text "\n" ++ r) = s' ++ (text "\n" ++ r') := by
  simp only [outlineLine, List.append_assoc] at h
  exact List.append_cancel_left (List.append_cancel_left h)

/-- A token at the end of a line can be read off it. -/
theorem line_token {depth : Nat} {w r r' : Text} {t u : Token} (ht : t.Legible) (hu : u.Legible)
    (h : outlineLine depth (w ++ t.written) ++ r = outlineLine depth (w ++ u.written) ++ r') :
    t.erase = u.erase ∧ r = r' := by
  obtain ⟨hsame, hrest⟩ := ht.eq_of_append hu
    (Delimits.leaves (delimits_append (by decide) r) _)
    (Delimits.leaves (delimits_append (by decide) r') _) (line_cancel h)
  exact ⟨hsame, List.append_cancel_left hrest⟩

/-! ## What each part starts with -/

def Expr.heading? : Expr → Option Heading
  | .missing => none
  | .name _ _ => some .ident
  | .integer _ _ => some .integer
  | .float _ _ => some .float
  | .boolean _ _ => some .bool
  | .string _ _ => some .string
  | .unary _ _ => some .unary
  | .binary _ _ _ => some .binary
  | .conditional _ => some .conditional
  | .call _ _ _ _ => some .call

def Stmt.heading? : Stmt → Option Heading
  | .missing => none
  | .binding _ _ _ _ => some .binding
  | .returning _ _ => some .returning
  | .block _ => some .block
  | .expr _ => some .expr

theorem Conditional.headed (c : Conditional) (depth : Nat) (r : Text) :
    Headed depth .conditional (c.outline depth ++ r) := by
  cases c
  simp only [Conditional.outline, List.append_assoc]
  exact headed_line depth .conditional [] _

theorem Block.Legible.headed {b : Block} (h : b.Legible) (depth : Nat) (r : Text) :
    Headed depth .block (b.outline depth ++ r) := by
  cases b with
  | missing => exact h.elim
  | braces opening body closing empty =>
      simp only [Block.outline, List.append_assoc]
      exact headed_line depth .block [] _

theorem Expr.Legible.headed {e : Expr} (h : e.Legible) (depth : Nat) (r : Text) :
    ∃ w, e.heading? = some w ∧ w ≠ .otherwise ∧ Headed depth w (e.outline depth ++ r) := by
  cases e with
  | missing => exact h.elim
  | conditional choice => exact ⟨_, rfl, by decide, choice.headed depth r⟩
  | unary op right =>
      refine ⟨_, rfl, by decide, ?_⟩
      simp only [Expr.outline, List.append_assoc]
      exact headed_line depth .unary (text " " ++ op.lexeme) _
  | binary left op right =>
      refine ⟨_, rfl, by decide, ?_⟩
      simp only [Expr.outline, List.append_assoc]
      exact headed_line depth .binary (text " " ++ op.lexeme) _
  | call callee opening args closing =>
      refine ⟨_, rfl, by decide, ?_⟩
      simp only [Expr.outline, List.append_assoc]
      exact headed_line depth .call [] _
  | name t word => exact ⟨_, rfl, by decide, headed_line depth .ident (text " " ++ word) r⟩
  | integer t n => exact ⟨_, rfl, by decide, headed_line depth .integer (text " " ++ t.lexeme) r⟩
  | float t x => exact ⟨_, rfl, by decide, headed_line depth .float (text " " ++ t.lexeme) r⟩
  | boolean t b => exact ⟨_, rfl, by decide, headed_line depth .bool (text " " ++ t.lexeme) r⟩
  | string t value =>
      exact ⟨_, rfl, by decide, headed_line depth .string (text " \"" ++ value ++ text "\"") r⟩

theorem Stmt.Legible.headed {s : Stmt} (h : s.Legible) (depth : Nat) (r : Text) :
    ∃ w, s.heading? = some w ∧ w ≠ .otherwise ∧ Headed depth w (s.outline depth ++ r) := by
  cases s with
  | missing => exact h.elim
  | binding keyword name word value =>
      refine ⟨_, rfl, by decide, ?_⟩
      simp only [Stmt.outline, List.append_assoc]
      exact headed_line depth .binding (text " " ++ word) _
  | returning keyword value =>
      refine ⟨_, rfl, by decide, ?_⟩
      simp only [Stmt.outline, List.append_assoc]
      exact headed_line depth .returning [] _
  | block body =>
      rw [Stmt.Legible] at h
      exact ⟨_, rfl, by decide, h.headed depth r⟩
  | expr value =>
      refine ⟨_, rfl, by decide, ?_⟩
      simp only [Stmt.outline, List.append_assoc]
      exact headed_line depth .expr [] _

theorem Expr.Legible.rises {e : Expr} (h : e.Legible) (depth : Nat) (r : Text) :
    Rises depth (e.outline depth ++ r) := by
  obtain ⟨w, -, hw, hheaded⟩ := h.headed depth r
  exact hheaded.rises hw

theorem Expr.heading_eq {e y : Expr} (h : e.Legible) (hy : y.Legible) {depth : Nat} {r r' : Text}
    (heq : e.outline depth ++ r = y.outline depth ++ r') : e.heading? = y.heading? := by
  obtain ⟨w, hw, -, hheaded⟩ := h.headed depth r
  obtain ⟨w', hw', -, hheaded'⟩ := hy.headed depth r'
  rw [← heq] at hheaded'
  rw [hw, hw', hheaded.heading_eq hheaded']

theorem Stmt.heading_eq {s y : Stmt} (h : s.Legible) (hy : y.Legible) {depth : Nat} {r r' : Text}
    (heq : s.outline depth ++ r = y.outline depth ++ r') : s.heading? = y.heading? := by
  obtain ⟨w, hw, -, hheaded⟩ := h.headed depth r
  obtain ⟨w', hw', -, hheaded'⟩ := hy.headed depth r'
  rw [← heq] at hheaded'
  rw [hw, hw', hheaded.heading_eq hheaded']

/-! ## Parts read off their outlines -/

def Expr.UniqueOutline (depth : Nat) : Expr → Prop :=
  ReadsOff (Expr.outline depth) (Expr.relabel .erase) Expr.Legible (Rises depth)

def Expr.UniqueOutlines (depth : Nat) : List Expr → Prop :=
  ReadsOff (Expr.outlineAll depth) (Expr.relabelAll .erase) Expr.LegibleAll (Shallow depth)

def Conditional.UniqueOutline (depth : Nat) : Conditional → Prop :=
  ReadsOff (Conditional.outline depth) (Conditional.relabel .erase)
    Conditional.Legible (Rises depth)

def Alternative.UniqueOutline (depth : Nat) : Alternative → Prop :=
  ReadsOff (Alternative.outline depth) (Alternative.relabel .erase)
    Alternative.Legible (Rises depth)

def Block.UniqueOutline (depth : Nat) : Block → Prop :=
  ReadsOff (Block.outline depth) (Block.relabel .erase) Block.Legible (Shallow (depth + 1))

def Stmt.UniqueOutline (depth : Nat) : Stmt → Prop :=
  ReadsOff (Stmt.outline depth) (Stmt.relabel .erase) Stmt.Legible (Shallow (depth + 1))

def Stmt.UniqueOutlines (depth : Nat) : List Stmt → Prop :=
  ReadsOff (Stmt.outlineAll depth) (Stmt.relabelAll .erase) Stmt.LegibleAll (Shallow depth)

section

variable {depth : Nat}

/-- Headings of operands that are a single token. -/
def Heading.leaves : List Heading := [.ident, .integer, .float, .bool, .string]

/-- An operand of one token shows that token. -/
theorem Expr.outline_ofToken {t : Token} (hk : t.kind ∈ operandKinds) :
    ∃ w ∈ Heading.leaves, (Expr.ofToken t).heading? = some w ∧
      ∀ depth, (Expr.ofToken t).outline depth
        = outlineLine depth ((w.word ++ text ": ") ++ t.written) := by
  rw [← Expr.canonical_ofToken hk]
  simp only [operandKinds, List.mem_cons, List.not_mem_nil, or_false] at hk
  rcases hk with hk | hk | hk | hk | hk | hk <;> simp only [Expr.ofToken, hk]
  · exact ⟨.ident, by decide, rfl, fun _ => rfl⟩
  · exact ⟨.integer, by decide, rfl, fun _ => rfl⟩
  · exact ⟨.float, by decide, rfl, fun _ => rfl⟩
  · exact ⟨.string, by decide, rfl, fun _ => rfl⟩
  · exact ⟨.bool, by decide, rfl, fun _ => rfl⟩
  · exact ⟨.bool, by decide, rfl, fun _ => rfl⟩

theorem uniqueOutline_leaf {t : Token} (ht : t.Legible) (hk : t.kind ∈ operandKinds) :
    (Expr.ofToken t).UniqueOutline depth := by
  intro y r r' hy _ _ heq
  have hheading := Expr.heading_eq (Expr.legible_ofToken ht hk) hy heq
  obtain ⟨w, hleaf, hw, houtline⟩ := Expr.outline_ofToken hk
  rw [hw] at hheading
  rcases hy.shape with ⟨u, hu, hku, rfl⟩ | ⟨op, right, rfl⟩ | ⟨left, op, right, rfl⟩ |
    ⟨choice, rfl⟩ | ⟨callee, opening, args, closing, rfl⟩
  · obtain ⟨w', -, hw', houtline'⟩ := Expr.outline_ofToken hku
    obtain rfl : w = w' := Option.some.inj (hheading.trans hw')
    rw [houtline, houtline'] at heq
    obtain ⟨hsame, hrest⟩ := line_token ht hu heq
    rw [Expr.relabel_ofToken, Expr.relabel_ofToken, hsame]
    exact ⟨rfl, hrest⟩
  all_goals
    cases hheading
    exact absurd hleaf (by decide)

theorem line_operator {op op' : Token} {w r r' : Text} (hop : op.Legible) (hop' : op'.Legible)
    (hk : op.kind ≠ .string) (hk' : op'.kind ≠ .string)
    (h : outlineLine depth (w ++ op.lexeme) ++ r = outlineLine depth (w ++ op'.lexeme) ++ r') :
    op.erase = op'.erase ∧ r = r' := by
  rw [← Token.written_of_ne hk, ← Token.written_of_ne hk'] at h
  exact line_token hop hop' h

theorem uniqueOutline_unary {op : Token} {right : Expr} (h : (Expr.unary op right).Legible)
    (hright : right.UniqueOutline (depth + 1)) : (Expr.unary op right).UniqueOutline depth := by
  intro y r r' hy hr hr' heq
  have hheading := Expr.heading_eq h hy heq
  cases y with
  | unary op' right' =>
      rw [Expr.Legible] at h hy
      have hop : ∀ {t : Token}, t.LegibleAs .not ∨ t.LegibleAs .minus →
          t.Legible ∧ t.kind ≠ .string := by
        rintro t (⟨ht, hk⟩ | ⟨ht, hk⟩) <;> exact ⟨ht, by simp [hk]⟩
      simp only [Expr.outline, List.append_assoc] at heq
      obtain ⟨hops, hrest⟩ := line_operator (hop h.1).1 (hop hy.1).1 (hop h.1).2 (hop hy.1).2 heq
      obtain ⟨hrights, hrest⟩ := hright hy.2 hr.shallow.rises hr'.shallow.rises hrest
      rw [Expr.relabel, Expr.relabel, hops, hrights]
      exact ⟨rfl, hrest⟩
  | _ => cases hheading

theorem uniqueOutline_binary {left right : Expr} {op : Token}
    (h : (Expr.binary left op right).Legible) (hleft : left.UniqueOutline (depth + 1))
    (hright : right.UniqueOutline (depth + 1)) :
    (Expr.binary left op right).UniqueOutline depth := by
  intro y r r' hy hr hr' heq
  have hheading := Expr.heading_eq h hy heq
  cases y with
  | binary left' op' right' =>
      rw [Expr.Legible] at h hy
      have hop : ∀ {t : Token}, (∃ level, t.kind ∈ operatorsAt level) → t.kind ≠ .string := by
        rintro t ⟨level, hlevel⟩ hk
        rw [hk, mem_operatorsAt] at hlevel
        simp [Kind.strength] at hlevel
      simp only [Expr.outline, List.append_assoc] at heq
      obtain ⟨hops, hrest⟩ := line_operator h.2.1.1 hy.2.1.1 (hop h.2.1.2) (hop hy.2.1.2) heq
      obtain ⟨hlefts, hrest⟩ := hleft hy.1 (h.2.2.rises _ _) (hy.2.2.rises _ _) hrest
      obtain ⟨hrights, hrest⟩ := hright hy.2.2 hr.shallow.rises hr'.shallow.rises hrest
      rw [Expr.relabel, Expr.relabel, hlefts, hops, hrights]
      exact ⟨rfl, hrest⟩
  | _ => cases hheading

theorem Expr.headed_outlineAll {e : Expr} {es : List Expr} (h : Expr.LegibleAll (e :: es))
    (r : Text) : ∃ w, w ≠ .otherwise ∧ Headed depth w (Expr.outlineAll depth (e :: es) ++ r) := by
  rw [Expr.LegibleAll] at h
  obtain ⟨w, -, hw, hheaded⟩ := h.1.headed depth (Expr.outlineAll depth es ++ r)
  rw [← List.append_assoc] at hheaded
  exact ⟨w, hw, hheaded⟩

theorem rises_outlineAll {es : List Expr} (h : Expr.LegibleAll es) {r : Text}
    (hr : Shallow depth r) : Rises depth (Expr.outlineAll depth es ++ r) := by
  cases es with
  | nil => exact hr.rises
  | cons e es =>
      obtain ⟨w, hw, hheaded⟩ := Expr.headed_outlineAll h r
      exact hheaded.rises hw

theorem uniqueOutline_call {callee : Expr} {opening closing : Token} {args : List Expr}
    (h : (Expr.call callee opening args closing).Legible)
    (hcallee : callee.UniqueOutline (depth + 1)) (hargs : Expr.UniqueOutlines (depth + 1) args) :
    (Expr.call callee opening args closing).UniqueOutline depth := by
  intro y r r' hy hr hr' heq
  have hheading := Expr.heading_eq h hy heq
  cases y with
  | call callee' opening' args' closing' =>
      rw [Expr.Legible] at h hy
      simp only [Expr.outline, List.append_assoc] at heq
      obtain ⟨hcallees, hrest⟩ := hcallee hy.1 (rises_outlineAll h.2.2.1 hr.shallow)
        (rises_outlineAll hy.2.2.1 hr'.shallow) (List.append_cancel_left heq)
      obtain ⟨hall, hrest⟩ := hargs hy.2.2.1 hr.shallow hr'.shallow hrest
      rw [Expr.relabel, Expr.relabel, hcallees, hall, h.2.1.erase_eq rfl, hy.2.1.erase_eq rfl,
        h.2.2.2.erase_eq rfl, hy.2.2.2.erase_eq rfl]
      exact ⟨rfl, hrest⟩
  | _ => cases hheading

theorem Expr.uniqueOutlines_nil : Expr.UniqueOutlines depth [] := by
  intro y r r' hy hr _ heq
  cases y with
  | nil => exact ⟨rfl, heq⟩
  | cons e' es' =>
      obtain ⟨w, -, hheaded⟩ := Expr.headed_outlineAll hy r'
      rw [← heq] at hheaded
      exact absurd hr hheaded.not_shallow

theorem Expr.uniqueOutlines_cons {e : Expr} {es : List Expr} (h : Expr.LegibleAll (e :: es))
    (he : e.UniqueOutline depth) (hes : Expr.UniqueOutlines depth es) :
    Expr.UniqueOutlines depth (e :: es) := by
  intro y r r' hy hr hr' heq
  cases y with
  | nil =>
      obtain ⟨w, -, hheaded⟩ := Expr.headed_outlineAll h r
      rw [heq] at hheaded
      exact absurd hr' hheaded.not_shallow
  | cons e' es' =>
      rw [Expr.LegibleAll] at h hy
      simp only [Expr.outlineAll, List.append_assoc] at heq
      obtain ⟨hsame, hrest⟩ := he hy.1 (rises_outlineAll h.2 hr) (rises_outlineAll hy.2 hr') heq
      obtain ⟨hall, hrest⟩ := hes hy.2 hr hr' hrest
      rw [Expr.relabelAll, Expr.relabelAll, hsame, hall]
      exact ⟨rfl, hrest⟩

/-- An alternative stands at the depth of its conditional. -/
theorem Alternative.headed {a : Alternative} (ha : a ≠ .absent) (depth : Nat) (r : Text) :
    Headed depth .otherwise (a.outline depth ++ r) := by
  cases a
  case absent => exact absurd rfl ha
  all_goals
    simp only [Alternative.outline, List.append_assoc]
    exact headed_line depth .otherwise [] _

theorem shallow_alternative (a : Alternative) {r : Text} (hr : Rises depth r) :
    Shallow (depth + 1) (a.outline depth ++ r) := by
  by_cases ha : a = .absent
  · subst ha
    exact hr.shallow
  · exact (Alternative.headed ha depth r).shallow

theorem uniqueOutline_conditional {keyword : Token} {condition : Expr} {body : Block}
    {otherwise : Alternative} (h : (Conditional.mk keyword condition body otherwise).Legible)
    (hcondition : condition.UniqueOutline (depth + 1)) (hbody : body.UniqueOutline (depth + 1))
    (hotherwise : otherwise.UniqueOutline depth) :
    (Conditional.mk keyword condition body otherwise).UniqueOutline depth := by
  intro y r r' hy hr hr' heq
  obtain ⟨keyword', condition', body', otherwise'⟩ := y
  rw [Conditional.Legible] at h hy
  simp only [Conditional.outline, List.append_assoc] at heq
  obtain ⟨hconditions, hrest⟩ := hcondition hy.2.1
    ((h.2.2.1.headed _ _).rises (by decide)) ((hy.2.2.1.headed _ _).rises (by decide))
    (List.append_cancel_left heq)
  obtain ⟨hbodies, hrest⟩ := hbody hy.2.2.1 (shallow_alternative otherwise hr).succ
    (shallow_alternative otherwise' hr').succ hrest
  obtain ⟨hothers, hrest⟩ := hotherwise hy.2.2.2 hr hr' hrest
  rw [Conditional.relabel, Conditional.relabel, h.1.erase_eq rfl, hy.1.erase_eq rfl, hconditions,
    hbodies, hothers]
  exact ⟨rfl, hrest⟩

theorem uniqueOutline_choice {choice : Conditional} (h : (Expr.conditional choice).Legible)
    (hchoice : choice.UniqueOutline depth) : (Expr.conditional choice).UniqueOutline depth := by
  intro y r r' hy hr hr' heq
  have hheading := Expr.heading_eq h hy heq
  cases y with
  | conditional choice' =>
      obtain ⟨hsame, hrest⟩ := hchoice hy hr hr' heq
      rw [Expr.relabel, Expr.relabel, hsame]
      exact ⟨rfl, hrest⟩
  | _ => cases hheading

theorem uniqueOutline_absent : Alternative.absent.UniqueOutline depth := by
  intro y r r' _ hr _ heq
  by_cases hy : y = .absent
  · subst hy
    exact ⟨rfl, heq⟩
  · have hheaded := Alternative.headed hy depth r'
    rw [← heq] at hheaded
    exact absurd hheaded hr.noElse

/-- A block behind `else` is no conditional. -/
theorem uniqueOutline_otherwise {body : Block} (h : body.Legible)
    (hbody : body.UniqueOutline (depth + 1)) : (Alternative.block body).UniqueOutline depth := by
  intro y r r' hy hr hr' heq
  cases y with
  | absent =>
      have hheaded := Alternative.headed (a := .block body) (by simp) depth r
      rw [heq] at hheaded
      exact absurd hheaded hr'.noElse
  | block body' =>
      simp only [Alternative.outline, List.append_assoc] at heq
      obtain ⟨hsame, hrest⟩ := hbody hy hr.shallow.succ hr'.shallow.succ
        (List.append_cancel_left heq)
      rw [Alternative.relabel, Alternative.relabel, hsame]
      exact ⟨rfl, hrest⟩
  | chained next' =>
      simp only [Alternative.outline, List.append_assoc] at heq
      have hheaded := h.headed (depth + 1) r
      rw [List.append_cancel_left heq] at hheaded
      cases hheaded.heading_eq (next'.headed (depth + 1) r')

theorem uniqueOutline_chained {next : Conditional} (hnext : next.UniqueOutline (depth + 1)) :
    (Alternative.chained next).UniqueOutline depth := by
  intro y r r' hy hr hr' heq
  cases y with
  | absent =>
      have hheaded := Alternative.headed (a := .chained next) (by simp) depth r
      rw [heq] at hheaded
      exact absurd hheaded hr'.noElse
  | block body' =>
      rw [Alternative.Legible] at hy
      simp only [Alternative.outline, List.append_assoc] at heq
      have hheaded := next.headed (depth + 1) r
      rw [List.append_cancel_left heq] at hheaded
      cases hheaded.heading_eq (hy.headed (depth + 1) r')
  | chained next' =>
      simp only [Alternative.outline, List.append_assoc] at heq
      obtain ⟨hsame, hrest⟩ := hnext hy hr.shallow.rises hr'.shallow.rises
        (List.append_cancel_left heq)
      rw [Alternative.relabel, Alternative.relabel, hsame]
      exact ⟨rfl, hrest⟩

theorem uniqueOutline_block {opening closing : Token} {body : List Stmt} {empty : Bool}
    (h : (Block.braces opening body closing empty).Legible)
    (hbody : Stmt.UniqueOutlines (depth + 1) body) :
    (Block.braces opening body closing empty).UniqueOutline depth := by
  intro y r r' hy hr hr' heq
  cases y with
  | missing => exact hy.elim
  | braces opening' body' closing' empty' =>
      rw [Block.Legible] at h hy
      simp only [Block.outline, List.append_assoc] at heq
      obtain ⟨hall, hrest⟩ := hbody hy.2.1 hr hr' (List.append_cancel_left heq)
      have hempty : empty = empty' := by
        rw [h.2.2.2, hy.2.2.2, ← Stmt.isEmpty_relabelAll .erase body, hall,
          Stmt.isEmpty_relabelAll]
      rw [Block.relabel, Block.relabel, hall, hempty, h.1.erase_eq rfl, hy.1.erase_eq rfl,
        h.2.2.1.erase_eq rfl, hy.2.2.1.erase_eq rfl]
      exact ⟨rfl, hrest⟩

theorem uniqueOutline_binding {keyword name : Token} {word : Text} {value : Expr}
    (h : (Stmt.binding keyword name word value).Legible)
    (hvalue : value.UniqueOutline (depth + 1)) :
    (Stmt.binding keyword name word value).UniqueOutline depth := by
  intro y r r' hy hr hr' heq
  have hheading := Stmt.heading_eq h hy heq
  cases y with
  | binding keyword' name' word' value' =>
      rw [Stmt.Legible] at h hy
      obtain ⟨hkeyword, hname, rfl, -⟩ := h
      obtain ⟨hkeyword', hname', rfl, hvalue'⟩ := hy
      simp only [Stmt.outline, List.append_assoc] at heq
      obtain ⟨hnames, hrest⟩ := line_operator hname.1 hname'.1 (by simp [hname.2])
        (by simp [hname'.2]) heq
      obtain ⟨hvalues, hrest⟩ := hvalue hvalue' hr.rises hr'.rises hrest
      rw [Stmt.relabel, Stmt.relabel, hkeyword.erase_eq rfl, hkeyword'.erase_eq rfl, hnames,
        hvalues, (Token.erase_eq_iff.mp hnames).2.1]
      exact ⟨rfl, hrest⟩
  | _ => cases hheading

/-- Nothing at all stands under a bare return. -/
theorem uniqueOutline_returning {keyword : Token} {value : Expr}
    (h : (Stmt.returning keyword value).Legible)
    (hvalue : value.Legible → value.UniqueOutline (depth + 1)) :
    (Stmt.returning keyword value).UniqueOutline depth := by
  intro y r r' hy hr hr' heq
  have hheading := Stmt.heading_eq h hy heq
  cases y with
  | returning keyword' value' =>
      rw [Stmt.Legible] at h hy
      simp only [Stmt.outline, List.append_assoc] at heq
      have hrest := List.append_cancel_left heq
      rw [Stmt.relabel, Stmt.relabel, h.1.erase_eq rfl, hy.1.erase_eq rfl]
      have hdeeper : ∀ {e : Expr} {s s' : Text}, e.Legible → Shallow (depth + 1) s →
          s ≠ e.outline (depth + 1) ++ s' := by
        rintro e s s' he hs rfl
        obtain ⟨w, -, -, hheaded⟩ := he.headed (depth + 1) s'
        exact hheaded.not_shallow hs
      rcases h.2 with rfl | hlegible
      · rcases hy.2 with rfl | hlegible'
        · exact ⟨rfl, hrest⟩
        · exact absurd hrest (hdeeper hlegible' hr)
      · rcases hy.2 with rfl | hlegible'
        · exact absurd hrest.symm (hdeeper hlegible hr')
        · obtain ⟨hvalues, hrest⟩ := hvalue hlegible hlegible' hr.rises hr'.rises hrest
          rw [hvalues]
          exact ⟨rfl, hrest⟩
  | _ => cases hheading

theorem uniqueOutline_blockStmt {body : Block} (h : (Stmt.block body).Legible)
    (hbody : body.UniqueOutline depth) : (Stmt.block body).UniqueOutline depth := by
  intro y r r' hy hr hr' heq
  have hheading := Stmt.heading_eq h hy heq
  cases y with
  | block body' =>
      simp only [Stmt.outline] at heq
      obtain ⟨hsame, hrest⟩ := hbody hy hr hr' heq
      rw [Stmt.relabel, Stmt.relabel, hsame]
      exact ⟨rfl, hrest⟩
  | _ => cases hheading

theorem uniqueOutline_exprStmt {value : Expr} (h : (Stmt.expr value).Legible)
    (hvalue : value.UniqueOutline (depth + 1)) : (Stmt.expr value).UniqueOutline depth := by
  intro y r r' hy hr hr' heq
  have hheading := Stmt.heading_eq h hy heq
  cases y with
  | expr value' =>
      simp only [Stmt.outline, List.append_assoc] at heq
      obtain ⟨hsame, hrest⟩ := hvalue hy hr.rises hr'.rises (List.append_cancel_left heq)
      rw [Stmt.relabel, Stmt.relabel, hsame]
      exact ⟨rfl, hrest⟩
  | _ => cases hheading

theorem Stmt.headed_outlineAll {s : Stmt} {ss : List Stmt} (h : Stmt.LegibleAll (s :: ss))
    (r : Text) : ∃ w, Headed depth w (Stmt.outlineAll depth (s :: ss) ++ r) := by
  rw [Stmt.LegibleAll] at h
  obtain ⟨w, -, -, hheaded⟩ := h.1.headed depth (Stmt.outlineAll depth ss ++ r)
  rw [← List.append_assoc] at hheaded
  exact ⟨w, hheaded⟩

theorem shallow_outlineAll {ss : List Stmt} (h : Stmt.LegibleAll ss) {r : Text}
    (hr : Shallow depth r) : Shallow (depth + 1) (Stmt.outlineAll depth ss ++ r) := by
  cases ss with
  | nil => exact hr.succ
  | cons s ss =>
      obtain ⟨w, hheaded⟩ := Stmt.headed_outlineAll h r
      exact hheaded.shallow

theorem Stmt.uniqueOutlines_nil : Stmt.UniqueOutlines depth [] := by
  intro y r r' hy hr _ heq
  cases y with
  | nil => exact ⟨rfl, heq⟩
  | cons s' ss' =>
      obtain ⟨w, hheaded⟩ := Stmt.headed_outlineAll hy r'
      rw [← heq] at hheaded
      exact absurd hr hheaded.not_shallow

theorem Stmt.uniqueOutlines_cons {s : Stmt} {ss : List Stmt} (h : Stmt.LegibleAll (s :: ss))
    (hs : s.UniqueOutline depth) (hss : Stmt.UniqueOutlines depth ss) :
    Stmt.UniqueOutlines depth (s :: ss) := by
  intro y r r' hy hr hr' heq
  cases y with
  | nil =>
      obtain ⟨w, hheaded⟩ := Stmt.headed_outlineAll h r
      rw [heq] at hheaded
      exact absurd hr' hheaded.not_shallow
  | cons s' ss' =>
      rw [Stmt.LegibleAll] at h hy
      simp only [Stmt.outlineAll, List.append_assoc] at heq
      obtain ⟨hsame, hrest⟩ := hs hy.1 (shallow_outlineAll h.2 hr) (shallow_outlineAll hy.2 hr') heq
      obtain ⟨hall, hrest⟩ := hss hy.2 hr hr' hrest
      rw [Stmt.relabelAll, Stmt.relabelAll, hsame, hall]
      exact ⟨rfl, hrest⟩

end

mutual

theorem Expr.uniqueOutline : ∀ {e : Expr}, e.Legible → ∀ depth, e.UniqueOutline depth
  | .missing, h, _ => h.elim
  | .name _ _, h, _ | .integer _ _, h, _ | .float _ _, h, _ | .boolean _ _, h, _
  | .string _ _, h, _ => by
      rw [Expr.Legible] at h
      rw [← h.2]
      exact uniqueOutline_leaf h.1 (Expr.mem_operandKinds h.2 (by simp))
  | .unary _ _, h, depth =>
      uniqueOutline_unary h (Expr.uniqueOutline (And.right h) (depth + 1))
  | .binary _ _ _, h, depth =>
      uniqueOutline_binary h (Expr.uniqueOutline (And.left h) (depth + 1))
        (Expr.uniqueOutline (And.right (And.right h)) (depth + 1))
  | .conditional _, h, depth =>
      uniqueOutline_choice h (Conditional.uniqueOutline h depth)
  | .call _ _ _ _, h, depth =>
      uniqueOutline_call h (Expr.uniqueOutline (And.left h) (depth + 1))
        (Expr.uniqueOutlines (And.left (And.right (And.right h))) (depth + 1))

theorem Expr.uniqueOutlines : ∀ {es : List Expr}, Expr.LegibleAll es →
    ∀ depth, Expr.UniqueOutlines depth es
  | [], _, _ => Expr.uniqueOutlines_nil
  | _ :: _, h, depth =>
      Expr.uniqueOutlines_cons h (Expr.uniqueOutline (And.left h) depth)
        (Expr.uniqueOutlines (And.right h) depth)

theorem Conditional.uniqueOutline : ∀ {c : Conditional}, c.Legible →
    ∀ depth, c.UniqueOutline depth
  | .mk _ _ _ _, h, depth =>
      have hparts := And.right h
      uniqueOutline_conditional h (Expr.uniqueOutline (And.left hparts) (depth + 1))
        (Block.uniqueOutline (And.left (And.right hparts)) (depth + 1))
        (Alternative.uniqueOutline (And.right (And.right hparts)) depth)

theorem Alternative.uniqueOutline : ∀ {a : Alternative}, a.Legible →
    ∀ depth, a.UniqueOutline depth
  | .absent, _, _ => uniqueOutline_absent
  | .block _, h, depth => uniqueOutline_otherwise h (Block.uniqueOutline h (depth + 1))
  | .chained _, h, depth => uniqueOutline_chained (Conditional.uniqueOutline h (depth + 1))

theorem Block.uniqueOutline : ∀ {b : Block}, b.Legible → ∀ depth, b.UniqueOutline depth
  | .missing, h, _ => h.elim
  | .braces _ _ _ _, h, depth =>
      uniqueOutline_block h (Stmt.uniqueOutlines (And.left (And.right h)) (depth + 1))

theorem Stmt.uniqueOutline : ∀ {s : Stmt}, s.Legible → ∀ depth, s.UniqueOutline depth
  | .missing, h, _ => h.elim
  | .binding _ _ _ _, h, depth =>
      uniqueOutline_binding h
        (Expr.uniqueOutline (And.right (And.right (And.right h))) (depth + 1))
  | .returning _ _, h, depth =>
      uniqueOutline_returning h fun hvalue => Expr.uniqueOutline hvalue (depth + 1)
  | .block _, h, depth => uniqueOutline_blockStmt h (Block.uniqueOutline h depth)
  | .expr _, h, depth => uniqueOutline_exprStmt h (Expr.uniqueOutline h (depth + 1))

theorem Stmt.uniqueOutlines : ∀ {ss : List Stmt}, Stmt.LegibleAll ss →
    ∀ depth, Stmt.UniqueOutlines depth ss
  | [], _, _ => Stmt.uniqueOutlines_nil
  | _ :: _, h, depth =>
      Stmt.uniqueOutlines_cons h (Stmt.uniqueOutline (And.left h) depth)
        (Stmt.uniqueOutlines (And.right h) depth)

end

/-- Programs with the same outline are the same but for the places of their
tokens. -/
theorem Program.eq_of_outline {p q : Program} (hp : Stmt.LegibleAll p) (hq : Stmt.LegibleAll q)
    (h : p.outline = q.outline) : p.relabel .erase = q.relabel .erase := by
  have hend : Shallow 0 [] := .inl rfl
  refine (Stmt.uniqueOutlines hp 0 hq hend hend ?_).1
  rw [List.append_nil, List.append_nil]
  exact h

end Scriptlet
