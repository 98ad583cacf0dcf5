import Scriptlet.Proofs.Parse.Placement
import Scriptlet.Proofs.Parse.Relabel
import Scriptlet.Proofs.Source.Lines

/-!
# Where the tokens of a tree come from

A parser that is blind to places cannot make up a token either. Whatever holds of
all tokens it is given, and of the two halves of a signed number that it holds of,
holds of all tokens in its trees and of all tokens that its errors are about
(`parse_tokens`).

To see this, relabel the tokens in two ways that agree on just the tokens in
question (`Token.sift`). The list is relabelled the same way twice, so what is
parsed from it is, too, and there is nothing in it on which the two disagree.

The tokens of a source without lexical errors are genuine (`Token.Genuine`): each
is in its place and can be read again. So is every token of its trees and errors
(`parse_genuine`).
-/

namespace Scriptlet

/-! ## The tokens of a node -/

namespace Node

/-- The tokens of a node itself, without those of the nodes below it. -/
def tokens : Node → List Token
  | .expr .missing => []
  | .expr (.name token _) => [token]
  | .expr (.integer token _) => [token]
  | .expr (.float token _) => [token]
  | .expr (.boolean token _) => [token]
  | .expr (.string token _) => [token]
  | .expr (.unary op _) => [op]
  | .expr (.binary _ op _) => [op]
  | .expr (.conditional (.mk keyword _ _ _)) => [keyword]
  | .expr (.call _ opening _ closing) => [opening, closing]
  | .stmt (.binding keyword nameToken _ _) => [keyword, nameToken]
  | .stmt (.returning keyword _) => [keyword]
  | .stmt (.block (.braces opening _ closing _)) => [opening, closing]
  | .stmt _ => []

def relabel (f : Token → Token) : Node → Node
  | .expr value => .expr (value.relabel f)
  | .stmt body => .stmt (body.relabel f)

variable {f g : Token → Token} {n m : Node}

theorem expr_relabelAll {es : List Expr} (h : Expr.relabelAll f es = Expr.relabelAll g es) :
    ∀ m ∈ es.map Node.expr, m.relabel f = m.relabel g := by
  induction es with
  | nil => exact List.forall_mem_nil _
  | cons e es ih =>
      obtain ⟨he, hes⟩ := List.cons.inj h
      exact List.forall_mem_cons.mpr ⟨congrArg Node.expr he, ih hes⟩

theorem stmt_relabelAll {ss : List Stmt} (h : Stmt.relabelAll f ss = Stmt.relabelAll g ss) :
    ∀ m ∈ ss.map Node.stmt, m.relabel f = m.relabel g := by
  induction ss with
  | nil => exact List.forall_mem_nil _
  | cons s ss ih =>
      obtain ⟨hs, hss⟩ := List.cons.inj h
      exact List.forall_mem_cons.mpr ⟨congrArg Node.stmt hs, ih hss⟩

/-- Two relabellings that make the same of a node make the same of its tokens and
of the nodes below it. -/
theorem relabel_step (h : n.relabel f = n.relabel g) :
    (∀ t ∈ n.tokens, f t = g t) ∧ ∀ m ∈ n.children, m.relabel f = m.relabel g := by
  rcases n with e | s
  · cases e with
    | missing => simp [tokens, children]
    | name | integer | float | boolean | string | unary =>
        simpa [relabel, Expr.relabel, tokens, children] using h
    | binary left op right =>
        simp only [relabel, Expr.relabel, Node.expr.injEq, Expr.binary.injEq] at h
        simp [tokens, children, relabel, h]
    | conditional choice =>
        obtain ⟨keyword, condition, body, otherwise⟩ := choice
        simp only [relabel, Expr.relabel, Conditional.relabel, Node.expr.injEq,
          Expr.conditional.injEq, Conditional.mk.injEq] at h
        obtain ⟨hkeyword, hcondition, hbody, hotherwise⟩ := h
        cases otherwise <;>
          simp_all [tokens, children, Alternative.children, relabel, Stmt.relabel, Expr.relabel,
            Alternative.relabel]
    | call callee opening args closing =>
        simp only [relabel, Expr.relabel, Node.expr.injEq, Expr.call.injEq] at h
        obtain ⟨hcallee, hopening, hargs, hclosing⟩ := h
        refine ⟨by simp [tokens, hopening, hclosing], List.forall_mem_cons.mpr ⟨?_, ?_⟩⟩
        · exact congrArg Node.expr hcallee
        · exact expr_relabelAll hargs
  · cases s with
    | missing => simp [tokens, children]
    | binding keyword nameToken word value =>
        simp only [relabel, Stmt.relabel, Node.stmt.injEq, Stmt.binding.injEq] at h
        simp [tokens, children, relabel, Expr.relabel, h]
    | returning keyword value =>
        simp only [relabel, Stmt.relabel, Node.stmt.injEq, Stmt.returning.injEq] at h
        refine ⟨by simp [tokens, h.1], fun m hm => ?_⟩
        cases value <;> simp_all [children, relabel]
    | block body =>
        cases body with
        | missing => simp [tokens, children]
        | braces opening body closing empty =>
            simp only [relabel, Stmt.relabel, Block.relabel, Node.stmt.injEq, Stmt.block.injEq,
              Block.braces.injEq] at h
            exact ⟨by simp [tokens, h.1, h.2.2.1], stmt_relabelAll h.2.1⟩
    | expr value =>
        simp only [relabel, Stmt.relabel, Node.stmt.injEq, Stmt.expr.injEq] at h
        simp [tokens, children, relabel, h]

theorem Holds.relabel_eq (hm : n.Holds m) (h : n.relabel f = n.relabel g) :
    ∀ t ∈ m.tokens, f t = g t := by
  induction hm with
  | self n => exact (relabel_step h).1
  | child hmem _ ih => exact ih ((relabel_step h).2 _ hmem)

end Node

/-! ## Sifting tokens -/

namespace Token

variable {P : Token → Prop} {a b t u : Token}

open Classical in
/-- Keeps the tokens that `P` holds of, and makes `stray` of the others. -/
noncomputable def sift (P : Token → Prop) (stray t : Token) : Token := if P t then t else stray

theorem sift_of (h : P t) (stray : Token) : sift P stray t = t := if_pos h

/-- Two sieves with their own strays agree on nothing but what they keep. -/
theorem sift_eq_iff (hab : a ≠ b) (ha : ¬ P a) (hb : ¬ P b) :
    sift P a t = sift P b u ↔ t = u ∧ P t := by
  constructor
  · intro h
    by_cases ht : P t <;> by_cases hu : P u
    · rw [sift_of ht, sift_of hu] at h
      exact ⟨h, ht⟩
    · rw [sift_of ht, sift, if_neg hu] at h
      exact absurd (h ▸ ht) hb
    · rw [sift_of hu, sift, if_neg ht] at h
      exact absurd (h ▸ hu) ha
    · rw [sift, sift, if_neg ht, if_neg hu] at h
      exact absurd h hab
  · rintro ⟨rfl, ht⟩
    rw [sift_of ht, sift_of ht]

theorem alike_sift (hab : a ≠ b) (ha : ¬ P a) (hb : ¬ P b)
    (hsplit : ∀ t, P t → Cursor.isSignedNumber t = true →
      P (Cursor.minusOf t) ∧ P (Cursor.unsignedOf t)) : Alike (sift P a) (sift P b) where
  kind h := congrArg Token.kind ((sift_eq_iff hab ha hb).mp h).1
  lexeme h := congrArg Token.lexeme ((sift_eq_iff hab ha hb).mp h).1
  isEof h := congrArg Token.isEof ((sift_eq_iff hab ha hb).mp h).1
  minusOf h hs := by
    obtain ⟨rfl, ht⟩ := (sift_eq_iff hab ha hb).mp h
    exact (sift_eq_iff hab ha hb).mpr ⟨rfl, (hsplit _ ht hs).1⟩
  unsignedOf h hs := by
    obtain ⟨rfl, ht⟩ := (sift_eq_iff hab ha hb).mp h
    exact (sift_eq_iff hab ha hb).mpr ⟨rfl, (hsplit _ ht hs).2⟩

end Token

theorem parse_tokens {P : Token → Prop} {a b : Token} {ts : List Token} (hab : a ≠ b) (ha : ¬ P a)
    (hb : ¬ P b) (hsplit : ∀ t, P t → Cursor.isSignedNumber t = true →
      P (Cursor.minusOf t) ∧ P (Cursor.unsignedOf t)) (hends : Token.EndsOnce ts)
    (h : ∀ t ∈ ts, P t) :
    (∀ s ∈ (parse ts).program, ∀ n, (Node.stmt s).Holds n → ∀ t ∈ n.tokens, P t) ∧
      ∀ e ∈ (parse ts).errors, P e.got := by
  have hagree : ∀ t, Token.sift P a t = Token.sift P b t → P t :=
    fun t ht => ((Token.sift_eq_iff hab ha hb).mp ht).2
  have hmap : ts.map (Token.sift P a) = ts.map (Token.sift P b) := by
    refine List.map_congr_left fun t ht => ?_
    rw [Token.sift_of (h t ht), Token.sift_of (h t ht)]
  obtain ⟨hprogram, herrors⟩ := parse_relabel (Token.alike_sift hab ha hb hsplit) hends hends hmap
  refine ⟨fun s hs n hn t ht => ?_, fun e he => ?_⟩
  · refine hagree t (hn.relabel_eq ?_ t ht)
    exact Node.stmt_relabelAll hprogram _ (List.mem_map_of_mem hs)
  · have hgot := List.map_inj_left.mp herrors e he
    exact hagree e.got (congrArg ParseError.got hgot)

/-! ## Genuine tokens -/

/-- A token in its place that can be read again, or the end of input. -/
structure Token.Genuine (t : Token) (source : Text) : Prop where
  placed : t.Placed source
  ended : t.kind = .eof → t.isEof = true ∧ t.stop = t.start
  legible : t.kind ≠ .eof → t.Legible

namespace Token

variable {t : Token} {source : Text}

theorem genuine_scan (h : (Token.scan source).2 = []) :
    ∀ t ∈ (Token.scan source).1, t.Genuine source := by
  intro t ht
  have htiles := Scanner.tiles_all (Scanner.on_ofSource source)
  have hplaced := htiles.placed t ht
  refine ⟨hplaced, fun hk => ⟨(htiles.endsOnce.marked t ht).mpr hk, ?_⟩, legible_scan h t ht⟩
  -- the end of input has no byte behind it
  have hend := htiles.end_offset t ht hk
  exact hplaced.stop_true.ext hplaced.start_true
    (Nat.le_antisymm (hend ▸ hplaced.stop_true.offset_le) hplaced.start_le)

theorem Genuine.split (h : t.Genuine source) (hs : Cursor.isSignedNumber t = true) :
    (Cursor.minusOf t).Genuine source ∧ (Cursor.unsignedOf t).Genuine source := by
  have hkind : t.kind ≠ .eof := by
    intro hk
    have hnumber := isNumber_of_isSignedNumber hs
    simp [isNumber, hk] at hnumber
  have hlegible := h.legible hkind
  obtain ⟨hminus, hunsigned⟩ := placed_split h.placed hlegible hs
  refine ⟨⟨hminus, fun hk => ?_, fun _ => legible_minusOf t⟩,
    ⟨hunsigned, fun hk => absurd hk hkind, fun _ => legible_unsignedOf hs hlegible⟩⟩
  cases hk

/-- Nothing behind the end of a source is genuine. -/
theorem not_genuine_beyond (n : Nat) :
    ¬ (endOfInput ⟨0, 0, source.length + (n + 1), 0⟩).Genuine source := by
  intro h
  have hle : source.length + (n + 1) ≤ source.length := h.placed.start_true.offset_le
  omega

end Token

theorem parse_genuine {source : Text} (h : (Token.scan source).2 = []) :
    (∀ s ∈ (parse (Token.scan source).1).program, ∀ n, (Node.stmt s).Holds n →
      ∀ t ∈ n.tokens, t.Genuine source) ∧
    ∀ e ∈ (parse (Token.scan source).1).errors, e.got.Genuine source := by
  refine parse_tokens (fun heq => ?_) (Token.not_genuine_beyond 0) (Token.not_genuine_beyond 1)
    (fun t ht hs => ht.split hs) (Token.endsOnce_scan source) (Token.genuine_scan h)
  have hoffset : source.length + 1 = source.length + 2 :=
    congrArg (fun t => t.start.offset) heq
  omega

end Scriptlet
