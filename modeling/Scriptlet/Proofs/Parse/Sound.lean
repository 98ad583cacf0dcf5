import Scriptlet.Proofs.Parse.Budget
import Scriptlet.Proofs.Parse.Phrase

/-!
# What the parsers accept, the grammar spells

A parser that is done without an error has read tokens that spell its result.
The statement for each parser is a field of `Sound`; each is shown from the
others with one step less, and `sound` is the induction.

Expressions carry the argument. While `operators` runs, the expression read so
far has a level (`OperatorsSound`): the next operator binds at most one more
than that level, so the expression can be its left operand, and the levels of
the operators read so far stay above the strength the loop was called with.
What a loop leaves in front of its caller may be a number it has split
already, so the end of an expression is told by a cursor in front of the split.
-/

namespace Scriptlet

open Phrase

/-! ## Cursors -/

namespace Cursor

theorem splitSigned_kind {c : Cursor} (h : isSignedNumber c.current = true) :
    c.splitSigned.kind = .minus := by
  rw [splitSigned, if_pos h]
  rfl

theorem splitSigned_splitSigned (c : Cursor) : c.splitSigned.splitSigned = c.splitSigned := by
  by_cases h : isSignedNumber c.current = true
  · refine splitSigned_of_not fun hs => ?_
    have hk : c.splitSigned.current.kind = .minus := splitSigned_kind h
    simp [isSignedNumber, hk] at hs
  · rw [splitSigned_of_not h, splitSigned_of_not h]

/-- Only a minus comes from a split. -/
theorem splitSigned_eq_self {c : Cursor} (h : c.splitSigned.kind ≠ .minus) :
    c.splitSigned = c :=
  splitSigned_of_not fun hs => h (splitSigned_kind hs)

/-- From `c` to `rest` the tokens spell `φ`. -/
def Reads (c : Cursor) (φ : Phrase) (rest : Cursor) : Prop :=
  ∃ ts, c.tokens = ts ++ rest.tokens ∧ rest.Closed ∧ Spells φ ts

/-- The first token of a stretch is the one the cursor looks at. -/
theorem firstKind_of_tokens {c rest : Cursor} {ts : List Token}
    (h : c.tokens = ts ++ rest.tokens) : firstKind ts rest.kind = c.kind := by
  cases ts with
  | nil =>
      obtain ⟨hcur, -⟩ := List.cons.inj h
      exact congrArg Token.kind hcur.symm
  | cons t ts =>
      obtain ⟨hcur, -⟩ := List.cons.inj h
      exact congrArg Token.kind hcur.symm

end Cursor

/-- Phrases other than lists and alternatives are spelt with a token at
least. -/
theorem Spells.ne_nil {φ : Phrase} {ts : List Token} (h : Spells φ ts) :
    match φ with
    | .expr _ _ | .conditional _ | .block _ | .stmt _ _ => ts ≠ []
    | _ => True := by
  induction h <;> simp_all

theorem Spells.expr_ne_nil {level : Nat} {e : Expr} {ts : List Token}
    (h : Spells (.expr level e) ts) : ts ≠ [] := h.ne_nil

namespace Parser

open Cursor (Reads)

variable {n : Nat} {c rest : Cursor}

/-- From `c` on the tokens spell an operand that the operator behind it, if
there is one, can take. -/
def ReadsOperand (c : Cursor) (e : Expr) (rest : Cursor) : Prop :=
  ∃ d level, Reads c (.expr level e) d ∧ rest.splitSigned = d.splitSigned ∧
    8 ≤ level ∧ level ≤ 10 ∧ rest.splitSigned.kind.strength ≤ level + 1

/-- Behind `ls`, the tokens from `d` on complete an expression of strength
`s`, up to a token that binds no more strongly. -/
def Completes (s : Nat) (ls : List Token) (d : Cursor) (e : Expr) (rest : Cursor) : Prop :=
  ∃ (ts : List Token) (last : Cursor), d.tokens = ts ++ last.tokens ∧ last.Closed ∧
    rest = last.splitSigned ∧ Spells (.expr (min s 8) e) (ls ++ ts) ∧ rest.kind.strength ≤ s

/-- The claim about the operator loop: whatever expression of level `level`
was read in front of `d`, where `d` is the loop's cursor up to a split, the
loop completes it. -/
def OperatorsSound (n : Nat) : Prop :=
  ∀ (s level : Nat) (left e : Expr) (c d rest : Cursor) (ls : List Token),
    operators n s left c = .done e rest [] → d.Closed → d.splitSigned = c.splitSigned →
    Spells (.expr level left) ls → min s 8 ≤ level → level ≤ 10 →
    c.splitSigned.kind.strength ≤ level + 1 → Completes s ls d e rest

/-- What each parser accepts within `n` steps, the grammar spells. -/
structure Sound (n : Nat) : Prop where
  expression : ∀ {s : Nat} {c rest : Cursor} {e : Expr}, c.Closed →
    expression n s c = .done e rest [] →
    ∃ d, Reads c (.expr (min s 8) e) d ∧ rest = d.splitSigned ∧ rest.kind.strength ≤ s
  operators : OperatorsSound n
  arguments : ∀ {c rest : Cursor} {es : List Expr}, c.Closed →
    arguments n c = .done es rest [] → Reads c (.args es) rest
  operand : ∀ {c rest : Cursor} {e : Expr}, c.Closed → operand n c = .done e rest [] →
    ReadsOperand c e rest
  conditional : ∀ {c rest : Cursor} {choice : Conditional}, c.Closed → c.kind = .if_ →
    conditional n c = .done choice rest [] → Reads c (.conditional choice) rest
  alternative : ∀ {c rest : Cursor} {otherwise : Alternative}, c.Closed →
    alternative n c = .done otherwise rest [] → Reads c (.alternative otherwise) rest
  block : ∀ {c rest : Cursor} {b : Block}, c.Closed →
    block n c = .done b rest [] → Reads c (.block b) rest
  blockBody : ∀ {c rest : Cursor} {ss : List Stmt}, c.Closed →
    blockBody n c = .done ss rest [] → Reads c (.body ss rest.kind) rest
  statement : ∀ {c rest : Cursor} {s : Stmt}, c.Closed → c.kind ≠ .eof →
    statement n c = .done s rest [] → Reads c (.stmt s rest.kind) rest

section SoundSucc

variable (ih : Sound n)
include ih

/-- An expression that is read at strength zero ends at no split number. -/
theorem Sound.whole (hc : c.Closed) {e : Expr} (h : Parser.expression n 0 c = .done e rest []) :
    Reads c (.expr 0 e) rest := by
  obtain ⟨d, hreads, rfl, hs⟩ := ih.expression hc h
  have hsplit : d.splitSigned = d := by
    refine Cursor.splitSigned_eq_self fun hk => ?_
    rw [hk] at hs
    exact absurd hs (by decide)
  rw [hsplit]
  exact hreads

theorem sound_expression_succ {s : Nat} {e : Expr} (hc : c.Closed)
    (h : expression (n + 1) s c = .done e rest []) :
    ∃ d, Reads c (.expr (min s 8) e) d ∧ rest = d.splitSigned ∧ rest.kind.strength ≤ s := by
  rw [expression_succ] at h
  obtain ⟨left, mid, hleft, hops⟩ := bind_eq_done.mp h
  obtain ⟨d, level, ⟨ls, htok, hd, hspells⟩, hsplit, hlo, hhi, hstr⟩ := ih.operand hc hleft
  obtain ⟨ts, last, hts, hlast, hrest, hsp, hs⟩ :=
    ih.operators _ _ _ _ _ _ _ _ hops hd hsplit.symm hspells (by omega) hhi hstr
  refine ⟨last, ⟨ls ++ ts, ?_, hlast, hsp⟩, hrest, hs⟩
  rw [htok, hts, List.append_assoc]

/-- A minus that was split off: the number behind it opens the right operand,
and the grammar takes both as one token. -/
theorem sound_fused {s level : Nat} {left e right : Expr} {d mid rest : Cursor}
    {ls : List Token} (hd : d.Closed) (hsigned : Cursor.isSignedNumber d.current = true)
    (hleft : Spells (.expr level left) ls) (hs : s ≤ 6) (hlevel : 6 ≤ level) (hmax : level ≤ 10)
    (hright : expression n 7 d.splitSigned.next = .done right mid [])
    (hops : operators n s (.binary left d.splitSigned.current right) mid = .done e rest []) :
    Completes s ls d e rest := by
  have hsplit := Cursor.splitSigned_of_signed hsigned
  have hcur : d.splitSigned.current = Cursor.minusOf d.current := (List.cons.inj hsplit).1
  have hnext : d.splitSigned.next.tokens = Cursor.unsignedOf d.current :: d.later := by
    have := Cursor.tokens_next hd.splitSigned (by rw [Cursor.splitSigned_kind hsigned]; decide)
    rw [hsplit] at this
    exact (List.cons.inj this).2.symm
  obtain ⟨d', ⟨rs, htok, hd', hsp⟩, rfl, hstr⟩ := ih.expression hd.splitSigned.next hright
  cases rs with
  | nil => exact absurd rfl hsp.expr_ne_nil
  | cons t rs =>
      rw [hnext, List.cons_append] at htok
      obtain ⟨rfl, hlater⟩ := List.cons.inj htok
      rw [hcur] at hops
      have hbin : Spells (.expr 6 _) _ := .fused hsigned (hleft.weaken hlevel hmax) hsp
      obtain ⟨ts, last, hts, hlast, hrest, hsp', hs'⟩ := ih.operators _ _ _ _ _ _ _ _ hops hd'
        (Cursor.splitSigned_splitSigned d').symm hbin (by omega) (by decide)
        (by rw [Cursor.splitSigned_splitSigned]; exact hstr)
      refine ⟨d.current :: (rs ++ ts), last, ?_, hlast, hrest, ?_, hs'⟩
      · rw [Cursor.tokens, hlater, hts, List.cons_append, List.append_assoc]
      · simpa using hsp'

theorem sound_operators_succ : OperatorsSound (n + 1) := by
  intro s level left e c d rest ls h hd hdc hleft hlo hhi hstr
  rw [operators_succ] at h
  split at h
  · -- the operator is too weak: nothing more is read
    rename_i hweak
    obtain ⟨rfl, rfl, -⟩ := Outcome.done.inj h
    refine ⟨[], d, rfl, hd, hdc.symm, ?_, hweak⟩
    rw [List.append_nil]
    exact hleft.weaken hlo hhi
  · rename_i hstrong
    rw [← hdc] at h hstr hstrong
    split at h
    · -- a call
      rename_i hparen
      have hself : d.splitSigned = d :=
        Cursor.splitSigned_eq_self (by rw [hparen]; decide)
      rw [hself] at h hparen hstr
      obtain ⟨args, mid, hargs, h⟩ := bind_eq_done.mp h
      obtain ⟨closing, mid', hclosing, hops⟩ := bind_eq_done.mp h
      obtain ⟨hkind, rfl, rfl⟩ := expect_eq_done.mp hclosing
      obtain ⟨as, htok, hmid, hsp⟩ := ih.arguments hd.next hargs
      have hlevel : 9 ≤ level := by
        rw [hparen] at hstr
        exact Nat.le_of_succ_le_succ hstr
      have hcall : Spells (.expr 9 _) _ := .call (hleft.weaken hlevel hhi) hparen hsp hkind
      have hdtok := Cursor.tokens_next hd (by rw [hparen]; decide)
      have hmtok := Cursor.tokens_next hmid (by rw [hkind]; decide)
      obtain ⟨ts, last, hts, hlast, hrest, hsp', hs'⟩ :=
        ih.operators _ _ _ _ _ _ _ _ hops hmid.next rfl hcall
        (by omega) (by decide) (strength_le _)
      refine ⟨d.current :: (as ++ mid.current :: ts), last, ?_, hlast, hrest, ?_, hs'⟩
      · rw [hdtok, htok, hmtok, hts]
        simp
      · simpa using hsp'
    · -- an operator between two operands
      rename_i hparen
      obtain ⟨right, mid, hright, hops⟩ := bind_eq_done.mp h
      by_cases hsigned : Cursor.isSignedNumber d.current = true
      · have hkind := Cursor.splitSigned_kind hsigned
        rw [hkind] at hright hstrong hstr
        have h7 : Kind.strength .minus = 7 := rfl
        exact sound_fused ih hd hsigned hleft (by omega) (by omega) hhi hright hops
      · have hself := Cursor.splitSigned_of_not hsigned
        rw [hself] at hright hops hparen hstr hstrong
        have hne : d.kind ≠ .eof := fun he => hstrong (by rw [he]; exact Nat.zero_le _)
        obtain ⟨hlt8, hpos⟩ : d.kind.strength ≤ 8 ∧ 0 < d.kind.strength := by
          refine ⟨?_, by omega⟩
          cases hk : d.kind <;> simp [hk, Kind.strength] at hparen ⊢
        obtain ⟨k, hk⟩ : ∃ k, d.kind.strength = k + 1 := ⟨_, (Nat.sub_add_cancel hpos).symm⟩
        rw [hk] at hright hstr hstrong hlt8
        obtain ⟨d', ⟨rs, htok, hd', hsp⟩, rfl, hstr'⟩ := ih.expression hd.next hright
        rw [Nat.min_eq_left hlt8] at hsp
        have hbin := Spells.binary (mem_operatorsAt.mpr ⟨hlt8, hk⟩)
          (hleft.weaken (Nat.le_of_succ_le_succ hstr) hhi) hsp
        have hdtok := Cursor.tokens_next hd hne
        obtain ⟨ts, last, hts, hlast, hrest, hsp', hs'⟩ := ih.operators _ _ _ _ _ _ _ _ hops hd'
          (Cursor.splitSigned_splitSigned d').symm hbin (by omega) (by omega)
          (by rw [Cursor.splitSigned_splitSigned]; exact hstr')
        refine ⟨d.current :: (rs ++ ts), last, ?_, hlast, hrest, ?_, hs'⟩
        · rw [hdtok, htok, hts]
          simp
        · simpa using hsp'

theorem sound_arguments_succ {es : List Expr} (hc : c.Closed)
    (h : arguments (n + 1) c = .done es rest []) : Reads c (.args es) rest := by
  rw [arguments_succ] at h
  split at h
  · obtain ⟨rfl, rfl, -⟩ := Outcome.done.inj h
    exact ⟨[], rfl, hc, .noArgs⟩
  · obtain ⟨e, mid, he, h⟩ := bind_eq_done.mp h
    obtain ⟨ts, htok, hmid, hsp⟩ := ih.whole hc he
    rw [kind_bind, ite_apply] at h
    split at h
    · rename_i hcomma
      rw [advance_bind] at h
      obtain ⟨es', last, hes, h⟩ := bind_eq_done.mp h
      obtain ⟨rfl, rfl, -⟩ := Outcome.done.inj h
      obtain ⟨us, htok', hlast, hsp'⟩ := ih.arguments hmid.next hes
      refine ⟨ts ++ mid.current :: us, ?_, hlast, .moreArgs hsp hcomma hsp'⟩
      rw [htok, Cursor.tokens_next hmid (by rw [hcomma]; decide), htok']
      simp
    · obtain ⟨rfl, rfl, -⟩ := Outcome.done.inj h
      exact ⟨ts, htok, hmid, .lastArg hsp⟩

omit ih in
/-- An operand of one token. -/
theorem sound_token {e : Expr} (hc : c.Closed) (hk : c.kind ≠ .eof)
    (hsp : Spells (.expr 10 e) [c.current]) :
    ReadsOperand c e c.next :=
  ⟨c.next, 10, ⟨[c.current], Cursor.tokens_next hc hk, hc.next, hsp⟩, rfl, by decide,
    Nat.le_refl _, Nat.le_succ_of_le (strength_le _)⟩

theorem sound_unary {e : Expr} (hc : c.Closed) (hk : c.kind = .not ∨ c.kind = .minus)
    (h : (expression n unaryStrength >>= fun right => pure (.unary c.current right)) c.next =
      .done e rest []) :
    ReadsOperand c e rest := by
  obtain ⟨right, mid, hright, h⟩ := bind_eq_done.mp h
  obtain ⟨rfl, rfl, -⟩ := Outcome.done.inj h
  obtain ⟨d, ⟨ts, htok, hd, hsp⟩, rfl, hstr⟩ := ih.expression hc.next hright
  have hne : c.kind ≠ .eof := by
    rcases hk with hk | hk <;> rw [hk] <;> decide
  refine ⟨d, 8, ⟨c.current :: ts, ?_, hd, .unary hk hsp⟩,
    Cursor.splitSigned_splitSigned d, Nat.le_refl _, by decide, ?_⟩
  · rw [Cursor.tokens_next hc hne, htok, List.cons_append]
  · rw [Cursor.splitSigned_splitSigned]
    exact hstr

theorem sound_operand_succ {e : Expr} (hc : c.Closed)
    (h : operand (n + 1) c = .done e rest []) :
    ReadsOperand c e rest := by
  rw [operand_succ] at h
  cases hk : c.kind
  all_goals simp only [hk] at h
  case ident =>
      obtain ⟨rfl, rfl, -⟩ := Outcome.done.inj h
      exact sound_token hc (by simp [hk]) (.name hk)
  case integer =>
      unfold integer at h
      split at h
      · rename_i k hread
        obtain ⟨rfl, rfl, -⟩ := Outcome.done.inj h
        exact sound_token hc (by simp [hk]) (.integer hk hread)
      · cases h
  case float =>
      unfold float at h
      split at h
      · rename_i x hread
        obtain ⟨rfl, rfl, -⟩ := Outcome.done.inj h
        exact sound_token hc (by simp [hk]) (.float hk hread)
      · cases h
  case string =>
      obtain ⟨rfl, rfl, -⟩ := Outcome.done.inj h
      exact sound_token hc (by simp [hk]) (.string hk)
  case true_ =>
      obtain ⟨rfl, rfl, -⟩ := Outcome.done.inj h
      exact sound_token hc (by simp [hk]) (.yes hk)
  case false_ =>
      obtain ⟨rfl, rfl, -⟩ := Outcome.done.inj h
      exact sound_token hc (by simp [hk]) (.no hk)
  case openParen =>
      obtain ⟨e', mid, he, h⟩ := bind_eq_done.mp h
      obtain ⟨closing, mid', hclosing, h⟩ := bind_eq_done.mp h
      obtain ⟨rfl, rfl, -⟩ := Outcome.done.inj h
      obtain ⟨hkind, rfl, rfl⟩ := expect_eq_done.mp hclosing
      obtain ⟨ts, htok, hmid, hsp⟩ := ih.whole hc.next he
      refine ⟨mid.next, 10, ⟨c.current :: (ts ++ [mid.current]), ?_, hmid.next,
        .group hk hsp hkind⟩, rfl, by decide, Nat.le_refl _, Nat.le_succ_of_le (strength_le _)⟩
      rw [Cursor.tokens_next hc (by simp [hk]), htok,
        Cursor.tokens_next hmid (by simp [hkind])]
      simp
  case if_ =>
      obtain ⟨choice, mid, hchoice, h⟩ := bind_eq_done.mp h
      obtain ⟨rfl, rfl, -⟩ := Outcome.done.inj h
      obtain ⟨ts, htok, hmid, hsp⟩ := ih.conditional hc hk hchoice
      exact ⟨mid, 10, ⟨ts, htok, hmid, .choice hsp⟩, rfl, by decide, Nat.le_refl _,
        Nat.le_succ_of_le (strength_le _)⟩
  case not => exact sound_unary ih hc (Or.inl hk) h
  case minus => exact sound_unary ih hc (Or.inr hk) h
  all_goals cases h

theorem sound_conditional_succ {choice : Conditional} (hc : c.Closed) (hk : c.kind = .if_)
    (h : conditional (n + 1) c = .done choice rest []) :
    Reads c (.conditional choice) rest := by
  rw [conditional_succ] at h
  obtain ⟨opening, c₁, hopening, h⟩ := bind_eq_done.mp h
  obtain ⟨hk₁, rfl, rfl⟩ := expect_eq_done.mp hopening
  obtain ⟨condition, c₂, hcond, h⟩ := bind_eq_done.mp h
  obtain ⟨ts, htok₂, h₂, hsp₂⟩ := ih.whole hc.next.next hcond
  obtain ⟨closing, c₃, hclosing, h⟩ := bind_eq_done.mp h
  obtain ⟨hk₃, rfl, rfl⟩ := expect_eq_done.mp hclosing
  obtain ⟨body, c₄, hbody, h⟩ := bind_eq_done.mp h
  obtain ⟨us, htok₄, h₄, hsp₄⟩ := ih.block h₂.next hbody
  obtain ⟨otherwise, c₅, hother, h⟩ := bind_eq_done.mp h
  obtain ⟨vs, htok₅, h₅, hsp₅⟩ := ih.alternative h₄ hother
  obtain ⟨rfl, rfl, -⟩ := Outcome.done.inj h
  refine ⟨c.current :: c.next.current :: (ts ++ c₂.current :: (us ++ vs)), ?_, h₅,
    .conditional hk hk₁ hsp₂ hk₃ hsp₄ hsp₅⟩
  rw [Cursor.tokens_next hc (by simp [hk]), Cursor.tokens_next hc.next (by simp [hk₁]), htok₂,
    Cursor.tokens_next h₂ (by simp [hk₃]), htok₄, htok₅]
  simp

theorem sound_alternative_succ {otherwise : Alternative} (hc : c.Closed)
    (h : alternative (n + 1) c = .done otherwise rest []) :
    Reads c (.alternative otherwise) rest := by
  rw [alternative_succ] at h
  split at h
  · rename_i helse
    have htok := Cursor.tokens_next hc (by simp [helse])
    split at h
    · rename_i hif
      obtain ⟨next, mid, hnext, h⟩ := bind_eq_done.mp h
      obtain ⟨rfl, rfl, -⟩ := Outcome.done.inj h
      obtain ⟨ts, htok', hmid, hsp⟩ := ih.conditional hc.next hif hnext
      exact ⟨c.current :: ts, by rw [htok, htok', List.cons_append], hmid, .chained helse hsp⟩
    · obtain ⟨body, mid, hbody, h⟩ := bind_eq_done.mp h
      obtain ⟨rfl, rfl, -⟩ := Outcome.done.inj h
      obtain ⟨ts, htok', hmid, hsp⟩ := ih.block hc.next hbody
      exact ⟨c.current :: ts, by rw [htok, htok', List.cons_append], hmid, .otherwise helse hsp⟩
  · obtain ⟨rfl, rfl, -⟩ := Outcome.done.inj h
    exact ⟨[], rfl, hc, .absent⟩

theorem sound_block_succ {b : Block} (hc : c.Closed) (h : block (n + 1) c = .done b rest []) :
    Reads c (.block b) rest := by
  rw [block_succ] at h
  obtain ⟨opening, c₁, hopening, h⟩ := bind_eq_done.mp h
  obtain ⟨hk, rfl, rfl⟩ := expect_eq_done.mp hopening
  obtain ⟨ss, c₂, hbody, h⟩ := bind_eq_done.mp h
  obtain ⟨ts, htok, h₂, hsp⟩ := ih.blockBody hc.next hbody
  obtain ⟨closing, c₃, hclosing, h⟩ := bind_eq_done.mp h
  obtain ⟨hk₂, rfl, rfl⟩ := expect_eq_done.mp hclosing
  obtain ⟨rfl, rfl, -⟩ := Outcome.done.inj h
  rw [hk₂] at hsp
  refine ⟨c.current :: (ts ++ [c₂.current]), ?_, h₂.next, .block hk hsp hk₂⟩
  rw [Cursor.tokens_next hc (by simp [hk]), htok, Cursor.tokens_next h₂ (by simp [hk₂])]
  simp

omit ih in
theorem sound_endOfStatement (hc : c.Closed) (h : endOfStatement c = .done () rest []) :
    ∃ us, c.tokens = us ++ rest.tokens ∧ rest.Closed ∧ Ends us rest.kind := by
  rw [endOfStatement_apply] at h
  split at h
  · rename_i hk
    obtain ⟨-, rfl, -⟩ := Outcome.done.inj h
    exact ⟨[c.current], Cursor.tokens_next hc (by simp [hk]), hc.next, .semicolon hk⟩
  · split at h
    · rename_i hk
      obtain ⟨-, rfl, -⟩ := Outcome.done.inj h
      exact ⟨[], rfl, hc, .omitted (by simpa using hk)⟩
    · cases h

omit ih in
theorem sound_optionalSemicolon (hc : c.Closed)
    (h : optionalSemicolon c = .done () rest []) :
    ∃ us, c.tokens = us ++ rest.tokens ∧ rest.Closed ∧ MayEnd us := by
  rw [optionalSemicolon_apply] at h
  obtain ⟨-, rfl, -⟩ := Outcome.done.inj h
  split
  · rename_i hk
    exact ⟨[c.current], Cursor.tokens_next hc (by simp [hk]), hc.next, .semicolon hk⟩
  · exact ⟨[], rfl, hc, .omitted⟩

/-- An expression and the end of its statement. -/
theorem sound_closing {finish : Expr → Stmt} {s : Stmt} (hc : c.Closed)
    (h : (expression n 0 >>= fun value => endOfStatement >>= fun _ => pure (finish value)) c =
      .done s rest []) :
    ∃ value ts us, s = finish value ∧ c.tokens = ts ++ (us ++ rest.tokens) ∧ rest.Closed ∧
      Spells (.expr 0 value) ts ∧ Ends us rest.kind := by
  obtain ⟨value, mid, hvalue, h⟩ := bind_eq_done.mp h
  obtain ⟨ts, htok, hmid, hsp⟩ := ih.whole hc hvalue
  obtain ⟨_, last, hend, h⟩ := bind_eq_done.mp h
  obtain ⟨us, htok', hlast, hends⟩ := sound_endOfStatement hmid hend
  obtain ⟨rfl, rfl, -⟩ := Outcome.done.inj h
  exact ⟨value, ts, us, rfl, by rw [htok, htok'], hlast, hsp, hends⟩

/-- The statement that the first token does not tell. -/
theorem sound_exprStmt {s : Stmt} (hc : c.Closed) (hk : startsStatement c.kind = false)
    (h : (expression n 0 >>= fun value => endOfStatement >>= fun _ => pure (.expr value)) c =
      .done s rest []) : Reads c (.stmt s rest.kind) rest := by
  obtain ⟨value, ts, us, rfl, htok, hrest, hsp, hends⟩ := sound_closing ih hc h
  refine ⟨ts ++ us, by rw [htok, List.append_assoc], hrest, .exprStmt hsp ?_ hends⟩
  cases ts with
  | nil => exact absurd rfl hsp.expr_ne_nil
  | cons t ts =>
      obtain ⟨rfl, -⟩ := List.cons.inj htok
      exact hk

theorem sound_statement_succ {s : Stmt} (hc : c.Closed) (he : c.kind ≠ .eof)
    (h : statement (n + 1) c = .done s rest []) : Reads c (.stmt s rest.kind) rest := by
  have hcur := Cursor.tokens_next hc he
  rw [statement_succ] at h
  cases hk : c.kind
  all_goals simp only [hk] at h
  case let_ =>
      obtain ⟨name, c₁, hname, h⟩ := bind_eq_done.mp h
      obtain ⟨hk₁, rfl, rfl⟩ := expect_eq_done.mp hname
      obtain ⟨assign, c₂, hassign, h⟩ := bind_eq_done.mp h
      obtain ⟨hk₂, rfl, rfl⟩ := expect_eq_done.mp hassign
      obtain ⟨value, ts, us, rfl, htok, hrest, hsp, hends⟩ :=
        sound_closing ih hc.next.next.next h
      refine ⟨c.current :: c.next.current :: c.next.next.current :: (ts ++ us), ?_, hrest,
        .binding hk hk₁ hk₂ hsp hends⟩
      rw [hcur, Cursor.tokens_next hc.next (by simp [hk₁]),
        Cursor.tokens_next hc.next.next (by simp [hk₂]), htok]
      simp
  case return_ =>
      split at h
      · obtain ⟨_, mid, hend, h⟩ := bind_eq_done.mp h
        obtain ⟨us, htok, hmid, hends⟩ := sound_endOfStatement hc.next hend
        obtain ⟨rfl, rfl, -⟩ := Outcome.done.inj h
        exact ⟨c.current :: us, by rw [hcur, htok, List.cons_append], hmid,
          .bareReturn hk hends⟩
      · obtain ⟨value, ts, us, rfl, htok, hrest, hsp, hends⟩ := sound_closing ih hc.next h
        refine ⟨c.current :: (ts ++ us), ?_, hrest, .returning hk hsp hends⟩
        rw [hcur, htok]
        simp
  case openBrace =>
      obtain ⟨body, mid, hbody, h⟩ := bind_eq_done.mp h
      obtain ⟨rfl, rfl, -⟩ := Outcome.done.inj h
      obtain ⟨ts, htok, hmid, hsp⟩ := ih.block hc hbody
      exact ⟨ts, htok, hmid, .blockStmt hsp⟩
  case if_ =>
      obtain ⟨choice, mid, hchoice, h⟩ := bind_eq_done.mp h
      obtain ⟨ts, htok, hmid, hsp⟩ := ih.conditional hc hk hchoice
      obtain ⟨_, last, hsemi, h⟩ := bind_eq_done.mp h
      obtain ⟨us, htok', hlast, hmay⟩ := sound_optionalSemicolon hmid hsemi
      obtain ⟨rfl, rfl, -⟩ := Outcome.done.inj h
      exact ⟨ts ++ us, by rw [htok, htok', List.append_assoc], hlast, .choiceStmt hsp hmay⟩
  all_goals exact sound_exprStmt ih hc (by rw [hk]; rfl) h

theorem sound_blockBody_succ {ss : List Stmt} (hc : c.Closed)
    (h : blockBody (n + 1) c = .done ss rest []) : Reads c (.body ss rest.kind) rest := by
  rw [blockBody_succ] at h
  split at h
  · obtain ⟨rfl, rfl, -⟩ := Outcome.done.inj h
    exact ⟨[], rfl, hc, .done⟩
  · rename_i hend
    have hk : c.kind ≠ .eof := fun he => hend (by simp [hc.atEnd_iff.mpr he])
    split at h
    · rename_i hsemi
      obtain ⟨ts, htok, hrest, hsp⟩ := ih.blockBody hc.next h
      exact ⟨c.current :: ts, by rw [Cursor.tokens_next hc hk, htok, List.cons_append], hrest,
        .gap hsemi hsp⟩
    · obtain ⟨s, ss', mid, hs, hss, rfl⟩ := followedBy_eq_done h
      obtain ⟨us, htok, hmid, hsp⟩ := ih.statement hc hk hs
      obtain ⟨ts, htok', hrest, hsp'⟩ := ih.blockBody hmid hss
      rw [← Cursor.firstKind_of_tokens htok'] at hsp
      exact ⟨us ++ ts, by rw [htok, htok', List.append_assoc], hrest, .more hsp hsp'⟩

end SoundSucc

theorem sound : ∀ n, Sound n
  | 0 => by
      constructor
      case operators => exact fun _ _ _ _ _ _ _ _ h => by rw [operators] at h; cases h
      all_goals
        intros
        simp_all [expression, arguments, operand, conditional, alternative, block, blockBody,
          statement]
  | n + 1 => by
      have ih := sound n
      exact {
        expression := sound_expression_succ ih
        operators := sound_operators_succ ih
        arguments := sound_arguments_succ ih
        operand := sound_operand_succ ih
        conditional := sound_conditional_succ ih
        alternative := sound_alternative_succ ih
        block := sound_block_succ ih
        blockBody := sound_blockBody_succ ih
        statement := sound_statement_succ ih }

/-- A program that is read without an error is spelt by the tokens in front of
the end token where reading stops. -/
theorem statements_sound : ∀ {n : Nat} {c rest : Cursor} {p : Program}, c.Closed →
    statements n c = .done p rest [] → rest.atEnd = true ∧ Reads c (.body p .eof) rest
  | 0, _, _, _, _, h => by cases h
  | n + 1, c, rest, p, hc, h => by
      rw [statements_succ] at h
      split at h
      · rename_i hend
        obtain ⟨rfl, rfl, -⟩ := Outcome.done.inj h
        exact ⟨hend, [], rfl, hc, .done⟩
      · rename_i hend
        have hk : c.kind ≠ .eof := fun he => hend (hc.atEnd_iff.mpr he)
        split at h
        · rename_i hsemi
          obtain ⟨hstop, ts, htok, hrest, hsp⟩ := statements_sound hc.next h
          exact ⟨hstop, c.current :: ts,
            by rw [Cursor.tokens_next hc hk, htok, List.cons_append], hrest, .gap hsemi hsp⟩
        · split at h
          · cases hnext : statements n c.next with
            | done q last errors =>
                rw [hnext] at h
                obtain ⟨-, -, herr⟩ := Outcome.done.inj h
                cases herr
            | broken last errors =>
                rw [hnext] at h
                cases h
            | exhausted =>
                rw [hnext] at h
                cases h
          · obtain ⟨s, ss, mid, hs, hss, rfl⟩ := followedBy_eq_done h
            obtain ⟨us, htok, hmid, hsp⟩ := (sound n).statement hc hk hs
            obtain ⟨hstop, ts, htok', hrest, hsp'⟩ := statements_sound hmid hss
            have hkind : rest.kind = .eof := hrest.atEnd_iff.mp hstop
            have hfirst := Cursor.firstKind_of_tokens htok'
            rw [hkind] at hfirst
            rw [← hfirst] at hsp
            exact ⟨hstop, us ++ ts, by rw [htok, htok', List.append_assoc], hrest,
              .more hsp hsp'⟩

end Parser

end Scriptlet
