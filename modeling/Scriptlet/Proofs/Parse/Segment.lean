import Scriptlet.Proofs.Parse.Complete

/-!
# Statements in front of their semicolon

Tokens without a semicolon, a brace or an end token among them are a segment
of a program. This module follows the parsers along a segment and shows that
they never look past the semicolon behind it.

A cursor in a segment is written `Cursor.upTo ts semi later`: the tokens that
are left of the segment, the semicolon, and what follows. `Decided` says of a
parser that one outcome is right for every `later`: it is done without an
error, or it breaks off inside the segment with one error, or it needs more
steps. `Decided.bind` carries this over sequences, so each parser again needs
one line per branch, and `along` is the induction on the steps.

A conditional cannot be read to its end here, since its block has no brace to
open with. So every statement of a segment ends behind the semicolon
(`decided_statement`), and a broken one has its boundary there
(`Cursor.boundary_upTo`).
-/

namespace Scriptlet

open Phrase

/-! ## Segments and cursors in them -/

/-- A token that bounds neither a statement nor a block nor the input. -/
def Token.isInner (t : Token) : Bool :=
  !t.isEof && t.kind ∉ [.eof, .semicolon, .openBrace, .closeBrace]

theorem Token.isInner_iff {t : Token} : t.isInner = true ↔ t.isEof = false ∧ t.kind ≠ .eof ∧
    t.kind ≠ .semicolon ∧ t.kind ≠ .openBrace ∧ t.kind ≠ .closeBrace := by
  simp [isInner]

/-- Tokens among which no statement ends. -/
def AllInner (ts : List Token) : Prop := ∀ t ∈ ts, t.isInner = true

theorem allInner_nil : AllInner [] := fun _ h => absurd h List.not_mem_nil

theorem allInner_cons {t : Token} {ts : List Token} :
    AllInner (t :: ts) ↔ t.isInner = true ∧ AllInner ts := List.forall_mem_cons

namespace Cursor

/-- On the first of `ts`, or on `semi` when none is left. -/
def upTo (ts : List Token) (semi : Token) (later : List Token) : Cursor :=
  match ts with
  | [] => ⟨semi, later⟩
  | t :: us => ⟨t, us ++ semi :: later⟩

/-- Behind the semicolon. -/
def behind (semi : Token) (later : List Token) : Cursor := next ⟨semi, later⟩

variable {t semi : Token} {ts later : List Token}

theorem tokens_upTo : (upTo ts semi later).tokens = ts ++ semi :: later := by
  cases ts <;> rfl

theorem current_upTo : (upTo ts semi later).current = ts.headD semi := by
  cases ts <;> rfl

theorem next_upTo (ht : t.isInner = true) :
    (upTo (t :: ts) semi later).next = upTo ts semi later := by
  have hend : ¬ t.isEof = true := by simp [(Token.isInner_iff.mp ht).1]
  cases ts with
  | nil => exact if_neg hend
  | cons u us => exact if_neg hend

/-- A number that is split stays inside its segment. -/
theorem splitSigned_upTo (hsemi : semi.kind = .semicolon) (hts : AllInner ts) :
    ∃ us, AllInner us ∧ ∀ later, (upTo ts semi later).splitSigned = upTo us semi later := by
  cases ts with
  | nil =>
      refine ⟨[], allInner_nil, fun later => splitSigned_of_kind ?_ ?_⟩ <;>
        simp [upTo, kind, hsemi]
  | cons t ts =>
      obtain ⟨ht, hrest⟩ := allInner_cons.mp hts
      by_cases hs : isSignedNumber t = true
      · refine ⟨minusOf t :: unsignedOf t :: ts, ?_, fun later => if_pos hs⟩
        exact allInner_cons.mpr ⟨rfl, allInner_cons.mpr ⟨ht, hrest⟩⟩
      · exact ⟨t :: ts, hts, fun later => if_neg hs⟩

/-- From anywhere in a segment, the next boundary is behind its semicolon. -/
theorem boundary_upTo (hsemi : semi.kind = .semicolon) (hend : semi.isEof = false)
    (hts : AllInner ts) : (upTo ts semi later).boundary = behind semi later := by
  have hskip : ∀ n, ts.length < n → (upTo ts semi later).skipStatement n = behind semi later := by
    induction ts with
    | nil =>
        intro n hn
        obtain ⟨m, rfl⟩ := Nat.exists_eq_succ_of_ne_zero (Nat.ne_of_gt hn)
        simp [skipStatement, upTo, atEnd, kind, hsemi, hend, behind]
    | cons t ts ih =>
        intro n hn
        obtain ⟨ht, hrest⟩ := allInner_cons.mp hts
        obtain ⟨hmark, -, hnsemi, -, hnbrace⟩ := Token.isInner_iff.mp ht
        obtain ⟨m, rfl⟩ := Nat.exists_eq_succ_of_ne_zero (Nat.ne_zero_of_lt hn)
        have hkind : (upTo (t :: ts) semi later).kind = t.kind := rfl
        have hatEnd : (upTo (t :: ts) semi later).atEnd = false := hmark
        rw [skipStatement, hkind, hatEnd, if_neg (by simp [hnbrace]), if_neg (by simp [hnsemi]),
          next_upTo ht]
        exact ih hrest m (Nat.lt_of_succ_lt_succ hn)
  refine hskip _ ?_
  cases ts with
  | nil => exact Nat.succ_pos _
  | cons t ts => simp [upTo]

end Cursor

open Cursor (upTo behind current_upTo next_upTo splitSigned_upTo)

namespace Parser

variable {α β : Type} {semi t : Token} {ts : List Token} {n : Nat}

/-! ## Outcomes that are settled in front of the semicolon -/

/-- One outcome, whatever stands behind the semicolon. `ok` says where the
parser may stop when it is done. -/
inductive Decided (semi : Token) (ok : (List Token → Cursor) → Prop) (p : Parser α)
    (start : List Token → Cursor) : Prop where
  | done (a : α) {rest : List Token → Cursor} : ok rest →
      (∀ later, p (start later) = .done a (rest later) []) → Decided semi ok p start
  | broken (e : ParseError) {us : List Token} : AllInner us →
      (∀ later, p (start later) = .broken (upTo us semi later) [e]) → Decided semi ok p start
  | exhausted : (∀ later, p (start later) = .exhausted) → Decided semi ok p start

/-- Still in the segment. -/
def Within (semi : Token) (rest : List Token → Cursor) : Prop :=
  ∃ us, AllInner us ∧ rest = upTo us semi

/-- Nowhere: a parser that is never done. -/
def Nowhere (_ : List Token → Cursor) : Prop := False

theorem within_upTo (hts : AllInner ts) : Within semi (upTo ts semi) := ⟨ts, hts, rfl⟩

section Sequencing

variable {ok ok' : (List Token → Cursor) → Prop} {start start' : List Token → Cursor}
  {p q : Parser α}

theorem Decided.congr (h : ∀ later, p (start later) = q (start' later))
    (hq : Decided semi ok q start') : Decided semi ok p start := by
  cases hq with
  | done a hrest hdone => exact .done a hrest fun later => (h later).trans (hdone later)
  | broken e hus hbroken => exact .broken e hus fun later => (h later).trans (hbroken later)
  | exhausted hex => exact .exhausted fun later => (h later).trans (hex later)

theorem Decided.bind {f : α → Parser β} (hp : Decided semi ok p start)
    (hf : ∀ a rest, ok rest → Decided semi ok' (f a) rest) :
    Decided semi ok' (p >>= f) start := by
  cases hp with
  | done a hrest hdone => exact (hf a _ hrest).congr fun later => bind_of_done (hdone later) f
  | broken e hus hbroken =>
      exact .broken e hus fun later => by rw [bind_apply, hbroken later]
  | exhausted hex => exact .exhausted fun later => by rw [bind_apply, hex later]

theorem decided_pure (a : α) (h : ok start) : Decided semi ok (pure a) start :=
  .done a h fun _ => rfl

theorem decided_exhausted : Decided semi ok (exhausted : Parser α) start :=
  .exhausted fun _ => rfl

end Sequencing

/-! ## Tokens -/

theorem decided_expect {k : Kind} (hsemi : semi.kind = .semicolon) (hk : k ≠ .semicolon)
    (hts : AllInner ts) : Decided semi (Within semi) (expect k) (upTo ts semi) := by
  cases ts with
  | nil =>
      refine .broken (.blame semi (.expected k.described)) allInner_nil fun later => ?_
      exact expect_of_ne (c := upTo [] semi later) (hsemi.trans_ne hk.symm)
  | cons t ts =>
      obtain ⟨ht, hrest⟩ := allInner_cons.mp hts
      by_cases h : t.kind = k
      · refine .done t (within_upTo hrest) fun later => ?_
        rw [expect_of_kind (c := upTo (t :: ts) semi later) h, next_upTo ht]
        rfl
      · refine .broken (.blame t (.expected k.described)) hts fun later => ?_
        exact expect_of_ne (c := upTo (t :: ts) semi later) h

/-- No block opens in a segment. -/
theorem decided_block (hsemi : semi.kind = .semicolon) (hts : AllInner ts) :
    Decided semi Nowhere (block n) (upTo ts semi) := by
  have hk : (ts.headD semi).kind ≠ .openBrace := by
    cases ts with
    | nil => simp [hsemi]
    | cons t ts =>
        obtain ⟨-, -, -, hbrace, -⟩ := Token.isInner_iff.mp (allInner_cons.mp hts).1
        exact hbrace
  cases n with
  | zero =>
      rw [block]
      exact decided_exhausted
  | succ n =>
      refine .broken (.blame (ts.headD semi) (.expected (Kind.described .openBrace))) hts
        fun later => ?_
      have hkind : (upTo ts semi later).kind ≠ .openBrace := by rwa [Cursor.kind, current_upTo]
      rw [block_succ, bind_apply, expect_of_ne hkind, current_upTo]

theorem decided_endOfStatement (hsemi : semi.kind = .semicolon) (hts : AllInner ts) :
    Decided semi (· = behind semi) endOfStatement (upTo ts semi) := by
  cases ts with
  | nil =>
      refine .done () rfl fun later => ?_
      rw [endOfStatement_apply]
      exact if_pos hsemi
  | cons t ts =>
      obtain ⟨-, hneof, hnsemi, -, hnbrace⟩ := Token.isInner_iff.mp (allInner_cons.mp hts).1
      refine .broken (.blame t (.expected (Kind.described .semicolon))) hts fun later => ?_
      have hkind : (upTo (t :: ts) semi later).kind = t.kind := rfl
      rw [endOfStatement_apply, hkind, if_neg hnsemi, if_neg (by simp [hneof, hnbrace])]
      rfl

/-! ## Expressions and conditionals -/

/-- Along a segment, the outcome within `n` steps is settled. -/
structure Along (semi : Token) (n : Nat) : Prop where
  expression : ∀ (s : Nat) {ts : List Token}, AllInner ts →
    Decided semi (Within semi) (expression n s) (upTo ts semi)
  operators : ∀ (s : Nat) (left : Expr) {ts : List Token}, AllInner ts →
    Decided semi (Within semi) (operators n s left) (upTo ts semi)
  arguments : ∀ {ts : List Token}, AllInner ts →
    Decided semi (Within semi) (arguments n) (upTo ts semi)
  operand : ∀ {ts : List Token}, AllInner ts →
    Decided semi (Within semi) (operand n) (upTo ts semi)
  conditional : ∀ {t : Token} {ts : List Token}, AllInner (t :: ts) →
    Decided semi Nowhere (conditional n) (upTo (t :: ts) semi)

theorem along_zero : Along semi 0 where
  expression _ _ _ := by rw [expression]; exact decided_exhausted
  operators _ _ _ _ := by rw [operators]; exact decided_exhausted
  arguments _ := by rw [arguments]; exact decided_exhausted
  operand _ := by rw [operand]; exact decided_exhausted
  conditional _ := by rw [conditional]; exact decided_exhausted

section AlongSucc

variable (hsemi : semi.kind = .semicolon) (ih : Along semi n)
include hsemi ih

theorem decided_operators_succ (s : Nat) (left : Expr) (hts : AllInner ts) :
    Decided semi (Within semi) (operators (n + 1) s left) (upTo ts semi) := by
  obtain ⟨us, hus, hsplit⟩ := splitSigned_upTo hsemi hts
  cases us with
  | nil =>
      refine .done left (within_upTo hus) fun later => ?_
      have hzero : (upTo [] semi later).kind.strength = 0 := congrArg Kind.strength hsemi
      rw [operators_succ, hsplit, hzero, if_pos (Nat.zero_le s)]
  | cons t us =>
      obtain ⟨ht, hrest⟩ := allInner_cons.mp hus
      have hkind : ∀ later, (upTo (t :: us) semi later).kind = t.kind := fun _ => rfl
      by_cases hs : t.kind.strength ≤ s
      · refine .done left (within_upTo hus) fun later => ?_
        rw [operators_succ, hsplit, hkind, if_pos hs]
      by_cases hparen : t.kind = .openParen
      · have hcall : Decided semi (Within semi)
            (arguments n >>= fun args => expect .closeParen >>= fun closing =>
              operators n s (.call left t args closing)) (upTo us semi) := by
          refine (ih.arguments hrest).bind ?_
          rintro args _ ⟨vs, hvs, rfl⟩
          refine (decided_expect hsemi (by decide) hvs).bind ?_
          rintro closing _ ⟨ws, hws, rfl⟩
          exact ih.operators s _ hws
        refine hcall.congr fun later => ?_
        rw [operators_succ, hsplit, hkind, if_neg hs, if_pos hparen, next_upTo ht]
        rfl
      · have hbinary : Decided semi (Within semi)
            (expression n t.kind.strength >>= fun right => operators n s (.binary left t right))
            (upTo us semi) := by
          refine (ih.expression _ hrest).bind ?_
          rintro right _ ⟨vs, hvs, rfl⟩
          exact ih.operators s _ hvs
        refine hbinary.congr fun later => ?_
        rw [operators_succ, hsplit, hkind, if_neg hs, if_neg hparen, next_upTo ht]
        rfl

theorem decided_arguments_succ (hts : AllInner ts) :
    Decided semi (Within semi) (arguments (n + 1)) (upTo ts semi) := by
  have hmore : ∀ e rest, Within semi rest → Decided semi (Within semi)
      (kind >>= fun k =>
        if k = .comma then advance >>= fun _ => arguments n >>= fun es => pure (e :: es)
        else pure [e]) rest := by
    rintro e _ ⟨us, hus, rfl⟩
    by_cases hcomma : (us.headD semi).kind = .comma
    · cases us with
      | nil => exact absurd (hsemi.symm.trans hcomma) (by decide)
      | cons t us =>
          obtain ⟨ht, hrest⟩ := allInner_cons.mp hus
          have hargs : Decided semi (Within semi)
              (arguments n >>= fun es => pure (e :: es)) (upTo us semi) :=
            (ih.arguments hrest).bind fun es _ hok => decided_pure _ hok
          refine hargs.congr fun later => ?_
          rw [kind_bind, Cursor.kind, current_upTo, if_pos hcomma, advance_bind, next_upTo ht]
    · refine .done [e] (within_upTo hus) fun later => ?_
      rw [kind_bind, Cursor.kind, current_upTo, if_neg hcomma]
      rfl
  by_cases hstop : ((ts.headD semi).isEof || (ts.headD semi).kind = .closeParen) = true
  · refine .done [] (within_upTo hts) fun later => ?_
    rw [arguments_succ, Cursor.atEnd, Cursor.kind, current_upTo, if_pos hstop]
  · refine ((ih.expression 0 hts).bind hmore).congr fun later => ?_
    rw [arguments_succ, Cursor.atEnd, Cursor.kind, current_upTo, if_neg hstop]

omit hsemi ih in
/-- A token that is an operand by itself, or is refused where it stands. -/
theorem decided_token (o : Except Complaint Expr) (hts : AllInner (t :: ts))
    (h : ∀ c : Cursor, c.current = t → operand (n + 1) c =
      match o with
      | .ok e => .done e c.next []
      | .error complaint => .broken c [.blame t complaint]) :
    Decided semi (Within semi) (operand (n + 1)) (upTo (t :: ts) semi) := by
  obtain ⟨ht, hrest⟩ := allInner_cons.mp hts
  cases o with
  | ok e =>
      refine .done e (within_upTo hrest) fun later => ?_
      rw [h _ rfl, next_upTo ht]
  | error complaint => exact .broken (.blame t complaint) hts fun later => h _ rfl

omit hsemi in
theorem decided_unary (hk : t.kind = .not ∨ t.kind = .minus) (hts : AllInner (t :: ts)) :
    Decided semi (Within semi) (operand (n + 1)) (upTo (t :: ts) semi) := by
  obtain ⟨ht, hrest⟩ := allInner_cons.mp hts
  have hright : Decided semi (Within semi)
      (expression n unaryStrength >>= fun right => pure (Expr.unary t right)) (upTo ts semi) :=
    (ih.expression _ hrest).bind fun _ _ hok => decided_pure _ hok
  refine hright.congr fun later => ?_
  have hkind : (upTo (t :: ts) semi later).kind = t.kind := rfl
  rw [operand_succ, hkind, next_upTo ht]
  rcases hk with hk | hk <;> rw [hk] <;> rfl

theorem decided_group (hk : t.kind = .openParen) (hts : AllInner (t :: ts)) :
    Decided semi (Within semi) (operand (n + 1)) (upTo (t :: ts) semi) := by
  obtain ⟨ht, hrest⟩ := allInner_cons.mp hts
  have hgroup : Decided semi (Within semi)
      (expression n 0 >>= fun e => expect .closeParen >>= fun _ => pure e) (upTo ts semi) := by
    refine (ih.expression 0 hrest).bind ?_
    rintro e _ ⟨us, hus, rfl⟩
    exact (decided_expect hsemi (by decide) hus).bind fun _ _ hok => decided_pure e hok
  refine hgroup.congr fun later => ?_
  have hkind : (upTo (t :: ts) semi later).kind = .openParen := hk
  rw [operand_succ, hkind, next_upTo ht]

theorem decided_operand_succ (hts : AllInner ts) :
    Decided semi (Within semi) (operand (n + 1)) (upTo ts semi) := by
  cases ts with
  | nil =>
      refine .broken (.blame semi (.expected (text "expression"))) hts fun later => ?_
      have hkind : (upTo [] semi later).kind = .semicolon := hsemi
      rw [operand_succ, hkind]
      rfl
  | cons t ts =>
      have hread : ∀ c : Cursor, c.current = t → c.kind = t.kind := fun _ => congrArg Token.kind
      cases hk : t.kind
      case openParen => exact decided_group hsemi ih hk hts
      case not => exact decided_unary ih (Or.inl hk) hts
      case minus => exact decided_unary ih (Or.inr hk) hts
      case if_ =>
          have hchoice : Decided semi (Within semi)
              (conditional n >>= fun choice => pure (Expr.conditional choice))
              (upTo (t :: ts) semi) :=
            (ih.conditional hts).bind fun _ _ => False.elim
          refine hchoice.congr fun later => ?_
          rw [operand_succ, hread _ rfl, hk]
      case ident =>
          exact decided_token (.ok (.name t t.lexeme)) hts fun c hc => by
            rw [operand_succ, hread c hc, hk, hc]
      case string =>
          exact decided_token (.ok (.string t t.lexeme)) hts fun c hc => by
            rw [operand_succ, hread c hc, hk, hc]
      case true_ =>
          exact decided_token (.ok (.boolean t true)) hts fun c hc => by
            rw [operand_succ, hread c hc, hk, hc]
      case false_ =>
          exact decided_token (.ok (.boolean t false)) hts fun c hc => by
            rw [operand_succ, hread c hc, hk, hc]
      case integer =>
          refine decided_token ((Number.readInt64? (numeral t)).elim (.error .integerOutOfRange)
            fun m => .ok (.integer t m)) hts fun c hc => ?_
          rw [operand_succ, hread c hc, hk]
          dsimp only [integer]
          rw [hc]
          cases Number.readInt64? (numeral t) <;> rfl
      case float =>
          refine decided_token ((Number.readFloat? (numeral t)).elim (.error .invalidFloat)
            fun x => .ok (.float t x)) hts fun c hc => ?_
          rw [operand_succ, hread c hc, hk]
          dsimp only [float]
          rw [hc]
          cases Number.readFloat? (numeral t) <;> rfl
      all_goals
        exact decided_token (.error (.expected (text "expression"))) hts fun c hc => by
          rw [operand_succ, hread c hc, hk, hc]

theorem decided_conditional_succ (hts : AllInner (t :: ts)) :
    Decided semi Nowhere (conditional (n + 1)) (upTo (t :: ts) semi) := by
  obtain ⟨ht, hrest⟩ := allInner_cons.mp hts
  have hhead : Decided semi Nowhere
      (expect .openParen >>= fun _ => expression n 0 >>= fun condition =>
        expect .closeParen >>= fun _ => block n >>= fun body =>
          alternative n >>= fun otherwise =>
            pure (Conditional.mk t condition body otherwise)) (upTo ts semi) := by
    refine (decided_expect hsemi (by decide) hrest).bind ?_
    rintro _ _ ⟨us, hus, rfl⟩
    refine (ih.expression 0 hus).bind ?_
    rintro condition _ ⟨vs, hvs, rfl⟩
    refine (decided_expect hsemi (by decide) hvs).bind ?_
    rintro _ _ ⟨ws, hws, rfl⟩
    exact (decided_block hsemi hws).bind fun _ _ => False.elim
  refine hhead.congr fun later => ?_
  rw [conditional_succ, next_upTo ht]
  rfl

end AlongSucc

theorem along (hsemi : semi.kind = .semicolon) : ∀ n, Along semi n
  | 0 => along_zero
  | n + 1 => by
      have ih := along hsemi n
      exact {
        expression := fun s ts hts => by
          refine ((ih.operand hts).bind ?_).congr fun later => expression_succ n s _
          rintro left _ ⟨us, hus, rfl⟩
          exact ih.operators s left hus
        operators := fun s left _ => decided_operators_succ hsemi ih s left
        arguments := decided_arguments_succ hsemi ih
        operand := decided_operand_succ hsemi ih
        conditional := decided_conditional_succ hsemi ih }

/-! ## Statements -/

/-- An expression and the end of its statement. -/
theorem decided_closing (n : Nat) (hsemi : semi.kind = .semicolon) (finish : Expr → Stmt)
    (hts : AllInner ts) :
    Decided semi (· = behind semi)
      (expression n 0 >>= fun value => endOfStatement >>= fun _ => pure (finish value))
      (upTo ts semi) := by
  refine ((along hsemi n).expression 0 hts).bind ?_
  rintro value _ ⟨us, hus, rfl⟩
  exact (decided_endOfStatement hsemi hus).bind fun _ _ hok => decided_pure _ hok

/-- A statement of a segment takes the semicolon, or breaks off in front of
it with one error. -/
theorem decided_statement (hsemi : semi.kind = .semicolon) (hts : AllInner (t :: ts)) :
    Decided semi (· = behind semi) (statement n) (upTo (t :: ts) semi) := by
  obtain ⟨ht, hrest⟩ := allInner_cons.mp hts
  cases n with
  | zero =>
      rw [statement]
      exact decided_exhausted
  | succ n =>
      have hkind : ∀ later, (upTo (t :: ts) semi later).kind = t.kind := fun _ => rfl
      cases hk : t.kind
      case let_ =>
          have hbinding : Decided semi (· = behind semi)
              (expect .ident >>= fun name => expect .assign >>= fun _ =>
                expression n 0 >>= fun value => endOfStatement >>= fun _ =>
                  pure (Stmt.binding t name name.lexeme value)) (upTo ts semi) := by
            refine (decided_expect hsemi (by decide) hrest).bind ?_
            rintro name _ ⟨us, hus, rfl⟩
            refine (decided_expect hsemi (by decide) hus).bind ?_
            rintro _ _ ⟨vs, hvs, rfl⟩
            exact decided_closing n hsemi _ hvs
          refine hbinding.congr fun later => ?_
          rw [statement_succ, hkind, hk, next_upTo ht]
          rfl
      case return_ =>
          by_cases hbare : ((ts.headD semi).kind = .semicolon || (ts.headD semi).kind = .closeBrace
              || (ts.headD semi).kind = .eof) = true
          · have hend : Decided semi (· = behind semi)
                (endOfStatement >>= fun _ => pure (Stmt.returning t .missing)) (upTo ts semi) :=
              (decided_endOfStatement hsemi hrest).bind fun _ _ hok => decided_pure _ hok
            refine hend.congr fun later => ?_
            rw [statement_succ, hkind, hk, next_upTo ht]
            dsimp only
            rw [Cursor.kind, current_upTo, if_pos hbare]
            rfl
          · refine (decided_closing n hsemi (.returning t) hrest).congr fun later => ?_
            rw [statement_succ, hkind, hk, next_upTo ht]
            dsimp only
            rw [Cursor.kind, current_upTo, if_neg hbare]
            rfl
      case openBrace => exact absurd hk (Token.isInner_iff.mp ht).2.2.2.1
      case if_ =>
          have hchoice : Decided semi (· = behind semi)
              (conditional n >>= fun choice => optionalSemicolon >>= fun _ =>
                pure (Stmt.expr (.conditional choice))) (upTo (t :: ts) semi) :=
            ((along hsemi n).conditional hts).bind fun _ _ => False.elim
          refine hchoice.congr fun later => ?_
          rw [statement_succ, hkind, hk]
      all_goals
        refine (decided_closing n hsemi .expr hts).congr fun later => ?_
        rw [statement_succ, hkind, hk]

end Parser

end Scriptlet
