import Mathlib.Order.Filter.AtTopBot.Basic
import Scriptlet.Proofs.Parse.Sound
import Scriptlet.Tree.Canonical

/-!
# What the grammar spells, the parsers accept

Tokens that spell a phrase are read as that phrase, given steps enough. The
statement for each kind of phrase is `Parses`; there is a lemma for each rule
of the grammar, and `parses_of_spells` is the induction over the derivation.

The loop over operators reads a left-nested expression from its innermost
operand outward, while the derivation takes the outermost operator first. So
`Parses` speaks of an expression together with what the loop does behind it:
whatever comes of the loop that starts with `e` behind the tokens of `e`, comes
of reading the tokens of `e` and going on.

At the end stands the equivalence: `parse` gives a program and no error just
when the tokens spell that program.
-/

namespace Scriptlet

open Phrase Filter

/-! ## How phrases begin -/

/-- Kinds that an expression can start with. -/
def Phrase.startsExpr (k : Kind) : Bool :=
  k = .ident || k = .integer || k = .float || k = .string || k = .true_ || k = .false_ ||
    k = .openParen || k = .not || k = .minus || k = .if_

@[simp] theorem firstKind_cons (t : Token) (ts : List Token) (next : Kind) :
    firstKind (t :: ts) next = t.kind := rfl

theorem firstKind_append (ts us : List Token) (next : Kind) :
    firstKind (ts ++ us) next = firstKind ts (firstKind us next) := by
  cases ts <;> rfl

theorem Spells.starts {φ : Phrase} {ts : List Token} (h : Spells φ ts) :
    match φ with
    | .expr _ _ => ∀ next, startsExpr (firstKind ts next) = true
    | .conditional _ => ∀ next, firstKind ts next = .if_
    | .block _ => ∀ next, firstKind ts next = .openBrace
    | .stmt _ _ => ∀ next, startsExpr (firstKind ts next) = true ∨
        startsStatement (firstKind ts next) = true
    | _ => True := by
  induction h with
  | name hk | string hk | yes hk | no hk | integer hk _ | float hk _ | group hk _ _ _ =>
      intro next
      rw [firstKind_cons, hk]
      rfl
  | choice _ ih =>
      intro next
      rw [ih]
      rfl
  | call _ _ _ _ ih _ =>
      intro next
      rw [firstKind_append]
      exact ih _
  | unary hop _ _ =>
      intro next
      rcases hop with hop | hop <;> rw [firstKind_cons, hop] <;> rfl
  | binary _ _ _ ih _ | fused _ _ _ ih _ =>
      intro next
      rw [firstKind_append]
      exact ih _
  | tighter _ _ ih => exact ih
  | conditional hk _ _ _ _ _ _ _ _ => exact fun _ => hk
  | block hk _ _ _ => exact fun _ => hk
  | binding hk _ _ _ _ _ | bareReturn hk _ | returning hk _ _ _ =>
      intro next
      rw [firstKind_cons, hk]
      exact Or.inr rfl
  | blockStmt _ ih =>
      intro next
      rw [ih]
      exact Or.inr rfl
  | choiceStmt _ _ ih =>
      intro next
      rw [firstKind_append, ih]
      exact Or.inr rfl
  | exprStmt _ _ _ ih =>
      intro next
      rw [firstKind_append]
      exact Or.inl (ih _)
  | noArgs | lastArg _ _ | moreArgs _ _ _ _ _ | absent | otherwise _ _ _ | chained _ _ _
  | done | gap _ _ _ | more _ _ _ _ => trivial

/-! ## How phrases end -/

/-- The kind of the last token, or of the one before where there is none. -/
def Phrase.lastKind (prev : Kind) : List Token → Kind
  | [] => prev
  | t :: ts => lastKind t.kind ts

/-- Nothing is left open to a statement behind these tokens: the last of them,
if there is one, is a semicolon. -/
def Phrase.Terminated (ts : List Token) : Prop := lastKind .semicolon ts = .semicolon

theorem lastKind_append (prev : Kind) (ts us : List Token) :
    lastKind prev (ts ++ us) = lastKind (lastKind prev ts) us := by
  induction ts generalizing prev with
  | nil => rfl
  | cons t ts ih => exact ih t.kind

theorem Phrase.Terminated.of_append (ts : List Token) {us : List Token}
    (h : Terminated (ts ++ us)) : Terminated us := by
  cases us with
  | nil => rfl
  | cons u us =>
      rw [Terminated, lastKind_append] at h
      exact h

/-- Only statements end with semicolons. -/
theorem Spells.lastKind_ne {φ : Phrase} {ts : List Token} (h : Spells φ ts) :
    match φ with
    | .expr _ _ | .conditional _ | .block _ => ∀ prev, lastKind prev ts ≠ .semicolon
    | .alternative _ => ∀ prev, prev ≠ .semicolon → lastKind prev ts ≠ .semicolon
    | _ => True := by
  induction h with
  | name hk | string hk | yes hk | no hk | integer hk _ | float hk _ =>
      intro prev
      rw [lastKind, hk]
      exact Kind.noConfusion
  | group _ _ hclose _ | block _ _ hclose _ =>
      intro prev
      rw [lastKind, lastKind_append, lastKind, hclose]
      exact Kind.noConfusion
  | call _ _ _ hclose _ _ =>
      intro prev
      rw [lastKind_append, lastKind, lastKind_append, lastKind, hclose]
      exact Kind.noConfusion
  | choice _ ih | tighter _ _ ih => exact ih
  | unary _ _ ih => exact fun _ => ih _
  | binary _ _ _ _ ih =>
      intro prev
      rw [lastKind_append]
      exact ih _
  | fused _ _ _ _ ih =>
      intro prev
      rw [lastKind_append]
      exact ih prev
  | conditional _ _ _ _ _ _ _ ihb iha =>
      intro prev
      rw [lastKind, lastKind, lastKind_append, lastKind, lastKind_append]
      exact iha _ (ihb _)
  | absent => exact fun _ h => h
  | otherwise _ _ ih | chained _ _ ih => exact fun _ _ => ih _
  | noArgs | lastArg _ _ | moreArgs _ _ _ _ _ | done | gap _ _ _ | more _ _ _ _
  | binding _ _ _ _ _ _ | bareReturn _ _ | returning _ _ _ _ | blockStmt _ _ | choiceStmt _ _ _
  | exprStmt _ _ _ _ => trivial

/-! ## Steps enough -/

namespace Parser

variable {α β : Type} {c d : Cursor}

/-- Given steps enough, the parser has this outcome. -/
def Reaches (p : Nat → Parser α) (c : Cursor) (o : Outcome α) : Prop :=
  ∀ᶠ n in atTop, p n c = o

theorem Reaches.of_succ {p : Nat → Parser α} {o : Outcome α}
    (h : ∀ᶠ n in atTop, p (n + 1) c = o) : Reaches p c o := by
  unfold Reaches
  rwa [← map_add_atTop_eq_nat 1, eventually_map]

/-- A loop does not care whether its number was split before. -/
theorem operators_splitSigned (n s : Nat) (e : Expr) (c : Cursor) :
    operators n s e c.splitSigned = operators n s e c := by
  cases n with
  | zero => rw [operators]; rfl
  | succ n => rw [operators_succ, operators_succ, Cursor.splitSigned_splitSigned]

theorem reaches_stop {s : Nat} {e : Expr} (h : d.splitSigned.kind.strength ≤ s) :
    Reaches (fun n => operators n s e) d (.done e d.splitSigned []) :=
  .of_succ (Eventually.of_forall fun n => by rw [operators_succ, if_pos h])

end Parser

namespace Cursor

/-- A cursor between two closed ones is closed. -/
theorem Closed.middle {c m d : Cursor} {ts us : List Token} (hc : c.Closed) (hd : d.Closed)
    (hm : c.tokens = ts ++ m.tokens) (hmd : m.tokens = us ++ d.tokens) : m.Closed := by
  refine ⟨fun t ht => hc.marked t ?_, ?_⟩
  · rw [hm]
    exact List.mem_append_right _ ht
  · obtain ⟨t, ht, htend⟩ := hd.ended
    refine ⟨t, ?_, htend⟩
    rw [hmd]
    exact List.mem_append_right _ ht

/-- Where the current token is known, the next ones are. -/
theorem next_tokens {c : Cursor} {t : Token} {ts : List Token} (hc : c.Closed)
    (htok : c.tokens = t :: ts) (hk : t.kind ≠ .eof) : c.next.tokens = ts := by
  obtain ⟨rfl, -⟩ := List.cons.inj htok
  rw [tokens_next hc hk] at htok
  exact (List.cons.inj htok).2

theorem current_of_tokens {c : Cursor} {t : Token} {ts : List Token}
    (htok : c.tokens = t :: ts) : c.current = t := (List.cons.inj htok).1

theorem kind_of_tokens {c : Cursor} {t : Token} {ts : List Token}
    (htok : c.tokens = t :: ts) : c.kind = t.kind := congrArg Token.kind (current_of_tokens htok)

/-- The cursor behind the first of two stretches. -/
theorem Closed.between {c d : Cursor} {ts us : List Token} (hc : c.Closed) (hd : d.Closed)
    (htok : c.tokens = ts ++ (us ++ d.tokens)) :
    ∃ m : Cursor, m.Closed ∧ c.tokens = ts ++ m.tokens ∧ m.tokens = us ++ d.tokens := by
  cases hus : us ++ d.tokens with
  | nil => simp [tokens] at hus
  | cons t rest =>
      rw [hus] at htok
      exact ⟨⟨t, rest⟩, hc.middle hd htok hus.symm, htok, rfl⟩

/-- The cursor on a token between two closed cursors. -/
theorem Closed.reach {c d : Cursor} (hc : c.Closed) (hd : d.Closed) (ts : List Token)
    (t : Token) (us : List Token) (htok : c.tokens = ts ++ t :: (us ++ d.tokens))
    (hk : t.kind ≠ .eof) :
    ∃ m : Cursor, m.Closed ∧ m.current = t ∧ c.tokens = ts ++ m.tokens ∧
      m.next.tokens = us ++ d.tokens := by
  have hmid : (⟨t, us ++ d.tokens⟩ : Cursor).tokens = t :: us ++ d.tokens := rfl
  have hm : (⟨t, us ++ d.tokens⟩ : Cursor).Closed := hc.middle hd htok hmid
  exact ⟨⟨t, us ++ d.tokens⟩, hm, rfl, htok, next_tokens hm rfl hk⟩

theorem splitSigned_of_kind {c : Cursor} (hi : c.kind ≠ .integer) (hf : c.kind ≠ .float) :
    c.splitSigned = c := by
  refine splitSigned_of_not fun hs => ?_
  rw [isSignedNumber, Bool.and_eq_true, Bool.or_eq_true, beq_iff_eq, beq_iff_eq] at hs
  exact hs.1.elim hi hf

/-- Kinds that end an expression whatever came before. -/
def closesExpr (k : Kind) : Bool :=
  k = .closeParen || k = .comma || k = .semicolon || k = .closeBrace || k = .eof

theorem closesExpr_spec {c : Cursor} (h : closesExpr c.kind = true) :
    c.splitSigned = c ∧ c.kind.strength = 0 ∧ c.kind ≠ .else_ := by
  refine ⟨splitSigned_of_kind ?_ ?_, ?_, ?_⟩
  · intro hk
    rw [hk] at h
    cases h
  · intro hk
    rw [hk] at h
    cases h
  · cases hk : c.kind <;> rw [hk] at h <;> first | rfl | cases h
  · intro hk
    rw [hk] at h
    cases h

end Cursor

namespace Parser

open Cursor (closesExpr closesExpr_spec next_tokens current_of_tokens kind_of_tokens)

variable {c d : Cursor}

/-! ## The statement for each kind of phrase -/

/-- An expression of `level`, read at a strength below its operators: what the
loop makes of `e` behind its tokens, reading makes of the whole. -/
def ParsesExpr (level : Nat) (e : Expr) (ts : List Token) : Prop :=
  ∀ (s : Nat) (c d : Cursor) (o : Outcome Expr), s ≤ 9 → min s 8 ≤ level → c.Closed →
    d.Closed → c.tokens = ts ++ d.tokens → d.splitSigned.kind.strength ≤ level + 1 →
    d.kind ≠ .else_ → Reaches (fun n => operators n s e) d o →
    Reaches (fun n => expression n s) c o

/-- A parser of its own reads the tokens as `a`, in front of a token that
`follows` allows. -/
def ParsesAs {α : Type} (p : Nat → Parser α) (follows : Kind → Prop) (a : α) (ts : List Token) :
    Prop :=
  ∀ c d : Cursor, c.Closed → d.Closed → c.tokens = ts ++ d.tokens → follows d.kind →
    Reaches p c (.done a d [])

/-- A statement, up to a semicolon that the list of statements would skip. A
conditional without one would take an `else` behind it. -/
def ParsesStmt (s : Stmt) (next : Kind) (ts : List Token) : Prop :=
  ∀ c d : Cursor, c.Closed → d.Closed → c.tokens = ts ++ d.tokens → d.kind = next →
    (next = .else_ → Terminated ts) →
    ∃ last, Reaches statement c (.done s last []) ∧
      (last = d ∨ d.kind = .semicolon ∧ last = d.next)

/-- The two parsers of lists of statements differ in where they stop and in
how they recover, not in how they go on. -/
structure ReadsLists (p : Nat → Parser (List Stmt)) (stops : Kind → Prop) : Prop where
  stop : ∀ (n : Nat) {c : Cursor}, c.Closed → stops c.kind → p (n + 1) c = .done [] c []
  skip : ∀ (n : Nat) {c : Cursor}, c.Closed → c.kind = .semicolon → p (n + 1) c = p n c.next
  step : ∀ (n : Nat) {c : Cursor}, c.Closed → c.kind ≠ .semicolon → c.kind ≠ .closeBrace →
    c.kind ≠ .eof → ∃ resume, p (n + 1) c = followedBy (statement n c) (p n) resume

/-- Statements in front of a list of statements: they come before those of the
list, and the errors are those of the list. -/
def ParsesBody (ss : List Stmt) (next : Kind) (ts : List Token) : Prop :=
  ∀ ⦃p : Nat → Parser (List Stmt)⦄ ⦃stops : Kind → Prop⦄, ReadsLists p stops →
    ∀ {c d last : Cursor} {rest : List Stmt} {later : List ParseError}, c.Closed → d.Closed →
      c.tokens = ts ++ d.tokens → d.kind = next → (next = .else_ → Terminated ts) →
      Reaches p d (.done rest last later) → Reaches p c (.done (ss ++ rest) last later)

def Parses : Phrase → List Token → Prop
  | .expr level e, ts => ParsesExpr level e ts
  | .args es, ts => ParsesAs arguments (· = .closeParen) es ts
  | .conditional choice, ts => ParsesAs conditional (· ≠ .else_) choice ts
  | .alternative otherwise, ts => ParsesAs alternative (· ≠ .else_) otherwise ts
  | .block b, ts => ParsesAs block (fun _ => True) b ts
  | .stmt s next, ts => ParsesStmt s next ts
  | .body ss next, ts => ParsesBody ss next ts

/-! ## Expressions -/

/-- An expression in front of a token that ends every expression. -/
theorem ParsesExpr.whole {e : Expr} {ts : List Token} (h : ParsesExpr 0 e ts) (hc : c.Closed)
    (hd : d.Closed) (htok : c.tokens = ts ++ d.tokens) (hclose : closesExpr d.kind = true) :
    Reaches (fun n => expression n 0) c (.done e d []) := by
  obtain ⟨hself, hzero, helse⟩ := closesExpr_spec hclose
  have hstop : Reaches (fun n => operators n 0 e) d (.done e d.splitSigned []) :=
    reaches_stop (by rw [hself, hzero])
  rw [hself] at hstop
  exact h 0 c d _ (by decide) (Nat.zero_le _) hc hd htok (by rw [hself, hzero]; decide) helse hstop

/-- An expression in front of an operator that is too weak for it. -/
theorem ParsesExpr.upTo {level s : Nat} {e : Expr} {ts : List Token} (h : ParsesExpr level e ts)
    (hs : s ≤ 9) (hlo : min s 8 ≤ level) (hc : c.Closed) (hd : d.Closed)
    (htok : c.tokens = ts ++ d.tokens) (hstr : d.splitSigned.kind.strength ≤ s)
    (hhi : s ≤ level + 1) (helse : d.kind ≠ .else_) :
    Reaches (fun n => expression n s) c (.done e d.splitSigned []) :=
  h s c d _ hs hlo hc hd htok (Nat.le_trans hstr hhi) helse (reaches_stop hstr)

/-- An operand of its own: the loop goes on behind it. -/
theorem parsesExpr_of_operand {level : Nat} {e : Expr} {ts : List Token}
    (h : ∀ c d : Cursor, c.Closed → d.Closed → c.tokens = ts ++ d.tokens → d.kind ≠ .else_ →
      d.splitSigned.kind.strength ≤ level + 1 →
      ∃ d', Reaches operand c (.done e d' []) ∧ (d' = d ∨ d' = d.splitSigned)) :
    ParsesExpr level e ts := by
  intro s c d o _ _ hc hd htok hstr helse hops
  obtain ⟨d', hoperand, hd'⟩ := h c d hc hd htok helse hstr
  refine .of_succ ?_
  filter_upwards [hoperand, hops] with n hoperand hops
  rw [expression_succ, bind_of_done hoperand]
  rcases hd' with rfl | rfl
  · exact hops
  · rw [operators_splitSigned]
    exact hops

/-- An operand of one token. -/
theorem parsesExpr_of_token {t : Token} {e : Expr} (hk : t.kind ≠ .eof)
    (h : ∀ (n : Nat) (c : Cursor), c.current = t → operand (n + 1) c = .done e c.next []) :
    ParsesExpr operandLevel e [t] := by
  refine parsesExpr_of_operand fun c d hc _ htok _ _ => ⟨d, ?_, Or.inl rfl⟩
  have hnext : c.next = d := Cursor.ext_tokens (next_tokens hc htok hk)
  refine .of_succ (Eventually.of_forall fun n => ?_)
  rw [h n c (current_of_tokens htok), hnext]

theorem parses_group {opening closing : Token} {e : Expr} {ts : List Token}
    (hopen : opening.kind = .openParen) (hclose : closing.kind = .closeParen)
    (ih : ParsesExpr 0 e ts) : ParsesExpr operandLevel e (opening :: (ts ++ [closing])) := by
  refine parsesExpr_of_operand fun c d hc hd htok _ _ => ⟨d, ?_, Or.inl rfl⟩
  have hkind : c.kind = .openParen := (kind_of_tokens htok).trans hopen
  have hnext : c.next.tokens = ts ++ closing :: ([] ++ d.tokens) := by
    rw [next_tokens hc htok (by simp [hopen])]
    simp
  obtain ⟨m, hm, rfl, hmtok, hlast⟩ := hc.next.reach hd ts closing [] hnext (by simp [hclose])
  have hwhole := ih.whole hc.next hm hmtok (by rw [Cursor.kind, hclose]; rfl)
  refine .of_succ ?_
  filter_upwards [hwhole] with n hwhole
  rw [operand_succ, hkind]
  dsimp only
  rw [bind_of_done hwhole, bind_of_done (expect_of_kind (c := m) hclose),
    Cursor.ext_tokens hlast]
  rfl

theorem parses_choice {choice : Conditional} {ts : List Token}
    (hsp : Spells (.conditional choice) ts)
    (ih : ParsesAs conditional (· ≠ .else_) choice ts) :
    ParsesExpr operandLevel (.conditional choice) ts := by
  refine parsesExpr_of_operand fun c d hc hd htok helse _ => ⟨d, ?_, Or.inl rfl⟩
  have hkind : c.kind = .if_ := by
    rw [← Cursor.firstKind_of_tokens htok]
    exact hsp.starts _
  refine .of_succ ?_
  filter_upwards [ih c d hc hd htok helse] with n hchoice
  rw [operand_succ, hkind]
  dsimp only
  rw [bind_of_done hchoice]
  rfl

theorem parses_unary {op : Token} {e : Expr} {ts : List Token}
    (hop : op.kind = .not ∨ op.kind = .minus) (ih : ParsesExpr unaryLevel e ts) :
    ParsesExpr unaryLevel (.unary op e) (op :: ts) := by
  have hne : op.kind ≠ .eof := by
    rcases hop with hop | hop <;> rw [hop] <;> decide
  refine parsesExpr_of_operand fun c d hc hd htok helse hstr => ⟨d.splitSigned, ?_, Or.inr rfl⟩
  have hright := ih.upTo (s := unaryStrength) (Nat.le_refl _) (by decide) hc.next hd
    (next_tokens hc htok hne) hstr (Nat.le_refl _) helse
  refine .of_succ ?_
  filter_upwards [hright] with n hright
  have hcur := current_of_tokens htok
  have hkind := kind_of_tokens htok
  rw [operand_succ, hkind]
  rcases hop with hop | hop
  all_goals
    rw [hop]
    dsimp only
    rw [bind_of_done hright, hcur]
    rfl

theorem parses_call {callee : Expr} {opening closing : Token} {args : List Expr}
    {fs ts : List Token} (hopen : opening.kind = .openParen) (hclose : closing.kind = .closeParen)
    (ihf : ParsesExpr callLevel callee fs)
    (iha : ParsesAs arguments (· = .closeParen) args ts) :
    ParsesExpr callLevel (.call callee opening args closing)
      (fs ++ opening :: (ts ++ [closing])) := by
  intro s c d o hs hlo hc hd htok hstr helse hops
  -- one cursor on each parenthesis
  obtain ⟨m, hm, rfl, hmtok, hmnext⟩ :=
    hc.reach hd fs opening (ts ++ [closing]) (by rw [htok]; simp) (by simp [hopen])
  obtain ⟨m', hm', rfl, hargstok, hlast⟩ :=
    hm.next.reach hd ts closing [] (by rw [hmnext]; simp) (by simp [hclose])
  have hkind : m.kind = .openParen := hopen
  have hself := Cursor.splitSigned_of_kind (c := m) (by rw [hkind]; decide) (by rw [hkind]; decide)
  have hargs := iha m.next m' hm.next hm' hargstok hclose
  refine ihf s c m o hs hlo hc hm hmtok (by rw [hself, hkind]; decide) (by rw [hkind]; decide)
    (.of_succ ?_)
  filter_upwards [hargs, hops] with n hargs hops
  have hstrong : ¬ m.kind.strength ≤ s := by
    rw [hkind]
    exact Nat.not_le_of_lt (Nat.lt_succ_of_le hs)
  rw [operators_succ, hself, if_neg hstrong, if_pos hkind, bind_of_done hargs,
    bind_of_done (expect_of_kind (c := m') hclose), Cursor.ext_tokens hlast]
  exact hops

theorem parses_binary {level : Nat} {op : Token} {left right : Expr} {ls rs : List Token}
    (hop : op.kind ∈ operatorsAt level) (ihl : ParsesExpr level left ls)
    (ihr : ParsesExpr (level + 1) right rs) :
    ParsesExpr level (.binary left op right) (ls ++ op :: rs) := by
  intro s c d o hs hlo hc hd htok hstr helse hops
  obtain ⟨hlevel, hopstr⟩ := mem_operatorsAt.mp hop
  have hne : ∀ k : Kind, k.strength = 0 ∨ k.strength = 10 → op.kind ≠ k := by
    intro k hk heq
    rw [heq] at hopstr
    omega
  obtain ⟨m, hm, rfl, hmtok, hmnext⟩ :=
    hc.reach hd ls op rs (by rw [htok]; simp) (hne _ (Or.inl rfl))
  have hself := Cursor.splitSigned_of_kind (c := m) (hne _ (Or.inl rfl)) (hne _ (Or.inl rfl))
  have hright := ihr.upTo (s := level + 1) (by omega) (by omega) hm.next hd hmnext hstr
    (by omega) helse
  refine ihl s c m o hs hlo hc hm hmtok (by rw [hself, Cursor.kind, hopstr])
    (hne _ (Or.inl rfl)) (.of_succ ?_)
  filter_upwards [hright, hops] with n hright hops
  have hkind : m.kind.strength = level + 1 := hopstr
  have hparen : m.kind ≠ .openParen := hne _ (Or.inr rfl)
  rw [operators_succ, hself, hkind, if_neg (by omega), if_neg hparen, bind_of_done hright,
    operators_splitSigned]
  exact hops

/-- The token that a minus shares with the number behind it comes apart in
front of the loop. -/
theorem parses_fused {t : Token} {left right : Expr} {ls rs : List Token}
    (hsigned : Cursor.isSignedNumber t = true) (ihl : ParsesExpr sumLevel left ls)
    (ihr : ParsesExpr (sumLevel + 1) right (Cursor.unsignedOf t :: rs)) :
    ParsesExpr sumLevel (.binary left (Cursor.minusOf t) right) (ls ++ t :: rs) := by
  intro s c d o hs hlo hc hd htok hstr helse hops
  have hne : t.kind ≠ .eof ∧ t.kind ≠ .else_ := by
    rw [Cursor.isSignedNumber, Bool.and_eq_true, Bool.or_eq_true, beq_iff_eq, beq_iff_eq] at hsigned
    rcases hsigned.1 with hk | hk <;> rw [hk] <;> decide
  obtain ⟨m, hm, rfl, hmtok, hmnext⟩ := hc.reach hd ls t rs (by rw [htok]; simp) hne.1
  have hsplit := Cursor.splitSigned_of_signed hsigned
  have hkind := Cursor.splitSigned_kind hsigned
  have hlater : m.later = rs ++ d.tokens := by
    rw [← hmnext]
    exact (List.cons.inj (Cursor.tokens_next hm hne.1)).2
  have hnext : m.splitSigned.next.tokens = Cursor.unsignedOf m.current :: rs ++ d.tokens := by
    rw [next_tokens hm.splitSigned hsplit (by simp [Cursor.minusOf]), hlater, List.cons_append]
  have hright := ihr.upTo (s := 7) (by decide) (by decide) hm.splitSigned.next hd hnext hstr
    (by decide) helse
  refine ihl s c m o hs hlo hc hm hmtok (by rw [hkind]; decide) hne.2 (.of_succ ?_)
  filter_upwards [hright, hops] with n hright hops
  have hlt : ¬ Kind.strength .minus ≤ s := by
    have h7 : Kind.strength .minus = 7 := rfl
    have h6 : min s 8 ≤ 6 := hlo
    omega
  rw [operators_succ, hkind, if_neg hlt, if_neg (by decide), current_of_tokens hsplit]
  have hright' : expression n (Kind.strength .minus) m.splitSigned.next =
    .done right d.splitSigned [] := hright
  rw [bind_of_done hright', operators_splitSigned]
  exact hops

theorem parses_tighter {level : Nat} {e : Expr} {ts : List Token}
    (ih : ParsesExpr (level + 1) e ts) :
    ParsesExpr level e ts :=
  fun s c d o hs hlo hc hd htok hstr helse hops =>
    ih s c d o hs (Nat.le_succ_of_le hlo) hc hd htok (Nat.le_succ_of_le hstr) helse hops

/-! ## Arguments and conditionals -/

theorem startsExpr_spec {k : Kind} (h : startsExpr k = true) :
    k ≠ .closeParen ∧ k ≠ .semicolon ∧ k ≠ .closeBrace ∧ k ≠ .eof ∧ k ≠ .else_ := by
  refine ⟨?_, ?_, ?_, ?_, ?_⟩
  all_goals
    intro hk
    rw [hk] at h
    cases h

theorem parses_noArgs : ParsesAs arguments (· = .closeParen) [] [] := by
  intro c d _ _ htok hk
  obtain rfl := Cursor.ext_tokens htok
  refine .of_succ (Eventually.of_forall fun n => ?_)
  rw [arguments_succ, if_pos (by simp [hk])]

/-- The first argument, in front of what ends it. -/
theorem reaches_arguments {e : Expr} {ts : List Token} {o : Outcome (List Expr)} {m : Cursor}
    (hsp : Spells (.expr 0 e) ts) (ih : ParsesExpr 0 e ts) (hc : c.Closed) (hm : m.Closed)
    (htok : c.tokens = ts ++ m.tokens) (hclose : closesExpr m.kind = true)
    (hmore : ∀ᶠ n in atTop, (if m.kind = .comma then
      advance >>= fun _ => arguments n >>= fun es => pure (e :: es) else pure [e]) m = o) :
    Reaches arguments c o := by
  have hstart : startsExpr c.kind = true := by
    rw [← Cursor.firstKind_of_tokens htok]
    exact hsp.starts _
  obtain ⟨hparen, -, -, heof, -⟩ := startsExpr_spec hstart
  have hend : ¬ (c.atEnd || decide (c.kind = .closeParen)) = true := by
    have : ¬ c.atEnd = true := fun he => heof (hc.atEnd_iff.mp he)
    simp [this, hparen]
  refine .of_succ ?_
  filter_upwards [ih.whole hc hm htok hclose, hmore] with n he hmore
  rw [arguments_succ, if_neg hend, bind_of_done he, kind_bind]
  exact hmore

theorem parses_lastArg {e : Expr} {ts : List Token} (hsp : Spells (.expr 0 e) ts)
    (ih : ParsesExpr 0 e ts) : ParsesAs arguments (· = .closeParen) [e] ts := by
  intro c d hc hd htok hk
  refine reaches_arguments hsp ih hc hd htok (by rw [hk]; rfl)
    (Eventually.of_forall fun n => ?_)
  rw [if_neg (by rw [hk]; decide)]
  rfl

theorem parses_moreArgs {e : Expr} {comma : Token} {es : List Expr} {ts us : List Token}
    (hcomma : comma.kind = .comma) (hsp : Spells (.expr 0 e) ts) (ihe : ParsesExpr 0 e ts)
    (ihs : ParsesAs arguments (· = .closeParen) es us) :
    ParsesAs arguments (· = .closeParen) (e :: es) (ts ++ comma :: us) := by
  intro c d hc hd htok hk
  obtain ⟨m, hm, rfl, hmtok, hmnext⟩ :=
    hc.reach hd ts comma us (by rw [htok]; simp) (by simp [hcomma])
  have hkind : m.kind = .comma := hcomma
  refine reaches_arguments hsp ihe hc hm hmtok (by rw [hkind]; rfl) ?_
  filter_upwards [ihs m.next d hm.next hd hmnext hk] with n hes
  rw [if_pos hkind, advance_bind, bind_of_done hes]
  rfl

theorem parses_conditional {keyword opening closing : Token} {condition : Expr} {body : Block}
    {otherwise : Alternative} {ts us vs : List Token} (hkeyword : keyword.kind = .if_)
    (hopen : opening.kind = .openParen) (hclose : closing.kind = .closeParen)
    (ihe : ParsesExpr 0 condition ts) (ihb : ParsesAs block (fun _ => True) body us)
    (iha : ParsesAs alternative (· ≠ .else_) otherwise vs) :
    ParsesAs conditional (· ≠ .else_) (.mk keyword condition body otherwise)
      (keyword :: opening :: (ts ++ closing :: (us ++ vs))) := by
  intro c d hc hd htok helse
  have hcur := current_of_tokens htok
  have h₁ : c.next.tokens = opening :: (ts ++ closing :: (us ++ vs)) ++ d.tokens :=
    next_tokens hc htok (by simp [hkeyword])
  have h₂ : c.next.next.tokens = ts ++ closing :: ((us ++ vs) ++ d.tokens) := by
    rw [next_tokens hc.next h₁ (by simp [hopen])]
    simp
  obtain ⟨m, hm, rfl, hmtok, hmnext⟩ :=
    hc.next.next.reach hd ts closing (us ++ vs) h₂ (by simp [hclose])
  obtain ⟨m', hm', hbody, hother⟩ :=
    hm.next.between hd (hmnext.trans (List.append_assoc us vs _))
  have hopen' : c.next.kind = .openParen := (kind_of_tokens h₁).trans hopen
  refine .of_succ ?_
  filter_upwards [ihe.whole hc.next.next hm hmtok (by rw [Cursor.kind, hclose]; rfl),
    ihb m.next m' hm.next hm' hbody trivial, iha m' d hm' hd hother helse] with n he hb ha
  rw [conditional_succ, bind_of_done (expect_of_kind hopen'), bind_of_done he,
    bind_of_done (expect_of_kind (c := m) hclose), bind_of_done hb, bind_of_done ha, hcur]
  rfl

theorem parses_absent : ParsesAs alternative (· ≠ .else_) .absent [] := by
  intro c d _ _ htok helse
  obtain rfl := Cursor.ext_tokens htok
  refine .of_succ (Eventually.of_forall fun n => ?_)
  rw [alternative_succ, if_neg helse]

theorem parses_otherwise {keyword : Token} {body : Block} {ts : List Token}
    (hkeyword : keyword.kind = .else_) (hsp : Spells (.block body) ts)
    (ih : ParsesAs block (fun _ => True) body ts) :
    ParsesAs alternative (· ≠ .else_) (.block body) (keyword :: ts) := by
  intro c d hc hd htok _
  have hnext : c.next.tokens = ts ++ d.tokens := next_tokens hc htok (by simp [hkeyword])
  have hkind : c.next.kind = .openBrace := by
    rw [← Cursor.firstKind_of_tokens hnext]
    exact hsp.starts _
  refine .of_succ ?_
  filter_upwards [ih c.next d hc.next hd hnext trivial] with n hb
  rw [alternative_succ, if_pos ((kind_of_tokens htok).trans hkeyword),
    if_neg (by rw [hkind]; decide), bind_of_done hb]
  rfl

theorem parses_chained {keyword : Token} {next : Conditional} {ts : List Token}
    (hkeyword : keyword.kind = .else_) (hsp : Spells (.conditional next) ts)
    (ih : ParsesAs conditional (· ≠ .else_) next ts) :
    ParsesAs alternative (· ≠ .else_) (.chained next) (keyword :: ts) := by
  intro c d hc hd htok helse
  have hnext : c.next.tokens = ts ++ d.tokens := next_tokens hc htok (by simp [hkeyword])
  have hkind : c.next.kind = .if_ := by
    rw [← Cursor.firstKind_of_tokens hnext]
    exact hsp.starts _
  refine .of_succ ?_
  filter_upwards [ih c.next d hc.next hd hnext helse] with n hchoice
  rw [alternative_succ, if_pos ((kind_of_tokens htok).trans hkeyword), if_pos hkind,
    bind_of_done hchoice]
  rfl

/-! ## Blocks and lists of statements -/

theorem readsLists_blockBody :
    ReadsLists blockBody fun k => k = .closeBrace ∨ k = .eof where
  stop n c hc hk := by
    have hstop : (c.atEnd || decide (c.kind = .closeBrace)) = true := by
      rcases hk with hk | hk
      · simp [hk]
      · simp [hc.atEnd_iff.mpr hk]
    rw [blockBody_succ, if_pos hstop]
  skip n c hc hk := by
    have hend : ¬ c.atEnd = true := fun he => by simp [hc.atEnd_iff.mp he] at hk
    rw [blockBody_succ, if_neg (by simp [hend, hk]), if_pos hk]
  step n c hc hsemi hbrace heof := by
    have hend : ¬ c.atEnd = true := fun he => heof (hc.atEnd_iff.mp he)
    exact ⟨_, by rw [blockBody_succ, if_neg (by simp [hend, hbrace]), if_neg hsemi]⟩

theorem readsLists_statements : ReadsLists statements (· = .eof) where
  stop n c hc hk := by rw [statements_succ, if_pos (hc.atEnd_iff.mpr hk)]
  skip n c hc hk := by
    have hend : ¬ c.atEnd = true := fun he => by simp [hc.atEnd_iff.mp he] at hk
    rw [statements_succ, if_neg hend, if_pos hk]
  step n c hc hsemi hbrace heof := by
    have hend : ¬ c.atEnd = true := fun he => heof (hc.atEnd_iff.mp he)
    exact ⟨_, by rw [statements_succ, if_neg hend, if_neg hsemi, if_neg hbrace]⟩

/-- Statements in front of a token that ends their list. -/
theorem ParsesBody.whole {p : Nat → Parser (List Stmt)} {stops : Kind → Prop} {ss : List Stmt}
    {next : Kind} {ts : List Token} (h : ParsesBody ss next ts) (hp : ReadsLists p stops)
    (hc : c.Closed) (hd : d.Closed) (htok : c.tokens = ts ++ d.tokens) (hnext : d.kind = next)
    (hstop : stops d.kind) (helse : next ≠ .else_) : Reaches p c (.done ss d []) := by
  have hend : Reaches p d (.done [] d []) :=
    .of_succ (Eventually.of_forall fun n => hp.stop n hd hstop)
  have hreach := h hp hc hd htok hnext (fun hk => absurd hk helse) hend
  rwa [List.append_nil] at hreach

theorem parses_block {opening closing : Token} {ss : List Stmt} {ts : List Token}
    (hopen : opening.kind = .openBrace) (hclose : closing.kind = .closeBrace)
    (ih : ParsesBody ss .closeBrace ts) :
    ParsesAs block (fun _ => True) (.braces opening ss closing ss.isEmpty)
      (opening :: (ts ++ [closing])) := by
  intro c d hc hd htok _
  have hcur := current_of_tokens htok
  have hkind := (kind_of_tokens htok).trans hopen
  have hnext : c.next.tokens = ts ++ closing :: ([] ++ d.tokens) := by
    rw [next_tokens hc htok (by simp [hopen])]
    simp
  obtain ⟨m, hm, rfl, hmtok, hlast⟩ := hc.next.reach hd ts closing [] hnext (by simp [hclose])
  refine .of_succ ?_
  filter_upwards [ih.whole readsLists_blockBody hc.next hm hmtok hclose (Or.inl hclose)
    Kind.noConfusion] with n hbody
  rw [block_succ, bind_of_done (expect_of_kind hkind), bind_of_done hbody,
    bind_of_done (expect_of_kind (c := m) hclose), hcur, Cursor.ext_tokens hlast]
  rfl

theorem parses_done {next : Kind} : ParsesBody [] next [] := by
  intro p stops _ c d last rest later _ _ htok _ _ hrest
  obtain rfl := Cursor.ext_tokens htok
  exact hrest

theorem parses_gap {t : Token} {ss : List Stmt} {next : Kind} {ts : List Token}
    (hk : t.kind = .semicolon) (ih : ParsesBody ss next ts) : ParsesBody ss next (t :: ts) := by
  intro p stops hp c d last rest later hc hd htok hnext hend hrest
  have hkind := (kind_of_tokens htok).trans hk
  have hreach := ih hp hc.next hd (next_tokens hc htok (by simp [hk])) hnext
    (fun helse => Terminated.of_append [t] (hend helse)) hrest
  refine .of_succ ?_
  filter_upwards [hreach] with n hn
  rw [hp.skip n hc hkind, hn]

/-- Whether the statement took the semicolon or left it, the list goes on. -/
theorem reaches_resume {p : Nat → Parser (List Stmt)} {m last : Cursor} {o : Outcome (List Stmt)}
    (hskip : ∀ n, m.kind = .semicolon → p (n + 1) m = p n m.next) (h : Reaches p m o)
    (hlast : last = m ∨ m.kind = .semicolon ∧ last = m.next) : Reaches p last o := by
  rcases hlast with rfl | ⟨hk, rfl⟩
  · exact h
  · have hshift : ∀ᶠ n in atTop, p (n + 1) m = o := (tendsto_add_atTop_nat 1).eventually h
    filter_upwards [hshift] with n hn
    rw [← hskip n hk, hn]

theorem startsStatement_spec {k : Kind} (h : startsStatement k = true) :
    k ≠ .semicolon ∧ k ≠ .closeBrace ∧ k ≠ .eof ∧ k ≠ .else_ := by
  refine ⟨?_, ?_, ?_, ?_⟩
  all_goals
    intro hk
    rw [hk] at h
    cases h

/-- A statement starts with nothing that a list of statements acts on. -/
theorem stmt_starts {s : Stmt} {next : Kind} {ts : List Token} (next' : Kind)
    (hsp : Spells (.stmt s next) ts) :
    firstKind ts next' ≠ .semicolon ∧ firstKind ts next' ≠ .closeBrace ∧
      firstKind ts next' ≠ .eof ∧ firstKind ts next' ≠ .else_ := by
  rcases hsp.starts next' with h | h
  · obtain ⟨-, hrest⟩ := startsExpr_spec h
    exact hrest
  · exact startsStatement_spec h

theorem body_starts {ss : List Stmt} {next : Kind} {ts : List Token}
    (hsp : Spells (.body ss next) ts) (helse : firstKind ts next = .else_) :
    ts = [] ∧ next = .else_ := by
  cases hsp with
  | done => exact ⟨rfl, helse⟩
  | gap hk _ =>
      rw [firstKind_cons, hk] at helse
      cases helse
  | more hs _ =>
      rw [firstKind_append] at helse
      exact absurd helse (stmt_starts _ hs).2.2.2

theorem parses_more {s : Stmt} {ss : List Stmt} {next : Kind} {us ts : List Token}
    (hs : Spells (.stmt s (firstKind ts next)) us) (hss : Spells (.body ss next) ts)
    (ihs : ParsesStmt s (firstKind ts next) us) (ihss : ParsesBody ss next ts) :
    ParsesBody (s :: ss) next (us ++ ts) := by
  rintro p stops hp c d last rest later hc hd htok rfl hend hrest
  obtain ⟨m, hm, hmtok, hmd⟩ := hc.between hd (htok.trans (List.append_assoc us ts _))
  have hsend : firstKind ts d.kind = .else_ → Terminated us := by
    intro helse
    obtain ⟨rfl, hk⟩ := body_starts hss helse
    rw [← List.append_nil us]
    exact hend hk
  obtain ⟨hsemi, hbrace, heof, -⟩ := stmt_starts m.kind hs
  rw [Cursor.firstKind_of_tokens hmtok] at hsemi hbrace heof
  obtain ⟨behind, hstmt, hbehind⟩ :=
    ihs c m hc hm hmtok (Cursor.firstKind_of_tokens hmd).symm hsend
  have hmore := reaches_resume (fun n hk => hp.skip n hm hk)
    (ihss hp hm hd hmd rfl (fun hk => Terminated.of_append us (hend hk)) hrest) hbehind
  refine .of_succ ?_
  filter_upwards [hstmt, hmore] with n hstmt hmore
  obtain ⟨resume, hstep⟩ := hp.step n hc hsemi hbrace heof
  rw [hstep, hstmt, followedBy_done, hmore]
  rfl

/-! ## Statements -/

/-- An expression and the end of its statement. -/
theorem reaches_closing {value : Expr} {ts us : List Token} (finish : Expr → Stmt)
    (ih : ParsesExpr 0 value ts) (hends : Ends us d.kind) (hc : c.Closed) (hd : d.Closed)
    (htok : c.tokens = ts ++ (us ++ d.tokens)) :
    Reaches (fun n => expression n 0 >>= fun value => endOfStatement >>= fun _ =>
      pure (finish value)) c (.done (finish value) d []) := by
  obtain ⟨m, hm, hmtok, hmd⟩ := hc.between hd htok
  obtain ⟨hclose, hend⟩ : closesExpr m.kind = true ∧ endOfStatement m = .done () d [] := by
    cases hends with
    | semicolon hk =>
        have hkind := (kind_of_tokens hmd).trans hk
        have hnext : m.next = d := Cursor.ext_tokens (next_tokens hm hmd (by simp [hk]))
        rw [endOfStatement_apply, if_pos hkind, hnext, hkind]
        exact ⟨rfl, rfl⟩
    | omitted hnext =>
        obtain rfl := Cursor.ext_tokens hmd
        rw [endOfStatement_apply]
        rcases hnext with hk | hk <;> simp [hk, closesExpr]
  filter_upwards [ih.whole hc hm hmtok hclose] with n hvalue
  rw [bind_of_done hvalue, bind_of_done hend]
  rfl

theorem parses_binding {keyword name assign : Token} {value : Expr} {next : Kind}
    {ts us : List Token} (hkeyword : keyword.kind = .let_) (hname : name.kind = .ident)
    (hassign : assign.kind = .assign) (hends : Ends us next) (ih : ParsesExpr 0 value ts) :
    ParsesStmt (.binding keyword name name.lexeme value) next
      (keyword :: name :: assign :: (ts ++ us)) := by
  rintro c d hc hd htok rfl -
  refine ⟨d, ?_, Or.inl rfl⟩
  have hcur := current_of_tokens htok
  have hkind := (kind_of_tokens htok).trans hkeyword
  have h₁ : c.next.tokens = name :: assign :: (ts ++ us) ++ d.tokens :=
    next_tokens hc htok (by simp [hkeyword])
  have h₂ : c.next.next.tokens = assign :: (ts ++ us) ++ d.tokens :=
    next_tokens hc.next h₁ (by simp [hname])
  have h₃ : c.next.next.next.tokens = ts ++ (us ++ d.tokens) := by
    rw [next_tokens hc.next.next h₂ (by simp [hassign])]
    simp
  refine .of_succ ?_
  filter_upwards [reaches_closing (fun value => .binding keyword name name.lexeme value) ih hends
    hc.next.next.next hd h₃] with n hvalue
  rw [statement_succ, hkind]
  dsimp only
  rw [bind_of_done (expect_of_kind ((kind_of_tokens h₁).trans hname)),
    bind_of_done (expect_of_kind ((kind_of_tokens h₂).trans hassign)), hcur,
    current_of_tokens h₁]
  exact hvalue

theorem parses_bareReturn {keyword : Token} {next : Kind} {us : List Token}
    (hkeyword : keyword.kind = .return_) (hends : Ends us next) :
    ParsesStmt (.returning keyword .missing) next (keyword :: us) := by
  rintro c d hc hd htok rfl -
  refine ⟨d, ?_, Or.inl rfl⟩
  have hcur := current_of_tokens htok
  have hkind := (kind_of_tokens htok).trans hkeyword
  have hnext : c.next.tokens = us ++ d.tokens := next_tokens hc htok (by simp [hkeyword])
  obtain ⟨hk, hend⟩ : (c.next.kind = .semicolon ∨ c.next.kind = .closeBrace ∨
      c.next.kind = .eof) ∧ endOfStatement c.next = .done () d [] := by
    cases hends with
    | semicolon hk =>
        have hkind' := (kind_of_tokens hnext).trans hk
        have hnext' : c.next.next = d :=
          Cursor.ext_tokens (next_tokens hc.next hnext (by simp [hk]))
        rw [endOfStatement_apply, if_pos hkind', hnext']
        exact ⟨Or.inl hkind', rfl⟩
    | omitted hnext' =>
        rw [Cursor.ext_tokens hnext, endOfStatement_apply]
        rcases hnext' with hk | hk <;> simp [hk]
  refine .of_succ (Eventually.of_forall fun n => ?_)
  rw [statement_succ, hkind]
  dsimp only
  rw [if_pos (by simpa [or_assoc] using hk), bind_of_done hend, hcur]
  rfl

theorem parses_returning {keyword : Token} {value : Expr} {next : Kind} {ts us : List Token}
    (hkeyword : keyword.kind = .return_) (hsp : Spells (.expr 0 value) ts)
    (hends : Ends us next) (ih : ParsesExpr 0 value ts) :
    ParsesStmt (.returning keyword value) next (keyword :: (ts ++ us)) := by
  rintro c d hc hd htok rfl -
  refine ⟨d, ?_, Or.inl rfl⟩
  have hcur := current_of_tokens htok
  have hkind := (kind_of_tokens htok).trans hkeyword
  have hnext : c.next.tokens = ts ++ (us ++ d.tokens) := by
    rw [next_tokens hc htok (by simp [hkeyword])]
    simp
  obtain ⟨m, -, hmtok, -⟩ := hc.next.between hd hnext
  have hstart := hsp.starts m.kind
  rw [Cursor.firstKind_of_tokens hmtok] at hstart
  obtain ⟨-, hsemi, hbrace, heof, -⟩ := startsExpr_spec hstart
  refine .of_succ ?_
  filter_upwards [reaches_closing (.returning keyword) ih hends hc.next hd hnext] with n hvalue
  rw [statement_succ, hkind]
  dsimp only
  rw [if_neg (by simp [hsemi, hbrace, heof]), hcur]
  exact hvalue

theorem parses_blockStmt {b : Block} {next : Kind} {ts : List Token}
    (hsp : Spells (.block b) ts) (ih : ParsesAs block (fun _ => True) b ts) :
    ParsesStmt (.block b) next ts := by
  intro c d hc hd htok _ _
  refine ⟨d, .of_succ ?_, Or.inl rfl⟩
  have hkind : c.kind = .openBrace := by
    rw [← Cursor.firstKind_of_tokens htok]
    exact hsp.starts _
  filter_upwards [ih c d hc hd htok trivial] with n hb
  rw [statement_succ, hkind]
  dsimp only
  rw [bind_of_done hb]
  rfl

theorem parses_choiceStmt {choice : Conditional} {next : Kind} {ts us : List Token}
    (hsp : Spells (.conditional choice) ts) (hmay : MayEnd us)
    (ih : ParsesAs conditional (· ≠ .else_) choice ts) :
    ParsesStmt (.expr (.conditional choice)) next (ts ++ us) := by
  rintro c d hc hd htok rfl helse
  obtain ⟨m, hm, hmtok, hmd⟩ := hc.between hd (htok.trans (List.append_assoc ts us _))
  have hkind : c.kind = .if_ := by
    rw [← Cursor.firstKind_of_tokens hmtok]
    exact hsp.starts _
  have hmelse : m.kind ≠ .else_ := by
    cases hmay with
    | semicolon hk =>
        rw [kind_of_tokens hmd, hk]
        decide
    | omitted =>
        rw [Cursor.ext_tokens hmd]
        intro hk
        rw [List.append_nil] at helse
        exact hsp.lastKind_ne _ (helse hk)
  refine ⟨if m.kind = .semicolon then m.next else m, .of_succ ?_, ?_⟩
  · filter_upwards [ih c m hc hm hmtok hmelse] with n hchoice
    rw [statement_succ, hkind]
    dsimp only
    rw [bind_of_done hchoice, bind_of_done (optionalSemicolon_apply m)]
    rfl
  · cases hmay with
    | semicolon hk =>
        rw [if_pos ((kind_of_tokens hmd).trans hk)]
        exact Or.inl (Cursor.ext_tokens (next_tokens hm hmd (by simp [hk])))
    | omitted =>
        obtain rfl := Cursor.ext_tokens hmd
        split
        · rename_i hk
          exact Or.inr ⟨hk, rfl⟩
        · exact Or.inl rfl

theorem parses_exprStmt {e : Expr} {next : Kind} {ts us : List Token}
    (hsp : Spells (.expr 0 e) ts) (hstart : startsStatement (firstKind ts next) = false)
    (hends : Ends us next) (ih : ParsesExpr 0 e ts) :
    ParsesStmt (.expr e) next (ts ++ us) := by
  rintro c d hc hd htok rfl -
  have htok' := htok.trans (List.append_assoc ts us _)
  have hkind : startsStatement c.kind = false := by
    rw [← hstart]
    cases ts with
    | nil => exact absurd rfl hsp.expr_ne_nil
    | cons t ts => rw [kind_of_tokens htok, firstKind_cons]
  refine ⟨d, .of_succ ?_, Or.inl rfl⟩
  filter_upwards [reaches_closing .expr ih hends hc hd htok'] with n hvalue
  rw [statement_succ]
  cases hk : c.kind
  case let_ | return_ | openBrace | if_ =>
      rw [hk] at hkind
      cases hkind
  all_goals exact hvalue

/-! ## The grammar and the parsers agree -/

theorem parses_of_spells {φ : Phrase} {ts : List Token} (h : Spells φ ts) : Parses φ ts := by
  induction h with
  | name hk =>
      exact parsesExpr_of_token (by simp [hk]) fun n c hcur => by
        subst hcur
        rw [operand_succ, Cursor.kind, hk]
  | integer hk hread =>
      exact parsesExpr_of_token (by simp [hk]) fun n c hcur => by
        subst hcur
        rw [operand_succ, Cursor.kind, hk]
        dsimp only [Parser.integer]
        rw [hread]
  | float hk hread =>
      exact parsesExpr_of_token (by simp [hk]) fun n c hcur => by
        subst hcur
        rw [operand_succ, Cursor.kind, hk]
        dsimp only [Parser.float]
        rw [hread]
  | string hk =>
      exact parsesExpr_of_token (by simp [hk]) fun n c hcur => by
        subst hcur
        rw [operand_succ, Cursor.kind, hk]
  | yes hk =>
      exact parsesExpr_of_token (by simp [hk]) fun n c hcur => by
        subst hcur
        rw [operand_succ, Cursor.kind, hk]
  | no hk =>
      exact parsesExpr_of_token (by simp [hk]) fun n c hcur => by
        subst hcur
        rw [operand_succ, Cursor.kind, hk]
  | group hopen _ hclose ih => exact parses_group hopen hclose ih
  | choice hsp ih => exact parses_choice hsp ih
  | call _ hopen _ hclose ihf iha => exact parses_call hopen hclose ihf iha
  | unary hop _ ih => exact parses_unary hop ih
  | binary hop _ _ ihl ihr => exact parses_binary hop ihl ihr
  | fused hsigned _ _ ihl ihr => exact parses_fused hsigned ihl ihr
  | tighter _ _ ih => exact parses_tighter ih
  | noArgs => exact parses_noArgs
  | lastArg hsp ih => exact parses_lastArg hsp ih
  | moreArgs hsp hcomma _ ihe ihs => exact parses_moreArgs hcomma hsp ihe ihs
  | conditional hk hopen _ hclose _ _ ihe ihb iha =>
      exact parses_conditional hk hopen hclose ihe ihb iha
  | absent => exact parses_absent
  | otherwise hk hsp ih => exact parses_otherwise hk hsp ih
  | chained hk hsp ih => exact parses_chained hk hsp ih
  | block hopen _ hclose ih => exact parses_block hopen hclose ih
  | done => exact parses_done
  | gap hk _ ih => exact parses_gap hk ih
  | more hs hss ihs ihss => exact parses_more hs hss ihs ihss
  | binding hk hname hassign _ hends ih => exact parses_binding hk hname hassign hends ih
  | bareReturn hk hends => exact parses_bareReturn hk hends
  | returning hk hsp hends ih => exact parses_returning hk hsp hends ih
  | blockStmt hsp ih => exact parses_blockStmt hsp ih
  | choiceStmt hsp hmay ih => exact parses_choiceStmt hsp hmay ih
  | exprStmt hsp hstart hends ih => exact parses_exprStmt hsp hstart hends ih

end Parser

/-! ## Whole programs -/

/-- Reading to an end token means reading to the only one. -/
theorem Token.eq_of_ends {body ts later : List Token} {last t : Token}
    (h : body ++ [last] = ts ++ t :: later) (hbody : ∀ u ∈ body, u.kind ≠ .eof)
    (ht : t.kind = .eof) : body = ts ∧ last = t := by
  rcases List.append_eq_append_iff.mp h with ⟨us, rfl, hus⟩ | ⟨us, rfl, hus⟩
  · obtain ⟨rfl, hlast⟩ | ⟨_, _, hnil⟩ := List.cons_eq_append_iff.mp hus
    · exact ⟨(List.append_nil body).symm, (List.cons.inj hlast).1.symm⟩
    · simp at hnil
  · obtain ⟨rfl, hlast⟩ | ⟨us, rfl, -⟩ := List.cons_eq_append_iff.mp hus
    · exact ⟨List.append_nil ts, (List.cons.inj hlast).1⟩
    · exact absurd ht (hbody t (by simp))

/-- A parse always ends, and on an end token. -/
theorem parse_eq_statements {tokens : List Token} (hclosed : (Cursor.ofTokens tokens).Closed) :
    ∃ rest, Parser.statements (Cursor.ofTokens tokens).budget (Cursor.ofTokens tokens)
      = .done (parse tokens).program rest (parse tokens).errors := by
  obtain ⟨p, rest, errors, hrun, -⟩ := Parser.statements_budget hclosed
  have hparse : parse tokens = ⟨p, errors⟩ := by
    simp only [parse, parseWithin, hrun, Option.getD_some]
  exact ⟨rest, by rw [hrun, hparse]⟩

theorem reaches_parse {tokens : List Token} (hclosed : (Cursor.ofTokens tokens).Closed) :
    ∃ rest, Parser.Reaches Parser.statements (Cursor.ofTokens tokens)
      (.done (parse tokens).program rest (parse tokens).errors) := by
  obtain ⟨rest, hrun⟩ := parse_eq_statements hclosed
  refine ⟨rest, ?_⟩
  filter_upwards [eventually_ge_atTop (Cursor.ofTokens tokens).budget] with n hn
  rw [Parser.stable_of_below Parser.below_statements_succ hn (by simp [hrun]), hrun]

/-- Whatever number of steps a program is read in, the budget gives the same. -/
theorem parse_eq_of_reaches {tokens : List Token} {p : Program} {rest : Cursor}
    {errors : List ParseError} (hclosed : (Cursor.ofTokens tokens).Closed)
    (hreach : Parser.Reaches Parser.statements (Cursor.ofTokens tokens) (.done p rest errors)) :
    parse tokens = ⟨p, errors⟩ := by
  obtain ⟨last, hparse⟩ := reaches_parse hclosed
  obtain ⟨n, hn, hn'⟩ := (hparse.and hreach).exists
  obtain ⟨rfl, -, rfl⟩ := Outcome.done.inj (hn'.symm.trans hn)
  rfl

theorem parse_of_reaches {tokens : List Token} {p : Program} {rest : Cursor}
    {errors : List ParseError} (h : Token.EndsOnce tokens)
    (hreach : Parser.Reaches Parser.statements (Cursor.ofTokens tokens) (.done p rest errors)) :
    parse tokens = ⟨p, errors⟩ :=
  parse_eq_of_reaches (Cursor.ofTokens_spec h).2 hreach

theorem spellsProgram_of_parse {tokens : List Token} (h : Token.EndsOnce tokens)
    (herr : (parse tokens).errors = []) : SpellsProgram (parse tokens).program tokens := by
  obtain ⟨htok, hclosed⟩ := Cursor.ofTokens_spec h
  obtain ⟨rest, hrun⟩ := parse_eq_statements hclosed
  rw [herr] at hrun
  obtain ⟨body, last, hsplit, hlast, hbody⟩ := h.ended
  obtain ⟨hend, ts, hts, hrest, hsp⟩ := Parser.statements_sound hclosed hrun
  have htokens : body ++ [last] = ts ++ rest.current :: rest.later := by
    rw [← hsplit, ← htok, hts]
    rfl
  obtain ⟨rfl, -⟩ := Token.eq_of_ends htokens hbody (hrest.atEnd_iff.mp hend)
  exact ⟨body, last, hsplit, hlast, hsp⟩

theorem parse_of_spellsProgram {tokens : List Token} {p : Program} (h : Token.EndsOnce tokens)
    (hsp : SpellsProgram p tokens) :
    (parse tokens).errors = [] ∧ (parse tokens).program = p := by
  obtain ⟨htok, hclosed⟩ := Cursor.ofTokens_spec h
  obtain ⟨ts, t, hts, ht, hbody⟩ := hsp
  have hmark : t.isEof = true := (h.marked t (by simp [hts])).mpr ht
  have hd : (⟨t, []⟩ : Cursor).Closed :=
    ⟨by simp [Cursor.tokens, hmark, ht], t, by simp [Cursor.tokens], hmark⟩
  have hparses : Parser.ParsesBody p .eof ts := Parser.parses_of_spells hbody
  have hreach := hparses.whole Parser.readsLists_statements hclosed hd (htok.trans hts) ht ht
    Kind.noConfusion
  rw [parse_of_reaches h hreach]
  exact ⟨rfl, rfl⟩

/-- The parser accepts exactly what the grammar spells, and gives the tree of
its derivation. -/
theorem parse_eq_iff_spellsProgram {tokens : List Token} (h : Token.EndsOnce tokens)
    (p : Program) :
    (parse tokens).errors = [] ∧ (parse tokens).program = p ↔ SpellsProgram p tokens := by
  constructor
  · rintro ⟨herr, rfl⟩
    exact spellsProgram_of_parse h herr
  · exact parse_of_spellsProgram h

/-- Minus signs written together with numbers, in front of and between
operands. -/
theorem spellsProgram_minus_signs :
    let tokens := (Token.scan (text
      "let n = 7-2*-3; if (!(n||b)) \x7b ; f(n-1,) \x7d else if (n) \x7b\x7d")).1
    (parse tokens).errors = [] ∧ Program.canonical (parse tokens).program =
      text "let n = (7 - (2 * -3));\nif ((!(n || b))) \x7b f((n - 1)); \x7d else if (n) \x7b\x7d" ∧
    SpellsProgram (parse tokens).program tokens := by
  refine ⟨by decide +kernel, by decide +kernel, ?_⟩
  exact (parse_eq_iff_spellsProgram (Token.endsOnce_scan _) _).mp ⟨by decide +kernel, rfl⟩

end Scriptlet
