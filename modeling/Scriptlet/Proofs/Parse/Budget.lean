import Scriptlet.Proofs.Parse.Steps
import Scriptlet.Proofs.Token.Tiling

/-!
# The budget of a parse

Every parser finishes within a number of steps that the tokens ahead bound,
so that `parse` never runs out of them.

`Cursor.moves` counts the moves a cursor can still make: one per token, and
one more per leading minus of a number, since splitting a signed number adds
a token and takes a minus. Splitting keeps that count and moving on lowers it
(`moves_splitSigned`, `moves_next`).

`Settles o m b` says that an outcome is not exhausted and how far its cursor
got. One lemma per parser shows it from the same fact about the parsers it
calls; `settled` closes the circle by induction on the steps, and
`statements_eq_done` states the result for whole programs.
-/

namespace Scriptlet

/-! ## Cursors that cannot run off -/

namespace Cursor

/-- The token looked at and all after it. -/
def tokens (c : Cursor) : List Token := c.current :: c.later

/-- The mark and the kind of end tokens agree, and there is one ahead. -/
structure Closed (c : Cursor) : Prop where
  marked : ∀ t ∈ c.tokens, t.isEof = true ↔ t.kind = .eof
  ended : ∃ t ∈ c.tokens, t.isEof = true

theorem ext_tokens {c d : Cursor} (h : c.tokens = d.tokens) : c = d := by
  obtain ⟨hcur, hlater⟩ := List.cons.inj h
  cases c
  cases d
  simp only at hcur hlater
  rw [hcur, hlater]

theorem Closed.atEnd_iff {c : Cursor} (h : c.Closed) : c.atEnd = true ↔ c.kind = .eof :=
  h.marked c.current List.mem_cons_self

/-- Short of the end, moving on drops the current token. -/
theorem tokens_next {c : Cursor} (h : c.Closed) (hk : c.kind ≠ .eof) :
    c.tokens = c.current :: c.next.tokens := by
  have hend : ¬ c.current.isEof = true := fun he => hk (h.atEnd_iff.mp he)
  obtain ⟨t, ht, htend⟩ := h.ended
  unfold next
  rw [if_neg hend]
  split
  · rename_i hlater
    rw [tokens, hlater, List.mem_singleton] at ht
    exact absurd (ht ▸ htend) hend
  · rename_i t' rest hlater
    rw [tokens, hlater]
    rfl

theorem Closed.next {c : Cursor} (h : c.Closed) : c.next.Closed := by
  by_cases hk : c.kind = .eof
  · have hend : c.current.isEof = true := h.atEnd_iff.mpr hk
    rw [Cursor.next, if_pos hend]
    exact h
  · have htok := tokens_next h hk
    refine ⟨fun t ht => h.marked t (htok ▸ List.mem_cons_of_mem _ ht), ?_⟩
    obtain ⟨t, ht, htend⟩ := h.ended
    rw [htok, List.mem_cons] at ht
    rcases ht with rfl | ht
    · exact absurd (h.atEnd_iff.mp htend) hk
    · exact ⟨t, ht, htend⟩

theorem splitSigned_of_signed {c : Cursor} (h : isSignedNumber c.current = true) :
    c.splitSigned.tokens = minusOf c.current :: unsignedOf c.current :: c.later := by
  rw [splitSigned, if_pos h]
  rfl

theorem splitSigned_of_not {c : Cursor} (h : ¬ isSignedNumber c.current = true) :
    c.splitSigned = c := if_neg h

theorem Closed.splitSigned {c : Cursor} (h : c.Closed) : c.splitSigned.Closed := by
  by_cases hs : isSignedNumber c.current = true
  · have htok := splitSigned_of_signed hs
    constructor
    · intro t ht
      rw [htok, List.mem_cons, List.mem_cons] at ht
      rcases ht with rfl | rfl | ht
      · simp [minusOf]
      · exact h.marked c.current List.mem_cons_self
      · exact h.marked t (List.mem_cons_of_mem _ ht)
    · obtain ⟨t, ht, htend⟩ := h.ended
      rw [htok]
      rcases List.mem_cons.mp ht with rfl | ht
      · exact ⟨unsignedOf c.current, by simp, htend⟩
      · exact ⟨t, by simp [ht], htend⟩
  · rw [splitSigned_of_not hs]
    exact h

/-- A list is read as it is when its last token is marked, and with an end
token behind it when not. -/
theorem tokens_ofTokens (body : List Token) (last : Token) :
    (ofTokens (body ++ [last])).tokens =
      if last.isEof then body ++ [last] else body ++ [last] ++ [Token.endOfInput last.stop] := by
  obtain ⟨t, rest, hcons⟩ := List.exists_cons_of_ne_nil (l := if last.isEof then body ++ [last]
    else body ++ [last] ++ [Token.endOfInput last.stop]) (by split <;> simp)
  simp only [ofTokens, List.getLast?_concat, hcons]
  rfl

/-- Where the mark and the kind of end tokens agree, the cursor cannot run
off. -/
theorem ofTokens_closed {tokens : List Token}
    (h : ∀ t ∈ tokens, t.isEof = true ↔ t.kind = .eof) : (ofTokens tokens).Closed := by
  rcases List.eq_nil_or_concat tokens with rfl | ⟨body, last, hconcat⟩
  · have htok : (ofTokens []).tokens = [Token.endOfInput .start] := rfl
    constructor <;> rw [htok] <;> simp [Token.endOfInput]
  · obtain rfl := hconcat.trans List.concat_eq_append
    have htok := tokens_ofTokens body last
    by_cases hend : last.isEof = true
    · rw [if_pos hend] at htok
      constructor <;> rw [htok]
      · exact h
      · exact ⟨last, by simp, hend⟩
    · rw [if_neg hend] at htok
      constructor <;> rw [htok]
      · intro t ht
        rcases List.mem_append.mp ht with ht | ht
        · exact h t ht
        · simp [List.mem_singleton.mp ht, Token.endOfInput]
      · exact ⟨_, List.mem_append_right _ (List.mem_singleton.mpr rfl), rfl⟩

theorem ofTokens_spec {tokens : List Token} (h : Token.EndsOnce tokens) :
    (ofTokens tokens).tokens = tokens ∧ (ofTokens tokens).Closed := by
  obtain ⟨body, last, rfl, hlast, -⟩ := h.ended
  have hmark : last.isEof = true := (h.marked last (by simp)).mpr hlast
  exact ⟨by rw [tokens_ofTokens, if_pos hmark], ofTokens_closed h.marked⟩

end Cursor

/-! ## Moves -/

/-- The moves a token is good for. -/
def Token.moves (t : Token) : Nat :=
  if t.kind = .integer ∨ t.kind = .float then
    (t.lexeme.takeWhile (· == Byte.minus)).length + 1
  else 1

theorem Token.moves_pos (t : Token) : 0 < t.moves := by
  unfold moves
  split <;> omega

theorem Token.moves_le (t : Token) : t.moves ≤ t.lexeme.length + 1 := by
  have hle := (List.takeWhile_sublist (l := t.lexeme) (· == Byte.minus)).length_le
  unfold moves
  split <;> omega

namespace Cursor

/-- The moves left to a cursor. -/
def moves (c : Cursor) : Nat := (c.tokens.map Token.moves).foldr (· + ·) 0

theorem moves_pos (c : Cursor) : 0 < c.moves := by
  have := Token.moves_pos c.current
  simp only [moves, tokens, List.map_cons, List.foldr_cons]
  omega

theorem moves_le_weight (c : Cursor) : c.moves ≤ c.weight := by
  unfold moves weight tokens
  induction c.current :: c.later with
  | nil => exact Nat.le_refl _
  | cons t ts ih =>
      have := Token.moves_le t
      simp only [List.map_cons, List.foldr_cons]
      omega

theorem moves_next {c : Cursor} (h : c.Closed) (hk : c.kind ≠ .eof) :
    c.next.moves < c.moves := by
  have := Token.moves_pos c.current
  unfold moves
  rw [tokens_next h hk, List.map_cons, List.foldr_cons]
  omega

theorem moves_next_le {c : Cursor} (h : c.Closed) : c.next.moves ≤ c.moves := by
  by_cases hk : c.kind = .eof
  · have hend : c.next = c := if_pos (h.atEnd_iff.mpr hk)
    exact Nat.le_of_eq (congrArg moves hend)
  · exact Nat.le_of_lt (moves_next h hk)

/-- The minus that a split takes from the number is a token of its own. -/
theorem moves_splitSigned (c : Cursor) : c.splitSigned.moves = c.moves := by
  by_cases hs : isSignedNumber c.current = true
  · unfold moves
    rw [splitSigned_of_signed hs, tokens]
    simp only [isSignedNumber, Bool.and_eq_true, Bool.or_eq_true, beq_iff_eq] at hs
    obtain ⟨hkind, hhead⟩ := hs
    obtain ⟨rest, hlex⟩ : ∃ rest, c.current.lexeme = Byte.minus :: rest := by
      cases hl : c.current.lexeme with
      | nil => simp [hl] at hhead
      | cons b rest => exact ⟨rest, by simpa [hl] using hhead⟩
    simp [Token.moves, minusOf, unsignedOf, hkind, hlex]
    omega
  · rw [splitSigned_of_not hs]

/-! ### Statement boundaries -/

theorem skipStatement_spec {n : Nat} :
    ∀ {c : Cursor}, c.Closed →
      (c.skipStatement n).Closed ∧ (c.skipStatement n).moves ≤ c.moves := by
  induction n with
  | zero => exact fun h => ⟨h, Nat.le_refl _⟩
  | succ n ih =>
      intro c h
      rw [skipStatement]
      split
      · exact ⟨h, Nat.le_refl _⟩
      · split
        · exact ⟨h.next, moves_next_le h⟩
        · obtain ⟨hclosed, hle⟩ := ih h.next
          exact ⟨hclosed, Nat.le_trans hle (moves_next_le h)⟩

theorem Closed.boundary {c : Cursor} (h : c.Closed) : c.boundary.Closed :=
  (skipStatement_spec h).1

theorem moves_boundary_le {c : Cursor} (h : c.Closed) : c.boundary.moves ≤ c.moves :=
  (skipStatement_spec h).2

/-- A boundary is not where the search for it starts, but at a closing brace
and at the end. -/
theorem moves_boundary_lt {c : Cursor} (h : c.Closed) (hk : c.kind ≠ .eof)
    (hb : c.kind ≠ .closeBrace) : c.boundary.moves < c.moves := by
  have hend : ¬ c.atEnd = true := fun he => hk (h.atEnd_iff.mp he)
  rw [boundary, skipStatement, if_neg (by simp [hend, hb])]
  split
  · exact moves_next h hk
  · exact Nat.lt_of_le_of_lt (skipStatement_spec h.next).2 (moves_next h hk)

end Cursor

/-! ## Settled outcomes -/

/-- Not exhausted: done with fewer than `m` moves left, or broken off where it
started or later. -/
def Outcome.Settles {α : Type} (o : Outcome α) (start : Cursor) (m : Nat) : Prop :=
  match o with
  | .done _ rest _ => rest.Closed ∧ rest.moves < m
  | .broken rest _ => rest.Closed ∧ (rest = start ∨ rest.moves < start.moves)
  | .exhausted => False

/-- A later start may be told as an earlier one. -/
theorem Outcome.Settles.earlier {α : Type} {o : Outcome α} {c start : Cursor} {m m' : Nat}
    (h : o.Settles c m) (hm : m ≤ m') (hc : c.moves < start.moves) : o.Settles start m' := by
  cases o with
  | done a rest errors => exact ⟨h.1, Nat.lt_of_lt_of_le h.2 hm⟩
  | broken rest errors =>
      refine ⟨h.1, Or.inr ?_⟩
      rcases h.2 with rfl | hlt
      · exact hc
      · exact Nat.lt_trans hlt hc
  | exhausted => exact h

theorem Outcome.Settles.after {α : Type} {o : Outcome α} {start : Cursor} {m : Nat}
    (h : o.Settles start m) (errors : List ParseError) : (o.after errors).Settles start m := by
  cases o <;> exact h

namespace Parser

variable {α β : Type} {c start : Cursor} {m : Nat}

theorem settles_bind {p : Parser α} {f : α → Parser β} {m' : Nat} (hp : (p c).Settles start m)
    (hf : ∀ a rest, rest.Closed → rest.moves < m → (f a rest).Settles start m') :
    ((p >>= f) c).Settles start m' := by
  rw [bind_apply]
  cases hpc : p c with
  | done a rest errors =>
      rw [hpc] at hp
      exact (hf a rest hp.1 hp.2).after errors
  | broken rest errors =>
      rw [hpc] at hp
      exact hp
  | exhausted =>
      rw [hpc] at hp
      exact hp.elim

theorem settles_done (a : α) (errors : List ParseError) (hc : c.Closed) (hm : c.moves < m) :
    (Outcome.done a c errors).Settles start m := ⟨hc, hm⟩

theorem settles_next (a : α) (errors : List ParseError) (hc : c.Closed) (hk : c.kind ≠ .eof)
    (hm : c.moves ≤ m) : (Outcome.done a c.next errors).Settles start m :=
  ⟨hc.next, Nat.lt_of_lt_of_le (Cursor.moves_next hc hk) hm⟩

theorem settles_expect {k : Kind} (hc : c.Closed) (hk : k ≠ .eof) (hm : c.moves ≤ m)
    (hb : c = start ∨ c.moves < start.moves) : (expect k c).Settles start m := by
  by_cases h : c.kind = k
  · rw [expect_of_kind h]
    exact settles_next _ _ hc (h ▸ hk) hm
  · rw [expect_of_ne h]
    exact ⟨hc, hb⟩

theorem settles_endOfStatement (hc : c.Closed) (hm : c.moves < m)
    (hb : c = start ∨ c.moves < start.moves) :
    (endOfStatement c).Settles start m := by
  rw [endOfStatement_apply]
  split
  · exact ⟨hc.next, Nat.lt_of_le_of_lt (Cursor.moves_next_le hc) hm⟩
  · split
    · exact ⟨hc, hm⟩
    · exact ⟨hc, hb⟩

theorem settles_optionalSemicolon (hc : c.Closed) (hm : c.moves < m) :
    (optionalSemicolon c).Settles start m := by
  rw [optionalSemicolon_apply]
  split
  · exact ⟨hc.next, Nat.lt_of_le_of_lt (Cursor.moves_next_le hc) hm⟩
  · exact ⟨hc, hm⟩

theorem settles_integer (hc : c.Closed) (hk : c.kind ≠ .eof) :
    (integer c).Settles c c.moves := by
  unfold integer
  split
  · exact settles_next _ _ hc hk (Nat.le_refl _)
  · exact ⟨hc, Or.inl rfl⟩

theorem settles_float (hc : c.Closed) (hk : c.kind ≠ .eof) :
    (float c).Settles c c.moves := by
  unfold float
  split
  · exact settles_next _ _ hc hk (Nat.le_refl _)
  · exact ⟨hc, Or.inl rfl⟩

/-! ## Each parser within its steps

A parser that is called on a later token may take up eight steps less per
move, so only calls on the same token cost: the offsets count how many of
those can nest. -/

/-- Within `n` steps every parser settles whose tokens leave it that many. -/
structure Settled (n : Nat) : Prop where
  expression : ∀ (s : Nat) (c : Cursor), c.Closed → 8 * c.moves + 2 ≤ n →
    (expression n s c).Settles c c.moves
  operators : ∀ (s : Nat) (left : Expr) (c : Cursor), c.Closed → 8 * c.moves ≤ n →
    (operators n s left c).Settles c (c.moves + 1)
  arguments : ∀ c : Cursor, c.Closed → 8 * c.moves + 3 ≤ n →
    (arguments n c).Settles c (c.moves + 1)
  operand : ∀ c : Cursor, c.Closed → 8 * c.moves + 1 ≤ n →
    (operand n c).Settles c c.moves
  conditional : ∀ c : Cursor, c.Closed → c.kind ≠ .eof → 8 * c.moves ≤ n →
    (conditional n c).Settles c c.moves
  alternative : ∀ c : Cursor, c.Closed → 8 * c.moves ≤ n →
    (alternative n c).Settles c (c.moves + 1)
  block : ∀ c : Cursor, c.Closed → 8 * c.moves ≤ n →
    (block n c).Settles c c.moves
  blockBody : ∀ c : Cursor, c.Closed → 8 * c.moves + 4 ≤ n →
    (blockBody n c).Settles c (c.moves + 1)
  statement : ∀ c : Cursor, c.Closed → c.kind ≠ .eof → 8 * c.moves + 3 ≤ n →
    (statement n c).Settles c c.moves

section SettledSucc

variable {n : Nat} (ih : Settled n)
include ih

theorem settles_expression_succ (s : Nat) (hc : c.Closed) (hn : 8 * c.moves + 2 ≤ n + 1) :
    (expression (n + 1) s c).Settles c c.moves := by
  rw [expression_succ]
  refine settles_bind (ih.operand c hc (by omega)) fun left rest hrest hlt => ?_
  exact (ih.operators s left rest hrest (by omega)).earlier (by omega) (by omega)

theorem settles_operators_succ (s : Nat) (left : Expr) (hc : c.Closed)
    (hn : 8 * c.moves ≤ n + 1) :
    (operators (n + 1) s left c).Settles c (c.moves + 1) := by
  have hsplit := hc.splitSigned
  have hmoves := Cursor.moves_splitSigned c
  rw [operators_succ]
  split
  · exact settles_done _ _ hsplit (by omega)
  · rename_i hs
    have hk : c.splitSigned.kind ≠ .eof := fun he => hs (by rw [he]; exact Nat.zero_le _)
    have hnext := Cursor.moves_next hsplit hk
    split
    · refine settles_bind ((ih.arguments _ hsplit.next (by omega)).earlier (Nat.le_refl _)
        (by omega)) fun args rest hrest hlt => ?_
      refine settles_bind (settles_expect hrest (by decide) (Nat.le_refl _) (Or.inr (by omega)))
        fun closing last hlast hlt' => ?_
      exact (ih.operators s _ last hlast (by omega)).earlier (by omega) (by omega)
    · refine settles_bind ((ih.expression _ _ hsplit.next (by omega)).earlier (Nat.le_refl _)
        (by omega)) fun right rest hrest hlt => ?_
      exact (ih.operators s _ rest hrest (by omega)).earlier (by omega) (by omega)

theorem settles_arguments_succ (hc : c.Closed) (hn : 8 * c.moves + 3 ≤ n + 1) :
    (arguments (n + 1) c).Settles c (c.moves + 1) := by
  rw [arguments_succ]
  split
  · exact settles_done _ _ hc (by omega)
  · refine settles_bind (ih.expression 0 c hc (by omega)) fun e rest hrest hlt => ?_
    rw [kind_bind, ite_apply]
    split
    · have hle := Cursor.moves_next_le hrest
      rw [advance_bind]
      refine settles_bind ((ih.arguments _ hrest.next (by omega)).earlier (Nat.le_refl _)
        (by omega)) fun es last hlast hlt' => ?_
      exact settles_done _ _ hlast (by omega)
    · exact settles_done _ _ hrest (by omega)

theorem settles_conditional_succ (hc : c.Closed) (hk : c.kind ≠ .eof)
    (hn : 8 * c.moves ≤ n + 1) :
    (conditional (n + 1) c).Settles c c.moves := by
  have hnext := Cursor.moves_next hc hk
  rw [conditional_succ]
  refine settles_bind (settles_expect hc.next (by decide) (Nat.le_refl _) (Or.inr (by omega)))
    fun _ c₁ h₁ hlt₁ => ?_
  refine settles_bind ((ih.expression 0 c₁ h₁ (by omega)).earlier (Nat.le_refl _) (by omega))
    fun condition c₂ h₂ hlt₂ => ?_
  refine settles_bind (settles_expect h₂ (by decide) (Nat.le_refl _) (Or.inr (by omega)))
    fun _ c₃ h₃ hlt₃ => ?_
  refine settles_bind ((ih.block c₃ h₃ (by omega)).earlier (Nat.le_refl _) (by omega))
    fun body c₄ h₄ hlt₄ => ?_
  refine settles_bind ((ih.alternative c₄ h₄ (by omega)).earlier (Nat.le_refl _) (by omega))
    fun otherwise c₅ h₅ hlt₅ => ?_
  exact settles_done _ _ h₅ (by omega)

theorem settles_alternative_succ (hc : c.Closed) (hn : 8 * c.moves ≤ n + 1) :
    (alternative (n + 1) c).Settles c (c.moves + 1) := by
  rw [alternative_succ]
  split
  · rename_i helse
    have hnext := Cursor.moves_next hc (by rw [helse]; decide)
    split
    · rename_i hif
      refine settles_bind ((ih.conditional _ hc.next (by rw [hif]; decide) (by omega)).earlier
        (Nat.le_refl _) (by omega)) fun next rest hrest hlt => ?_
      exact settles_done _ _ hrest (by omega)
    · refine settles_bind ((ih.block _ hc.next (by omega)).earlier (Nat.le_refl _) (by omega))
        fun body rest hrest hlt => ?_
      exact settles_done _ _ hrest (by omega)
  · exact settles_done _ _ hc (by omega)

theorem settles_block_succ (hc : c.Closed) (hn : 8 * c.moves ≤ n + 1) :
    (block (n + 1) c).Settles c c.moves := by
  rw [block_succ]
  refine settles_bind (settles_expect hc (by decide) (Nat.le_refl _) (Or.inl rfl))
    fun opening c₁ h₁ hlt₁ => ?_
  refine settles_bind ((ih.blockBody c₁ h₁ (by omega)).earlier (Nat.le_refl _) (by omega))
    fun body c₂ h₂ hlt₂ => ?_
  refine settles_bind (settles_expect h₂ (by decide) (Nat.le_refl _) (Or.inr (by omega)))
    fun closing c₃ h₃ hlt₃ => ?_
  exact settles_done _ _ h₃ (by omega)

theorem settles_operand_succ (hc : c.Closed) (hn : 8 * c.moves + 1 ≤ n + 1) :
    (operand (n + 1) c).Settles c c.moves := by
  have hnext : c.kind ≠ .eof → c.next.moves < c.moves := Cursor.moves_next hc
  rw [operand_succ]
  cases hk : c.kind
  case ident => exact settles_next _ _ hc (by simp [hk]) (Nat.le_refl _)
  case integer => exact settles_integer hc (by simp [hk])
  case float => exact settles_float hc (by simp [hk])
  case string => exact settles_next _ _ hc (by simp [hk]) (Nat.le_refl _)
  case true_ => exact settles_next _ _ hc (by simp [hk]) (Nat.le_refl _)
  case false_ => exact settles_next _ _ hc (by simp [hk]) (Nat.le_refl _)
  case openParen =>
      have hlt := hnext (by simp [hk])
      refine settles_bind ((ih.expression 0 _ hc.next (by omega)).earlier (Nat.le_refl _)
        (by omega)) fun e c₁ h₁ hlt₁ => ?_
      refine settles_bind (settles_expect h₁ (by decide) (Nat.le_refl _) (Or.inr (by omega)))
        fun _ c₂ h₂ hlt₂ => ?_
      exact settles_done _ _ h₂ (by omega)
  case if_ =>
      refine settles_bind (ih.conditional c hc (by simp [hk]) (by omega))
        fun choice c₁ h₁ hlt₁ => ?_
      exact settles_done _ _ h₁ hlt₁
  case not =>
      have hlt := hnext (by simp [hk])
      refine settles_bind ((ih.expression _ _ hc.next (by omega)).earlier (Nat.le_refl _)
        (by omega)) fun right c₁ h₁ hlt₁ => ?_
      exact settles_done _ _ h₁ (by omega)
  case minus =>
      have hlt := hnext (by simp [hk])
      refine settles_bind ((ih.expression _ _ hc.next (by omega)).earlier (Nat.le_refl _)
        (by omega)) fun right c₁ h₁ hlt₁ => ?_
      exact settles_done _ _ h₁ (by omega)
  all_goals exact ⟨hc, Or.inl rfl⟩

/-- An expression that ends a statement. -/
theorem settles_closing (hc : c.Closed) (hn : 8 * c.moves + 2 ≤ n) (finish : Expr → Stmt) :
    ((expression n 0 >>= fun value => endOfStatement >>= fun _ => pure (finish value)) c).Settles
      c c.moves := by
  refine settles_bind (ih.expression 0 c hc hn) fun value c₁ h₁ hlt₁ => ?_
  refine settles_bind (settles_endOfStatement h₁ hlt₁ (Or.inr (by omega))) fun _ c₂ h₂ hlt₂ => ?_
  exact settles_done _ _ h₂ hlt₂

theorem settles_statement_succ (hc : c.Closed) (he : c.kind ≠ .eof)
    (hn : 8 * c.moves + 3 ≤ n + 1) :
    (statement (n + 1) c).Settles c c.moves := by
  have hlt := Cursor.moves_next hc he
  rw [statement_succ]
  cases c.kind
  case let_ =>
      refine settles_bind (settles_expect hc.next (by decide) (Nat.le_refl _) (Or.inr (by omega)))
        fun name c₁ h₁ hlt₁ => ?_
      refine settles_bind (settles_expect h₁ (by decide) (Nat.le_refl _) (Or.inr (by omega)))
        fun _ c₂ h₂ hlt₂ => ?_
      exact (settles_closing ih h₂ (by omega) _).earlier (by omega) (by omega)
  case return_ =>
      dsimp only
      split
      · refine settles_bind (settles_endOfStatement hc.next hlt (Or.inr (by omega)))
          fun _ c₁ h₁ hlt₁ => ?_
        exact settles_done _ _ h₁ hlt₁
      · exact (settles_closing ih hc.next (by omega) _).earlier (by omega) (by omega)
  case openBrace =>
      refine settles_bind (ih.block c hc (by omega)) fun body c₁ h₁ hlt₁ => ?_
      exact settles_done _ _ h₁ hlt₁
  case if_ =>
      refine settles_bind (ih.conditional c hc he (by omega)) fun choice c₁ h₁ hlt₁ => ?_
      refine settles_bind (settles_optionalSemicolon h₁ hlt₁) fun _ c₂ h₂ hlt₂ => ?_
      exact settles_done _ _ h₂ hlt₂
  all_goals exact settles_closing ih hc (by omega) _

omit ih in
/-- Behind a statement, and at the boundary behind a broken one, there are
fewer moves left than in front of it. -/
theorem settles_followedBy {o : Outcome Stmt} {more : Parser (List Stmt)}
    {resume : Cursor → Cursor} (hk : c.kind ≠ .eof) (hb : c.kind ≠ .closeBrace)
    (ho : o.Settles c c.moves)
    (hmore : ∀ d : Cursor, d.Closed → d.moves < c.moves → (more d).Settles start m)
    (hresume : ∀ d : Cursor, d.Closed →
      (resume d).Closed ∧ (resume d).moves ≤ d.boundary.moves) :
    (followedBy o more resume).Settles start m := by
  cases o with
  | done s rest errors =>
      refine (settles_bind (hmore rest ho.1 ho.2) fun ss last hlast hlt => ?_).after errors
      exact settles_done _ _ hlast hlt
  | broken rest errors =>
      obtain ⟨hclosed, hle⟩ := hresume rest ho.1
      refine (hmore _ hclosed (Nat.lt_of_le_of_lt hle ?_)).after errors
      rcases ho.2 with rfl | hlt
      · exact Cursor.moves_boundary_lt ho.1 hk hb
      · exact Nat.lt_of_le_of_lt (Cursor.moves_boundary_le ho.1) hlt
  | exhausted => exact ho.elim

theorem settles_blockBody_succ (hc : c.Closed) (hn : 8 * c.moves + 4 ≤ n + 1) :
    (blockBody (n + 1) c).Settles c (c.moves + 1) := by
  rw [blockBody_succ]
  split
  · exact settles_done _ _ hc (Nat.lt_succ_self _)
  · rename_i hend
    obtain ⟨hnot, hb⟩ : ¬ c.atEnd = true ∧ c.kind ≠ .closeBrace := by simpa using hend
    have hk : c.kind ≠ .eof := fun he => hnot (hc.atEnd_iff.mpr he)
    have hlt := Cursor.moves_next hc hk
    split
    · exact (ih.blockBody _ hc.next (by omega)).earlier (by omega) hlt
    · refine settles_followedBy hk hb (ih.statement c hc hk (by omega)) (fun d hd hdlt => ?_)
        fun d hd => ⟨hd.boundary, Nat.le_refl _⟩
      exact (ih.blockBody d hd (by omega)).earlier (by omega) hdlt

end SettledSucc

theorem settled_zero : Settled 0 where
  expression _ c _ hn := absurd c.moves_pos (by omega)
  operators _ _ c _ hn := absurd c.moves_pos (by omega)
  arguments c _ hn := absurd c.moves_pos (by omega)
  operand c _ hn := absurd c.moves_pos (by omega)
  conditional c _ _ hn := absurd c.moves_pos (by omega)
  alternative c _ hn := absurd c.moves_pos (by omega)
  block c _ hn := absurd c.moves_pos (by omega)
  blockBody c _ hn := absurd c.moves_pos (by omega)
  statement c _ _ hn := absurd c.moves_pos (by omega)

theorem settled : ∀ n, Settled n
  | 0 => settled_zero
  | n + 1 => by
      have ih := settled n
      exact {
        expression := fun s c => settles_expression_succ ih s
        operators := fun s left c => settles_operators_succ ih s left
        arguments := fun c => settles_arguments_succ ih
        operand := fun c => settles_operand_succ ih
        conditional := fun c => settles_conditional_succ ih
        alternative := fun c => settles_alternative_succ ih
        block := fun c => settles_block_succ ih
        blockBody := fun c => settles_blockBody_succ ih
        statement := fun c => settles_statement_succ ih }

/-! ## Programs -/

theorem dropBrace_spec (hc : c.Closed) :
    (dropBrace c).Closed ∧ (dropBrace c).moves ≤ c.moves := by
  unfold dropBrace
  split
  · exact ⟨hc.next, Cursor.moves_next_le hc⟩
  · exact ⟨hc, Nat.le_refl _⟩

/-- A program is read to an end token, whatever the errors on the way. -/
theorem statements_eq_done : ∀ {n : Nat} {c : Cursor}, c.Closed → 8 * c.moves + 4 ≤ n →
    ∃ p rest errors, statements n c = .done p rest errors ∧ rest.atEnd = true
  | 0, c, _, hn => absurd c.moves_pos (by omega)
  | n + 1, c, hc, hn => by
      rw [statements_succ]
      split
      · rename_i hend
        exact ⟨[], c, [], rfl, hend⟩
      · rename_i hend
        have hk : c.kind ≠ .eof := fun he => hend (hc.atEnd_iff.mpr he)
        have hlt := Cursor.moves_next hc hk
        split
        · exact statements_eq_done hc.next (by omega)
        · split
          · obtain ⟨p, rest, errors, hp, hrest⟩ :=
              statements_eq_done (n := n) hc.next (by omega)
            rw [hp]
            exact ⟨p, rest, _, rfl, hrest⟩
          · rename_i hb
            have ho := (settled n).statement c hc hk (by omega)
            cases hs : statement n c with
            | done s rest errors =>
                rw [hs] at ho
                have hlt' := ho.2
                obtain ⟨p, last, later, hp, hlast⟩ :=
                  statements_eq_done (n := n) ho.1 (by omega)
                rw [followedBy_done, hp]
                exact ⟨s :: p, last, _, rfl, hlast⟩
            | broken rest errors =>
                rw [hs] at ho
                obtain ⟨hclosed, hle⟩ := dropBrace_spec ho.1.boundary
                have hlt' : rest.boundary.moves < c.moves := by
                  rcases ho.2 with rfl | hlt'
                  · exact Cursor.moves_boundary_lt ho.1 hk hb
                  · exact Nat.lt_of_le_of_lt (Cursor.moves_boundary_le ho.1) hlt'
                obtain ⟨p, last, later, hp, hlast⟩ :=
                  statements_eq_done (n := n) hclosed (by omega)
                rw [followedBy, hp]
                exact ⟨p, last, _, rfl, hlast⟩
            | exhausted =>
                rw [hs] at ho
                exact ho.elim

/-- The budget of a closed cursor is enough. -/
theorem statements_budget (hc : c.Closed) :
    ∃ p rest errors, statements c.budget c = .done p rest errors ∧ rest.atEnd = true := by
  have hle := Cursor.moves_le_weight c
  exact statements_eq_done hc (by unfold Cursor.budget; omega)

end Parser

end Scriptlet
