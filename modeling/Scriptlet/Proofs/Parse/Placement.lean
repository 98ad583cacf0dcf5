import Scriptlet.Proofs.Parse.Complete
import Scriptlet.Proofs.Token.Runs
import Scriptlet.Proofs.Tree.Placement

/-!
# Parsed trees are where the source has them

Whatever a source is and however much of it is broken, the trees that are left
of it stand where it has them, node by node (`parse_lies`), and every parse error
is about a token of it, at the place of that token (`Scanner.parse_row`).

A cursor is ahead of an offset (`Cursor.Ahead`) when its tokens are in their
places, one behind the other, from that offset on. Moving on puts it ahead of the
token it leaves (`Ahead.next`), and the two halves of a number that is split are
in their places because the minus is a byte of the source (`placed_split`). An
outcome keeps to the source (`Outcome.Keeps`) when its tree ends at an offset that
its cursor is ahead of. One lemma per parser shows this from the same fact about
the parsers it calls; `keeping` is the induction on the steps.
-/

namespace Scriptlet

/-! ## Tokens in their places -/

/-- An operator is written as its lexeme. -/
theorem Kind.isVerbatim_of_strength {k : Kind} (h : 0 < k.strength) : k.isVerbatim = true := by
  cases k
  case eof | string | illegal => cases h
  all_goals rfl

/-- Where a token is written as its lexeme. -/
theorem Lexeme.standsFor_iff {k : Kind} (hk : k.isVerbatim = true) {content bytes : Text} :
    StandsFor k content bytes ↔ bytes = content := by
  cases k
  case string | illegal | eof => cases hk
  all_goals exact Iff.rfl

namespace Token

variable {t : Token} {source : Text}

theorem Placed.bytes_eq (h : t.Placed source) (hk : t.kind.isVerbatim = true) :
    t.bytesIn source = t.lexeme := (Lexeme.standsFor_iff hk).mp h.stands

theorem isVerbatim_of_isNumber (h : t.isNumber = true) : t.kind.isVerbatim = true := by
  simp only [isNumber, Bool.or_eq_true, decide_eq_true_eq] at h
  rcases h with hk | hk <;> rw [hk] <;> rfl

theorem isNumber_of_isSignedNumber (h : Cursor.isSignedNumber t = true) : t.isNumber = true := by
  simp only [Cursor.isSignedNumber, Bool.and_eq_true, Bool.or_eq_true, beq_iff_eq] at h
  simpa [isNumber] using h.1

/-- A minus in the source is a step to the right. -/
theorem trueIn_right {p : Position} (h : p.TrueIn source) {rest : Text}
    (hrest : source.drop p.offset = Byte.minus :: rest) : p.right.TrueIn source :=
  h.step hrest

/-- Behind the minus of a number there is a digit at least. -/
theorem lexeme_of_signed (hs : Cursor.isSignedNumber t = true) (hlegible : t.Legible) :
    ∃ d ds, t.lexeme = Byte.minus :: d :: ds := by
  have hnumber := isNumber_of_isSignedNumber hs
  obtain ⟨d, ds, hwritten, -⟩ := (legible_unsignedOf hs hlegible).first
  rw [written_of_isNumber (t := Cursor.unsignedOf t) hnumber] at hwritten
  simp only [Cursor.isSignedNumber, Bool.and_eq_true, beq_iff_eq] at hs
  obtain ⟨rest, hlexeme⟩ := List.head?_eq_some_iff.mp hs.2
  rw [Cursor.unsignedOf, hlexeme] at hwritten
  exact ⟨d, ds, hlexeme.trans (congrArg _ hwritten)⟩

theorem drop_of_bytesIn {c : UInt8} {bytes : Text} (h : t.bytesIn source = c :: bytes) :
    ∃ rest, source.drop t.start.offset = c :: rest := by
  rw [bytesIn, List.drop_take] at h
  obtain ⟨rest, hrest⟩ := List.take_prefix (t.stop.offset - t.start.offset)
    (source.drop t.start.offset)
  rw [h] at hrest
  exact ⟨bytes ++ rest, hrest.symm⟩

/-- The minus of a number and the rest of it are in their places. -/
theorem placed_split (h : t.Placed source) (hlegible : t.Legible)
    (hs : Cursor.isSignedNumber t = true) :
    (Cursor.minusOf t).Placed source ∧ (Cursor.unsignedOf t).Placed source := by
  have hverbatim := isVerbatim_of_isNumber (isNumber_of_isSignedNumber hs)
  obtain ⟨d, ds, hlexeme⟩ := lexeme_of_signed hs hlegible
  have hbytes := h.bytes_eq hverbatim
  rw [hlexeme] at hbytes
  obtain ⟨rest, hrest⟩ := drop_of_bytesIn hbytes
  have hwidth : t.start.offset + 1 < t.stop.offset := by
    have hlength := congrArg List.length hbytes
    rw [bytesIn, List.length_drop, List.length_take, List.length_cons, List.length_cons] at hlength
    omega
  have hright := trueIn_right h.start_true hrest
  have hoffset : t.start.right.offset = t.start.offset + 1 := rfl
  constructor
  · refine ⟨h.start_true, hright, Nat.le_succ _, fun _ => Nat.lt_succ_self _, ?_, ?_⟩
    · show 1 = t.start.right.offset - t.start.offset
      omega
    · show (source.take (t.start.offset + 1)).drop t.start.offset = text "-"
      rw [List.drop_take, hrest, Nat.add_sub_cancel_left]
      rfl
  · refine ⟨hright, h.stop_true, Nat.le_of_lt hwidth, fun _ => hwidth, ?_, ?_⟩
    · show t.length - 1 = t.stop.offset - t.start.right.offset
      rw [h.length_eq, hoffset]
      omega
    · refine (Lexeme.standsFor_iff hverbatim).mpr ?_
      show (source.take t.stop.offset).drop (t.start.offset + 1) = t.lexeme.tail
      rw [← List.drop_drop, show (source.take t.stop.offset).drop t.start.offset = _ from hbytes,
        hlexeme]
      rfl

end Token

/-! ## Cursors -/

namespace Cursor

/-- The tokens from here on stand in their places behind the offset `lo`. -/
structure Ahead (c : Cursor) (source : Text) (lo : Nat) : Prop where
  closed : c.Closed
  placed : ∀ t ∈ c.tokens, t.Placed source
  legible : ∀ t ∈ c.tokens, t.isNumber = true → t.Legible
  beyond : ∀ t ∈ c.tokens, lo ≤ t.start.offset
  ordered : c.tokens.Pairwise fun t u => t.stop.offset ≤ u.start.offset

variable {c : Cursor} {source : Text} {lo lo' : Nat}

theorem Ahead.mono (h : c.Ahead source lo) (hle : lo' ≤ lo) : c.Ahead source lo' :=
  { h with beyond := fun t ht => Nat.le_trans hle (h.beyond t ht) }

theorem Ahead.current_placed (h : c.Ahead source lo) : c.current.Placed source :=
  h.placed c.current List.mem_cons_self

theorem Ahead.current_beyond (h : c.Ahead source lo) : lo ≤ c.current.start.offset :=
  h.beyond c.current List.mem_cons_self

/-- Moving on from a token puts the cursor ahead of it. -/
theorem Ahead.next (h : c.Ahead source lo) (hk : c.kind ≠ .eof) :
    c.next.Ahead source c.current.stop.offset := by
  have htok := tokens_next h.closed hk
  have hmem : ∀ t ∈ c.next.tokens, t ∈ c.tokens := by
    intro t ht
    rw [htok]
    exact List.mem_cons_of_mem _ ht
  have hordered := h.ordered
  rw [htok, List.pairwise_cons] at hordered
  exact ⟨h.closed.next, fun t ht => h.placed t (hmem t ht), fun t ht => h.legible t (hmem t ht),
    hordered.1, hordered.2⟩

/-- Moving on never leaves the source behind the offset. -/
theorem Ahead.skip (h : c.Ahead source lo) : c.next.Ahead source lo := by
  by_cases hk : c.kind = .eof
  · have hend : c.current.isEof = true := h.closed.atEnd_iff.mpr hk
    rw [Cursor.next, if_pos hend]
    exact h
  · exact (h.next hk).mono (Nat.le_trans h.current_beyond h.current_placed.start_le)

theorem Ahead.splitSigned (h : c.Ahead source lo) : c.splitSigned.Ahead source lo := by
  by_cases hs : isSignedNumber c.current = true
  · have hlegible := h.legible c.current List.mem_cons_self (Token.isNumber_of_isSignedNumber hs)
    obtain ⟨hminus, hunsigned⟩ := Token.placed_split h.current_placed hlegible hs
    have htok := splitSigned_of_signed hs
    have hordered := List.pairwise_cons.mp h.ordered
    have hlater : ∀ t ∈ c.later, t ∈ c.tokens := fun t ht => List.mem_cons_of_mem _ ht
    refine ⟨h.closed.splitSigned, ?_, ?_, ?_, ?_⟩ <;> rw [htok]
    · simp only [List.forall_mem_cons]
      exact ⟨hminus, hunsigned, fun t ht => h.placed t (hlater t ht)⟩
    · simp only [List.forall_mem_cons]
      exact ⟨fun _ => Token.legible_minusOf _, fun _ => Token.legible_unsignedOf hs hlegible,
        fun t ht => h.legible t (hlater t ht)⟩
    · simp only [List.forall_mem_cons]
      exact ⟨h.current_beyond, Nat.le_succ_of_le h.current_beyond,
        fun t ht => h.beyond t (hlater t ht)⟩
    · refine List.pairwise_cons.mpr ⟨?_, List.pairwise_cons.mpr ⟨hordered.1, hordered.2⟩⟩
      rw [List.forall_mem_cons]
      exact ⟨Nat.le_refl _, fun t ht => Nat.le_trans hunsigned.start_le (hordered.1 t ht)⟩
  · rwa [splitSigned_of_not hs]

theorem Ahead.skipStatement : ∀ {n : Nat} {c : Cursor}, c.Ahead source lo →
    (c.skipStatement n).Ahead source lo
  | 0, _, h => h
  | n + 1, c, h => by
      rw [Cursor.skipStatement]
      split
      · exact h
      · split
        · exact h.skip
        · exact h.skip.skipStatement

theorem Ahead.boundary (h : c.Ahead source lo) : c.boundary.Ahead source lo := h.skipStatement

theorem Ahead.dropBrace (h : c.Ahead source lo) : (Parser.dropBrace c).Ahead source lo := by
  unfold Parser.dropBrace
  split
  · exact h.skip
  · exact h

end Cursor

/-! ## Outcomes -/

/-- The error is about a token of the source, at the place of that token. -/
def ParseError.Sited (e : ParseError) (source : Text) : Prop :=
  e.start = e.got.start ∧ e.got.Placed source

namespace Outcome

variable {α : Type} {source : Text} {lo : Nat} {P : α → Nat → Prop} {o : Outcome α}
  {errors : List ParseError}

/-- A value that is `P` up to an offset which the cursor is ahead of, and errors
about tokens of the source. -/
def Keeps (source : Text) (lo : Nat) (P : α → Nat → Prop) : Outcome α → Prop
  | .done a rest errors =>
      (∃ hi, lo ≤ hi ∧ P a hi ∧ rest.Ahead source hi) ∧ ∀ e ∈ errors, e.Sited source
  | .broken rest errors => rest.Ahead source lo ∧ ∀ e ∈ errors, e.Sited source
  | .exhausted => True

theorem Keeps.after (h : o.Keeps source lo P) (herrors : ∀ e ∈ errors, e.Sited source) :
    (o.after errors).Keeps source lo P := by
  cases o with
  | done a rest later => exact ⟨h.1, List.forall_mem_append.mpr ⟨herrors, h.2⟩⟩
  | broken rest later => exact ⟨h.1, List.forall_mem_append.mpr ⟨herrors, h.2⟩⟩
  | exhausted => trivial

/-- A later start may be told as an earlier one. -/
theorem Keeps.earlier {mid : Nat} (h : o.Keeps source mid P) (hle : lo ≤ mid) :
    o.Keeps source lo P := by
  cases o with
  | done a rest later =>
      obtain ⟨⟨hi, hmid, hp, hrest⟩, herrors⟩ := h
      exact ⟨⟨hi, Nat.le_trans hle hmid, hp, hrest⟩, herrors⟩
  | broken rest later => exact ⟨h.1.mono hle, h.2⟩
  | exhausted => trivial

end Outcome

namespace Parser

open Node (Row)

variable {α β : Type} {source : Text} {n lo : Nat} {c : Cursor}

theorem keeps_bind {P : α → Nat → Prop} {Q : β → Nat → Prop} {p : Parser α} {f : α → Parser β}
    (hp : (p c).Keeps source lo P)
    (hf : ∀ a rest hi, lo ≤ hi → P a hi → rest.Ahead source hi → (f a rest).Keeps source hi Q) :
    ((p >>= f) c).Keeps source lo Q := by
  rw [bind_apply]
  cases h : p c with
  | done a rest errors =>
      rw [h] at hp
      obtain ⟨⟨hi, hle, ha, hrest⟩, herrors⟩ := hp
      exact ((hf a rest hi hle ha hrest).earlier hle).after herrors
  | broken rest errors =>
      rw [h] at hp
      exact hp
  | exhausted => trivial

/-- Done on the spot. -/
theorem keeps_done {P : α → Nat → Prop} {a : α} (ha : P a lo) (hc : c.Ahead source lo) :
    (Outcome.done a c []).Keeps source lo P :=
  ⟨⟨lo, Nat.le_refl _, ha, hc⟩, List.forall_mem_nil _⟩

/-- A complaint about the current token. -/
theorem keeps_broken {P : α → Nat → Prop} {complaint : Complaint} (hc : c.Ahead source lo) :
    (Outcome.broken c [.blame c.current complaint]).Keeps source lo P := by
  refine ⟨hc, fun e he => ?_⟩
  rw [List.mem_singleton.mp he]
  exact ⟨rfl, hc.current_placed⟩

/-- A token that is required, and what follows it. -/
theorem keeps_expect_bind {k : Kind} {Q : β → Nat → Prop} {f : Token → Parser β} (hk : k ≠ .eof)
    (hc : c.Ahead source lo)
    (hf : ∀ t rest, t.kind = k → t.Placed source → lo ≤ t.start.offset →
      rest.Ahead source t.stop.offset → (f t rest).Keeps source t.stop.offset Q) :
    ((expect k >>= f) c).Keeps source lo Q := by
  by_cases hkind : c.kind = k
  · have hplaced := hc.current_placed
    rw [bind_of_done (expect_of_kind hkind)]
    refine (hf _ _ hkind hplaced hc.current_beyond (hc.next (hkind ▸ hk))).earlier ?_
    exact Nat.le_trans hc.current_beyond hplaced.start_le
  · rw [bind_apply, expect_of_ne hkind]
    exact keeps_broken hc

theorem keeps_endOfStatement (hc : c.Ahead source lo) :
    (endOfStatement c).Keeps source lo fun _ _ => True := by
  rw [endOfStatement_apply]
  split
  · exact keeps_done trivial hc.skip
  · split
    · exact keeps_done trivial hc
    · exact keeps_broken hc

theorem keeps_optionalSemicolon (hc : c.Ahead source lo) :
    (optionalSemicolon c).Keeps source lo fun _ _ => True := by
  rw [optionalSemicolon_apply]
  refine ⟨⟨lo, Nat.le_refl _, trivial, ?_⟩, List.forall_mem_nil _⟩
  split
  · exact hc.skip
  · exact hc

/-! ## One step of each parser -/

/-- An expression that stands behind `lo`. -/
abbrev ExprAt (source : Text) (lo : Nat) (e : Expr) (hi : Nat) : Prop :=
  (Node.expr e).Stands source lo hi

/-- A statement that stands behind `lo`. -/
abbrev StmtAt (source : Text) (lo : Nat) (s : Stmt) (hi : Nat) : Prop :=
  (Node.stmt s).Stands source lo hi

/-- A name or a literal, made of the current token. -/
theorem keeps_token {e : Expr} (hc : c.Ahead source lo) (hk : c.kind ≠ .eof)
    (hspan : e.span? = some c.current.span) (hleaf : (Node.expr e).children = []) :
    (Outcome.done e c.next []).Keeps source lo (ExprAt source lo) := by
  have hplaced := hc.current_placed
  refine ⟨⟨c.current.stop.offset, ?_, ?_, hc.next hk⟩, List.forall_mem_nil _⟩
  · exact Nat.le_trans hc.current_beyond hplaced.start_le
  · exact (Node.stands_leaf hplaced hk hspan hleaf).mono hc.current_beyond (Nat.le_refl _)

/-- Within `n` steps all parsers keep to the source. -/
structure Keeping (source : Text) (n : Nat) : Prop where
  expression : ∀ s {c lo}, c.Ahead source lo →
    (expression n s c).Keeps source lo (ExprAt source lo)
  operators : ∀ s {left c lo mid}, ExprAt source lo left mid → c.Ahead source mid →
    (operators n s left c).Keeps source mid (ExprAt source lo)
  arguments : ∀ {c lo}, c.Ahead source lo →
    (arguments n c).Keeps source lo fun es hi => Row source lo (es.map .expr) hi
  operand : ∀ {c lo}, c.Ahead source lo → (operand n c).Keeps source lo (ExprAt source lo)
  conditional : ∀ {c lo}, c.Ahead source lo → c.kind = .if_ →
    (conditional n c).Keeps source lo fun choice => ExprAt source lo (.conditional choice)
  alternative : ∀ {c lo}, c.Ahead source lo →
    (alternative n c).Keeps source lo fun otherwise hi => Row source lo otherwise.children hi
  block : ∀ {c lo}, c.Ahead source lo →
    (block n c).Keeps source lo fun b => StmtAt source lo (.block b)
  blockBody : ∀ {c lo}, c.Ahead source lo →
    (blockBody n c).Keeps source lo fun ss hi => Row source lo (ss.map .stmt) hi
  statement : ∀ {c lo}, c.Ahead source lo → (statement n c).Keeps source lo (StmtAt source lo)

theorem keeping_zero : Keeping source 0 where
  expression _ _ _ _ := by rw [expression]; trivial
  operators _ _ _ _ _ _ _ := by rw [operators]; trivial
  arguments _ := by rw [arguments]; trivial
  operand _ := by rw [operand]; trivial
  conditional _ _ := by rw [conditional]; trivial
  alternative _ := by rw [alternative]; trivial
  block _ := by rw [block]; trivial
  blockBody _ := by rw [blockBody]; trivial
  statement _ := by rw [statement]; trivial

section Steps

variable (ih : Keeping source n)
include ih

theorem keeps_operators_succ (s : Nat) {left : Expr} {mid : Nat} (hleft : ExprAt source lo left mid)
    (hc : c.Ahead source mid) :
    (operators (n + 1) s left c).Keeps source mid (ExprAt source lo) := by
  have hsplit := hc.splitSigned
  have hop := hsplit.current_placed
  have hmid := hsplit.current_beyond
  have hmid' := Nat.le_trans hmid hop.start_le
  rw [operators_succ]
  split
  · exact keeps_done hleft hsplit
  · rename_i hstrong
    have heof : c.splitSigned.kind ≠ .eof := by
      intro hk
      rw [hk] at hstrong
      exact hstrong (Nat.zero_le _)
    have hnext := hsplit.next heof
    split
    · refine Outcome.Keeps.earlier ?_ hmid'
      refine keeps_bind (ih.arguments hnext) fun args rest hi hle hargs hrest => ?_
      refine keeps_expect_bind (by decide) hrest fun closing rest' _ hclosing hhi hrest' => ?_
      exact ih.operators s (Node.stands_call hleft (hargs.mono hmid' hhi) hclosing) hrest'
    · rename_i hparen
      refine Outcome.Keeps.earlier ?_ hmid'
      refine keeps_bind (ih.expression _ hnext) fun right rest hi hle hright hrest => ?_
      have hverbatim : c.splitSigned.current.kind.isVerbatim = true :=
        Kind.isVerbatim_of_strength (Nat.zero_lt_of_lt (Nat.lt_of_not_le hstrong))
      exact ih.operators s
        (Node.stands_binary hleft hop hmid (hop.bytes_eq hverbatim) hright) hrest

theorem keeps_arguments_succ (hc : c.Ahead source lo) :
    (arguments (n + 1) c).Keeps source lo fun es hi => Row source lo (es.map .expr) hi := by
  rw [arguments_succ]
  split
  · exact keeps_done (Nat.le_refl lo) hc
  · refine keeps_bind (ih.expression 0 hc) fun e rest hi _ he hrest => ?_
    rw [kind_bind, ite_apply]
    split
    · rw [advance_bind]
      refine keeps_bind (ih.arguments hrest.skip) fun es rest' hi' _ hes hrest' => ?_
      exact keeps_done (.cons he hes) hrest'
    · exact keeps_done (Node.row_singleton he) hrest

theorem keeps_operand_succ (hc : c.Ahead source lo) :
    (operand (n + 1) c).Keeps source lo (ExprAt source lo) := by
  have hplaced := hc.current_placed
  have hbeyond := hc.current_beyond
  have unary : c.kind ≠ .eof → ((expression n unaryStrength >>= fun right =>
      pure (Expr.unary c.current right)) c.next).Keeps source lo (ExprAt source lo) := by
    intro hk
    refine Outcome.Keeps.earlier ?_ (Nat.le_trans hbeyond hplaced.start_le)
    refine keeps_bind (ih.expression _ (hc.next hk)) fun right rest hi _ hright hrest => ?_
    exact keeps_done ((Node.stands_unary hplaced hright).mono hbeyond (Nat.le_refl _)) hrest
  rw [operand_succ]
  cases hk : c.kind
  case ident | string | true_ | false_ => exact keeps_token hc (by simp [hk]) rfl rfl
  case integer =>
      dsimp only [integer]
      split
      · exact keeps_token hc (by simp [hk]) rfl rfl
      · exact keeps_broken hc
  case float =>
      dsimp only [float]
      split
      · exact keeps_token hc (by simp [hk]) rfl rfl
      · exact keeps_broken hc
  case openParen =>
      refine keeps_bind (ih.expression 0 hc.skip) fun e rest hi _ he hrest => ?_
      refine keeps_expect_bind (by decide) hrest fun closing rest' _ hclosing hhi hrest' => ?_
      exact keeps_done (he.mono (Nat.le_refl _) (Nat.le_trans hhi hclosing.start_le)) hrest'
  case not | minus => exact unary (by simp [hk])
  case if_ =>
      refine keeps_bind (ih.conditional hc hk) fun choice rest hi _ hchoice hrest => ?_
      exact keeps_done hchoice hrest
  all_goals exact keeps_broken hc

theorem keeps_conditional_succ (hc : c.Ahead source lo) (hk : c.kind = .if_) :
    (conditional (n + 1) c).Keeps source lo
      fun choice => ExprAt source lo (.conditional choice) := by
  have hplaced := hc.current_placed
  have hbeyond := hc.current_beyond
  have heof : c.kind ≠ .eof := by simp [hk]
  rw [conditional_succ]
  refine Outcome.Keeps.earlier ?_ (Nat.le_trans hbeyond hplaced.start_le)
  refine keeps_expect_bind (by decide) (hc.next heof) fun opening rest _ hopening hle hrest => ?_
  refine keeps_bind (ih.expression 0 hrest) fun condition rest hi _ hcondition hrest => ?_
  refine keeps_expect_bind (by decide) hrest fun closing rest _ hclosing hle' hrest => ?_
  refine keeps_bind (ih.block hrest) fun body rest hi' _ hbody hrest => ?_
  refine keeps_bind (ih.alternative hrest) fun otherwise rest hi'' _ hotherwise hrest => ?_
  have hrow : Row source c.current.stop.offset
      (.expr condition :: .stmt (.block body) :: otherwise.children) hi'' :=
    .cons (hcondition.mono (Nat.le_trans hle hopening.start_le)
      (Nat.le_trans hle' hclosing.start_le)) (.cons hbody hotherwise)
  exact keeps_done ((Node.stands_conditional hplaced heof hrow).mono hbeyond (Nat.le_refl _)) hrest

theorem keeps_alternative_succ (hc : c.Ahead source lo) :
    (alternative (n + 1) c).Keeps source lo
      fun otherwise hi => Row source lo otherwise.children hi := by
  rw [alternative_succ]
  split
  · split
    · rename_i hk
      refine keeps_bind (ih.conditional hc.skip hk) fun next rest hi _ hnext hrest => ?_
      exact keeps_done (Node.row_singleton hnext) hrest
    · refine keeps_bind (ih.block hc.skip) fun body rest hi _ hbody hrest => ?_
      exact keeps_done (Node.row_singleton hbody) hrest
  · exact keeps_done (Nat.le_refl lo) hc

theorem keeps_block_succ (hc : c.Ahead source lo) :
    (block (n + 1) c).Keeps source lo fun b => StmtAt source lo (.block b) := by
  rw [block_succ]
  refine keeps_expect_bind (by decide) hc fun opening rest hk hopening hle hrest => ?_
  refine keeps_bind (ih.blockBody hrest) fun body rest hi _ hbody hrest => ?_
  refine keeps_expect_bind (by decide) hrest fun closing rest _ hclosing hle' hrest => ?_
  have hstands := Node.stands_braces body.isEmpty hopening (by simp [hk]) hclosing
    (hbody.mono (Nat.le_refl _) hle')
  exact keeps_done (hstands.mono hle (Nat.le_refl _)) hrest

/-- An expression up to the end of its statement. -/
theorem keeps_closing {mid : Nat} {finish : Expr → Stmt} (hc : c.Ahead source mid)
    (hfinish : ∀ e hi, ExprAt source mid e hi → StmtAt source lo (finish e) hi) :
    ((expression n 0 >>= fun e => endOfStatement >>= fun _ => pure (finish e)) c).Keeps source mid
      (StmtAt source lo) := by
  refine keeps_bind (ih.expression 0 hc) fun e rest hi _ he hrest => ?_
  refine keeps_bind (keeps_endOfStatement hrest) fun _ rest' hi' hle _ hrest' => ?_
  exact keeps_done ((hfinish e hi he).mono (Nat.le_refl _) hle) hrest'

theorem keeps_statement_succ (hc : c.Ahead source lo) :
    (statement (n + 1) c).Keeps source lo (StmtAt source lo) := by
  have hplaced := hc.current_placed
  have hbeyond := hc.current_beyond
  have hstop := Nat.le_trans hbeyond hplaced.start_le
  have plain :
      ((expression n 0 >>= fun e => endOfStatement >>= fun _ => pure (Stmt.expr e)) c).Keeps
        source lo (StmtAt source lo) := keeps_closing ih hc fun e hi he => Node.stands_exprStmt he
  rw [statement_succ]
  cases hk : c.kind
  case let_ =>
      have heof : c.kind ≠ .eof := by simp [hk]
      refine Outcome.Keeps.earlier ?_ hstop
      refine keeps_expect_bind (by decide) (hc.next heof)
        fun name rest hname hplaced' hle hrest => ?_
      refine keeps_expect_bind (by decide) hrest fun assign rest _ hassign hle' hrest => ?_
      refine keeps_closing ih hrest fun e hi he => ?_
      have hname : ExprAt source c.current.stop.offset
          (.name name name.lexeme) assign.stop.offset :=
        (Node.stands_leaf (e := .name name name.lexeme) hplaced' (by simp [hname]) rfl rfl).mono hle
          (Nat.le_trans hle' hassign.start_le)
      exact (Node.stands_binding hplaced hname he).mono hbeyond (Nat.le_refl _)
  case return_ =>
      have heof : c.kind ≠ .eof := by simp [hk]
      dsimp only
      refine Outcome.Keeps.earlier ?_ hstop
      split
      · refine keeps_bind (keeps_endOfStatement (hc.next heof)) fun _ rest hi hle _ hrest => ?_
        exact keeps_done ((Node.stands_bareReturn hplaced heof).mono hbeyond hle) hrest
      · refine keeps_closing ih (hc.next heof) fun e hi he => ?_
        exact (Node.stands_returning hplaced he).mono hbeyond (Nat.le_refl _)
  case openBrace =>
      refine keeps_bind (ih.block hc) fun body rest hi _ hbody hrest => ?_
      exact keeps_done hbody hrest
  case if_ =>
      refine keeps_bind (ih.conditional hc hk) fun choice rest hi _ hchoice hrest => ?_
      refine keeps_bind (keeps_optionalSemicolon hrest) fun _ rest' hi' hle _ hrest' => ?_
      exact keeps_done (Node.stands_exprStmt (hchoice.mono (Nat.le_refl _) hle)) hrest'
  all_goals exact plain

end Steps

/-- Statements after one that is done or broken off. -/
theorem keeps_followedBy {o : Outcome Stmt} {more : Parser (List Stmt)} {resume : Cursor → Cursor}
    (ho : o.Keeps source lo (StmtAt source lo))
    (hmore : ∀ {c lo}, c.Ahead source lo →
      (more c).Keeps source lo fun ss hi => Row source lo (ss.map .stmt) hi)
    (hresume : ∀ {c lo}, c.Ahead source lo → (resume c).Ahead source lo) :
    (followedBy o more resume).Keeps source lo fun ss hi => Row source lo (ss.map .stmt) hi := by
  cases o with
  | done s rest errors =>
      obtain ⟨⟨hi, hle, hs, hrest⟩, herrors⟩ := ho
      refine Outcome.Keeps.after (Outcome.Keeps.earlier ?_ hle) herrors
      refine keeps_bind (hmore hrest) fun ss last hi' _ hss hlast => ?_
      exact keeps_done (.cons hs hss) hlast
  | broken rest errors => exact (hmore (hresume ho.1)).after ho.2
  | exhausted => trivial

theorem keeps_blockBody_succ (ih : Keeping source n) (hc : c.Ahead source lo) :
    (blockBody (n + 1) c).Keeps source lo fun ss hi => Row source lo (ss.map .stmt) hi := by
  rw [blockBody_succ]
  split
  · exact keeps_done (Nat.le_refl lo) hc
  · split
    · exact ih.blockBody hc.skip
    · exact keeps_followedBy (ih.statement hc) ih.blockBody Cursor.Ahead.boundary

theorem keeping : ∀ n, Keeping source n
  | 0 => keeping_zero
  | n + 1 =>
      have ih := keeping n
      { expression := fun s c lo hc => by
          rw [expression_succ]
          refine keeps_bind (ih.operand hc) fun left rest hi _ hleft hrest => ?_
          exact ih.operators s hleft hrest
        operators := fun s => keeps_operators_succ ih s
        arguments := keeps_arguments_succ ih
        operand := keeps_operand_succ ih
        conditional := keeps_conditional_succ ih
        alternative := keeps_alternative_succ ih
        block := keeps_block_succ ih
        blockBody := keeps_blockBody_succ ih
        statement := keeps_statement_succ ih }

theorem keeps_statements : ∀ n {c lo}, c.Ahead source lo →
    (statements n c).Keeps source lo fun ss hi => Row source lo (ss.map .stmt) hi
  | 0, _, _, _ => trivial
  | n + 1, c, lo, hc => by
      rw [statements_succ]
      split
      · exact keeps_done (Nat.le_refl lo) hc
      · split
        · exact keeps_statements n hc.skip
        · split
          · refine (keeps_statements n hc.skip).after fun e he => ?_
            rw [List.mem_singleton.mp he]
            exact ⟨rfl, hc.current_placed⟩
          · exact keeps_followedBy ((keeping n).statement hc) (keeps_statements n)
              fun h => h.boundary.dropBrace

end Parser

/-! ## Programs -/

/-- A number that was scanned can be read again. -/
theorem Scanner.legible_number (s : Scanner) : ∀ t ∈ s.all.1, t.isNumber = true → t.Legible := by
  induction s using Scanner.all_induction with
  | hend s hnil =>
      intro t ht hnumber
      rw [Scanner.all_of_end hnil, List.mem_singleton] at ht
      rw [ht] at hnumber
      cases hnumber
  | hmore s c r hcons ih =>
      rw [Scanner.all_of_more hcons, List.forall_mem_cons]
      refine ⟨fun hnumber => ?_, ih⟩
      have hfault : (Lexeme.read (c :: r)).fault? = none := by
        rw [Lexeme.read_fault, if_neg]
        intro hk
        have hverbatim := Token.isVerbatim_of_isNumber hnumber
        rw [show (s.skipLayout.place (Lexeme.read (c :: r))).kind = .illegal from hk] at hverbatim
        cases hverbatim
      rw [← hcons] at hfault ⊢
      exact Scanner.legible_place hcons (Scanner.skipLayout_cons hcons) hfault

theorem Cursor.ahead_ofTokens {source : Text} {lo : Nat} {tokens : List Token}
    (h : Token.Tiles source lo tokens) (hlegible : ∀ t ∈ tokens, t.isNumber = true → t.Legible) :
    (ofTokens tokens).Ahead source lo := by
  obtain ⟨htok, hclosed⟩ := ofTokens_spec h.endsOnce
  refine ⟨hclosed, ?_, ?_, ?_, ?_⟩ <;> rw [htok]
  · exact h.placed
  · exact hlegible
  · exact h.beyond
  · exact h.ordered

/-- What a scanner has to read is parsed to trees that stand in a row, and to
errors about the tokens of it. -/
theorem Scanner.parse_row {s : Scanner} {source : Text} (h : s.On source) :
    (∃ hi, Node.Row source s.position.offset ((parse s.all.1).program.map .stmt) hi) ∧
      ∀ e ∈ (parse s.all.1).errors, e.Sited source := by
  have hahead := Cursor.ahead_ofTokens (tiles_all h) s.legible_number
  obtain ⟨rest, hrun⟩ := parse_eq_statements hahead.closed
  have hkeeps := Parser.keeps_statements (Cursor.ofTokens s.all.1).budget hahead
  rw [hrun] at hkeeps
  obtain ⟨⟨hi, -, hrow, -⟩, herrors⟩ := hkeeps
  exact ⟨⟨hi, hrow⟩, herrors⟩

/-- Whatever is left of a source stands in it node by node, the statements one
behind the other. -/
theorem parse_lies (source : Text) :
    (∀ s ∈ (parse (Token.scan source).1).program, ∀ n, (Node.stmt s).Holds n → n.Lies source) ∧
      ((parse (Token.scan source).1).program.map Node.stmt).Pairwise Node.Before := by
  obtain ⟨⟨hi, hrow⟩, -⟩ := Scanner.parse_row (Scanner.on_ofSource source)
  refine ⟨fun s hs n hn => ?_, hrow.ordered⟩
  exact (hrow.stands (.stmt s) (List.mem_map_of_mem hs)).1 n hn

/-- A minus that is split off the number behind it. -/
theorem parse_lies_split :
    ∃ s ∈ (parse (Token.scan (text "(a)-1")).1).program, ∃ left op right,
      (Node.stmt s).Holds (.expr (.binary left op right)) ∧ op.start = ⟨0, 3, 3, 0⟩ ∧
      right.start? = some ⟨0, 4, 4, 0⟩ ∧
      (Node.expr (.binary left op right)).Lies (text "(a)-1") := by
  have hprogram : (parse (Token.scan (text "(a)-1")).1).program = [.expr (.binary
      (.name ⟨.ident, text "a", ⟨0, 1, 1, 0⟩, ⟨0, 2, 2, 0⟩, 1, false, false⟩ (text "a"))
      ⟨.minus, text "-", ⟨0, 3, 3, 0⟩, ⟨0, 4, 4, 0⟩, 1, false, false⟩
      (.integer ⟨.integer, text "1", ⟨0, 4, 4, 0⟩, ⟨0, 5, 5, 0⟩, 1, false, false⟩ 1))] := rfl
  have hlies := (parse_lies (text "(a)-1")).1
  rw [hprogram] at hlies ⊢
  have hholds : ∀ e : Expr, (Node.stmt (.expr e)).Holds (.expr e) :=
    fun e => .child List.mem_cons_self (.self _)
  exact ⟨_, List.mem_cons_self, _, _, _, hholds _, rfl, rfl,
    hlies _ List.mem_cons_self _ (hholds _)⟩

end Scriptlet
