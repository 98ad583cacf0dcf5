import Scriptlet.Proofs.Parse.Lockstep
import Scriptlet.Proofs.Parse.Placement

/-!
# Errors come in the order of the source

The errors of a parse stand in the order of the tokens they are about, and no
token is blamed twice but the end of input, which every block that is still open
there complains about (`parse_errors_ordered`).

An error is reported without passing the token it is about, so what has to be
shown is that no recovery resumes in front of it. `Rising` gives a list of errors
a lower bound that each error raises to the offset behind its own, though not
beyond the end of the source. A parser that is done hands over a cursor past that
bound; one that broke off stands on the token of its last error
(`Outcome.Rises`). The next boundary is past that token unless it is a closing
brace or the end, and there a block stops without a look at anything else
(`Cursor.Clear`, `Outcome.Stops`).
-/

namespace Scriptlet

/-! ## Rising errors -/

/-- From the offset `lo` on, each error lies behind the one in front of it, until
the offset `limit` is reached. -/
def Rising (limit : Nat) : Nat → List ParseError → Nat → Prop
  | lo, [], hi => lo ≤ hi
  | lo, e :: es, hi => lo ≤ e.start.offset ∧ Rising limit (min (e.start.offset + 1) limit) es hi

namespace Rising

variable {limit lo lo' mid hi : Nat} {es fs : List ParseError}

theorem earlier (h : Rising limit lo es hi) (hle : lo' ≤ lo) : Rising limit lo' es hi := by
  cases es with
  | nil => exact Nat.le_trans hle h
  | cons e es => exact ⟨Nat.le_trans hle h.1, h.2⟩

theorem append (h : Rising limit lo es mid) (h' : Rising limit mid fs hi) :
    Rising limit lo (es ++ fs) hi := by
  induction es generalizing lo with
  | nil => exact h'.earlier h
  | cons e es ih => exact ⟨h.1, ih h.2⟩

theorem beyond (h : Rising limit lo es hi) : ∀ e ∈ es, min lo limit ≤ e.start.offset := by
  induction es generalizing lo with
  | nil => exact List.forall_mem_nil _
  | cons e es ih =>
      obtain ⟨hle, hes⟩ := h
      refine List.forall_mem_cons.mpr ⟨by omega, fun f hf => ?_⟩
      have hbeyond := ih hes f hf
      omega

theorem pairwise (h : Rising limit lo es hi) : es.Pairwise fun e f =>
    e.start.offset < f.start.offset ∨ limit ≤ e.start.offset ∧ limit ≤ f.start.offset := by
  induction es generalizing lo with
  | nil => exact .nil
  | cons e es ih =>
      refine .cons (fun f hf => ?_) (ih h.2)
      have hbeyond := h.2.beyond f hf
      omega

end Rising

/-! ## Cursors -/

namespace Cursor

/-- Ahead of an offset, with the end of input at the end of the source. -/
structure Past (c : Cursor) (source : Text) (lo : Nat) : Prop extends c.Ahead source lo where
  end_offset : ∀ t ∈ c.tokens, t.kind = .eof → t.start.offset = source.length

variable {c : Cursor} {source : Text} {lo lo' : Nat}

theorem Past.mono (h : c.Past source lo) (hle : lo' ≤ lo) : c.Past source lo' :=
  ⟨h.toAhead.mono hle, h.end_offset⟩

theorem Past.next (h : c.Past source lo) (hk : c.kind ≠ .eof) :
    c.next.Past source (c.current.start.offset + 1) := by
  refine ⟨(h.toAhead.next hk).mono (h.current_placed.nonempty hk), fun t ht => ?_⟩
  refine h.end_offset t ?_
  rw [tokens_next h.closed hk]
  exact List.mem_cons_of_mem _ ht

theorem Past.skip (h : c.Past source lo) : c.next.Past source lo := by
  by_cases hk : c.kind = .eof
  · have hend : c.current.isEof = true := h.closed.atEnd_iff.mpr hk
    rw [Cursor.next, if_pos hend]
    exact h
  · exact (h.next hk).mono (Nat.le_succ_of_le h.current_beyond)

theorem Past.splitSigned (h : c.Past source lo) : c.splitSigned.Past source lo := by
  refine ⟨h.toAhead.splitSigned, ?_⟩
  by_cases hs : isSignedNumber c.current = true
  · have hcurrent := h.end_offset c.current List.mem_cons_self
    rw [splitSigned_of_signed hs]
    simp only [List.forall_mem_cons]
    refine ⟨nofun, fun hk => ?_, fun t ht => h.end_offset t (List.mem_cons_of_mem _ ht)⟩
    have hkind : c.current.kind = .eof := hk
    simp [isSignedNumber, hkind] at hs
  · rw [splitSigned_of_not hs]
    exact h.end_offset

/-- At the end of input nothing is left of the source. -/
theorem Past.at_end (h : c.Past source lo) (hk : c.kind = .eof) : c.Past source source.length := by
  have hcurrent := h.end_offset c.current List.mem_cons_self hk
  have hstop := h.current_placed.start_le
  obtain ⟨hahead, hend⟩ := h
  refine ⟨{ hahead with beyond := ?_ }, hend⟩
  refine List.forall_mem_cons.mpr ⟨Nat.le_of_eq hcurrent.symm, fun t ht => ?_⟩
  have hordered := (List.pairwise_cons.mp hahead.ordered).1 t ht
  omega

/-- The bound that an error about the current token leaves behind. -/
def blamed (c : Cursor) (source : Text) : Nat := min (c.current.start.offset + 1) source.length

theorem Past.le_blamed (h : c.Past source lo) : lo ≤ c.blamed source := by
  have hbeyond := h.current_beyond
  have hle := h.current_placed.start_true.offset_le
  unfold blamed
  omega

/-- Past the bound, or on a token where a block stops. -/
structure Clear (c : Cursor) (source : Text) (lo : Nat) : Prop where
  past : c.Past source 0
  clears : c.Past source lo ∨ (c.kind = .closeBrace ∨ c.kind = .eof) ∧ lo ≤ c.blamed source

theorem Past.clear (h : c.Past source lo) : c.Clear source lo :=
  ⟨h.mono (Nat.zero_le _), Or.inl h⟩

theorem Clear.le_blamed (h : c.Clear source lo) : lo ≤ c.blamed source := by
  rcases h.clears with hpast | ⟨-, hle⟩
  · exact hpast.le_blamed
  · exact hle

theorem Past.skipStatement : ∀ {n : Nat} {c : Cursor}, c.Past source lo →
    (c.skipStatement n).Past source lo
  | 0, _, h => h
  | n + 1, c, h => by
      rw [Cursor.skipStatement]
      split
      · exact h
      · split
        · exact h.skip
        · exact h.skip.skipStatement

/-- Recovery gets past the token to blame, or stops on it where a block does. -/
theorem Past.boundary (h : c.Past source lo) : c.boundary.Clear source (c.blamed source) := by
  rw [Cursor.boundary, Cursor.skipStatement]
  split
  · rename_i hstop
    refine ⟨h.mono (Nat.zero_le _), Or.inr ⟨?_, Nat.le_refl _⟩⟩
    rcases (Bool.or_eq_true _ _).mp hstop with hend | hbrace
    · exact Or.inr (h.closed.atEnd_iff.mp hend)
    · exact Or.inl (beq_iff_eq.mp hbrace)
  · rename_i hstop
    have hk : c.kind ≠ .eof := fun hk => hstop (by simp [h.closed.atEnd_iff.mpr hk])
    have hnext := (h.next hk).mono (Nat.min_le_left (c.current.start.offset + 1) source.length)
    split
    · exact hnext.clear
    · exact hnext.skipStatement.clear

/-- A brace that is dropped is passed as well. -/
theorem Clear.dropBrace (h : c.Clear source lo) : (Parser.dropBrace c).Past source lo := by
  unfold Parser.dropBrace
  rcases h.clears with hpast | ⟨hk, hle⟩
  · split
    · exact hpast.skip
    · exact hpast
  · rcases hk with hk | hk
    · rw [if_pos hk]
      refine (h.past.next (by simp [hk])).mono ?_
      exact Nat.le_trans hle (Nat.min_le_left _ _)
    · rw [if_neg (by simp [hk])]
      exact (h.past.at_end hk).mono (Nat.le_trans hle (Nat.min_le_right _ _))

end Cursor

/-! ## Outcomes -/

namespace Outcome

variable {α : Type} {source : Text} {lo mid : Nat} {o : Outcome α} {errors : List ParseError}

/-- Errors that rise from an offset, and a cursor past them; where the parser
broke off the cursor is on the token of the last one. -/
def Rises (source : Text) (lo : Nat) : Outcome α → Prop
  | .done _ rest errors => ∃ hi, Rising source.length lo errors hi ∧ rest.Past source hi
  | .broken rest errors =>
      Rising source.length lo errors (rest.blamed source) ∧ rest.Past source 0
  | .exhausted => True

/-- The same of statements in a block, which stop at its end. -/
def Stops (source : Text) (lo : Nat) : Outcome α → Prop
  | .done _ rest errors => Rising source.length lo errors (rest.blamed source) ∧
      rest.Past source 0 ∧ (rest.kind = .closeBrace ∨ rest.kind = .eof)
  | .broken _ _ => False
  | .exhausted => True

theorem Rises.after (h : o.Rises source mid) (herrors : Rising source.length lo errors mid) :
    (o.after errors).Rises source lo := by
  cases o with
  | done a rest later =>
      obtain ⟨hi, hlater, hrest⟩ := h
      exact ⟨hi, herrors.append hlater, hrest⟩
  | broken rest later => exact ⟨herrors.append h.1, h.2⟩
  | exhausted => trivial

theorem Stops.after (h : o.Stops source mid) (herrors : Rising source.length lo errors mid) :
    (o.after errors).Stops source lo := by
  cases o with
  | done a rest later => exact ⟨herrors.append h.1, h.2⟩
  | broken rest later => exact h
  | exhausted => trivial

end Outcome

namespace Parser

variable {α β : Type} {source : Text} {n lo : Nat} {c : Cursor}

theorem rises_bind {p : Parser α} {f : α → Parser β} (hp : (p c).Rises source lo)
    (hf : ∀ a rest hi, rest.Past source hi → (f a rest).Rises source hi) :
    ((p >>= f) c).Rises source lo := by
  rw [bind_apply]
  cases h : p c with
  | done a rest errors =>
      rw [h] at hp
      obtain ⟨hi, herrors, hrest⟩ := hp
      exact (hf a rest hi hrest).after herrors
  | broken rest errors =>
      rw [h] at hp
      exact hp
  | exhausted => trivial

theorem rises_done {a : α} (hc : c.Past source lo) : (Outcome.done a c []).Rises source lo :=
  ⟨lo, Nat.le_refl lo, hc⟩

theorem rises_broken {complaint : Complaint} (hc : c.Past source lo) :
    (Outcome.broken c [.blame c.current complaint] : Outcome α).Rises source lo :=
  ⟨⟨hc.current_beyond, Nat.le_refl _⟩, hc.mono (Nat.zero_le _)⟩

theorem rises_expect (k : Kind) (hc : c.Past source lo) : (expect k c).Rises source lo := by
  unfold expect
  split
  · exact rises_done hc.skip
  · exact rises_broken hc

theorem rises_endOfStatement (hc : c.Past source lo) : (endOfStatement c).Rises source lo := by
  rw [endOfStatement_apply]
  split
  · exact rises_done hc.skip
  · split
    · exact rises_done hc
    · exact rises_broken hc

theorem rises_optionalSemicolon (hc : c.Past source lo) :
    (optionalSemicolon c).Rises source lo := by
  rw [optionalSemicolon_apply]
  split
  · exact rises_done hc.skip
  · exact rises_done hc

/-! ## One step of each parser -/

/-- Within `n` steps the errors of all parsers rise. -/
structure RisingWithin (source : Text) (n : Nat) : Prop where
  expression : ∀ s {c lo}, c.Past source lo → (expression n s c).Rises source lo
  operators : ∀ s left {c lo}, c.Past source lo → (operators n s left c).Rises source lo
  arguments : ∀ {c lo}, c.Past source lo → (arguments n c).Rises source lo
  operand : ∀ {c lo}, c.Past source lo → (operand n c).Rises source lo
  conditional : ∀ {c lo}, c.Past source lo → (conditional n c).Rises source lo
  alternative : ∀ {c lo}, c.Past source lo → (alternative n c).Rises source lo
  block : ∀ {c lo}, c.Past source lo → (block n c).Rises source lo
  blockBody : ∀ {c lo}, c.Clear source lo → (blockBody n c).Stops source lo
  statement : ∀ {c lo}, c.Past source lo → (statement n c).Rises source lo

theorem risingWithin_zero : RisingWithin source 0 where
  expression _ _ _ _ := by rw [expression]; trivial
  operators _ _ _ _ _ := by rw [operators]; trivial
  arguments _ := by rw [arguments]; trivial
  operand _ := by rw [operand]; trivial
  conditional _ := by rw [conditional]; trivial
  alternative _ := by rw [alternative]; trivial
  block _ := by rw [block]; trivial
  blockBody _ := by rw [blockBody]; trivial
  statement _ := by rw [statement]; trivial

section Steps

variable (ih : RisingWithin source n)
include ih

theorem rises_operators_succ (s : Nat) (left : Expr) (hc : c.Past source lo) :
    (operators (n + 1) s left c).Rises source lo := by
  have hnext := hc.splitSigned.skip
  rw [operators_succ]
  split
  · exact rises_done hc.splitSigned
  · split
    · refine rises_bind (ih.arguments hnext) fun args rest hi hrest => ?_
      refine rises_bind (rises_expect _ hrest) fun closing rest hi hrest => ?_
      exact ih.operators s _ hrest
    · refine rises_bind (ih.expression _ hnext) fun right rest hi hrest => ?_
      exact ih.operators s _ hrest

theorem rises_arguments_succ (hc : c.Past source lo) :
    (arguments (n + 1) c).Rises source lo := by
  rw [arguments_succ]
  split
  · exact rises_done hc
  · refine rises_bind (ih.expression 0 hc) fun e rest hi hrest => ?_
    rw [kind_bind, ite_apply]
    split
    · rw [advance_bind]
      refine rises_bind (ih.arguments hrest.skip) fun es rest hi hrest => ?_
      exact rises_done hrest
    · exact rises_done hrest

theorem rises_operand_succ (hc : c.Past source lo) : (operand (n + 1) c).Rises source lo := by
  rw [operand_succ]
  cases c.kind
  case ident | string | true_ | false_ => exact rises_done hc.skip
  case integer =>
      dsimp only [integer]
      split
      · exact rises_done hc.skip
      · exact rises_broken hc
  case float =>
      dsimp only [float]
      split
      · exact rises_done hc.skip
      · exact rises_broken hc
  case openParen =>
      refine rises_bind (ih.expression 0 hc.skip) fun e rest hi hrest => ?_
      refine rises_bind (rises_expect _ hrest) fun _ rest hi hrest => ?_
      exact rises_done hrest
  case not | minus =>
      exact rises_bind (ih.expression _ hc.skip) fun right rest hi hrest => rises_done hrest
  case if_ => exact rises_bind (ih.conditional hc) fun choice rest hi hrest => rises_done hrest
  all_goals exact rises_broken hc

theorem rises_conditional_succ (hc : c.Past source lo) :
    (conditional (n + 1) c).Rises source lo := by
  rw [conditional_succ]
  refine rises_bind (rises_expect _ hc.skip) fun _ rest hi hrest => ?_
  refine rises_bind (ih.expression 0 hrest) fun condition rest hi hrest => ?_
  refine rises_bind (rises_expect _ hrest) fun _ rest hi hrest => ?_
  refine rises_bind (ih.block hrest) fun body rest hi hrest => ?_
  exact rises_bind (ih.alternative hrest) fun otherwise rest hi hrest => rises_done hrest

theorem rises_alternative_succ (hc : c.Past source lo) :
    (alternative (n + 1) c).Rises source lo := by
  rw [alternative_succ]
  split
  · split
    · exact rises_bind (ih.conditional hc.skip) fun next rest hi hrest => rises_done hrest
    · exact rises_bind (ih.block hc.skip) fun body rest hi hrest => rises_done hrest
  · exact rises_done hc

omit ih in
/-- The end of a block: its brace is passed, and where the input ends instead
that is one more error about the end. -/
theorem rises_closing {body : Parser (List Stmt)} (h : (body c).Stops source lo)
    (opening : Token) :
    ((body >>= fun ss => expect .closeBrace >>= fun closing =>
      pure (Block.braces opening ss closing ss.isEmpty)) c).Rises source lo := by
  rw [bind_apply]
  cases hbody : body c with
  | done ss rest errors =>
      rw [hbody] at h
      obtain ⟨herrors, hrest, hk⟩ := h
      dsimp only
      by_cases hbrace : rest.kind = .closeBrace
      · have hnext := (hrest.next (by simp [hbrace])).mono (Nat.min_le_left _ source.length)
        rw [bind_of_done (expect_of_kind hbrace)]
        exact (rises_done hnext).after herrors
      · have heof : rest.kind = .eof := hk.resolve_left hbrace
        have hend := (hrest.at_end heof).mono (Nat.min_le_right (rest.current.start.offset + 1) _)
        rw [bind_apply, expect_of_ne hbrace]
        exact (rises_broken hend).after herrors
  | broken rest errors =>
      rw [hbody] at h
      exact h.elim
  | exhausted => trivial

theorem rises_block_succ (hc : c.Past source lo) : (block (n + 1) c).Rises source lo := by
  rw [block_succ]
  refine rises_bind (rises_expect _ hc) fun opening rest hi hrest => ?_
  exact rises_closing (ih.blockBody hrest.clear) opening

theorem rises_statement_succ (hc : c.Past source lo) : (statement (n + 1) c).Rises source lo := by
  have closing : ∀ {d : Cursor} {mid : Nat} (finish : Expr → Stmt), d.Past source mid →
      ((expression n 0 >>= fun value => endOfStatement >>= fun _ => pure (finish value)) d).Rises
        source mid := by
    intro d mid finish hd
    refine rises_bind (ih.expression 0 hd) fun value rest hi hrest => ?_
    exact rises_bind (rises_endOfStatement hrest) fun _ rest hi hrest => rises_done hrest
  rw [statement_succ]
  cases c.kind
  case let_ =>
      refine rises_bind (rises_expect _ hc.skip) fun name rest hi hrest => ?_
      exact rises_bind (rises_expect _ hrest) fun _ rest hi hrest => closing _ hrest
  case return_ =>
      dsimp only
      split
      · exact rises_bind (rises_endOfStatement hc.skip) fun _ rest hi hrest => rises_done hrest
      · exact closing _ hc.skip
  case openBrace => exact rises_bind (ih.block hc) fun body rest hi hrest => rises_done hrest
  case if_ =>
      refine rises_bind (ih.conditional hc) fun choice rest hi hrest => ?_
      exact rises_bind (rises_optionalSemicolon hrest) fun _ rest hi hrest => rises_done hrest
  all_goals exact closing _ hc

omit ih in
theorem stops_followedBy {o : Outcome Stmt} {more : Parser (List Stmt)} (ho : o.Rises source lo)
    (hmore : ∀ {c lo}, c.Clear source lo → (more c).Stops source lo) :
    (followedBy o more Cursor.boundary).Stops source lo := by
  cases o with
  | done s rest errors =>
      obtain ⟨hi, herrors, hrest⟩ := ho
      refine Outcome.Stops.after ?_ herrors
      have hstops := hmore hrest.clear
      rw [bind_apply]
      cases h : more rest with
      | done ss last later =>
          rw [h] at hstops
          exact Outcome.Stops.after ⟨Nat.le_refl _, hstops.2⟩ hstops.1
      | broken last later =>
          rw [h] at hstops
          exact hstops
      | exhausted => trivial
  | broken rest errors => exact (hmore ho.2.boundary).after ho.1
  | exhausted => trivial

omit ih in
theorem rises_followedBy {o : Outcome Stmt} {more : Parser (List Stmt)} (ho : o.Rises source lo)
    (hmore : ∀ {c lo}, c.Past source lo → (more c).Rises source lo) :
    (followedBy o more fun rest => dropBrace rest.boundary).Rises source lo := by
  cases o with
  | done s rest errors =>
      obtain ⟨hi, herrors, hrest⟩ := ho
      refine Outcome.Rises.after ?_ herrors
      exact rises_bind (hmore hrest) fun ss last hi hlast => rises_done hlast
  | broken rest errors => exact (hmore ho.2.boundary.dropBrace).after ho.1
  | exhausted => trivial

theorem stops_blockBody_succ (hc : c.Clear source lo) :
    (blockBody (n + 1) c).Stops source lo := by
  rw [blockBody_succ]
  split
  · rename_i hstop
    refine ⟨hc.le_blamed, hc.past, ?_⟩
    rcases (Bool.or_eq_true _ _).mp hstop with hend | hbrace
    · exact Or.inr (hc.past.closed.atEnd_iff.mp hend)
    · exact Or.inl (of_decide_eq_true hbrace)
  · rename_i hgo
    have hpast : c.Past source lo := by
      refine hc.clears.resolve_right fun ⟨hk, _⟩ => hgo ?_
      rcases hk with hk | hk
      · simp [hk]
      · simp [hc.past.closed.atEnd_iff.mpr hk]
    split
    · exact ih.blockBody hpast.skip.clear
    · exact stops_followedBy (ih.statement hpast) ih.blockBody

end Steps

theorem risingWithin : ∀ n, RisingWithin source n
  | 0 => risingWithin_zero
  | n + 1 =>
      have ih := risingWithin n
      { expression := fun s c lo hc => by
          rw [expression_succ]
          exact rises_bind (ih.operand hc) fun left rest hi hrest => ih.operators s left hrest
        operators := fun s left => rises_operators_succ ih s left
        arguments := rises_arguments_succ ih
        operand := rises_operand_succ ih
        conditional := rises_conditional_succ ih
        alternative := rises_alternative_succ ih
        block := rises_block_succ ih
        blockBody := stops_blockBody_succ ih
        statement := rises_statement_succ ih }

theorem rises_statements : ∀ n {c lo}, c.Past source lo → (statements n c).Rises source lo
  | 0, _, _, _ => trivial
  | n + 1, c, lo, hc => by
      rw [statements_succ]
      split
      · exact rises_done hc
      · split
        · exact rises_statements n hc.skip
        · split
          · rename_i hbrace
            have hnext := hc.next (by simp [hbrace])
            refine (rises_statements n hnext).after ⟨hc.current_beyond, ?_⟩
            exact Nat.min_le_left _ _
          · exact rises_followedBy ((risingWithin n).statement hc) (rises_statements n)

end Parser

/-! ## Programs -/

/-- The end of what a scanner has to read is the end of the source. -/
theorem Scanner.past_all {s : Scanner} {source : Text} (h : s.On source) :
    (Cursor.ofTokens s.all.1).Past source s.position.offset := by
  have htiles := tiles_all h
  refine ⟨Cursor.ahead_ofTokens htiles s.legible_number, ?_⟩
  rw [(Cursor.ofTokens_spec htiles.endsOnce).1]
  exact htiles.end_offset

/-- Only the end of input starts at the end of the source. -/
theorem ParseError.Sited.at_end {e : ParseError} {source : Text} (h : e.Sited source)
    (hle : source.length ≤ e.start.offset) : e.got.kind = .eof := by
  by_contra hk
  have hlt := h.2.nonempty hk
  have hstop := h.2.stop_true.offset_le
  rw [h.1] at hle
  omega

/-- The errors of a source text come in its order. Two of them are about one place
only where both are about the end of input. Each stands at the token it is about,
and the number of errors a buffered run has counted is the number of them. -/
theorem parse_errors_ordered (source : Text) :
    let tokens := (Token.scan source).1
    let report := parse tokens
    (report.errors.Pairwise fun e f => e.start.offset ≤ f.start.offset ∧
        (e.start.offset = f.start.offset → e.got.kind = .eof ∧ f.got.kind = .eof)) ∧
      (∀ e ∈ report.errors, e.start = e.got.start) ∧
      ∃ s, Buffered.statements (Cursor.ofTokens tokens).budget (.load (Cursor.ofTokens tokens)) =
          .ends report.program s ∧ s.errors = report.errors ∧ s.count = report.errors.length := by
  intro tokens report
  have hon := Scanner.on_ofSource source
  have hpast : (Cursor.ofTokens tokens).Past source 0 := Scanner.past_all hon
  have hsited : ∀ e ∈ report.errors, e.Sited source := (Scanner.parse_row hon).2
  refine ⟨?_, fun e he => (hsited e he).1, ?_⟩
  · obtain ⟨rest, hrun⟩ := parse_eq_statements hpast.closed
    have hrises := Parser.rises_statements (Cursor.ofTokens tokens).budget hpast
    rw [hrun] at hrises
    obtain ⟨hi, hrising, -⟩ := hrises
    refine hrising.pairwise.imp_of_mem fun {e f} he hf hef => ?_
    have hend : source.length ≤ e.start.offset → e.got.kind = .eof := (hsited e he).at_end
    have hend' : source.length ≤ f.start.offset → f.got.kind = .eof := (hsited f hf).at_end
    rcases hef with hlt | ⟨hle, hle'⟩
    · exact ⟨Nat.le_of_lt hlt, fun heq => absurd heq (Nat.ne_of_lt hlt)⟩
    · have hbound := (hsited e he).2.start_true.offset_le
      rw [← (hsited e he).1] at hbound
      exact ⟨Nat.le_trans hbound hle', fun _ => ⟨hend hle, hend' hle'⟩⟩
  · obtain ⟨s, -, hends, htold, -⟩ := Buffered.statements_ends hpast.closed (Nat.le_refl _)
    refine ⟨s, hends, htold.errors, ?_⟩
    rw [htold.count]
    exact Nat.zero_add _

end Scriptlet
