import Scriptlet.Proofs.Eval.Blame
import Scriptlet.Proofs.Parse.Origin
import Scriptlet.Proofs.Script.Printers
import Scriptlet.Proofs.Token.Isolated

/-!
# Excerpts underline what they are about

A problem is shown with the row it stands in and carets under the stretch of
source it is about. `Underlines` says that carets stand under given bytes, in the
source and in the row as it is shown, and `Problem.Marks` which bytes these are for
each kind of problem. Whatever problem scanning, parsing or running a script
reports is shown at its position, with carets under what it is about
(`Script.shown_of_reports`).

A row is shown without its line ending, so everything that is underlined has to
end in front of it: a legible token does not end in layout (`Token.Legible.last`),
and a tree that cannot be evaluated ends with such a token.
-/

namespace Scriptlet

/-! ## Carets -/

namespace Problem

/-- The number of carets under a stretch. -/
def carets (s : Span) : Nat := max 1 ((columns s).2 - (columns s).1)

variable {s : Span}

theorem one_le_carets (s : Span) : 1 ≤ carets s := Nat.le_max_left _ _

theorem carets_of_row (h : s.stop.row = s.start.row) :
    carets s = max 1 (s.stop.col - s.start.col) := by
  simp only [carets, columns, if_pos h]

theorem carets_of_rows (h : s.stop.row ≠ s.start.row) : carets s = 1 := by
  simp only [carets, columns, if_neg h, Nat.add_sub_cancel_left, Nat.max_self]

theorem carets_right (p : Position) : carets ⟨p, p.right⟩ = 1 := by
  rw [carets_of_row rfl]
  show max 1 (p.col + 1 - p.col) = 1
  rw [Nat.add_sub_cancel_left, Nat.max_self]

end Problem

/-- Carets under `width` columns from `start` on are under these bytes. -/
structure Underlines (source : Text) (start : Position) (width : Nat) (bytes : Text) : Prop where
  width_eq : width = bytes.length
  source_eq : (source.drop start.offset).take width = bytes
  line_eq : ((Source.line source start.row).drop start.col).take width = bytes

namespace Position

variable {p q : Position} {source : Text}

/-- A stretch on one row is underlined from end to end, if it does not end in a
carriage return. -/
theorem TrueIn.underlines (hp : p.TrueIn source) (hq : q.TrueIn source) (hrow : q.row = p.row)
    (hlt : p.offset < q.offset) (hlast : source[q.offset - 1]? ≠ some Byte.carriageReturn) :
    Underlines source p (Problem.carets ⟨p, q⟩) ((source.take q.offset).drop p.offset) := by
  obtain ⟨hwidth, hline⟩ := hp.line_between hq hrow hlt hlast
  have hcol := hp.col_lt hq hrow hlt
  have hcarets : Problem.carets ⟨p, q⟩ = q.col - p.col := by
    rw [Problem.carets_of_row hrow]
    exact Nat.max_eq_right (Nat.sub_pos_of_lt hcol)
  rw [hcarets]
  refine ⟨hwidth, ?_, hline⟩
  rw [hwidth, List.length_drop, List.length_take, Nat.min_eq_left hq.offset_le, List.drop_take]

/-- A single byte that is not layout. -/
theorem TrueIn.underlines_byte {b : UInt8} (hp : p.TrueIn source)
    (hb : source[p.offset]? = some b) (hlayout : Byte.isLayout b = false) :
    Underlines source p (Problem.carets ⟨p, p.right⟩) [b] := by
  obtain ⟨hlt, hget⟩ := List.getElem?_eq_some_iff.mp hb
  have hrest : source.drop p.offset = b :: source.drop (p.offset + 1) := by
    rw [List.drop_eq_getElem_cons hlt, hget]
  have hright : p.step b = p.right := by
    refine if_neg ?_
    rintro rfl
    cases hlayout
  have hbytes : (source.take p.right.offset).drop p.offset = [b] := by
    show (source.take (p.offset + 1)).drop p.offset = [b]
    rw [List.drop_take, hrest, Nat.add_sub_cancel_left]
    rfl
  rw [← hbytes]
  refine hp.underlines (hright ▸ hp.step hrest) rfl (Nat.lt_succ_self _) ?_
  show source[p.offset + 1 - 1]? ≠ _
  rw [Nat.add_sub_cancel, hb]
  rintro ⟨⟩
  cases hlayout

/-- It is shown in the column it is in. -/
theorem TrueIn.line_byte {b : UInt8} (hp : p.TrueIn source) (hb : source[p.offset]? = some b)
    (hlayout : Byte.isLayout b = false) : (Source.line source p.row)[p.col]? = some b := by
  have hunder := hp.underlines_byte hb hlayout
  rw [Problem.carets_right] at hunder
  have hhead := congrArg List.head? hunder.line_eq
  rwa [List.head?_take, if_neg Nat.one_ne_zero, List.head?_drop, List.head?_cons] at hhead

end Position

/-! ## Tokens -/

namespace Token

variable {t : Token} {source : Text}

theorem Legible.last (h : t.Legible) : ∃ w b, t.written = w ++ [b] ∧ Byte.isLayout b = false := by
  by_cases hstring : t.kind = .string
  · exact ⟨Byte.quote :: t.lexeme, Byte.quote, if_pos hstring, rfl⟩
  obtain ⟨c, s, hwritten, hc⟩ := h.first
  rcases List.eq_nil_or_concat s with rfl | ⟨s, b, rfl⟩
  · exact ⟨[], c, hwritten, hc⟩
  rw [List.concat_eq_append] at hwritten
  refine ⟨c :: s, b, hwritten, Bool.eq_false_iff.mpr fun hb => ?_⟩
  have hread := h.reads [] (leaves_nil _)
  rw [List.append_nil, hwritten] at hread
  have hclosed : (Lexeme.read (c :: s)).isOpen = false := by
    refine Bool.eq_false_iff.mpr fun hopen => ?_
    obtain ⟨-, rfl⟩ := Lexeme.isOpen_read_iff.mp hopen
    rw [Lexeme.read_quoted, Lexeme.quoted] at hread
    split at hread
    · exact hstring (congrArg Lexeme.kind hread).symm
    · cases congrArg Lexeme.fault? hread
  -- without the layout behind it the token would be read just the same
  have hsame := Lexeme.read_before_layout hclosed hb []
  have hwidth := (Lexeme.read_takes c s).width_le
  have hlength : (Lexeme.read (c :: s)).width = (c :: (s ++ [b])).length := by
    rw [← hwritten, ← h.length_eq, ← hsame]
    exact congrArg Lexeme.width hread
  rw [hlength, List.length_cons, List.length_append, List.length_cons] at hwidth
  exact absurd hwidth (by simp)

theorem Placed.bytesIn_eq_written (h : t.Placed source) (hlegible : t.Legible) :
    t.bytesIn source = t.written := by
  obtain ⟨c, s, hwritten, -⟩ := hlegible.first
  have hread := hlegible.reads [] (leaves_nil _)
  rw [List.append_nil, hwritten] at hread
  have hcases := Lexeme.read_cases (c := c) (s := s) (by rw [hread])
  rw [hread] at hcases
  rcases hcases with hk | ⟨hk, -⟩
  · have hstands := h.stands
    rw [show t.kind = .string from hk] at hstands
    exact hstands.trans (if_pos hk).symm
  · rw [h.bytes_eq hk, written_of_ne]
    intro hstring
    rw [show (Lexeme.mk t.kind t.lexeme t.length none).kind = .string from hstring] at hk
    cases hk

theorem Placed.nonempty_of_legible (h : t.Placed source) (hlegible : t.Legible) :
    t.start.offset < t.stop.offset := h.nonempty hlegible.not_end.1

theorem Placed.last_byte (h : t.Placed source) (hlegible : t.Legible) :
    source[t.stop.offset - 1]? ≠ some Byte.carriageReturn := by
  obtain ⟨w, b, hwritten, hb⟩ := hlegible.last
  have hbytes := h.bytesIn_eq_written hlegible
  rw [← Source.getLast?_between (h.nonempty_of_legible hlegible) h.stop_true.offset_le,
    show (source.take t.stop.offset).drop t.start.offset = _ from hbytes, hwritten,
    List.getLast?_concat]
  rintro ⟨⟩
  cases hb

theorem Placed.underlines (h : t.Placed source) (hlegible : t.Legible)
    (hrow : t.stop.row = t.start.row) :
    Underlines source t.start (Problem.carets t.span) (t.bytesIn source) :=
  h.start_true.underlines h.stop_true hrow (h.nonempty_of_legible hlegible) (h.last_byte hlegible)

/-- Symbols stand on one row. -/
theorem Placed.underlines_symbol (h : t.Placed source) (hlegible : t.Legible)
    (hk : t.kind ∈ Kind.doubles ++ Kind.singles) :
    Underlines source t.start (Problem.carets t.span) t.lexeme := by
  have hspelt : t.kind.isSpelt = true := by
    revert hk
    cases t.kind <;> decide
  have hbytes : t.bytesIn source = t.lexeme := h.bytes_eq (Kind.isVerbatim_symbol _ hk)
  have hrow : t.start.row = t.stop.row := by
    refine h.start_true.row_eq_of_between h.stop_true h.start_le ?_
    rw [show (source.take t.stop.offset).drop t.start.offset = _ from hbytes,
      hlegible.spelt hspelt]
    exact Munch.layout_not_mem_name rfl hk
  have hunder := h.underlines hlegible hrow.symm
  rwa [hbytes] at hunder

end Token

/-! ## Lexical errors -/

/-- An error at a byte of the source. -/
def ScanError.Sits (e : ScanError) (source : Text) : Prop :=
  e.start.TrueIn source ∧ ∃ b, source[e.start.offset]? = some b ∧ Byte.isLayout b = false

theorem Scanner.errors_sit {source : Text} (s : Scanner) : s.On source →
    (∀ e ∈ s.errors, e.Sits source) → ∀ e ∈ s.all.2.errors, e.Sits source := by
  induction s using Scanner.all_induction with
  | hend s hnil =>
      intro _ hs
      rw [all_of_end hnil]
      exact hs
  | hmore s c r hcons ih =>
      intro h hs
      have hhere := on_skipLayout h
      have hbyte : source[s.skipLayout.position.offset]? = some c := by
        rw [← List.head?_drop, ← hhere.unread_eq, hcons, List.head?_cons]
      rw [all_of_more hcons]
      refine ih (on_behind hhere _) fun e he => ?_
      rcases List.mem_append.mp he with he | he
      · exact hs e he
      · obtain ⟨fault, -, rfl⟩ := Option.map_eq_some_iff.mp (Option.mem_toList.mp he)
        exact ⟨hhere.position_true, c, hbyte, skipLayout_cons hcons⟩

theorem ScanError.sits_scan {source : Text} : ∀ e ∈ (Token.scan source).2, e.Sits source :=
  Scanner.errors_sit _ (Scanner.on_ofSource source) (List.forall_mem_nil _)

/-! ## Problems -/

namespace Problem

/-- The problem is shown in the row of `start`, with `width` carets from its column
on, and the words shown are its message without the position. -/
structure ShownAt (p : Problem) (source : Text) (start : Position) (width : Nat) : Prop where
  message_eq : p.message = start.render ++ text ": " ++ p.explanation
  render_eq : p.render (some source) =
    text "error: " ++ p.explanation ++ text "\n"
      ++ Text.padLeft 3 (Text.ofNat (start.row + 1)) ++ text " | " ++ Source.line source start.row
      ++ text "\n" ++ text "    | " ++ Text.blanks start.col ++ List.replicate width 0x5e

/-- What the carets are under. -/
def Marks (source : Text) (start : Position) (width : Nat) : Problem → Prop
  | lexical e => start = e.start ∧ width = 1 ∧ ∃ b, source[e.start.offset]? = some b ∧
      (Source.line source e.start.row)[e.start.col]? = some b
  | grammatical e => start = e.start ∧ e.start = e.got.start ∧
      if e.got.isEof = true ∨ e.got.stop.row ≠ e.got.start.row then width = 1
      else Underlines source start width (e.got.bytesIn source)
  | runtime (.typeMismatch position op _ _) => start = position ∧ Underlines source start width op
  | runtime (.divisionByZero position) =>
      start = position ∧ Underlines source start width (text "/")
  | runtime (.unsupported node) => ∃ n span, node = some n ∧ n.span? = some span ∧
      start = span.start ∧
      if span.stop.row = span.start.row then
        Underlines source start width ((source.take span.stop.offset).drop span.start.offset)
      else width = 1
  | other _ => False

end Problem

theorem Node.start?_of_span? {n : Node} {s : Span} (h : n.span? = some s) :
    n.start? = some s.start := by
  cases n with
  | expr e => exact (Expr.span?_eq_some.mp h).1
  | stmt b => exact (Stmt.span?_eq_some.mp h).1

theorem RuntimeError.start?_of_span? {e : RuntimeError} {s : Span} (h : e.span? = some s) :
    e.start? = some s.start := by
  cases e with
  | typeMismatch | divisionByZero =>
      obtain rfl := Option.some.inj h
      rfl
  | unsupported node =>
      obtain ⟨n, rfl, hn⟩ := Option.bind_eq_some_iff.mp h
      exact Node.start?_of_span? hn

namespace Problem

variable {p : Problem} {source : Text} {s : Span}

theorem message_of_span? (h : p.span? = some s) :
    p.message = s.start.render ++ text ": " ++ p.explanation := by
  cases p with
  | lexical | grammatical =>
      obtain rfl := Option.some.inj h
      rfl
  | runtime e =>
      show e.message = _
      rw [RuntimeError.message, RuntimeError.start?_of_span? h]
      rfl
  | other => cases h

theorem shownAt_of_span? (h : p.span? = some s) : p.ShownAt source s.start (carets s) := by
  refine ⟨message_of_span? h, ?_⟩
  unfold render
  rw [h]
  rfl

end Problem

theorem ScanError.marks {source : Text} {e : ScanError} (h : e.Sits source) :
    (Problem.lexical e).Marks source e.start (Problem.carets ⟨e.start, e.start.right⟩) := by
  obtain ⟨htrue, b, hb, hlayout⟩ := h
  exact ⟨rfl, Problem.carets_right _, b, hb, htrue.line_byte hb hlayout⟩

theorem ParseError.marks {source : Text} {e : ParseError} {s : Span}
    (hstart : e.start = e.got.start) (h : e.got.Genuine source)
    (hs : (Problem.grammatical e).span? = some s) :
    (Problem.grammatical e).Marks source s.start (Problem.carets s) := by
  obtain rfl := Option.some.inj hs
  refine ⟨rfl, hstart, ?_⟩
  rw [hstart]
  by_cases hk : e.got.kind = .eof
  · obtain ⟨hend, hempty⟩ := h.ended hk
    rw [if_pos (Or.inl hend), if_pos hend, hempty]
    exact Problem.carets_right _
  · have hlegible := h.legible hk
    have hend : ¬ e.got.isEof = true := by simp [hlegible.not_end.2]
    rw [if_neg hend]
    split
    · rename_i hrows
      exact Problem.carets_of_rows (hrows.resolve_left hend)
    · rename_i hrow
      exact h.placed.underlines hlegible (not_not.mp (not_or.mp hrow).2)

/-! ## Runtime errors -/

/-- All tokens of the node are legible, and it is made of what they say. -/
def Node.Legible : Node → Prop
  | .expr value => value.Legible
  | .stmt body => body.Legible

theorem Expr.legible_of_mem {es : List Expr} (h : Expr.LegibleAll es) : ∀ e ∈ es, e.Legible := by
  induction es with
  | nil => exact List.forall_mem_nil _
  | cons e es ih => exact List.forall_mem_cons.mpr ⟨h.1, ih h.2⟩

theorem Stmt.legible_of_mem {ss : List Stmt} (h : Stmt.LegibleAll ss) : ∀ s ∈ ss, s.Legible := by
  induction ss with
  | nil => exact List.forall_mem_nil _
  | cons s ss ih => exact List.forall_mem_cons.mpr ⟨h.1, ih h.2⟩

namespace Node

variable {n m : Node} {source : Text} {err : RuntimeError}

theorem legible_child (h : n.Legible) (hm : m ∈ n.children) : m.Legible := by
  rcases n with e | s
  · cases e with
    | unary op right =>
        obtain rfl := List.mem_singleton.mp hm
        exact h.2
    | binary left op right =>
        simp only [children, List.mem_cons, List.not_mem_nil, or_false] at hm
        rcases hm with rfl | rfl
        · exact h.1
        · exact h.2.2
    | conditional choice =>
        obtain ⟨keyword, condition, body, otherwise⟩ := choice
        obtain ⟨-, hcondition, hbody, hotherwise⟩ := h
        simp only [children, List.mem_cons] at hm
        rcases hm with rfl | rfl | hm
        · exact hcondition
        · exact hbody
        · cases otherwise with
          | absent => cases hm
          | block | chained =>
              obtain rfl := List.mem_singleton.mp hm
              exact hotherwise
    | call callee opening args closing =>
        rcases List.mem_cons.mp hm with rfl | hm
        · exact h.1
        · obtain ⟨e, he, rfl⟩ := List.mem_map.mp hm
          exact Expr.legible_of_mem h.2.2.1 e he
    | _ => cases hm
  · cases s with
    | missing => cases hm
    | binding keyword nameToken word value =>
        obtain ⟨-, ⟨hname, hident⟩, rfl, hvalue⟩ := h
        simp only [children, List.mem_cons, List.not_mem_nil, or_false] at hm
        rcases hm with rfl | rfl
        · exact ⟨hname, by simp [Expr.ofToken, hident]⟩
        · exact hvalue
    | returning keyword value =>
        by_cases hmissing : value = .missing
        · subst hmissing
          cases hm
        · rw [children_returning hmissing, List.mem_singleton] at hm
          rw [hm]
          exact h.2.resolve_left hmissing
    | block body =>
        cases body with
        | missing => cases hm
        | braces opening body closing empty =>
            obtain ⟨s, hs, rfl⟩ := List.mem_map.mp hm
            exact Stmt.legible_of_mem h.2.1 s hs
    | expr value =>
        obtain rfl := List.mem_singleton.mp hm
        exact h

theorem Holds.legible (hm : n.Holds m) (h : n.Legible) : m.Legible := by
  induction hm with
  | self n => exact h
  | child hmem _ ih => exact ih (legible_child h hmem)

/-- A node is underlined up to the end of its last token. -/
theorem Lies.marks {span : Span} {last : Token} (h : n.Lies source) (hspan : n.span? = some span)
    (hstop : span.stop = last.stop) (hplaced : last.Placed source) (hlegible : last.Legible) :
    (Problem.runtime (.unsupported (some n))).Marks source span.start (Problem.carets span) := by
  obtain ⟨span', hspan', hfirst, hlast, hlt⟩ := h.span_true
  obtain rfl := Option.some.inj (hspan.symm.trans hspan')
  refine ⟨n, span, rfl, hspan, rfl, ?_⟩
  split
  · rename_i hrow
    exact hfirst.underlines hlast hrow hlt (hstop ▸ hplaced.last_byte hlegible)
  · rename_i hrow
    exact Problem.carets_of_rows hrow

end Node

theorem Phrase.symbol_of_operatorsAt {level : Nat} {k : Kind} (h : k ∈ operatorsAt level) :
    k ∈ Kind.doubles ++ Kind.singles := by
  have hstrength : 0 < k.strength := by
    rw [(mem_operatorsAt.mp h).2]
    exact Nat.succ_pos level
  revert hstrength
  cases k <;> decide

/-- The error of an operator is underlined to the length of the operator. -/
theorem Token.Placed.marks_mismatch {op : Token} {source : Text} (h : op.Placed source)
    (hlegible : op.Legible) (hk : op.kind ∈ Kind.doubles ++ Kind.singles) (left : Option ValueKind)
    (right : ValueKind) : ∃ span,
      (RuntimeError.typeMismatch op.start op.lexeme left right).span? = some span ∧
      (Problem.runtime (.typeMismatch op.start op.lexeme left right)).Marks source span.start
        (Problem.carets span) := by
  have hunder := h.underlines_symbol hlegible hk
  have hlength := hunder.width_eq
  refine ⟨_, rfl, rfl, ?_⟩
  rw [Problem.carets_of_row rfl]
  show Underlines source op.start (max 1 (op.start.col + op.lexeme.length - op.start.col)) op.lexeme
  rwa [Nat.add_sub_cancel_left, ← hlength, Nat.max_eq_right (Problem.one_le_carets _)]

theorem Node.Raises.marks {n : Node} {err : RuntimeError} {source : Text} (h : n.Raises err)
    (hlies : n.Lies source) (hlegible : n.Legible) (hplaced : ∀ t ∈ n.tokens, t.Placed source) :
    ∃ span, err.span? = some span ∧
      (Problem.runtime err).Marks source span.start (Problem.carets span) := by
  cases h with
  | unary op right operand =>
      have hop := hplaced op List.mem_cons_self
      rcases hlegible.1 with ⟨hlegible, hk⟩ | ⟨hlegible, hk⟩
      · exact hop.marks_mismatch hlegible (by rw [hk]; decide) none operand
      · exact hop.marks_mismatch hlegible (by rw [hk]; decide) none operand
  | binary left op right first second =>
      obtain ⟨-, ⟨hlegible, level, hk⟩, -⟩ := hlegible
      exact (hplaced op List.mem_cons_self).marks_mismatch hlegible
        (Phrase.symbol_of_operatorsAt hk) (some first) second
  | @division left op right hslash =>
      obtain ⟨-, ⟨hlegible, -⟩, -⟩ := hlegible
      have hunder := (hplaced op List.mem_cons_self).underlines_symbol hlegible
        (by rw [hslash]; decide)
      have hlexeme : op.lexeme = text "/" := by
        rw [hlegible.spelt (by rw [hslash]; rfl), hslash]
        rfl
      have hcarets : Problem.carets op.span = Problem.carets ⟨op.start, op.start.right⟩ := by
        rw [hunder.width_eq, hlexeme, Problem.carets_right]
        rfl
      rw [hlexeme, hcarets] at hunder
      exact ⟨_, rfl, rfl, hunder⟩
  | name token word =>
      exact ⟨token.span, rfl,
        hlies.marks rfl rfl (hplaced token List.mem_cons_self) hlegible.1⟩
  | call callee opening args closing =>
      obtain ⟨span, hspan, -⟩ := hlies.span_true
      have hstop := Option.some.inj (Expr.span?_eq_some.mp hspan).2
      have hclosing := hplaced closing (List.mem_cons_of_mem _ List.mem_cons_self)
      exact ⟨span, hspan, hlies.marks hspan hstop.symm hclosing hlegible.2.2.2.1⟩
  | bodiless keyword condition otherwise => exact hlegible.2.2.1.elim
  | absent hspan =>
      obtain ⟨span, hspan', -⟩ := hlies.span_true
      rw [hspan] at hspan'
      cases hspan'

/-! ## Scripts -/

namespace Script

/-- The problems that scanning, parsing and running a source come to. -/
inductive Reports (source : Text) (p : Problem) : Prop where
  | scanning {ps : List Problem} : (tokens source).2 = some (.problems ps) → p ∈ ps →
      Reports source p
  | parsing {ps : List Problem} : (program source).2 = some (.problems ps) → p ∈ ps →
      Reports source p
  | running {watch : Watch} {ps : List Problem} :
      (run watch source).failure = some (.problems ps) → p ∈ ps → Reports source p

theorem mem_of_ofProblems? {p : Problem} {ps qs : List Problem}
    (h : Failure.ofProblems? qs = some (.problems ps)) (hp : p ∈ ps) : p ∈ qs := by
  cases qs with
  | nil => cases h
  | cons q qs =>
      obtain rfl := Failure.problems.inj (Option.some.inj h)
      exact hp

variable {source : Text} {p : Problem}

theorem failure_program (h : (Token.scan source).2 = []) : (program source).2 =
    Failure.ofProblems? ((parse (Token.scan source).1).errors.map .grammatical) := by
  rw [program]
  rcases hscan : Token.scan source with ⟨ts, errors⟩
  rw [hscan] at h
  obtain rfl : errors = [] := h
  rfl

theorem cases_of_program {ps : List Problem} (h : (program source).2 = some (.problems ps))
    (hp : p ∈ ps) : (∃ e ∈ (Token.scan source).2, p = .lexical e) ∨
      (Token.scan source).2 = [] ∧
        ∃ e ∈ (parse (Token.scan source).1).errors, p = .grammatical e := by
  by_cases hscan : (Token.scan source).2 = []
  · rw [failure_program hscan] at h
    obtain ⟨e, he, rfl⟩ := List.mem_map.mp (mem_of_ofProblems? h hp)
    exact Or.inr ⟨hscan, e, he, rfl⟩
  · rw [program] at h
    rcases hscanned : Token.scan source with ⟨ts, _ | ⟨e, es⟩⟩
    · exact absurd (congrArg Prod.snd hscanned) hscan
    · rw [hscanned] at h
      have hmem : p ∈ (e :: es).map Problem.lexical := mem_of_ofProblems? h hp
      obtain ⟨e', he, rfl⟩ := List.mem_map.mp hmem
      exact Or.inl ⟨e', he, rfl⟩

/-- A source that is not accepted fails as its parse does. -/
theorem failure_run (watch : Watch) (h : ¬ ∃ q, program source = (some q, none)) :
    (run watch source).failure = (program source).2 := by
  rw [run]
  rcases hprogram : program source with ⟨_ | q, _ | failure⟩
  · rfl
  · rfl
  · exact absurd ⟨q, hprogram⟩ h
  · rfl

theorem Reports.cases (h : Reports source p) : (∃ e ∈ (Token.scan source).2, p = .lexical e) ∨
    ((Token.scan source).2 = [] ∧
      ∃ e ∈ (parse (Token.scan source).1).errors, p = .grammatical e) ∨
    ∃ watch q err, program source = (some q, none) ∧
      (q.run watch).stop = some (.failed err) ∧ p = .runtime err := by
  cases h with
  | scanning h hp =>
      obtain ⟨e, he, rfl⟩ := List.mem_map.mp (mem_of_ofProblems? h hp)
      exact Or.inl ⟨e, he, rfl⟩
  | parsing h hp => exact (cases_of_program h hp).imp_right Or.inl
  | @running watch ps h hp =>
      by_cases haccepted : ∃ q, program source = (some q, none)
      · obtain ⟨q, hq⟩ := haccepted
        rw [run_of_program hq] at h
        obtain ⟨stop, hstop, hproblems⟩ := Option.map_eq_some_iff.mp h
        cases stop with
        | failed err =>
            obtain rfl := Failure.problems.inj hproblems
            exact Or.inr (Or.inr ⟨watch, q, err, hq, hstop, List.mem_singleton.mp hp⟩)
        | interrupted why => cases hproblems
      · rw [failure_run watch haccepted] at h
        exact (cases_of_program h hp).imp_right Or.inl

theorem shown_of_reports (h : Reports source p) :
    ∃ start width, p.ShownAt source start width ∧ p.Marks source start width := by
  -- each kind of problem has a span that it marks
  suffices hmarks : ∃ span, p.span? = some span ∧ p.Marks source span.start (Problem.carets span) by
    obtain ⟨span, hspan, hmarks⟩ := hmarks
    exact ⟨span.start, Problem.carets span, Problem.shownAt_of_span? hspan, hmarks⟩
  rcases h.cases with ⟨e, he, rfl⟩ | ⟨hscan, e, he, rfl⟩ | ⟨watch, q, err, hprogram, hfailed, rfl⟩
  · exact ⟨_, rfl, ScanError.marks (ScanError.sits_scan e he)⟩
  · obtain ⟨hstart, -⟩ := (Scanner.parse_row (Scanner.on_ofSource source)).2 e he
    exact ⟨_, rfl, ParseError.marks hstart ((parse_genuine hscan).2 e he) rfl⟩
  · have hlegible := legible_program hprogram
    obtain ⟨hscan, -, rfl⟩ := program_eq_some_iff.mp hprogram
    obtain ⟨s, hs, n, hholds, hraises⟩ := Program.exists_raises hfailed
    obtain ⟨⟨hi, hrow⟩, -⟩ := Scanner.parse_row (Scanner.on_ofSource source)
    have hlies := (hrow.stands (.stmt s) (List.mem_map_of_mem hs)).1 n hholds
    have hnode : n.Legible := hholds.legible (Stmt.legible_of_mem hlegible s hs)
    exact hraises.marks hlies hnode fun t ht => ((parse_genuine hscan).1 s hs n hholds t ht).placed

/-- A number that is out of range without the minus that is split off it, in a row
that ends with a carriage return. -/
theorem shown_of_reports_split :
    let source := text "1;\r\n(a)-99999999999999999999\r\n"
    let got : Token := ⟨.integer, text "99999999999999999999", ⟨1, 4, 8, 4⟩, ⟨1, 24, 28, 4⟩, 20,
      false, false⟩
    let p := Problem.grammatical (.blame got .integerOutOfRange)
    Reports source p ∧
      p.render (some source) = text ("error: integer literal out of range: 99999999999999999999\n"
        ++ "  2 | (a)-99999999999999999999\n" ++ "    |     ^^^^^^^^^^^^^^^^^^^^") ∧
      ∃ start width, p.ShownAt source start width ∧ p.Marks source start width := by
  intro source got p
  obtain ⟨hscan, herrors, hrender⟩ : (Token.scan source).2 = [] ∧
      (parse (Token.scan source).1).errors = [.blame got .integerOutOfRange] ∧
      p.render (some source) = text ("error: integer literal out of range: 99999999999999999999\n"
        ++ "  2 | (a)-99999999999999999999\n" ++ "    |     ^^^^^^^^^^^^^^^^^^^^") := by
    decide +kernel
  have hprogram : (program source).2 = some (.problems [p]) := by
    rw [failure_program hscan, herrors]
    rfl
  have hreports : Reports source p := .parsing hprogram List.mem_cons_self
  exact ⟨hreports, hrender, shown_of_reports hreports⟩

end Script

end Scriptlet
