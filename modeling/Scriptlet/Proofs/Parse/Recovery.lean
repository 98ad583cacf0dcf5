import Scriptlet.Proofs.Parse.Segment

/-!
# Recovery is local

A token list that is made of items, that is of segments with a semicolon
behind each and of items in braces, is parsed to the tree that mirrors the
items, however many of the segments are broken and however deep they stand. A
segment adds what it comes to when it is parsed alone: one statement, or one
error, or nothing where it is empty. Braces add a block of what is left of
their items.

`ReadsAs ts ss es` says that in front of any list of statements the tokens
`ts` add the statements `ss` and the errors `es`. It holds for the two parsers
of such lists alike; they differ in how they recover, but not behind a
segment (`Recovers`). There is one lemma for segments, one for braces, and
`Item.readsAs` is the induction over items.
-/

namespace Scriptlet

open Phrase Filter

/-! ## Items -/

/-- A token of one kind; an end token just when that is the kind. -/
structure TokenOf (k : Kind) where
  token : Token
  kind_eq : token.kind = k
  isEof_eq : token.isEof = decide (k = .eof)

/-- Tokens without a boundary among them. -/
structure Segment where
  tokens : List Token
  inner : AllInner tokens

inductive Item where
  | segment (s : Segment) (semicolon : TokenOf .semicolon)
  | braced (opening : TokenOf .openBrace) (items : List Item) (closing : TokenOf .closeBrace)

namespace Item

mutual

def tokens : Item → List Token
  | .segment s semicolon => s.tokens ++ [semicolon.token]
  | .braced opening items closing => opening.token :: (tokensAll items ++ [closing.token])

def tokensAll : List Item → List Token
  | [] => []
  | i :: is => i.tokens ++ tokensAll is

end

mutual

/-- The statements that survive: those of a segment parsed alone, and a block
for each pair of braces. -/
def stmts : Item → List Stmt
  | .segment s semicolon => (parse (s.tokens ++ [semicolon.token])).program
  | .braced opening items closing =>
      [.block (.braces opening.token (stmtsAll items) closing.token (stmtsAll items).isEmpty)]

def stmtsAll : List Item → List Stmt
  | [] => []
  | i :: is => i.stmts ++ stmtsAll is

end

mutual

/-- The errors of the segments, each parsed alone. -/
def errors : Item → List ParseError
  | .segment s semicolon => (parse (s.tokens ++ [semicolon.token])).errors
  | .braced _ items _ => errorsAll items

def errorsAll : List Item → List ParseError
  | [] => []
  | i :: is => i.errors ++ errorsAll is

end

end Item

/-- Either one statement or one error, and neither from no tokens. -/
def Segment.Yields (s : Segment) (ss : List Stmt) (es : List ParseError) : Prop :=
  if s.tokens = [] then ss = [] ∧ es = []
  else (∃ stmt, ss = [stmt] ∧ es = []) ∨ ss = [] ∧ ∃ e, es = [e]

namespace Parser

/-! ## Lists of statements -/

/-- A parser of lists of statements that goes on at the boundary behind a
broken one, as long as no brace stands there that it does not stop at. -/
structure Recovers (p : Nat → Parser (List Stmt)) (stops : Kind → Prop) : Prop
    extends ReadsLists p stops where
  resume : ∀ (n : Nat) {c rest : Cursor} {errors : List ParseError}, c.Closed →
    c.kind ≠ .semicolon → c.kind ≠ .closeBrace → c.kind ≠ .eof →
    statement n c = .broken rest errors →
    (rest.boundary.kind = .closeBrace → stops .closeBrace) →
    p (n + 1) c = (p n rest.boundary).after errors

theorem recovers_blockBody : Recovers blockBody fun k => k = .closeBrace ∨ k = .eof where
  toReadsLists := readsLists_blockBody
  resume n c rest errors hc hsemi hbrace heof hs _ := by
    have hend : ¬ c.atEnd = true := fun he => heof (hc.atEnd_iff.mp he)
    rw [blockBody_succ, if_neg (by simp [hend, hbrace]), if_neg hsemi, hs]
    rfl

theorem recovers_statements : Recovers statements (· = .eof) where
  toReadsLists := readsLists_statements
  resume n c rest errors hc hsemi hbrace heof hs hstop := by
    have hend : ¬ c.atEnd = true := fun he => heof (hc.atEnd_iff.mp he)
    have hkeep : dropBrace rest.boundary = rest.boundary :=
      if_neg fun hk => absurd (hstop hk) (by decide)
    rw [statements_succ, if_neg hend, if_neg hsemi, if_neg hbrace, hs, followedBy, hkeep]

/-- In front of a list of statements, `ts` adds `ss` to it and `es` to its
errors. -/
def ReadsAs (ts : List Token) (ss : List Stmt) (es : List ParseError) : Prop :=
  ∀ ⦃p : Nat → Parser (List Stmt)⦄ ⦃stops : Kind → Prop⦄, Recovers p stops →
    ∀ {c m d : Cursor} {rest : List Stmt} {later : List ParseError}, c.Closed → m.Closed →
      c.tokens = ts ++ m.tokens → (m.kind = .closeBrace → stops .closeBrace) →
      Reaches p m (.done rest d later) → Reaches p c (.done (ss ++ rest) d (es ++ later))

theorem readsAs_nil : ReadsAs [] [] [] := by
  intro p stops _ c m d rest later _ _ htok _ hm
  rw [Cursor.ext_tokens htok]
  exact hm

/-- What stands in front of a brace is told apart from what stands in front of
more items. -/
theorem ReadsAs.append {ts us : List Token} {ss ss' : List Stmt} {es es' : List ParseError}
    (h : ReadsAs ts ss es) (h' : ReadsAs us ss' es')
    (hus : ∀ t ∈ us.head?, t.kind ≠ .closeBrace) : ReadsAs (ts ++ us) (ss ++ ss') (es ++ es') := by
  intro p stops hp c m d rest later hc hm htok hstop hreach
  obtain ⟨m', hm', htok', hmid⟩ := hc.between hm (htok.trans (List.append_assoc ts us _))
  have hbrace : m'.kind = .closeBrace → stops .closeBrace := by
    intro hk
    cases us with
    | nil =>
        rw [Cursor.ext_tokens hmid] at hk
        exact hstop hk
    | cons t us =>
        rw [Cursor.kind_of_tokens hmid] at hk
        exact absurd hk (hus t rfl)
  rw [List.append_assoc, List.append_assoc]
  exact h hp hc hm' htok' hbrace (h' hp hm' hm hmid hstop hreach)

/-! ## Segments -/

variable {semi t : Token} {ts : List Token}

/-- A cursor in a segment, with a closed list of tokens behind the semicolon. -/
theorem closed_upTo (hsemi : semi.kind = .semicolon) (hend : semi.isEof = false)
    (hts : AllInner ts) {m : Cursor} (hm : m.Closed) :
    (Cursor.upTo ts semi m.tokens).Closed := by
  constructor
  · intro u hu
    rw [Cursor.tokens_upTo, List.mem_append, List.mem_cons] at hu
    rcases hu with hu | rfl | hu
    · obtain ⟨hmark, heof, -⟩ := Token.isInner_iff.mp (hts u hu)
      simp [hmark, heof]
    · simp [hsemi, hend]
    · exact hm.marked u hu
  · obtain ⟨u, hu, hmark⟩ := hm.ended
    refine ⟨u, ?_, hmark⟩
    rw [Cursor.tokens_upTo]
    simp [hu]

theorem behind_eq (hsemi : semi.isEof = false) (m : Cursor) :
    Cursor.behind semi m.tokens = m := by
  rw [Cursor.behind, Cursor.next, if_neg (by simp [hsemi])]
  rfl

/-- Given steps enough, a statement of a segment comes to one thing, whatever
stands behind the semicolon. -/
theorem reaches_segment (hsemi : semi.kind = .semicolon) (hend : semi.isEof = false)
    (hts : AllInner (t :: ts)) :
    (∃ s, ∀ later, Reaches statement (Cursor.upTo (t :: ts) semi later)
      (.done s (Cursor.behind semi later) [])) ∨
    ∃ e us, AllInner us ∧ ∀ later, Reaches statement (Cursor.upTo (t :: ts) semi later)
      (.broken (Cursor.upTo us semi later) [e]) := by
  -- enough steps for one list behind the semicolon are enough for all of them
  let last : Cursor := ⟨Token.endOfInput .start, []⟩
  have hclosed : (Cursor.upTo (t :: ts) semi last.tokens).Closed :=
    closed_upTo hsemi hend hts ⟨by decide, _, List.mem_cons_self, rfl⟩
  obtain ⟨-, heof, -⟩ := Token.isInner_iff.mp (allInner_cons.mp hts).1
  let n := 8 * (Cursor.upTo (t :: ts) semi last.tokens).moves + 3
  have hsettles := (settled n).statement _ hclosed heof (Nat.le_refl n)
  have hstable : ∀ {later : List Token} {o : Outcome Stmt},
      statement n (Cursor.upTo (t :: ts) semi later) = o → o ≠ .exhausted →
      Reaches statement (Cursor.upTo (t :: ts) semi later) o := by
    rintro later o rfl hne
    filter_upwards [eventually_ge_atTop n] with m hm
    exact stable_of_below (fun n => (moreSteps n).statement) hm hne
  cases decided_statement (n := n) hsemi hts with
  | done s hrest hdone =>
      subst hrest
      exact Or.inl ⟨s, fun later => hstable (hdone later) (by simp)⟩
  | broken e hus hbroken =>
      exact Or.inr ⟨e, _, hus, fun later => hstable (hbroken later) (by simp)⟩
  | exhausted hex =>
      rw [hex] at hsettles
      exact hsettles.elim

theorem readsAs_segment (s : Segment) (semicolon : TokenOf .semicolon) :
    ∃ ss es, s.Yields ss es ∧ ReadsAs (s.tokens ++ [semicolon.token]) ss es := by
  obtain ⟨semi, hsemi, hend⟩ := semicolon
  obtain ⟨ts, hts⟩ := s
  cases ts with
  | nil =>
      refine ⟨[], [], ⟨rfl, rfl⟩, ?_⟩
      intro p stops hp c m d rest later hc _ htok _ hm
      have hkind : c.kind = .semicolon := (Cursor.kind_of_tokens htok).trans hsemi
      have hnext : c.next = m :=
        Cursor.ext_tokens (Cursor.next_tokens hc htok (by simp [hsemi]))
      refine .of_succ ?_
      filter_upwards [hm] with n hn
      rw [hp.skip n hc hkind, hnext, hn]
      rfl
  | cons t ts =>
      obtain ⟨-, heof, hnsemi, -, hbrace⟩ := Token.isInner_iff.mp (allInner_cons.mp hts).1
      have hcursor : ∀ {c m : Cursor}, c.tokens = t :: ts ++ [semi] ++ m.tokens →
          c = Cursor.upTo (t :: ts) semi m.tokens := by
        intro c m htok
        refine Cursor.ext_tokens ?_
        rw [htok, Cursor.tokens_upTo, List.append_assoc]
        rfl
      rcases reaches_segment hsemi hend hts with ⟨stmt, hstmt⟩ | ⟨e, us, hus, hbroken⟩
      · refine ⟨[stmt], [], Or.inl ⟨stmt, rfl, rfl⟩, ?_⟩
        intro p stops hp c m d rest later hc _ htok _ hm
        obtain rfl := hcursor htok
        refine .of_succ ?_
        filter_upwards [hstmt m.tokens, hm] with n hs hn
        obtain ⟨resume, hstep⟩ := hp.step n hc hnsemi hbrace heof
        rw [hstep, hs, followedBy_done, behind_eq hend, hn]
        rfl
      · refine ⟨[], [e], Or.inr ⟨rfl, e, rfl⟩, ?_⟩
        intro p stops hp c m d rest later hc _ htok hstop hm
        obtain rfl := hcursor htok
        have hboundary : (Cursor.upTo us semi m.tokens).boundary = m := by
          rw [Cursor.boundary_upTo hsemi hend hus, behind_eq hend]
        refine .of_succ ?_
        filter_upwards [hbroken m.tokens, hm] with n hs hn
        rw [hp.resume n hc hnsemi hbrace heof hs (by rwa [hboundary]), hboundary, hn]
        rfl

/-! ## Braces -/

theorem readsAs_braced (opening : TokenOf .openBrace) (closing : TokenOf .closeBrace)
    {ts : List Token} {ss : List Stmt} {es : List ParseError} (h : ReadsAs ts ss es) :
    ReadsAs (opening.token :: (ts ++ [closing.token]))
      [.block (.braces opening.token ss closing.token ss.isEmpty)] es := by
  obtain ⟨opening, hopen, -⟩ := opening
  obtain ⟨closing, hclose, -⟩ := closing
  intro p stops hp c m d rest later hc hm htok _ hrest
  have hcur : c.current = opening := Cursor.current_of_tokens htok
  have hkind : c.kind = .openBrace := (Cursor.kind_of_tokens htok).trans hopen
  have hnext : c.next.tokens = ts ++ closing :: ([] ++ m.tokens) := by
    rw [Cursor.next_tokens hc htok (by simp [hopen])]
    simp
  obtain ⟨b, hb, rfl, hbtok, hlast⟩ :=
    hc.next.reach hm ts closing [] hnext (by simp [hclose])
  have hstop : Reaches blockBody b (.done [] b []) := by
    refine .of_succ (Eventually.of_forall fun n => ?_)
    exact recovers_blockBody.stop n hb (Or.inl hclose)
  have hbody := h recovers_blockBody hc.next hb hbtok (fun _ => Or.inl rfl) hstop
  rw [List.append_nil, List.append_nil] at hbody
  have hblock : Reaches block c
      (.done (.braces opening ss b.current ss.isEmpty) m es) := by
    refine .of_succ ?_
    filter_upwards [hbody] with n hn
    rw [block_succ, bind_of_done (expect_of_kind hkind), bind_after hn,
      bind_of_done (expect_of_kind (c := b) hclose), hcur, Cursor.ext_tokens hlast, pure_apply,
      Outcome.after, List.append_nil]
  have hstmt : Reaches statement c
      (.done (.block (.braces opening ss b.current ss.isEmpty)) m es) := by
    refine .of_succ ?_
    filter_upwards [hblock] with n hn
    rw [statement_succ, hkind]
    dsimp only
    rw [bind_after hn, pure_apply, Outcome.after, List.append_nil]
  refine .of_succ ?_
  filter_upwards [hstmt, hrest] with n hs hn
  obtain ⟨resume, hstep⟩ := hp.step n hc (by simp [hkind]) (by simp [hkind]) (by simp [hkind])
  rw [hstep, hs, followedBy_done, hn]
  rfl

end Parser

/-! ## Programs -/

open Scriptlet.Parser

namespace Item

/-- No item starts with a closing brace. -/
theorem head_tokensAll (items : List Item) :
    ∀ t ∈ (tokensAll items).head?, t.kind ≠ .closeBrace := by
  intro t ht
  cases items with
  | nil => cases ht
  | cons i is =>
      cases i with
      | segment s semicolon =>
          obtain ⟨ts, hts⟩ := s
          cases ts with
          | nil =>
              obtain rfl : semicolon.token = t := Option.some.inj ht
              simp [semicolon.kind_eq]
          | cons u us =>
              obtain rfl : u = t := Option.some.inj ht
              exact (Token.isInner_iff.mp (hts u List.mem_cons_self)).2.2.2.2
      | braced opening items closing =>
          obtain rfl : opening.token = t := Option.some.inj ht
          simp [opening.kind_eq]

/-- A token of an item is no end token. -/
theorem not_end {k : Kind} (t : TokenOf k) (hk : k ≠ .eof) :
    t.token.isEof = false ∧ t.token.kind ≠ .eof := by
  simp [t.isEof_eq, t.kind_eq, hk]

mutual

theorem tokens_not_end : ∀ (i : Item), ∀ t ∈ i.tokens, t.isEof = false ∧ t.kind ≠ .eof
  | .segment s semicolon => by
      intro t ht
      rw [tokens, List.mem_append, List.mem_singleton] at ht
      rcases ht with ht | rfl
      · obtain ⟨hmark, heof, -⟩ := Token.isInner_iff.mp (s.inner t ht)
        exact ⟨hmark, heof⟩
      · exact not_end semicolon (by decide)
  | .braced opening items closing => by
      intro t ht
      rw [tokens, List.mem_cons, List.mem_append, List.mem_singleton] at ht
      rcases ht with rfl | ht | rfl
      · exact not_end opening (by decide)
      · exact tokensAll_not_end items t ht
      · exact not_end closing (by decide)

theorem tokensAll_not_end :
    ∀ (items : List Item), ∀ t ∈ tokensAll items, t.isEof = false ∧ t.kind ≠ .eof
  | [] => fun t ht => absurd ht List.not_mem_nil
  | i :: is => by
      intro t ht
      rw [tokensAll, List.mem_append] at ht
      rcases ht with ht | ht
      · exact tokens_not_end i t ht
      · exact tokensAll_not_end is t ht

end

end Item

/-- Tokens that are read in front of a list are read by themselves. -/
theorem parse_of_readsAs {ts : List Token} {ss : List Stmt} {es : List ParseError}
    (h : ReadsAs ts ss es) (hts : ∀ t ∈ ts, t.isEof = false ∧ t.kind ≠ .eof) {last : Token}
    (hk : last.kind = .eof) (hend : last.isEof = true) :
    parse (ts ++ [last]) = ⟨ss, es⟩ := by
  have hends : Token.EndsOnce (ts ++ [last]) := by
    refine ⟨fun t ht => ?_, ts, last, rfl, hk, fun t ht => (hts t ht).2⟩
    rcases List.mem_append.mp ht with ht | ht
    · simp [hts t ht]
    · rw [List.mem_singleton.mp ht]
      simp [hk, hend]
  obtain ⟨htok, hclosed⟩ := Cursor.ofTokens_spec hends
  have hlast : (⟨last, []⟩ : Cursor).Closed :=
    ⟨by simp [Cursor.tokens, hk, hend], last, List.mem_cons_self, hend⟩
  have hstop : Reaches statements ⟨last, []⟩ (.done [] ⟨last, []⟩ []) :=
    .of_succ (Eventually.of_forall fun n => recovers_statements.stop n hlast hk)
  have hread := h recovers_statements hclosed hlast htok
    (fun hbrace => absurd (hk.symm.trans hbrace) (by decide)) hstop
  rw [List.append_nil, List.append_nil] at hread
  exact parse_of_reaches hends hread

theorem Cursor.ofTokens_concat (ts : List Token) {t : Token} (ht : t.isEof = false) :
    ofTokens (ts ++ [t]) = ofTokens (ts ++ [t] ++ [Token.endOfInput t.stop]) := by
  have hmark : (Token.endOfInput t.stop).isEof = true := rfl
  refine ext_tokens ?_
  rw [tokens_ofTokens, tokens_ofTokens, if_pos hmark, if_neg (Bool.eq_false_iff.mp ht)]

/-- A segment parsed alone comes to what it adds to a list. -/
theorem parse_segment (s : Segment) (semicolon : TokenOf .semicolon) :
    ∃ ss es, s.Yields ss es ∧ ReadsAs (s.tokens ++ [semicolon.token]) ss es ∧
      parse (s.tokens ++ [semicolon.token]) = ⟨ss, es⟩ := by
  obtain ⟨ss, es, hyields, hreads⟩ := readsAs_segment s semicolon
  refine ⟨ss, es, hyields, hreads, ?_⟩
  have hcursor := Cursor.ofTokens_concat s.tokens (Item.not_end semicolon (by decide)).1
  rw [parse, hcursor]
  exact parse_of_readsAs hreads (Item.tokens_not_end (.segment s semicolon)) rfl rfl

mutual

theorem Item.readsAs : ∀ i : Item, ReadsAs i.tokens i.stmts i.errors
  | .segment s semicolon => by
      obtain ⟨ss, es, -, hreads, halone⟩ := parse_segment s semicolon
      rw [tokens, stmts, errors, halone]
      exact hreads
  | .braced opening items closing => by
      rw [tokens, stmts, errors]
      exact readsAs_braced opening closing (Item.readsAs_all items)

theorem Item.readsAs_all : ∀ items : List Item,
    ReadsAs (Item.tokensAll items) (Item.stmtsAll items) (Item.errorsAll items)
  | [] => by
      rw [tokensAll, stmtsAll, errorsAll]
      exact readsAs_nil
  | i :: is => by
      rw [tokensAll, stmtsAll, errorsAll]
      exact (Item.readsAs i).append (Item.readsAs_all is) (Item.head_tokensAll is)

end

/-- A list of items is parsed to the tree that mirrors it, and its errors are
those of its segments in order. Parsed alone, a segment that is not empty
gives either one statement or one error. -/
theorem parse_items (items : List Item) (last : TokenOf .eof) :
    (parse (Item.tokensAll items ++ [last.token])).program = Item.stmtsAll items ∧
      (parse (Item.tokensAll items ++ [last.token])).errors = Item.errorsAll items ∧
      ∀ (s : Segment) (semicolon : TokenOf .semicolon),
        s.Yields (parse (s.tokens ++ [semicolon.token])).program
          (parse (s.tokens ++ [semicolon.token])).errors := by
  have hparse : parse (Item.tokensAll items ++ [last.token])
      = ⟨Item.stmtsAll items, Item.errorsAll items⟩ :=
    parse_of_readsAs (Item.readsAs_all items) (Item.tokensAll_not_end items) last.kind_eq
      (last.isEof_eq.trans (by decide))
  refine ⟨by rw [hparse], by rw [hparse], fun s semicolon => ?_⟩
  obtain ⟨ss, es, hyields, -, halone⟩ := parse_segment s semicolon
  rw [halone]
  exact hyields

end Scriptlet
