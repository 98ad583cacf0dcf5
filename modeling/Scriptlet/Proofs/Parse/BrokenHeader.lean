import Scriptlet.Proofs.Parse.Recovery

/-!
# Headers that break in front of their block

A conditional whose header lacks its closing parenthesis breaks off in front of
its block, with one error. At top level the program goes on behind the next
boundary, which is looked for without regard to nesting: behind the first
semicolon or at the first closing brace, whichever comes first, with one closing
brace there dropped (`Token.resumption`, `parse_of_broken`).

So nothing of the block is left only where its body has no boundary but a
semicolon at its very end (`OneRun`). Behind any other body the closing brace of
the block stays, as a stray one, together with the rest of the body
(`resumption_of_not_oneRun`).
-/

namespace Scriptlet

open Filter

/-! ## Where a program goes on -/

namespace Token

/-- The tokens from the first boundary on. -/
def behindStatement : List Token → List Token
  | [] => []
  | t :: ts =>
      if t.kind = .semicolon then ts
      else if t.kind = .closeBrace ∨ t.kind = .eof then t :: ts
      else behindStatement ts

/-- The tokens without a closing brace in front. -/
def unbraced : List Token → List Token
  | [] => []
  | t :: ts => if t.kind = .closeBrace then ts else t :: ts

/-- The tokens a program goes on with when a statement broke off in front of
`ts`. -/
def resumption (ts : List Token) : List Token := unbraced (behindStatement ts)

variable {t : Token} {ts : List Token}

theorem behindStatement_suffix : ∀ ts : List Token, behindStatement ts <:+ ts
  | [] => List.suffix_refl []
  | t :: ts => by
      unfold behindStatement
      split
      · exact List.suffix_cons t ts
      · split
        · exact List.suffix_refl _
        · exact (behindStatement_suffix ts).trans (List.suffix_cons t ts)

theorem unbraced_suffix (ts : List Token) : unbraced ts <:+ ts := by
  unfold unbraced
  split
  · exact List.suffix_refl []
  · split
    · exact List.suffix_cons _ _
    · exact List.suffix_refl _

theorem resumption_suffix (ts : List Token) : resumption ts <:+ ts :=
  (unbraced_suffix _).trans (behindStatement_suffix ts)

theorem resumption_semicolon (h : t.kind = .semicolon) : resumption (t :: ts) = unbraced ts := by
  rw [resumption, behindStatement, if_pos h]

theorem resumption_closeBrace (h : t.kind = .closeBrace) : resumption (t :: ts) = ts := by
  rw [resumption, behindStatement, if_neg (by simp [h]), if_pos (Or.inl h), unbraced, if_pos h]

theorem resumption_inner (hsemi : t.kind ≠ .semicolon) (hbrace : t.kind ≠ .closeBrace)
    (hend : t.kind ≠ .eof) : resumption (t :: ts) = resumption ts := by
  rw [resumption, behindStatement, if_neg hsemi, if_neg (by simp [hbrace, hend]), resumption]

end Token

namespace Cursor

theorem tokens_skipStatement : ∀ {n : Nat} {c : Cursor}, c.Closed → c.tokens.length ≤ n →
    (c.skipStatement n).tokens = Token.behindStatement c.tokens
  | 0, c, _, hn => by simp [tokens] at hn
  | n + 1, c, hc, hn => by
      have hunfold : Token.behindStatement c.tokens =
          if c.kind = .semicolon then c.later
          else if c.kind = .closeBrace ∨ c.kind = .eof then c.tokens
          else Token.behindStatement c.later := rfl
      rw [skipStatement, hunfold]
      by_cases hend : c.kind = .eof
      · rw [if_pos (by simp [hc.atEnd_iff.mpr hend]), if_neg (by simp [hend]),
          if_pos (Or.inr hend)]
      · have hatEnd : ¬ c.atEnd = true := fun h => hend (hc.atEnd_iff.mp h)
        have hnext : c.next.tokens = c.later := next_tokens hc rfl hend
        by_cases hbrace : c.kind = .closeBrace
        · rw [if_pos (by simp [hbrace]), if_neg (by simp [hbrace]), if_pos (Or.inl hbrace)]
        · rw [if_neg (by simp [hatEnd, hbrace])]
          by_cases hsemi : c.kind = .semicolon
          · rw [if_pos (by simp [hsemi]), if_pos hsemi, hnext]
          · rw [if_neg (by simp [hsemi]), if_neg hsemi, if_neg (by simp [hbrace, hend]), ← hnext]
            refine tokens_skipStatement hc.next ?_
            rw [hnext]
            exact Nat.le_of_succ_le_succ hn

theorem tokens_dropBrace {c : Cursor} (hc : c.Closed) :
    (Parser.dropBrace c).tokens = Token.unbraced c.tokens := by
  unfold Parser.dropBrace
  have hunfold : Token.unbraced c.tokens =
      if c.kind = .closeBrace then c.later else c.tokens := rfl
  rw [hunfold]
  split
  · rename_i hbrace
    exact next_tokens hc rfl (by simp [show c.current.kind = .closeBrace from hbrace])
  · rfl

theorem tokens_resume {c : Cursor} (hc : c.Closed) :
    (Parser.dropBrace c.boundary).tokens = Token.resumption c.tokens := by
  have hboundary : c.boundary.tokens = Token.behindStatement c.tokens :=
    tokens_skipStatement hc (Nat.le_refl _)
  rw [tokens_dropBrace hc.boundary, hboundary, Token.resumption]

/-- Tokens that end in an end token are read from there on as they are. -/
theorem ofTokens_resumption {c : Cursor} {ts : List Token} {last : Token} (hc : c.Closed)
    (h : c.tokens = ts ++ [last]) (hlast : last.isEof = true) :
    ofTokens (Token.resumption c.tokens) = Parser.dropBrace c.boundary := by
  refine ext_tokens ?_
  have hresume := tokens_resume hc
  obtain ⟨passed, hsplit⟩ := Token.resumption_suffix c.tokens
  rcases List.eq_nil_or_concat (Token.resumption c.tokens) with hnil | ⟨us, t, hconcat⟩
  · rw [hnil] at hresume
    cases hresume
  · rw [List.concat_eq_append] at hconcat
    have hends : (passed ++ us) ++ [t] = ts ++ [last] := by
      rw [List.append_assoc, ← hconcat, hsplit, h]
    obtain ⟨-, ht⟩ := List.append_inj' hends rfl
    obtain rfl : t = last := (List.cons.inj ht).1
    rw [hresume, hconcat, tokens_ofTokens, if_pos hlast]

end Cursor

open Scriptlet.Parser

/-- A program whose first statement breaks off adds the errors of that to the
program behind the next boundary. -/
theorem parse_of_broken {tokens ts : List Token} {last : Token} {rest : Cursor}
    {errors : List ParseError} (hc : (Cursor.ofTokens tokens).Closed)
    (hsemi : (Cursor.ofTokens tokens).kind ≠ .semicolon)
    (hbrace : (Cursor.ofTokens tokens).kind ≠ .closeBrace)
    (hend : (Cursor.ofTokens tokens).kind ≠ .eof)
    (hbroken : Reaches statement (Cursor.ofTokens tokens) (.broken rest errors))
    (hrest : rest.Closed) (htok : rest.tokens = ts ++ [last]) (hlast : last.isEof = true) :
    parse tokens = ⟨(parse (Token.resumption rest.tokens)).program,
      errors ++ (parse (Token.resumption rest.tokens)).errors⟩ := by
  have hcursor := Cursor.ofTokens_resumption hrest htok hlast
  have hclosed : (Cursor.ofTokens (Token.resumption rest.tokens)).Closed := by
    rw [hcursor]
    exact (dropBrace_spec hrest.boundary).1
  obtain ⟨stop, hmore⟩ := reaches_parse hclosed
  rw [hcursor] at hmore
  have hatEnd : ¬ (Cursor.ofTokens tokens).atEnd = true := fun h => hend (hc.atEnd_iff.mp h)
  refine parse_eq_of_reaches hc (.of_succ (o := .done _ stop _) ?_)
  filter_upwards [hbroken, hmore] with n hs hn
  rw [statements_succ, if_neg hatEnd, if_neg hsemi, if_neg hbrace, hs, followedBy, hn]
  rfl

/-! ## Bodies -/

/-- No boundary inside: no closing brace, and no semicolon but at the end. -/
def OneRun (body : List Token) : Prop :=
  (∀ t ∈ body, t.kind ≠ .closeBrace) ∧ ∀ t ∈ body.dropLast, t.kind ≠ .semicolon

instance (body : List Token) : Decidable (OneRun body) := inferInstanceAs (Decidable (_ ∧ _))

section Bodies

variable {t closing : Token} {body rest : List Token}

theorem oneRun_cons (hsemi : t.kind ≠ .semicolon) (hbrace : t.kind ≠ .closeBrace) :
    OneRun (t :: body) ↔ OneRun body := by
  unfold OneRun
  cases body with
  | nil => simp [hbrace]
  | cons u us => simp [hsemi, hbrace]

theorem resumption_of_oneRun (hclosing : closing.kind = .closeBrace)
    (hbody : ∀ t ∈ body, t.kind ≠ .eof) (h : OneRun body) :
    Token.resumption (body ++ closing :: rest) = rest := by
  induction body with
  | nil => exact Token.resumption_closeBrace hclosing
  | cons t body ih =>
      obtain ⟨hend, hbody⟩ := List.forall_mem_cons.mp hbody
      have hbrace : t.kind ≠ .closeBrace := h.1 t List.mem_cons_self
      by_cases hsemi : t.kind = .semicolon
      · have hnil : body = [] := by
          cases body with
          | nil => rfl
          | cons u us => exact absurd hsemi (h.2 t (by simp))
        rw [hnil, List.cons_append, Token.resumption_semicolon hsemi, List.nil_append,
          Token.unbraced, if_pos hclosing]
      · rw [List.cons_append, Token.resumption_inner hsemi hbrace hend]
        exact ih hbody ((oneRun_cons hsemi hbrace).mp h)

/-- Where the search ends inside the body, the brace that closes it is left. -/
theorem resumption_of_not_oneRun (closing : Token) (rest : List Token)
    (hbody : ∀ t ∈ body, t.kind ≠ .eof) (h : ¬ OneRun body) :
    ∃ us, us <:+ body ∧ Token.resumption (body ++ closing :: rest) = us ++ closing :: rest := by
  induction body with
  | nil => exact absurd ⟨List.forall_mem_nil _, List.forall_mem_nil _⟩ h
  | cons t body ih =>
      obtain ⟨hend, hbody⟩ := List.forall_mem_cons.mp hbody
      rw [List.cons_append]
      by_cases hbrace : t.kind = .closeBrace
      · exact ⟨body, List.suffix_cons t body, Token.resumption_closeBrace hbrace⟩
      · by_cases hsemi : t.kind = .semicolon
        · rw [Token.resumption_semicolon hsemi]
          cases body with
          | nil => exact absurd (by simp [OneRun, hbrace]) h
          | cons u us =>
              rw [List.cons_append, Token.unbraced]
              split
              · exact ⟨us, (List.suffix_cons u us).trans (List.suffix_cons t _), rfl⟩
              · exact ⟨u :: us, List.suffix_cons t _, rfl⟩
        · rw [Token.resumption_inner hsemi hbrace hend]
          obtain ⟨us, hus, hrest⟩ := ih hbody fun h' => h ((oneRun_cons hsemi hbrace).mpr h')
          exact ⟨us, hus.trans (List.suffix_cons t body), hrest⟩

end Bodies

/-! ## Headers without a closing parenthesis -/

section Headers

variable (keyword : TokenOf .if_) (opening : TokenOf .openParen) (name : TokenOf .ident)
  (brace : TokenOf .openBrace) (closing : TokenOf .closeBrace)

/-- A conditional up to its body, with no parenthesis behind its condition. -/
def openHeader : List Token := [keyword.token, opening.token, name.token, brace.token]

/-- What the header costs. -/
def openHeaderError : ParseError :=
  .blame brace.token (.expected (Kind.described .closeParen))

theorem kind_tokenOf {k : Kind} (t : TokenOf k) (us : List Token) :
    Cursor.kind ⟨t.token, us⟩ = k := t.kind_eq

theorem next_tokenOf {k : Kind} (t : TokenOf k) (hk : k ≠ .eof) (u : Token) (us : List Token) :
    Cursor.next ⟨t.token, u :: us⟩ = ⟨u, us⟩ := by
  rw [Cursor.next, if_neg (by simp [(Item.not_end t hk).1])]

theorem reaches_openHeader (later : List Token) :
    Reaches statement ⟨keyword.token, opening.token :: name.token :: brace.token :: later⟩
      (.broken ⟨brace.token, later⟩ [openHeaderError brace]) := by
  filter_upwards [eventually_ge_atTop 4] with n hn
  obtain ⟨n, rfl⟩ := Nat.exists_eq_add_of_le' hn
  have hbrace := kind_tokenOf brace later
  have hname : expression (n + 2) 0 ⟨name.token, brace.token :: later⟩ =
      .done (.name name.token name.token.lexeme) ⟨brace.token, later⟩ [] := by
    have hoperand : operand (n + 1) ⟨name.token, brace.token :: later⟩ =
        .done (.name name.token name.token.lexeme) ⟨brace.token, later⟩ [] := by
      rw [operand_succ, kind_tokenOf name, next_tokenOf name (by decide)]
    have hsplit := Cursor.splitSigned_of_kind (c := ⟨brace.token, later⟩) (by simp [hbrace])
      (by simp [hbrace])
    rw [expression_succ, bind_of_done hoperand, operators_succ, hsplit, hbrace,
      if_pos (show Kind.strength .openBrace ≤ 0 from Nat.le_refl 0)]
  have hconditional : conditional (n + 3)
      ⟨keyword.token, opening.token :: name.token :: brace.token :: later⟩ =
      .broken ⟨brace.token, later⟩ [openHeaderError brace] := by
    rw [conditional_succ, next_tokenOf keyword (by decide),
      bind_of_done (expect_of_kind (kind_tokenOf opening _)), next_tokenOf opening (by decide),
      bind_of_done hname, bind_apply, expect_of_ne (by simp [hbrace])]
    rfl
  rw [statement_succ, kind_tokenOf keyword]
  dsimp only
  rw [bind_apply, hconditional]

/-- Behind the header the program is that of the tokens behind the next
boundary. -/
theorem parse_openHeader {ts : List Token} (last : TokenOf .eof)
    (hts : ∀ t ∈ ts, t.isEof = true ↔ t.kind = .eof) :
    parse (openHeader keyword opening name brace ++ (ts ++ [last.token])) =
      ⟨(parse (Token.resumption (ts ++ [last.token]))).program,
        openHeaderError brace :: (parse (Token.resumption (ts ++ [last.token]))).errors⟩ := by
  have hlast : last.token.isEof = true := last.isEof_eq
  have hmarked : ∀ t ∈ openHeader keyword opening name brace ++ (ts ++ [last.token]),
      t.isEof = true ↔ t.kind = .eof := by
    intro t ht
    simp only [openHeader, List.mem_append, List.mem_cons, List.not_mem_nil, or_false] at ht
    rcases ht with (rfl | rfl | rfl | rfl) | ht | rfl
    · simp [keyword.isEof_eq, keyword.kind_eq]
    · simp [opening.isEof_eq, opening.kind_eq]
    · simp [name.isEof_eq, name.kind_eq]
    · simp [brace.isEof_eq, brace.kind_eq]
    · exact hts t ht
    · simp [hlast, last.kind_eq]
  have hcursor : Cursor.ofTokens (openHeader keyword opening name brace ++ (ts ++ [last.token])) =
      ⟨keyword.token, opening.token :: name.token :: brace.token :: (ts ++ [last.token])⟩ := by
    refine Cursor.ext_tokens ?_
    rw [← List.append_assoc, Cursor.tokens_ofTokens, if_pos hlast]
    rfl
  have hclosed := Cursor.ofTokens_closed hmarked
  have hrest : (⟨brace.token, ts ++ [last.token]⟩ : Cursor).Closed := by
    have hnext := hclosed.next.next.next
    rwa [hcursor, next_tokenOf keyword (by decide), next_tokenOf opening (by decide),
      next_tokenOf name (by decide)] at hnext
  have hkind : (Cursor.ofTokens (openHeader keyword opening name brace ++
      (ts ++ [last.token]))).kind = .if_ := by
    rw [hcursor, kind_tokenOf]
  have hbroken := reaches_openHeader keyword opening name brace (ts ++ [last.token])
  rw [← hcursor] at hbroken
  have hresume : Token.resumption (brace.token :: (ts ++ [last.token])) =
      Token.resumption (ts ++ [last.token]) := by
    refine Token.resumption_inner ?_ ?_ ?_ <;> simp [brace.kind_eq]
  have hparse := parse_of_broken hclosed (by simp [hkind]) (by simp [hkind]) (by simp [hkind])
    hbroken hrest (List.cons_append (a := brace.token)).symm hlast
  rw [hparse, Cursor.tokens, hresume]
  rfl

/-- The header costs one error and takes the whole block with it. -/
def CostsBlock (body rest : List Token) : Prop :=
  parse (openHeader keyword opening name brace ++ (body ++ closing.token :: rest)) =
    ⟨(parse rest).program, openHeaderError brace :: (parse rest).errors⟩

/-- Statements without a tree are semicolons. -/
theorem Spells.semicolons {next : Kind} {ts : List Token} (h : Spells (.body [] next) ts) :
    ∀ t ∈ ts, t.kind = .semicolon := by
  generalize hφ : Phrase.body [] next = φ at h
  induction h with
  | done => exact List.forall_mem_nil _
  | gap ht _ ih => exact List.forall_mem_cons.mpr ⟨ht, ih hφ⟩
  | _ => cases hφ

/-- A stray closing brace in front of the end is not nothing. -/
theorem parse_stray {us : List Token} (last : TokenOf .eof)
    (hus : ∀ t ∈ us, t.isEof = false ∧ t.kind ≠ .eof) :
    parse (us ++ closing.token :: [last.token]) ≠ ⟨[], []⟩ := by
  intro hparse
  rw [List.append_cons] at hparse
  have hinner : ∀ t ∈ us ++ [closing.token], t.isEof = false ∧ t.kind ≠ .eof := by
    intro t ht
    rcases List.mem_append.mp ht with ht | ht
    · exact hus t ht
    · rw [List.mem_singleton.mp ht]
      exact Item.not_end closing (by decide)
  have hends : Token.EndsOnce (us ++ [closing.token] ++ [last.token]) := by
    refine ⟨fun t ht => ?_, _, _, rfl, last.kind_eq, fun t ht => (hinner t ht).2⟩
    rcases List.mem_append.mp ht with ht | ht
    · simp [hinner t ht]
    · simp [List.mem_singleton.mp ht, last.isEof_eq, last.kind_eq]
  obtain ⟨ts, t, hsplit, -, hspells⟩ := spellsProgram_of_parse hends (by rw [hparse])
  obtain ⟨rfl, -⟩ := List.append_inj' hsplit rfl
  rw [hparse] at hspells
  have hsemi := hspells.semicolons closing.token (by simp)
  rw [closing.kind_eq] at hsemi
  cases hsemi

variable {body : List Token}

theorem parse_openHeader_body (hbody : ∀ t ∈ body, t.isEof = false ∧ t.kind ≠ .eof)
    (rest : List Token) (last : TokenOf .eof) (hrest : ∀ t ∈ rest, t.isEof = true ↔ t.kind = .eof) :
    let left := Token.resumption (body ++ closing.token :: (rest ++ [last.token]))
    parse (openHeader keyword opening name brace ++
        (body ++ closing.token :: (rest ++ [last.token]))) =
      ⟨(parse left).program, openHeaderError brace :: (parse left).errors⟩ := by
  intro left
  have hassoc : body ++ closing.token :: (rest ++ [last.token]) =
      body ++ closing.token :: rest ++ [last.token] := by simp
  have hmarked : ∀ t ∈ body ++ closing.token :: rest, t.isEof = true ↔ t.kind = .eof := by
    intro t ht
    rcases List.mem_append.mp ht with ht | ht
    · simp [hbody t ht]
    · rcases List.mem_cons.mp ht with rfl | ht
      · simp [closing.isEof_eq, closing.kind_eq]
      · exact hrest t ht
  have hparse := parse_openHeader keyword opening name brace last hmarked
  rwa [← hassoc] at hparse

/-- Where a header breaks in front of its block, the program goes on behind the
next boundary. That is behind the whole block, whatever comes there, just when no
boundary stands inside its body. The body need not parse for this. -/
theorem parse_openHeader_block (hbody : ∀ t ∈ body, t.isEof = false ∧ t.kind ≠ .eof) :
    (∀ (rest : List Token) (last : TokenOf .eof), (∀ t ∈ rest, t.isEof = true ↔ t.kind = .eof) →
      let left := Token.resumption (body ++ closing.token :: (rest ++ [last.token]))
      parse (openHeader keyword opening name brace ++
          (body ++ closing.token :: (rest ++ [last.token]))) =
        ⟨(parse left).program, openHeaderError brace :: (parse left).errors⟩) ∧
      ((∀ (rest : List Token) (last : TokenOf .eof), (∀ t ∈ rest, t.isEof = true ↔ t.kind = .eof) →
        CostsBlock keyword opening name brace closing body (rest ++ [last.token])) ↔
          OneRun body) := by
  have hkinds : ∀ t ∈ body, t.kind ≠ .eof := fun t ht => (hbody t ht).2
  have hleft := parse_openHeader_body keyword opening name brace closing hbody
  refine ⟨hleft, fun hcosts => ?_, fun hrun rest last hrest => ?_⟩
  · -- at the end of input nothing may be left of the block
    by_contra hnot
    let last : TokenOf .eof := ⟨.endOfInput .start, rfl, rfl⟩
    obtain ⟨us, hus, hresume⟩ :=
      resumption_of_not_oneRun closing.token [last.token] hkinds hnot
    have hcost : CostsBlock keyword opening name brace closing body [last.token] :=
      hcosts [] last (List.forall_mem_nil _)
    have hend : parse [last.token] = ⟨[], []⟩ := rfl
    have hequal := (hleft [] last (List.forall_mem_nil _)).symm.trans hcost
    rw [List.nil_append, hresume, hend, Parsed.mk.injEq, List.cons.injEq] at hequal
    obtain ⟨hprogram, -, herrors⟩ := hequal
    exact parse_stray closing last (fun t ht => hbody t (hus.mem ht))
      (congrArg₂ Parsed.mk hprogram herrors)
  · have hparse := hleft rest last hrest
    rwa [resumption_of_oneRun closing.kind_eq hkinds hrun] at hparse

end Headers

/-! ## Two blocks -/

/-- A token of the first line. -/
def Token.inLine (k : Kind) (lexeme : Text) (column : Nat) : Token :=
  ⟨k, lexeme, ⟨0, column, column, 0⟩, ⟨0, column + lexeme.length, column + lexeme.length, 0⟩,
    lexeme.length, false, false⟩

/-- A body of one statement goes with its header. -/
theorem parse_openHeader_block_single :
    let keyword : TokenOf .if_ := ⟨.inLine .if_ (text "if") 0, rfl, rfl⟩
    let opening : TokenOf .openParen := ⟨.inLine .openParen (text "(") 3, rfl, rfl⟩
    let name : TokenOf .ident := ⟨.inLine .ident (text "x") 4, rfl, rfl⟩
    let brace : TokenOf .openBrace := ⟨.inLine .openBrace (text "\x7b") 6, rfl, rfl⟩
    let closing : TokenOf .closeBrace := ⟨.inLine .closeBrace (text "\x7d") 11, rfl, rfl⟩
    let body : List Token := [.inLine .integer (text "1") 8, .inLine .semicolon (text ";") 9]
    let rest : List Token := [.inLine .integer (text "2") 13, .inLine .semicolon (text ";") 14,
      .endOfInput ⟨0, 15, 15, 0⟩]
    (Token.scan (text "if (x \x7b 1; \x7d 2;")).1 =
        openHeader keyword opening name brace ++ (body ++ closing.token :: rest) ∧
      CostsBlock keyword opening name brace closing body rest ∧
      (parse rest).program.length = 1 := by
  intro keyword opening name brace closing body rest
  have hbody : ∀ t ∈ body, t.isEof = false ∧ t.kind ≠ .eof := by decide
  have hcosts := (parse_openHeader_block keyword opening name brace closing hbody).2.mpr (by decide)
  refine ⟨by decide +kernel, ?_, by decide +kernel⟩
  exact hcosts [.inLine .integer (text "2") 13, .inLine .semicolon (text ";") 14]
    ⟨.endOfInput ⟨0, 15, 15, 0⟩, rfl, rfl⟩ (by decide)

/-- Of a body of two statements, which is a block in its own right, the second one
stays as a statement of the program and the brace behind it as an error. -/
theorem not_costsBlock_two :
    let keyword : TokenOf .if_ := ⟨.inLine .if_ (text "if") 0, rfl, rfl⟩
    let opening : TokenOf .openParen := ⟨.inLine .openParen (text "(") 3, rfl, rfl⟩
    let name : TokenOf .ident := ⟨.inLine .ident (text "x") 4, rfl, rfl⟩
    let brace : TokenOf .openBrace := ⟨.inLine .openBrace (text "\x7b") 6, rfl, rfl⟩
    let closing : TokenOf .closeBrace := ⟨.inLine .closeBrace (text "\x7d") 14, rfl, rfl⟩
    let body : List Token := [.inLine .integer (text "1") 8, .inLine .semicolon (text ";") 9,
      .inLine .integer (text "2") 11, .inLine .semicolon (text ";") 12]
    let rest : List Token := [.inLine .integer (text "3") 16, .inLine .semicolon (text ";") 17,
      .endOfInput ⟨0, 18, 18, 0⟩]
    (Token.scan (text "if (x \x7b 1; 2; \x7d 3;")).1 =
        openHeader keyword opening name brace ++ (body ++ closing.token :: rest) ∧
      (parse (brace.token :: (body ++ [closing.token]))).errors = [] ∧
      (parse (brace.token :: (body ++ [closing.token]))).program.canonical =
        text "\x7b 1; 2; \x7d" ∧
      ¬ CostsBlock keyword opening name brace closing body rest := by
  intro keyword opening name brace closing body rest
  refine ⟨by decide +kernel, by decide +kernel, by decide +kernel, fun hcosts => ?_⟩
  have hlength : (parse (openHeader keyword opening name brace ++
      (body ++ closing.token :: rest))).errors.length = (parse rest).errors.length + 1 := by
    rw [hcosts, List.length_cons]
  revert hlength
  decide +kernel

end Scriptlet
