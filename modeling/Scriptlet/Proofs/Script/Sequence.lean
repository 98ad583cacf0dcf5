import Scriptlet.Proofs.Parse.Placement
import Scriptlet.Proofs.Parse.Relabel
import Scriptlet.Proofs.Token.Shift

/-!
# Sources one below the other

A source that is free of errors and ends with a semicolon can stand above any
other: the statements of the two follow each other, and the second one gives the
tokens and errors that it gives alone, moved down (`parse_below`).

The semicolon is what makes the statements of the first source independent of
the second. A statement may leave it out in front of the end of its list only,
and a conditional without one takes an `else` that comes next. So what a
terminated list of statements is read as does not depend on the kind of the
token behind it (`Spells.body_next`), and `parse_append` follows from the way
such a list is read in front of another one.
-/

namespace Scriptlet

open Phrase Filter

/-! ## Terminated statements -/

theorem Phrase.terminated_of_getLast {ts : List Token} {t : Token} (h : ts.getLast? = some t)
    (hk : t.kind = .semicolon) : Terminated ts := by
  obtain ⟨us, rfl⟩ := List.getLast?_eq_some_iff.mp h
  rw [Terminated, lastKind_append]
  exact hk

/-- A semicolon that is not left out ends a statement in front of anything. -/
theorem Phrase.Ends.anywhere {us : List Token} {next prev : Kind} (h : Ends us next)
    (hprev : prev ≠ .semicolon) (hend : lastKind prev us = .semicolon) (next' : Kind) :
    Ends us next' := by
  cases h with
  | semicolon hk => exact .semicolon hk
  | omitted _ => exact absurd hend hprev

theorem Spells.stmt_next {s : Stmt} {next : Kind} {ts : List Token} (h : Spells (.stmt s next) ts)
    (hend : Terminated ts) (next' : Kind) : Spells (.stmt s next') ts := by
  rw [Terminated] at hend
  cases h with
  | binding hk hname hassign hsp hends =>
      rw [lastKind, lastKind, lastKind, lastKind_append] at hend
      exact .binding hk hname hassign hsp (hends.anywhere (hsp.lastKind_ne _) hend next')
  | bareReturn hk hends =>
      rw [lastKind, hk] at hend
      exact .bareReturn hk (hends.anywhere Kind.noConfusion hend next')
  | returning hk hsp hends =>
      rw [lastKind, lastKind_append] at hend
      exact .returning hk hsp (hends.anywhere (hsp.lastKind_ne _) hend next')
  | blockStmt hsp => exact .blockStmt hsp
  | choiceStmt hsp hmay => exact .choiceStmt hsp hmay
  | exprStmt hsp hstart hends =>
      rw [lastKind_append] at hend
      refine .exprStmt hsp ?_ (hends.anywhere (hsp.lastKind_ne _) hend next')
      obtain ⟨t, ts, rfl⟩ := List.exists_cons_of_ne_nil hsp.expr_ne_nil
      exact hstart

theorem Spells.body_next {next : Kind} (next' : Kind) : ∀ {ss : List Stmt} {ts : List Token},
    Spells (.body ss next) ts → Terminated ts → Spells (.body ss next') ts
  | _, _, .done, _ => .done
  | _, t :: _, .gap hk h, hend => .gap hk (h.body_next next' (hend.of_append [t]))
  | _, _, @Spells.more _ _ _ us ts hs h, hend => by
      refine .more ?_ (h.body_next next' (hend.of_append us))
      cases ts with
      | nil =>
          rw [List.append_nil] at hend
          exact hs.stmt_next hend next'
      | cons t ts => exact hs

/-! ## Lists of tokens one behind the other -/

theorem parse_append {p : Program} {ts us : List Token} (hsp : Spells (.body p .eof) ts)
    (hend : Terminated ts) (hus : Token.EndsOnce us) (hwhole : Token.EndsOnce (ts ++ us)) :
    parse (ts ++ us) = ⟨p ++ (parse us).program, (parse us).errors⟩ := by
  obtain ⟨htok, hclosed⟩ := Cursor.ofTokens_spec hus
  obtain ⟨htok', hclosed'⟩ := Cursor.ofTokens_spec hwhole
  obtain ⟨rest, hrun⟩ := parse_eq_statements hclosed
  have hsecond : Parser.Reaches Parser.statements (Cursor.ofTokens us)
      (.done (parse us).program rest (parse us).errors) := by
    filter_upwards [eventually_ge_atTop (Cursor.ofTokens us).budget] with n hn
    rw [Parser.stable_of_below Parser.below_statements_succ hn (by simp [hrun]), hrun]
  have hparses : Parser.ParsesBody p (Cursor.ofTokens us).kind ts :=
    Parser.parses_of_spells (hsp.body_next _ hend)
  have hsplit : (Cursor.ofTokens (ts ++ us)).tokens = ts ++ (Cursor.ofTokens us).tokens := by
    rw [htok', htok]
  exact parse_of_reaches hwhole
    (hparses Parser.readsLists_statements hclosed' hclosed hsplit rfl (fun _ => hend) hsecond)

/-! ## Programs further down -/

def ParseError.shift (d : Shift) (e : ParseError) : ParseError :=
  ⟨e.start.shift d, e.complaint, e.got.shift d⟩

theorem Token.alike_shift (d : Shift) : Alike (shift d) id where
  kind := by
    rintro t _ rfl
    rfl
  lexeme := by
    rintro t _ rfl
    rfl
  isEof := by
    rintro t _ rfl
    rfl
  minusOf := by
    rintro t _ rfl _
    simp only [Cursor.minusOf, shift, Position.right_shift, id]
  unsignedOf := by
    rintro t _ rfl _
    simp only [Cursor.unsignedOf, shift, Position.right_shift, id]

theorem Scanner.parse_shift {s : Scanner} {d : Shift} {source source' : Text} (h : s.On source)
    (h' : (s.shift d).On source') :
    parse (s.shift d).all.1 = ⟨(parse s.all.1).program.relabel (Token.shift d),
      (parse s.all.1).errors.map (ParseError.shift d)⟩ := by
  have htokens : s.all.1.map (Token.shift d) = (s.shift d).all.1.map id := by
    rw [all_shift, List.map_id]
  obtain ⟨hprogram, herrors⟩ := parse_relabel (Token.alike_shift d) (tiles_all h).endsOnce
    (tiles_all h').endsOnce htokens
  -- an error stands where the token stands that it is about, so the tokens tell the errors
  have hmoved : ∀ e ∈ (parse s.all.1).errors, e.relabel (Token.shift d) = e.shift d := by
    intro e he
    rw [ParseError.relabel, ParseError.blame, ParseError.shift, ((parse_row h).2 e he).1]
    rfl
  have hsame : ∀ e ∈ (parse (s.shift d).all.1).errors, e.relabel id = e := by
    intro e he
    have hstart := ((parse_row h').2 e he).1
    rw [ParseError.relabel, ParseError.blame, id, ← hstart]
  rw [List.map_congr_left hmoved, List.map_congr_left hsame, List.map_id'] at herrors
  rw [hprogram, herrors, Program.relabel, Stmt.relabelAll_id]

/-! ## Sources one below the other -/

/-- The tokens of a source are parsed alike where they stand below another
source. -/
theorem parse_moved {first : Text} (hscan : (Token.scan first).2 = []) (second : Text) :
    let d : Shift := ⟨first.count Byte.newline + 1, first.length + 1⟩
    Token.EndsOnce ((Token.scan second).1.map (Token.shift d)) ∧
    parse ((Token.scan second).1.map (Token.shift d)) =
      ⟨(parse (Token.scan second).1).program.relabel (Token.shift d),
        (parse (Token.scan second).1).errors.map (ParseError.shift d)⟩ := by
  intro d
  have hmoved : ((Scanner.ofSource second).shift d).all.1
      = (Token.scan second).1.map (Token.shift d) :=
    congrArg Prod.fst (Scanner.all_shift d (.ofSource second))
  -- a scanner on the whole source takes these tokens
  have hon := Token.on_scannerBehind first Byte.newline second
  rw [Token.scannerBehind_newline hscan] at hon
  rw [← hmoved]
  exact ⟨(Scanner.tiles_all hon).endsOnce, Scanner.parse_shift (Scanner.on_ofSource second) hon⟩

/-- The statements of a source below another one follow those of the other,
and nothing but their places tells them or their errors from those of the source
alone. -/
theorem parse_below {first : Text} (hscan : (Token.scan first).2 = [])
    (hparse : (parse (Token.scan first).1).errors = [])
    (hlast : ∃ t, ((Token.scan first).1.filter (!·.isEof)).getLast? = some t ∧
      t.kind = .semicolon) (second : Text) :
    let tokens := (Token.scan (first ++ Byte.newline :: second)).1
    let d : Shift := ⟨first.count Byte.newline + 1, first.length + 1⟩
    tokens = (Token.scan first).1.filter (!·.isEof) ++ (Token.scan second).1.map (Token.shift d) ∧
    (Token.scan (first ++ Byte.newline :: second)).2
      = (Token.scan second).2.map (ScanError.shift d) ∧
    (parse tokens).program = (parse (Token.scan first).1).program ++
      (parse (Token.scan second).1).program.relabel (Token.shift d) ∧
    (parse tokens).errors = (parse (Token.scan second).1).errors.map (ParseError.shift d) := by
  intro tokens d
  have hfirst := Token.endsOnce_scan first
  obtain ⟨body, last, hsplit, -, hsp⟩ := spellsProgram_of_parse hfirst hparse
  have hbody : (Token.scan first).1.filter (!·.isEof) = body := by
    rw [hfirst.filter_eq, hsplit, List.dropLast_concat]
  have hbelow := Token.scan_below hscan second
  rw [← hfirst.filter_eq, hbody] at hbelow
  have htokens : tokens = body ++ (Token.scan second).1.map (Token.shift d) :=
    congrArg Prod.fst hbelow
  refine ⟨by rw [htokens, hbody], congrArg Prod.snd hbelow, ?_⟩
  obtain ⟨hends, hsecond⟩ := parse_moved hscan second
  have hwhole : Token.EndsOnce (body ++ (Token.scan second).1.map (Token.shift d)) :=
    htokens ▸ Token.endsOnce_scan _
  obtain ⟨t, ht, hk⟩ := hlast
  rw [hbody] at ht
  rw [htokens, parse_append hsp (terminated_of_getLast ht hk) hends hwhole, hsecond]
  exact ⟨rfl, rfl⟩

/-- A conditional that ends with a semicolon, above an `else` and a string
literal that is not closed. -/
theorem parse_below_else :
    let first := text "let s = \"a\nb\"; if (s) \x7b f(s-1) \x7d;"
    let second := text "else;\n  let t = 2-1; \"c"
    let tokens := (Token.scan (first ++ Byte.newline :: second)).1
    (Token.scan first).2 = [] ∧ (parse (Token.scan first).1).errors = [] ∧
    (∃ t, ((Token.scan first).1.filter (!·.isEof)).getLast? = some t ∧ t.kind = .semicolon) ∧
    (parse tokens).program = (parse (Token.scan first).1).program ++
      (parse (Token.scan second).1).program.relabel (Token.shift ⟨2, 34⟩) ∧
    (parse tokens).errors.map (·.start) = [⟨2, 0, 34, 34⟩, ⟨3, 15, 55, 40⟩] := by
  intro first second tokens
  have hscan : (Token.scan first).2 = [] := by decide +kernel
  have hparse : (parse (Token.scan first).1).errors = [] := by decide +kernel
  have hlast : (((Token.scan first).1.filter (!·.isEof)).getLast?.map Token.kind)
      = some .semicolon := by decide +kernel
  have hterminated := Option.map_eq_some_iff.mp hlast
  have hshift : (⟨first.count Byte.newline + 1, first.length + 1⟩ : Shift) = ⟨2, 34⟩ := by
    decide +kernel
  obtain ⟨-, -, hprogram, herrors⟩ := parse_below hscan hparse hterminated second
  rw [hshift] at hprogram herrors
  refine ⟨hscan, hparse, hterminated, hprogram, ?_⟩
  rw [herrors]
  decide +kernel

end Scriptlet
