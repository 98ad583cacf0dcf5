import Scriptlet.Proofs.Eval.Cause
import Scriptlet.Proofs.Tree.ReadBack

/-!
# Scripts in canonical form

The canonical form of an accepted source is accepted again, as long as none of
its statements opens with a conditional that is called, and its program is the
one before with its signs folded and other positions (`program_canonical`).

Where no minus is in front of a digit there are no signs to fold, and the
program is the same up to positions. Folded signs do not change what a program
does, so the canonical form runs like its source. A conditional that is called
does not survive: its parentheses are not written, and at the start of a
statement it is taken for a statement of its own.
-/

namespace Scriptlet

open Phrase

/-! ## Programs -/

theorem lexes_program {p : Program} (h : ∀ s ∈ p, StmtReadsBack s) :
    ∃ ts, Lexes p.canonical ts [] ∧ ∀ next, Spells (.body p.foldSigns next) ts := by
  induction p with
  | nil => exact ⟨[], .done, fun _ => .done⟩
  | cons s ss ih =>
      obtain ⟨⟨ts, hprinted, hs⟩, hss⟩ := List.forall_mem_cons.mp h
      obtain ⟨us, hlexes, hbody⟩ := ih hss
      refine ⟨ts ++ us, ?_, fun next => .more (hs _) (hbody next)⟩
      cases ss with
      | nil =>
          have hlast := hprinted.lexes delimits_nil hlexes
          rwa [List.append_nil, ← Program.canonical_singleton] at hlast
      | cons s' ss =>
          rw [Program.canonical_cons_cons]
          exact hprinted.lexes (delimits_append (by decide) _) (.blank rfl hlexes)

theorem Token.alike_erase : Token.Alike Token.erase Token.erase where
  kind h := (Token.erase_eq_iff.mp h).1
  lexeme h := (Token.erase_eq_iff.mp h).2.1
  isEof h := (Token.erase_eq_iff.mp h).2.2.2.1
  minusOf _ _ := rfl
  unsignedOf h _ := by
    obtain ⟨hkind, hlexeme, hlength, hflags⟩ := Token.erase_eq_iff.mp h
    exact Token.erase_eq_iff.mpr ⟨hkind, congrArg List.tail hlexeme,
      congrArg (· - 1) hlength, hflags⟩

/-- The tokens of a text and the end of input behind them. -/
theorem Lexes.endsOnce {s : Text} {ts : List Token} (h : Lexes s ts []) :
    Token.EndsOnce (ts ++ [Token.endOfInput .start]) := by
  have hlegible : ∀ t ∈ ts, t.Legible := h.legible
  refine ⟨fun t ht => ?_, ts, _, rfl, rfl, fun t ht => (hlegible t ht).not_end.1⟩
  rcases List.mem_append.mp ht with ht | ht
  · simp [(hlegible t ht).not_end]
  · rw [List.mem_singleton.mp ht]
    decide

/-- A text made of tokens that spell a program is accepted, and its program is
that one at other positions. -/
theorem parse_of_lexes {s : Text} {ts : List Token} {p : Program} (h : Lexes s ts [])
    (hsp : Spells (.body p .eof) ts) :
    (parse (Token.scan s).1).errors = [] ∧
      (parse (Token.scan s).1).program.relabel Token.erase = p.relabel Token.erase := by
  obtain ⟨herrors, hprogram⟩ := parse_of_spellsProgram h.endsOnce ⟨ts, _, rfl, rfl, hsp⟩
  have hscan : (Token.scan s).1.map Token.erase
      = (ts ++ [Token.endOfInput .start]).map Token.erase := by
    rw [List.map_append]
    exact (scan_of_lexes h).1
  obtain ⟨hrelabel, hsame⟩ :=
    parse_relabel Token.alike_erase (Token.endsOnce_scan s) h.endsOnce hscan
  rw [herrors, List.map_nil, List.map_eq_nil_iff] at hsame
  rw [hprogram] at hrelabel
  exact ⟨hsame, hrelabel⟩

theorem Failure.ofProblems?_eq_none_iff {ps : List Problem} :
    Failure.ofProblems? ps = none ↔ ps = [] := by
  cases ps <;> simp [Failure.ofProblems?]

namespace Script

theorem program_eq_some_iff {source : Text} {p : Program} :
    program source = (some p, none) ↔ (Token.scan source).2 = [] ∧
      (parse (Token.scan source).1).errors = [] ∧ (parse (Token.scan source).1).program = p := by
  rw [program]
  rcases Token.scan source with ⟨ts, _ | ⟨e, es⟩⟩
  · simp [Failure.ofProblems?_eq_none_iff, and_comm]
  · simp

/-- The program of an accepted source is spelt by legible tokens. -/
theorem spells_program {source : Text} {p : Program} (h : program source = (some p, none)) :
    ∃ ts, (∀ t ∈ ts, t.Legible) ∧ Spells (.body p .eof) ts := by
  obtain ⟨hscan, herrors, rfl⟩ := program_eq_some_iff.mp h
  have hends := Token.endsOnce_scan source
  obtain ⟨body, last, htokens, hlast, hbody⟩ := spellsProgram_of_parse hends herrors
  obtain ⟨body', last', htokens', -, hbody'⟩ := hends.ended
  obtain ⟨rfl, -⟩ := Token.eq_of_ends (htokens'.symm.trans htokens) hbody' hlast
  refine ⟨body', fun t ht => ?_, hbody⟩
  exact legible_scan hscan t (by simp [htokens, ht]) (hbody' t ht)

theorem program_canonical {source : Text} {p : Program} (h : program source = (some p, none))
    (hplain : p.all (fun _ => true) Stmt.opensPlainly = true) :
    ∃ q, program p.canonical = (some q, none) ∧
      q.relabel Token.erase = p.foldSigns.relabel Token.erase := by
  obtain ⟨body, hlegible, hbody⟩ := spells_program h
  obtain ⟨ts, hlexes, hsp⟩ := lexes_program (readsBack_of_spells hbody hlegible hplain)
  obtain ⟨herrors', hrelabel⟩ := parse_of_lexes hlexes (hsp .eof)
  exact ⟨_, program_eq_some_iff.mpr ⟨(scan_of_lexes hlexes).2, herrors', rfl⟩, hrelabel⟩

/-- Reading undoes writing in canonical form. A minus in front of a digit would
come back as part of its number. -/
theorem program_canonical_eq {source : Text} {p : Program} (h : program source = (some p, none))
    (hminus : p.all Expr.keepsMinus (fun _ => true) = true)
    (hplain : p.all (fun _ => true) Stmt.opensPlainly = true) :
    ∃ q, program p.canonical = (some q, none) ∧
      q.relabel Token.erase = p.relabel Token.erase := by
  obtain ⟨q, hq, hrelabel⟩ := program_canonical h hplain
  rw [Program.foldSigns, Stmt.foldSignsAll_eq_self hminus] at hrelabel
  exact ⟨q, hq, hrelabel⟩

/-- Signs, calls, conditionals as operands, empty blocks and a string over two
lines. -/
theorem program_canonical_eq_mixed :
    let source := text ("let n = - -5-2*-3;; f(-n, \"a\nb\",)(!(x == -1.50)); \x7b \x7b\x7d if (n) "
      ++ "\x7b\x7d else if (-(y)) \x7b return \x7d else \x7b "
      ++ "1 <= (if (n&&true) \x7b 2; 3 \x7d) \x7d \x7d")
    let p := (parse (Token.scan source).1).program
    program source = (some p, none) ∧
      p.all Expr.keepsMinus (fun _ => true) = true ∧
      p.all (fun _ => true) Stmt.opensPlainly = true ∧
      p.canonical = text ("let n = ((--5) - (2 * -3));\nf((-n), \"a\nb\")((!(x == -1.50)));\n"
        ++ "\x7b \x7b\x7d if (n) \x7b\x7d else if ((-y)) \x7b return; \x7d else "
        ++ "\x7b (1 <= if ((n && true)) \x7b 2; 3; \x7d); \x7d \x7d") ∧
      ∃ q, program p.canonical = (some q, none) ∧
        q.relabel Token.erase = p.relabel Token.erase := by
  intro source p
  obtain ⟨hscan, herrors, hminus, hplain⟩ : (Token.scan source).2 = [] ∧
      (parse (Token.scan source).1).errors = [] ∧ p.all Expr.keepsMinus (fun _ => true) = true ∧
      p.all (fun _ => true) Stmt.opensPlainly = true := by
    decide +kernel
  have hprogram := program_eq_some_iff.mpr ⟨hscan, herrors, rfl⟩
  exact ⟨hprogram, hminus, hplain, by decide +kernel, program_canonical_eq hprogram hminus hplain⟩

/-! ## Runs -/

theorem run_of_program {source : Text} {p : Program} (h : program source = (some p, none))
    (watch : Watch) : run watch source =
      ⟨(p.run watch).value, (p.run watch).binds, (p.run watch).stop.map .ofStop⟩ := by
  rw [run, h]

/-- The canonical form runs like its source: it gives the same value, announces
the same bindings and fails for the same cause, if at all. -/
theorem run_canonical {source : Text} {p : Program} (h : program source = (some p, none))
    (hplain : p.all (fun _ => true) Stmt.opensPlainly = true) (watch : Watch) :
    (∃ q, program p.canonical = (some q, none)) ∧
      (run watch p.canonical).value = (run watch source).value ∧
      (run watch p.canonical).binds = (run watch source).binds ∧
      (run watch p.canonical).failure.map Failure.cause
        = (run watch source).failure.map Failure.cause := by
  obtain ⟨q, hq, hrelabel⟩ := program_canonical h hplain
  have hruns : (q.run watch).unplaced = (p.run watch).unplaced := calc
    (q.run watch).unplaced = ((q.relabel Token.erase).run watch).unplaced :=
      (Program.run_erase watch q).symm
    _ = ((p.foldSigns.relabel Token.erase).run watch).unplaced := by rw [hrelabel]
    _ = (p.foldSigns.run watch).unplaced := Program.run_erase watch p.foldSigns
    _ = (p.run watch).unplaced := Program.run_foldSigns watch p
  simp only [Run.unplaced, Prod.mk.injEq] at hruns
  rw [run_of_program hq, run_of_program h]
  exact ⟨⟨q, hq⟩, hruns⟩

/-- Signs are folded into numbers, one of them in a call that cannot be
evaluated. -/
theorem run_canonical_folded :
    let source := text "let a = - 4; let b = -(4)-1; - 5(if (true) \x7b1\x7d); let c = 0"
    let p := (parse (Token.scan source).1).program
    let e := run .never p.canonical
    p.canonical
        = text "let a = (-4);\nlet b = ((-4) - 1);\n(-5(if (true) \x7b 1; \x7d));\nlet c = 0;" ∧
      (program source = (some p, none) ∧ p.all (fun _ => true) Stmt.opensPlainly = true) ∧
      (∃ q, program p.canonical = (some q, none)) ∧ e.value = some .null ∧
      e.binds = [⟨text "a", .integer (-4)⟩, ⟨text "b", .integer (-5)⟩] ∧
      e.failure.map Failure.cause
        = some (.inl [⟨.unsupported, text "cannot evaluate call expression"⟩]) := by
  intro source p e
  obtain ⟨hscan, herrors, hplain⟩ : (Token.scan source).2 = [] ∧
      (parse (Token.scan source).1).errors = [] ∧
      p.all (fun _ => true) Stmt.opensPlainly = true := by
    decide +kernel
  have hprogram := program_eq_some_iff.mpr ⟨hscan, herrors, rfl⟩
  obtain ⟨haccepted, hvalue, hbinds, hfailure⟩ := run_canonical hprogram hplain .never
  refine ⟨by decide +kernel, ⟨hprogram, hplain⟩, haccepted, ?_⟩
  rw [hvalue, hbinds, hfailure]
  decide +kernel

/-- A conditional that is called is no expression any more at the start of a
statement in canonical form: this source ends with a value, and its canonical
form is refused. -/
theorem canonical_calledConditional :
    let source := text "return 7; (if (true) \x7b\x7d)();"
    let p := (parse (Token.scan source).1).program
    program source = (some p, none) ∧
      p.canonical = text "return 7;\nif (true) \x7b\x7d();" ∧
      (run .never source).value = some (.integer 7) ∧
      (run .never source).failure.map Failure.cause = none ∧
      (run .never p.canonical).value = none ∧
      (run .never p.canonical).failure.map Failure.cause
        = some (.inl [⟨.grammatical, text "expected expression, got ')'"⟩]) := by
  refine ⟨program_eq_some_iff.mpr ⟨by decide +kernel, by decide +kernel, rfl⟩, ?_⟩
  decide +kernel

end Script

end Scriptlet
