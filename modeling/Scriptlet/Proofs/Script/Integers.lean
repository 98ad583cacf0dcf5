import Scriptlet.Proofs.Number.Sign
import Scriptlet.Proofs.Parse.BrokenHeader
import Scriptlet.Proofs.Script.Diagnostics

/-!
# Integer literals

`Literal s n` says that `s` is an integer literal, as it is written, and that `n`
is its decimal value: an optional minus and digits, with single underscores
between them. It knows of no range.

A literal is scanned as one token, sign and underscores and all
(`Literal.read_append`), and the reader of numbers finds its value
(`Literal.readInt?_numeral`). As a statement it is that number where 64 bits can
hold it, and one error at its place where they cannot (`Script.run_literal`). The
limits are not symmetric; the least integer can be written because the sign is read
together with the digits.

Printed integers are literals (`literal_ofInt`), so they read back as themselves.
-/

namespace Scriptlet

open Lexeme

/-! ## Literals and their values -/

/-- The digits `s`, with single underscores between them, stand for `n`. -/
inductive Numeral : Text → Nat → Prop where
  | one {c : UInt8} : Byte.isDigit c = true → Numeral [c] (Byte.digitValue c)
  | more {s : Text} {n : Nat} {c : UInt8} : Numeral s n → Byte.isDigit c = true →
      Numeral (s ++ [c]) (10 * n + Byte.digitValue c)
  | grouped {s : Text} {n : Nat} {c : UInt8} : Numeral s n → Byte.isDigit c = true →
      Numeral (s ++ [Byte.underscore, c]) (10 * n + Byte.digitValue c)

/-- The integer literal `s` stands for `n`. -/
inductive Literal : Text → Int → Prop where
  | unsigned {s : Text} {n : Nat} : Numeral s n → Literal s n
  | negative {s : Text} {n : Nat} : Numeral s n → Literal (Byte.minus :: s) (-n)

/-- From -2^63 up to 2^63 - 1. -/
def InRange (n : Int) : Prop := -9223372036854775808 ≤ n ∧ n ≤ 9223372036854775807

instance (n : Int) : Decidable (InRange n) := inferInstanceAs (Decidable (_ ∧ _))

theorem Number.fitsInt64_iff {n : Int} : fitsInt64 n = true ↔ InRange n := by
  simp only [fitsInt64, InRange, Int64.toInt_minValue, Int64.toInt_maxValue, Bool.and_eq_true,
    decide_eq_true_eq]
  omega

/-! ## Reading literals -/

namespace Numeral

variable {s : Text} {n : Nat}

theorem startsWithDigit_append (h : Numeral s n) (rest : Text) :
    startsWithDigit (s ++ rest) = true := by
  induction h generalizing rest with
  | one hc => exact hc
  | more _ _ ih | grouped _ _ ih =>
      rw [List.append_assoc]
      exact ih _

/-- The run of digits goes over all of them, and on with what is behind. -/
theorem digitRun_append (h : Numeral s n) (rest : Text) :
    digitRun (s ++ rest) = s ++ digitRun rest := by
  induction h generalizing rest with
  | one hc => simp [digitRun, hc]
  | more _ hc ih =>
      rw [List.append_assoc, ih]
      simp [digitRun, hc]
  | grouped _ hc ih =>
      rw [List.append_assoc, ih]
      simp [digitRun, startsWithDigit, hc]

/-- Without the underscores there are digits only, at least one, and their value is
the same. -/
theorem bare (h : Numeral s n) :
    startsWithDigit (s.filter (· != Byte.underscore)) = true ∧
      (s.filter (· != Byte.underscore)).all Byte.isDigit = true ∧
      Text.digitsValue (s.filter (· != Byte.underscore)) = n := by
  have hkept : ∀ {c : UInt8}, Byte.isDigit c = true → (c != Byte.underscore) = true := by
    intro c hc
    rw [bne_iff_ne]
    rintro rfl
    cases hc
  have hfirst : ∀ {s t : Text}, startsWithDigit s = true → startsWithDigit (s ++ t) = true := by
    intro s t hs
    cases s with
    | nil => cases hs
    | cons => exact hs
  induction h with
  | one hc => simp [hkept hc, hc, Text.digitsValue, startsWithDigit]
  | more _ hc ih | grouped _ hc ih =>
      obtain ⟨hstart, hall, rfl⟩ := ih
      simp [hkept hc, hc, hall, hfirst hstart, Text.digitsValue, List.foldl_append]

theorem readInt?_bare (h : Numeral s n) :
    Number.readInt? (s.filter (· != Byte.underscore)) = some n := by
  obtain ⟨hstart, hall, rfl⟩ := h.bare
  have hsome : (s.filter (· != Byte.underscore)).isEmpty = false := by
    cases hs : s.filter (· != Byte.underscore) with
    | nil =>
        rw [hs] at hstart
        cases hstart
    | cons => rfl
  rw [Number.readInt?, Number.takeSign_digit hstart]
  simp [hsome, hall, Number.signed]

end Numeral

namespace Literal

variable {s : Text} {n : Int}

theorem readInt?_numeral (h : Literal s n) :
    Number.readInt? (s.filter (· != Byte.underscore)) = some n := by
  cases h with
  | unsigned h => exact h.readInt?_bare
  | negative h => exact (Number.readInt?_minus h.bare.1 h.readInt?_bare).2

/-- A literal has the 64-bit value it stands for, or none. -/
theorem readInt64?_numeral (h : Literal s n) :
    Number.readInt64? (s.filter (· != Byte.underscore)) =
      if InRange n then some (Int64.ofInt n) else none := by
  rw [Number.readInt64?, h.readInt?_numeral, Option.bind_some]
  simp only [Number.fitsInt64_iff]

/-- A literal is read to its end, in front of anything that does not go on with
it. -/
theorem read_append (h : Literal s n) {rest : Text} (hrun : digitRun rest = [])
    (hfraction : fractionPart rest = []) : read (s ++ rest) = plain .integer s := by
  have hnumber : ∀ {s : Text} {n : Nat}, Numeral s n → number (s ++ rest) = plain .integer s := by
    intro s n h
    have hdigit := h.startsWithDigit_append rest
    have hwhole : wholePart (s ++ rest) = s := by
      have hsigned := Munch.wholePart_signed (Munch.mem_optional.mpr (Or.inl rfl)) hdigit
      rwa [List.nil_append, List.nil_append, h.digitRun_append, hrun, List.append_nil] at hsigned
    rw [number_eq, fractionOf, hwhole, List.drop_left, hfraction, List.append_nil]
    rfl
  cases h with
  | unsigned h => rw [read_digit (h.startsWithDigit_append rest), hnumber h]
  | negative h =>
      have hdigit := h.startsWithDigit_append rest
      rw [List.cons_append, read_minus hdigit, number_minus hdigit, hnumber h]
      rfl

theorem first (h : Literal s n) : ∃ c r, s = c :: r ∧ Byte.isLayout c = false := by
  cases h with
  | negative h => exact ⟨_, _, rfl, rfl⟩
  | unsigned h =>
      have hdigit := h.startsWithDigit_append []
      cases s with
      | nil => cases hdigit
      | cons c r => exact ⟨c, r, rfl, Byte.not_isLayout_of_isDigit hdigit⟩

end Literal

/-! ## Literals as statements -/

/-- The token of a literal at the start of a source. -/
def Token.literal (s : Text) : Token :=
  { kind := .integer, lexeme := s, start := .start, stop := Position.start.advance s,
    length := s.length, isEof := false, isInvalid := false }

/-- The semicolon behind a position. -/
def Token.semicolonAt (p : Position) : Token :=
  { kind := .semicolon, lexeme := text ";", start := p, stop := p.right, length := 1,
    isEof := false, isInvalid := false }

section Scan

variable {s : Text} {n : Int} (h : Literal s n)
include h

/-- A scanner at the start of a source takes the literal there. -/
theorem Literal.all_ofSource (rest : Text) (hrun : digitRun rest = [])
    (hfraction : fractionPart rest = []) :
    (Scanner.ofSource (s ++ rest)).all =
      (.literal s :: (Scanner.mk (Position.start.advance s) rest [] 0).all.1,
        (Scanner.mk (Position.start.advance s) rest [] 0).all.2) := by
  obtain ⟨c, r, hs, hc⟩ := h.first
  have hskip : (Scanner.ofSource (s ++ rest)).skipLayout = Scanner.ofSource (s ++ rest) := by
    refine Scanner.skipLayout_eq_self fun b w hb => ?_
    rw [Scanner.ofSource, hs, List.cons_append] at hb
    rwa [(List.cons.inj hb).1] at hc
  have hunread : (Scanner.ofSource (s ++ rest)).skipLayout.unread = c :: (r ++ rest) := by
    rw [hskip, Scanner.ofSource, hs, List.cons_append]
  have hread : read (c :: (r ++ rest)) = plain .integer s := by
    rw [← List.cons_append, ← hs, h.read_append hrun hfraction]
  rw [Scanner.all_of_more hunread, hskip, hread]
  simp [Scanner.place, Scanner.behind, Scanner.ofSource, plain, Token.literal]

theorem Literal.scan_alone :
    Token.scan s = ([.literal s, .endOfInput (Position.start.advance s)], []) := by
  have hend : (Scanner.mk (Position.start.advance s) [] [] 0).skipLayout.unread = [] := rfl
  have hall := h.all_ofSource [] rfl rfl
  rw [List.append_nil, Scanner.all_of_end hend] at hall
  rw [Token.scan, hall]
  rfl

theorem Literal.scan_statement :
    Token.scan (s ++ text ";") = ([.literal s, .semicolonAt (Position.start.advance s),
      .endOfInput (Position.start.advance s).right], []) := by
  have hmore : (Scanner.mk (Position.start.advance s) (text ";") [] 0).skipLayout.unread
      = [0x3b] := rfl
  have hend : (Scanner.mk (Position.start.advance s).right [] [] 0).skipLayout.unread = [] := rfl
  have hbehind : (Scanner.mk (Position.start.advance s) (text ";") [] 0).skipLayout.behind
      (read [0x3b]) = Scanner.mk (Position.start.advance s).right [] [] 0 := rfl
  have hall := h.all_ofSource (text ";") rfl rfl
  rw [Scanner.all_of_more hmore, hbehind, Scanner.all_of_end hend] at hall
  rw [Token.scan, hall]
  rfl

end Scan

open Phrase Scriptlet.Parser

theorem spellsProgram_integer {t last : Token} {us : List Token} {m : Int64}
    (hkind : t.kind = .integer) (hread : Number.readInt64? (numeral t) = some m)
    (hends : Ends us .eof) (hlast : last.kind = .eof) :
    SpellsProgram [.expr (.integer t m)] (t :: (us ++ [last])) := by
  have hexpr : Spells (.expr 0 (.integer t m)) [t] :=
    (Spells.integer hkind hread).weaken (Nat.zero_le _) (Nat.le_refl _)
  have hstmt : Spells (.stmt (.expr (.integer t m)) .eof) ([t] ++ us) :=
    .exprStmt hexpr (by rw [firstKind_cons, hkind]; rfl) hends
  have hbody : Spells (.body [.expr (.integer t m)] .eof) ([t] ++ us ++ []) := .more hstmt .done
  rw [List.append_nil] at hbody
  exact ⟨t :: us, last, rfl, hlast, hbody⟩

/-- A statement breaks off at an integer that has no value. -/
theorem reaches_outOfRange {c : Cursor} (hkind : c.kind = .integer)
    (hnone : Number.readInt64? (numeral c.current) = none) :
    Reaches statement c (.broken c [.blame c.current .integerOutOfRange]) := by
  filter_upwards [Filter.eventually_ge_atTop 3] with n hn
  obtain ⟨n, rfl⟩ := Nat.exists_eq_add_of_le' hn
  have hoperand : operand (n + 1) c = .broken c [.blame c.current .integerOutOfRange] := by
    rw [operand_succ, hkind]
    simp only [integer, hnone]
  rw [statement_succ, hkind]
  dsimp only
  rw [bind_apply, expression_succ, bind_apply, hoperand]

/-- The statement is dropped up to its semicolon, and nothing is left. -/
theorem parse_outOfRange {t semicolon : Token} {p : Position} (hkind : t.kind = .integer)
    (hnone : Number.readInt64? (numeral t) = none) (hsemicolon : semicolon.kind = .semicolon)
    (hends : Token.EndsOnce [t, semicolon, .endOfInput p]) :
    parse [t, semicolon, .endOfInput p] = ⟨[], [.blame t .integerOutOfRange]⟩ := by
  obtain ⟨htokens, hclosed⟩ := Cursor.ofTokens_spec hends
  have hcursor : Cursor.ofTokens [t, semicolon, .endOfInput p] =
      ⟨t, [semicolon, .endOfInput p]⟩ := Cursor.ext_tokens htokens
  have hk : (Cursor.ofTokens [t, semicolon, .endOfInput p]).kind = .integer := by
    rw [hcursor]
    exact hkind
  have hbroken : Reaches statement (Cursor.ofTokens [t, semicolon, .endOfInput p])
      (.broken (Cursor.ofTokens [t, semicolon, .endOfInput p]) [.blame t .integerOutOfRange]) := by
    rw [hcursor]
    exact reaches_outOfRange hkind hnone
  have hparse := parse_of_broken hclosed (by simp [hk]) (by simp [hk]) (by simp [hk]) hbroken
    hclosed (htokens.trans (List.append_assoc [t] [semicolon] [.endOfInput p]).symm) rfl
  have hresume : Token.resumption [t, semicolon, .endOfInput p] = [.endOfInput p] := by
    rw [Token.resumption_inner (by simp [hkind]) (by simp [hkind]) (by simp [hkind]),
      Token.resumption_semicolon hsemicolon]
    rfl
  have hrest : parse [.endOfInput p] = ⟨[], []⟩ := rfl
  rw [hparse, htokens, hresume, hrest]
  rfl

theorem Program.run_integer {watch : Watch} (hwatch : watch.check 0 = none) (t : Token)
    (m : Int64) : Program.run watch [.expr (.integer t m)] = ⟨some (.integer m), [], none⟩ := by
  simp only [Program.run, Program.runFrom, hwatch, Stmt.eval, Expr.eval, Evaluation.value,
    Value.isPlain, if_true, List.append_nil]

/-! ## Printed integers -/

theorem numeral_ofNat (n : Nat) : Numeral (Text.ofNat n) n := by
  have hdigit : ∀ d < 10, Byte.isDigit (UInt8.ofNat (Nat.digitChar d).toNat) = true ∧
      Byte.digitValue (UInt8.ofNat (Nat.digitChar d).toNat) = d := by decide
  induction n using Nat.strongRecOn with
  | ind n ih =>
      rcases Nat.lt_or_ge n 10 with hlt | hge
      · obtain ⟨hn, hvalue⟩ := hdigit n hlt
        have hone := Numeral.one hn
        have htext : Text.ofNat n = [UInt8.ofNat (Nat.digitChar n).toNat] := by
          rw [Text.ofNat, Nat.toDigits_of_lt_base hlt]
          rfl
        rwa [hvalue, ← htext] at hone
      · obtain ⟨hlast, hvalue⟩ := hdigit (n % 10) (Nat.mod_lt n (by decide))
        have hmore := (ih (n / 10) (by omega)).more hlast
        have htext : Text.ofNat n =
            Text.ofNat (n / 10) ++ [UInt8.ofNat (Nat.digitChar (n % 10)).toNat] := by
          rw [Text.ofNat, Nat.toDigits_of_base_le (by decide) hge, List.map_append]
          rfl
        rwa [hvalue, Nat.div_add_mod, ← htext] at hmore

theorem literal_ofInt (n : Int) : Literal (Text.ofInt n) n := by
  cases n with
  | ofNat n => exact .unsigned (numeral_ofNat n)
  | negSucc n => exact .negative (numeral_ofNat (n + 1))

theorem inRange_toInt (m : Int64) : InRange m.toInt := by
  have hle := m.le_toInt
  have hlt := m.toInt_lt
  unfold InRange
  omega

/-! ## Scripts -/

namespace Script

theorem program_of_scan {source : Text} {t last : Token} (us : List Token) {m : Int64}
    (hscan : Token.scan source = (t :: (us ++ [last]), [])) (hkind : t.kind = .integer)
    (hread : Number.readInt64? (numeral t) = some m) (hends : Ends us .eof)
    (hlast : last.kind = .eof) : program source = (some [.expr (.integer t m)], none) := by
  have hendsOnce := Token.endsOnce_scan source
  rw [hscan] at hendsOnce
  refine program_eq_some_iff.mpr ?_
  rw [hscan]
  exact ⟨rfl, parse_of_spellsProgram hendsOnce (spellsProgram_integer hkind hread hends hlast)⟩

theorem run_of_integer {source : Text} {t : Token} {m : Int64} {watch : Watch}
    (hprogram : program source = (some [.expr (.integer t m)], none))
    (hwatch : watch.check 0 = none) : run watch source = ⟨some (.integer m), [], none⟩ := by
  rw [run_of_program hprogram, Program.run_integer hwatch]
  rfl

/-- A literal as a statement is the integer it stands for, or out of range, and
printed integers read back. -/
theorem run_literal :
    (∀ {s : Text} {n : Int}, Literal s n → InRange n → ∃ m : Int64, m.toInt = n ∧
      program (s ++ text ";") = (some [.expr (.integer (.literal s) m)], none) ∧
      ∀ {watch : Watch}, watch.check 0 = none →
        run watch (s ++ text ";") = ⟨some (.integer m), [], none⟩) ∧
    (∀ {s : Text} {n : Int}, Literal s n → ¬ InRange n →
      program (s ++ text ";") = (some [], some (.problems
        [.grammatical (.blame (.literal s) .integerOutOfRange)])) ∧
      (ParseError.blame (.literal s) .integerOutOfRange).message =
        text "1:1: integer literal out of range: " ++ s) ∧
    ∀ (m : Int64) {watch : Watch}, watch.check 0 = none →
      run watch (Value.integer m).render = ⟨some (.integer m), [], none⟩ := by
  refine ⟨fun {s n} h hrange => ?_, fun {s n} h hrange => ?_, fun m {watch} hwatch => ?_⟩
  · have hread := h.readInt64?_numeral
    rw [if_pos hrange] at hread
    have hprogram := program_of_scan [_] h.scan_statement rfl hread (.semicolon rfl) rfl
    have hvalue : (Int64.ofInt n).toInt = n := by
      unfold InRange at hrange
      exact Int64.toInt_ofInt_of_le (by omega) (by omega)
    exact ⟨Int64.ofInt n, hvalue, hprogram, run_of_integer hprogram⟩
  · have hread := h.readInt64?_numeral
    rw [if_neg hrange] at hread
    have hends := Token.endsOnce_scan (s ++ text ";")
    rw [h.scan_statement] at hends
    have hparse := parse_outOfRange (t := .literal s) rfl hread rfl hends
    refine ⟨?_, ?_⟩
    · rw [program, h.scan_statement]
      dsimp only
      rw [hparse]
      rfl
    · have hplace : Position.start.render ++ text ": " ++ text "integer literal out of range: "
          = text "1:1: integer literal out of range: " := by decide
      rw [← hplace]
      exact (List.append_assoc _ _ s).symm
  · have h := literal_ofInt m.toInt
    have hread := h.readInt64?_numeral
    rw [if_pos (inRange_toInt m), Int64.ofInt_toInt] at hread
    exact run_of_integer (program_of_scan [] h.scan_alone rfl hread (.omitted (Or.inr rfl)) rfl)
      hwatch

/-- The least integer, and the number that is one too large once the minus is
gone. -/
theorem run_literal_limits :
    let least := text "-922337203685477580_8"
    let beyond := text "922337203685477580_8"
    Literal least (-9223372036854775808) ∧ InRange (-9223372036854775808) ∧
      Literal beyond 9223372036854775808 ∧ ¬ InRange 9223372036854775808 ∧
      (Value.integer Int64.minValue).render = text "-9223372036854775808" ∧
      program (least ++ text ";") =
        (some [.expr (.integer (.literal least) Int64.minValue)], none) ∧
      run .never (least ++ text ";") = ⟨some (.integer Int64.minValue), [], none⟩ ∧
      program (beyond ++ text ";") = (some [], some (.problems
        [.grammatical (.blame (.literal beyond) .integerOutOfRange)])) ∧
      run .never (text "-9223372036854775808") = ⟨some (.integer Int64.minValue), [], none⟩ := by
  intro least beyond
  have hdigits : Numeral beyond 9223372036854775808 := by
    have hgrouped := (numeral_ofNat 922337203685477580).grouped (c := 0x38) rfl
    rwa [show Text.ofNat 922337203685477580 ++ [Byte.underscore, 0x38] = beyond by decide +kernel]
      at hgrouped
  have hprinted : (Value.integer Int64.minValue).render = text "-9223372036854775808" := by
    decide +kernel
  obtain ⟨hin, hout, hback⟩ := run_literal
  have hleast : Literal least (-9223372036854775808) := .negative hdigits
  obtain ⟨m, hm, hprogram, hrun⟩ := hin hleast (by decide)
  obtain rfl : m = Int64.minValue := Int64.toInt_inj.mp (hm.trans (by decide))
  obtain ⟨hfailed, -⟩ := hout (.unsigned hdigits) (by decide)
  refine ⟨hleast, by decide, .unsigned hdigits, by decide, hprinted, hprogram, hrun rfl, hfailed,
    ?_⟩
  rw [← hprinted]
  exact hback Int64.minValue rfl

end Script

end Scriptlet
