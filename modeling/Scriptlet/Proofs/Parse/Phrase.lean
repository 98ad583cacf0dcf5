import Scriptlet.Parse.Program

/-!
# The grammar as a relation

`Spells φ ts` says that the tokens `ts`, all of them and no more, spell the
phrase `φ`: an expression of some level, a list of arguments, a conditional, a
block, a statement, or the statements of a block. It is a plain stratified
grammar. No operator strengths, no cursor and no splitting of tokens occur in
it: left nesting is left recursion, and a minus that is written together with
the number behind it has a rule of its own (`Spells.fused`).

The levels of expressions, weakest first: eight levels of operators between
two operands (`operatorsAt`), operators in front of an operand, calls, and
operands that need no parentheses.

Statements know the kind of the token that follows them, since a semicolon may
be left out in front of a closing brace and at the end of input (`Ends`).
-/

namespace Scriptlet

/-- What a run of tokens can spell. -/
inductive Phrase where
  | expr (level : Nat) (e : Expr)
  | args (es : List Expr)
  | conditional (choice : Conditional)
  | alternative (otherwise : Alternative)
  | block (b : Block)
  | stmt (s : Stmt) (next : Kind)
  | body (ss : List Stmt) (next : Kind)

namespace Phrase

/-- The operators of each binary level. -/
def operatorsAt : Nat → List Kind
  | 0 => [.orOr]
  | 1 => [.andAnd]
  | 2 => [.or]
  | 3 => [.and]
  | 4 => [.equal, .notEqual]
  | 5 => [.less, .greater, .lessEqual, .greaterEqual]
  | 6 => [.plus, .minus]
  | 7 => [.star, .slash]
  | _ => []

/-- The level of `+` and `-`. -/
abbrev sumLevel : Nat := 6

/-- The level of the operators `!` and `-` in front of an operand. -/
abbrev unaryLevel : Nat := 8

abbrev callLevel : Nat := 9

/-- Names, literals, parentheses and conditionals. -/
abbrev operandLevel : Nat := 10

/-- Kinds that start a statement of their own, so that an expression which
starts with one is no statement. -/
def startsStatement (k : Kind) : Bool :=
  k = .let_ || k = .return_ || k = .openBrace || k = .if_

/-- The kind of the first of `ts`, or of what follows them when there is
none. -/
def firstKind (ts : List Token) (next : Kind) : Kind := (ts.head?.map Token.kind).getD next

/-- The end of a statement, in front of a token of kind `next`. -/
inductive Ends : List Token → Kind → Prop where
  | semicolon {t : Token} {next : Kind} : t.kind = .semicolon → Ends [t] next
  | omitted {next : Kind} : next = .closeBrace ∨ next = .eof → Ends [] next

/-- A semicolon that may be left out anywhere. -/
inductive MayEnd : List Token → Prop where
  | semicolon {t : Token} : t.kind = .semicolon → MayEnd [t]
  | omitted : MayEnd []

end Phrase

open Phrase

inductive Spells : Phrase → List Token → Prop where
  -- operands
  | name {t : Token} : t.kind = .ident → Spells (.expr operandLevel (.name t t.lexeme)) [t]
  | integer {t : Token} {n : Int64} : t.kind = .integer →
      Number.readInt64? (Parser.numeral t) = some n →
      Spells (.expr operandLevel (.integer t n)) [t]
  | float {t : Token} {x : Float} : t.kind = .float →
      Number.readFloat? (Parser.numeral t) = some x →
      Spells (.expr operandLevel (.float t x)) [t]
  | string {t : Token} : t.kind = .string → Spells (.expr operandLevel (.string t t.lexeme)) [t]
  | yes {t : Token} : t.kind = .true_ → Spells (.expr operandLevel (.boolean t true)) [t]
  | no {t : Token} : t.kind = .false_ → Spells (.expr operandLevel (.boolean t false)) [t]
  | group {opening closing : Token} {e : Expr} {ts : List Token} : opening.kind = .openParen →
      Spells (.expr 0 e) ts → closing.kind = .closeParen →
      Spells (.expr operandLevel e) (opening :: (ts ++ [closing]))
  | choice {choice : Conditional} {ts : List Token} : Spells (.conditional choice) ts →
      Spells (.expr operandLevel (.conditional choice)) ts
  -- calls and operators
  | call {callee : Expr} {opening closing : Token} {args : List Expr} {fs ts : List Token} :
      Spells (.expr callLevel callee) fs → opening.kind = .openParen →
      Spells (.args args) ts → closing.kind = .closeParen →
      Spells (.expr callLevel (.call callee opening args closing))
        (fs ++ opening :: (ts ++ [closing]))
  | unary {op : Token} {e : Expr} {ts : List Token} : op.kind = .not ∨ op.kind = .minus →
      Spells (.expr unaryLevel e) ts → Spells (.expr unaryLevel (.unary op e)) (op :: ts)
  | binary {level : Nat} {op : Token} {left right : Expr} {ls rs : List Token} :
      op.kind ∈ operatorsAt level → Spells (.expr level left) ls →
      Spells (.expr (level + 1) right) rs →
      Spells (.expr level (.binary left op right)) (ls ++ op :: rs)
  | fused {t : Token} {left right : Expr} {ls rs : List Token} :
      Cursor.isSignedNumber t = true → Spells (.expr sumLevel left) ls →
      Spells (.expr (sumLevel + 1) right) (Cursor.unsignedOf t :: rs) →
      Spells (.expr sumLevel (.binary left (Cursor.minusOf t) right)) (ls ++ t :: rs)
  | tighter {level : Nat} {e : Expr} {ts : List Token} : level < operandLevel →
      Spells (.expr (level + 1) e) ts → Spells (.expr level e) ts
  -- arguments, with or without a comma behind the last one
  | noArgs : Spells (.args []) []
  | lastArg {e : Expr} {ts : List Token} : Spells (.expr 0 e) ts → Spells (.args [e]) ts
  | moreArgs {e : Expr} {comma : Token} {es : List Expr} {ts us : List Token} :
      Spells (.expr 0 e) ts → comma.kind = .comma → Spells (.args es) us →
      Spells (.args (e :: es)) (ts ++ comma :: us)
  -- conditionals
  | conditional {keyword opening closing : Token} {condition : Expr} {body : Block}
      {otherwise : Alternative} {ts us vs : List Token} : keyword.kind = .if_ →
      opening.kind = .openParen → Spells (.expr 0 condition) ts → closing.kind = .closeParen →
      Spells (.block body) us → Spells (.alternative otherwise) vs →
      Spells (.conditional (.mk keyword condition body otherwise))
        (keyword :: opening :: (ts ++ closing :: (us ++ vs)))
  | absent : Spells (.alternative .absent) []
  | otherwise {keyword : Token} {body : Block} {ts : List Token} : keyword.kind = .else_ →
      Spells (.block body) ts → Spells (.alternative (.block body)) (keyword :: ts)
  | chained {keyword : Token} {next : Conditional} {ts : List Token} : keyword.kind = .else_ →
      Spells (.conditional next) ts → Spells (.alternative (.chained next)) (keyword :: ts)
  -- blocks and lists of statements
  | block {opening closing : Token} {ss : List Stmt} {ts : List Token} :
      opening.kind = .openBrace → Spells (.body ss .closeBrace) ts → closing.kind = .closeBrace →
      Spells (.block (.braces opening ss closing ss.isEmpty)) (opening :: (ts ++ [closing]))
  | done {next : Kind} : Spells (.body [] next) []
  | gap {t : Token} {ss : List Stmt} {next : Kind} {ts : List Token} : t.kind = .semicolon →
      Spells (.body ss next) ts → Spells (.body ss next) (t :: ts)
  | more {s : Stmt} {ss : List Stmt} {next : Kind} {us ts : List Token} :
      Spells (.stmt s (firstKind ts next)) us → Spells (.body ss next) ts →
      Spells (.body (s :: ss) next) (us ++ ts)
  -- statements
  | binding {keyword name assign : Token} {value : Expr} {next : Kind} {ts us : List Token} :
      keyword.kind = .let_ → name.kind = .ident → assign.kind = .assign →
      Spells (.expr 0 value) ts → Ends us next →
      Spells (.stmt (.binding keyword name name.lexeme value) next)
        (keyword :: name :: assign :: (ts ++ us))
  | bareReturn {keyword : Token} {next : Kind} {us : List Token} : keyword.kind = .return_ →
      Ends us next → Spells (.stmt (.returning keyword .missing) next) (keyword :: us)
  | returning {keyword : Token} {value : Expr} {next : Kind} {ts us : List Token} :
      keyword.kind = .return_ → Spells (.expr 0 value) ts → Ends us next →
      Spells (.stmt (.returning keyword value) next) (keyword :: (ts ++ us))
  | blockStmt {b : Block} {next : Kind} {ts : List Token} : Spells (.block b) ts →
      Spells (.stmt (.block b) next) ts
  | choiceStmt {choice : Conditional} {next : Kind} {ts us : List Token} :
      Spells (.conditional choice) ts → MayEnd us →
      Spells (.stmt (.expr (.conditional choice)) next) (ts ++ us)
  | exprStmt {e : Expr} {next : Kind} {ts us : List Token} : Spells (.expr 0 e) ts →
      startsStatement (firstKind ts next) = false → Ends us next →
      Spells (.stmt (.expr e) next) (ts ++ us)

/-- A whole program: statements, and one end token behind them. -/
def SpellsProgram (p : Program) (tokens : List Token) : Prop :=
  ∃ body last, tokens = body ++ [last] ∧ last.kind = .eof ∧ Spells (.body p .eof) body

/-! ## Levels and operator strengths -/

theorem mem_operatorsAt {level : Nat} {k : Kind} :
    k ∈ operatorsAt level ↔ level < 8 ∧ k.strength = level + 1 := by
  match level with
  | 0 | 1 | 2 | 3 | 4 | 5 | 6 | 7 => cases k <;> decide
  | n + 8 =>
      have hlt : ¬ n + 8 < 8 := by omega
      simp [operatorsAt, hlt]

theorem strength_le (k : Kind) : k.strength ≤ 10 := by
  cases k <;> decide

/-- A phrase of a level is one of every weaker level. -/
theorem Spells.weaken {e : Expr} {ts : List Token} {level level' : Nat}
    (h : Spells (.expr level e) ts) (hle : level' ≤ level) (hmax : level ≤ 10) :
    Spells (.expr level' e) ts := by
  induction hle with
  | refl => exact h
  | step _ ih => exact ih (.tighter hmax h) (Nat.le_of_succ_le hmax)

end Scriptlet
