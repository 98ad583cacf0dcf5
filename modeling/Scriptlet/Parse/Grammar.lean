import Scriptlet.Number.Fraction
import Scriptlet.Parse.Outcome
import Scriptlet.Tree.Basic

/-!
# The grammar

Expressions are read by operator strength: an expression of strength `p` is an
operand followed by operators that bind more strongly than `p`, and an operator
reads its right operand at its own strength, so operators of one strength nest
to the left. A statement that breaks off inside a block is dropped up to the
next statement boundary and the block goes on.

All parsers take a bound on the steps they may nest; `Parse.Program` gives them
enough for the tokens at hand.
-/

namespace Scriptlet

/-- How strongly a token of this kind binds as an operator; zero for kinds that
do not continue an expression. -/
def Kind.strength : Kind → Nat
  | .orOr => 1
  | .andAnd => 2
  | .or => 3
  | .and => 4
  | .equal | .notEqual => 5
  | .less | .greater | .lessEqual | .greaterEqual => 6
  | .plus | .minus => 7
  | .star | .slash => 8
  | .openParen => 10
  | _ => 0

/-- How strongly an operator in front of its operand binds. -/
def unaryStrength : Nat := 9

namespace Parser

/-! ## Numbers -/

/-- The digits of a number literal without the underscores among them. -/
def numeral (t : Token) : Text := t.lexeme.filter (· != Byte.underscore)

def integer : Parser Expr := fun c =>
  match Number.readInt64? (numeral c.current) with
  | some n => .done (.integer c.current n) c.next []
  | none => .broken c [.blame c.current .integerOutOfRange]

def float : Parser Expr := fun c =>
  match Number.readFloat? (numeral c.current) with
  | some x => .done (.float c.current x) c.next []
  | none => .broken c [.blame c.current .invalidFloat]

/-! ## Ends of statements -/

/-- A statement ends with a semicolon, which may be left out before a closing
brace and at the end of input. -/
def endOfStatement : Parser Unit := do
  let k ← kind
  if k = .semicolon then advance
  else if k = .closeBrace || k = .eof then pure ()
  else complain (.expected (Kind.described .semicolon))

/-- Takes a semicolon if there is one. -/
def optionalSemicolon : Parser Unit := do
  if (← kind) = .semicolon then advance

/-! ## Expressions, blocks and statements -/

mutual

/-- An expression whose operators all bind more strongly than `strength`. -/
def expression : Nat → Nat → Parser Expr
  | 0, _ => exhausted
  | fuel + 1, strength => do
      let left ← operand fuel
      operators fuel strength left

/-- Extends an expression by the operators behind it. -/
def operators : Nat → Nat → Expr → Parser Expr
  | 0, _, _ => exhausted
  | fuel + 1, strength, left => do
      splitSigned
      let op ← current
      if op.kind.strength ≤ strength then pure left
      else if op.kind = .openParen then
        advance
        let args ← arguments fuel
        let closing ← expect .closeParen
        operators fuel strength (.call left op args closing)
      else
        advance
        let right ← expression fuel op.kind.strength
        operators fuel strength (.binary left op right)

/-- Arguments up to the closing parenthesis, which is left; a comma may stand
behind the last one. -/
def arguments : Nat → Parser (List Expr)
  | 0 => exhausted
  | fuel + 1 => do
      if (← atEnd) || (← kind) = .closeParen then pure []
      else
        let e ← expression fuel 0
        if (← kind) = .comma then
          advance
          let es ← arguments fuel
          pure (e :: es)
        else pure [e]

/-- A name, a literal, an expression in parentheses, a conditional, or an
operator in front of its operand. -/
def operand : Nat → Parser Expr
  | 0 => exhausted
  | fuel + 1 => do
      let t ← current
      match t.kind with
      | .ident =>
          advance
          pure (.name t t.lexeme)
      | .integer => integer
      | .float => float
      | .string =>
          advance
          pure (.string t t.lexeme)
      | .true_ =>
          advance
          pure (.boolean t true)
      | .false_ =>
          advance
          pure (.boolean t false)
      | .openParen =>
          advance
          let e ← expression fuel 0
          let _ ← expect .closeParen
          pure e
      | .not | .minus =>
          advance
          let right ← expression fuel unaryStrength
          pure (.unary t right)
      | .if_ =>
          let choice ← conditional fuel
          pure (.conditional choice)
      | _ => complain (.expected (text "expression"))

/-- A conditional, read from its keyword on. -/
def conditional : Nat → Parser Conditional
  | 0 => exhausted
  | fuel + 1 => do
      let keyword ← consume
      let _ ← expect .openParen
      let condition ← expression fuel 0
      let _ ← expect .closeParen
      let body ← block fuel
      let otherwise ← alternative fuel
      pure (.mk keyword condition body otherwise)

def alternative : Nat → Parser Alternative
  | 0 => exhausted
  | fuel + 1 => do
      if (← kind) = .else_ then
        advance
        if (← kind) = .if_ then
          let next ← conditional fuel
          pure (.chained next)
        else
          let body ← block fuel
          pure (.block body)
      else pure .absent

def block : Nat → Parser Block
  | 0 => exhausted
  | fuel + 1 => do
      let opening ← expect .openBrace
      let body ← blockBody fuel
      let closing ← expect .closeBrace
      pure (.braces opening body closing body.isEmpty)

/-- The statements up to the closing brace, which is left. A statement that
breaks off is dropped up to the next boundary. -/
def blockBody : Nat → Parser (List Stmt)
  | 0 => exhausted
  | fuel + 1 => fun c =>
      if c.atEnd || c.kind = .closeBrace then .done [] c []
      else if c.kind = .semicolon then blockBody fuel c.next
      else
        match statement fuel c with
        | .done s rest errors =>
            match blockBody fuel rest with
            | .done ss last more => .done (s :: ss) last (errors ++ more)
            | .broken last more => .broken last (errors ++ more)
            | .exhausted => .exhausted
        | .broken rest errors => (blockBody fuel rest.boundary).after errors
        | .exhausted => .exhausted

def statement : Nat → Parser Stmt
  | 0 => exhausted
  | fuel + 1 => do
      match ← kind with
      | .let_ =>
          let keyword ← consume
          let name ← expect .ident
          let _ ← expect .assign
          let value ← expression fuel 0
          endOfStatement
          pure (.binding keyword name name.lexeme value)
      | .return_ =>
          let keyword ← consume
          let k ← kind
          if k = .semicolon || k = .closeBrace || k = .eof then
            endOfStatement
            pure (.returning keyword .missing)
          else
            let value ← expression fuel 0
            endOfStatement
            pure (.returning keyword value)
      | .openBrace =>
          let body ← block fuel
          pure (.block body)
      | .if_ =>
          let choice ← conditional fuel
          optionalSemicolon
          pure (.expr (.conditional choice))
      | _ =>
          let value ← expression fuel 0
          endOfStatement
          pure (.expr value)

end

end Parser

end Scriptlet
