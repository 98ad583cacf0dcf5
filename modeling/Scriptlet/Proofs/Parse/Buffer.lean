import Scriptlet.Parse.Program

/-!
# A parser over a buffer

The grammar once more, as a program with a state: the tokens in a buffer, the
index of the one looked at, a flag that is up while a broken statement is being
left, and the errors reported so far. Nothing in it keeps the index inside the
buffer. A look outside is an outcome of its own (`Run.overrun`), and so is to
be out of steps (`Run.exhausted`).

The flag does what an exception would do. A parser that finds an error reports
it and raises the flag; everything behind it still runs, asks for the flag and
gives up. While the flag is up, no error is reported. `sync` lowers it at the
next boundary of a statement. A parser that gives up returns a missing part.

Splitting a signed number puts a token into the buffer at the place looked at.

The state also keeps a trail: what was looked at, with the buffer as it was
then, and where each turn of the two loops over statements began and ended.
-/

namespace Scriptlet.Buffered

/-! ## Tasks -/

inductive Event where
  | look (buffer : List Token) (index : Nat)
  /-- One turn of a loop over statements. -/
  | turn (first last : Nat)

structure State where
  buffer : List Token
  index : Nat
  panicking : Bool
  errors : List ParseError
  count : Nat
  trail : List Event

inductive Run (α : Type) where
  | ends (value : α) (state : State)
  | overrun
  | exhausted

def Task (α : Type) : Type := State → Run α

namespace Task

variable {α β : Type}

def done (value : α) : Task α := fun s => .ends value s

def andThen (p : Task α) (f : α → Task β) : Task β := fun s =>
  match p s with
  | .ends value s' => f value s'
  | .overrun => .overrun
  | .exhausted => .exhausted

instance : Monad Task where
  pure := done
  bind := andThen

end Task

variable {α : Type}

def exhausted : Task α := fun _ => .exhausted

/-- The token at the index. -/
def look : Task Token := fun s =>
  match s.buffer[s.index]? with
  | some t => .ends t { s with trail := s.trail ++ [.look s.buffer s.index] }
  | none => .overrun

def move : Task Unit := fun s => .ends () { s with index := s.index + 1 }

/-- Moves on, but not from an end token. -/
def next : Task Unit := do
  let t ← look
  if t.isEof then pure () else move

def consume : Task Token := do
  let t ← look
  next
  pure t

/-! ## Errors -/

def panicking : Task Bool := fun s => .ends s.panicking s

def calm : Task Unit := fun s => .ends () { s with panicking := false }

/-- Reports an error and raises the flag, unless it is up. -/
def report (e : ParseError) : Task Unit := fun s =>
  if s.panicking then .ends () s
  else .ends () { s with errors := s.errors ++ [e], count := s.count + 1, panicking := true }

def complain (complaint : Complaint) : Task Unit := do
  let t ← look
  report ⟨t.start, complaint, t⟩

/-- Does nothing while the flag is up. -/
def guarded (blank : α) (p : Task α) : Task α := do
  if ← panicking then pure blank else p

/-- The value, unless the flag is up by now. -/
def settle (blank value : α) : Task α := guarded blank (pure value)

def expect (k : Kind) : Task Token := do
  if ← panicking then look
  else
    let t ← look
    if t.kind = k then consume
    else
      complain (.expected k.described)
      look

/-- Skips at most `n` tokens to the next boundary of a statement. -/
def skip : Nat → Task Unit
  | 0 => exhausted
  | n + 1 => do
      let t ← look
      if t.isEof || t.kind == .closeBrace then pure ()
      else
        let t ← consume
        if t.kind == .semicolon then pure () else skip n

/-- The tokens from the index on, counted. -/
def remaining : Task Nat := fun s => .ends (s.buffer.length - s.index) s

def sync : Task Unit := do
  skip (← remaining)
  calm

/-! ## The parts of the grammar -/

/-- Puts two tokens in the place of the one at the index. -/
def replace (first second : Token) : Task Unit := fun s =>
  .ends () { s with buffer := (s.buffer.set s.index first).insertIdx (s.index + 1) second }

def splitSigned : Task Unit := do
  let t ← look
  if Cursor.isSignedNumber t then replace (Cursor.minusOf t) (Cursor.unsignedOf t) else pure ()

def integer : Task Expr := do
  let t ← look
  match Number.readInt64? (Parser.numeral t) with
  | some n =>
      next
      pure (.integer t n)
  | none =>
      report ⟨t.start, .integerOutOfRange, t⟩
      pure .missing

def float : Task Expr := do
  let t ← look
  match Number.readFloat? (Parser.numeral t) with
  | some x =>
      next
      pure (.float t x)
  | none =>
      report ⟨t.start, .invalidFloat, t⟩
      pure .missing

def group (inner : Task Expr) : Task Expr := do
  next
  let e ← inner
  let _ ← expect .closeParen
  settle .missing e

def unary (operand : Task Expr) : Task Expr := do
  let op ← consume
  let right ← operand
  settle .missing (.unary op right)

def binary (operand : Nat → Task Expr) (left : Expr) : Task Expr := do
  let op ← consume
  let right ← operand op.kind.strength
  settle .missing (.binary left op right)

def call (arguments : Task (List Expr)) (callee : Expr) : Task Expr := do
  let opening ← consume
  let args ← arguments
  let closing ← expect .closeParen
  settle .missing (.call callee opening args closing)

def endOfStatement : Task Unit := guarded () do
  let t ← look
  if t.kind = .semicolon then next
  else if t.kind = .closeBrace || t.kind = .eof then pure ()
  else complain (.expected (Kind.described .semicolon))

def closing (value : Task Expr) (finish : Expr → Stmt) : Task Stmt := do
  let e ← value
  endOfStatement
  settle .missing (finish e)

def binding (value : Task Expr) : Task Stmt := do
  let keyword ← consume
  let name ← expect .ident
  let _ ← expect .assign
  closing value fun e => .binding keyword name name.lexeme e

def returning (value : Task Expr) : Task Stmt := do
  let keyword ← consume
  let t ← look
  if t.kind = .semicolon || t.kind = .closeBrace || t.kind = .eof then
    endOfStatement
    pure (.returning keyword .missing)
  else closing value fun e => .returning keyword e

/-- A conditional that gave up ends its statement at once. -/
def choiceStatement (choice : Task (Option Conditional)) : Task Stmt := do
  match ← choice with
  | none => pure .missing
  | some c =>
      let t ← look
      if t.kind = .semicolon then next else pure ()
      pure (.expr (.conditional c))

/-! ## Loops over statements -/

/-- A statement, or nothing when it broke off and was recovered from. -/
def attempt (statement : Task Stmt) (recover : Task Unit) : Task (List Stmt) := do
  let s ← statement
  if ← panicking then
    recover
    pure []
  else pure [s]

def blockTurn (statement : Task Stmt) : Task (List Stmt) := do
  let t ← look
  if t.kind = .semicolon then
    next
    pure []
  else attempt statement sync

/-- The closing brace of a block that broke off has no block left to end. -/
def syncBrace : Task Unit := do
  sync
  let t ← look
  if t.kind = .closeBrace then next else pure ()

def programTurn (statement : Task Stmt) : Task (List Stmt) := do
  let t ← look
  if t.kind = .semicolon then
    next
    pure []
  else if t.kind = .closeBrace then
    complain .unexpected
    next
    calm
    pure []
  else attempt statement syncBrace

def here : Task Nat := fun s => .ends s.index s

def mark (first : Nat) : Task Unit := fun s =>
  .ends () { s with trail := s.trail ++ [.turn first s.index] }

/-- Puts a turn on the trail. -/
def marked (turn : Task α) : Task α := do
  let first ← here
  let value ← turn
  mark first
  pure value

/-! ## The grammar -/

mutual

def expression : Nat → Nat → Task Expr
  | 0, _ => guarded .missing exhausted
  | n + 1, strength => guarded .missing do
      let left ← operand n
      let e ← operators n strength left
      settle .missing e

def operators : Nat → Nat → Expr → Task Expr
  | 0, _, left => guarded left exhausted
  | n + 1, strength, left => guarded left do
      splitSigned
      let op ← look
      if op.kind.strength ≤ strength then pure left
      else if op.kind = .openParen then
        let e ← call (arguments n) left
        operators n strength e
      else
        let e ← binary (expression n) left
        operators n strength e

def arguments : Nat → Task (List Expr)
  | 0 => do
      let _ ← look
      guarded [] exhausted
  | n + 1 => do
      let t ← look
      guarded [] do
        if t.isEof || t.kind = .closeParen then pure []
        else
          let e ← expression n 0
          let t ← look
          if t.kind = .comma then
            next
            let es ← arguments n
            pure (e :: es)
          else pure [e]

def operand : Nat → Task Expr
  | 0 => exhausted
  | n + 1 => do
      let t ← look
      match t.kind with
      | .ident =>
          let t ← consume
          pure (.name t t.lexeme)
      | .integer => integer
      | .float => float
      | .string =>
          let t ← consume
          pure (.string t t.lexeme)
      | .true_ =>
          let t ← consume
          pure (.boolean t true)
      | .false_ =>
          let t ← consume
          pure (.boolean t false)
      | .openParen => group (expression n 0)
      | .not | .minus => unary (expression n unaryStrength)
      | .if_ =>
          let choice ← conditional n
          pure (choice.elim .missing .conditional)
      | _ =>
          complain (.expected (text "expression"))
          pure .missing

def conditional : Nat → Task (Option Conditional)
  | 0 => exhausted
  | n + 1 => do
      let keyword ← consume
      let _ ← expect .openParen
      let condition ← expression n 0
      let _ ← expect .closeParen
      let body ← block n
      guarded none do
        let otherwise ← alternative n
        pure (otherwise.map (.mk keyword condition body))

def alternative : Nat → Task (Option Alternative)
  | 0 => exhausted
  | n + 1 => do
      let t ← look
      if t.kind = .else_ then
        next
        let t ← look
        if t.kind = .if_ then
          let choice ← conditional n
          pure (choice.map .chained)
        else
          let body ← block n
          settle none (some (.block body))
      else pure (some .absent)

def block : Nat → Task Block
  | 0 => guarded .missing exhausted
  | n + 1 => guarded .missing do
      let opening ← expect .openBrace
      guarded .missing do
        let body ← blockBody n
        let closing ← expect .closeBrace
        settle .missing (.braces opening body closing body.isEmpty)

def blockBody : Nat → Task (List Stmt)
  | 0 => exhausted
  | n + 1 => do
      let t ← look
      if t.isEof || t.kind = .closeBrace then pure []
      else
        let ss ← marked (blockTurn (statement n))
        let more ← blockBody n
        pure (ss ++ more)

def statement : Nat → Task Stmt
  | 0 => guarded .missing exhausted
  | n + 1 => guarded .missing do
      let t ← look
      match t.kind with
      | .let_ => binding (expression n 0)
      | .return_ => returning (expression n 0)
      | .openBrace =>
          let body ← block n
          pure (.block body)
      | .if_ => choiceStatement (conditional n)
      | _ => closing (expression n 0) .expr

end

def statements : Nat → Task Program
  | 0 => exhausted
  | n + 1 => do
      let t ← look
      if t.isEof then pure []
      else
        let ss ← marked (programTurn (statement n))
        let more ← statements n
        pure (ss ++ more)

/-- A buffer with the tokens of a cursor, looked at from the first one on. -/
def State.load (c : Cursor) : State := ⟨c.current :: c.later, 0, false, [], 0, []⟩

end Scriptlet.Buffered
