import Scriptlet.Eval.Program

/-!
# An evaluator that hands back pairs

Evaluation once more, as procedures that hand back two things, a value or none and
an error or none (`Reply`). Nothing in a pair keeps it from holding both or neither.
A procedure looks at the error, or at the error and at whether the value is on its
way out, and then hands the pair on as it is, makes one of its own, or goes on with
the value; so it can come to go on with none. To ask no value for its kind is an
outcome of its own (`Run.crashed`).

Five operations work on operands. They are not called by name but through a record
(`Operations`), so that others can be put in their places. `Operations.standard` are
the real ones, and each of them notes its operands before it does anything else. The
state keeps these notes, and what was announced.
-/

namespace Scriptlet.Paired

structure Reply where
  value : Option Value
  error : Option RuntimeError

/-- An operation with what it is applied to. `mismatch` is the making of an error
that names the kinds of two operands. -/
inductive Application where
  | unary (op : Token) (operand : Option Value)
  | integers (op : Token) (left right : Int64)
  | floats (kind : Kind) (left right : Float)
  | equal (left right : Option Value)
  | mismatch (op : Token) (left right : Option Value)

def Application.operands : Application → List (Option Value)
  | unary _ operand => [operand]
  | integers _ left right => [some (.integer left), some (.integer right)]
  | floats _ left right => [some (.float left), some (.float right)]
  | equal left right => [left, right]
  | mismatch _ left right => [left, right]

/-! ## Tasks -/

structure State where
  announced : List (Text × Option Value)
  applied : List Application

def State.start : State := ⟨[], []⟩

inductive Run (α : Type) where
  | ends (value : α) (state : State)
  | crashed

def Task (α : Type) : Type := State → Run α

namespace Task

variable {α β : Type}

def done (value : α) : Task α := fun s => .ends value s

def andThen (p : Task α) (f : α → Task β) : Task β := fun s =>
  match p s with
  | .ends value s' => f value s'
  | .crashed => .crashed

instance : Monad Task where
  pure := done
  bind := andThen

end Task

def give (v : Value) : Task Reply := pure ⟨some v, none⟩

def refuse (err : RuntimeError) : Task Reply := pure ⟨none, some err⟩

def announce (word : Text) (v : Option Value) : Task Unit := fun s =>
  .ends () { s with announced := s.announced ++ [(word, v)] }

def note (a : Application) : Task Unit := fun s =>
  .ends () { s with applied := s.applied ++ [a] }

/-- The value, which must be there to be asked anything. -/
def demand : Option Value → Task Value
  | some v => pure v
  | none => fun _ => .crashed

def truthy (v : Option Value) : Bool := Value.countsAsTrue (v.bind Value.unwrap)

def isReturn : Option Value → Bool
  | some v => !v.isPlain
  | none => false

/-! ## Operations -/

structure Operations where
  unary : Token → Option Value → Task Reply
  integers : Token → Int64 → Int64 → Task Reply
  /-- The flag tells whether there is such an operation. -/
  floats : Kind → Float → Float → Task (Option Value × Bool)
  equal : Option Value → Option Value → Task Bool
  mismatch : Token → Option Value → Option Value → Task RuntimeError

namespace Operations

def standardUnary (op : Token) (right : Option Value) : Task Reply := do
  note (.unary op right)
  match op.kind, right with
  | .not, _ => give (.boolean !truthy right)
  | .minus, some (.integer n) => give (.integer (-n))
  | .minus, some (.float x) => give (.float (-x))
  | _, _ =>
      let v ← demand right
      refuse (.typeMismatch op.start op.lexeme none v.kind)

def standardMismatch (op : Token) (left right : Option Value) : Task RuntimeError := do
  note (.mismatch op left right)
  let a ← demand left
  let b ← demand right
  pure (.typeMismatch op.start op.lexeme (some a.kind) b.kind)

def standardIntegers (op : Token) (a b : Int64) : Task Reply := do
  note (.integers op a b)
  match op.kind with
  | .plus => give (.integer (a + b))
  | .minus => give (.integer (a - b))
  | .star => give (.integer (a * b))
  | .slash => if b = 0 then refuse (.divisionByZero op.start) else give (.integer (a / b))
  | .and => give (.integer (a &&& b))
  | .or => give (.integer (a ||| b))
  | .less => give (.boolean (a < b))
  | .greater => give (.boolean (b < a))
  | .lessEqual => give (.boolean (a ≤ b))
  | .greaterEqual => give (.boolean (b ≤ a))
  | _ =>
      let err ← standardMismatch op (some (.integer a)) (some (.integer b))
      refuse err

def standardFloats (kind : Kind) (a b : Float) : Task (Option Value × Bool) := do
  note (.floats kind a b)
  match kind with
  | .plus => pure (some (.float (a + b)), true)
  | .minus => pure (some (.float (a - b)), true)
  | .star => pure (some (.float (a * b)), true)
  | .slash => pure (some (.float (a / b)), true)
  | .less => pure (some (.boolean (a < b)), true)
  | .greater => pure (some (.boolean (a > b)), true)
  | .lessEqual => pure (some (.boolean (a ≤ b)), true)
  | .greaterEqual => pure (some (.boolean (a ≥ b)), true)
  | _ => pure (none, false)

def standardEqual (left right : Option Value) : Task Bool := do
  note (.equal left right)
  let a ← demand left
  let b ← demand right
  pure (Value.equal a b)

def standard : Operations :=
  ⟨standardUnary, standardIntegers, standardFloats, standardEqual, standardMismatch⟩

/-- The same operations wherever all operands are plain values. What they do with no
value, or with one on its way out, is not compared. -/
structure AgreeOnPlain (ops ops' : Operations) : Prop where
  unary : ∀ op v, v.isPlain = true → ops.unary op (some v) = ops'.unary op (some v)
  integers : ∀ op a b, ops.integers op a b = ops'.integers op a b
  floats : ∀ kind a b, ops.floats kind a b = ops'.floats kind a b
  equal : ∀ a b, a.isPlain = true → b.isPlain = true →
    ops.equal (some a) (some b) = ops'.equal (some a) (some b)
  mismatch : ∀ op a b, a.isPlain = true → b.isPlain = true →
    ops.mismatch op (some a) (some b) = ops'.mismatch op (some a) (some b)

end Operations

variable (ops : Operations)

def mismatched (op : Token) (left right : Option Value) : Task Reply := do
  let err ← ops.mismatch op left right
  refuse err

/-- An operator of arithmetic or order. -/
def numbers (op : Token) (left right : Option Value) : Task Reply :=
  match left, right with
  | some (.integer a), some (.integer b) => ops.integers op a b
  | _, _ =>
      match left.bind Value.toFloat?, right.bind Value.toFloat? with
      | some a, some b => do
          let (v, found) ← ops.floats op.kind a b
          if found then pure ⟨v, none⟩ else mismatched ops op left right
      | _, _ => mismatched ops op left right

/-- The operator between two operands that are both evaluated. -/
def binary (op : Token) (left right : Option Value) : Task Reply :=
  match op.kind with
  | .andAnd => give (.boolean (truthy right))
  | .orOr => give (.boolean (truthy right))
  | .equal => do
      let same ← ops.equal left right
      give (.boolean same)
  | .notEqual => do
      let same ← ops.equal left right
      give (.boolean !same)
  | _ => numbers ops op left right

/-! ## Trees -/

/-- Whether a reply is handed on as it is: with an error in it, or with a value on its
way out. -/
def Reply.passes (r : Reply) : Bool := r.error.isSome || isReturn r.value

/-- Goes on with the value of a reply, unless it is handed on. -/
def handOn (t : Task Reply) (f : Option Value → Task Reply) : Task Reply := do
  let r ← t
  if r.passes then pure r else f r.value

/-- Goes on behind a statement. Unlike in `handOn`, an error is handed on without the
value next to it. -/
def sequel (t : Task Reply) (f : Option Value → Task Reply) : Task Reply := do
  let r ← t
  match r.error with
  | some err => refuse err
  | none => if isReturn r.value then pure ⟨r.value, none⟩ else f r.value

/-- Wraps the value of a reply for its way out. -/
def returning (t : Task Reply) : Task Reply := do
  let r ← t
  match r.error with
  | some err => refuse err
  | none => give (.wrap r.value)

mutual

def expr : Expr → Task Reply
  | .missing => refuse (.unsupported none)
  | .name token word => refuse (.unsupported (some (.expr (.name token word))))
  | .integer _ n => give (.integer n)
  | .float _ x => give (.float x)
  | .boolean _ b => give (.boolean b)
  | .string _ s => give (.string s)
  | .unary op right => handOn (expr right) fun v => ops.unary op v
  | .binary left op right =>
      handOn (expr left) fun a =>
        if op.kind = .andAnd && !truthy a then give (.boolean false)
        else if op.kind = .orOr && truthy a then give (.boolean true)
        else handOn (expr right) fun b => binary ops op a b
  | .conditional choice => conditional choice
  | .call callee opening args closing =>
      refuse (.unsupported (some (.expr (.call callee opening args closing))))

def conditional : Conditional → Task Reply
  | .mk keyword condition body otherwise =>
      match body with
      | .missing =>
          refuse (.unsupported
            (some (.expr (.conditional (.mk keyword condition .missing otherwise)))))
      | .braces opening body closing empty =>
          handOn (expr condition) fun v =>
            if truthy v then block (.braces opening body closing empty) else alternative otherwise

def alternative : Alternative → Task Reply
  | .absent => give .null
  | .block body => block body
  | .chained next => conditional next

def block : Block → Task Reply
  | .missing => refuse (.unsupported none)
  | .braces _ body _ _ => stmts (some .null) body

def stmt : Stmt → Task Reply
  | .missing => refuse (.unsupported none)
  | .binding _ _ word value =>
      handOn (expr value) fun v => do
        announce word v
        give .null
  | .returning _ .missing => give (.wrap (some .null))
  | .returning _ value => returning (expr value)
  | .block body => block body
  | .expr value => expr value

def stmts (last : Option Value) : List Stmt → Task Reply
  | [] => pure ⟨last, none⟩
  | s :: ss => sequel (stmt s) fun v => stmts v ss

end

def node : Node → Task Reply
  | .expr value => expr ops value
  | .stmt body => stmt ops body

/-! ## Programs -/

/-- What a program hands back. -/
structure Ending where
  value : Option Value
  stop : Option Stop

def interruption (watch : Watch) : Task (Option Interruption) := fun s =>
  .ends (watch.check s.announced.length) s

def program (watch : Watch) (last : Option Value) : Program → Task Ending
  | [] => pure ⟨last, none⟩
  | s :: ss => do
      match ← interruption watch with
      | some why => pure ⟨last, some (.interrupted why)⟩
      | none =>
          let r ← stmt ops s
          match r.error with
          | some err => pure ⟨last, some (.failed err)⟩
          | none =>
              if isReturn r.value then pure ⟨r.value.bind Value.unwrap, none⟩
              else program watch r.value ss

end Scriptlet.Paired
