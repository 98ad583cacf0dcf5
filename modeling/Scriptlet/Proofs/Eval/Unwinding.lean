import Scriptlet.Proofs.Eval.Cause

/-!
# Returns and errors are jumps

Evaluation hands a wrapped value or an error from each construct to the one
around it, and each of them has to let it pass. This module sets beside it an
evaluator in which there is nothing to pass: every construct is given what is
pending behind it as a function of its value, and `return` and failing
operations go to an exit of the program and drop that function
(`Expr.feed` and its siblings, `Program.execute`).

`Feeds f e` says that the evaluator `f` with continuations does what the
evaluation `e` tells. It is kept by each way of composing evaluations
(`feeds_andThen`, `feeds_returning`), so the induction over trees needs one
line for most constructs.
-/

namespace Scriptlet

/-! ## Evaluation with continuations -/

/-- Announces bindings ahead of a run. -/
def Run.announcing (binds : List Binding) (r : Run) : Run := { r with binds := binds ++ r.binds }

/-- The two ways out of a program, other than to its end. -/
structure Exits where
  leave : Value → Run
  abort : RuntimeError → Run

/-- Goes on with the value of an operation, or aborts. -/
def Exits.operate (x : Exits) (result : Result) (k : Value → Run) : Run :=
  match result with
  | .ok v => k v
  | .error e => x.abort e

mutual

/-- Evaluates an expression and feeds its value to what is pending. -/
def Expr.feed (x : Exits) : Expr → (Value → Run) → Run
  | .missing, _ => x.abort (.unsupported none)
  | .name token word, _ => x.abort (.unsupported (some (.expr (.name token word))))
  | .integer _ n, k => k (.integer n)
  | .float _ y, k => k (.float y)
  | .boolean _ b, k => k (.boolean b)
  | .string _ s, k => k (.string s)
  | .unary op right, k => right.feed x fun v => x.operate (Operator.unary op v) k
  | .binary left op right, k =>
      left.feed x fun a =>
        match op.kind with
        | .andAnd =>
            if a.isTruthy then right.feed x fun b => k (.boolean b.isTruthy)
            else k (.boolean false)
        | .orOr =>
            if a.isTruthy then k (.boolean true)
            else right.feed x fun b => k (.boolean b.isTruthy)
        | _ => right.feed x fun b => x.operate (Operator.binary op a b) k
  | .conditional choice, k => choice.feed x k
  | .call callee opening args closing, _ =>
      x.abort (.unsupported (some (.expr (.call callee opening args closing))))

def Conditional.feed (x : Exits) : Conditional → (Value → Run) → Run
  | .mk keyword condition body otherwise, k =>
      match body with
      | .missing =>
          x.abort (.unsupported
            (some (.expr (.conditional (.mk keyword condition .missing otherwise)))))
      | .braces _ stmts _ _ =>
          condition.feed x fun v =>
            if v.isTruthy then Stmt.feedAll x .null stmts k else otherwise.feed x k

def Alternative.feed (x : Exits) : Alternative → (Value → Run) → Run
  | .absent, k => k .null
  | .block body, k => body.feed x k
  | .chained next, k => next.feed x k

def Block.feed (x : Exits) : Block → (Value → Run) → Run
  | .missing, _ => x.abort (.unsupported none)
  | .braces _ body _ _, k => Stmt.feedAll x .null body k

/-- A `return` has no use for what is pending. -/
def Stmt.feed (x : Exits) : Stmt → (Value → Run) → Run
  | .missing, _ => x.abort (.unsupported none)
  | .binding _ _ word value, k => value.feed x fun v => (k .null).announcing [⟨word, v⟩]
  | .returning _ .missing, _ => x.leave .null
  | .returning _ value, _ => value.feed x x.leave
  | .block body, k => body.feed x k
  | .expr value, k => value.feed x k

def Stmt.feedAll (x : Exits) (last : Value) : List Stmt → (Value → Run) → Run
  | [], k => k last
  | s :: ss, k => s.feed x fun v => Stmt.feedAll x v ss k

end

/-- Runs statements after the value `last`. A value that leaves is that of the
program, and an error ends it with the value of the last statement that came
to its end. -/
def Program.execute (last : Value) : Program → Run
  | [] => ⟨some last, [], none⟩
  | s :: ss =>
      s.feed ⟨fun v => ⟨some v, [], none⟩, fun e => ⟨some last, [], some (.failed e)⟩⟩
        fun v => Program.execute v ss

/-! ## Evaluations told with continuations -/

@[simp] theorem Run.announcing_nil (r : Run) : r.announcing [] = r := rfl

@[simp] theorem Run.announcing_announcing (bs cs : List Binding) (r : Run) :
    (r.announcing cs).announcing bs = r.announcing (bs ++ cs) := by
  simp [Run.announcing]

namespace Evaluation

/-- Whether nothing that is pending comes to run any more. -/
def escapes (e : Evaluation) : Bool :=
  match e.result with
  | .ok v => !v.isPlain
  | .error _ => true

/-- What a run makes of an evaluation. -/
def resume (e : Evaluation) (x : Exits) (k : Value → Run) : Run :=
  Run.announcing e.binds <|
    match e.result with
    | .error err => x.abort err
    | .ok (.returned v) => x.leave v
    | .ok v => k v

theorem resume_of_plain {e : Evaluation} {v : Value} (h : e.result = .ok v)
    (hv : v.isPlain = true) (x : Exits) (k : Value → Run) :
    e.resume x k = (k v).announcing e.binds := by
  rw [resume, h]
  cases v <;> first | rfl | cases hv

/-- With continuations `f` does what `e` tells, and `e` is no wrapper around
nothing. -/
structure Feeds (f : Exits → (Value → Run) → Run) (e : Evaluation) : Prop where
  proper : e.result ≠ .ok .returnedNothing
  told : ∀ x k, f x k = e.resume x k

theorem feeds_value {v : Value} (hv : v.isPlain = true) :
    Feeds (fun _ k => k v) (.value v) where
  proper h := by
    obtain rfl := Except.ok.inj h
    cases hv
  told x k := (resume_of_plain (e := value v) rfl hv x k).symm

theorem feeds_error (err : RuntimeError) : Feeds (fun x _ => x.abort err) (.error err) :=
  ⟨nofun, fun _ _ => rfl⟩

theorem feeds_bind (word : Text) (v : Value) :
    Feeds (fun _ k => (k .null).announcing [⟨word, v⟩]) (.bind word v) :=
  ⟨nofun, fun _ _ => rfl⟩

theorem feeds_operate {result : Result} (h : ∀ v, result = .ok v → v.isPlain = true) :
    Feeds (fun x k => x.operate result k) ⟨[], result⟩ := by
  cases result with
  | error err => exact feeds_error err
  | ok v => exact feeds_value (h v rfl)

variable {f : Exits → (Value → Run) → Run} {e : Evaluation}

/-- A value that is proper and not plain is on its way out. -/
theorem Feeds.returned (hf : Feeds f e) {v : Value} (h : e.result = .ok v)
    (hv : v.isPlain = false) : ∃ content, v = .returned content := by
  cases v with
  | returned content => exact ⟨content, rfl⟩
  | returnedNothing => exact absurd h hf.proper
  | integer _ | float _ | boolean _ | string _ | null => cases hv

theorem feeds_andThen {g : Value → Exits → (Value → Run) → Run} {next : Value → Evaluation}
    (hf : Feeds f e) (hg : ∀ v, v.isPlain = true → Feeds (g v) (next v)) :
    Feeds (fun x k => f x fun v => g v x k) (e.andThen next) := by
  cases hresult : e.result with
  | error err =>
      rw [andThen_of_error hresult]
      refine ⟨hf.proper, fun x k => (hf.told x _).trans ?_⟩
      rw [resume, resume, hresult]
  | ok v =>
      cases hv : v.isPlain with
      | true =>
          rw [andThen_of_plain hresult hv]
          refine ⟨(hg v hv).proper, fun x k => (hf.told x _).trans ?_⟩
          rw [resume_of_plain hresult hv, (hg v hv).told, resume, resume,
            Run.announcing_announcing]
      | false =>
          obtain ⟨content, rfl⟩ := hf.returned hresult hv
          rw [andThen_of_wrapped hresult hv]
          refine ⟨hf.proper, fun x k => (hf.told x _).trans ?_⟩
          rw [resume, resume, hresult]

theorem feeds_returning (hf : Feeds f e) : Feeds (fun x _ => f x x.leave) e.returning := by
  cases hresult : e.result with
  | error err =>
      have hreturning : e.returning.result = .error err := by rw [returning, hresult]; rfl
      refine ⟨by simp [hreturning], fun x k => (hf.told x _).trans ?_⟩
      rw [resume, resume, hreturning, hresult]
      rfl
  | ok v =>
      cases hv : v.isPlain with
      | true =>
          have hreturning : e.returning.result = .ok (.returned v) := by
            rw [returning, hresult]
            simp [Except.map, Value.wrap, hv]
          refine ⟨by simp [hreturning], fun x k => (hf.told x _).trans ?_⟩
          rw [resume_of_plain hresult hv, resume, hreturning]
          rfl
      | false =>
          obtain ⟨content, rfl⟩ := hf.returned hresult hv
          have hreturning : e.returning.result = .ok (.returned content) := by
            rw [returning, hresult]
            rfl
          refine ⟨by simp [hreturning], fun x k => (hf.told x _).trans ?_⟩
          rw [resume, resume, hreturning, hresult]
          rfl

/-- Nothing that is pending matters to an evaluation that escapes. -/
theorem Feeds.of_escapes (hf : Feeds f e) (h : e.escapes = true) (x : Exits)
    (k k' : Value → Run) : f x k = f x k' := by
  rw [hf.told, hf.told, resume, resume]
  cases hresult : e.result with
  | error err => rfl
  | ok v =>
      have hv : v.isPlain = false := by simpa [escapes, hresult] using h
      obtain ⟨content, rfl⟩ := hf.returned hresult hv
      rfl

end Evaluation

/-! ## Operators give plain values -/

namespace Operator

theorem plain_unary {op : Token} {v w : Value} (h : unary op v = .ok w) : w.isPlain = true := by
  unfold unary at h
  split at h <;> cases h <;> rfl

theorem plain_integers {op : Token} {m n : Int64} {w : Value} (h : integers op m n = .ok w) :
    w.isPlain = true := by
  unfold integers at h
  split at h
  case h_4 =>
    split at h
    · cases h
    · cases h
      rfl
  case h_11 => cases h
  all_goals
    cases h
    rfl

theorem plain_floats {k : Kind} {y z : Float} {w : Value} (h : floats? k y z = some w) :
    w.isPlain = true := by
  unfold floats? at h
  split at h <;> cases h <;> rfl

theorem plain_binary {op : Token} {a b w : Value} (h : binary op a b = .ok w) :
    w.isPlain = true := by
  unfold binary at h
  split at h
  · cases h
    rfl
  · cases h
    rfl
  · unfold numbers at h
    split at h
    · exact plain_integers h
    · split at h
      · split at h
        · rename_i v hv
          cases h
          exact plain_floats hv
        · cases h
      · cases h

end Operator

/-! ## The two evaluators agree -/

open Evaluation (Feeds feeds_value feeds_error feeds_bind feeds_operate feeds_andThen
  feeds_returning)

theorem Stmt.feed_returning {keyword : Token} {value : Expr} (h : value ≠ .missing) (x : Exits)
    (k : Value → Run) : (Stmt.returning keyword value).feed x k = value.feed x x.leave := by
  rw [Stmt.feed]
  exact h

mutual

theorem Expr.feeds : ∀ e : Expr, Feeds (fun x k => e.feed x k) e.eval
  | .missing | .name _ _ | .call _ _ _ _ => by
      simp only [Expr.feed, Expr.eval]
      exact feeds_error _
  | .integer _ _ | .float _ _ | .boolean _ _ | .string _ _ => by
      simp only [Expr.feed, Expr.eval]
      exact feeds_value rfl
  | .unary op right => by
      simp only [Expr.feed, Expr.eval]
      exact feeds_andThen (Expr.feeds right) fun v _ => feeds_operate fun w => Operator.plain_unary
  | .binary left op right => by
      have htruth : Feeds (fun x k => right.feed x fun b => k (.boolean b.isTruthy))
          (right.eval.andThen fun b => .value (.boolean b.isTruthy)) :=
        feeds_andThen (Expr.feeds right) fun b _ => feeds_value rfl
      simp only [Expr.feed, Expr.eval]
      refine feeds_andThen (Expr.feeds left) fun a _ => ?_
      cases hk : op.kind
      case andAnd =>
          cases ha : a.isTruthy
          · exact feeds_value rfl
          · exact htruth
      case orOr =>
          cases ha : a.isTruthy
          · exact htruth
          · exact feeds_value rfl
      all_goals
        exact feeds_andThen (Expr.feeds right) fun b _ =>
          feeds_operate fun w => Operator.plain_binary
  | .conditional choice => by
      simp only [Expr.feed, Expr.eval]
      exact Conditional.feeds choice

theorem Conditional.feeds : ∀ c : Conditional, Feeds (fun x k => c.feed x k) c.eval
  | .mk keyword condition .missing otherwise => by
      simp only [Conditional.feed, Conditional.eval]
      exact feeds_error _
  | .mk keyword condition (.braces opening body closing empty) otherwise => by
      simp only [Conditional.feed, Conditional.eval]
      refine feeds_andThen (Expr.feeds condition) fun v _ => ?_
      split
      · rw [Block.eval]
        exact Stmt.feedsAll rfl body
      · exact Alternative.feeds otherwise

theorem Alternative.feeds : ∀ a : Alternative, Feeds (fun x k => a.feed x k) a.eval
  | .absent => by
      simp only [Alternative.feed, Alternative.eval]
      exact feeds_value rfl
  | .block body => by
      simp only [Alternative.feed, Alternative.eval]
      exact Block.feeds body
  | .chained next => by
      simp only [Alternative.feed, Alternative.eval]
      exact Conditional.feeds next

theorem Block.feeds : ∀ b : Block, Feeds (fun x k => b.feed x k) b.eval
  | .missing => by
      simp only [Block.feed, Block.eval]
      exact feeds_error _
  | .braces _ body _ _ => by
      simp only [Block.feed, Block.eval]
      exact Stmt.feedsAll rfl body

theorem Stmt.feeds : ∀ s : Stmt, Feeds (fun x k => s.feed x k) s.eval
  | .missing => by
      simp only [Stmt.feed, Stmt.eval]
      exact feeds_error _
  | .binding _ _ word value => by
      simp only [Stmt.feed, Stmt.eval]
      exact feeds_andThen (Expr.feeds value) fun v _ => feeds_bind word v
  | .returning keyword value => by
      by_cases hvalue : value = .missing
      · subst hvalue
        simp only [Stmt.feed, Stmt.eval]
        exact ⟨nofun, fun _ _ => rfl⟩
      · simp only [Stmt.feed_returning hvalue, Stmt.eval_returning hvalue]
        exact feeds_returning (Expr.feeds value)
  | .block body => by
      simp only [Stmt.feed, Stmt.eval]
      exact Block.feeds body
  | .expr value => by
      simp only [Stmt.feed, Stmt.eval]
      exact Expr.feeds value

theorem Stmt.feedsAll {last : Value} (hlast : last.isPlain = true) : ∀ ss : List Stmt,
    Feeds (fun x k => Stmt.feedAll x last ss k) (Stmt.evalAll last ss)
  | [] => by
      simp only [Stmt.feedAll, Stmt.evalAll]
      exact feeds_value hlast
  | s :: ss => by
      simp only [Stmt.feedAll, Stmt.evalAll]
      exact feeds_andThen (Stmt.feeds s) fun v hv => Stmt.feedsAll hv ss

end

theorem Program.runFrom_eq_execute (bound : Nat) (last : Value) (p : Program) :
    p.runFrom .never bound last = p.execute last := by
  induction p generalizing bound last with
  | nil => rfl
  | cons s ss ih =>
      have hs := Stmt.feeds s
      rw [Program.execute, hs.told, Program.runFrom]
      simp only [Watch.check]
      cases hresult : s.eval.result with
      | error err =>
          rw [Evaluation.resume, hresult]
          simp [Run.announcing]
      | ok v =>
          cases hv : v.isPlain with
          | true =>
              rw [Evaluation.resume_of_plain hresult hv]
              simp [Run.announcing, ih, hv]
          | false =>
              obtain ⟨content, rfl⟩ := hs.returned hresult hv
              rw [Evaluation.resume, hresult]
              simp [Run.announcing, Value.unwrap, hv]

/-- A run does what the evaluator with continuations does. There, a statement
that returns or fails is indifferent to everything that is pending. -/
theorem Program.run_eq_execute (p : Program) :
    p.run .never = p.execute .null ∧
      ∀ (s : Stmt) (x : Exits) (k k' : Value → Run), s.eval.escapes = true →
        s.feed x k = s.feed x k' :=
  ⟨Program.runFrom_eq_execute 0 .null p, fun s x k k' h => (Stmt.feeds s).of_escapes h x k k'⟩

/-- A `return` in a block, in an operand, in a `let`: the inner binding is
announced, and neither the outer one nor the statement behind it. -/
theorem Program.run_eq_execute_nested :
    let t := Token.endOfInput .start
    let block : Block :=
      .braces t [.binding t t (text "b") (.integer t 2), .returning t (.integer t 3)] t false
    let s : Stmt := .binding t t (text "a") (.binary (.integer t 1) { t with kind := .plus }
      (.conditional (.mk t (.boolean t true) block .absent)))
    let p : Program := [s, .binding t t (text "c") (.integer t 4)]
    s.eval.escapes = true ∧ (p.run .never).value = some (.integer 3) ∧
      (p.run .never).binds = [⟨text "b", .integer 2⟩] ∧ p.run .never = p.execute .null ∧
      ∀ (x : Exits) (k k' : Value → Run), s.feed x k = s.feed x k' := by
  intro t block s p
  have hescapes : s.eval.escapes = true := by decide +kernel
  refine ⟨hescapes, by decide +kernel, by decide +kernel, ?_⟩
  obtain ⟨hrun, hfeed⟩ := Program.run_eq_execute p
  exact ⟨hrun, fun x k k' => hfeed s x k k' hescapes⟩

end Scriptlet
