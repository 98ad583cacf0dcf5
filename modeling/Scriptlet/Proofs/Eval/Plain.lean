import Scriptlet.Proofs.Eval.Interruption
import Scriptlet.Proofs.Eval.Paired
import Scriptlet.Proofs.Script.Canonical

/-!
# Where plain values are found

A wrapped value is on its way out of a `return`, and nothing may look at it but
what hands it on. Here it is shown that the values which are announced, those
that operations are applied to and those that programs end with are all plain,
and that what is inside a wrapper is a plain value again (`Node.eval_settled`).
This holds of every tree, with parts missing or not.

Evaluation has a value or an error for a result and tells nothing of the operands
on the way. The evaluator of pairs has room for both and for neither, and notes all
operands. `Follows` says that it keeps in step with evaluation, hands back one of
the two and notes plain operands only; it is kept by each way of composing tasks,
and `stmt_follows` with its siblings is the induction over the trees. `Runs` says
the same of programs.

A task that goes on with plain values only does not show what it would do with
others. So the operations may be exchanged for any that agree with them on plain
operands: `Follows` compares two evaluators of pairs that differ in this.
-/

namespace Scriptlet

/-- A plain value, or one that is wrapped once. -/
def Value.Settled (v : Value) : Prop :=
  v.isPlain = true ∨ ∃ content, v = .returned content ∧ content.isPlain = true

/-- A run ends with a plain value and announces plain ones. -/
def Run.Plain (r : Run) : Prop :=
  (∃ v, r.value = some v ∧ v.isPlain = true) ∧ ∀ b ∈ r.binds, b.value.isPlain = true

namespace Paired

/-! ## Tasks that end -/

/-- All operands are there, and plain. -/
def OnPlain (as : List Application) : Prop :=
  ∀ a ∈ as, ∀ v ∈ a.operands, ∃ w, v = some w ∧ w.isPlain = true

theorem onPlain_unary (op : Token) {v : Value} (hv : v.isPlain = true) :
    OnPlain [.unary op (some v)] := by
  intro a ha w hw
  rw [List.mem_singleton.mp ha] at hw
  exact ⟨v, List.mem_singleton.mp hw, hv⟩

theorem onPlain_pair {a : Application} {left right : Value}
    (ha : a.operands = [some left, some right]) (hleft : left.isPlain = true)
    (hright : right.isPlain = true) : OnPlain [a] := by
  intro b hb v hv
  rw [List.mem_singleton.mp hb, ha, List.mem_cons, List.mem_singleton] at hv
  rcases hv with rfl | rfl
  · exact ⟨left, rfl, hleft⟩
  · exact ⟨right, rfl, hright⟩

def announcements (bs : List Binding) : List (Text × Option Value) :=
  bs.map fun b => (b.name, some b.value)

/-- The state with so much more announced and applied. -/
def State.after (s : State) (bs : List Binding) (as : List Application) : State :=
  ⟨s.announced ++ announcements bs, s.applied ++ as⟩

@[simp] theorem State.after_nil (s : State) : s.after [] [] = s := by
  simp [State.after, announcements]

@[simp] theorem State.after_after (s : State) (bs bs' : List Binding) (as as' : List Application) :
    (s.after bs as).after bs' as' = s.after (bs ++ bs') (as ++ as') := by
  simp [State.after, announcements]

variable {α β : Type}

/-- From every state the task ends with `a`; it announces `bs` on the way, and what it
applies operations to is plain. -/
def Task.EndsAs (t : Task α) (a : α) (bs : List Binding) : Prop :=
  ∃ as, OnPlain as ∧ ∀ s, t s = .ends a (s.after bs as)

namespace Task.EndsAs

variable {t : Task α} {f g : α → Task β} {a : α} {b : β} {bs bs' : List Binding}

theorem pure (a : α) : (Pure.pure a : Task α).EndsAs a [] :=
  ⟨[], List.forall_mem_nil _, fun s => congrArg (Run.ends a) s.after_nil.symm⟩

theorem bind_apply {as : List Application} (h : ∀ s, t s = .ends a (s.after bs as)) (s : State) :
    (t >>= f) s = f a (s.after bs as) := by
  show Task.andThen t f s = _
  rw [Task.andThen, h]

theorem bind (ht : t.EndsAs a bs) (hf : (f a).EndsAs b bs') : (t >>= f).EndsAs b (bs ++ bs') := by
  obtain ⟨as, has, ht⟩ := ht
  obtain ⟨as', has', hf⟩ := hf
  refine ⟨as ++ as', List.forall_mem_append.mpr ⟨has, has'⟩, fun s => ?_⟩
  rw [bind_apply ht, hf, State.after_after]

theorem bind_pure (ht : t.EndsAs a bs) (hf : f a = Pure.pure b) : (t >>= f).EndsAs b bs := by
  have hpure : (f a).EndsAs b [] := hf ▸ pure b
  simpa using ht.bind hpure

/-- What follows matters only for what the task ends with. -/
theorem bind_congr (ht : t.EndsAs a bs) (h : f a = g a) : t >>= f = t >>= g := by
  obtain ⟨as, -, ht⟩ := ht
  funext s
  rw [bind_apply ht, bind_apply ht, h]

theorem note {a : Application} (ha : OnPlain [a]) : (note a).EndsAs () [] := by
  refine ⟨[a], ha, fun s => ?_⟩
  simp [Paired.note, State.after, announcements]

theorem announce (word : Text) (v : Value) :
    (announce word (some v)).EndsAs () [⟨word, v⟩] := by
  refine ⟨[], List.forall_mem_nil _, fun s => ?_⟩
  simp [Paired.announce, State.after, announcements]

end Task.EndsAs

open Scriptlet.Paired.Task (EndsAs)

/-! ## The operations -/

def Reply.ofResult : Result → Reply
  | .ok v => ⟨some v, none⟩
  | .error err => ⟨none, some err⟩

namespace Operations

theorem standardMismatch_ends (op : Token) {a b : Value} (ha : a.isPlain = true)
    (hb : b.isPlain = true) :
    (standardMismatch op (some a) (some b)).EndsAs (Operator.mismatch op a b) [] :=
  (EndsAs.note (onPlain_pair rfl ha hb)).bind (.pure _)

theorem standardEqual_ends {a b : Value} (ha : a.isPlain = true) (hb : b.isPlain = true) :
    (standardEqual (some a) (some b)).EndsAs (Value.equal a b) [] :=
  (EndsAs.note (onPlain_pair rfl ha hb)).bind (.pure _)

theorem standardUnary_ends (op : Token) {v : Value} (hv : v.isPlain = true) :
    (standardUnary op (some v)).EndsAs (.ofResult (Operator.unary op v)) [] := by
  refine (EndsAs.note (onPlain_unary op hv)).bind ?_
  unfold Operator.unary
  generalize op.kind = k
  cases k
  case minus => cases v <;> exact .pure _
  all_goals exact .pure _

theorem standardIntegers_ends (op : Token) (a b : Int64) :
    (standardIntegers op a b).EndsAs (.ofResult (Operator.integers op a b)) [] := by
  refine (EndsAs.note (onPlain_pair rfl rfl rfl)).bind ?_
  unfold Operator.integers
  generalize op.kind = k
  cases k
  case plus | minus | star | and | or | less | greater | lessEqual | greaterEqual => exact .pure _
  case slash =>
    dsimp only
    split <;> exact .pure _
  all_goals exact (standardMismatch_ends op rfl rfl).bind (.pure _)

theorem standardFloats_ends (kind : Kind) (a b : Float) :
    (standardFloats kind a b).EndsAs
      (Operator.floats? kind a b, (Operator.floats? kind a b).isSome) [] := by
  refine (EndsAs.note (onPlain_pair rfl rfl rfl)).bind ?_
  cases kind <;> exact .pure _

end Operations

variable {ops : Operations} {a b : Value}

theorem mismatched_ends (op : Token) (ha : a.isPlain = true) (hb : b.isPlain = true) :
    (mismatched .standard op (some a) (some b)).EndsAs
      (.ofResult (.error (Operator.mismatch op a b))) [] :=
  (Operations.standardMismatch_ends op ha hb).bind (.pure _)

theorem numbers_ends (op : Token) (ha : a.isPlain = true) (hb : b.isPlain = true) :
    (numbers .standard op (some a) (some b)).EndsAs (.ofResult (Operator.numbers op a b)) [] := by
  have hmismatch := mismatched_ends op ha hb
  unfold Operator.numbers
  split
  · exact Operations.standardIntegers_ends op _ _
  · rename_i hnot
    unfold numbers
    split
    · -- two integers were dealt with in the first case
      rename_i m n hm hn
      exact absurd (Option.some.inj hn) (hnot m n (Option.some.inj hm))
    · simp only [Option.bind_some]
      cases a.toFloat? with
      | none => exact hmismatch
      | some x =>
          cases b.toFloat? with
          | none => exact hmismatch
          | some y =>
              refine EndsAs.bind (Operations.standardFloats_ends op.kind x y) ?_
              dsimp only
              cases Operator.floats? op.kind x y with
              | none => exact hmismatch
              | some v => exact .pure _

theorem binary_ends (op : Token) (ha : a.isPlain = true) (hb : b.isPlain = true) :
    (binary .standard op (some a) (some b)).EndsAs
      (.ofResult (if op.kind = .andAnd || op.kind = .orOr then .ok (.boolean b.isTruthy)
        else Operator.binary op a b)) [] := by
  have hnumbers := numbers_ends op ha hb
  have hequal := Operations.standardEqual_ends ha hb
  unfold binary Operator.binary
  generalize op.kind = k
  cases k
  case andAnd | orOr => exact .pure _
  case equal | notEqual => exact hequal.bind (.pure _)
  all_goals exact hnumbers

theorem numbers_congr (hops : ops.AgreeOnPlain .standard) (op : Token) (ha : a.isPlain = true)
    (hb : b.isPlain = true) :
    numbers ops op (some a) (some b) = numbers .standard op (some a) (some b) := by
  unfold numbers mismatched
  simp only [hops.integers, hops.floats, hops.mismatch op a b ha hb]

theorem binary_congr (hops : ops.AgreeOnPlain .standard) (op : Token) (ha : a.isPlain = true)
    (hb : b.isPlain = true) :
    binary ops op (some a) (some b) = binary .standard op (some a) (some b) := by
  unfold binary
  rw [numbers_congr hops op ha hb, hops.equal a b ha hb]

/-! ## Replies that are handed on -/

variable {t : Task Reply} {f g : Option Value → Task Reply} {r r' : Reply} {bs bs' : List Binding}

@[simp] theorem passes_ofResult_ok (v : Value) : (Reply.ofResult (.ok v)).passes = !v.isPlain := rfl

theorem handOn_congr (ht : t.EndsAs r bs) (h : r.passes = false → f r.value = g r.value) :
    handOn t f = handOn t g := by
  refine ht.bind_congr ?_
  cases hpasses : r.passes with
  | true => rfl
  | false => rw [h hpasses]

theorem handOn_passing (ht : t.EndsAs r bs) (h : r.passes = true) : (handOn t f).EndsAs r bs :=
  ht.bind_pure (if_pos h)

theorem handOn_going (ht : t.EndsAs r bs) (h : r.passes = false)
    (hf : (f r.value).EndsAs r' bs') : (handOn t f).EndsAs r' (bs ++ bs') := by
  refine ht.bind ?_
  rw [h]
  exact hf

/-- Next to an error there is no value to be lost. -/
theorem sequel_eq_handOn {result : Result} (ht : t.EndsAs (.ofResult result) bs) :
    sequel t f = handOn t f := by
  refine ht.bind_congr ?_
  cases result with
  | error err => rfl
  | ok v => rfl

/-! ## In step with evaluation -/

/-- `t₀` ends with the result of `e` and announces what `e` does, and `t` is the same
task. What is announced is plain, and a value is wrapped once at most. -/
structure Follows (t t₀ : Task Reply) (e : Evaluation) : Prop where
  same : t = t₀
  ends : t₀.EndsAs (.ofResult e.result) e.binds
  binds : ∀ b ∈ e.binds, b.value.isPlain = true
  result : ∀ v, e.result = .ok v → v.Settled

namespace Follows

variable {t t₀ : Task Reply} {e : Evaluation} {v : Value}

theorem give (hv : v.Settled) : Follows (give v) (give v) (.value v) := by
  refine ⟨rfl, .pure _, List.forall_mem_nil _, fun w hw => ?_⟩
  rw [← Except.ok.inj hw]
  exact hv

theorem refuse (err : RuntimeError) : Follows (refuse err) (refuse err) (.error err) :=
  ⟨rfl, .pure _, List.forall_mem_nil _, fun _ hw => nomatch hw⟩

theorem announce (word : Text) (hv : v.isPlain = true) :
    Follows (announce word (some v) >>= fun _ => Paired.give .null)
      (Paired.announce word (some v) >>= fun _ => Paired.give .null) (.bind word v) := by
  refine ⟨rfl, (EndsAs.announce word v).bind (.pure _), fun b hb => ?_, fun w hw => ?_⟩
  · rw [List.mem_singleton.mp hb]
    exact hv
  · rw [← Except.ok.inj hw]
    exact Or.inl rfl

theorem unary (hops : ops.AgreeOnPlain .standard) (op : Token) (hv : v.isPlain = true) :
    Follows (ops.unary op (some v)) (Operations.standard.unary op (some v))
      ⟨[], Operator.unary op v⟩ :=
  ⟨hops.unary op v hv, Operations.standardUnary_ends op hv, List.forall_mem_nil _,
    fun _ hw => Or.inl (Operator.plain_unary hw)⟩

theorem binary (hops : ops.AgreeOnPlain .standard) (op : Token) (ha : a.isPlain = true)
    (hb : b.isPlain = true) :
    Follows (binary ops op (some a) (some b)) (binary .standard op (some a) (some b))
      (if op.kind = .andAnd || op.kind = .orOr then .value (.boolean b.isTruthy)
        else ⟨[], Operator.binary op a b⟩) := by
  have hends := binary_ends op ha hb
  split
  · rename_i hlogical
    rw [if_pos hlogical] at hends
    exact ⟨binary_congr hops op ha hb, hends, List.forall_mem_nil _, fun w hw =>
      Or.inl (Except.ok.inj hw ▸ rfl)⟩
  · rename_i hlogical
    rw [if_neg hlogical] at hends
    exact ⟨binary_congr hops op ha hb, hends, List.forall_mem_nil _, fun w hw =>
      Or.inl (Operator.plain_binary hw)⟩

theorem branch {c : Bool} {u u₀ : Task Reply} {e' : Evaluation} (ht : Follows t t₀ e)
    (hu : Follows u u₀ e') :
    Follows (if c then t else u) (if c then t₀ else u₀) (if c then e else e') := by
  cases c with
  | true => exact ht
  | false => exact hu

/-- The reply is handed on where the evaluation passes, and what stands behind it sees
plain values only. -/
theorem handOn {f f₀ : Option Value → Task Reply} {g : Value → Evaluation} (ht : Follows t t₀ e)
    (hf : ∀ v, v.isPlain = true → Follows (f (some v)) (f₀ (some v)) (g v)) :
    Follows (handOn t f) (handOn t₀ f₀) (e.andThen g) := by
  obtain ⟨rfl, hends, hbinds, hresult⟩ := ht
  cases h : e.result with
  | error err =>
      rw [h] at hends
      rw [Evaluation.andThen_of_error h]
      exact ⟨handOn_congr hends (fun hgoes => nomatch hgoes), h ▸ handOn_passing hends rfl, hbinds,
        hresult⟩
  | ok v =>
      rw [h] at hends
      cases hv : v.isPlain with
      | false =>
          have hpasses : (Reply.ofResult (.ok v)).passes = true := by
            rw [passes_ofResult_ok, hv, Bool.not_false]
          rw [Evaluation.andThen_of_wrapped h hv]
          refine ⟨handOn_congr hends fun hgoes => ?_, h ▸ handOn_passing hends hpasses, hbinds,
            hresult⟩
          rw [hpasses] at hgoes
          cases hgoes
      | true =>
          have hgoes : (Reply.ofResult (.ok v)).passes = false := by
            rw [passes_ofResult_ok, hv, Bool.not_true]
          obtain ⟨hsame, hends', hbinds', hresult'⟩ := hf v hv
          rw [Evaluation.andThen_of_plain h hv]
          exact ⟨handOn_congr hends fun _ => hsame, handOn_going hends hgoes hends',
            List.forall_mem_append.mpr ⟨hbinds, hbinds'⟩, hresult'⟩

/-- A reply holds one thing only, so nothing is lost next to an error. -/
theorem sequel {f f₀ : Option Value → Task Reply} {g : Value → Evaluation} (ht : Follows t t₀ e)
    (hf : ∀ v, v.isPlain = true → Follows (f (some v)) (f₀ (some v)) (g v)) :
    Follows (sequel t f) (sequel t₀ f₀) (e.andThen g) := by
  have hends := ht.ends
  rw [sequel_eq_handOn hends, ht.same, sequel_eq_handOn hends]
  exact handOn ⟨rfl, hends, ht.binds, ht.result⟩ hf

/-- Wrapping does not wrap twice. -/
theorem returning (ht : Follows t t₀ e) : Follows (returning t) (returning t₀) e.returning := by
  obtain ⟨rfl, hends, hbinds, hresult⟩ := ht
  cases h : e.result with
  | error err =>
      have hreturning : e.returning.result = .error err := by rw [Evaluation.returning, h]; rfl
      rw [h] at hends
      refine ⟨rfl, ?_, hbinds, fun v hv => ?_⟩
      · rw [hreturning]
        exact hends.bind_pure rfl
      · rw [hreturning] at hv
        cases hv
  | ok w =>
      have hreturning : e.returning.result = .ok (.wrap (some w)) := by
        rw [Evaluation.returning, h]; rfl
      rw [h] at hends
      refine ⟨rfl, ?_, hbinds, fun v hv => ?_⟩
      · rw [hreturning]
        exact hends.bind_pure rfl
      · rw [hreturning] at hv
        obtain rfl := Except.ok.inj hv
        rcases hresult w h with hplain | ⟨content, rfl, hcontent⟩
        · exact Or.inr ⟨w, if_pos hplain, hplain⟩
        · exact Or.inr ⟨content, rfl, hcontent⟩

end Follows

/-! ## All trees -/

theorem stmt_returning {keyword : Token} {value : Expr} (h : value ≠ .missing) :
    stmt ops (.returning keyword value) = returning (expr ops value) := by
  rw [stmt]
  exact h

mutual

theorem expr_follows (hops : ops.AgreeOnPlain .standard) :
    ∀ e : Expr, Follows (expr ops e) (expr .standard e) e.eval
  | .missing | .name _ _ | .call _ _ _ _ => by
      simp only [expr, Expr.eval]
      exact .refuse _
  | .integer _ _ | .float _ _ | .boolean _ _ | .string _ _ => by
      simp only [expr, Expr.eval]
      exact .give (Or.inl rfl)
  | .unary op right => by
      rw [expr, expr, Expr.eval]
      exact (expr_follows hops right).handOn fun v hv => .unary hops op hv
  | .binary left op right => by
      rw [expr, expr, Expr.eval]
      refine (expr_follows hops left).handOn fun a ha => ?_
      refine .branch (.give (Or.inl rfl)) (.branch (.give (Or.inl rfl)) ?_)
      exact (expr_follows hops right).handOn fun b hb => .binary hops op ha hb
  | .conditional choice => by
      rw [expr, expr, Expr.eval]
      exact conditional_follows hops choice

theorem conditional_follows (hops : ops.AgreeOnPlain .standard) : ∀ c : Conditional,
    Follows (conditional ops c) (conditional .standard c) c.eval
  | .mk keyword condition .missing otherwise => by
      simp only [conditional, Conditional.eval]
      exact .refuse _
  | .mk keyword condition (.braces opening body closing empty) otherwise => by
      simp only [conditional, Conditional.eval]
      refine (expr_follows hops condition).handOn fun v _ => ?_
      refine .branch ?_ (alternative_follows hops otherwise)
      -- not by `block_follows`: the recursion does not see that the braces are a part of the tree
      rw [block, block, Block.eval]
      exact stmts_follows hops rfl body

theorem alternative_follows (hops : ops.AgreeOnPlain .standard) : ∀ a : Alternative,
    Follows (alternative ops a) (alternative .standard a) a.eval
  | .absent => by
      rw [alternative, alternative, Alternative.eval]
      exact .give (Or.inl rfl)
  | .block body => by
      rw [alternative, alternative, Alternative.eval]
      exact block_follows hops body
  | .chained next => by
      rw [alternative, alternative, Alternative.eval]
      exact conditional_follows hops next

theorem block_follows (hops : ops.AgreeOnPlain .standard) :
    ∀ b : Block, Follows (block ops b) (block .standard b) b.eval
  | .missing => by
      rw [block, block, Block.eval]
      exact .refuse _
  | .braces _ body _ _ => by
      rw [block, block, Block.eval]
      exact stmts_follows hops rfl body

theorem stmt_follows (hops : ops.AgreeOnPlain .standard) :
    ∀ s : Stmt, Follows (stmt ops s) (stmt .standard s) s.eval
  | .missing => by
      rw [stmt, stmt, Stmt.eval]
      exact .refuse _
  | .binding _ _ word value => by
      rw [stmt, stmt, Stmt.eval]
      exact (expr_follows hops value).handOn fun v hv => .announce word hv
  | .returning keyword value => by
      by_cases hvalue : value = .missing
      · subst hvalue
        rw [stmt, stmt, Stmt.eval]
        exact .give (Or.inr ⟨.null, rfl, rfl⟩)
      · rw [stmt_returning hvalue, stmt_returning hvalue, Stmt.eval_returning hvalue]
        exact (expr_follows hops value).returning
  | .block body => by
      rw [stmt, stmt, Stmt.eval]
      exact block_follows hops body
  | .expr value => by
      rw [stmt, stmt, Stmt.eval]
      exact expr_follows hops value

theorem stmts_follows (hops : ops.AgreeOnPlain .standard) {last : Value}
    (hlast : last.isPlain = true) : ∀ ss : List Stmt,
      Follows (stmts ops (some last) ss) (stmts .standard (some last) ss) (Stmt.evalAll last ss)
  | [] => by
      rw [stmts, stmts, Stmt.evalAll]
      exact .give (Or.inl hlast)
  | s :: ss => by
      rw [stmts, stmts, Stmt.evalAll]
      exact (stmt_follows hops s).sequel fun v hv => stmts_follows hops hv ss

end

theorem node_follows (hops : ops.AgreeOnPlain .standard) :
    ∀ n : Node, Follows (node ops n) (node .standard n) n.eval
  | .expr value => expr_follows hops value
  | .stmt body => stmt_follows hops body

/-! ## Programs -/

section Programs

variable {watch : Watch} {s : Stmt} {st st' : State} (last : Option Value) (ss : Program)

theorem program_interrupted {why : Interruption} (h : watch.check st.announced.length = some why) :
    program ops watch last (s :: ss) st = .ends ⟨last, some (.interrupted why)⟩ st := by
  rw [program]
  show Task.andThen _ _ st = _
  simp only [Task.andThen, interruption, h]
  rfl

theorem program_of_check (h : watch.check st.announced.length = none) {r : Reply}
    (hs : stmt ops s st = .ends r st') : program ops watch last (s :: ss) st =
      (r.error.elim
        (if isReturn r.value then pure ⟨r.value.bind Value.unwrap, none⟩
          else program ops watch r.value ss)
        fun err => pure ⟨last, some (.failed err)⟩) st' := by
  rw [program]
  show Task.andThen _ _ st = _
  simp only [Task.andThen, interruption, h]
  show Task.andThen _ _ st = _
  simp only [Task.andThen, hs]
  cases r.error <;> rfl

theorem program_passing (h : watch.check st.announced.length = none) {v : Value}
    (hs : stmt ops s st = .ends (.ofResult (.ok v)) st') (hv : v.isPlain = true) :
    program ops watch last (s :: ss) st = program ops watch (some v) ss st' := by
  have hin : isReturn (some v) = false := by rw [isReturn, hv, Bool.not_true]
  rw [program_of_check last ss h hs]
  simp [Reply.ofResult, hin]

/-- From the state `st`, `t₀` ends with the value and the stop of `run` and announces
what `run` does, and `t` does the same. -/
structure Runs (t t₀ : Task Ending) (st : State) (run : Scriptlet.Run) : Prop where
  same : t st = t₀ st
  ends : ∃ as, OnPlain as ∧ t₀ st = .ends ⟨run.value, run.stop⟩ (st.after run.binds as)
  plain : run.Plain

theorem Runs.stopped {t t₀ : Task Ending} {last : Value} (hlast : last.isPlain = true)
    {stop : Option Stop} (h : t st = .ends ⟨some last, stop⟩ st)
    (h₀ : t₀ st = .ends ⟨some last, stop⟩ st) : Runs t t₀ st ⟨some last, [], stop⟩ :=
  ⟨h.trans h₀.symm, ⟨[], List.forall_mem_nil _, h₀.trans (by rw [State.after_nil])⟩,
    ⟨last, rfl, hlast⟩, List.forall_mem_nil _⟩

theorem length_after (st : State) (bs : List Binding) (as : List Application) :
    (st.after bs as).announced.length = st.announced.length + bs.length := by
  simp [State.after, announcements]

theorem program_runs (hops : ops.AgreeOnPlain .standard) (watch : Watch) {last : Value}
    (hlast : last.isPlain = true) (p : Program) (st : State) :
    Runs (program ops watch (some last) p) (program .standard watch (some last) p) st
      (p.runFrom watch st.announced.length last) := by
  -- the watch counts what was announced, so the state goes along with the last value
  induction p generalizing last st with
  | nil => exact .stopped hlast rfl rfl
  | cons s ss ih =>
      cases hcheck : watch.check st.announced.length with
      | some why =>
          rw [Program.runFrom_interrupted hcheck]
          exact .stopped hlast (program_interrupted _ ss hcheck) (program_interrupted _ ss hcheck)
      | none =>
          obtain ⟨hsame, ⟨as, has, hends⟩, hbinds, hsettled⟩ := stmt_follows hops s
          have hstmt : stmt ops s st = .ends _ (st.after s.eval.binds as) := hsame ▸ hends st
          cases hresult : s.eval.result with
          | error err =>
              rw [hresult] at hends hstmt
              rw [Program.runFrom_failing hcheck hresult]
              have hfails := program_of_check (some last) ss hcheck (hends st)
              exact ⟨(program_of_check _ ss hcheck hstmt).trans hfails.symm, ⟨as, has, hfails⟩,
                ⟨last, rfl, hlast⟩, hbinds⟩
          | ok v =>
              rw [hresult] at hends hstmt
              rcases hsettled v hresult with hv | ⟨content, rfl, hcontent⟩
              · have hgoes := program_passing (some last) ss hcheck (hends st) hv
                obtain ⟨hrest, ⟨as', has', hends'⟩, hvalue, hbinds'⟩ :=
                  ih hv (st.after s.eval.binds as)
                rw [length_after] at hends' hvalue hbinds'
                rw [State.after_after] at hends'
                rw [Program.runFrom_passing hcheck hresult hv]
                exact ⟨(program_passing _ ss hcheck hstmt hv).trans (hrest.trans hgoes.symm),
                  ⟨as ++ as', List.forall_mem_append.mpr ⟨has, has'⟩, hgoes.trans hends'⟩,
                  hvalue, List.forall_mem_append.mpr ⟨hbinds, hbinds'⟩⟩
              · have hreturns := program_of_check (some last) ss hcheck (hends st)
                rw [Program.runFrom_returning hcheck hresult rfl]
                exact ⟨(program_of_check _ ss hcheck hstmt).trans hreturns.symm,
                  ⟨as, has, hreturns⟩, ⟨content, rfl, hcontent⟩, hbinds⟩

end Programs

theorem run_runs (hops : ops.AgreeOnPlain .standard) (watch : Watch) (p : Program) :
    Runs (program ops watch (some .null) p) (program .standard watch (some .null) p) .start
      (p.run watch) :=
  program_runs hops watch rfl p .start

theorem agreeOnPlain_refl (ops : Operations) : ops.AgreeOnPlain ops :=
  ⟨fun _ _ _ => rfl, fun _ _ _ => rfl, fun _ _ _ => rfl, fun _ _ _ _ => rfl,
    fun _ _ _ _ _ => rfl⟩

/-- What was announced are these bindings, and both they and all operands are plain. -/
structure State.AllPlain (s : State) (bs : List Binding) : Prop where
  announced : s.announced = announcements bs
  binds : ∀ b ∈ bs, b.value.isPlain = true
  operands : OnPlain s.applied

theorem allPlain_start {bs : List Binding} {as : List Application}
    (hbs : ∀ b ∈ bs, b.value.isPlain = true) (has : OnPlain as) :
    (State.start.after bs as).AllPlain bs :=
  ⟨List.nil_append _, hbs, by rw [State.after]; exact has⟩

end Paired

/-- A script that runs without failure was accepted. -/
theorem Script.program_of_run {watch : Watch} {source : Text}
    (h : (run watch source).failure = none) : ∃ p, program source = (some p, none) := by
  cases hscan : Token.scan source with
  | mk ts errors =>
      cases errors with
      | nil =>
          cases hparsed : (parse ts).errors with
          | nil => exact ⟨_, program_eq_some_iff.mpr (by rw [hscan]; exact ⟨rfl, hparsed, rfl⟩)⟩
          | cons e es =>
              rw [run, program, hscan] at h
              simp [hparsed, Failure.ofProblems?] at h
      | cons e es =>
          rw [run, program, hscan] at h
          simp [Failure.ofProblems?] at h

open Paired (Operations agreeOnPlain_refl allPlain_start)

/-- The evaluator of pairs comes to an end on every node, in step with evaluation, and
hands back an error and no value or a value and no error. Such a value is plain, or a
plain value that is wrapped once; all that is announced is plain, and so are all operands.
Operations that do something else with other operands, or crash at them, make no difference.
So every program ends with a plain value, next to an error or not, and so does a script
that runs without failure. -/
theorem Node.eval_settled :
    (∀ n : Node,
      (∃ reply state, Paired.node .standard n .start = .ends reply state ∧
        ((∃ err, reply = ⟨none, some err⟩ ∧ n.eval.result = .error err) ∨
          ∃ v, reply = ⟨some v, none⟩ ∧ n.eval.result = .ok v ∧ v.Settled) ∧
        state.AllPlain n.eval.binds) ∧
      ∀ ops : Operations, ops.AgreeOnPlain .standard →
        Paired.node ops n = Paired.node .standard n) ∧
    (∀ (watch : Watch) (p : Program),
      (∃ v state, Paired.program .standard watch (some .null) p .start
          = .ends ⟨some v, (p.run watch).stop⟩ state ∧
        (p.run watch).value = some v ∧ v.isPlain = true ∧ state.AllPlain (p.run watch).binds) ∧
      ∀ ops : Operations, ops.AgreeOnPlain .standard →
        Paired.program ops watch (some .null) p .start
          = Paired.program .standard watch (some .null) p .start) ∧
    ∀ (watch : Watch) (source : Text), (Script.run watch source).failure = none →
      ∃ v, (Script.run watch source).value = some v ∧ v.isPlain = true := by
  refine ⟨fun n => ⟨?_, fun ops hops => (Paired.node_follows hops n).same⟩, fun watch p => ⟨?_,
    fun ops hops => (Paired.run_runs hops watch p).same⟩, fun watch source h => ?_⟩
  · obtain ⟨-, ⟨as, has, hends⟩, hbinds, hresult⟩ := Paired.node_follows (agreeOnPlain_refl _) n
    refine ⟨_, _, hends .start, ?_, allPlain_start hbinds has⟩
    cases h : n.eval.result with
    | error err => exact Or.inl ⟨err, rfl, rfl⟩
    | ok v => exact Or.inr ⟨v, rfl, rfl, hresult v h⟩
  · obtain ⟨-, ⟨as, has, hends⟩, ⟨v, hvalue, hv⟩, hbinds⟩ :=
      Paired.run_runs (agreeOnPlain_refl _) watch p
    rw [hvalue] at hends
    exact ⟨v, _, hends, hvalue, hv, allPlain_start hbinds has⟩
  · obtain ⟨p, hp⟩ := Script.program_of_run h
    rw [Script.run_of_program hp]
    exact (Paired.run_runs (agreeOnPlain_refl _) watch p).plain.1

namespace Paired.Operations

def isPlainOperand : Option Value → Bool
  | some v => v.isPlain
  | none => false

/-- The standard operations, but crashing at an operand that is not a plain value. -/
def strict : Operations where
  unary op v := if isPlainOperand v then standard.unary op v else fun _ => .crashed
  integers := standard.integers
  floats := standard.floats
  equal a b :=
    if isPlainOperand a && isPlainOperand b then standard.equal a b else fun _ => .crashed
  mismatch op a b :=
    if isPlainOperand a && isPlainOperand b then standard.mismatch op a b else fun _ => .crashed

theorem strict_agreeOnPlain : strict.AgreeOnPlain standard where
  unary _ _ hv := if_pos hv
  integers _ _ _ := rfl
  floats _ _ _ := rfl
  equal _ _ ha hb := if_pos (by rw [isPlainOperand, isPlainOperand, ha, hb]; rfl)
  mismatch _ _ _ ha hb := if_pos (by rw [isPlainOperand, isPlainOperand, ha, hb]; rfl)

end Paired.Operations

/-- A block that announces a value and returns another one, with operations that would
crash at other operands, and a script in which a returned value is returned again. -/
theorem Node.eval_settled_block :
    let t := Token.endOfInput .start
    let plus : Token := { t with kind := .plus }
    let n : Node := .stmt (.block (.braces t
      [.binding t t (text "b") (.unary { t with kind := .not } (.boolean t false)),
        .returning t (.binary (.integer t 1) plus (.integer t 2))] t false))
    let source := text "return if (true) \x7b return 7 \x7d; 8"
    (∃ state, Paired.node .strict n .start = .ends ⟨some (.returned (.integer 3)), none⟩ state ∧
      state.AllPlain [⟨text "b", .boolean true⟩] ∧ .integers plus 1 2 ∈ state.applied) ∧
    Operations.strict.unary plus none .start = .crashed ∧
    (Script.run .never source).failure = none ∧
      ∃ v, (Script.run .never source).value = some v ∧ v.isPlain = true := by
  intro t plus n source
  obtain ⟨hnodes, -, hscripts⟩ := Node.eval_settled
  obtain ⟨⟨reply, state, hends, hreply, hplain⟩, hops⟩ := hnodes n
  have hstate : Paired.node .standard n .start = .ends ⟨some (.returned (.integer (1 + 2))), none⟩
      ⟨[(text "b", some (.boolean true))],
        [.unary { t with kind := .not } (some (.boolean false)), .integers plus 1 2]⟩ := rfl
  obtain ⟨rfl, rfl⟩ := Paired.Run.ends.inj (hends.symm.trans hstate)
  have hfailure : (Script.run .never source).failure = none := by
    rw [← Option.isNone_iff_eq_none]
    decide +kernel
  refine ⟨⟨_, ?_, hplain, List.mem_cons_of_mem _ List.mem_cons_self⟩, rfl, hfailure,
    hscripts .never source hfailure⟩
  exact (congrFun (hops .strict Operations.strict_agreeOnPlain) .start).trans hends

end Scriptlet
