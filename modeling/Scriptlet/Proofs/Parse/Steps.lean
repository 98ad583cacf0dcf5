import Scriptlet.Parse.Program

/-!
# Parsers step by step

What every later argument about the parsers rests on:

- **sequencing**: how a sequence of parsers runs, read forward
  (`bind_of_done`) and backward (`bind_eq_done`);
- **one step of each parser**: the equations that say what a parser does
  when it may nest one step more (`expression_succ` and its siblings);
- **more steps**: a parser that finished within `n` steps gives the same
  outcome within any larger number (`moreSteps`, `stable_of_below`). An
  exhausted parser is below every other one, and sequencing is monotone in
  that order, so each parser needs one line per branch.
-/

namespace Scriptlet

/-! ## Sequencing -/

namespace Parser

variable {α β γ : Type}

theorem bind_apply (p : Parser α) (f : α → Parser β) (c : Cursor) :
    (p >>= f) c =
      match p c with
      | .done value rest errors => (f value rest).after errors
      | .broken rest errors => .broken rest errors
      | .exhausted => .exhausted := rfl

@[simp] theorem pure_apply (a : α) (c : Cursor) : (pure a : Parser α) c = .done a c [] := rfl

@[simp] theorem exhausted_apply (c : Cursor) : (exhausted : Parser α) c = .exhausted := rfl

@[simp] theorem complain_apply (complaint : Complaint) (c : Cursor) :
    (complain complaint : Parser α) c = .broken c [.blame c.current complaint] := rfl

theorem ite_apply (P : Prop) [Decidable P] (p q : Parser α) (c : Cursor) :
    (if P then p else q) c = if P then p c else q c := by
  split <;> rfl

@[simp] theorem advance_apply (c : Cursor) : advance c = .done () c.next [] := rfl

/-- A parser that is done hands over to the next one, and its errors come
first. -/
theorem bind_after {p : Parser α} {c rest : Cursor} {a : α} {errors : List ParseError}
    (h : p c = .done a rest errors) (f : α → Parser β) :
    (p >>= f) c = (f a rest).after errors := by
  rw [bind_apply, h]

/-- A parser that is done without an error hands over to the next one. -/
theorem bind_of_done {p : Parser α} {c rest : Cursor} {a : α} (h : p c = .done a rest [])
    (f : α → Parser β) : (p >>= f) c = f a rest := by
  rw [bind_after h]
  exact Outcome.after_nil _

@[simp] theorem current_bind (f : Token → Parser β) (c : Cursor) :
    (current >>= f) c = f c.current c := bind_of_done rfl f

@[simp] theorem kind_bind (f : Kind → Parser β) (c : Cursor) :
    (kind >>= f) c = f c.kind c := bind_of_done rfl f

@[simp] theorem atEnd_bind (f : Bool → Parser β) (c : Cursor) :
    (atEnd >>= f) c = f c.atEnd c := bind_of_done rfl f

@[simp] theorem advance_bind (f : Unit → Parser β) (c : Cursor) :
    (advance >>= f) c = f () c.next := bind_of_done rfl f

@[simp] theorem consume_bind (f : Token → Parser β) (c : Cursor) :
    (consume >>= f) c = f c.current c.next := bind_of_done rfl f

@[simp] theorem splitSigned_bind (f : Unit → Parser β) (c : Cursor) :
    (splitSigned >>= f) c = f () c.splitSigned := bind_of_done rfl f

theorem expect_of_kind {k : Kind} {c : Cursor} (h : c.kind = k) :
    expect k c = .done c.current c.next [] := if_pos h

theorem expect_of_ne {k : Kind} {c : Cursor} (h : c.kind ≠ k) :
    expect k c = .broken c [.blame c.current (.expected k.described)] := if_neg h

/-- A sequence is done without an error just when both its parts are. -/
theorem bind_eq_done {p : Parser α} {f : α → Parser β} {c rest : Cursor} {b : β} :
    (p >>= f) c = .done b rest [] ↔
      ∃ a mid, p c = .done a mid [] ∧ f a mid = .done b rest [] := by
  constructor
  · intro h
    rw [bind_apply] at h
    split at h
    · rename_i a mid errors hp
      cases hf : f a mid with
      | done b' rest' errors' =>
          rw [hf, Outcome.after] at h
          obtain ⟨rfl, rfl, herr⟩ := Outcome.done.inj h
          obtain ⟨rfl, rfl⟩ := List.append_eq_nil_iff.mp herr
          exact ⟨a, mid, hp, hf⟩
      | broken rest' errors' =>
          rw [hf] at h
          cases h
      | exhausted =>
          rw [hf] at h
          cases h
    · cases h
    · cases h
  · rintro ⟨a, mid, hp, hf⟩
    rw [bind_of_done hp, hf]

theorem expect_eq_done {k : Kind} {c rest : Cursor} {t : Token} :
    expect k c = .done t rest [] ↔ c.kind = k ∧ t = c.current ∧ rest = c.next := by
  by_cases h : c.kind = k
  · rw [expect_of_kind h]
    constructor
    · intro hd
      obtain ⟨rfl, rfl, -⟩ := Outcome.done.inj hd
      exact ⟨h, rfl, rfl⟩
    · rintro ⟨-, rfl, rfl⟩
      rfl
  · rw [expect_of_ne h]
    constructor
    · intro hd
      cases hd
    · rintro ⟨hk, -, -⟩
      exact absurd hk h

/-! ## One step of each parser -/

theorem expression_succ (n s : Nat) (c : Cursor) :
    expression (n + 1) s c = (operand n >>= operators n s) c := by
  rw [expression]

/-- The operator at a cursor that was already split: too weak, a call, or an
operator between two operands. -/
theorem operators_succ (n s : Nat) (left : Expr) (c : Cursor) :
    operators (n + 1) s left c =
      if c.splitSigned.kind.strength ≤ s then .done left c.splitSigned []
      else if c.splitSigned.kind = .openParen then
        (arguments n >>= fun args => expect .closeParen >>= fun closing =>
          operators n s (.call left c.splitSigned.current args closing)) c.splitSigned.next
      else
        (expression n c.splitSigned.kind.strength >>= fun right =>
          operators n s (.binary left c.splitSigned.current right)) c.splitSigned.next := by
  rw [operators, splitSigned_bind, current_bind]
  simp only [ite_apply, advance_bind, pure_apply]
  rfl

theorem arguments_succ (n : Nat) (c : Cursor) :
    arguments (n + 1) c =
      if c.atEnd || c.kind = .closeParen then .done [] c []
      else
        (expression n 0 >>= fun e => kind >>= fun k =>
          if k = .comma then advance >>= fun _ => arguments n >>= fun es => pure (e :: es)
          else pure [e]) c := by
  rw [arguments, atEnd_bind, kind_bind, ite_apply, pure_apply]

theorem conditional_succ (n : Nat) (c : Cursor) :
    conditional (n + 1) c =
      (expect .openParen >>= fun _ => expression n 0 >>= fun condition =>
        expect .closeParen >>= fun _ => block n >>= fun body =>
          alternative n >>= fun otherwise =>
            pure (.mk c.current condition body otherwise)) c.next := by
  rw [conditional, consume_bind]

theorem alternative_succ (n : Nat) (c : Cursor) :
    alternative (n + 1) c =
      if c.kind = .else_ then
        if c.next.kind = .if_ then
          (conditional n >>= fun next => pure (.chained next)) c.next
        else (block n >>= fun body => pure (.block body)) c.next
      else .done .absent c [] := by
  rw [alternative, kind_bind]
  simp only [ite_apply, advance_bind, kind_bind, pure_apply]

theorem block_succ (n : Nat) (c : Cursor) :
    block (n + 1) c =
      (expect .openBrace >>= fun opening => blockBody n >>= fun body =>
        expect .closeBrace >>= fun closing =>
          pure (.braces opening body closing body.isEmpty)) c := by
  rw [block]

theorem operand_succ (n : Nat) (c : Cursor) :
    operand (n + 1) c =
      match c.kind with
      | .ident => .done (.name c.current c.current.lexeme) c.next []
      | .integer => integer c
      | .float => float c
      | .string => .done (.string c.current c.current.lexeme) c.next []
      | .true_ => .done (.boolean c.current true) c.next []
      | .false_ => .done (.boolean c.current false) c.next []
      | .openParen =>
          (expression n 0 >>= fun e => expect .closeParen >>= fun _ => pure e) c.next
      | .not | .minus =>
          (expression n unaryStrength >>= fun right => pure (.unary c.current right)) c.next
      | .if_ => (conditional n >>= fun choice => pure (.conditional choice)) c
      | _ => .broken c [.blame c.current (.expected (text "expression"))] := by
  rw [operand, current_bind, Cursor.kind]
  cases c.current.kind
  case openParen => exact advance_bind _ _
  case not => exact advance_bind _ _
  case minus => exact advance_bind _ _
  all_goals rfl

theorem endOfStatement_apply (c : Cursor) :
    endOfStatement c =
      if c.kind = .semicolon then .done () c.next []
      else if c.kind = .closeBrace || c.kind = .eof then .done () c []
      else .broken c [.blame c.current (.expected (Kind.described .semicolon))] := by
  rw [endOfStatement, kind_bind]
  simp only [ite_apply, advance_apply, pure_apply, complain_apply]

theorem optionalSemicolon_apply (c : Cursor) :
    optionalSemicolon c = .done () (if c.kind = .semicolon then c.next else c) [] := by
  rw [optionalSemicolon, kind_bind, ite_apply]
  split <;> rfl

theorem statement_succ (n : Nat) (c : Cursor) :
    statement (n + 1) c =
      match c.kind with
      | .let_ =>
          (expect .ident >>= fun name => expect .assign >>= fun _ =>
            expression n 0 >>= fun value => endOfStatement >>= fun _ =>
              pure (.binding c.current name name.lexeme value)) c.next
      | .return_ =>
          if c.next.kind = .semicolon || c.next.kind = .closeBrace || c.next.kind = .eof then
            (endOfStatement >>= fun _ => pure (.returning c.current .missing)) c.next
          else
            (expression n 0 >>= fun value => endOfStatement >>= fun _ =>
              pure (.returning c.current value)) c.next
      | .openBrace => (block n >>= fun body => pure (.block body)) c
      | .if_ =>
          (conditional n >>= fun choice => optionalSemicolon >>= fun _ =>
            pure (.expr (.conditional choice))) c
      | _ =>
          (expression n 0 >>= fun value => endOfStatement >>= fun _ => pure (.expr value)) c := by
  rw [statement, kind_bind]
  cases c.kind
  case let_ => exact consume_bind _ _
  case return_ =>
      refine (consume_bind _ _).trans ((kind_bind _ _).trans ?_)
      exact ite_apply _ _ _ _
  all_goals rfl

/-- A statement and those after it: they go on behind the statement, or where
`resume` says when the statement breaks off. -/
def followedBy (o : Outcome Stmt) (more : Parser (List Stmt)) (resume : Cursor → Cursor) :
    Outcome (List Stmt) :=
  match o with
  | .done s rest errors => ((more >>= fun ss => pure (s :: ss)) rest).after errors
  | .broken rest errors => (more (resume rest)).after errors
  | .exhausted => .exhausted

theorem followedBy_done (s : Stmt) (rest : Cursor) (errors : List ParseError)
    (more : Parser (List Stmt)) (resume : Cursor → Cursor) :
    followedBy (.done s rest errors) more resume =
      match more rest with
      | .done ss last later => .done (s :: ss) last (errors ++ later)
      | .broken last later => .broken last (errors ++ later)
      | .exhausted => .exhausted := by
  rw [followedBy, bind_apply]
  cases more rest <;> simp [Outcome.after]

theorem blockBody_succ (n : Nat) (c : Cursor) :
    blockBody (n + 1) c =
      if c.atEnd || c.kind = .closeBrace then .done [] c []
      else if c.kind = .semicolon then blockBody n c.next
      else followedBy (statement n c) (blockBody n) Cursor.boundary := by
  simp only [blockBody]
  cases statement n c with
  | done s rest errors =>
      cases hrest : blockBody n rest <;> simp only [followedBy_done, hrest]
  | broken rest errors => rfl
  | exhausted => rfl

theorem statements_succ (n : Nat) (c : Cursor) :
    statements (n + 1) c =
      if c.atEnd then .done [] c []
      else if c.kind = .semicolon then statements n c.next
      else if c.kind = .closeBrace then
        (statements n c.next).after [.blame c.current .unexpected]
      else followedBy (statement n c) (statements n) fun rest => dropBrace rest.boundary := by
  simp only [statements]
  cases statement n c with
  | done s rest errors =>
      cases hrest : statements n rest <;> simp only [followedBy_done, hrest]
  | broken rest errors => rfl
  | exhausted => rfl

/-! ## More steps -/

/-- Wherever `p` does not run out of steps, `q` does the same. -/
def Below (p q : Parser α) : Prop := ∀ c, p c = .exhausted ∨ p c = q c

theorem Below.refl (p : Parser α) : Below p p := fun _ => Or.inr rfl

theorem below_of_exhausted {p : Parser α} (h : ∀ c, p c = .exhausted) (q : Parser α) :
    Below p q := fun c => Or.inl (h c)

theorem Below.bind {p p' : Parser α} {f f' : α → Parser β} (hp : Below p p')
    (hf : ∀ a, Below (f a) (f' a)) : Below (p >>= f) (p' >>= f') := by
  intro c
  rcases hp c with hex | heq
  · left
    rw [bind_apply, hex]
  · rw [bind_apply, bind_apply, ← heq]
    cases p c with
    | done a rest errors =>
        rcases hf a rest with hex | heq'
        · left
          simp only [hex, Outcome.after]
        · right
          simp only [heq']
    | broken rest errors => exact Or.inr rfl
    | exhausted => exact Or.inl rfl

theorem Below.after {p q : Parser α} (h : Below p q) (errors : List ParseError) (c : Cursor) :
    (p c).after errors = .exhausted ∨ (p c).after errors = (q c).after errors := by
  rcases h c with hex | heq
  · exact Or.inl (by rw [hex]; rfl)
  · exact Or.inr (by rw [heq])

theorem below_followedBy {p q : Parser Stmt} {more more' : Parser (List Stmt)}
    (resume : Cursor → Cursor) (hp : Below p q) (hmore : Below more more') (c : Cursor) :
    followedBy (p c) more resume = .exhausted ∨
      followedBy (p c) more resume = followedBy (q c) more' resume := by
  rcases hp c with hex | heq
  · exact Or.inl (by rw [hex]; rfl)
  · rw [← heq]
    cases p c with
    | done s rest errors => exact (hmore.bind fun _ => Below.refl _).after errors rest
    | broken rest errors => exact hmore.after errors _
    | exhausted => exact Or.inl rfl

/-- Nothing that is finished within `n` steps changes within `n + 1`. -/
structure MoreSteps (n : Nat) : Prop where
  expression : ∀ s, Below (expression n s) (expression (n + 1) s)
  operators : ∀ s left, Below (operators n s left) (operators (n + 1) s left)
  arguments : Below (arguments n) (arguments (n + 1))
  operand : Below (operand n) (operand (n + 1))
  conditional : Below (conditional n) (conditional (n + 1))
  alternative : Below (alternative n) (alternative (n + 1))
  block : Below (block n) (block (n + 1))
  blockBody : Below (blockBody n) (blockBody (n + 1))
  statement : Below (statement n) (statement (n + 1))

theorem moreSteps_zero : MoreSteps 0 where
  expression s := below_of_exhausted (fun _ => by rw [expression]; rfl) _
  operators s left := below_of_exhausted (fun _ => by rw [operators]; rfl) _
  arguments := below_of_exhausted (fun _ => by rw [arguments]; rfl) _
  operand := below_of_exhausted (fun _ => by rw [operand]; rfl) _
  conditional := below_of_exhausted (fun _ => by rw [conditional]; rfl) _
  alternative := below_of_exhausted (fun _ => by rw [alternative]; rfl) _
  block := below_of_exhausted (fun _ => by rw [block]; rfl) _
  blockBody := below_of_exhausted (fun _ => by rw [blockBody]; rfl) _
  statement := below_of_exhausted (fun _ => by rw [statement]; rfl) _

section MoreStepsSucc

variable {n : Nat} (ih : MoreSteps n)
include ih

theorem below_operators_succ (s : Nat) (left : Expr) :
    Below (operators (n + 1) s left) (operators (n + 2) s left) := by
  intro c
  rw [operators_succ, operators_succ]
  split
  · exact Or.inr rfl
  · split
    · exact ih.arguments.bind (fun args => (Below.refl _).bind fun closing =>
        ih.operators s _) _
    · exact (ih.expression _).bind (fun right => ih.operators s _) _

theorem below_arguments_succ : Below (arguments (n + 1)) (arguments (n + 2)) := by
  intro c
  rw [arguments_succ, arguments_succ]
  split
  · exact Or.inr rfl
  · refine (ih.expression 0).bind (fun e => (Below.refl _).bind fun k => ?_) c
    split
    · exact (Below.refl _).bind fun _ => ih.arguments.bind fun _ => Below.refl _
    · exact Below.refl _

theorem below_operand_succ : Below (operand (n + 1)) (operand (n + 2)) := by
  intro c
  rw [operand_succ, operand_succ]
  cases c.kind
  case openParen => exact (ih.expression 0).bind (fun _ => Below.refl _) _
  case not => exact (ih.expression _).bind (fun _ => Below.refl _) _
  case minus => exact (ih.expression _).bind (fun _ => Below.refl _) _
  case if_ => exact ih.conditional.bind (fun _ => Below.refl _) _
  all_goals exact Or.inr rfl

theorem below_conditional_succ : Below (conditional (n + 1)) (conditional (n + 2)) := by
  intro c
  rw [conditional_succ, conditional_succ]
  refine (Below.refl _).bind (fun _ => (ih.expression 0).bind fun condition =>
    (Below.refl _).bind fun _ => ih.block.bind fun body =>
      ih.alternative.bind fun otherwise => Below.refl _) _

theorem below_alternative_succ : Below (alternative (n + 1)) (alternative (n + 2)) := by
  intro c
  rw [alternative_succ, alternative_succ]
  split
  · split
    · exact ih.conditional.bind (fun _ => Below.refl _) _
    · exact ih.block.bind (fun _ => Below.refl _) _
  · exact Or.inr rfl

theorem below_blockBody_succ : Below (blockBody (n + 1)) (blockBody (n + 2)) := by
  intro c
  rw [blockBody_succ, blockBody_succ]
  split
  · exact Or.inr rfl
  · split
    · exact ih.blockBody _
    · exact below_followedBy _ ih.statement ih.blockBody c

theorem below_statement_succ : Below (statement (n + 1)) (statement (n + 2)) := by
  intro c
  rw [statement_succ, statement_succ]
  cases c.kind
  case let_ =>
      exact (Below.refl _).bind (fun _ => (Below.refl _).bind fun _ =>
        (ih.expression 0).bind fun _ => Below.refl _) _
  case return_ =>
      dsimp only
      split
      · exact Or.inr rfl
      · exact (ih.expression 0).bind (fun _ => Below.refl _) _
  case openBrace => exact ih.block.bind (fun _ => Below.refl _) _
  case if_ => exact ih.conditional.bind (fun _ => Below.refl _) _
  all_goals exact (ih.expression 0).bind (fun _ => Below.refl _) _

end MoreStepsSucc

theorem moreSteps : ∀ n, MoreSteps n
  | 0 => moreSteps_zero
  | n + 1 => by
      have ih := moreSteps n
      exact {
        expression := fun s c => by
          rw [expression_succ, expression_succ]
          exact ih.operand.bind (ih.operators s) c
        operators := below_operators_succ ih
        arguments := below_arguments_succ ih
        operand := below_operand_succ ih
        conditional := below_conditional_succ ih
        alternative := below_alternative_succ ih
        block := fun c => by
          rw [block_succ, block_succ]
          exact (Below.refl _).bind (fun _ => ih.blockBody.bind fun _ => Below.refl _) c
        blockBody := below_blockBody_succ ih
        statement := below_statement_succ ih }

theorem below_statements_succ : ∀ n, Below (statements n) (statements (n + 1))
  | 0 => below_of_exhausted (fun _ => rfl) _
  | n + 1 => by
      have ih := below_statements_succ n
      intro c
      rw [statements_succ, statements_succ]
      split
      · exact Or.inr rfl
      · split
        · exact ih _
        · split
          · exact ih.after _ _
          · exact below_followedBy _ (moreSteps n).statement ih c

/-- What is finished within `n` steps stays so with more of them. -/
theorem stable_of_below {p : Nat → Parser α} (h : ∀ n, Below (p n) (p (n + 1))) {n m : Nat}
    (hnm : n ≤ m) {c : Cursor} (hne : p n c ≠ .exhausted) : p m c = p n c := by
  induction hnm with
  | refl => rfl
  | step _ ih =>
      rcases h _ c with hex | heq
      · rw [ih] at hex
        exact absurd hex hne
      · rw [← heq, ih]

/-! ## Breaking off -/

/-- Breaking off always comes with a reason. -/
def Blames (p : Parser α) : Prop := ∀ c rest, p c ≠ .broken rest []

theorem blames_done {a : α} : Blames (pure a) := by
  intro c rest h
  cases h

theorem blames_exhausted : Blames (exhausted : Parser α) := by
  intro c rest h
  cases h

theorem blames_expect (k : Kind) : Blames (expect k) := by
  intro c rest h
  unfold expect at h
  split at h <;> cases h

theorem after_ne_broken {o : Outcome α} {rest : Cursor} (h : ∀ r, o ≠ .broken r [])
    (errors : List ParseError) : o.after errors ≠ .broken rest [] := by
  cases o with
  | done a r es => exact fun hd => by cases hd
  | broken r es =>
      intro hd
      obtain ⟨-, hes⟩ := Outcome.broken.inj hd
      exact h r (by rw [(List.append_eq_nil_iff.mp hes).2])
  | exhausted => exact fun hd => by cases hd

theorem Blames.bind {p : Parser α} {f : α → Parser β} (hp : Blames p) (hf : ∀ a, Blames (f a)) :
    Blames (p >>= f) := by
  intro c rest h
  rw [bind_apply] at h
  split at h
  · exact after_ne_broken (hf _ _) _ h
  · rename_i mid errors hpc
    obtain ⟨rfl, rfl⟩ := Outcome.broken.inj h
    exact hp c mid hpc
  · cases h

theorem blames_ite {P : Prop} [Decidable P] {p q : Parser α} (hp : Blames p) (hq : Blames q) :
    Blames (if P then p else q) := by
  split
  · exact hp
  · exact hq

theorem blames_endOfStatement : Blames endOfStatement := by
  intro c rest
  rw [endOfStatement_apply]
  split
  · exact fun h => by cases h
  · split <;> exact fun h => by cases h

theorem blames_optionalSemicolon : Blames optionalSemicolon := by
  intro c rest
  rw [optionalSemicolon_apply]
  exact fun h => by cases h

theorem followedBy_ne_broken {o : Outcome Stmt} {more : Parser (List Stmt)}
    {resume : Cursor → Cursor} (hmore : Blames more) (rest : Cursor) :
    followedBy o more resume ≠ .broken rest [] := by
  cases o with
  | done s mid errors => exact after_ne_broken ((hmore.bind fun _ => blames_done) mid) errors
  | broken mid errors => exact after_ne_broken (hmore _) errors
  | exhausted => exact fun h => by cases h

/-- Within `n` steps, no parser breaks off without a reason. -/
structure Blaming (n : Nat) : Prop where
  expression : ∀ s, Blames (expression n s)
  operators : ∀ s left, Blames (operators n s left)
  arguments : Blames (arguments n)
  operand : Blames (operand n)
  conditional : Blames (conditional n)
  alternative : Blames (alternative n)
  block : Blames (block n)
  blockBody : Blames (blockBody n)
  statement : Blames (statement n)

theorem blaming_zero : Blaming 0 where
  expression s := by rw [expression]; exact blames_exhausted
  operators s left := by rw [operators]; exact blames_exhausted
  arguments := by rw [arguments]; exact blames_exhausted
  operand := by rw [operand]; exact blames_exhausted
  conditional := by rw [conditional]; exact blames_exhausted
  alternative := by rw [alternative]; exact blames_exhausted
  block := by rw [block]; exact blames_exhausted
  blockBody := by rw [blockBody]; exact blames_exhausted
  statement := by rw [statement]; exact blames_exhausted

section BlamingSucc

variable {n : Nat} (ih : Blaming n)
include ih

theorem blames_operators_succ (s : Nat) (left : Expr) : Blames (operators (n + 1) s left) := by
  intro c rest
  rw [operators_succ]
  split
  · exact fun h => by cases h
  · split
    · exact (ih.arguments.bind fun _ => (blames_expect _).bind fun _ => ih.operators s _) _ _
    · exact ((ih.expression _).bind fun _ => ih.operators s _) _ _

theorem blames_arguments_succ : Blames (arguments (n + 1)) := by
  intro c rest
  rw [arguments_succ]
  split
  · exact fun h => by cases h
  · refine ((ih.expression 0).bind fun e d last => ?_) c rest
    rw [kind_bind]
    refine blames_ite (fun d last => ?_) blames_done d last
    rw [advance_bind]
    exact (ih.arguments.bind fun _ => blames_done) _ _

theorem blames_operand_succ : Blames (operand (n + 1)) := by
  intro c rest
  rw [operand_succ]
  cases c.kind
  case integer =>
      dsimp only [integer]
      split <;> exact fun h => by cases h
  case float =>
      dsimp only [float]
      split <;> exact fun h => by cases h
  case openParen =>
      exact ((ih.expression 0).bind fun _ => (blames_expect _).bind fun _ => blames_done) _ _
  case not => exact ((ih.expression _).bind fun _ => blames_done) _ _
  case minus => exact ((ih.expression _).bind fun _ => blames_done) _ _
  case if_ => exact (ih.conditional.bind fun _ => blames_done) _ _
  all_goals exact fun h => by cases h

theorem blames_conditional_succ : Blames (conditional (n + 1)) := by
  intro c rest
  rw [conditional_succ]
  exact ((blames_expect _).bind fun _ => (ih.expression 0).bind fun _ =>
    (blames_expect _).bind fun _ => ih.block.bind fun _ =>
      ih.alternative.bind fun _ => blames_done) _ _

theorem blames_alternative_succ : Blames (alternative (n + 1)) := by
  intro c rest
  rw [alternative_succ]
  split
  · split
    · exact (ih.conditional.bind fun _ => blames_done) _ _
    · exact (ih.block.bind fun _ => blames_done) _ _
  · exact fun h => by cases h

theorem blames_blockBody_succ : Blames (blockBody (n + 1)) := by
  intro c rest
  rw [blockBody_succ]
  split
  · exact fun h => by cases h
  · split
    · exact ih.blockBody _ _
    · exact followedBy_ne_broken ih.blockBody rest

theorem blames_statement_succ : Blames (statement (n + 1)) := by
  have hclosing : ∀ finish : Expr → Stmt, Blames
      (expression n 0 >>= fun value => endOfStatement >>= fun _ => pure (finish value)) :=
    fun _ => (ih.expression 0).bind fun _ => blames_endOfStatement.bind fun _ => blames_done
  intro c rest
  rw [statement_succ]
  cases c.kind
  case let_ =>
      exact ((blames_expect _).bind fun _ => (blames_expect _).bind fun _ => hclosing _) _ _
  case return_ =>
      dsimp only
      split
      · exact (blames_endOfStatement.bind fun _ => blames_done) _ _
      · exact hclosing _ _ _
  case openBrace => exact (ih.block.bind fun _ => blames_done) _ _
  case if_ =>
      exact (ih.conditional.bind fun _ =>
        blames_optionalSemicolon.bind fun _ => blames_done) _ _
  all_goals exact hclosing _ _ _

end BlamingSucc

theorem blaming : ∀ n, Blaming n
  | 0 => blaming_zero
  | n + 1 => by
      have ih := blaming n
      exact {
        expression := fun s c rest => by
          rw [expression_succ]
          exact (ih.operand.bind (ih.operators s)) c rest
        operators := blames_operators_succ ih
        arguments := blames_arguments_succ ih
        operand := blames_operand_succ ih
        conditional := blames_conditional_succ ih
        alternative := blames_alternative_succ ih
        block := fun c rest => by
          rw [block_succ]
          exact ((blames_expect _).bind fun _ => ih.blockBody.bind fun _ =>
            (blames_expect _).bind fun _ => blames_done) c rest
        blockBody := blames_blockBody_succ ih
        statement := blames_statement_succ ih }

/-- A list of statements without an error is a statement without an error and
such a list. -/
theorem followedBy_eq_done {n : Nat} {c rest : Cursor} {more : Parser (List Stmt)}
    {resume : Cursor → Cursor} {ss : List Stmt}
    (h : followedBy (statement n c) more resume = .done ss rest []) :
    ∃ s ss' mid, statement n c = .done s mid [] ∧ more mid = .done ss' rest [] ∧
      ss = s :: ss' := by
  cases hs : statement n c with
  | done s mid errors =>
      rw [hs, followedBy_done] at h
      split at h
      · rename_i ss' last later hmore
        obtain ⟨rfl, rfl, herr⟩ := Outcome.done.inj h
        obtain ⟨rfl, rfl⟩ := List.append_eq_nil_iff.mp herr
        exact ⟨s, ss', mid, rfl, hmore, rfl⟩
      · cases h
      · cases h
  | broken mid errors =>
      rw [hs, followedBy] at h
      cases hmore : more (resume mid) with
      | done ss' last later =>
          rw [hmore] at h
          obtain ⟨-, -, herr⟩ := Outcome.done.inj h
          obtain ⟨rfl, -⟩ := List.append_eq_nil_iff.mp herr
          exact absurd hs ((blaming n).statement c mid)
      | broken last later =>
          rw [hmore] at h
          cases h
      | exhausted =>
          rw [hmore] at h
          cases h
  | exhausted =>
      rw [hs] at h
      cases h

end Parser

end Scriptlet
