import Scriptlet.Proofs.Eval.Interruption

/-!
# Braces around statements

Braces may be put around any statements of a program, or of a block, as long as
there is one (`Program.run_braced`). Without a statement they would not be
transparent: an empty block gives null, where nothing at all keeps the value that
was there.

Blocks and programs go through their statements in two ways of their own.
`Program.runFrom_eq_ending` makes the second one a matter of the first: a run that
nothing interrupts does what evaluating the statements in a row does, and next to
an error it tells the value of the last statement that went well
(`Program.lastGood`). So both halves of the law come from
`Stmt.evalAll_append`, and only that last value is left to be compared.
-/

namespace Scriptlet

theorem Evaluation.andThen_of_escapes {e : Evaluation} (h : e.escapes = true)
    (f : Value → Evaluation) : e.andThen f = e := by
  cases hresult : e.result with
  | error err => exact andThen_of_error hresult f
  | ok v => exact andThen_of_wrapped hresult (not_plain_of_escapes h hresult) f

/-! ## Statements in a row -/

namespace Stmt

variable {last v : Value} {err : RuntimeError}

theorem evalAll_append (hlast : last.isPlain = true) (p q : List Stmt) :
    evalAll last (p ++ q) = (evalAll last p).andThen fun v => evalAll v q := by
  induction p generalizing last with
  | nil =>
      rw [evalAll, Evaluation.value_andThen hlast]
      rfl
  | cons s ss ih =>
      rw [List.cons_append, evalAll, evalAll, Evaluation.andThen_assoc]
      exact Evaluation.andThen_ext _ fun v hv => ih hv

/-- Where there is a statement, what came before does not matter. -/
theorem evalAll_of_ne_nil {ss : List Stmt} (h : ss ≠ []) (last v : Value) :
    evalAll last ss = evalAll v ss := by
  cases ss with
  | nil => exact absurd rfl h
  | cons s ss => rw [evalAll, evalAll]

/-- A block in front of other statements does what its own statements do. -/
theorem evalAll_block {ss : List Stmt} (h : ss ≠ []) (hlast : last.isPlain = true)
    (opening closing : Token) (empty : Bool) (q : List Stmt) :
    evalAll last (.block (.braces opening ss closing empty) :: q) = evalAll last (ss ++ q) := by
  rw [evalAll, Stmt.eval, Block.eval, evalAll_append hlast, evalAll_of_ne_nil h .null last]

theorem evalAll_braced (hlast : last.isPlain = true) (p : List Stmt) {ss : List Stmt}
    (h : ss ≠ []) (opening closing : Token) (empty : Bool) (q : List Stmt) :
    evalAll last (p ++ .block (.braces opening ss closing empty) :: q)
      = evalAll last (p ++ ss ++ q) := by
  rw [List.append_assoc, evalAll_append hlast, evalAll_append hlast]
  exact Evaluation.andThen_ext _ fun v hv => evalAll_block h hv opening closing empty q

/-- All statements come to their end. -/
def AllPass (ss : List Stmt) : Prop := ∀ s ∈ ss, s.eval.escapes = false

theorem allPass_of_evalAll {ss : List Stmt} (h : (evalAll last ss).result = .ok v)
    (hv : v.isPlain = true) : AllPass ss := by
  induction ss generalizing last with
  | nil => exact List.forall_mem_nil _
  | cons s ss ih =>
      rw [evalAll] at h
      cases hescapes : s.eval.escapes with
      | true =>
          -- a statement that escapes would be what the whole row comes to
          rw [Evaluation.andThen_of_escapes hescapes] at h
          exact absurd hv (Bool.eq_false_iff.mp (Evaluation.not_plain_of_escapes hescapes h))
      | false =>
          obtain ⟨w, hs, hw⟩ := Evaluation.exists_plain hescapes
          rw [Evaluation.andThen_of_plain hs hw] at h
          exact List.forall_mem_cons.mpr ⟨hescapes, ih h⟩

/-- The statements in a row come as far as one of `ss` behind `p`, and that one fails. -/
def FailsWithin (p ss : List Stmt) (err : RuntimeError) : Prop :=
  ∃ before s behind, ss = before ++ s :: behind ∧ AllPass (p ++ before) ∧ s.eval.result = .error err

theorem failsWithin_of_evalAll {p ss : List Stmt} (hp : AllPass p)
    (h : (evalAll last ss).result = .error err) : FailsWithin p ss err := by
  induction ss generalizing p last with
  | nil =>
      rw [evalAll] at h
      cases h
  | cons s ss ih =>
      rw [evalAll] at h
      cases hescapes : s.eval.escapes with
      | true =>
          rw [Evaluation.andThen_of_escapes hescapes] at h
          exact ⟨[], s, ss, rfl, by rwa [List.append_nil], h⟩
      | false =>
          obtain ⟨w, hs, hw⟩ := Evaluation.exists_plain hescapes
          rw [Evaluation.andThen_of_plain hs hw] at h
          have hps : AllPass (p ++ [s]) :=
            List.forall_mem_append.mpr ⟨hp, List.forall_mem_singleton.mpr hescapes⟩
          obtain ⟨before, s', behind, rfl, hpass, hfails⟩ := ih hps h
          refine ⟨s :: before, s', behind, rfl, ?_, hfails⟩
          rwa [List.append_cons]

end Stmt

/-! ## Runs that nothing interrupts -/

/-- What a program comes to if its statements in a row come to `e`, with `good` to
tell next to an error. -/
def Evaluation.ending (e : Evaluation) (good : Value) : Run :=
  match e.result with
  | .ok v => ⟨v.unwrap, e.binds, none⟩
  | .error err => ⟨some good, e.binds, some (.failed err)⟩

namespace Program

/-- The value of the last statement in front of the first one that does not come to
its end. -/
def lastGood (last : Value) : Program → Value
  | [] => last
  | s :: ss =>
      match s.eval.result with
      | .ok v => if v.isPlain then lastGood v ss else last
      | .error _ => last

variable {last v : Value} {s : Stmt} {p ss : Program}

theorem lastGood_passing (h : s.eval.result = .ok v) (hv : v.isPlain = true) :
    lastGood last (s :: ss) = lastGood v ss := by
  rw [lastGood, h]
  exact if_pos hv

theorem lastGood_escaping (h : s.eval.escapes = true) : lastGood last (s :: ss) = last := by
  rw [lastGood]
  cases hs : s.eval.result with
  | error err => rfl
  | ok v =>
      have hv := Evaluation.not_plain_of_escapes h hs
      simp [hv]

/-- A run goes through its statements as a block does. -/
theorem runFrom_eq_ending (bound : Nat) (hlast : last.isPlain = true) (p : Program) :
    p.runFrom .never bound last = (Stmt.evalAll last p).ending (p.lastGood last) := by
  induction p generalizing bound last with
  | nil =>
      rw [Stmt.evalAll, runFrom, Evaluation.ending]
      cases last <;> first | rfl | cases hlast
  | cons s ss ih =>
      rw [Stmt.evalAll]
      cases hescapes : s.eval.escapes with
      | false =>
          obtain ⟨v, hs, hv⟩ := Evaluation.exists_plain hescapes
          rw [runFrom_passing rfl hs hv, ih _ hv, Evaluation.andThen_of_plain hs hv,
            lastGood_passing hs hv, Evaluation.ending, Evaluation.ending]
          cases (Stmt.evalAll v ss).result <;> rfl
      | true =>
          rw [lastGood_escaping hescapes]
          cases hs : s.eval.result with
          | error err =>
              rw [runFrom_failing rfl hs, Evaluation.andThen_of_error hs, Evaluation.ending, hs]
          | ok v =>
              have hv := Evaluation.not_plain_of_escapes hescapes hs
              rw [runFrom_returning rfl hs hv, Evaluation.andThen_of_wrapped hs hv,
                Evaluation.ending, hs]

/-- Behind statements that come to their end with `v`, the last good value is found
from there on. -/
theorem lastGood_append (h : (Stmt.evalAll last p).result = .ok v) (hv : v.isPlain = true)
    (q : Program) : lastGood last (p ++ q) = lastGood v q := by
  induction p generalizing last with
  | nil =>
      rw [Stmt.evalAll] at h
      rw [← Except.ok.inj h]
      rfl
  | cons s ss ih =>
      have hpass := (List.forall_mem_cons.mp (Stmt.allPass_of_evalAll h hv)).1
      obtain ⟨w, hs, hw⟩ := Evaluation.exists_plain hpass
      rw [Stmt.evalAll, Evaluation.andThen_of_plain hs hw] at h
      rw [List.cons_append, lastGood_passing hs hw, ih h]

/-- Behind statements that do not all come to their end nothing is looked at. -/
theorem lastGood_append_escaping (hlast : last.isPlain = true)
    (h : (Stmt.evalAll last p).escapes = true) (q : Program) :
    lastGood last (p ++ q) = lastGood last p := by
  induction p generalizing last with
  | nil =>
      rw [Stmt.evalAll, Evaluation.escapes] at h
      simp [Evaluation.value, hlast] at h
  | cons s ss ih =>
      rw [List.cons_append]
      cases hescapes : s.eval.escapes with
      | true => rw [lastGood_escaping hescapes, lastGood_escaping hescapes]
      | false =>
          obtain ⟨w, hs, hw⟩ := Evaluation.exists_plain hescapes
          rw [Stmt.evalAll, Evaluation.andThen_of_plain hs hw] at h
          rw [lastGood_passing hs hw, lastGood_passing hs hw]
          exact ih hw h

/-- Braces change the last good value only where the statements in them are come to
and escape. -/
theorem lastGood_braced (hss : ss ≠ []) (p q : Program) (opening closing : Token) (empty : Bool)
    (hlast : last.isPlain = true) :
    lastGood last (p ++ .block (.braces opening ss closing empty) :: q)
        = lastGood last (p ++ ss ++ q) ∨
      ∃ v, (Stmt.evalAll last p).result = .ok v ∧ v.isPlain = true ∧
        (Stmt.evalAll v ss).escapes = true := by
  rw [List.append_assoc]
  cases hp : (Stmt.evalAll last p).escapes with
  | true =>
      rw [lastGood_append_escaping hlast hp, lastGood_append_escaping hlast hp]
      exact Or.inl rfl
  | false =>
      obtain ⟨v, hv, hplain⟩ := Evaluation.exists_plain hp
      cases hescapes : (Stmt.evalAll v ss).escapes with
      | true => exact Or.inr ⟨v, hv, hplain, hescapes⟩
      | false =>
          obtain ⟨w, hw, hwplain⟩ := Evaluation.exists_plain hescapes
          have hblock : (Stmt.block (.braces opening ss closing empty)).eval.result = .ok w := by
            rw [Stmt.eval, Block.eval, Stmt.evalAll_of_ne_nil hss .null v, hw]
          rw [lastGood_append hv hplain, lastGood_append hv hplain, lastGood_passing hblock hwplain,
            lastGood_append hw hwplain]
          exact Or.inl rfl

/-- Braces around some statements of a program, or of a block, change nothing but
the last good value that a program tells next to an error, and that only where the
error comes from a statement in the braces. -/
theorem run_braced (p : Program) {ss : List Stmt} (hss : ss ≠ []) (q : Program)
    (opening closing : Token) (empty : Bool) :
    let flat := p ++ ss ++ q
    let braced := p ++ .block (.braces opening ss closing empty) :: q
    ((braced.run .never).binds = (flat.run .never).binds ∧
      (braced.run .never).stop = (flat.run .never).stop ∧
      ((braced.run .never).value = (flat.run .never).value ∨
        ∃ err, (flat.run .never).stop = some (.failed err) ∧ Stmt.FailsWithin p ss err)) ∧
    ∀ (opening closing : Token) (empty : Bool),
      (Block.braces opening braced closing empty).eval
        = (Block.braces opening flat closing empty).eval := by
  intro flat braced
  have hrow : Stmt.evalAll .null braced = Stmt.evalAll .null flat :=
    Stmt.evalAll_braced rfl p hss opening closing empty q
  have hends : ∀ r : Program, r.run .never = (Stmt.evalAll .null r).ending (r.lastGood .null) :=
    runFrom_eq_ending 0 rfl
  refine ⟨?_, fun _ _ _ => by rw [Block.eval, Block.eval, hrow]⟩
  rw [hends, hends, hrow]
  cases hresult : (Stmt.evalAll .null flat).result with
  | ok v =>
      simp only [Evaluation.ending, hresult, true_or, and_self]
  | error err =>
      simp only [Evaluation.ending, hresult, true_and]
      have hnull : Value.null.isPlain = true := rfl
      rcases lastGood_braced hss p q opening closing empty hnull with
        hgood | ⟨v, hv, hplain, hescapes⟩
      · exact Or.inl (congrArg some hgood)
      · have hfails : (Stmt.evalAll v ss).result = .error err := by
          rw [← hresult, show flat = p ++ (ss ++ q) from List.append_assoc _ _ _,
            Stmt.evalAll_append rfl, Evaluation.andThen_of_plain hv hplain,
            Stmt.evalAll_append hplain, Evaluation.andThen_of_escapes hescapes]
        have hpass := Stmt.allPass_of_evalAll hv hplain
        exact Or.inr ⟨err, rfl, Stmt.failsWithin_of_evalAll hpass hfails⟩

/-- The block fails at its third statement, next to which the program tells the
value in front of the block; without braces it tells that of the statement in front
of the failing one. -/
theorem run_braced_failing :
    let t := Token.endOfInput .start
    let number (n : Int64) : Stmt := .expr (.integer t n)
    let p : Program := [.binding t t (text "a") (.integer t 1), number 5]
    let ss : List Stmt := [.binding t t (text "b") (.integer t 2), number 7,
      .expr (.binary (.integer t 1) { t with kind := .slash } (.integer t 0))]
    let q : Program := [number 9]
    let flat := p ++ ss ++ q
    let braced := p ++ .block (.braces t ss t false) :: q
    (ss ≠ [] ∧ (flat.run .never).value = some (.integer 7) ∧
      (braced.run .never).value = some (.integer 5)) ∧
    (braced.run .never).binds = (flat.run .never).binds ∧
    (braced.run .never).stop = (flat.run .never).stop ∧
    ∃ err, (flat.run .never).stop = some (.failed err) ∧ Stmt.FailsWithin p ss err := by
  intro t number p ss q flat braced
  have hss : ss ≠ [] := List.cons_ne_nil _ _
  have hflat : (flat.run .never).value = some (.integer 7) := by decide +kernel
  have hbraced : (braced.run .never).value = some (.integer 5) := by decide +kernel
  obtain ⟨⟨hbinds, hstop, hvalue⟩, -⟩ := run_braced p hss q t t false
  refine ⟨⟨hss, hflat, hbraced⟩, hbinds, hstop, hvalue.resolve_left ?_⟩
  rw [hflat, hbraced]
  decide

end Program

end Scriptlet
