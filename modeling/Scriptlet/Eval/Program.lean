import Scriptlet.Eval.Basic

/-!
# Running programs

A program runs statement by statement, and its value is that of the last one. A
`return` ends it with its own value. An error ends it too, with the value of
the last statement that went well. Between two statements, and before the
first, the run may be interrupted.
-/

namespace Scriptlet

/-- Why a run was interrupted. -/
inductive Interruption where
  | cancelled
  | expired
deriving DecidableEq, Repr

def Interruption.message : Interruption → Text
  | .cancelled => text "context canceled"
  | .expired => text "context deadline exceeded"

/-- When a run is to be interrupted: never, from the start, or once so many
bindings were announced. -/
inductive Watch where
  | never
  | fromStart (why : Interruption)
  | afterBinds (count : Nat)
deriving DecidableEq, Repr

/-- Whether a run that has announced `bound` bindings is to stop. -/
def Watch.check : Watch → Nat → Option Interruption
  | .never, _ => none
  | .fromStart why, _ => some why
  | .afterBinds count, bound => if count ≤ bound then some .cancelled else none

/-- Why a run ended before its last statement. -/
inductive Stop where
  | failed (error : RuntimeError)
  | interrupted (why : Interruption)

/-- What came of a run. A value is there always; the type leaves room for a
`return` of nothing. -/
structure Run where
  value : Option Value
  binds : List Binding
  stop : Option Stop

/-- Runs the statements that are left, after `bound` bindings and the value
`last`. -/
def Program.runFrom (watch : Watch) (bound : Nat) (last : Value) : Program → Run
  | [] => ⟨some last, [], none⟩
  | s :: ss =>
      match watch.check bound with
      | some why => ⟨some last, [], some (.interrupted why)⟩
      | none =>
          let e := s.eval
          match e.result with
          | .error err => ⟨some last, e.binds, some (.failed err)⟩
          | .ok v =>
              if v.isPlain then
                let rest := Program.runFrom watch (bound + e.binds.length) v ss
                { rest with binds := e.binds ++ rest.binds }
              else ⟨v.unwrap, e.binds, none⟩

def Program.run (watch : Watch) (p : Program) : Run := p.runFrom watch 0 .null

end Scriptlet
