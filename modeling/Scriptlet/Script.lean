import Scriptlet.Eval.Program
import Scriptlet.Parse.Program
import Scriptlet.Problem

/-!
# Scripts

From source text to tokens, to a program, to a run. Lexical problems keep a
script from being parsed, and problems of either kind keep it from being run.
-/

namespace Scriptlet

/-- Why a script did not come to its end. -/
inductive Failure where
  | problems (ps : List Problem)
  | interrupted (why : Interruption)

namespace Failure

def message : Failure → Text
  | problems ps => Text.joinLines (ps.map Problem.message)
  | interrupted why => why.message

/-- The failure as people want to see it, with excerpts of the source. -/
def render (source : Text) : Failure → Text
  | problems ps => Text.joinLines (ps.map (Problem.render (some source)))
  | interrupted why => text "error: " ++ why.message

/-- No problems are no failure. -/
def ofProblems? : List Problem → Option Failure
  | [] => none
  | ps => some (problems ps)

def ofStop : Stop → Failure
  | .failed e => problems [.runtime e]
  | .interrupted why => interrupted why

end Failure

namespace Script

/-- The tokens of a source; they are there with or without problems. -/
def tokens (source : Text) : List Token × Option Failure :=
  let (ts, errors) := Token.scan source
  (ts, Failure.ofProblems? (errors.map .lexical))

/-- The program of a source: all of it, what is left of it next to the parse
errors, or none next to lexical errors. -/
def program (source : Text) : Option Program × Option Failure :=
  match Token.scan source with
  | (ts, []) =>
      let parsed := parse ts
      (some parsed.program, Failure.ofProblems? (parsed.errors.map .grammatical))
  | (_, errors) => (none, Failure.ofProblems? (errors.map .lexical))

/-- How a source came to its end. -/
structure Ending where
  value : Option Value
  binds : List Binding
  failure : Option Failure

def run (watch : Watch) (source : Text) : Ending :=
  match program source with
  | (some p, none) =>
      let r := p.run watch
      ⟨r.value, r.binds, r.stop.map .ofStop⟩
  | (_, failure) => ⟨none, [], failure⟩

end Script

end Scriptlet
