import Scriptlet.Text.Basic

/-!
# Error lists

The errors of one pass over a source, in the order in which the pass met them.
-/

namespace Scriptlet

namespace ErrorList

variable {ε : Type}

/-- The errors behind a step that met one, or none. -/
def add (errors : List ε) (met : Option ε) : List ε := errors ++ met.toList

@[simp] theorem add_none (errors : List ε) : add errors none = errors := List.append_nil errors

@[simp] theorem add_some (errors : List ε) (e : ε) : add errors (some e) = errors ++ [e] := rfl

/-- What there is to say of all of them, an error a line, or nothing when there
is no error. -/
def message? (say : ε → Text) (errors : List ε) : Option Text :=
  if errors.isEmpty then none else some (Text.joinLines (errors.map say))

end ErrorList

end Scriptlet
