import Scriptlet.Number.Shortest
import Scriptlet.Text.Quoted

/-!
# Values

Integers have 64 bits and wrap around, floats are doubles, strings are byte
text. A value on its way out of a `return` is wrapped in `returned` until the
program ends; `returnedNothing` is such a wrapper around no value at all, which
evaluation never makes. All other values are plain.
-/

namespace Scriptlet

inductive Value where
  | integer (n : Int64)
  | float (x : Float)
  | boolean (b : Bool)
  | string (s : Text)
  | null
  | returned (content : Value)
  | returnedNothing
deriving DecidableEq

instance : Inhabited Value := ⟨.null⟩

/-- What a value is called in messages. `unknown` answers for numbers that no
kind of value has. -/
inductive ValueKind where
  | unknown | integer | float | boolean | string | null | returned
deriving DecidableEq, Repr

namespace ValueKind

/-- All kinds in the order of their numbers. -/
def all : List ValueKind := [unknown, integer, float, boolean, string, null, returned]

def ofNumber (n : Nat) : ValueKind := all[n]?.getD unknown

def name : ValueKind → Text
  | unknown => text "INVALID"
  | integer => text "INTEGER"
  | float => text "FLOAT"
  | boolean => text "BOOLEAN"
  | string => text "STRING"
  | null => text "NULL"
  | returned => text "RETURN"

end ValueKind

namespace Value

def kind : Value → ValueKind
  | integer _ => .integer
  | float _ => .float
  | boolean _ => .boolean
  | string _ => .string
  | null => .null
  | returned _ => .returned
  | returnedNothing => .returned

/-- A value that is not on its way out of a `return`. -/
def isPlain : Value → Bool
  | returned _ => false
  | returnedNothing => false
  | _ => true

/-! ## Text of a value -/

/-- Doubles are written positionally from 0.0001 up to a million. -/
def floatLayout : Number.Layout := ⟨-4, 6, 2⟩

/-- A double with a point in it, so that it can be told from an integer. -/
def renderFloat (x : Float) : Text :=
  let s := floatLayout.render x
  if s.any fun c => (text ".eIN").contains c then s else s ++ text ".0"

def render : Value → Text
  | integer n => Text.ofInt n.toInt
  | float x => renderFloat x
  | boolean b => text (if b then "true" else "false")
  | string s => Text.quoted s
  | null => text "null"
  | returned content => content.render
  | returnedNothing => text "null"

/-! ## Wrapping and truth -/

/-- The value inside a wrapper, or the value itself. -/
def unwrap : Value → Option Value
  | returned content => some content
  | returnedNothing => none
  | v => some v

/-- Wraps a value for its way out. Nothing becomes null, and a wrapped value
stays as it is. -/
def wrap : Option Value → Value
  | none => returned null
  | some v => if v.isPlain then returned v else v

/-- Everything counts as true but false, null, zero and nothing. -/
def countsAsTrue : Option Value → Bool
  | none => false
  | some (boolean b) => b
  | some null => false
  | some (integer n) => n != 0
  | some (float x) => x != 0.0
  | some _ => true

def isTruthy (v : Value) : Bool := countsAsTrue v.unwrap

/-! ## Comparing -/

/-- The number of a value as a double. -/
def toFloat? : Value → Option Float
  | integer n => some (Float.ofInt n.toInt)
  | float x => some x
  | _ => none

def isNumeric (v : Value) : Bool := v.toFloat?.isSome

/-- Two values of one kind with the same content; doubles compare as numbers. -/
def same : Value → Value → Bool
  | integer a, integer b => a == b
  | float a, float b => a == b
  | boolean a, boolean b => a == b
  | string a, string b => a == b
  | null, null => true
  | returned a, returned b => same a b
  | returnedNothing, returnedNothing => true
  | _, _ => false

/-- Equality in scripts: numbers compare across integers and floats, and values
of any other two kinds differ. -/
def equal (a b : Value) : Bool :=
  if a.kind = b.kind then same a b
  else
    match a.toFloat?, b.toFloat? with
    | some x, some y => x == y
    | _, _ => false

end Value

end Scriptlet
