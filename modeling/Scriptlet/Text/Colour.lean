import Scriptlet.Text.Basic

/-!
# Coloured text

Text between the escape sequences that switch a terminal's colour on and off.
-/

namespace Scriptlet

inductive Hue where
  | red
  | green
  | blue
deriving DecidableEq, Repr

def Hue.code : Hue → Text
  | .red => text "31"
  | .green => text "32"
  | .blue => text "34"

/-- A text in a colour, if colours are wanted. -/
def Text.painted (wanted : Bool) (hue : Hue) (s : Text) : Text :=
  if wanted then text "\x1b[" ++ hue.code ++ text "m" ++ s ++ text "\x1b[0m" else s

end Scriptlet
