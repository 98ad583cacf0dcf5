import Scriptlet.Text.Basic

/-!
# Lines of a source

The line table lists the offset at which each line begins. A newline at the
very end of the source begins no line, and an empty source has none. `line`
gives the text of a row without its line ending.
-/

namespace Scriptlet

namespace Source

/-- Offsets of the lines that begin after a newline of `s`, when `s` begins at
`offset`. -/
def laterLines (offset : Nat) : Text → List Nat
  | [] => []
  | c :: s =>
      if c = Byte.newline && !s.isEmpty then (offset + 1) :: laterLines (offset + 1) s
      else laterLines (offset + 1) s

/-- The line table. -/
def lineOffsets (source : Text) : List Nat :=
  if source.isEmpty then [] else 0 :: laterLines 0 source

/-- Takes one carriage return off the end. -/
def dropCarriageReturn (s : Text) : Text :=
  if s.getLast? = some Byte.carriageReturn then s.dropLast else s

/-- The text of a row without its line ending; a row outside the source is
empty. -/
def line (source : Text) (row : Nat) : Text :=
  match (lineOffsets source)[row]? with
  | none => []
  | some begin =>
      dropCarriageReturn ((source.drop begin).takeWhile (· != Byte.newline))

end Source

end Scriptlet
