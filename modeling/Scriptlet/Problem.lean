import Scriptlet.Eval.Error
import Scriptlet.Parse.Error
import Scriptlet.Source.Lines
import Scriptlet.Token.Scanner

/-!
# Problems and how they are shown

Everything that can be wrong with a script. A problem that stands somewhere in
the source is shown with the line it is in and carets under the stretch it is
about; a stretch over several rows gets a single caret at its start.
-/

namespace Scriptlet

/-- `other` is a problem that stands nowhere in the source. -/
inductive Problem where
  | lexical (error : ScanError)
  | grammatical (error : ParseError)
  | runtime (error : RuntimeError)
  | other (message : Text)

/-- A line with its number, and carets under the columns from `start` up to
`stop`, one at least. -/
def excerpt (number : Int) (line explanation : Text) (start stop : Nat) : Text :=
  text "error: " ++ explanation ++ text "\n"
    ++ Text.padLeft 3 (Text.ofInt number) ++ text " | " ++ line ++ text "\n"
    ++ text "    | " ++ Text.blanks start ++ List.replicate (max 1 (stop - start)) 0x5e

/-- An excerpt for columns that may lie in front of the line. Nothing can be
shown where the first one does. -/
def excerpt? (number : Int) (line explanation : Text) (start stop : Int) : Option Text :=
  if start < 0 then none else some (excerpt number line explanation start.toNat stop.toNat)

namespace Problem

def message : Problem → Text
  | lexical e => e.message
  | grammatical e => e.message
  | runtime e => e.message
  | other message => message

/-- The message without the position in front of it. -/
def explanation : Problem → Text
  | lexical e => e.fault.message
  | grammatical e => e.explanation
  | runtime e => e.explanation
  | other message => message

/-- The stretch of source a problem is about. The end of input counts as one
column. -/
def span? : Problem → Option Span
  | lexical e => some ⟨e.start, e.start.right⟩
  | grammatical e => some ⟨e.start, if e.got.isEof then e.got.stop.right else e.got.stop⟩
  | runtime e => e.span?
  | other _ => none

/-- The first and the last column, the latter not included, to be underlined. -/
def columns (s : Span) : Nat × Nat :=
  (s.start.col, if s.stop.row = s.start.row then s.stop.col else s.start.col + 1)

/-- A problem shown in its source, where there is one. -/
def render (source : Option Text) (p : Problem) : Text :=
  match source, p.span? with
  | some src, some s =>
      let (start, stop) := columns s
      excerpt (s.start.row + 1) (Source.line src s.start.row) p.explanation start stop
  | _, _ => text "error: " ++ p.message

end Problem

end Scriptlet
