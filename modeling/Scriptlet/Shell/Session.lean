import Scriptlet.Shell.Basic
import Scriptlet.Text.Escape

/-!
# The shell: a session

A session reads lines until an input is complete, answers it and remembers it.
`feed` takes one line; `transcript` feeds all the lines there are and gives what
a reader at the terminal sees.
-/

namespace Scriptlet

namespace Shell

/-! ## Lines and history -/

/-- The most bytes that are read at once. -/
def readLimit : Nat := 4096

/-- The pieces in which a line is read. A line that a newline ended loses the
carriage return before it; a line without one has to hold something. A carriage
return at the end of a full piece is read with what follows. -/
def linePieces (ended : Bool) : Nat → Text → List Text
  | 0, line => [line]
  | fuel + 1, line =>
      if line.length < readLimit then
        if ended then [Source.dropCarriageReturn line]
        else if line.isEmpty then [] else [line]
      else
        let piece := line.take readLimit
        if piece.getLast? = some Byte.carriageReturn then
          piece.dropLast :: linePieces ended fuel (line.drop (readLimit - 1))
        else piece :: linePieces ended fuel (line.drop readLimit)

/-- The lines of an input without their endings. -/
def inputLines (input : Text) : List Text :=
  let lines := input.splitOn Byte.newline
  let pieces (ended : Bool) (line : Text) : List Text := linePieces ended (line.length + 1) line
  lines.dropLast.flatMap (pieces true) ++ pieces false (lines.getLastD [])

/-- How many inputs a history keeps. -/
def historyLimit : Nat := 1000

/-- Adds an input to a history, on one line, unless it repeats the last one. -/
def remember (history : List Text) (input : Text) : List Text :=
  let line := input.map fun c => if c = Byte.newline then Byte.space else c
  if history.getLast? = some line then history
  else
    let longer := history ++ [line]
    longer.drop (longer.length - historyLimit)

/-- The history in a file, up to the first line that is not text or too long to
be read at once. -/
def readHistory (content : Text) : List Text :=
  let lines := (inputLines content).takeWhile fun line =>
    Text.isWellFormed line && line.length < readLimit
  lines.drop (lines.length - historyLimit)

def writeHistory (history : List Text) : Text := history.flatMap fun line => line ++ text "\n"

/-! ## Prompts -/

/-- The spaces and the separators of lines and paragraphs. -/
def separators : List (Nat × Nat) :=
  [(0x20, 0x20), (0xa0, 0xa0), (0x1680, 0x1680), (0x2000, 0x200a), (0x2028, 0x2029),
   (0x202f, 0x202f), (0x205f, 0x205f), (0x3000, 0x3000)]

/-- A prompt can show printable characters and separators: no controls, format
characters, private use or unassigned code points. -/
def isShowable (prompt : Text) : Bool :=
  (Utf8.pieces prompt).all fun piece =>
    match piece with
    | .character code _ =>
        Text.isPrintable code || separators.any fun (first, last) => first ≤ code && code ≤ last
    | .stray _ => true

/-! ## Sessions -/

/-- What stays the same during a session. -/
structure Style where
  prompt : Text
  continuation : Text
  colours : Bool
deriving DecidableEq, Repr

/-- The lines of an input that is not complete yet, and the inputs so far. -/
structure Session where
  unfinished : Option Text
  history : List Text
deriving DecidableEq, Repr

namespace Session

def start (history : List Text) : Session := ⟨none, history⟩

def prompt (style : Style) (s : Session) : Text :=
  if s.unfinished.isSome then style.continuation else style.prompt

/-- Takes one line: the session after it, what is printed, and whether the
shell leaves. -/
def feed (style : Style) (s : Session) (line : Text) : Session × Reply :=
  let input :=
    match s.unfinished with
    | none => line
    | some earlier => earlier ++ text "\n" ++ line
  if needsMore input then ({ s with unfinished := some input }, ⟨[], false⟩)
  else if (Text.trimmed input).isEmpty then ({ s with unfinished := none }, ⟨[], false⟩)
  else (⟨none, remember s.history input⟩, reply style.colours .never input)

/-- Everything printed from here on, and the history at the end. The shell
leaves when the lines run out, or at a prompt it cannot show. -/
def transcript (style : Style) (s : Session) : List Text → Text × List Text
  | [] =>
      let prompt := s.prompt style
      ((if isShowable prompt then prompt else []) ++ text "\n", s.history)
  | line :: lines =>
      let prompt := s.prompt style
      if isShowable prompt then
        let (next, answer) := s.feed style line
        if answer.leaves then (prompt ++ answer.output, next.history)
        else
          let (rest, history) := transcript style next lines
          (prompt ++ answer.output ++ rest, history)
      else (text "\n", s.history)

end Session

def greeting : Text := text "woc shell, :help for help\n"

end Shell

end Scriptlet
