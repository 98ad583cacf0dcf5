import Scriptlet.ErrorList
import Scriptlet.Source.File
import Scriptlet.Token.Basic
import Scriptlet.Token.Lexeme

/-!
# Scanning

A `Scanner` stands at a position of a source with the unread bytes before it.
`next` skips layout and takes one token; at the end of the source it gives the
end token again and again. `all` takes tokens up to and with the end token, and
`Token.scan` does so for a whole source. Every illegal token leaves one error
in the scanner, in source order, and is counted.
-/

namespace Scriptlet

/-- A lexical fault and where it stands. -/
structure ScanError where
  start : Position
  fault : Fault
deriving DecidableEq, Repr

def ScanError.message (e : ScanError) : Text := e.start.render ++ text ": " ++ e.fault.message

structure FailedAssertion where
  statement : Text
deriving DecidableEq, Repr

def FailedAssertion.message (a : FailedAssertion) : Text :=
  text "assertion failed: " ++ a.statement

structure Scanner where
  position : Position
  unread : Text
  errors : List ScanError
  errorCount : Nat
deriving DecidableEq, Repr

namespace Scanner

def ofSource (source : Text) : Scanner := ⟨.start, source, [], 0⟩

/-- A scanner is made for a file, and it is asserted that there is one. -/
def ofFile : Option SourceFile → Except FailedAssertion Scanner
  | some file => .ok (ofSource file.content)
  | none => .error ⟨text "scanner: nil file"⟩

/-- Steps over the layout before the next token. -/
def skipLayout (s : Scanner) : Scanner :=
  { s with
    position := s.position.advance (s.unread.takeWhile Byte.isLayout)
    unread := s.unread.dropWhile Byte.isLayout }

/-- Puts a lexeme of the unread bytes into its place. -/
def place (s : Scanner) (l : Lexeme) : Token :=
  { kind := l.kind
    lexeme := l.content
    start := s.position
    stop := s.position.advance (s.unread.take l.width)
    length := l.width
    isEof := l.kind = .eof
    isInvalid := l.fault?.isSome }

/-- The scanner behind a lexeme of its unread bytes. -/
def behind (s : Scanner) (l : Lexeme) : Scanner :=
  { position := s.position.advance (s.unread.take l.width)
    unread := s.unread.drop l.width
    errors := ErrorList.add s.errors (l.fault?.map (ScanError.mk s.position))
    errorCount := if l.fault?.isSome then s.errorCount + 1 else s.errorCount }

/-- Takes the next token. -/
def next (s : Scanner) : Token × Scanner :=
  let here := s.skipLayout
  let l := Lexeme.read here.unread
  (here.place l, here.behind l)

/-- At most `fuel` tokens, up to and with the end token. -/
def take : Nat → Scanner → List Token × Scanner
  | 0, s => ([], s)
  | fuel + 1, s =>
      let (t, rest) := s.next
      if t.isEof then ([t], rest)
      else
        let (ts, last) := take fuel rest
        (t :: ts, last)

/-- All tokens up to and with the end token. Each of them but the end token
takes a byte at least, so the bytes bound their number. -/
def all (s : Scanner) : List Token × Scanner := s.take (s.unread.length + 1)

end Scanner

/-- The tokens of a source, and its lexical errors. -/
def Token.scan (source : Text) : List Token × List ScanError :=
  let (tokens, scanner) := (Scanner.ofSource source).all
  (tokens, scanner.errors)

end Scriptlet
