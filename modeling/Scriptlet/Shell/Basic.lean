import Scriptlet.Script
import Scriptlet.Text.Blank
import Scriptlet.Text.Colour
import Scriptlet.Tree.Outline

/-!
# The shell: answering one input

An input is a command, which starts with a colon, or a script to run. `reply`
gives the answer to one input, and `needsMore` tells whether the text read so
far wants another line: a brace, a parenthesis or a string is still open.
-/

namespace Scriptlet

namespace Shell

/-- What the shell prints for an input, and whether it leaves. -/
structure Reply where
  output : Text
  leaves : Bool
deriving DecidableEq, Repr

def help : Text :=
  [text "Enter statements to evaluate them. Input continues on the next line",
   text "while braces or parentheses are open.",
   text "",
   text "  :tokens <src>  print the tokens of src",
   text "  :ast <src>     print the syntax tree of src",
   text "  :help          show this help",
   text "  :quit          leave the shell (or Ctrl+D)"].flatMap fun line => line ++ text "\n"

def showFailure (colours : Bool) (source : Text) (failure : Failure) : Text :=
  let shown := failure.render source
  match failure with
  | .problems _ => Text.painted colours .red shown ++ text "\n"
  | .interrupted _ => Text.painted colours .red (shown ++ text "\n")

def showFailure? (colours : Bool) (source : Text) (failure : Option Failure) : Text :=
  (failure.map (showFailure colours source)).getD []

def showBinding (colours : Bool) (b : Binding) : Text :=
  Text.painted colours .green (b.name ++ text " = " ++ b.value.render ++ text "\n")

/-- The value of an input; null is not worth a line. -/
def showValue (colours : Bool) : Option Value → Text
  | none | some .null => []
  | some v => Text.painted colours .blue v.render ++ text "\n"

def showToken (t : Token) : Text :=
  t.kind.name ++ text " " ++ Text.quoted t.lexeme ++ text "\n"

/-- Runs an input, echoing what its `let` statements announce. -/
def runInput (colours : Bool) (watch : Watch) (source : Text) : Text :=
  let ending := Script.run watch source
  ending.binds.flatMap (showBinding colours)
    ++ (match ending.failure with
        | some failure => showFailure colours source failure
        | none => showValue colours ending.value)

def listTokens (colours : Bool) (source : Text) : Text :=
  let (tokens, failure) := Script.tokens source
  (tokens.filter (!·.isEof)).flatMap showToken ++ showFailure? colours source failure

def listTree (colours : Bool) (source : Text) : Text :=
  let (program, failure) := Script.program source
  Program.outline (program.getD []) ++ showFailure? colours source failure

/-- Answers a command line, which has no blanks around it. -/
def command (colours : Bool) (line : Text) : Reply :=
  let (name, rest) := Text.cut Byte.space line
  let source := Text.trimmed (rest.getD [])
  if name = text ":quit" || name = text ":exit" || name = text ":q" then ⟨[], true⟩
  else if name = text ":help" then ⟨help, false⟩
  else if name = text ":tokens" then ⟨listTokens colours source, false⟩
  else if name = text ":ast" then ⟨listTree colours source, false⟩
  else ⟨text "unknown command " ++ name ++ text ", type :help for help\n", false⟩

def reply (colours : Bool) (watch : Watch) (input : Text) : Reply :=
  let line := Text.trimmed input
  if line.head? = some Byte.colon then command colours line
  else ⟨runInput colours watch input, false⟩

/-! ## Open ends -/

/-- How a token changes the number of open braces and parentheses. -/
def nesting (t : Token) : Int :=
  match t.kind with
  | .openBrace | .openParen => 1
  | .closeBrace | .closeParen => -1
  | _ => 0

/-- A string literal that the source does not close. -/
def isOpenString (source : Text) (t : Token) : Bool :=
  t.kind = .illegal && t.isInvalid && (source.drop t.start.offset).head? = some Byte.quote

def needsMore (source : Text) : Bool :=
  let tokens := (Token.scan source).1
  tokens.any (isOpenString source) || 0 < (tokens.map nesting).foldr (· + ·) 0

end Shell

end Scriptlet
