import Scriptlet.Command.Usage
import Scriptlet.Settings.Load
import Scriptlet.Shell.Session
import Scriptlet.Tree.Canonical

/-!
# Running commands

A command sees a world of files, an input and a home directory, and leaves a
report: whether all went well, what was printed, and the file it saved. The
settings are loaded before the command runs, and decide on colours from then
on.
-/

namespace Scriptlet

/-- What a command can see. -/
structure World where
  read : Text → Except ReadError Text
  input : Text
  home : Option Text
  colours : Bool

/-- A world with the files listed, by path. -/
def World.ofFiles (files : List (Text × Text)) (input : Text) (home : Option Text)
    (colours : Bool) : World :=
  { read := (Files.ofPaths files).read, input, home, colours }

/-- A file to be written. -/
structure SavedFile where
  path : Text
  content : Text
deriving DecidableEq, Repr

structure Report where
  ok : Bool
  output : Text
  errors : Text
  saved : Option SavedFile
deriving DecidableEq, Repr

namespace Report

def done (output : Text) : Report := ⟨true, output, [], none⟩

/-- A message in red on the error output. -/
def failed (colours : Bool) (output message : Text) : Report :=
  ⟨false, output, Text.painted colours .red message ++ text "\n", none⟩

/-- What was printed, and the failure of a script, if it failed. -/
def ofScript (colours : Bool) (source output : Text) : Option Failure → Report
  | none => done output
  | some failure => failed colours output (failure.render source)

end Report

/-! ## Commands on a file -/

/-- Rows of cells, each column but the last two blanks wider than its widest
cell. -/
def tokenTable (tokens : List Token) : Text :=
  let widest (cell : Token → Text) : Nat := (tokens.map fun t => (cell t).length).foldl max 0 + 2
  let position (t : Token) : Text := t.start.render
  let kind (t : Token) : Text := t.kind.name
  tokens.flatMap fun t =>
    Text.padRight (widest position) (position t) ++ Text.padRight (widest kind) (kind t)
      ++ Text.quoted t.lexeme ++ text "\n"

def runScript (colours : Bool) (source : Text) : Report :=
  let ending := Script.run .never source
  match ending.failure, ending.value with
  | none, some v => .done (Text.painted colours .blue v.render ++ text "\n")
  | failure, _ => .ofScript colours source [] failure

def printTokens (colours : Bool) (source : Text) : Report :=
  let (tokens, failure) := Script.tokens source
  .ofScript colours source (tokenTable tokens) failure

/-- The program as an outline, or in canonical form on lines of its own. -/
def printProgram (tree : Bool) (p : Program) : Text :=
  if tree then p.outline
  else if p.isEmpty then []
  else p.canonical ++ text "\n"

def printTree (colours tree : Bool) (source : Text) : Report :=
  let (program, failure) := Script.program source
  .ofScript colours source (printProgram tree (program.getD [])) failure

/-! ## The shell -/

def runShell (w : World) (settings : Settings) (colours : Bool) : Report :=
  let style : Shell.Style := ⟨settings.prompt, settings.continuation, colours⟩
  let history := Shell.readHistory ((w.read settings.historyFile).toOption.getD [])
  let (output, history) :=
    (Shell.Session.start history).transcript style (Shell.inputLines w.input)
  ⟨true, Shell.greeting ++ output, [], some ⟨settings.historyFile, Shell.writeHistory history⟩⟩

/-! ## All commands -/

/-- Does something with the content of a file, of which only the name is given. -/
def World.withFile (w : World) (colours : Bool) (path : Text) (f : Text → Report) : Report :=
  match (SourceFile.load w.read path .nothing).loaded with
  | .ok source => f source
  | .error e => .failed colours [] (text "error: " ++ e.message path)

def perform (w : World) (settings : Settings) (colours : Bool) : Request → Report
  | .overview => .done []
  | .run file => w.withFile colours file (runScript colours)
  | .tokens file => w.withFile colours file (printTokens colours)
  | .ast file tree => w.withFile colours file (printTree colours tree)
  | .repl => runShell w settings colours

/-- Whether colours are wanted, once the settings are known. -/
def wantsColours (w : World) (invocation : Invocation) (settings : Settings) : Bool :=
  w.colours && !invocation.noColour && settings.colours

/-- Runs a command line. -/
def execute (w : World) (args : List Text) : Report :=
  match Invocation.read args with
  | .error e => .failed w.colours [] (text "error: " ++ e.message)
  | .ok invocation =>
      match Settings.load w.read w.home invocation.config with
      | .error e => .failed w.colours [] (text "error: " ++ e.message)
      | .ok settings => perform w settings (wantsColours w invocation settings) invocation.request

/-! ## What a command line will look at -/

/-- The files a command line reads before it runs: its settings, and the script
it is about. -/
def Invocation.paths (home : Option Text) (args : List Text) : List Text :=
  match Invocation.read args with
  | .error _ => []
  | .ok invocation =>
      Settings.path home invocation.config
        :: (match invocation.request with
            | .run file | .tokens file | .ast file _ => [file]
            | .overview | .repl => [])

/-- The settings and the use of colours of a shell, when a command line starts
one. -/
def shellOf (w : World) (args : List Text) : Option (Settings × Bool) :=
  match Invocation.read args with
  | .error _ => none
  | .ok invocation =>
      match invocation.request, Settings.load w.read w.home invocation.config with
      | .repl, .ok settings => some (settings, wantsColours w invocation settings)
      | _, _ => none

end Scriptlet
