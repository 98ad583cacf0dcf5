import Scriptlet.Command.Execute

/-!
# The program

Reads what a command line needs from files and the terminal, lets the library
do the work, and writes what comes of it. The shell is fed line by line, so
that it answers while its input goes on.
-/

namespace Scriptlet

namespace Terminal

def toText (bytes : ByteArray) : Text := bytes.toList

def ofText (s : Text) : ByteArray := ⟨s.toArray⟩

def nameOf (path : Text) : String := (String.fromUTF8? (ofText path)).getD ""

def readFile (path : Text) : IO (Except ReadError Text) := do
  try
    return .ok (toText (← IO.FS.readBinFile (nameOf path)))
  catch e =>
    return .error <| match e with
      | .inappropriateType .. => .notDirectory
      | .invalidArgument .. => .badName
      | _ => .missing

def print (s : Text) : IO Unit := do
  let out ← IO.getStdout
  out.write (ofText s)
  out.flush

def printError (s : Text) : IO Unit := do
  (← IO.getStderr).write (ofText s)

/-- What reading each of the paths gives. -/
def gather (paths : List Text) : IO (List (Text × Except ReadError Text)) :=
  paths.mapM fun path => return (path, ← readFile path)

/-- Writes a file, with the directories above it. A file that cannot be written
is let go. -/
def save (file : SavedFile) : IO Unit := do
  let parts := file.path.splitOn Byte.slash
  let above := [Byte.slash].intercalate parts.dropLast
  try
    unless above.isEmpty do
      IO.FS.createDirAll (nameOf above)
    IO.FS.writeBinFile (nameOf file.path) (ofText file.content)
  catch _ => return

/-- Colours are for terminals that know them. -/
def wantsColours : IO Bool := do
  let plain := (← IO.getEnv "NO_COLOR").getD "" != "" || (← IO.getEnv "TERM") == some "dumb"
  return !plain && (← (← IO.getStdout).isTty)

/-- Reads lines and answers them until the shell leaves; gives the history. -/
partial def converse (style : Shell.Style) (session : Shell.Session) : IO (List Text) := do
  let prompt := session.prompt style
  if !Shell.isShowable prompt then
    print (text "\n")
    return session.history
  print prompt
  let line := text (← (← IO.getStdin).getLine)
  if line.isEmpty then
    print (text "\n")
    return session.history
  let (next, reply) := session.feed style ((Shell.inputLines line).headD [])
  print reply.output
  if reply.leaves then return next.history else converse style next

def shell (settings : Settings) (colours : Bool) : IO Unit := do
  let history := Shell.readHistory ((← readFile settings.historyFile).toOption.getD [])
  print Shell.greeting
  let style : Shell.Style := ⟨settings.prompt, settings.continuation, colours⟩
  let history ← converse style (.start history)
  save ⟨settings.historyFile, Shell.writeHistory history⟩

end Terminal

end Scriptlet

open Scriptlet Terminal in
def main (args : List String) : IO UInt32 := do
  let args := args.map text
  let home := (((← IO.getEnv "HOME").getD "") |> fun h => if h.isEmpty then none else some (text h))
  let files ← gather (Invocation.paths home args)
  let world : World :=
    { read := fun path => (files.lookup path).getD (.error .missing)
      input := [], home, colours := (← wantsColours) }
  match shellOf world args with
  | some (settings, colours) =>
      shell settings colours
      return 0
  | none =>
      let report := execute world args
      print report.output
      printError report.errors
      return if report.ok then 0 else 1
