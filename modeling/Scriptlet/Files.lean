import Scriptlet.Path

/-!
# Files

A small world of files, each under a path relative to the directory one works
in. Reading follows a path part by part, as a file system does: `..` leads back
only from a directory that is there, and nothing lies below a file. What goes
wrong first is the reason that is given.
-/

namespace Scriptlet

/-- Why a file cannot be read. -/
inductive ReadError where
  | missing
  | notDirectory
  | isDirectory
  | nameTooLong
  | badName
deriving DecidableEq, Repr

/-- A directory is opened like a file, and fails only when it is read. -/
def ReadError.message (path : Text) : ReadError → Text
  | .missing => text "open " ++ path ++ text ": no such file or directory"
  | .notDirectory => text "open " ++ path ++ text ": not a directory"
  | .isDirectory => text "read " ++ path ++ text ": is a directory"
  | .nameTooLong => text "open " ++ path ++ text ": file name too long"
  | .badName => text "open " ++ path ++ text ": invalid argument"

/-- A file: the parts of its path, and its content. -/
structure StoredFile where
  parts : List Text
  content : Text
deriving DecidableEq, Repr

abbrev Files := List StoredFile

namespace Files

def ofPaths (files : List (Text × Text)) : Files :=
  files.map fun (path, content) => ⟨(Path.clean path).splitOn Byte.slash, content⟩

def contentAt? (files : Files) (parts : List Text) : Option Text :=
  (files.find? fun file => file.parts == parts).map StoredFile.content

/-- A directory is there when some file lies below it. -/
def hasDirectory (files : Files) (parts : List Text) : Bool :=
  files.any fun file => parts.isPrefixOf file.parts && parts.length < file.parts.length

/-- Parts that lead nowhere new. -/
def isIdle (part : Text) : Bool := part.isEmpty || part = text "."

/-- The longest name of a file, and the longest path. -/
def nameLimit : Nat := 255

def pathLimit : Nat := 4095

/-- Follows the parts of a path from a directory on. Outside of the directory
one works in there is nothing to be found. -/
def follow (files : Files) (here : List Text) : List Text → Except ReadError Text
  | [] => .error .isDirectory
  | part :: rest =>
      if isIdle part then follow files here rest
      else if part = text ".." then
        if !here.isEmpty then follow files here.dropLast rest
        else if rest.all fun p => isIdle p || p = text ".." then .error .isDirectory
        else .error .missing
      else if nameLimit < part.length then .error .nameTooLong
      else
        let there := here ++ [part]
        match contentAt? files there with
        | some content => if rest.isEmpty then .ok content else .error .notDirectory
        | none => if hasDirectory files there then follow files there rest else .error .missing

def read (files : Files) (path : Text) : Except ReadError Text :=
  if path.isEmpty then .error .missing
  else if path.contains 0x00 then .error .badName
  else if pathLimit < path.length then .error .nameTooLong
  else
    let parts := path.splitOn Byte.slash
    if !Path.isRooted path then follow files [] parts
    else if parts.all isIdle then .error .isDirectory
    else .error .missing

end Files

end Scriptlet
