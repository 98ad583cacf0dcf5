import Scriptlet.Text.Basic

/-!
# Paths

Paths with slashes between their parts. The clean form of a path is the
shortest that names the same place by its text alone: no empty parts, no `.`,
and `..` only at the front of a relative path.
-/

namespace Scriptlet

namespace Path

def isRooted (path : Text) : Bool := path.head? = some Byte.slash

/-- Parts of a path from the last to the first, after one more part. -/
def descend (rooted : Bool) (parts : List Text) (part : Text) : List Text :=
  if part.isEmpty || part = text "." then parts
  else if part = text ".." then
    match parts with
    | [] => if rooted then [] else [part]
    | last :: above => if last = text ".." then part :: parts else above
  else part :: parts

def clean (path : Text) : Text :=
  let rooted := isRooted path
  let parts := ((path.splitOn Byte.slash).foldl (descend rooted) []).reverse
  let joined := [Byte.slash].intercalate parts
  if rooted then Byte.slash :: joined
  else if parts.isEmpty then text "."
  else joined

/-- Two paths one below the other, in clean form. -/
def join (above below : Text) : Text :=
  match (above.isEmpty, below.isEmpty) with
  | (true, true) => []
  | (true, false) => clean below
  | (false, true) => clean above
  | (false, false) => clean (above ++ text "/" ++ below)

/-- The extension of the last part, from its last point on. -/
def extension (path : Text) : Text :=
  let name := (path.splitOn Byte.slash).getLastD []
  if name.contains Byte.dot then Byte.dot :: (name.splitOn Byte.dot).getLastD [] else []

end Path

end Scriptlet
