import Scriptlet.Files
import Scriptlet.Source.Lines

/-!
# Source files

A source comes with a name and, mostly, with its text. Where no text comes with
it, the text is what the file of that name holds. A source that could not be
loaded keeps the reason, and has no text and no lines.
-/

namespace Scriptlet

/-- What comes with the name of a source. `other` is something that is no text,
told by its type. -/
inductive Supply where
  | nothing
  | content (s : Text)
  | other (type : Text)
deriving DecidableEq, Repr

/-- Why a source has no text. -/
inductive LoadError where
  | unreadable (why : ReadError)
  | invalidType (type : Text)
deriving DecidableEq, Repr

def LoadError.message (name : Text) : LoadError → Text
  | unreadable why => why.message name
  | invalidType type => text "invalid src type " ++ type

structure SourceFile where
  name : Text
  loaded : Except LoadError Text

namespace SourceFile

def load (read : Text → Except ReadError Text) (name : Text) : Supply → SourceFile
  | .nothing => ⟨name, (read name).mapError .unreadable⟩
  | .content s => ⟨name, .ok s⟩
  | .other type => ⟨name, .error (.invalidType type)⟩

def content (f : SourceFile) : Text := f.loaded.toOption.getD []

/-- The line table. -/
def lines (f : SourceFile) : List Nat := Source.lineOffsets f.content

/-- The text of a row without its line ending; a row outside the file, on
either side, is empty. -/
def line (f : SourceFile) : Int → Text
  | .ofNat row => Source.line f.content row
  | .negSucc _ => []

end SourceFile

end Scriptlet
