import Scriptlet.Settings.Toml
import Scriptlet.Settings.Yaml

/-!
# Loading settings

The settings come from a document that the caller names, or from the one in its
usual place, which need not exist. The extension of the path decides on the
format.
-/

namespace Scriptlet

namespace Settings

/-- Where settings are looked for: the path given, or the usual one. -/
def path (home : Option Text) (given : Text) : Text :=
  if given.isEmpty then Path.join (settingsDirectory home) (text "config.toml") else given

def isYaml (path : Text) : Bool :=
  let extension := Text.lower (Path.extension path)
  extension = text ".yaml" || extension = text ".yml"

/-- Marks that some editors put at the head of a text. -/
def headMarks : List Text := [[0xef, 0xbb, 0xbf], [0xff, 0xfe], [0xfe, 0xff]]

/-- What stands behind the first of the marks at the head of a text, or all of
it. -/
def behindMark (marks : List Text) (content : Text) : Text :=
  (marks.findSome? fun mark => Text.after? mark content).getD content

/-- The entries of a document. -/
def entries? (path content : Text) : Option (List Entry) :=
  if isYaml path then Yaml.entries? (behindMark (headMarks.take 1) content)
  else Toml.entries? (behindMark headMarks content)

/-- The settings in a document. -/
def ofDocument (home : Option Text) (path content : Text) : Except SettingsError Settings :=
  match (entries? path content).bind (Settings.default home).applyAll with
  | none => .error (.malformed path)
  | some s =>
      match s.timeoutNanoseconds with
      | .error e => .error e
      | .ok _ => .ok { s with historyFile := expandHome home s.historyFile }

/-- Loads settings; `read` gives the content of a file. -/
def load (read : Text → Except ReadError Text) (home : Option Text) (given : Text) :
    Except SettingsError Settings :=
  let path := path home given
  match read path with
  | .ok content => ofDocument home path content
  | .error cause =>
      if given.isEmpty && cause = .missing then .ok (Settings.default home)
      else .error (.unreadable path cause)

end Settings

end Scriptlet
