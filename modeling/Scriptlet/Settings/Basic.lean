import Scriptlet.Duration
import Scriptlet.Files

/-!
# Settings

What the command line can be told in a settings document, with the values that
hold otherwise. A document is read into entries, whatever its format; an entry
shows what it means where a text is wanted and where a switch is wanted. Entries
for settings that do not exist are ignored.
-/

namespace Scriptlet

structure Settings where
  prompt : Text
  continuation : Text
  historyFile : Text
  colours : Bool
  timeout : Text
deriving DecidableEq, Repr

inductive SettingsError where
  | unreadable (path : Text) (cause : ReadError)
  | malformed (path : Text)
  | badTimeout (given : Text) (cause : DurationError)
  | negativeTimeout (given : Text)
deriving DecidableEq, Repr

def SettingsError.message : SettingsError → Text
  | .unreadable path cause => text "failed to read config: " ++ cause.message path
  | .malformed path => text "failed to parse config " ++ path
  | .badTimeout given cause =>
      text "invalid timeout " ++ Text.quoted given ++ text ": " ++ cause.message given
  | .negativeTimeout given =>
      text "invalid timeout " ++ Text.quoted given ++ text ": must not be negative"

/-! ## Where things are -/

/-- The directory for settings and history, below the home directory where
there is one. -/
def settingsDirectory : Option Text → Text
  | none => text ".woc"
  | some home => Path.join home (text ".woc")

def Settings.default (home : Option Text) : Settings :=
  { prompt := text ">> "
    continuation := text ".. "
    historyFile := Path.join (settingsDirectory home) (text "history")
    colours := true
    timeout := [] }

/-- A path below `~` as a path below the home directory. -/
def expandHome (home : Option Text) (path : Text) : Text :=
  match home, path with
  | some h, c :: rest =>
      if c = Byte.tilde && (rest.isEmpty || rest.head? = some Byte.slash) then Path.join h rest
      else path
  | _, _ => path

/-! ## Entries -/

/-- What an entry means where a setting of some type is wanted. -/
inductive Meaning (α : Type) where
  | unfit
  | unset
  | set (value : α)
deriving DecidableEq, Repr

structure Entry where
  key : Text
  asText : Meaning Text
  asSwitch : Meaning Bool
deriving DecidableEq, Repr

/-- The new value of a setting, unless the entry does not fit. -/
def Meaning.over {α : Type} (old : α) : Meaning α → Option α
  | .unfit => none
  | .unset => some old
  | .set value => some value

namespace Settings

def apply (s : Settings) (e : Entry) : Option Settings :=
  if e.key = text "prompt" then
    (e.asText.over s.prompt).map fun v => { s with prompt := v }
  else if e.key = text "continuation_prompt" then
    (e.asText.over s.continuation).map fun v => { s with continuation := v }
  else if e.key = text "history_file" then
    (e.asText.over s.historyFile).map fun v => { s with historyFile := v }
  else if e.key = text "color" then
    (e.asSwitch.over s.colours).map fun v => { s with colours := v }
  else if e.key = text "timeout" then
    (e.asText.over s.timeout).map fun v => { s with timeout := v }
  else some s

def applyAll (s : Settings) (entries : List Entry) : Option Settings :=
  entries.foldlM apply s

/-- The timeout in nanoseconds; an empty one means none, which is zero. -/
def timeoutNanoseconds (s : Settings) : Except SettingsError Int :=
  if s.timeout.isEmpty then .ok 0
  else
    match Duration.read s.timeout with
    | .error cause => .error (.badTimeout s.timeout cause)
    | .ok n => if n < 0 then .error (.negativeTimeout s.timeout) else .ok n

end Settings

end Scriptlet
