import Scriptlet.Duration
import Scriptlet.Text.Escape

/-!
# Reading the command line

A command line names a command, gives it arguments, and sets flags before or
after them, as `--flag value` or `--flag=value`; `--` ends the flags. A flag that
is a switch takes a value only behind an equals sign. `Invocation.read` finds
the command, reads its flags and counts its arguments, in that order, and the
first fault it meets is the one that counts.
-/

namespace Scriptlet

inductive Command where
  | run
  | tokens
  | ast
  | repl
deriving DecidableEq, Repr

namespace Command

def all : List Command := [run, tokens, ast, repl]

def name : Command → Text
  | run => text "run"
  | tokens => text "tokens"
  | ast => text "ast"
  | repl => text "repl"

end Command

inductive Flag where
  | config
  | noColour
  | timeout
  | tree
deriving DecidableEq, Repr

namespace Flag

def name : Flag → Text
  | config => text "config"
  | noColour => text "no-color"
  | timeout => text "timeout"
  | tree => text "tree"

def isSwitch : Flag → Bool
  | noColour | tree => true
  | config | timeout => false

/-- The flags that hold before a command is known, and for every command. -/
def shared : List Flag := [config, noColour]

def ofCommand : Option Command → List Flag
  | some .run => timeout :: shared
  | some .ast => tree :: shared
  | _ => shared

end Flag

inductive UsageError where
  | unknownFlag (name : Text)
  | unknownShorthand (letters : Text)
  | badSyntax (arg : Text)
  | missingValue (arg : Text)
  | invalidValue (flag : Flag) (value cause : Text)
  | argumentCount (received : Nat)
  | unknownCommand (word : Text) (above : Text)
deriving DecidableEq, Repr

/-- The first letter of a cluster, in apostrophes. -/
def UsageError.letter (letters : Text) : Text :=
  let code := (letters.headD 0).toNat
  text "'" ++ Text.quotedCharacter Byte.apostrophe code ((Utf8.encode? code).getD []) ++ text "'"

def UsageError.message : UsageError → Text
  | unknownFlag name => text "unknown flag: --" ++ name
  | unknownShorthand letters =>
      text "unknown shorthand flag: " ++ letter letters ++ text " in -" ++ letters
  | badSyntax arg => text "bad flag syntax: " ++ arg
  | missingValue arg => text "flag needs an argument: " ++ arg
  | invalidValue flag value cause =>
      text "invalid argument " ++ Text.quoted value ++ text " for "
        ++ Text.quoted (text "--" ++ flag.name) ++ text " flag: " ++ cause
  | argumentCount received =>
      text "accepts 1 arg(s), received " ++ Text.ofNat received
  | unknownCommand word above =>
      text "unknown command " ++ Text.quoted word ++ text " for " ++ Text.quoted above

/-! ## Finding the command -/

def isDashed (arg : Text) : Bool := arg.head? = some Byte.minus

/-- A long flag that stands for itself. -/
def isSwitchArg (arg : Text) : Bool :=
  Flag.shared.any fun f => f.isSwitch && text "--" ++ f.name = arg

/-- A flag that takes the next argument for its value. Flags that are not known
yet are taken for such. -/
def takesNext (arg : Text) : Bool :=
  !arg.contains Byte.equals
    && (((text "--").isPrefixOf arg && !isSwitchArg arg) || (isDashed arg && arg.length = 2))

/-- The arguments that are neither flags nor values of flags. -/
def plainWords : List Text → List Text
  | [] => []
  | arg :: rest =>
      if arg = text "--" then []
      else if takesNext arg then
        match rest with
        | [] | [_] => []
        | _ :: more => plainWords more
      else if arg.isEmpty || isDashed arg then plainWords rest
      else arg :: plainWords rest

/-- The arguments without the first one that is the plain word given. -/
def withoutWord (word : Text) : List Text → List Text
  | [] => []
  | arg :: rest =>
      if arg = text "--" then arg :: rest
      else if takesNext arg then
        match rest with
        | [] => [arg]
        | value :: more => arg :: value :: withoutWord word more
      else if arg = word then rest
      else arg :: withoutWord word rest

/-- The command and the arguments besides its name. -/
def findCommand (args : List Text) : Option Command × List Text :=
  match (plainWords args).head? with
  | none => (none, args)
  | some word =>
      match Command.all.find? (·.name == word) with
      | some command => (some command, withoutWord word args)
      | none => (none, args)

/-! ## Flags -/

/-- What the flags say. -/
structure Switches where
  config : Text
  noColour : Bool
  tree : Bool
deriving DecidableEq, Repr

def Switches.unset : Switches := ⟨[], false, false⟩

def readSwitch? (value : Text) : Option Bool :=
  if [text "1", text "t", text "T", text "TRUE", text "true", text "True"].contains value then
    some true
  else if [text "0", text "f", text "F", text "FALSE", text "false", text "False"].contains value
  then some false
  else none

def badSwitch (flag : Flag) (value : Text) : UsageError :=
  .invalidValue flag value
    (text "strconv.ParseBool: parsing " ++ Text.quoted value ++ text ": invalid syntax")

/-- Sets a flag. The value of a timeout only has to be a duration. -/
def Switches.set (s : Switches) (flag : Flag) (value : Text) : Except UsageError Switches :=
  match flag with
  | .config => .ok { s with config := value }
  | .noColour =>
      match readSwitch? value with
      | some b => .ok { s with noColour := b }
      | none => .error (badSwitch flag value)
  | .tree =>
      match readSwitch? value with
      | some b => .ok { s with tree := b }
      | none => .error (badSwitch flag value)
  | .timeout =>
      match Duration.read value with
      | .ok _ => .ok s
      | .error e => .error (.invalidValue flag value (e.message value))

/-- A long flag: its name and the value behind an equals sign, if it has one. -/
def splitFlag (arg : Text) : Text × Option Text := Text.cut Byte.equals (arg.drop 2)

/-- Reads the flags out of the arguments, and gives the arguments left over.
Flags of a test run are passed over. -/
def readFlags (known : List Flag) : Switches → List Text → Except UsageError (Switches × List Text)
  | s, [] => .ok (s, [])
  | s, arg :: rest =>
      if !isDashed arg || arg.length = 1 then
        (readFlags known s rest).map fun (s, left) => (s, arg :: left)
      else if arg = text "--" then .ok (s, rest)
      else if (text "-test.").isPrefixOf arg then readFlags known s rest
      else if !(text "--").isPrefixOf arg then .error (.unknownShorthand arg.tail)
      else if [some Byte.minus, some Byte.equals].contains (arg.drop 2).head? then
        .error (.badSyntax arg)
      else
        let (name, given) := splitFlag arg
        match known.find? (·.name == name), given with
        | none, _ => .error (.unknownFlag name)
        | some flag, some value => (s.set flag value).bind fun s => readFlags known s rest
        | some flag, none =>
            if flag.isSwitch then
              (s.set flag (text "true")).bind fun s => readFlags known s rest
            else
              match rest with
              | [] => .error (.missingValue arg)
              | value :: more => (s.set flag value).bind fun s => readFlags known s more

/-! ## Invocations -/

/-- What a command line asks for. -/
inductive Request where
  | overview
  | run (file : Text)
  | tokens (file : Text)
  | ast (file : Text) (tree : Bool)
  | repl
deriving DecidableEq, Repr

structure Invocation where
  request : Request
  config : Text
  noColour : Bool
deriving DecidableEq, Repr

/-- Checks the number of arguments. -/
def requestOf (switches : Switches) : Option Command → List Text → Except UsageError Request
  | none, _ => .ok .overview
  | some .repl, [] => .ok .repl
  | some .repl, word :: _ => .error (.unknownCommand word (text "woc repl"))
  | some .run, [file] => .ok (.run file)
  | some .tokens, [file] => .ok (.tokens file)
  | some .ast, [file] => .ok (.ast file switches.tree)
  | some _, args => .error (.argumentCount args.length)

def Invocation.read (args : List Text) : Except UsageError Invocation := do
  let (command, rest) := findCommand args
  if command = none then
    if let word :: _ := plainWords rest then
      throw (.unknownCommand word (text "woc"))
  let (switches, left) ← readFlags (Flag.ofCommand command) Switches.unset rest
  let request ← requestOf switches command left
  return ⟨request, switches.config, switches.noColour⟩

end Scriptlet
