import Scriptlet.Settings.Basic
import Scriptlet.Settings.Yaml.Document

/-!
# Settings in YAML

A document is one mapping. Plain and quoted scalars, and blocks, are values for
settings; lists and mappings are not. A plain scalar may spell null, which leaves
a setting as it is, and several words spell a switch. No key may be written
twice, and every key is a scalar. A document that is only a null says nothing, as
an empty one does.
-/

namespace Scriptlet

namespace Yaml

def nullWords : List Text := [text "", text "~", text "null", text "Null", text "NULL"]

def trueWords : List Text := [text "true", text "True", text "TRUE"]

def falseWords : List Text := [text "false", text "False", text "FALSE"]

/-- Words for a switch, in quotes or not. -/
def yesWords : List Text :=
  [text "y", text "Y", text "yes", text "Yes", text "YES", text "on", text "On", text "ON"]

def noWords : List Text :=
  [text "n", text "N", text "no", text "No", text "NO", text "off", text "Off", text "OFF"]

def switchWord (s : Text) : Meaning Bool :=
  if yesWords.contains s then .set true
  else if noWords.contains s then .set false
  else .unfit

def Value.isNull : Value → Bool
  | plain s => nullWords.contains s
  | _ => false

def entry (key : Text) : Value → Entry
  | .plain s =>
      if nullWords.contains s then ⟨key, .unset, .unset⟩
      else if trueWords.contains s then ⟨key, .set s, .set true⟩
      else if falseWords.contains s then ⟨key, .set s, .set false⟩
      else ⟨key, .set s, switchWord s⟩
  | .quoted s => ⟨key, .set s, switchWord s⟩
  | .collection => ⟨key, .unfit, .unfit⟩

/-- The text of a key. A collection is no key, nor is the mark for merging. -/
def keyText? : Value → Option Text
  | .plain s => if s = text "<<" then none else some s
  | .quoted s => some s
  | .collection => none

/-- The entries of a mapping; one whose key is null is ignored. -/
def entriesOf? (pairs : List (Value × Value)) : Option (List Entry) :=
  ((pairs.map Prod.fst).mapM keyText?).bind fun keys =>
    if keys.Nodup then
      some ((keys.zip pairs).filterMap fun (name, key, value) =>
        if key.isNull then none else some (entry name value))
    else none

/-- The entries of a document, unless it is malformed. -/
def entries? (content : Text) : Option (List Entry) :=
  (chars? content).bind fun cs =>
    (document? (.read cs)).bind fun root =>
      match root with
      | .value v => if v.isNull then some [] else none
      | .mapping pairs => entriesOf? pairs

end Yaml

end Scriptlet
